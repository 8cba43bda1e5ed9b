import Distllm.NetworkState

/-! What clients and workers may rely on. A task that was handed out keeps its payload and its role
while it is stored, and no later task takes its identifier; so what a worker uploads is an answer
that its task's role may give, however late it arrives. -/

namespace Distllm.Relay

open Relay.Inner Ledger

variable {settings : Settings} {readValue : Bytes → Option Value}
  {W : String → Bytes → Report → Prop} {roleOf : String → String} {w w' : World} {event : Event}

/-! ### Tasks that were handed out -/

/-- The task was drawn before; its record, if there still is one, has this role and this payload. -/
def World.Handed (w : World) (id role : String) (data : Bytes) : Prop :=
  id ∈ w.issued ∧ ∀ task, w.inner.ledger id = some task → task.targetRole = role ∧ task.payload = data

theorem handed_change {drawn : List String} {now : Instant} {posted : Task → Report → Prop}
    {s s' : Ledger} {id role : String} {data : Bytes} (h : Change drawn now posted s s')
    (hid : id ∉ drawn)
    (hs : ∀ task, s id = some task → task.targetRole = role ∧ task.payload = data) :
    ∀ task, s' id = some task → task.targetRole = role ∧ task.payload = data := by
  intro task' htask'
  cases h with
  | moved h =>
      have hrel := h id
      rw [htask'] at hrel
      obtain ⟨task, htask, hmoved⟩ := exists_of_relMoved hrel
      rw [hmoved.targetRole, hmoved.payload]
      exact hs task htask
  | @submitted new _ hnew _ _ _ =>
      have hne : id ≠ new := fun heq => hid (heq ▸ hnew)
      rw [Function.update_of_ne hne] at htask'
      exact hs task' htask'
  | @forwarded source next _ _ task _ hnext _ _ htask _ _ _ =>
      have hne : id ≠ next := fun heq => hid (heq ▸ hnext)
      rw [Function.update_of_ne hne, Function.update_apply] at htask'
      split at htask'
      · rename_i heq
        obtain rfl := Option.some.inj htask'
        exact hs task (heq ▸ htask)
      · exact hs task' htask'
  | @finished source task status result error _ _ _ _ _ =>
      dsimp only at htask'
      split at htask'
      · obtain ⟨before, hbefore, rfl⟩ := Option.map_eq_some_iff.mp htask'
        have hsame := hs before hbefore
        unfold concluded
        split
        · exact hsame
        · exact hsame
      · exact hs task' htask'
  | cleaned =>
      obtain ⟨hkept, -⟩ := Option.filter_eq_some_iff.mp htask'
      exact hs task' hkept

theorem handed_changes {drawn : List String} {now : Instant} {posted : Task → Report → Prop}
    {s s' : Ledger} {id role : String} {data : Bytes} (h : Changes drawn now posted s s')
    (hid : id ∉ drawn)
    (hs : ∀ task, s id = some task → task.targetRole = role ∧ task.payload = data) :
    ∀ task, s' id = some task → task.targetRole = role ∧ task.payload = data := by
  induction h with
  | refl => exact hs
  | tail _ hchange ih => exact handed_change hchange hid ih

/-- What a step of the relay leaves alone, about the tasks that were drawn before. -/
structure World.Carries (W : String → Bytes → Report → Prop) (w w' : World) : Prop where
  issued : w.issued ⊆ w'.issued
  handed : ∀ id role data, w.Handed id role data → w'.Handed id role data
  mayCome : ∀ id outcomes, id ∈ w.issued → w.inner.ledger.MayCome W id outcomes →
    w'.inner.ledger.MayCome W id outcomes

theorem World.Carries.refl (w : World) : w.Carries W w :=
  ⟨List.Subset.refl _, fun _ _ _ h => h, fun _ _ _ h => h⟩

theorem carries_step (h : HonestStep settings readValue W w event w') (hw : w.ChainsInv) :
    w.Carries W w' := by
  obtain ⟨hclock, drawn, hdrawn, hissued, hchanges⟩ := step_changes h.1 hw.queues
  obtain ⟨report, hposted⟩ := honest_posts h
  have hsub : w.issued ⊆ w'.issued := by
    rw [hissued]
    exact List.subset_append_right _ _
  refine ⟨hsub, fun id role data hhanded => ?_, fun id outcomes hid hmay => ?_⟩
  · exact ⟨hsub hhanded.1, handed_changes hchanges (fun hmem => hdrawn id hmem hhanded.1) hhanded.2⟩
  · exact mayCome_changes hchanges (hw.chains.mono hclock) hposted
      (fun hmem => hdrawn id hmem hid) hmay

/-! ### What the records ask for -/

/-- Every record is about a payload that `G` allows for its role and its route. -/
def Ledger.Stores (G : String → Bytes → List String → Prop) (s : Ledger) : Prop :=
  ∀ id task, s id = some task → G task.targetRole task.payload task.route

variable {G : String → Bytes → List String → Prop}

/-- Without a new record nothing new is asked for. -/
theorem stores_change {now : Instant} {posted : Task → Report → Prop} {s s' : Ledger}
    (h : Change [] now posted s s') (hs : s.Stores G) : s'.Stores G := by
  intro id task' htask'
  cases h with
  | moved h =>
      have hrel := h id
      rw [htask'] at hrel
      obtain ⟨task, htask, hmoved⟩ := exists_of_relMoved hrel
      rw [hmoved.targetRole, hmoved.payload, hmoved.route]
      exact hs id task htask
  | submitted hid => cases hid
  | forwarded _ hnext => cases hnext
  | @finished source task status result error _ _ _ _ _ =>
      dsimp only at htask'
      split at htask'
      · obtain ⟨before, hbefore, rfl⟩ := Option.map_eq_some_iff.mp htask'
        have hsame := hs id before hbefore
        unfold concluded
        split
        · exact hsame
        · exact hsame
      · exact hs id task' htask'
  | cleaned =>
      obtain ⟨hkept, -⟩ := Option.filter_eq_some_iff.mp htask'
      exact hs id task' hkept

theorem stores_changes {now : Instant} {posted : Task → Report → Prop} {s s' : Ledger}
    (h : Changes [] now posted s s') (hs : s.Stores G) : s'.Stores G := by
  induction h with
  | refl => exact hs
  | tail _ hchange ih => exact stores_change hchange ih

theorem Ledger.Stores.insert {s : Ledger} (hs : s.Stores G) {id : String} {task : Task}
    (htask : G task.targetRole task.payload task.route) :
    Ledger.Stores G (Function.update s id (some task)) := by
  intro x task' htask'
  rw [Function.update_apply] at htask'
  split at htask'
  · obtain rfl := Option.some.inj htask'
    exact htask
  · exact hs x task' htask'

/-- What is submitted, or what a stage hands on, is all that is new. -/
theorem stores_step (h : HonestStep settings readValue W w event w')
    (hsubmit : ∀ id role body route session createdAt answer now,
      event = .call (.submit id role body route session createdAt) answer now → G role body route)
    (hnext : ∀ role data next tail body, G role data (next :: tail) →
      W role data (.result body false) → G next body tail)
    (hw : w.inner.ledger.Stores G) : w'.inner.ledger.Stores G := by
  obtain ⟨hstep, hposts⟩ := h
  cases hstep with
  | rehash h =>
      intro id task htask
      exact hw id task ((h.lookup_tasks id).symm.trans htask)
  | @call op now hclock htimely hfresh =>
      have hquiet : op.drawn = [] →
          (exec settings readValue op now w.inner).2.ledger.Stores G := by
        intro hnone
        have hatoms := exec_atoms settings readValue op w.inner htimely fun id hid => by
          rw [hnone] at hid
          cases hid
        rw [hnone] at hatoms
        exact stores_changes (atoms_changes hatoms) hw
      cases op with
      | submit id role body route session createdAt =>
          change (w.inner.enqueue id _).ledger.Stores G
          rw [ledger_enqueue]
          exact hw.insert (hsubmit _ _ _ _ _ _ _ _ rfl)
      | postResult id workerId stopChain body next =>
          rcases postResult_cases readValue w.inner id workerId stopChain body next now with
            ⟨outcome, _, h⟩ | ⟨task, htask, hlive, _, hends, h⟩ |
              ⟨task, nextRole, tail, htask, hlive, _, hroute, hstops, h⟩
          · simp only [exec, h]
            exact hw
          · simp only [exec, h]
            have hatom : Atom [] now (fun _ _ => True) w.inner
                (w.inner.finish id .completed (some body) none now) :=
              .finished _ htask hlive trivial (.completed body hends)
            exact stores_change (atom_change hatom) hw
          · have hworks : W task.targetRole task.payload (.result body false) := by
              rw [← hstops]
              refine hposts id (.body body stopChain) ?_ task htask
              simp only [exec, h]
              rfl
            have hsource := hw id task htask
            rw [hroute] at hsource
            simp only [exec, h]
            rw [ledger_enqueue, ledger_modify _ _ htask]
            refine Ledger.Stores.insert (hw.insert ?_) (hnext _ _ _ _ _ hsource hworks)
            rw [← hroute] at hsource
            exact hsource
      | postFailure id workerId message => exact hquiet rfl
      | poll => exact hquiet rfl
      | pollDeadline => exact hquiet rfl
      | register => exact hquiet rfl
      | deregister => exact hquiet rfl
      | heartbeat => exact hquiet rfl
      | sweep => exact hquiet rfl

/-! ### A relay that starts again -/

/-- The tables are lost; identifiers that were drawn are not drawn again. -/
def World.restarted (w : World) (now : Instant) : World := ⟨.empty, now, w.issued⟩

theorem carries_restarted (w : World) (now : Instant) : w.Carries W (w.restarted now) :=
  ⟨List.Subset.refl _, fun _ _ _ h => ⟨h.1, nofun⟩, fun _ _ _ _ => .inl rfl⟩

theorem chainsInv_restarted (w : World) (now : Instant) : (w.restarted now).ChainsInv :=
  ⟨⟨(queuesInv_start now).known.mono (List.nil_subset _), (queuesInv_start now).exact⟩,
    (chainsInv_start now).chains⟩

/-! ### Workers of one role each -/

/-- Every registered node has the role that its name stands for. -/
def Inner.RolesOf (roleOf : String → String) (g : Inner) : Prop :=
  ∀ worker node, g.nodes.lookup worker = some node → node.role = roleOf worker

/-- A registration is for the role that the name stands for. -/
def Op.Registers (roleOf : String → String) : Op → Prop
  | .register nodeId role _ => role = roleOf nodeId
  | _ => True

theorem rolesOf_effect {g g' : Inner} {op : Op} {now : Instant}
    (h : Effect settings readValue now g op g') (hop : op.Registers roleOf) (hg : g.RolesOf roleOf) :
    g'.RolesOf roleOf := by
  intro worker node hnode
  have hsame : g'.nodes = g.nodes → node.role = roleOf worker := fun hnodes =>
    hg worker node (hnodes ▸ hnode)
  cases h with
  | nothing => exact hg worker node hnode
  | queued _ _ _ _ h => exact hsame h.nodes
  | dealt h => exact hsame h.nodes
  | dealtLast h => exact hsame h.nodes
  | settled h => exact hsame h.nodes
  | forwarded _ _ _ _ _ _ hsettled _ h => exact hsame (h.nodes.trans hsettled.nodes)
  | registered h =>
      rw [h.nodes] at hnode
      split at hnode
      · rename_i heq
        obtain rfl := Option.some.inj hnode
        rw [heq]
        exact hop
      · exact hg worker node hnode
  | @dropped nodeId _ _ _ h =>
      rw [h.nodes] at hnode
      by_cases heq : worker = nodeId
      · rw [heq, AList.lookup_erase] at hnode
        cases hnode
      · rw [AList.lookup_erase_ne heq] at hnode
        exact hg worker node hnode
  | beaten h =>
      have hrole := h.nodes worker
      rw [hnode, Option.map_some] at hrole
      obtain ⟨before, hbefore, hbeforeRole⟩ := Option.map_eq_some_iff.mp hrole.symm
      exact hbeforeRole ▸ hg worker before hbefore
  | swept h =>
      rw [h.nodes] at hnode
      split at hnode
      · cases hnode
      · exact hg worker node hnode

/-- The invariants of a relay whose workers keep their roles. -/
structure World.Proper (roleOf : String → String) (w : World) : Prop where
  chains : w.ChainsInv
  own : w.inner.OwnRoles
  roles : w.inner.RolesOf roleOf

theorem proper_restarted (w : World) (now : Instant) : (w.restarted now).Proper roleOf where
  chains := chainsInv_restarted w now
  own := fun worker x hx => by cases hx
  roles := fun worker node hnode => by cases hnode

/-- What waits in a worker's own queue has the role that the worker's name stands for. -/
theorem World.Proper.hasRole (hw : w.Proper roleOf) {worker x : String}
    (hx : x ∈ w.inner.ofWorker worker) : w.inner.hasRole (roleOf worker) x = true := by
  obtain ⟨role, hrole, node, hnode, hserves⟩ := hw.own worker x hx
  obtain rfl : role = roleOf worker := hserves.symm.trans (hw.roles worker node hnode)
  exact hrole

theorem proper_step (h : Step settings readValue w event w')
    (hop : ∀ op answer now, event = .call op answer now → op.Registers roleOf)
    (hw : w.Proper roleOf) : w'.Proper roleOf := by
  refine ⟨chainsInv_step h hw.chains, ?_, ?_⟩
  · cases h with
    | @call op now hclock htimely hfresh =>
        have hkeeps : Event.KeepsRole w.inner
            (.call op (exec settings readValue op now w.inner).1 now) := by
          cases op with
          | register nodeId role sessions =>
              obtain rfl : role = roleOf nodeId := hop _ _ _ rfl
              exact fun x hx => hw.hasRole hx
          | submit => trivial
          | poll => trivial
          | pollDeadline => trivial
          | postResult => trivial
          | postFailure => trivial
          | deregister => trivial
          | heartbeat => trivial
          | sweep => trivial
        exact ownRoles_effect hw.chains.queues.exact hw.own hkeeps (exec_effect settings readValue op
          now hw.chains.queues.exact fun id hid => hw.chains.queues.known.fresh (hfresh id hid))
    | rehash h => exact hw.own.alike h.alike
  · cases h with
    | @call op now hclock htimely hfresh =>
        exact rolesOf_effect (exec_effect settings readValue op now hw.chains.queues.exact
          fun id hid => hw.chains.queues.known.fresh (hfresh id hid)) (hop _ _ _ rfl) hw.roles
    | rehash h =>
        intro worker node hnode
        exact hw.roles worker node ((h.lookup_nodes worker).symm.trans hnode)

/-- A worker is handed different tasks, all of its role and in the relay until now. -/
theorem World.Proper.batch_handed (hw : w.Proper roleOf) (worker : String) (n : Nat) :
    ((withPayloads w.inner (w.inner.batch worker (roleOf worker) n)).map Prod.fst).Nodup ∧
      ∀ handed ∈ withPayloads w.inner (w.inner.batch worker (roleOf worker) n),
        w.Handed handed.1 (roleOf worker) handed.2 ∧ ∃ task,
          w.inner.ledger handed.1 = some task ∧ task.targetRole = roleOf worker ∧
            task.payload = handed.2 := by
  have hexact := hw.chains.queues.exact
  constructor
  · have hnodup : (w.inner.batch worker (roleOf worker) n).Nodup :=
      (hexact.nodup_waiting worker (roleOf worker)).sublist (List.take_sublist _ _)
    refine hnodup.sublist ?_
    generalize w.inner.batch worker (roleOf worker) n = ids
    induction ids with
    | nil => exact List.Sublist.refl _
    | cons id ids ih =>
        rw [withPayloads, List.filterMap_cons]
        cases w.inner.tasks.lookup id with
        | none => exact ih.cons id
        | some task => exact ih.cons_cons id
  · intro handed hhanded
    obtain ⟨-, task, htask, hpayload⟩ := mem_withPayloads.mp hhanded
    have hrole := (hexact.batch_role_iff hw.own (roleOf worker) worker n).mpr
      fun node hnode hne => absurd (hw.roles worker node hnode) hne
    obtain ⟨task', htask', htarget⟩ := hrole handed hhanded
    obtain rfl := Option.some.inj (htask.symm.trans htask')
    refine ⟨⟨hw.chains.queues.known.task _ _ htask, fun stored hstored => ?_⟩,
      task, htask, htarget, hpayload⟩
    obtain rfl := Option.some.inj (htask.symm.trans hstored)
    exact ⟨htarget, hpayload⟩

end Distllm.Relay
