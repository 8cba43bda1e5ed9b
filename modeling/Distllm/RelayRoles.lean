import Distllm.RelayViews

/-! Whether a worker is only given tasks of the role it polls for. The role queue holds tasks of
its role only, but what lies in a worker's own queue has the role the worker was registered for
when it was queued there. Nothing checks that role again when the worker registers for another
role, or when it polls. -/

namespace Distllm.Relay

open Relay.Inner

variable {settings : Settings} {readValue : Bytes → Option Value} {g g' : Inner} {now : Instant}

namespace Inner

theorem Serves.of_nodes {worker role : String} (h : g.Serves worker role)
    (hnodes : (g'.nodes.lookup worker).map Node.role = (g.nodes.lookup worker).map Node.role) :
    g'.Serves worker role := by
  obtain ⟨node, hnode, hrole⟩ := h
  rw [hnode, Option.map_some, Option.map_eq_some_iff] at hnodes
  obtain ⟨node', hnode', hsame⟩ := hnodes
  exact ⟨node', hnode', hsame.trans hrole⟩

theorem hasRole_eq_true {role id : String} : g.hasRole role id = true ↔
    ∃ task, g.tasks.lookup id = some task ∧ task.targetRole = role := by
  simp only [hasRole, Option.any_eq_true, beq_iff_eq]

theorem hasRole_congr {role id : String} (h : g'.tasks.lookup id = g.tasks.lookup id) :
    g'.hasRole role id = g.hasRole role id := by
  rw [hasRole, hasRole, h]

/-- What waits in a worker's own queue has the role the worker is registered for. -/
def OwnRoles (g : Inner) : Prop :=
  ∀ worker, ∀ x ∈ g.ofWorker worker, ∃ role, g.hasRole role x = true ∧ g.Serves worker role

/-- Fewer ids in the own queues of workers whose roles stay. -/
theorem OwnRoles.of_le (hg : g.OwnRoles)
    (hown : ∀ w, ∀ x ∈ g'.ofWorker w, x ∈ g.ofWorker w)
    (hrole : ∀ w, ∀ x ∈ g'.ofWorker w, ∀ role, g.hasRole role x = true → g'.hasRole role x = true)
    (hnodes : ∀ w, ∀ x ∈ g'.ofWorker w,
      (g'.nodes.lookup w).map Node.role = (g.nodes.lookup w).map Node.role) : g'.OwnRoles := by
  intro w x hx
  obtain ⟨role, htask, hserves⟩ := hg w x (hown w x hx)
  exact ⟨role, hrole w x hx role htask, hserves.of_nodes (hnodes w x hx)⟩

theorem OwnRoles.alike (hg : g.OwnRoles) (h : g.Alike g') : g'.OwnRoles :=
  hg.of_le (fun w x hx => h.ofWorker w ▸ hx) (fun _ x _ role => by
    rw [hasRole_congr (h.tasks x)]
    exact id) fun w _ _ => h.nodes w

theorem OwnRoles.queued {id : String} {task : Task} (hg : g.OwnRoles)
    (hfresh : g.tasks.lookup id = none) (h : g.Queued id task g') : g'.OwnRoles := by
  have hkeep : ∀ w, ∀ x ∈ g.ofWorker w,
      ∃ role, g'.hasRole role x = true ∧ g'.Serves w role := by
    intro w x hx
    obtain ⟨role, hrole, hserves⟩ := hg w x hx
    refine ⟨role, ?_, hserves.of_nodes (by rw [h.nodes])⟩
    rw [hasRole_congr ((h.tasks x).trans (if_neg fun heq => ?_)), hrole]
    rw [heq, hasRole, hfresh] at hrole
    cases hrole
  intro w x hx
  rcases h.place with ⟨worker, s, hserves, _, _, hown, _, _⟩ | ⟨_, hown, _, _⟩
  · rw [hown] at hx
    split at hx
    · rename_i hw
      rcases List.mem_append.mp hx with hx | hx
      · exact hkeep w x hx
      · refine ⟨task.targetRole, hasRole_eq_true.mpr ⟨task, ?_, rfl⟩,
          (hw ▸ hserves : g.Serves w task.targetRole).of_nodes (by rw [h.nodes])⟩
        rw [h.tasks, if_pos (List.mem_singleton.mp hx)]
    · exact hkeep w x hx
  · exact hkeep w x (hown w ▸ hx)

theorem OwnRoles.dealt {worker : String} {batch : List String} (hg : g.OwnRoles)
    (h : g.Dealt worker now batch g') : g'.OwnRoles := by
  have hmem : ∀ w, ∀ x ∈ g'.ofWorker w, x ∈ g.ofWorker w ∧ x ∉ batch := by
    intro w x hx
    rw [ofWorker, h.own, List.mem_filter, decide_eq_true_iff] at hx
    exact hx
  refine hg.of_le (fun w x hx => (hmem w x hx).1) (fun w x hx role => ?_) fun w x _ => by
    rw [h.nodes]
  rw [hasRole_congr ((h.tasks x).trans (if_neg (hmem w x hx).2))]
  exact id

theorem OwnRoles.settled (hg : g.OwnRoles) (h : g.Settled g') : g'.OwnRoles := by
  refine hg.of_le (fun w x hx => h.ofWorker w hx) (fun w x hx role => ?_) fun w x _ => by
    rw [h.nodes]
  obtain ⟨task, htask, hpending⟩ := (mem_ofWorker.mp hx).2
  rw [hasRole_congr (htask.trans (h.tasks x task htask (by rw [hpending]; rfl)).symm)]
  exact id

theorem OwnRoles.dropped {worker : String} (hexact : g.QueuesExact) (hg : g.OwnRoles)
    (h : g.Dropped worker g') : g'.OwnRoles := by
  refine hg.of_le (fun w x hx => (h.of_mem_ofWorker hexact hx).2)
    (fun w x hx role htask => ?_) fun w x hx => ?_
  · obtain ⟨task, hlookup, hrole⟩ := hasRole_eq_true.mp htask
    rw [hasRole_eq_true, h.tasks, hlookup]
    split
    · exact ⟨released task, rfl, hrole⟩
    · exact ⟨task, rfl, hrole⟩
  · rw [h.nodes, AList.lookup_erase_ne (h.of_mem_ofWorker hexact hx).1]

theorem OwnRoles.swept (hg : g.OwnRoles) (h : g.Swept settings now g') : g'.OwnRoles := by
  refine hg.of_le (fun w x hx => (h.of_mem_ofWorker hx).2.1)
    (fun w x hx role htask => ?_) fun w x hx => ?_
  · obtain ⟨_, _, task, hlookup, _, hafter⟩ := h.of_mem_ofWorker hx
    obtain ⟨task', hlookup', hrole⟩ := hasRole_eq_true.mp htask
    obtain rfl := Option.some.inj (hlookup.symm.trans hlookup')
    refine hasRole_eq_true.mpr ⟨_, hafter, ?_⟩
    split <;> exact hrole
  · rw [h.nodes, if_neg (h.of_mem_ofWorker hx).1]

/-- Registering for a role keeps the roles apart if nothing of another role waits for the node. -/
theorem OwnRoles.registered {nodeId role : String} {sessions : List String} (hg : g.OwnRoles)
    (hproper : ∀ x ∈ g.ofWorker nodeId, g.hasRole role x = true)
    (h : g.Registered nodeId role sessions now g') : g'.OwnRoles := by
  have htask : ∀ r x, g'.hasRole r x = g.hasRole r x := fun r x =>
    hasRole_congr (by rw [h.tasks])
  intro w x hx
  rw [h.own] at hx
  by_cases hw : w = nodeId
  · exact ⟨role, (htask role x).trans (hproper x (hw ▸ hx)), ⟨role, now⟩, by
      rw [h.nodes, if_pos hw], rfl⟩
  · obtain ⟨r, hrole, hserves⟩ := hg w x hx
    exact ⟨r, (htask r x).trans hrole, hserves.of_nodes (by rw [h.nodes, if_neg hw])⟩

/-- What a poll hands out is what it takes. -/
theorem mem_withPayloads {ids : List String} {handed : String × Bytes} :
    handed ∈ withPayloads g ids ↔
      handed.1 ∈ ids ∧ ∃ task, g.tasks.lookup handed.1 = some task ∧ task.payload = handed.2 := by
  simp only [withPayloads, List.mem_filterMap, Option.map_eq_some_iff]
  constructor
  · rintro ⟨id, hid, task, htask, rfl⟩
    exact ⟨hid, task, htask, rfl⟩
  · rintro ⟨hid, task, htask, hpayload⟩
    exact ⟨handed.1, hid, task, htask, Prod.ext rfl hpayload⟩

theorem QueuesExact.batch_role_iff (hexact : g.QueuesExact) (hg : g.OwnRoles)
    (role worker : String) (n : Nat) :
    (∀ handed ∈ withPayloads g (g.batch worker role n), ∃ task,
        g.tasks.lookup handed.1 = some task ∧ task.targetRole = role) ↔
      ∀ node, g.nodes.lookup worker = some node → node.role ≠ role → g.ofWorker worker = [] := by
  constructor
  · intro h node hnode hne
    by_contra hwaiting
    obtain ⟨first, rest, hown⟩ := List.exists_cons_of_ne_nil hwaiting
    -- the first id of the worker's own queue is always handed out
    have hfirst : first ∈ g.batch worker role n := by
      rw [batch, waiting_eq, hown, List.cons_append]
      have hpos : max 1 n = (max 1 n - 1) + 1 := by omega
      rw [hpos, List.take_succ_cons]
      exact List.mem_cons_self
    obtain ⟨r, hrole, node', hnode', hserves⟩ := hg worker first (hown ▸ List.mem_cons_self)
    obtain rfl := Option.some.inj (hnode.symm.trans hnode')
    obtain ⟨task, htask, hr⟩ := hasRole_eq_true.mp hrole
    obtain ⟨task', htask', hr'⟩ := h (first, task.payload)
      (mem_withPayloads.mpr ⟨hfirst, task, htask, rfl⟩)
    obtain rfl := Option.some.inj (htask.symm.trans htask')
    exact hne (hserves.trans (hr.symm.trans hr'))
  · rintro h ⟨id, payload⟩ hhanded
    obtain ⟨hid, task, htask, _⟩ := mem_withPayloads.mp hhanded
    refine ⟨task, htask, ?_⟩
    rcases (batch_cases hid).2 with hown | hshared
    · obtain ⟨r, hrole, node, hnode, hserves⟩ := hg worker id hown
      obtain ⟨task', htask', hr⟩ := hasRole_eq_true.mp hrole
      obtain rfl := Option.some.inj (htask.symm.trans htask')
      by_contra hne
      rw [h node hnode fun hsame => hne (hr.trans (hserves.symm.trans hsame))] at hown
      cases hown
    · exact hexact.role_of_ofRole hshared htask

end Inner

/-- A node registers while no pending task of another role waits in its own queue. -/
def Event.KeepsRole (g : Inner) : Event → Prop
  | .call (.register nodeId role _) _ _ => ∀ x ∈ g.ofWorker nodeId, g.hasRole role x = true
  | _ => True

instance (g : Inner) (event : Event) : Decidable (event.KeepsRole g) :=
  match event with
  | .call (.register nodeId role _) _ _ =>
    inferInstanceAs (Decidable (∀ x ∈ g.ofWorker nodeId, g.hasRole role x = true))
  | .call (.submit ..) .. | .call (.poll ..) .. | .call (.pollDeadline ..) ..
  | .call (.postResult ..) .. | .call (.postFailure ..) .. | .call (.deregister ..) ..
  | .call (.heartbeat ..) .. | .call .sweep .. | .rehash => inferInstanceAs (Decidable True)

theorem ownRoles_effect {op : Op} {answer : Answer} (hexact : g.QueuesExact) (hg : g.OwnRoles)
    (hkeeps : Event.KeepsRole g (.call op answer now)) (h : Effect settings readValue now g op g') :
    g'.OwnRoles := by
  cases h with
  | nothing => exact hg
  | queued hfresh _ _ _ h => exact hg.queued hfresh.task h
  | dealt h => exact hg.dealt h
  | dealtLast h => exact hg.dealt h
  | settled h => exact hg.settled h
  | forwarded hfresh _ _ _ _ _ hsettled _ h =>
      exact (hg.settled hsettled).queued (hsettled.absent _ hfresh.task) h
  | registered h => exact hg.registered hkeeps h
  | dropped hnode h => exact hg.dropped hexact h
  | beaten h => exact hg.alike h
  | swept h => exact hg.swept h

theorem ownRoles_run {clock : Instant} {events : List Event} {w : World}
    (hrun : Run (fun u e v => Step settings readValue u e v ∧ e.KeepsRole u.inner)
      (World.start clock) events w) : w.QueuesInv ∧ w.inner.OwnRoles := by
  refine hrun.invariant (P := fun w => w.QueuesInv ∧ w.inner.OwnRoles) ?_
    ⟨queuesInv_start clock, fun worker x hx => ?_⟩
  · rintro u e v ⟨hstep, hkeeps⟩ ⟨hinv, hroles⟩
    refine ⟨queuesInv_step hstep hinv, ?_⟩
    cases hstep with
    | call _ _ hfresh =>
        exact ownRoles_effect hinv.exact hroles hkeeps
          (exec_effect settings readValue _ _ hinv.exact fun id hid => hinv.known.fresh (hfresh id hid))
    | rehash h => exact hroles.alike h.alike
  · cases hx

/-- **A poll hands out tasks of its role** if and only if the worker is not registered for another
role, or nothing pending waits in its own queue; in every run where a node only registers while no
pending task of another role waits in its own queue. -/
theorem poll_hands_out_role_iff {clock : Instant} {events : List Event} {w : World}
    (hrun : Run (fun u e v => Step settings readValue u e v ∧ e.KeepsRole u.inner)
      (World.start clock) events w) (role worker : String) (maxTasks : Nat) (now : Instant) :
    ((∀ handed ∈ (poll w.inner role worker maxTasks now).1, ∃ task,
        w.inner.tasks.lookup handed.1 = some task ∧ task.targetRole = role) ↔
      ∀ node, w.inner.nodes.lookup worker = some node → node.role ≠ role →
        w.inner.ofWorker worker = []) ∧
    ((∀ handed ∈ (pollDeadline w.inner role worker now).1, ∃ task,
        w.inner.tasks.lookup handed.1 = some task ∧ task.targetRole = role) ↔
      ∀ node, w.inner.nodes.lookup worker = some node → node.role ≠ role →
        w.inner.ofWorker worker = []) := by
  obtain ⟨hinv, hroles⟩ := ownRoles_run hrun
  rw [(poll_dealt hinv.exact role worker maxTasks now).1, (pollDeadline_dealt role worker now).1]
  exact ⟨hinv.exact.batch_role_iff hroles role worker maxTasks,
    hinv.exact.batch_role_iff hroles role worker 1⟩

/-- A condition holds at every operation of a schedule. -/
def Along (settings : Settings) (readValue : Bytes → Option Value) (C : Inner → Event → Prop)
    (w : World) : List (Op × Instant) → Prop
  | [] => True
  | (op, now) :: rest =>
    C w.inner (.call op (exec settings readValue op now w.inner).1 now) ∧
      Along settings readValue C
        ⟨(exec settings readValue op now w.inner).2, now, op.drawn ++ w.issued⟩ rest

theorem run_along {C : Inner → Event → Prop} {w : World} {ops : List (Op × Instant)}
    (h : Scheduled w.clock w.issued ops) (hC : Along settings readValue C w ops) :
    Run (fun u e v => Step settings readValue u e v ∧ C u.inner e) w
      (execAll settings readValue w ops).1 (execAll settings readValue w ops).2 := by
  induction ops generalizing w with
  | nil => exact .refl w
  | cons first rest ih =>
      obtain ⟨op, now⟩ := first
      obtain ⟨hclock, htimely, hfresh, hrest⟩ := h
      exact .cons ⟨.call hclock htimely hfresh, hC.1⟩ (ih hrest hC.2)

/-- A worker takes a task of a session, registers again for its role and is kept the session's next
task: its poll for the role hands this out, then what waits for the role; a poll for another role would
hand it out too. -/
theorem poll_hands_out_role_iff_registered :
    let settings : Settings := ⟨fromSecs 120, fromSecs 15⟩
    let w := (execAll settings (fun _ => none) (World.start 0)
      [(.register "w" "a" [], 0), (.submit "t" "a" [1] [] (some "s") 0, 0), (.poll "a" "w" 1, 0),
        (.submit "u" "a" [2] [] (some "s") 0, 1), (.submit "x" "a" [3] [] none 0, 1),
        (.register "w" "a" ["s"], 2)]).2
    (poll w.inner "a" "w" 2 3).1 = [("u", [2]), ("x", [3])] ∧
      (∀ handed ∈ (poll w.inner "a" "w" 2 3).1, ∃ task,
        w.inner.tasks.lookup handed.1 = some task ∧ task.targetRole = "a") ∧
      ¬∀ handed ∈ (poll w.inner "b" "w" 1 3).1, ∃ task,
        w.inner.tasks.lookup handed.1 = some task ∧ task.targetRole = "b" := by
  intro settings w
  have hrun : Run (fun u e v => Step settings (fun _ => none) u e v ∧ e.KeepsRole u.inner)
      (World.start 0) _ w :=
    run_along (C := fun g e => e.KeepsRole g) (by decide)
      ⟨by decide, trivial, trivial, trivial, trivial, by decide, trivial⟩
  refine ⟨by decide, ?_, fun hall => ?_⟩
  · refine (poll_hands_out_role_iff hrun "a" "w" 2 3).1.mpr fun node hnode hne => ?_
    have hrole : (w.inner.nodes.lookup "w").map Node.role = some "a" := by decide
    rw [hnode, Option.map_some, Option.some.injEq] at hrole
    exact absurd hrole hne
  · have hown := (poll_hands_out_role_iff hrun "b" "w" 1 3).1.mp hall _ rfl (by decide)
    revert hown
    decide

/-- A worker that took a session of role `a` registers for role `b` while a task of the session
waits for it: a poll for `b` hands out the task of role `a`. -/
theorem poll_hands_out_other_role :
    ∃ events w, RunFrom ⟨fromSecs 120, fromSecs 15⟩ (fun _ => none) 0 events w ∧
      (w.inner.nodes.lookup "w").map Node.role = some "b" ∧
      ∃ task, ("u", []) ∈ (poll w.inner "b" "w" 1 0).1 ∧
        w.inner.tasks.lookup "u" = some task ∧ task.targetRole = "a" :=
  ⟨_, _, run_execAll _ _ (World.start 0) [(.register "w" "a" [], 0),
    (.submit "t" "a" [] [] (some "s") 0, 0), (.poll "a" "w" 1, 0),
    (.submit "u" "a" [] [] (some "s") 0, 0), (.register "w" "b" [], 0)] (by decide),
    by decide, _, by decide, rfl, rfl⟩

end Distllm.Relay
