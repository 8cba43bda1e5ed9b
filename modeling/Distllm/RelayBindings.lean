import Distllm.RelayPolls

/-! What the operations do to the bindings of sessions, together with the queues: what a new task
finds, what re-queued tasks give up, what a gone worker loses and what a registration claims. -/

namespace Distllm.Relay

open Relay.Inner

namespace Inner

variable (g : Inner) {now : Instant}

/-- The worker a session is bound to for a role, registered or not. -/
def boundTo (g : Inner) (key : String × String) : Option String :=
  (g.affinity.lookup key).map Prod.fst

/-- The worker a stored task is assigned to. -/
def workerOf (g : Inner) (id : String) : Option String := (g.tasks.lookup id).bind Task.workerId

/-- The node is registered for the role. -/
def Serves (g : Inner) (worker role : String) : Prop :=
  ∃ node, g.nodes.lookup worker = some node ∧ node.role = role

theorem boundTo_eq_some {key : String × String} {worker : String} :
    g.boundTo key = some worker ↔ ∃ used, g.affinity.lookup key = some (worker, used) := by
  simp only [boundTo, Option.map_eq_some_iff, Prod.exists, exists_and_right, exists_eq_right]

theorem boundWorker_eq_some {role : String} {session : Option String} {worker : String} :
    (g.boundWorker role session).1 = some worker ↔
      g.Serves worker role ∧ ∃ s, session = some s ∧ g.boundTo (role, s) = some worker := by
  constructor
  · intro h
    obtain ⟨_, hserves, s, used, hsession, hbound⟩ := g.boundWorker_some h
    exact ⟨hserves, s, hsession, g.boundTo_eq_some.mpr ⟨used, hbound⟩⟩
  · rintro ⟨⟨node, hnode, hrole⟩, s, rfl, hbound⟩
    obtain ⟨used, hbound⟩ := g.boundTo_eq_some.mp hbound
    simp only [boundWorker, hbound, hnode, hrole, if_true]

/-- Where no registered worker of the role is bound, the binding is dropped. -/
theorem boundWorker_none {task : Task}
    (h : (g.boundWorker task.targetRole task.session).1 = none) :
    ∃ affinity, (g.boundWorker task.targetRole task.session).2 = { g with affinity := affinity } ∧
      ∀ key, affinity.lookup key =
        if task.key = some key then none else g.affinity.lookup key := by
  cases hsession : task.session with
  | none =>
      refine ⟨_, by rw [boundWorker], fun key => ?_⟩
      rw [Task.key, hsession, if_neg (by simp)]
  | some session =>
      rw [hsession] at h
      have hkey : task.key = some (task.targetRole, session) := by
        rw [Task.key, hsession, Option.map_some]
      have herase : ∀ key, (g.affinity.erase (task.targetRole, session)).lookup key =
          if task.key = some key then none else g.affinity.lookup key := by
        intro key
        rw [AList.lookup_erase_eq, hkey]
        simp only [Option.some.injEq, eq_comm]
      unfold boundWorker at h ⊢
      dsimp only at h ⊢
      cases hbound : g.affinity.lookup (task.targetRole, session) with
      | none =>
          refine ⟨_, rfl, fun key => ?_⟩
          split
          · rename_i hsame
            rw [← Option.some.inj (hkey.symm.trans hsame), hbound]
          · rfl
      | some bound =>
          obtain ⟨worker, used⟩ := bound
          rw [hbound] at h
          dsimp only at h ⊢
          cases hnode : g.nodes.lookup worker with
          | none => exact ⟨_, rfl, herase⟩
          | some node =>
              rw [hnode] at h
              dsimp only at h ⊢
              split
              · rename_i hrole
                rw [if_pos hrole] at h
                cases h
              · exact ⟨_, rfl, herase⟩

/-- A new task waits for the registered worker of its role that holds its session, or in its role
queue; then a binding to anyone else has been dropped. -/
theorem enqueue_spec (id : String) (task : Task) :
    (∃ worker, g.Serves worker task.targetRole ∧
      (∃ s, task.session = some s ∧ g.boundTo (task.targetRole, s) = some worker) ∧
      g.enqueue id task = { g with
        tasks := g.tasks.insert id task, workerQueues := g.workerQueues.enqueue worker id }) ∨
    (∀ worker s, g.Serves worker task.targetRole → task.session = some s →
        g.boundTo (task.targetRole, s) ≠ some worker) ∧
      ∃ affinity, g.enqueue id task = { g with
          tasks := g.tasks.insert id task, affinity := affinity,
          roleQueues := g.roleQueues.enqueue task.targetRole id } ∧
        ∀ key, affinity.lookup key =
          if task.key = some key then none else g.affinity.lookup key := by
  cases hbound : (g.boundWorker task.targetRole task.session).1 with
  | some worker =>
      obtain ⟨hserves, hsession⟩ := g.boundWorker_eq_some.mp hbound
      refine .inl ⟨worker, hserves, hsession, ?_⟩
      simp only [enqueue, hbound, (g.boundWorker_some hbound).1]
      rfl
  | none =>
      obtain ⟨affinity, hframe, hlookup⟩ := g.boundWorker_none hbound
      refine .inr ⟨fun worker s hserves hsession hto => ?_, affinity, ?_, hlookup⟩
      · cases hbound.symm.trans (g.boundWorker_eq_some.mpr ⟨hserves, s, hsession, hto⟩)
      · simp only [enqueue, hbound, hframe]
        rfl

/-! ### Re-queued tasks -/

/-- Re-queueing these tasks gives up the binding to this worker. -/
def givesUp (g : Inner) (ids : List String) (key : String × String) (worker : String) : Bool :=
  ids.any fun id => g.keyOf id == some key && g.workerOf id == some worker

/-- The effect of re-queueing tasks, one after the other. -/
structure Returned (g : Inner) (ids : List String) (g' : Inner) : Prop where
  nodes : g'.nodes = g.nodes
  workerQueues : g'.workerQueues = g.workerQueues
  tasks : ∀ x, g'.tasks.lookup x =
    if x ∈ ids then (g.tasks.lookup x).map released else g.tasks.lookup x
  role : ∀ r, g'.roleQueues.queue r = g.roleQueues.queue r ++
    ids.filter fun id => (g.tasks.lookup id).any fun task => task.targetRole == r
  affinity : ∀ key, g'.affinity.lookup key =
    (g.affinity.lookup key).filter fun bound => !g.givesUp ids key bound.1

theorem unbind_spec (task : Task) :
    ∃ affinity, g.unbind task = { g with affinity := affinity } ∧
      ∀ key, affinity.lookup key = (g.affinity.lookup key).filter fun bound =>
        !(task.key == some key && task.workerId == some bound.1) := by
  have hkeep : ∀ key, (∀ bound, g.affinity.lookup key = some bound →
      (task.key == some key && task.workerId == some bound.1) = false) →
      g.affinity.lookup key = (g.affinity.lookup key).filter fun bound =>
        !(task.key == some key && task.workerId == some bound.1) := by
    intro key h
    cases hbound : g.affinity.lookup key with
    | none => rfl
    | some bound => rw [Option.filter_some, h bound hbound]; rfl
  have hnothing : (∀ key worker, task.key = some key → task.workerId = some worker →
      g.boundTo key ≠ some worker) → ∀ key, g.affinity.lookup key =
        (g.affinity.lookup key).filter fun bound =>
          !(task.key == some key && task.workerId == some bound.1) := by
    intro hnot key
    apply hkeep key
    intro bound hbound
    by_contra h
    rw [Bool.not_eq_false, Bool.and_eq_true, beq_iff_eq, beq_iff_eq] at h
    exact hnot key bound.1 h.1 h.2 (g.boundTo_eq_some.mpr ⟨bound.2, hbound⟩)
  rcases Option.eq_none_or_eq_some task.session with hsession | ⟨session, hsession⟩
  · refine ⟨g.affinity, by simp only [unbind, hsession], hnothing fun key worker hkey => ?_⟩
    rw [Task.key, hsession] at hkey
    cases hkey
  rcases Option.eq_none_or_eq_some task.workerId with hworker | ⟨worker, hworker⟩
  · refine ⟨g.affinity, by simp only [unbind, hsession, hworker], hnothing fun key w _ hw => ?_⟩
    cases hworker.symm.trans hw
  have hkey : task.key = some (task.targetRole, session) := by
    rw [Task.key, hsession, Option.map_some]
  by_cases hnamed : g.boundTo (task.targetRole, session) = some worker
  · obtain ⟨used, hbound⟩ := g.boundTo_eq_some.mp hnamed
    refine ⟨g.affinity.erase (task.targetRole, session), ?_, fun key => ?_⟩
    · simp only [unbind, hsession, hworker, hbound, Option.any_some, beq_self_eq_true, if_true]
    · rw [AList.lookup_erase_eq]
      split
      · rename_i heq
        rw [heq, hbound, Option.filter_some, hkey, hworker, if_neg (by simp)]
      · rename_i hne
        apply hkeep key
        intro bound _
        rw [hkey]
        simp [Ne.symm hne]
  · refine ⟨g.affinity, ?_, hnothing fun key w hkey' hw => ?_⟩
    · simp only [unbind, hsession, hworker]
      rw [if_neg]
      rw [Option.any_eq_true]
      rintro ⟨bound, hbound, hname⟩
      exact hnamed (g.boundTo_eq_some.mpr ⟨bound.2, by rw [hbound, ← beq_iff_eq.mp hname]⟩)
    · obtain rfl := Option.some.inj (hkey.symm.trans hkey')
      obtain rfl := Option.some.inj (hworker.symm.trans hw)
      exact hnamed

theorem givesUp_eq_true {ids : List String} {key : String × String} {worker : String} :
    g.givesUp ids key worker = true ↔
      ∃ id ∈ ids, g.keyOf id = some key ∧ g.workerOf id = some worker := by
  simp only [givesUp, List.any_eq_true, Bool.and_eq_true, beq_iff_eq]

/-- The task has this target role. -/
def hasRole (g : Inner) (role id : String) : Bool :=
  (g.tasks.lookup id).any fun task => task.targetRole == role

namespace Returned

variable {g : Inner} {g' g'' : Inner} {ids ids' : List String}

theorem refl (g : Inner) : g.Returned [] g where
  nodes := rfl
  workerQueues := rfl
  tasks x := by rw [if_neg List.not_mem_nil]
  role r := (List.append_nil _).symm
  affinity key := by
      cases g.affinity.lookup key <;> rfl

theorem keyOf (h : g.Returned ids g') (x : String) : g'.keyOf x = g.keyOf x := by
  unfold Inner.keyOf
  rw [h.tasks]
  split
  · cases g.tasks.lookup x <;> rfl
  · rfl

theorem hasRole (h : g.Returned ids g') (r x : String) : g'.hasRole r x = g.hasRole r x := by
  unfold Inner.hasRole
  rw [h.tasks]
  split
  · cases g.tasks.lookup x <;> rfl
  · rfl

theorem workerOf (h : g.Returned ids g') {x : String} (hx : x ∉ ids) :
    g'.workerOf x = g.workerOf x := by
  unfold Inner.workerOf
  rw [h.tasks, if_neg hx]

theorem isPending (h : g.Returned ids g') (x : String) :
    g'.IsPending x ↔ g.IsPending x ∨ x ∈ ids ∧ (g.tasks.lookup x).isSome = true := by
  unfold IsPending
  rw [h.tasks]
  split
  · rename_i hx
    constructor
    · rintro ⟨_, htask, _⟩
      obtain ⟨task, htask, _⟩ := Option.map_eq_some_iff.mp htask
      exact .inr ⟨hx, by rw [htask]; rfl⟩
    · intro h
      have hsome : (g.tasks.lookup x).isSome = true := by
        rcases h with ⟨task, htask, _⟩ | ⟨_, h⟩
        · rw [htask]
          rfl
        · exact h
      obtain ⟨task, htask⟩ := Option.isSome_iff_exists.mp hsome
      exact ⟨released task, by rw [htask, Option.map_some], rfl⟩
  · rename_i hx
    exact ⟨.inl, fun h => h.resolve_right fun hmem => hx hmem.1⟩

theorem trans (h : g.Returned ids g') (h' : g'.Returned ids' g'') (hne : ∀ x ∈ ids', x ∉ ids) :
    g.Returned (ids ++ ids') g'' where
  nodes := h'.nodes.trans h.nodes
  workerQueues := h'.workerQueues.trans h.workerQueues
  tasks x := by
      rw [h'.tasks, h.tasks]
      by_cases hx' : x ∈ ids'
      · rw [if_pos hx', if_neg (hne x hx'), if_pos (List.mem_append_right _ hx')]
      · rw [if_neg hx']
        by_cases hx : x ∈ ids
        · rw [if_pos hx, if_pos (List.mem_append_left _ hx)]
        · rw [if_neg hx, if_neg fun hmem => (List.mem_append.mp hmem).elim hx hx']
  role r := by
      rw [h'.role, h.role, List.filter_append, List.append_assoc]
      exact congrArg _ (congrArg _ (List.filter_congr fun x _ => h.hasRole r x))
  affinity key := by
      rw [h'.affinity, h.affinity, Option.filter_filter]
      congr 1
      funext bound
      have hsame : g'.givesUp ids' key bound.1 = g.givesUp ids' key bound.1 := by
        rw [Bool.eq_iff_iff, givesUp_eq_true, givesUp_eq_true]
        refine exists_congr fun x => and_congr_right fun hx => ?_
        rw [h.keyOf, h.workerOf (hne x hx)]
      rw [hsame, givesUp, givesUp, givesUp, List.any_append, Bool.not_or]

end Returned

theorem requeue_returned {id : String} {task : Task} (h : g.tasks.lookup id = some task) :
    g.Returned [id] (g.requeue id) := by
  obtain ⟨affinity, hunbind, hlookup⟩ := g.unbind_spec task
  have hrequeue : g.requeue id = { g with
      tasks := g.tasks.modify id released, affinity := affinity,
      roleQueues := g.roleQueues.enqueue task.targetRole id } := by
    simp only [requeue, h, hunbind]
    rfl
  rw [hrequeue]
  refine ⟨rfl, rfl, fun x => ?_, fun r => ?_, fun key => ?_⟩
  · rw [AList.lookup_modify]
    simp only [List.mem_singleton]
  · rw [AList.queue_enqueue, List.filter_singleton, h, Option.any_some]
    by_cases hr : r = task.targetRole
    · rw [if_pos hr, hr, beq_self_eq_true, cond_true]
    · rw [if_neg hr, beq_false_of_ne (Ne.symm hr), cond_false, List.append_nil]
  · rw [hlookup]
    congr 1
    funext bound
    rw [givesUp, List.any_cons, List.any_nil, Bool.or_false, keyOf, workerOf, h, Option.bind_some,
      Option.bind_some]

theorem foldl_requeue_returned {g : Inner} {ids : List String} (hnodup : ids.Nodup)
    (hstored : ∀ id ∈ ids, (g.tasks.lookup id).isSome = true) :
    g.Returned ids (ids.foldl requeue g) := by
  induction ids generalizing g with
  | nil => exact .refl g
  | cons id rest ih =>
      obtain ⟨hid, hrest⟩ := List.nodup_cons.mp hnodup
      obtain ⟨task, htask⟩ := Option.isSome_iff_exists.mp (hstored id List.mem_cons_self)
      have hfirst := g.requeue_returned htask
      refine hfirst.trans (ih hrest fun x hx => ?_) fun x hx hmem => ?_
      · rw [hfirst.tasks]
        split
        · rw [Option.isSome_map]
          exact hstored x (List.mem_cons_of_mem _ hx)
        · exact hstored x (List.mem_cons_of_mem _ hx)
      · exact hid (List.mem_singleton.mp hmem ▸ hx)

/-! ### Gone workers -/

/-- The effect of dropping a registered node: the tasks it holds and then those in its own queue
go to their role queues, and its sessions are forgotten. -/
structure Dropped (g : Inner) (worker : String) (g' : Inner) : Prop where
  nodes : g'.nodes = g.nodes.erase worker
  tasks : ∀ x, g'.tasks.lookup x =
    if x ∈ g.assignedTo worker then (g.tasks.lookup x).map released else g.tasks.lookup x
  role : ∀ r, g'.roleQueues.queue r = g.roleQueues.queue r ++
    (g.assignedTo worker ++ g.pendingOf (g.workerQueues.queue worker)).filter (g.hasRole r)
  own : ∀ w, g'.workerQueues.queue w = if w = worker then [] else g.workerQueues.queue w
  affinity : ∀ key, g'.affinity.lookup key =
    (g.affinity.lookup key).filter fun bound => bound.1 != worker

theorem mem_assignedTo {worker id : String} : id ∈ g.assignedTo worker ↔
    ∃ task, g.tasks.lookup id = some task ∧ task.status = .assigned ∧
      task.workerId = some worker := by
  simp only [assignedTo, AList.mem_keysWhere, Bool.and_eq_true, beq_iff_eq]

theorem drain_affinity (worker : String) (key : String × String) :
    (g.drain worker).affinity.lookup key =
      (g.affinity.lookup key).filter fun bound => bound.1 != worker := by
  obtain ⟨roleQueues, hfold, _⟩ := foldl_moveToRole
    { g with nodes := g.nodes.erase worker, workerQueues := g.workerQueues.erase worker }
    (g.workerQueues.queue worker)
  rw [drain, hfold]
  exact AList.lookup_retain ..

/-- The first part of a loss: what was assigned to the worker goes back. -/
theorem returned_assignedTo (g : Inner) (worker : String) :
    g.Returned (g.assignedTo worker) ((g.assignedTo worker).foldl requeue g) := by
  apply foldl_requeue_returned (AList.keysWhere_nodup _ _)
  intro id hid
  obtain ⟨task, htask, _⟩ := g.mem_assignedTo.mp hid
  rw [htask]
  rfl

theorem dropNode_dropped {g : Inner} (hg : g.QueuesExact) {worker : String} {node : Node}
    (hnode : g.nodes.lookup worker = some node) : g.Dropped worker (dropNode g worker) := by
  have hreturned := g.returned_assignedTo worker
  rw [dropNode_of_registered g hnode]
  set g₁ := (g.assignedTo worker).foldl requeue g
  obtain ⟨roleQueues, affinity, hdrain, hqueue, _⟩ := g₁.drain_cases worker
  have haffinity := g₁.drain_affinity worker
  rw [hdrain] at haffinity ⊢
  refine ⟨by rw [hreturned.nodes], hreturned.tasks, fun r => ?_, fun w => ?_, fun key => ?_⟩
  · dsimp only
    rw [hqueue, hreturned.role, hreturned.workerQueues, List.filter_append, List.append_assoc]
    refine congrArg _ (congrArg _ ?_)
    rw [pendingOf, List.filter_filter]
    apply List.filter_congr
    intro x hx
    -- what the worker holds is queued nowhere, so nothing in its queue was just re-queued
    have hnot : x ∉ g.assignedTo worker := by
      intro hmem
      obtain ⟨task, htask, hassigned, _⟩ := g.mem_assignedTo.mp hmem
      have habsent := hg.absent x task htask hassigned
      have hcount := AList.count_pooled_erase g.workerQueues worker x
      have hpos := List.count_pos_iff.mpr hx
      rw [occurrences] at habsent
      omega
    rw [hreturned.tasks, if_neg hnot, hasRole]
    cases htask : g.tasks.lookup x with
    | none => rfl
    | some task =>
        rw [Option.any_some, Option.any_some, Bool.and_comm]
        congr 1
        rw [Bool.eq_iff_iff, beq_iff_eq, decide_eq_true_iff, IsPending]
        simp only [htask, Option.some.injEq, exists_eq_left']
  · dsimp only
    rw [AList.queue_erase, hreturned.workerQueues]
  · rw [haffinity, hreturned.affinity, Option.filter_filter]
    congr 1
    funext bound
    -- a binding that a re-queue gives up is one to the worker itself
    by_cases hbound : bound.1 = worker
    · rw [hbound, bne_self_eq_false, Bool.and_false]
    · have hkeep : g.givesUp (g.assignedTo worker) key bound.1 = false := by
        by_contra h
        rw [Bool.not_eq_false, givesUp_eq_true] at h
        obtain ⟨id, hid, _, hworker⟩ := h
        obtain ⟨task, htask, _, hheld⟩ := g.mem_assignedTo.mp hid
        rw [workerOf, htask, Option.bind_some, hheld] at hworker
        exact hbound (Option.some.inj hworker).symm
      rw [hkeep, Bool.not_false, Bool.true_and]

/-! ### Claims -/

/-- A registered node holds the session. -/
def claimed (g : Inner) (key : String × String) : Bool :=
  (g.affinity.lookup key).any fun bound => (g.nodes.lookup bound.1).isSome

theorem foldl_claim_spec (nodeId role : String) (now : Instant) (sessions : List String)
    (g : Inner) : ∃ affinity, sessions.foldl (claim nodeId role now) g =
        { g with affinity := affinity } ∧
      ∀ key, affinity.lookup key = if key ∈ sessions.map (role, ·) ∧ g.claimed key = false then
        some (nodeId, now) else g.affinity.lookup key := by
  induction sessions generalizing g with
  | nil => exact ⟨_, rfl, fun key => by simp⟩
  | cons session rest ih =>
      have hclaim : ∃ affinity, claim nodeId role now g session = { g with affinity := affinity } ∧
          ∀ key, affinity.lookup key = if key = (role, session) ∧ g.claimed key = false then
            some (nodeId, now) else g.affinity.lookup key := by
        unfold claim
        dsimp only
        cases hlive : g.claimed (role, session) with
        | true =>
            rw [claimed] at hlive
            rw [hlive, if_pos rfl]
            refine ⟨_, rfl, fun key => ?_⟩
            rw [if_neg]
            rintro ⟨rfl, h⟩
            cases hlive.symm.trans h
        | false =>
            have hlive' := hlive
            rw [claimed] at hlive'
            rw [hlive', if_neg Bool.false_ne_true]
            refine ⟨_, rfl, fun key => ?_⟩
            rw [AList.lookup_insert_eq]
            by_cases hkey : key = (role, session)
            · rw [if_pos hkey, if_pos ⟨hkey, hkey ▸ hlive⟩]
            · rw [if_neg hkey, if_neg fun h => hkey h.1]
      obtain ⟨affinity, hfirst, hlookup⟩ := hclaim
      obtain ⟨affinity', hrest, hlookup'⟩ := ih { g with affinity := affinity }
      refine ⟨affinity', by rw [List.foldl_cons, hfirst, hrest], fun key => ?_⟩
      rw [hlookup', hlookup, List.map_cons]
      by_cases hkey : key = (role, session) ∧ g.claimed key = false
      · rw [if_pos hkey, ite_self, if_pos ⟨hkey.1 ▸ List.mem_cons_self, hkey.2⟩]
      · have hsame : claimed { g with affinity := affinity } key = g.claimed key := by
          rw [claimed, claimed]
          dsimp only
          rw [hlookup, if_neg hkey]
        rw [if_neg hkey, hsame]
        by_cases hrest : key ∈ rest.map (role, ·) ∧ g.claimed key = false
        · rw [if_pos hrest, if_pos ⟨List.mem_cons_of_mem _ hrest.1, hrest.2⟩]
        · rw [if_neg hrest, if_neg]
          rintro ⟨hmem, hfree⟩
          rcases List.mem_cons.mp hmem with heq | hmem
          · exact hkey ⟨heq, hfree⟩
          · exact hrest ⟨hmem, hfree⟩

/-- Registering claims the named sessions that no registered node holds. -/
theorem register_spec (nodeId role : String) (sessions : List String) (now : Instant) :
    ∃ affinity, register g nodeId role sessions now = { g with
        affinity := affinity, nodes := g.nodes.insert nodeId ⟨role, now⟩,
        roleQueues := orDefault g.roleQueues role,
        workerQueues := orDefault g.workerQueues nodeId } ∧
      ∀ key, affinity.lookup key =
        if key ∈ (sessions.take maxReportedSessions).map (role, ·) ∧ g.claimed key = false then
          some (nodeId, now) else g.affinity.lookup key := by
  obtain ⟨affinity, h, hlookup⟩ :=
    foldl_claim_spec nodeId role now (sessions.take maxReportedSessions) g
  exact ⟨affinity, by simp only [register, h], hlookup⟩

end Inner
end Distllm.Relay
