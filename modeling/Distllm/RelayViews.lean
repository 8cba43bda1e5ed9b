import Distllm.RelayBindings

/-! Which pending tasks wait in which queue after each operation. Pending ids are queued once and
assigned ones nowhere, so an operation moves ids only between the places it names. -/

namespace Distllm.Relay

open Relay.Inner

namespace Inner

/-- The pending ids of a role queue. -/
def ofRole (g : Inner) (role : String) : List String := g.pendingOf (g.roleQueues.queue role)

/-- The pending ids of a worker's own queue. -/
def ofWorker (g : Inner) (worker : String) : List String :=
  g.pendingOf (g.workerQueues.queue worker)

variable {g g' : Inner} {now : Instant} {x worker role : String} {key : String × String}

theorem mem_ofRole : x ∈ g.ofRole role ↔ x ∈ g.roleQueues.queue role ∧ g.IsPending x :=
  g.mem_pendingOf

theorem mem_ofWorker : x ∈ g.ofWorker worker ↔ x ∈ g.workerQueues.queue worker ∧ g.IsPending x :=
  g.mem_pendingOf

theorem waiting_eq (g : Inner) (worker role : String) :
    g.waiting worker role = g.ofWorker worker ++ g.ofRole role :=
  g.pendingOf_append _ _

theorem keyOf_eq_some : g.keyOf x = some key ↔
    ∃ task, g.tasks.lookup x = some task ∧ task.targetRole = key.1 ∧ task.session = some key.2 := by
  simp only [keyOf, Option.bind_eq_some_iff, Task.key, Option.map_eq_some_iff]
  refine exists_congr fun task => and_congr_right fun _ => ?_
  obtain ⟨role, session⟩ := key
  simp only [Prod.mk.injEq]
  constructor
  · rintro ⟨s, hs, hrole, rfl⟩
    exact ⟨hrole, hs⟩
  · rintro ⟨hrole, hs⟩
    exact ⟨session, hs, hrole, rfl⟩

theorem keyOf_congr (h : g'.tasks.lookup x = g.tasks.lookup x) : g'.keyOf x = g.keyOf x := by
  rw [keyOf, keyOf, h]

theorem isPending_congr (h : g'.tasks.lookup x = g.tasks.lookup x) :
    g'.IsPending x ↔ g.IsPending x := by
  rw [IsPending, IsPending, h]

/-- Queues that hold the same ids, pending before and after alike. -/
theorem pendingOf_congr {queue : List String} (h : ∀ x ∈ queue, g'.IsPending x ↔ g.IsPending x) :
    g'.pendingOf queue = g.pendingOf queue :=
  List.filter_congr fun x hx => decide_eq_decide.mpr (h x hx)

/-- Nothing pending is added to a queue where nothing becomes pending. -/
theorem pendingOf_subset {queue : List String} (h : ∀ x ∈ queue, g'.IsPending x → g.IsPending x) :
    g'.pendingOf queue ⊆ g.pendingOf queue := fun x hx =>
  g.mem_pendingOf.mpr ⟨(g'.mem_pendingOf.mp hx).1, h x (g'.mem_pendingOf.mp hx).1
    (g'.mem_pendingOf.mp hx).2⟩

/-! ### Places of pending ids -/

theorem one_le_count_pooled {q : AList fun _ : String => List String} {a x : String}
    (h : x ∈ q.queue a) : 1 ≤ q.pooled.count x := by
  have := q.count_pooled_erase a x
  have := List.count_pos_iff.mpr h
  omega

theorem two_le_count_pooled {q : AList fun _ : String => List String} {a b x : String}
    (hne : b ≠ a) (ha : x ∈ q.queue a) (hb : x ∈ q.queue b) : 2 ≤ q.pooled.count x := by
  have hcount := q.count_pooled_erase a x
  have hfirst := List.count_pos_iff.mpr ha
  have hsecond := one_le_count_pooled (q := q.erase a) (a := b) (x := x) (by
    rw [AList.queue_erase, if_neg hne]
    exact hb)
  omega

namespace QueuesExact

theorem worker_unique {worker' : String} (hg : g.QueuesExact) (h : x ∈ g.ofWorker worker)
    (h' : x ∈ g.ofWorker worker') : worker' = worker := by
  by_contra hne
  rw [mem_ofWorker] at h h'
  obtain ⟨task, htask, hpending⟩ := h.2
  have honce := hg.once x task htask hpending
  have htwo := two_le_count_pooled hne h.1 h'.1
  rw [occurrences] at honce
  omega

theorem not_ofRole_of_ofWorker (hg : g.QueuesExact) (h : x ∈ g.ofWorker worker) :
    x ∉ g.ofRole role := by
  intro h'
  rw [mem_ofWorker] at h
  rw [mem_ofRole] at h'
  obtain ⟨task, htask, hpending⟩ := h.2
  have honce := hg.once x task htask hpending
  have hown := one_le_count_pooled h.1
  have hshared := one_le_count_pooled h'.1
  rw [occurrences] at honce
  omega

/-- A pending task waits in its role queue or in the own queue of a registered worker. -/
theorem placedAt {task : Task} (hg : g.QueuesExact) (htask : g.tasks.lookup x = some task)
    (hpending : task.status = .pending) : x ∈ g.ofRole task.targetRole ∨
      ∃ worker, (g.nodes.lookup worker).isSome = true ∧ x ∈ g.ofWorker worker := by
  rcases hg.placed x task htask hpending with h | ⟨worker, hnode, h⟩
  · exact .inl (mem_ofRole.mpr ⟨h, task, htask, hpending⟩)
  · exact .inr ⟨worker, hnode, mem_ofWorker.mpr ⟨h, task, htask, hpending⟩⟩

/-- Role queues hold pending tasks of their role only. -/
theorem role_of_ofRole {task : Task} (hg : g.QueuesExact) (h : x ∈ g.ofRole role)
    (htask : g.tasks.lookup x = some task) : task.targetRole = role := by
  have hmem := mem_ofRole.mp h
  obtain ⟨_, htask', hpending⟩ := hmem.2
  obtain rfl := Option.some.inj (htask.symm.trans htask')
  rcases hg.placedAt htask hpending with h' | ⟨worker, _, h'⟩
  · by_contra hne
    have honce := hg.once x task htask hpending
    have htwo := two_le_count_pooled hne hmem.1 (mem_ofRole.mp h').1
    rw [occurrences] at honce
    omega
  · exact absurd h (hg.not_ofRole_of_ofWorker h')

theorem registered_of_ofWorker (hg : g.QueuesExact) (h : x ∈ g.ofWorker worker) :
    (g.nodes.lookup worker).isSome = true := by
  obtain ⟨task, htask, hpending⟩ := (mem_ofWorker.mp h).2
  rcases hg.placedAt htask hpending with h' | ⟨worker', hnode, h'⟩
  · exact absurd h' (hg.not_ofRole_of_ofWorker h)
  · rwa [← hg.worker_unique h h']

theorem not_queued_of_assigned {task : Task} (hg : g.QueuesExact)
    (htask : g.tasks.lookup x = some task) (hassigned : task.status = .assigned) :
    (∀ w, x ∉ g.workerQueues.queue w) ∧ ∀ r, x ∉ g.roleQueues.queue r := by
  have habsent := hg.absent x task htask hassigned
  rw [occurrences] at habsent
  constructor
  · intro w h
    have := one_le_count_pooled h
    omega
  · intro r h
    have := one_le_count_pooled h
    omega

end QueuesExact

theorem batch_cases {n : Nat} (h : x ∈ g.batch worker role n) :
    g.IsPending x ∧ (x ∈ g.ofWorker worker ∨ x ∈ g.ofRole role) := by
  have hmem := List.mem_of_mem_take h
  rw [waiting_eq, List.mem_append] at hmem
  exact ⟨hmem.elim (fun h => (mem_ofWorker.mp h).2) fun h => (mem_ofRole.mp h).2, hmem⟩

theorem batch_stored {n : Nat} (h : x ∈ g.batch worker role n) :
    (g.tasks.lookup x).isSome = true := by
  obtain ⟨⟨task, htask, _⟩, _⟩ := batch_cases h
  rw [htask]
  rfl

/-! ### New tasks -/

/-- The effect of storing a new pending task: it waits for the worker its session is bound to, or
in its role queue, and then a binding of its session to anyone else is dropped. -/
structure Queued (g : Inner) (id : String) (task : Task) (g' : Inner) : Prop where
  nodes : g'.nodes = g.nodes
  tasks : ∀ x, g'.tasks.lookup x = if x = id then some task else g.tasks.lookup x
  place : (∃ worker s, g.Serves worker task.targetRole ∧ task.session = some s ∧
      g.boundTo (task.targetRole, s) = some worker ∧
      (∀ w, g'.ofWorker w = if w = worker then g.ofWorker w ++ [id] else g.ofWorker w) ∧
      (∀ r, g'.ofRole r = g.ofRole r) ∧
      ∀ key, g'.affinity.lookup key = g.affinity.lookup key) ∨
    (∀ worker s, g.Serves worker task.targetRole → task.session = some s →
        g.boundTo (task.targetRole, s) ≠ some worker) ∧
      (∀ w, g'.ofWorker w = g.ofWorker w) ∧
      (∀ r, g'.ofRole r = if r = task.targetRole then g.ofRole r ++ [id] else g.ofRole r) ∧
      ∀ key, g'.affinity.lookup key =
        if task.key = some key then none else g.affinity.lookup key

theorem enqueue_queued {id : String} {task : Task} (hfresh : g.occurrences id = 0)
    (hpending : task.status = .pending) : g.Queued id task (g.enqueue id task) := by
  have htasks : ∀ x, (g.enqueue id task).tasks.lookup x =
      if x = id then some task else g.tasks.lookup x := fun x => by
    rw [enqueue_tasks, AList.lookup_insert_eq]
  have hnew : (g.enqueue id task).IsPending id := ⟨task, by rw [htasks, if_pos rfl], hpending⟩
  have hsame : ∀ queue : List String, id ∉ queue →
      (g.enqueue id task).pendingOf queue = g.pendingOf queue := by
    intro queue hid
    refine pendingOf_congr fun x hx => isPending_congr ?_
    rw [htasks, if_neg fun heq : x = id => hid (heq ▸ hx)]
  have hlast : ∀ queue : List String, id ∉ queue →
      (g.enqueue id task).pendingOf (queue ++ [id]) = g.pendingOf queue ++ [id] := by
    intro queue hid
    rw [pendingOf_append, hsame queue hid, pendingOf, pendingOf,
      List.filter_cons_of_pos (by simpa using hnew), List.filter_nil]
  have hrole : ∀ r, id ∉ g.roleQueues.queue r := fun r h => by
    have := one_le_count_pooled h
    rw [occurrences] at hfresh
    omega
  have hworker : ∀ w, id ∉ g.workerQueues.queue w := fun w h => by
    have := one_le_count_pooled h
    rw [occurrences] at hfresh
    omega
  refine ⟨enqueue_nodes .., htasks, ?_⟩
  rcases g.enqueue_spec id task with
    ⟨worker, hserves, ⟨s, hsession, hbound⟩, h⟩ | ⟨hfree, affinity, h, haffinity⟩
  · refine .inl ⟨worker, s, hserves, hsession, hbound, fun w => ?_, fun r => ?_, fun key => ?_⟩
    · rw [ofWorker, show (g.enqueue id task).workerQueues = g.workerQueues.enqueue worker id by
        rw [h], AList.queue_enqueue]
      split
      · rename_i hw
        rw [hw, hlast _ (hworker worker)]
        rfl
      · rw [hsame _ (hworker w)]
        rfl
    · rw [ofRole, show (g.enqueue id task).roleQueues = g.roleQueues by rw [h], hsame _ (hrole r)]
      rfl
    · rw [h]
  · refine .inr ⟨hfree, fun w => ?_, fun r => ?_, fun key => ?_⟩
    · rw [ofWorker, show (g.enqueue id task).workerQueues = g.workerQueues by rw [h],
        hsame _ (hworker w)]
      rfl
    · rw [ofRole, show (g.enqueue id task).roleQueues =
        g.roleQueues.enqueue task.targetRole id by rw [h], AList.queue_enqueue]
      split
      · rename_i hr
        rw [hr, hlast _ (hrole task.targetRole)]
        rfl
      · rw [hsame _ (hrole r)]
        rfl
    · rw [h, haffinity]

/-! ### Finished and dropped tasks -/

/-- Tasks are finished or dropped: the others stay as they are, and nothing else changes. -/
structure Settled (g g' : Inner) : Prop where
  nodes : g'.nodes = g.nodes
  roleQueues : g'.roleQueues = g.roleQueues
  workerQueues : g'.workerQueues = g.workerQueues
  affinity : g'.affinity = g.affinity
  tasks : ∀ x task, g'.tasks.lookup x = some task → task.status.finished = false →
    g.tasks.lookup x = some task
  absent : ∀ x, g.tasks.lookup x = none → g'.tasks.lookup x = none

namespace Settled

theorem isPending (h : g.Settled g') (hx : g'.IsPending x) : g.IsPending x := by
  obtain ⟨task, htask, hpending⟩ := hx
  exact ⟨task, h.tasks x task htask (by rw [hpending]; rfl), hpending⟩

theorem ofWorker (h : g.Settled g') (w : String) : g'.ofWorker w ⊆ g.ofWorker w := by
  rw [Inner.ofWorker, h.workerQueues]
  exact pendingOf_subset fun x _ => h.isPending

theorem keyOf (h : g.Settled g') (hx : g'.IsPending x) : g'.keyOf x = g.keyOf x := by
  obtain ⟨task, htask, hpending⟩ := hx
  exact keyOf_congr (htask.trans (h.tasks x task htask (by rw [hpending]; rfl)).symm)

end Settled

theorem finish_settled {id : String} {task : Task} {status : Status} {result : Option Bytes}
    {error : Option String} (htask : g.tasks.lookup id = some task)
    (hfinished : status.finished = true) : g.Settled (g.finish id status result error now) := by
  obtain ⟨tasks, hfinish, _⟩ := g.finish_of_lookup status result error now htask
  refine ⟨by rw [hfinish], by rw [hfinish], by rw [hfinish], by rw [hfinish], ?_, ?_⟩
  · intro x t' ht' hlive
    obtain ⟨t, ht, ⟨rfl, _⟩ | ⟨_, _, rfl⟩⟩ := lookup_finish g htask ht'
    · exact ht
    · exact absurd (hlive.symm.trans hfinished) Bool.false_ne_true
  · intro x hx
    by_contra h
    obtain ⟨t', ht'⟩ := Option.ne_none_iff_exists'.mp h
    obtain ⟨t, ht, _⟩ := lookup_finish g htask ht'
    cases hx.symm.trans ht

theorem markForwarded_settled (g : Inner) (id : String) (now : Instant) :
    g.Settled { g with tasks := g.tasks.modify id (markForwarded id now) } where
  nodes := rfl
  roleQueues := rfl
  workerQueues := rfl
  affinity := rfl
  tasks x task htask hlive := by
      rw [AList.lookup_modify] at htask
      split at htask
      · obtain ⟨_, _, rfl⟩ := Option.map_eq_some_iff.mp htask
        exact absurd hlive (by simp [markForwarded, Status.finished])
      · exact htask
  absent x hx := by
      rw [AList.lookup_modify, hx, Option.map_none, ite_self]

/-! ### Re-queued tasks -/

namespace Returned

variable {ids : List String}

/-- Re-queueing assigned tasks appends them to their role queues and moves nothing else. -/
theorem pendingOf (hg : g.QueuesExact) (h : g.Returned ids g')
    (hassigned : ∀ id ∈ ids, ∃ task, g.tasks.lookup id = some task ∧ task.status = .assigned)
    {queue : List String} (hqueue : (∃ w, queue = g.workerQueues.queue w) ∨
      ∃ r, queue = g.roleQueues.queue r) : g'.pendingOf queue = g.pendingOf queue := by
  refine pendingOf_congr fun x hx => isPending_congr ?_
  rw [h.tasks, if_neg]
  intro hid
  obtain ⟨task, htask, hstatus⟩ := hassigned x hid
  rcases hqueue with ⟨w, rfl⟩ | ⟨r, rfl⟩
  · exact (hg.not_queued_of_assigned htask hstatus).1 w hx
  · exact (hg.not_queued_of_assigned htask hstatus).2 r hx

theorem ofWorker (hg : g.QueuesExact) (h : g.Returned ids g')
    (hassigned : ∀ id ∈ ids, ∃ task, g.tasks.lookup id = some task ∧ task.status = .assigned)
    (w : String) : g'.ofWorker w = g.ofWorker w := by
  rw [Inner.ofWorker, h.workerQueues]
  exact h.pendingOf hg hassigned (.inl ⟨w, rfl⟩)

theorem ofRole (hg : g.QueuesExact) (h : g.Returned ids g')
    (hassigned : ∀ id ∈ ids, ∃ task, g.tasks.lookup id = some task ∧ task.status = .assigned)
    (r : String) : g'.ofRole r = g.ofRole r ++ ids.filter (g.hasRole r) := by
  rw [Inner.ofRole, h.role, pendingOf_append, h.pendingOf hg hassigned (.inr ⟨r, rfl⟩)]
  refine congrArg _ (List.filter_eq_self.mpr fun x hx => decide_eq_true ?_)
  obtain ⟨task, htask, _⟩ := hassigned x (List.mem_of_mem_filter hx)
  exact (h.isPending x).mpr (.inr ⟨List.mem_of_mem_filter hx, by rw [htask]; rfl⟩)

end Returned

/-! ### Gone workers -/

namespace Dropped

theorem isPending (h : g.Dropped worker g') (x : String) :
    g'.IsPending x ↔ g.IsPending x ∨ x ∈ g.assignedTo worker := by
  unfold IsPending
  rw [h.tasks]
  split
  · rename_i hx
    refine ⟨fun _ => .inr hx, fun _ => ?_⟩
    obtain ⟨task, htask, _⟩ := g.mem_assignedTo.mp hx
    exact ⟨released task, by rw [htask, Option.map_some], rfl⟩
  · rename_i hx
    exact ⟨.inl, fun h => h.resolve_right hx⟩

theorem pendingOf (hg : g.QueuesExact) (h : g.Dropped worker g') {queue : List String}
    (hqueue : (∃ w, queue = g.workerQueues.queue w) ∨ ∃ r, queue = g.roleQueues.queue r) :
    g'.pendingOf queue = g.pendingOf queue := by
  refine pendingOf_congr fun x hx => isPending_congr ?_
  rw [h.tasks, if_neg]
  intro hid
  obtain ⟨task, htask, hstatus, _⟩ := g.mem_assignedTo.mp hid
  rcases hqueue with ⟨w, rfl⟩ | ⟨r, rfl⟩
  · exact (hg.not_queued_of_assigned htask hstatus).1 w hx
  · exact (hg.not_queued_of_assigned htask hstatus).2 r hx

theorem ofWorker (hg : g.QueuesExact) (h : g.Dropped worker g') (w : String) :
    g'.ofWorker w = if w = worker then [] else g.ofWorker w := by
  rw [Inner.ofWorker, h.own]
  split
  · rfl
  · exact h.pendingOf hg (.inl ⟨w, rfl⟩)

theorem of_mem_ofWorker (hg : g.QueuesExact) (h : g.Dropped worker g') {w : String}
    (hx : x ∈ g'.ofWorker w) : w ≠ worker ∧ x ∈ g.ofWorker w := by
  rw [h.ofWorker hg] at hx
  split at hx
  · cases hx
  · rename_i hw
    exact ⟨hw, hx⟩

theorem ofRole (hg : g.QueuesExact) (h : g.Dropped worker g') (r : String) :
    g'.ofRole r = g.ofRole r ++ (g.assignedTo worker ++ g.ofWorker worker).filter (g.hasRole r) := by
  rw [Inner.ofRole, h.role, pendingOf_append, h.pendingOf hg (.inr ⟨r, rfl⟩)]
  refine congrArg _ (List.filter_eq_self.mpr fun x hx => decide_eq_true ((h.isPending x).mpr ?_))
  rcases List.mem_append.mp (List.mem_of_mem_filter hx) with hmem | hmem
  · exact .inr hmem
  · exact .inl (mem_ofWorker.mp hmem).2

end Dropped

theorem QueuesExact.atoms {drawn : List String} {posted : Task → Report → Prop}
    (hg : g.QueuesExact) (h : Atoms drawn now posted g g') : g'.QueuesExact := by
  induction h with
  | refl => exact hg
  | tail _ hatom ih => exact queuesExact_atom hatom ih

theorem QueuesExact.dropNode (hg : g.QueuesExact) (worker : String) :
    (dropNode g worker).QueuesExact := by
  have hatoms : Atoms [] 0 (fun _ _ => True) g (Relay.dropNode g worker) := dropNode_atoms g worker
  exact hg.atoms hatoms

/-- The task is assigned to one of the workers. -/
def heldBy (workers : List String) (task : Task) : Bool :=
  task.status == .assigned && workers.any fun worker => task.workerId == some worker

theorem heldBy_eq_true {workers : List String} {task : Task} : heldBy workers task = true ↔
    task.status = .assigned ∧ ∃ worker ∈ workers, task.workerId = some worker := by
  simp only [heldBy, Bool.and_eq_true, beq_iff_eq, List.any_eq_true]

theorem heldBy_released (workers : List String) (task : Task) :
    heldBy workers (released task) = false := rfl

/-- The effect of dropping registered nodes one after the other. -/
structure DroppedAll (g : Inner) (workers : List String) (g' : Inner) : Prop where
  nodes : ∀ w, g'.nodes.lookup w = if w ∈ workers then none else g.nodes.lookup w
  tasks : ∀ x, g'.tasks.lookup x = (g.tasks.lookup x).map fun task =>
    if heldBy workers task then released task else task
  own : ∀ w, g'.ofWorker w = if w ∈ workers then [] else g.ofWorker w
  affinity : ∀ key, g'.affinity.lookup key =
    (g.affinity.lookup key).filter fun bound => decide (bound.1 ∉ workers)

theorem Dropped.tasks_heldBy (h : g.Dropped worker g') (x : String) :
    g'.tasks.lookup x = (g.tasks.lookup x).map fun task =>
      if heldBy [worker] task then released task else task := by
  rw [h.tasks]
  cases htask : g.tasks.lookup x with
  | none => exact ite_self _
  | some task =>
      have hmem : x ∈ g.assignedTo worker ↔ heldBy [worker] task = true := by
        simp only [mem_assignedTo, heldBy_eq_true, htask, Option.some.injEq, exists_eq_left',
          List.mem_singleton, exists_eq_left]
      by_cases hx : x ∈ g.assignedTo worker
      · rw [if_pos hx, Option.map_some, Option.map_some, if_pos (hmem.mp hx)]
      · rw [if_neg hx, Option.map_some, if_neg fun h => hx (hmem.mpr h)]

theorem foldl_dropNode_droppedAll {g : Inner} {workers : List String} (hg : g.QueuesExact)
    (hnodup : workers.Nodup)
    (hregistered : ∀ w ∈ workers, (g.nodes.lookup w).isSome = true) :
    g.DroppedAll workers (workers.foldl Relay.dropNode g) := by
  induction workers generalizing g with
  | nil =>
      rw [List.foldl_nil]
      refine ⟨fun w => rfl, fun x => ?_, fun w => rfl, fun key => ?_⟩
      · cases g.tasks.lookup x with
        | none => rfl
        | some task =>
            rw [Option.map_some, if_neg]
            simp [heldBy]
      · cases g.affinity.lookup key <;> rfl
  | cons worker rest ih =>
      obtain ⟨hnew, hrest⟩ := List.nodup_cons.mp hnodup
      obtain ⟨node, hnode⟩ := Option.isSome_iff_exists.mp (hregistered worker List.mem_cons_self)
      have hfirst := dropNode_dropped hg hnode
      have hall := ih (hg.dropNode worker) hrest fun w hw => by
        rw [hfirst.nodes, AList.lookup_erase_eq, if_neg fun h : w = worker => hnew (h ▸ hw)]
        exact hregistered w (List.mem_cons_of_mem _ hw)
      rw [List.foldl_cons]
      refine ⟨fun w => ?_, fun x => ?_, fun w => ?_, fun key => ?_⟩
      · rw [hall.nodes, hfirst.nodes, AList.lookup_erase_eq]
        by_cases hw : w = worker
        · rw [if_pos hw, ite_self, if_pos (hw ▸ List.mem_cons_self)]
        · simp only [List.mem_cons, hw, false_or, if_false]
      · rw [hall.tasks, hfirst.tasks_heldBy, Option.map_map]
        congr 1
        funext task
        dsimp only [Function.comp_apply]
        have hsplit : heldBy (worker :: rest) task = (heldBy [worker] task || heldBy rest task) := by
          simp only [heldBy, List.any_cons, List.any_nil, Bool.or_false, Bool.and_or_distrib_left]
        cases hheld : heldBy [worker] task with
        | true => simp only [hsplit, hheld, Bool.true_or, if_true, heldBy_released,
            Bool.false_eq_true, if_false]
        | false => simp only [hsplit, hheld, Bool.false_or, Bool.false_eq_true, if_false]
      · rw [hall.own, hfirst.ofWorker hg]
        by_cases hw : w = worker
        · rw [if_pos hw, ite_self, if_pos (hw ▸ List.mem_cons_self)]
        · simp only [List.mem_cons, hw, false_or, if_false]
      · rw [hall.affinity, hfirst.affinity, Option.filter_filter]
        congr 1
        funext bound
        rw [Bool.eq_iff_iff]
        simp only [List.mem_cons, not_or, bne_iff_ne, Bool.and_eq_true, decide_eq_true_iff, ne_eq]

/-! ### The janitor -/

/-- The task is assigned for too long. -/
def Task.stuck (settings : Settings) (now : Instant) (task : Task) : Bool :=
  (task.assignedAt.map fun at' => decide (now - at' > settings.taskTimeout)).getD false

variable {settings : Settings}

theorem mem_stuckTasks : x ∈ stuckTasks settings g now ↔ ∃ task, g.tasks.lookup x = some task ∧
    task.status = .assigned ∧ Task.stuck settings now task = true := by
  simp only [stuckTasks, AList.mem_keysWhere, Bool.and_eq_true, beq_iff_eq]
  rfl

theorem mem_deadNodes : worker ∈ deadNodes settings g now ↔
    ∃ node, g.nodes.lookup worker = some node ∧ now - node.lastHeartbeat > settings.nodeTimeout := by
  simp only [deadNodes, AList.mem_keysWhere, decide_eq_true_iff]

/-- The janitor takes the task away from its worker. -/
def losesWorker (settings : Settings) (g : Inner) (now : Instant) (task : Task) : Bool :=
  heldBy (deadNodes settings g now) task ||
    (task.status == .assigned && Task.stuck settings now task)

/-- The effect of the janitor. -/
structure Swept (settings : Settings) (g : Inner) (now : Instant) (g' : Inner) : Prop where
  nodes : ∀ w, g'.nodes.lookup w =
    if w ∈ deadNodes settings g now then none else g.nodes.lookup w
  tasks : ∀ x, g'.tasks.lookup x = ((g.tasks.lookup x).map fun task =>
    if losesWorker settings g now task then released task else task).filter (keepTask now)
  own : ∀ w, g'.ofWorker w = if w ∈ deadNodes settings g now then [] else
    (g.ofWorker w).filter fun x => (g.tasks.lookup x).any (keepTask now)
  affinity : ∀ key, g'.affinity.lookup key = (g.affinity.lookup key).filter fun bound =>
    decide (bound.1 ∉ deadNodes settings g now) &&
      (!g.givesUp (stuckTasks settings g now) key bound.1 &&
        decide (now - bound.2 ≤ sessionAffinityTtl))

theorem DroppedAll.lookup_of_assigned {workers : List String} {task : Task}
    (h : g.DroppedAll workers g') (htask : g'.tasks.lookup x = some task)
    (hassigned : task.status = .assigned) :
    g.tasks.lookup x = some task ∧ heldBy workers task = false := by
  rw [h.tasks] at htask
  obtain ⟨before, hbefore, hsame⟩ := Option.map_eq_some_iff.mp htask
  cases hheld : heldBy workers before with
  | true =>
      rw [if_pos hheld] at hsame
      rw [← hsame] at hassigned
      cases hassigned
  | false =>
      rw [if_neg (by rw [hheld]; exact Bool.false_ne_true)] at hsame
      exact ⟨hsame ▸ hbefore, hsame ▸ hheld⟩

theorem DroppedAll.givesUp_stuck {workers : List String} (h : g.DroppedAll workers g')
    (hworker : worker ∉ workers) :
    g'.givesUp (stuckTasks settings g' now) key worker =
      g.givesUp (stuckTasks settings g now) key worker := by
  rw [Bool.eq_iff_iff, givesUp_eq_true, givesUp_eq_true]
  constructor
  · rintro ⟨id, hid, hkey, hworkerOf⟩
    obtain ⟨task, htask, hassigned, hstuck⟩ := mem_stuckTasks.mp hid
    obtain ⟨hbefore, _⟩ := h.lookup_of_assigned htask hassigned
    refine ⟨id, mem_stuckTasks.mpr ⟨task, hbefore, hassigned, hstuck⟩, ?_, ?_⟩
    · rw [← hkey, keyOf_congr (htask.trans hbefore.symm)]
    · rw [← hworkerOf, workerOf, workerOf, htask, hbefore]
  · rintro ⟨id, hid, hkey, hworkerOf⟩
    obtain ⟨task, htask, hassigned, hstuck⟩ := mem_stuckTasks.mp hid
    have hheld : ¬heldBy workers task = true := by
      rw [heldBy_eq_true]
      rintro ⟨_, w, hw, hname⟩
      rw [workerOf, htask, Option.bind_some, hname] at hworkerOf
      exact hworker (Option.some.inj hworkerOf ▸ hw)
    have hafter : g'.tasks.lookup id = some task := by
      rw [h.tasks, htask, Option.map_some, if_neg hheld]
    refine ⟨id, mem_stuckTasks.mpr ⟨task, hafter, hassigned, hstuck⟩, ?_, ?_⟩
    · rw [← hkey, keyOf_congr (hafter.trans htask.symm)]
    · rw [← hworkerOf, workerOf, workerOf, hafter, htask]

theorem droppedAll_deadNodes (hg : g.QueuesExact) (settings : Settings) (now : Instant) :
    g.DroppedAll (deadNodes settings g now)
      ((deadNodes settings g now).foldl Relay.dropNode g) :=
  foldl_dropNode_droppedAll hg (AList.keysWhere_nodup _ _) fun w hw => by
    obtain ⟨node, hnode, _⟩ := mem_deadNodes.mp hw
    rw [hnode]
    rfl

theorem QueuesExact.foldl_dropNode (hg : g.QueuesExact) (workers : List String) :
    (workers.foldl Relay.dropNode g).QueuesExact := by
  have hatoms : Atoms [] 0 (fun _ _ => True) g (workers.foldl Relay.dropNode g) :=
    foldl_dropNode_atoms workers g
  exact hg.atoms hatoms

theorem assigned_of_mem_stuckTasks (hx : x ∈ stuckTasks settings g now) :
    ∃ task, g.tasks.lookup x = some task ∧ task.status = .assigned := by
  obtain ⟨task, htask, hstatus, _⟩ := mem_stuckTasks.mp hx
  exact ⟨task, htask, hstatus⟩

theorem returned_stuckTasks (g : Inner) (settings : Settings) (now : Instant) :
    g.Returned (stuckTasks settings g now) ((stuckTasks settings g now).foldl requeue g) :=
  foldl_requeue_returned (AList.keysWhere_nodup _ _) fun id hid => by
    obtain ⟨task, htask, _⟩ := assigned_of_mem_stuckTasks hid
    rw [htask]
    rfl

/-- Among the tasks of the nodes that stay, those assigned for too long are stuck. -/
theorem DroppedAll.mem_stuckTasks {workers : List String} {task : Task}
    (h : g.DroppedAll workers g') (htask : g.tasks.lookup x = some task) :
    x ∈ stuckTasks settings g' now ↔ heldBy workers task = false ∧
      (task.status == .assigned && Task.stuck settings now task) = true := by
  rw [Inner.mem_stuckTasks, h.tasks, htask, Option.map_some, Bool.and_eq_true, beq_iff_eq]
  cases heldBy workers task <;> simp [released]

/-- The records after the nodes are dropped and the stuck tasks re-queued. -/
theorem DroppedAll.tasks_returned {ids : List String} {g'' : Inner}
    (h : g.DroppedAll (deadNodes settings g now) g') (hids : ids = stuckTasks settings g' now)
    (hreturned : g'.Returned ids g'') (x : String) : g''.tasks.lookup x =
      (g.tasks.lookup x).map fun task =>
        if losesWorker settings g now task then released task else task := by
  rw [hreturned.tasks, h.tasks, hids]
  cases htask : g.tasks.lookup x with
  | none => exact ite_self _
  | some task =>
      have hloses : losesWorker settings g now task = (heldBy (deadNodes settings g now) task ||
          (task.status == .assigned && Task.stuck settings now task)) := rfl
      have hmem : x ∈ stuckTasks settings g' now ↔ heldBy (deadNodes settings g now) task = false ∧
          (task.status == .assigned && Task.stuck settings now task) = true :=
        h.mem_stuckTasks htask
      simp only [Option.map_some, hloses]
      cases hheld : heldBy (deadNodes settings g now) task with
      | true =>
          have hnot : x ∉ stuckTasks settings g' now := fun hx =>
            Bool.false_ne_true ((hmem.mp hx).1.symm.trans hheld)
          simp only [if_neg hnot, if_true, Bool.true_or]
      | false =>
          simp only [Bool.false_eq_true, if_false, Bool.false_or]
          by_cases hstuck : (task.status == .assigned && Task.stuck settings now task) = true
          · rw [if_pos (hmem.mpr ⟨hheld, hstuck⟩), if_pos hstuck]
          · rw [if_neg fun hx => hstuck (hmem.mp hx).2, if_neg hstuck]

/-- Forgetting old tasks takes them out of what waits. -/
theorem pendingOf_cleaned {affinity : AList fun _ : String × String => String × Instant}
    (g : Inner) (now : Instant) (queue : List String) :
    Inner.pendingOf { g with
      tasks := g.tasks.retain fun _ task => keepTask now task, affinity := affinity } queue =
    (g.pendingOf queue).filter fun x => (g.tasks.lookup x).any (keepTask now) := by
  rw [Inner.pendingOf, Inner.pendingOf, List.filter_filter]
  apply List.filter_congr
  intro x _
  rw [Bool.eq_iff_iff, Bool.and_eq_true, decide_eq_true_iff, decide_eq_true_iff, IsPending,
    IsPending, AList.lookup_retain]
  simp only [Option.any_eq_true, Option.filter_eq_some_iff]
  constructor
  · rintro ⟨task, ⟨htask, hkept⟩, hpending⟩
    exact ⟨⟨task, htask, hkept⟩, task, htask, hpending⟩
  · rintro ⟨⟨task, htask, hkept⟩, task', htask', hpending⟩
    obtain rfl := Option.some.inj (htask.symm.trans htask')
    exact ⟨task, ⟨htask, hkept⟩, hpending⟩

/-- Being re-queued does not make a task older. -/
theorem any_keepTask_released (o : Option Task) (p : Task → Bool) :
    (o.map fun task => if p task then released task else task).any (keepTask now) =
      o.any (keepTask now) := by
  cases o with
  | none => rfl
  | some task =>
      rw [Option.map_some, Option.any_some, Option.any_some]
      split <;> rfl

theorem sweep_swept (hg : g.QueuesExact) : g.Swept settings now (sweep settings g now) := by
  set dead := deadNodes settings g now with hdead
  have hdropped := droppedAll_deadNodes hg settings now
  have hexact := hg.foldl_dropNode dead
  rw [← hdead] at hdropped
  set g₁ := dead.foldl Relay.dropNode g with hg₁
  have hreturned := g₁.returned_stuckTasks settings now
  set g₂ := (stuckTasks settings g₁ now).foldl requeue g₁ with hg₂
  have htasks := hdropped.tasks_returned rfl hreturned
  have hsweep : sweep settings g now = { g₂ with
      tasks := g₂.tasks.retain fun _ task => keepTask now task
      affinity := g₂.affinity.retain fun _ bound =>
        decide (now - bound.2 ≤ sessionAffinityTtl) } := rfl
  refine ⟨fun w => ?_, fun x => ?_, fun w => ?_, fun key => ?_⟩
  · rw [hsweep, ← hdropped.nodes, ← hreturned.nodes]
  · rw [hsweep, ← htasks]
    exact AList.lookup_retain ..
  · have hown : g₂.ofWorker w = if w ∈ dead then [] else g.ofWorker w := by
      rw [hreturned.ofWorker hexact fun id hid => assigned_of_mem_stuckTasks hid, hdropped.own]
    rw [← hdead, hsweep, ofWorker, pendingOf_cleaned]
    dsimp only
    rw [← ofWorker, hown]
    split
    · rfl
    · apply List.filter_congr
      intro x _
      rw [htasks, any_keepTask_released]
  · rw [hsweep, ← hdead]
    apply (AList.lookup_retain ..).trans
    rw [hreturned.affinity, hdropped.affinity, Option.filter_filter, Option.filter_filter]
    congr 1
    funext bound
    by_cases hbound : bound.1 ∈ dead
    · simp only [hbound, not_true_eq_false, decide_false, Bool.false_and]
    · rw [hdropped.givesUp_stuck hbound]

/-- What waits for a worker after the janitor waited for it before. -/
theorem Swept.of_mem_ofWorker (h : g.Swept settings now g') (hx : x ∈ g'.ofWorker worker) :
    worker ∉ deadNodes settings g now ∧ x ∈ g.ofWorker worker ∧
      ∃ task, g.tasks.lookup x = some task ∧ keepTask now task = true ∧
        g'.tasks.lookup x =
          some (if losesWorker settings g now task then released task else task) := by
  rw [h.own] at hx
  split at hx
  · cases hx
  · rename_i hw
    obtain ⟨hmem, hkept⟩ := List.mem_filter.mp hx
    obtain ⟨task, htask, hkept⟩ := (Option.any_eq_true _ _).mp hkept
    refine ⟨hw, hmem, task, htask, hkept, ?_⟩
    rw [h.tasks, htask, Option.map_some, Option.filter_some]
    apply if_pos
    split <;> exact hkept

/-! ### Registrations -/

/-- The effect of a registration. -/
structure Registered (g : Inner) (nodeId role : String) (sessions : List String) (now : Instant)
    (g' : Inner) : Prop where
  nodes : ∀ w, g'.nodes.lookup w = if w = nodeId then some ⟨role, now⟩ else g.nodes.lookup w
  tasks : g'.tasks = g.tasks
  own : ∀ w, g'.ofWorker w = g.ofWorker w
  shared : ∀ r, g'.ofRole r = g.ofRole r
  affinity : ∀ key, g'.affinity.lookup key =
    if key ∈ (sessions.take maxReportedSessions).map (role, ·) ∧ g.claimed key = false then
      some (nodeId, now) else g.affinity.lookup key

theorem register_registered (g : Inner) (nodeId role : String) (sessions : List String)
    (now : Instant) :
    g.Registered nodeId role sessions now (register g nodeId role sessions now) := by
  obtain ⟨affinity, h, hlookup⟩ := g.register_spec nodeId role sessions now
  rw [h]
  refine ⟨fun w => AList.lookup_insert_eq .., rfl, fun w => ?_, fun r => ?_, hlookup⟩
  · rw [ofWorker, ofWorker]
    dsimp only
    rw [queue_orDefault]
    rfl
  · rw [ofRole, ofRole]
    dsimp only
    rw [queue_orDefault]
    rfl

/-! ### All operations -/

/-- The states differ in the times of heartbeats and the order of the tables only. -/
structure Alike (g g' : Inner) : Prop where
  nodes : ∀ w, (g'.nodes.lookup w).map Node.role = (g.nodes.lookup w).map Node.role
  tasks : ∀ x, g'.tasks.lookup x = g.tasks.lookup x
  shared : ∀ r, g'.roleQueues.queue r = g.roleQueues.queue r
  own : ∀ w, g'.workerQueues.queue w = g.workerQueues.queue w
  affinity : ∀ key, g'.affinity.lookup key = g.affinity.lookup key

theorem Alike.ofWorker (h : g.Alike g') (w : String) : g'.ofWorker w = g.ofWorker w := by
  rw [Inner.ofWorker, h.own]
  exact pendingOf_congr fun x _ => isPending_congr (h.tasks x)

theorem Alike.ofRole (h : g.Alike g') (r : String) : g'.ofRole r = g.ofRole r := by
  rw [Inner.ofRole, h.shared]
  exact pendingOf_congr fun x _ => isPending_congr (h.tasks x)

theorem Rehashed.alike (h : g.Rehashed g') : g.Alike g' where
  nodes w := by rw [h.lookup_nodes]
  tasks := h.lookup_tasks
  shared := h.queue_role
  own := h.queue_worker
  affinity _ := (AList.perm_lookup h.affinity).symm

theorem heartbeat_alike (g : Inner) (nodeId : String) (now : Instant) :
    g.Alike (heartbeat g nodeId now).2 := by
  cases hnode : g.nodes.lookup nodeId with
  | none =>
      simp only [heartbeat, hnode]
      exact ⟨fun _ => rfl, fun _ => rfl, fun _ => rfl, fun _ => rfl, fun _ => rfl⟩
  | some node =>
      simp only [heartbeat, hnode]
      refine ⟨fun w => ?_, fun _ => rfl, fun _ => rfl, fun _ => rfl, fun _ => rfl⟩
      dsimp only
      rw [AList.lookup_modify]
      split
      · rw [Option.map_map]
        rfl
      · rfl

/-- What an operation can do. -/
inductive Effect (settings : Settings) (readValue : Bytes → Option Value) (now : Instant)
    (g : Inner) : Op → Inner → Prop where
  | nothing (op : Op) : Effect settings readValue now g op g
  | queued {taskId targetRole : String} {body : Bytes} {route : List String}
      {session : Option String} {createdAt : Instant} {task : Task} {g' : Inner}
      (hfresh : g.Fresh taskId) (hrole : task.targetRole = targetRole)
      (hsession : task.session = session) (hpending : task.status = .pending)
      (h : g.Queued taskId task g') :
      Effect settings readValue now g
        (.submit taskId targetRole body route session createdAt) g'
  | dealt {role worker : String} {maxTasks : Nat} {g' : Inner}
      (h : g.Dealt worker now (g.batch worker role maxTasks) g') :
      Effect settings readValue now g (.poll role worker maxTasks) g'
  | dealtLast {role worker : String} {g' : Inner}
      (h : g.Dealt worker now (g.batch worker role 1) g') :
      Effect settings readValue now g (.pollDeadline role worker) g'
  | settled {op : Op} {g' : Inner} (h : g.Settled g') : Effect settings readValue now g op g'
  | forwarded {taskId : String} {workerId : Option String} {stopChain : Bool} {body : Bytes}
      {next nextRole : String} {tail : List String} {task : Task} {g₁ g' : Inner}
      (hfresh : g.Fresh next) (htask : g.tasks.lookup taskId = some task)
      (hlive : task.status.finished = false) (hworker : checkWorker task workerId = true)
      (hroute : task.route = nextRole :: tail)
      (hstops : stopsChain readValue body stopChain = false) (hsettled : g.Settled g₁)
      (hdone : ¬g₁.IsPending taskId)
      (h : g₁.Queued next (successor task nextRole tail body now) g') :
      Effect settings readValue now g (.postResult taskId workerId stopChain body next) g'
  | registered {nodeId role : String} {sessions : List String} {g' : Inner}
      (h : g.Registered nodeId role sessions now g') :
      Effect settings readValue now g (.register nodeId role sessions) g'
  | dropped {nodeId : String} {node : Node} {g' : Inner} (hnode : g.nodes.lookup nodeId = some node)
      (h : g.Dropped nodeId g') : Effect settings readValue now g (.deregister nodeId) g'
  | beaten {nodeId : String} {g' : Inner} (h : g.Alike g') :
      Effect settings readValue now g (.heartbeat nodeId) g'
  | swept {g' : Inner} (h : g.Swept settings now g') : Effect settings readValue now g .sweep g'

theorem exec_effect (settings : Settings) (readValue : Bytes → Option Value) (op : Op)
    (now : Instant) (hg : g.QueuesExact) (hfresh : ∀ id ∈ op.drawn, g.Fresh id) :
    Effect settings readValue now g op (exec settings readValue op now g).2 := by
  cases op with
  | submit taskId targetRole body route session createdAt =>
      have hnew := hfresh taskId List.mem_cons_self
      exact .queued hnew rfl rfl rfl (enqueue_queued hnew.queue rfl)
  | poll role worker maxTasks => exact .dealt (poll_dealt hg role worker maxTasks now).2
  | pollDeadline role worker => exact .dealtLast (pollDeadline_dealt role worker now).2
  | postResult taskId workerId stopChain body next =>
      rcases postResult_cases readValue g taskId workerId stopChain body next now with
        ⟨_, _, h⟩ | ⟨task, htask, hlive, _, hends, h⟩ |
          ⟨task, nextRole, tail, htask, hlive, hworker, hroute, hstops, h⟩
      · simp only [exec, h]
        exact .nothing _
      · simp only [exec, h]
        exact .settled (finish_settled htask rfl)
      · simp only [exec, h]
        have hnew := hfresh next List.mem_cons_self
        refine .forwarded hnew htask hlive hworker hroute hstops
          (markForwarded_settled g taskId now) ?_ (enqueue_queued hnew.queue rfl)
        rintro ⟨task', htask', hpending⟩
        rw [AList.lookup_modify_self, htask] at htask'
        obtain rfl := Option.some.inj htask'
        cases hpending
  | postFailure taskId workerId message =>
      rcases postFailure_cases g taskId workerId message now with
        ⟨_, _, h⟩ | ⟨task, htask, hlive, _, h⟩
      · simp only [exec, h]
        exact .nothing _
      · simp only [exec, h]
        exact .settled (finish_settled htask rfl)
  | register nodeId role sessions => exact .registered (register_registered ..)
  | deregister nodeId =>
      cases hnode : g.nodes.lookup nodeId with
      | none =>
          rw [exec, deregister, dropNode_of_none g hnode]
          exact .nothing _
      | some node => exact .dropped hnode (dropNode_dropped hg hnode)
  | heartbeat nodeId => exact .beaten (heartbeat_alike g nodeId now)
  | sweep => exact .swept (sweep_swept hg)

end Inner
end Distllm.Relay
