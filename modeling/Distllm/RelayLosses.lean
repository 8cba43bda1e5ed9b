import Distllm.RelayAgree

/-! What the Rust relay does when it loses a worker, by a deregistration or because the janitor
finds it dead: all of its work goes back to the role queues, and nothing else changes. -/

namespace Distllm.Relay

open Relay.Inner

variable {settings : Settings} {readValue : Bytes → Option Value} {drawn : List String}
  {now : Instant} {posted : Task → Report → Prop} {g g' : Inner} {id worker role : String}
  {task : Task}

/-! ### Pending tasks have no worker -/

def Inner.PendingFree (g : Inner) : Prop :=
  ∀ id task, g.tasks.lookup id = some task → task.status = .pending → task.workerId = none

namespace Inner.PendingFree

/-- A record that is changed is no longer pending, or has no worker. -/
theorem of_lookup (h : g.PendingFree)
    (htasks : ∀ id task', g'.tasks.lookup id = some task' → g.tasks.lookup id = some task' ∨
      (task'.status = .pending → task'.workerId = none)) : g'.PendingFree := by
  intro id task' htask' hpending
  rcases htasks id task' htask' with hsame | hfree
  · exact h id task' hsame hpending
  · exact hfree hpending

/-- One record at most is changed, by a function that leaves no worker to a pending task. -/
theorem of_map {f : Task → Task} {P : String → Prop} [DecidablePred P] (h : g.PendingFree)
    (htasks : ∀ x, g'.tasks.lookup x =
      if P x then (g.tasks.lookup x).map f else g.tasks.lookup x)
    (hf : ∀ task, (f task).status = .pending → (f task).workerId = none) : g'.PendingFree := by
  apply h.of_lookup
  intro x task' htask'
  rw [htasks] at htask'
  split at htask'
  · obtain ⟨task, _, rfl⟩ := Option.map_eq_some_iff.mp htask'
    exact .inr (hf task)
  · exact .inl htask'

theorem enqueue (h : g.PendingFree) (id : String) (hworker : task.workerId = none) :
    (g.enqueue id task).PendingFree := by
  apply h.of_lookup
  intro x task' htask'
  rw [enqueue_tasks, AList.lookup_insert_eq] at htask'
  split at htask'
  · cases htask'
    exact .inr fun _ => hworker
  · exact .inl htask'

theorem atom (hatom : Atom drawn now posted g g') (h : g.PendingFree) : g'.PendingFree := by
  cases hatom with
  | rehashed hrehashed =>
      exact h.of_lookup fun x task' htask' => .inl (by rwa [← hrehashed.lookup_tasks])
  | opened role worker => exact h
  | looked worker role =>
      exact h.of_map (took_takeNext g worker role now).tasks fun task hpending => by cases hpending
  | submitted _ _ htask => exact h.enqueue _ htask.unassigned
  | forwarded body _ _ _ _ _ _ =>
      refine Inner.PendingFree.enqueue
        (h.of_map (fun x => AList.lookup_modify ..) fun task hpending => ?_) _ rfl
      cases hpending
  | finished htask _ _ hends =>
      apply h.of_lookup
      intro x task' htask'
      obtain ⟨before, hbefore, ⟨rfl, _⟩ | ⟨_, _, rfl⟩⟩ := lookup_finish g htask htask'
      · exact .inl hbefore
      · refine .inr fun hpending => ?_
        cases hends <;> cases hpending
  | registered nodeId role sessions =>
      refine h.of_lookup fun x task' htask' => .inl ?_
      rwa [(g.register_registered nodeId role sessions now).tasks] at htask'
  | beat nodeId => exact h
  | requeued htask hassigned =>
      rename_i id task
      have hlookup : ∀ x, (g.requeue id).tasks.lookup x =
          if x = id then (g.tasks.lookup x).map released else g.tasks.lookup x := by
        obtain ⟨affinity, hrequeue⟩ := g.requeue_of_lookup htask
        intro x
        rw [hrequeue]
        exact AList.lookup_modify ..
      exact h.of_map hlookup fun _ _ => rfl
  | drained worker =>
      obtain ⟨roleQueues, affinity, hdrain, _⟩ := g.drain_cases worker
      rw [hdrain]
      exact h
  | cleaned =>
      exact h.of_lookup fun x task' htask' => .inl (AList.lookup_retain_eq_some.mp htask').1

theorem atoms (hatoms : Atoms drawn now posted g g') (h : g.PendingFree) : g'.PendingFree := by
  induction hatoms with
  | refl => exact h
  | tail _ hatom ih => exact ih.atom hatom

end Inner.PendingFree

theorem pendingFree_run {clock : Instant} {events : List Event} {w : World}
    (hrun : RunFrom settings readValue clock events w) : w.inner.PendingFree := by
  have hboth : w.QueuesInv ∧ w.inner.PendingFree := by
    refine hrun.invariant (P := fun w => w.QueuesInv ∧ w.inner.PendingFree) (fun hstep h => ?_)
      ⟨queuesInv_start clock, fun _ _ htask => (start_lookup htask).elim⟩
    refine ⟨queuesInv_step hstep h.1, ?_⟩
    cases hstep with
    | call _ htimely hfresh =>
        exact h.2.atoms (exec_atoms settings readValue _ _ htimely fun id hid =>
          h.1.known.fresh (hfresh id hid))
    | rehash hrehashed =>
        exact h.2.of_lookup fun x task' htask' => .inl (by rwa [← hrehashed.lookup_tasks])
  exact hboth.2

/-! ### The work of a worker -/

/-- The task is assigned to the worker, or is pending and waits in the worker's own queue. -/
def Inner.WorkOf (g : Inner) (worker id : String) (task : Task) : Prop :=
  task.status = .assigned ∧ task.workerId = some worker ∨
    task.status = .pending ∧ id ∈ g.workerQueues.queue worker

/-- All work of the worker has gone back to the role queues, and nothing else has changed. -/
structure Inner.WorkMoved (g : Inner) (worker : String) (g' : Inner) : Prop where
  notAssigned : ∀ id task, g'.tasks.lookup id = some task → task.status = .assigned →
    task.workerId ≠ some worker
  noQueue : g'.workerQueues.lookup worker = none
  notBound : ∀ key bound, g'.affinity.lookup key = some bound → bound.1 ≠ worker
  moved : ∀ id task, g.tasks.lookup id = some task → g.WorkOf worker id task →
    ∃ assignedAt, g'.tasks.lookup id = some { task with
      status := .pending, workerId := none, assignedAt := assignedAt }
  appended : ∃ back : String → List String,
    (∀ role, g'.roleQueues.queue role = g.roleQueues.queue role ++ back role) ∧
    (∀ id task, g.tasks.lookup id = some task → g.WorkOf worker id task →
      (back task.targetRole).count id = 1) ∧
    ∀ role, ∀ id ∈ back role, ∃ task, g.tasks.lookup id = some task ∧
      g.WorkOf worker id task ∧ task.targetRole = role
  otherTasks : ∀ id, (∀ task, g.tasks.lookup id = some task → ¬g.WorkOf worker id task) →
    g'.tasks.lookup id = g.tasks.lookup id
  otherQueues : ∀ other, other ≠ worker →
    g'.workerQueues.lookup other = g.workerQueues.lookup other
  otherBindings : ∀ key bound, bound.1 ≠ worker →
    (g'.affinity.lookup key = some bound ↔ g.affinity.lookup key = some bound)

/-- What is given back is listed once. -/
theorem Inner.QueuesExact.nodup_work (hg : g.QueuesExact) (worker : String) :
    (g.assignedTo worker ++ g.pendingOf (g.workerQueues.queue worker)).Nodup := by
  have hwaiting := hg.nodup_waiting worker ""
  rw [waiting, pendingOf_append] at hwaiting
  refine List.nodup_append.mpr ⟨AList.keysWhere_nodup _ _, (List.nodup_append.mp hwaiting).1, ?_⟩
  intro x hx y hy heq
  obtain ⟨task, htask, hassigned, _⟩ := g.mem_assignedTo.mp hx
  obtain ⟨_, task', htask', hpending⟩ := g.mem_pendingOf.mp hy
  rw [heq, htask'] at htask
  cases htask
  rw [hpending] at hassigned
  cases hassigned

theorem Inner.mem_work : id ∈ g.assignedTo worker ++ g.pendingOf (g.workerQueues.queue worker) ↔
    ∃ task, g.tasks.lookup id = some task ∧ g.WorkOf worker id task := by
  rw [List.mem_append, mem_assignedTo, mem_pendingOf]
  constructor
  · rintro (⟨task, htask, hassigned⟩ | ⟨hqueue, task, htask, hpending⟩)
    · exact ⟨task, htask, .inl hassigned⟩
    · exact ⟨task, htask, .inr ⟨hpending, hqueue⟩⟩
  · rintro ⟨task, htask, hassigned | ⟨hpending, hqueue⟩⟩
    · exact .inl ⟨task, htask, hassigned⟩
    · exact .inr ⟨hqueue, task, htask, hpending⟩

theorem dropNode_workerQueues {node : Node} (hnode : g.nodes.lookup worker = some node) :
    (dropNode g worker).workerQueues = g.workerQueues.erase worker := by
  have hreturned := g.returned_assignedTo worker
  obtain ⟨_, _, hdrain, _⟩ := ((g.assignedTo worker).foldl requeue g).drain_cases worker
  rw [dropNode_of_registered g hnode, hdrain, hreturned.workerQueues]

theorem dropNode_workMoved (hg : g.QueuesExact) (hfree : g.PendingFree) {node : Node}
    (hnode : g.nodes.lookup worker = some node) : g.WorkMoved worker (dropNode g worker) := by
  have hdropped := dropNode_dropped hg hnode
  have hqueues := dropNode_workerQueues hnode
  refine ⟨fun id task htask hassigned hworker => ?_, ?_, fun key bound hbound => ?_,
    fun id task htask hwork => ?_, ⟨fun role => (g.assignedTo worker ++
      g.pendingOf (g.workerQueues.queue worker)).filter (g.hasRole role), hdropped.role,
      fun id task htask hwork => ?_, fun role id hid => ?_⟩, fun id hother => ?_,
    fun other hne => ?_, fun key bound hne => ?_⟩
  · rw [hdropped.tasks] at htask
    split at htask
    · obtain ⟨_, _, rfl⟩ := Option.map_eq_some_iff.mp htask
      cases hassigned
    · rename_i hnot
      exact hnot (g.mem_assignedTo.mpr ⟨task, htask, hassigned, hworker⟩)
  · rw [hqueues, AList.lookup_erase]
  · rw [hdropped.affinity, Option.filter_eq_some_iff] at hbound
    exact bne_iff_ne.mp hbound.2
  · rw [hdropped.tasks, htask]
    rcases hwork with hassigned | ⟨hpending, _⟩
    · rw [if_pos (g.mem_assignedTo.mpr ⟨task, htask, hassigned⟩)]
      exact ⟨none, rfl⟩
    · have hnot : id ∉ g.assignedTo worker := by
        intro hmem
        obtain ⟨_, htask', hassigned, _⟩ := g.mem_assignedTo.mp hmem
        rw [htask] at htask'
        cases htask'
        rw [hpending] at hassigned
        cases hassigned
      have hworker := hfree id task htask hpending
      rw [if_neg hnot]
      exact ⟨task.assignedAt, by rw [← hpending, ← hworker]⟩
  · refine List.count_eq_one_of_mem ((hg.nodup_work worker).filter _) (List.mem_filter.mpr
      ⟨mem_work.mpr ⟨task, htask, hwork⟩, ?_⟩)
    rw [hasRole, htask]
    exact beq_self_eq_true _
  · obtain ⟨hmem, hrole⟩ := List.mem_filter.mp hid
    obtain ⟨task, htask, hwork⟩ := mem_work.mp hmem
    rw [hasRole, htask] at hrole
    exact ⟨task, htask, hwork, beq_iff_eq.mp hrole⟩
  · rw [hdropped.tasks, if_neg fun hmem => ?_]
    obtain ⟨task, htask, hassigned⟩ := g.mem_assignedTo.mp hmem
    exact hother task htask (.inl hassigned)
  · rw [hqueues, AList.lookup_erase_ne hne]
  · rw [hdropped.affinity, Option.filter_eq_some_iff]
    exact and_iff_left (bne_iff_ne.mpr hne)

theorem Inner.PendingFree.dropNode (h : g.PendingFree) (worker : String) :
    (Relay.dropNode g worker).PendingFree := by
  have hatoms : Atoms [] 0 (fun _ _ => False) g (Relay.dropNode g worker) :=
    dropNode_atoms g worker
  exact h.atoms hatoms

theorem Inner.PendingFree.foldl_dropNode (h : g.PendingFree) (workers : List String) :
    (workers.foldl Relay.dropNode g).PendingFree := by
  induction workers generalizing g with
  | nil => exact h
  | cons worker rest ih => exact ih (h.dropNode worker)

/-- A dead node is registered when its turn comes. -/
theorem lookup_foldl_dropNode {before : List String} (hg : g.QueuesExact) (hne : worker ∉ before) :
    (before.foldl dropNode g).nodes.lookup worker = g.nodes.lookup worker := by
  induction before generalizing g with
  | nil => rfl
  | cons first rest ih =>
      rw [List.mem_cons, not_or] at hne
      rw [List.foldl_cons, ih (hg.dropNode first) hne.2]
      cases hnode : g.nodes.lookup first with
      | none => rw [dropNode_of_none g hnode]
      | some node =>
          rw [(dropNode_dropped hg hnode).nodes, AList.lookup_erase_ne hne.1]

/-- **Losing a worker moves its work.** From every reachable state a deregistered node, and every
node that the janitor finds dead, in its turn and however the tables are ordered then, leaves all
of its tasks to their role queues, and nothing else changes. -/
theorem losing_worker_moves_work {clock : Instant} {events : List Event} {w : World}
    (hrun : RunFrom settings readValue clock events w) :
    (∀ worker node, w.inner.nodes.lookup worker = some node →
      w.inner.WorkMoved worker (deregister w.inner worker)) ∧
    ∀ (now : Instant) (before after : List String) (worker : String) (g : Inner),
      deadNodes settings w.inner now = before ++ worker :: after →
      (before.foldl dropNode w.inner).Rehashed g → g.WorkMoved worker (dropNode g worker) := by
  have hexact := (queuesInv_run hrun).exact
  have hfree := pendingFree_run hrun
  refine ⟨fun worker node hnode => dropNode_workMoved hexact hfree hnode,
    fun now before after worker g hdead hrehashed => ?_⟩
  have hnodup : (deadNodes settings w.inner now).Nodup := AList.keysWhere_nodup _ _
  have hmem : worker ∈ deadNodes settings w.inner now := by
    rw [hdead]
    exact List.mem_append_right _ List.mem_cons_self
  have hnew : worker ∉ before := by
    rw [hdead] at hnodup
    exact fun hin => (List.nodup_append.mp hnodup).2.2 _ hin _ List.mem_cons_self rfl
  obtain ⟨node, hnode, _⟩ := mem_deadNodes.mp hmem
  have hfree' : g.PendingFree := (hfree.foldl_dropNode before).of_lookup fun x task' htask' =>
    .inl (by rwa [← hrehashed.lookup_tasks])
  have hkept : g.nodes.lookup worker = some node := by
    rw [hrehashed.lookup_nodes, lookup_foldl_dropNode hexact hnew, hnode]
  exact dropNode_workMoved (hrehashed.queuesExact (hexact.foldl_dropNode before)) hfree' hkept

/-- A worker takes a task and leaves, or falls silent. -/
theorem losing_worker_moves_work_polled : ∃ events w,
    RunFrom ⟨fromSecs 120, fromSecs 15⟩ (fun _ => none) 0 events w ∧
      w.inner.WorkMoved "w" (deregister w.inner "w") ∧
      (deregister w.inner "w").roleQueues.queue "r" = ["t"] ∧
      w.inner.WorkMoved "w" (dropNode w.inner "w") ∧
      deadNodes ⟨fromSecs 120, fromSecs 15⟩ w.inner (fromSecs 20) = ["w"] := by
  have hrun := run_execAll ⟨fromSecs 120, fromSecs 15⟩ (fun _ => none) (World.start 0)
    [(.register "w" "r" [], 0), (.submit "t" "r" [] [] none 0, 0), (.poll "r" "w" 1, 0)]
    (by decide)
  obtain ⟨hleft, hdead⟩ := losing_worker_moves_work hrun
  have hsilent := hdead (fromSecs 20) [] [] "w" _ (by decide)
    ⟨.refl _, .refl _, .refl _, .refl _, .refl _⟩
  exact ⟨_, _, hrun, hleft "w" ⟨"r", 0⟩ (by decide), by decide, hsilent, by decide⟩

end Distllm.Relay
