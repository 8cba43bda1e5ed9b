import Distllm.PyRelayFailures
import Distllm.RelayAgree

/-! The operations of the Python relay beside those of the Rust relay. A state of the Rust relay
mirrors one of the Python relay when they hold the same nodes, tasks, queues and bindings, up to
the order of the tables and the answers, which the relays store in different fields. Every
operation but a poll takes mirrored states to mirrored states, as long as it meets no binding to
the empty name and a registration finds none of its sessions bound to itself. -/

namespace Distllm.Relay

/-- The record without its answer. -/
def Task.unanswered (task : Task) : Task := { task with result := none, error := none }

/-- Storing a task first makes no difference to the bound worker. -/
theorem Inner.enqueue_eq (g : Inner) (id : String) (task : Task) : g.enqueue id task =
    match Inner.boundWorker { g with tasks := g.tasks.insert id task } task.targetRole task.session
    with
    | (some worker, g) => g.pushWorker worker id
    | (none, g) => g.pushRole task.targetRole id := by
  have hbound : Inner.boundWorker { g with tasks := g.tasks.insert id task } task.targetRole
      task.session = ((g.boundWorker task.targetRole task.session).1,
        { (g.boundWorker task.targetRole task.session).2 with
          tasks := g.tasks.insert id task }) := by
    unfold Inner.boundWorker
    dsimp only
    split
    · rfl
    split
    · rfl
    split
    · split <;> rfl
    · rfl
  obtain ⟨affinity, hframe⟩ := g.boundWorker_frame task.targetRole task.session
  rw [hbound]
  simp only [Inner.enqueue, hframe]
  cases (g.boundWorker task.targetRole task.session).1 <;> rfl

/-- Whether a session is claimed does not depend on a node that is not bound to it. -/
theorem Inner.claimed_insert {g : Inner} {nodeId : String} {node : Node} {now : Instant}
    {key : String × String} (h : ∀ used, g.affinity.lookup key = some (nodeId, used) →
      (g.nodes.lookup nodeId).isSome = true ∨ used = now) :
    (Inner.claimed { g with nodes := g.nodes.insert nodeId node } key = false ↔
      g.claimed key = false) ∨ g.affinity.lookup key = some (nodeId, now) := by
  rw [Inner.claimed, Inner.claimed]
  dsimp only
  cases hbound : g.affinity.lookup key with
  | none => exact .inl .rfl
  | some bound =>
      obtain ⟨worker, used⟩ := bound
      rw [Option.any_some, Option.any_some]
      dsimp only
      by_cases hworker : worker = nodeId
      · subst hworker
        rcases h used hbound with hnode | rfl
        · rw [AList.lookup_insert, hnode]
          exact .inl .rfl
        · exact .inr rfl
      · rw [AList.lookup_insert_ne hworker]
        exact .inl .rfl

end Distllm.Relay

namespace Distllm.PyRelay

open State
open Relay (Bytes Instant Status Node Settings maxReportedSessions)

/-- The record the Rust relay keeps for the task, without its answer. -/
def Task.twin (task : Task) : Relay.Task :=
  { targetRole := task.targetRole, payload := task.payload, route := task.route,
    rootId := task.rootId, session := task.session, status := task.status,
    workerId := task.workerId, assignedAt := task.assignedAt, result := none, error := none,
    createdAt := task.createdAt, completedAt := task.completedAt, done := task.done }

structure Mirrors (s : State) (g : Relay.Inner) : Prop where
  listed : s.tasks.Nodup
  nodes : ∀ w, g.nodes.lookup w = s.nodes.lookup w
  tasks : ∀ x, (g.tasks.lookup x).map Relay.Task.unanswered = (s.get x).map Task.twin
  shared : ∀ r, g.roleQueues.queue r = s.pendingQueues.queue r
  own : ∀ w, g.workerQueues.queue w = s.workerQueues.queue w
  affinity : ∀ key, g.affinity.lookup key = s.affinity.lookup key

/-- The session of the task is not bound to the empty name, which is no worker here. -/
def State.Named (s : State) (role : String) (session : Option String) : Prop :=
  ∀ name used, session = some name → s.affinity.lookup (role, name) ≠ some ("", used)

variable {s : State} {g : Relay.Inner} {id x worker role : String} {task : Task}
  {twin : Relay.Task} {now : Instant}

theorem get_setTask (s : State) (id x : String) (f : Task → Task) :
    (s.setTask id f).get x = if x = id then (s.get x).map f else s.get x := by
  simp only [State.get, setTask, AList.lookup_modify]
  split
  · rfl
  · exact (ite_self none).symm

namespace Mirrors

theorem twin_of (h : Mirrors s g) (htask : s.get x = some task) :
    ∃ twin, g.tasks.lookup x = some twin ∧ task.twin = twin.unanswered := by
  have hx := h.tasks x
  rw [htask, Option.map_some] at hx
  obtain ⟨twin, htwin, heq⟩ := Option.map_eq_some_iff.mp hx
  exact ⟨twin, htwin, heq.symm⟩

theorem task_of (h : Mirrors s g) (htwin : g.tasks.lookup x = some twin) :
    ∃ task, s.get x = some task ∧ task.twin = twin.unanswered := by
  have hx := h.tasks x
  rw [htwin, Option.map_some] at hx
  exact Option.map_eq_some_iff.mp hx.symm

theorem get_eq_none (h : Mirrors s g) : s.get x = none ↔ g.tasks.lookup x = none := by
  rw [← Option.map_eq_none_iff (f := Task.twin), ← h.tasks, Option.map_eq_none_iff]

/-- A test of a task and of its twin. -/
theorem any_eq {p : Task → Bool} {q : Relay.Task → Bool} (h : Mirrors s g)
    (hpq : ∀ task twin, s.get x = some task → g.tasks.lookup x = some twin →
      task.twin = twin.unanswered → p task = q twin) :
    (s.get x).any p = (g.tasks.lookup x).any q := by
  cases htask : s.get x with
  | none => rw [h.get_eq_none.mp htask, Option.any_none, Option.any_none]
  | some task =>
      obtain ⟨twin, htwin, hsame⟩ := h.twin_of htask
      rw [htwin, Option.any_some, Option.any_some, hpq task twin htask htwin hsame]

/-! ### Updates -/

theorem setTask {f : Task → Task} {k : Relay.Task → Relay.Task} (h : Mirrors s g)
    (hsame : ∀ task twin, task.twin = Relay.Task.unanswered twin →
      (f task).twin = (k twin).unanswered) :
    Mirrors (s.setTask id f) { g with tasks := g.tasks.modify id k } := by
  refine { h with tasks := fun x => ?_ }
  rw [AList.lookup_modify, get_setTask]
  split
  · cases htask : s.get x with
    | none => simp only [h.get_eq_none.mp htask, Option.map_none]
    | some task =>
        obtain ⟨twin, htwin, heq⟩ := h.twin_of htask
        rw [htwin, Option.map_some, Option.map_some, Option.map_some, Option.map_some,
          hsame task twin heq]
  · exact h.tasks x

theorem putPending (h : Mirrors s g) (role id : String) :
    Mirrors (s.putPending role id) (g.pushRole role id) := by
  refine { h with shared := fun r => ?_ }
  rw [State.putPending, Relay.Inner.pushRole_roleQueues, AList.queue_enqueue, AList.queue_enqueue,
    h.shared, h.shared]

theorem putOwn (h : Mirrors s g) (worker id : String) :
    Mirrors { s with workerQueues := s.workerQueues.enqueue worker id }
      (g.pushWorker worker id) := by
  refine { h with own := fun w => ?_ }
  rw [Relay.Inner.pushWorker_workerQueues, AList.queue_enqueue, AList.queue_enqueue, h.own, h.own]

theorem unbound (h : Mirrors s g) (key : String × String) :
    Mirrors { s with affinity := s.affinity.erase key }
      { g with affinity := g.affinity.erase key } := by
  refine { h with affinity := fun other => ?_ }
  rw [AList.lookup_erase_eq, AList.lookup_erase_eq, h.affinity]

theorem bound (h : Mirrors s g) (key : String × String) (binding : String × Instant) :
    Mirrors { s with affinity := s.affinity.put key binding }
      { g with affinity := g.affinity.insert key binding } := by
  refine { h with affinity := fun other => ?_ }
  rw [AList.lookup_put, AList.lookup_insert_eq, h.affinity]

theorem boundWorker (h : Mirrors s g) (hnamed : s.Named task.targetRole task.session) :
    (s.boundWorker task).1 = (g.boundWorker task.targetRole task.session).1 ∧
      Mirrors (s.boundWorker task).2 (g.boundWorker task.targetRole task.session).2 := by
  unfold State.boundWorker Relay.Inner.boundWorker
  cases hsession : task.session with
  | none => exact ⟨rfl, h⟩
  | some session =>
      dsimp only
      rw [h.affinity]
      cases hbound : s.affinity.lookup (task.targetRole, session) with
      | none => exact ⟨rfl, h⟩
      | some binding =>
          obtain ⟨worker, used⟩ := binding
          dsimp only
          have hname : worker ≠ "" := by
            rintro rfl
            exact hnamed session used hsession hbound
          rw [if_neg hname, h.nodes]
          cases s.nodes.lookup worker with
          | none => exact ⟨rfl, h.unbound _⟩
          | some node =>
              dsimp only
              split
              · exact ⟨rfl, h⟩
              · exact ⟨rfl, h.unbound _⟩

/-- A new task is queued at the same place. -/
theorem enqueue (h : Mirrors s g) (hnamed : s.Named task.targetRole task.session)
    (hsame : task.twin = twin.unanswered) : Mirrors (s.enqueue id task) (g.enqueue id twin) := by
  have hstored : Mirrors { s with
      objects := s.objects.put id task
      tasks := if id ∈ s.tasks then s.tasks else s.tasks ++ [id] }
      { g with tasks := g.tasks.insert id twin } := by
    refine { h with listed := ?_, tasks := fun x => ?_ }
    · dsimp only
      split
      · exact h.listed
      · rename_i hnew
        refine List.nodup_append.mpr ⟨h.listed, List.nodup_singleton id, fun y hy z hz => ?_⟩
        rw [List.mem_singleton.mp hz]
        exact fun heq => hnew (heq ▸ hy)
    · rw [AList.lookup_insert_eq]
      have hx := h.tasks x
      simp only [State.get, AList.lookup_put] at hx ⊢
      by_cases hid : x = id
      · subst hid
        rw [if_pos rfl, if_pos rfl, Option.map_some, ← hsame, if_pos, Option.map_some]
        split
        · rename_i hmem
          exact hmem
        · exact List.mem_append_right _ List.mem_cons_self
      · rw [if_neg hid, if_neg hid, hx]
        by_cases hmem : id ∈ s.tasks
        · rw [if_pos hmem]
        · simp only [if_neg hmem, List.mem_append, List.mem_singleton, hid, or_false]
  have hrole : task.targetRole = twin.targetRole := congrArg Relay.Task.targetRole hsame
  have hsession : task.session = twin.session := congrArg Relay.Task.session hsame
  obtain ⟨hworker, hafter⟩ := hstored.boundWorker hnamed
  rw [Relay.Inner.enqueue_eq, ← hrole, ← hsession]
  unfold State.enqueue
  dsimp only
  generalize Relay.Inner.boundWorker { g with tasks := g.tasks.insert id twin } task.targetRole
    task.session = found at hworker hafter ⊢
  obtain ⟨worker, g'⟩ := found
  dsimp only at hworker hafter
  rw [hworker]
  cases worker with
  | none => exact hafter.putPending task.targetRole id
  | some worker => exact hafter.putOwn worker id

/-- Re-queueing an assigned task. -/
theorem requeue (h : Mirrors s g) (htask : s.get id = some task)
    (hworker : task.workerId.isSome = true) : Mirrors (s.requeue id) (g.requeue id) := by
  obtain ⟨twin, htwin, hsame⟩ := h.twin_of htask
  obtain ⟨worker, hworker⟩ := Option.isSome_iff_exists.mp hworker
  have hrole : task.targetRole = twin.targetRole := congrArg Relay.Task.targetRole hsame
  have hsession : task.session = twin.session := congrArg Relay.Task.session hsame
  have hassignee : task.workerId = twin.workerId := congrArg Relay.Task.workerId hsame
  have hreleased : ∀ {s : State} {g : Relay.Inner}, Mirrors s g → Mirrors
      ((s.setTask id fun task => { task with
        status := .pending, workerId := none, assignedAt := none }).putPending task.targetRole id)
      (Relay.Inner.pushRole { g with tasks := g.tasks.modify id Relay.released }
        task.targetRole id) := by
    intro s g h
    refine (h.setTask fun task twin heq => ?_).putPending _ _
    exact congrArg Relay.released heq
  have hsame' : g.requeue id = Relay.Inner.pushRole
      { g.unbind twin with tasks := (g.unbind twin).tasks.modify id Relay.released }
      task.targetRole id := by
    rw [Relay.Inner.requeue, htwin, hrole]
    rfl
  rw [hsame']
  simp only [State.requeue, (get_eq_some.mp htask).2]
  unfold Relay.Inner.unbind
  rw [← hsession, ← hassignee, hworker, ← hrole]
  cases task.session with
  | none => exact hreleased h
  | some session =>
      dsimp only
      rw [h.affinity]
      have hnamed : (s.affinity.lookup (task.targetRole, session)).map Prod.fst = some worker ↔
          ((s.affinity.lookup (task.targetRole, session)).any fun bound =>
            bound.1 == worker) = true := by
        simp only [Option.map_eq_some_iff, Option.any_eq_true, beq_iff_eq]
      by_cases hbound : (s.affinity.lookup (task.targetRole, session)).map Prod.fst = some worker
      · rw [if_pos hbound, if_pos (hnamed.mp hbound)]
        exact hreleased (h.unbound _)
      · rw [if_neg hbound, if_neg fun hany => hbound (hnamed.mpr hany)]
        exact hreleased h

end Mirrors

theorem objects_requeue_ne (s : State) (hne : x ≠ id) :
    (s.requeue id).objects.lookup x = s.objects.lookup x := by
  cases htask : s.objects.lookup id with
  | none => rw [State.requeue, htask]
  | some task =>
      obtain ⟨affinity, queues, h⟩ := requeue_of_lookup htask
      rw [h]
      exact AList.lookup_modify_ne hne _ _

theorem tasks_requeue (s : State) (id : String) : (s.requeue id).tasks = s.tasks := by
  cases htask : s.objects.lookup id with
  | none => rw [State.requeue, htask]
  | some task =>
      obtain ⟨affinity, queues, h⟩ := requeue_of_lookup htask
      rw [h]
      rfl

theorem get_requeue_ne (s : State) (hne : x ≠ id) : (s.requeue id).get x = s.get x := by
  rw [State.get, State.get, tasks_requeue, objects_requeue_ne s hne]

/-- A loop over all tasks that re-queues those that pass a test. -/
theorem foldl_requeue_where {f : State → String → State} {p : Task → Bool} {ids : List String}
    (hf : ∀ s id, f s id = if (s.objects.lookup id).any p then s.requeue id else s)
    (hnodup : ids.Nodup) : ids.foldl f s =
      (ids.filter fun id => (s.objects.lookup id).any p).foldl State.requeue s := by
  induction ids generalizing s with
  | nil => rfl
  | cons id rest ih =>
      obtain ⟨hid, hrest⟩ := List.nodup_cons.mp hnodup
      rw [List.foldl_cons, ih hrest, hf, List.filter_cons]
      split
      · rw [List.foldl_cons]
        congr 1
        apply List.filter_congr
        intro x hx
        rw [objects_requeue_ne s fun heq : x = id => hid (heq ▸ hx)]
      · rfl

/-- The tasks a worker currently holds, in the order of the dict. -/
def State.held (s : State) (worker : String) : List String :=
  s.tasks.filter fun id => (s.objects.lookup id).any fun task =>
    task.status == .assigned && task.workerId == some worker

def Task.timedOut (timeouts : Timeouts) (now : Instant) (task : Task) : Bool :=
  task.status == .assigned &&
    task.assignedAt.any fun at' => at' ≠ 0 && decide (now - at' > timeouts.taskTimeout)

/-- The tasks that are assigned for too long, in the order of the dict. -/
def State.stuck (timeouts : Timeouts) (s : State) (now : Instant) : List String :=
  s.tasks.filter fun id => (s.objects.lookup id).any (Task.timedOut timeouts now)

theorem requeueHeld_eq (worker : String) (s : State) (id : String) : s.requeueHeld worker id =
    if (s.objects.lookup id).any fun task =>
      task.status == .assigned && task.workerId == some worker then s.requeue id else s := by
  unfold requeueHeld
  cases s.objects.lookup id with
  | none => rfl
  | some task => simp only [Option.any_some, Bool.and_eq_true, beq_iff_eq]

theorem requeueStuck_eq (timeouts : Timeouts) (now : Instant) (s : State) (id : String) :
    s.requeueStuck timeouts now id =
      if (s.objects.lookup id).any (Task.timedOut timeouts now) then s.requeue id else s := by
  unfold requeueStuck
  cases s.objects.lookup id with
  | none => rfl
  | some task => simp only [Option.any_some, Task.timedOut, Bool.and_eq_true, beq_iff_eq]

namespace Mirrors

theorem foldl_requeue {ids : List String} (h : Mirrors s g) (hnodup : ids.Nodup)
    (hheld : ∀ id ∈ ids, ∃ task, s.get id = some task ∧ task.workerId.isSome = true) :
    Mirrors (ids.foldl State.requeue s) (ids.foldl Relay.Inner.requeue g) := by
  induction ids generalizing s g with
  | nil => exact h
  | cons id rest ih =>
      obtain ⟨hid, hrest⟩ := List.nodup_cons.mp hnodup
      obtain ⟨task, htask, hworker⟩ := hheld id List.mem_cons_self
      apply ih (h.requeue htask hworker) hrest
      intro x hx
      rw [get_requeue_ne s fun heq : x = id => hid (heq ▸ hx)]
      exact hheld x (List.mem_cons_of_mem _ hx)

theorem foldl {α : Type} {f : State → α → State} {k : Relay.Inner → α → Relay.Inner}
    (h : Mirrors s g) (hstep : ∀ {s g} x, Mirrors s g → Mirrors (f s x) (k g x))
    (items : List α) : Mirrors (items.foldl f s) (items.foldl k g) := by
  induction items generalizing s g with
  | nil => exact h
  | cons item rest ih => exact ih (hstep item h)

theorem moveToRole (h : Mirrors s g) (id : String) :
    Mirrors (s.moveToRole id) (g.moveToRole id) := by
  unfold State.moveToRole Relay.Inner.moveToRole
  cases htask : s.get id with
  | none =>
      rw [h.get_eq_none.mp htask]
      exact h
  | some task =>
      obtain ⟨twin, htwin, hsame⟩ := h.twin_of htask
      have hrole : task.targetRole = twin.targetRole := congrArg Relay.Task.targetRole hsame
      have hstatus : task.status = twin.status := congrArg Relay.Task.status hsame
      rw [htwin]
      dsimp only
      rw [hstatus, hrole]
      split
      · exact h.putPending _ _
      · exact h

theorem retained (h : Mirrors s g) (p : String × String → String × Instant → Bool) :
    Mirrors { s with affinity := s.affinity.retain p }
      { g with affinity := g.affinity.retain p } := by
  refine { h with affinity := fun key => ?_ }
  rw [AList.lookup_retain, AList.lookup_retain, h.affinity]

/-- A gone worker is forgotten alike when its tasks are listed in the same order. -/
theorem forgetWorker (h : Mirrors s g) (horder : s.held worker = g.assignedTo worker) :
    Mirrors (s.forgetWorker worker) (g.forgetWorker worker) := by
  have hreturned : Mirrors (s.tasks.foldl (requeueHeld worker) s)
      ((g.assignedTo worker).foldl Relay.Inner.requeue g) := by
    rw [foldl_requeue_where (requeueHeld_eq worker) h.listed, ← State.held, horder]
    apply h.foldl_requeue (AList.keysWhere_nodup _ _)
    intro id hid
    obtain ⟨twin, htwin, _, hworker⟩ := g.mem_assignedTo.mp hid
    obtain ⟨task, htask, hsame⟩ := h.task_of htwin
    have hassignee : task.workerId = twin.workerId := congrArg Relay.Task.workerId hsame
    exact ⟨task, htask, by rw [hassignee, hworker]; rfl⟩
  unfold State.forgetWorker Relay.Inner.forgetWorker
  dsimp only
  generalize s.tasks.foldl (requeueHeld worker) s = s₁ at hreturned ⊢
  generalize (g.assignedTo worker).foldl Relay.Inner.requeue g = g₁ at hreturned ⊢
  have herased : Mirrors { s₁ with workerQueues := s₁.workerQueues.erase worker }
      { g₁ with workerQueues := g₁.workerQueues.erase worker } := by
    refine { hreturned with own := fun w => ?_ }
    rw [AList.queue_erase, AList.queue_erase, hreturned.own]
  rw [hreturned.own]
  exact (herased.foldl (fun id h => h.moveToRole id) _).retained _

theorem dropNode (h : Mirrors s g) (horder : s.held worker = g.assignedTo worker) :
    Mirrors (s.dropNode worker) (Relay.dropNode g worker) := by
  unfold State.dropNode Relay.dropNode
  rw [h.nodes]
  cases s.nodes.lookup worker with
  | none => exact h
  | some node =>
      have herased : Mirrors { s with nodes := s.nodes.erase worker }
          { g with nodes := g.nodes.erase worker } := by
        refine { h with nodes := fun w => ?_ }
        rw [AList.lookup_erase_eq, AList.lookup_erase_eq, h.nodes]
      exact herased.forgetWorker horder

end Mirrors

/-! ### The order of the dict -/

/-- The hash map of the tasks is listed in the order of the dict. -/
def InOrder (s : State) (g : Relay.Inner) : Prop :=
  g.tasks.keys = s.tasks.filter fun x => (s.get x).isSome

/-- The tables of a mirror can be listed in the order of the dicts. -/
theorem Mirrors.exists_inOrder (h : Mirrors s g) :
    ∃ g', g.Rehashed g' ∧ Mirrors s g' ∧ InOrder s g' ∧ g'.nodes = s.nodes := by
  have hsome : ∀ x, (g.tasks.lookup x).isSome = (s.get x).isSome := fun x => by
    rw [← Option.isSome_map, h.tasks, Option.isSome_map]
  obtain ⟨tasks, hkeys, hlookup⟩ : ∃ tasks : AList fun _ : String => Relay.Task,
      tasks.keys = (s.tasks.filter fun x => (s.get x).isSome) ∧ ∀ x, tasks.lookup x =
        if x ∈ s.tasks.filter fun x => (s.get x).isSome then g.tasks.lookup x else none :=
    AList.exists_keys_eq (h.listed.filter _) fun x hx => by
      rw [hsome]
      exact (List.mem_filter.mp hx).2
  have hsame : ∀ x, tasks.lookup x = g.tasks.lookup x := by
    intro x
    rw [hlookup]
    split
    · rfl
    · rename_i hx
      refine (h.get_eq_none.mp ?_).symm
      by_contra hne
      obtain ⟨task, htask⟩ := Option.ne_none_iff_exists'.mp hne
      exact hx (List.mem_filter.mpr ⟨(get_eq_some.mp htask).1, by rw [htask]; rfl⟩)
  refine ⟨{ g with tasks := tasks, nodes := s.nodes }, ⟨AList.entries_perm_of_lookup h.nodes,
    AList.entries_perm_of_lookup fun x => (hsame x).symm, .refl _, .refl _, .refl _⟩,
    { h with nodes := fun _ => rfl, tasks := fun x => ?_ }, hkeys, rfl⟩
  rw [hsame, h.tasks]

namespace InOrder

/-- The tasks that pass a test are listed alike. -/
theorem filter_eq {p : Task → Bool} {q : Relay.Task → Bool} (horder : InOrder s g)
    (h : Mirrors s g) (hpq : ∀ x task twin, s.get x = some task → g.tasks.lookup x = some twin →
      task.twin = twin.unanswered → p task = q twin) :
    (s.tasks.filter fun x => (s.objects.lookup x).any p) =
      g.tasks.keys.filter fun x => (g.tasks.lookup x).any q := by
  rw [horder, List.filter_filter]
  apply List.filter_congr
  intro x hx
  have hget : s.get x = s.objects.lookup x := if_pos hx
  rw [← h.any_eq (hpq x), hget]
  cases s.objects.lookup x <;> simp

theorem held_eq (horder : InOrder s g) (h : Mirrors s g) (worker : String) :
    s.held worker = g.assignedTo worker := by
  rw [State.held, Relay.Inner.assignedTo_eq]
  apply horder.filter_eq h
  intro x task twin _ _ hsame
  have hstatus : task.status = twin.status := congrArg Relay.Task.status hsame
  have hassignee : task.workerId = twin.workerId := congrArg Relay.Task.workerId hsame
  rw [hstatus, hassignee]

/-- The order stays while no task is stored or dropped. -/
theorem of_same {s' : State} {g' : Relay.Inner} (horder : InOrder s g) (h : Mirrors s g)
    (h' : Mirrors s' g') (htasks : s'.tasks = s.tasks) (hkeys : g'.tasks.keys = g.tasks.keys) :
    InOrder s' g' := by
  rw [InOrder, hkeys, htasks, horder]
  apply List.filter_congr
  intro x _
  rw [← Option.isSome_map (f := Task.twin), ← h.tasks, Option.isSome_map,
    ← Option.isSome_map (f := Task.twin), ← h'.tasks, Option.isSome_map, Bool.eq_iff_iff,
    AList.lookup_isSome, AList.lookup_isSome, AList.mem_keys, AList.mem_keys, hkeys]

end InOrder

theorem tasks_dropNode (s : State) (nodeId : String) : (s.dropNode nodeId).tasks = s.tasks := by
  have hheld : ∀ (ids : List String) (s : State),
      (ids.foldl (requeueHeld nodeId) s).tasks = s.tasks := by
    intro ids
    induction ids with
    | nil => exact fun _ => rfl
    | cons id rest ih =>
        intro s
        rw [List.foldl_cons, ih, requeueHeld_eq]
        split
        · exact tasks_requeue s id
        · rfl
  have hmoved : ∀ (ids : List String) (s : State), (ids.foldl moveToRole s).tasks = s.tasks := by
    intro ids
    induction ids with
    | nil => exact fun _ => rfl
    | cons id rest ih =>
        intro s
        rw [List.foldl_cons, ih]
        unfold moveToRole
        split
        · split <;> rfl
        · rfl
  unfold dropNode
  split
  · simp only [forgetWorker, hmoved, hheld]
  · rfl

namespace Mirrors

theorem foldl_dropNode (h : Mirrors s g) (horder : InOrder s g) (workers : List String) :
    Mirrors (workers.foldl State.dropNode s) (workers.foldl Relay.dropNode g) ∧
      InOrder (workers.foldl State.dropNode s) (workers.foldl Relay.dropNode g) := by
  induction workers generalizing s g with
  | nil => exact ⟨h, horder⟩
  | cons worker rest ih =>
      have hfirst := h.dropNode (horder.held_eq h worker)
      exact ih hfirst (horder.of_same h hfirst (tasks_dropNode s worker) (g.keys_dropNode worker))

end Mirrors

/-! ### The janitor -/

/-- The records carry no time that Python takes for none. -/
def Timed (g : Relay.Inner) : Prop :=
  ∀ x twin, g.tasks.lookup x = some twin → twin.assignedAt ≠ some 0 ∧ twin.completedAt ≠ some 0

theorem Timed.released {g' : Relay.Inner} {p : Relay.Task → Bool} (h : Timed g)
    (htasks : ∀ x, g'.tasks.lookup x =
      (g.tasks.lookup x).map fun task => if p task then Relay.released task else task) :
    Timed g' := by
  intro x twin htwin
  rw [htasks] at htwin
  obtain ⟨before, hbefore, rfl⟩ := Option.map_eq_some_iff.mp htwin
  obtain ⟨hassigned, hcompleted⟩ := h x before hbefore
  split
  · exact ⟨by simp [Relay.released], hcompleted⟩
  · exact ⟨hassigned, hcompleted⟩

/-- A time other than zero is compared alike. -/
theorem any_past (time : Option Instant) (h : time ≠ some 0) (late : Instant → Bool) :
    (time.any fun at' => at' ≠ 0 && late at') = (time.map late).getD false := by
  cases time with
  | none => rfl
  | some at' =>
      have hne : at' ≠ 0 := fun heq => h (congrArg some heq)
      simp [hne]

theorem timedOut_eq {settings : Settings} (hsame : task.twin = twin.unanswered)
    (htimed : twin.assignedAt ≠ some 0) :
    task.timedOut ⟨settings.taskTimeout, settings.nodeTimeout⟩ now =
      (twin.status == .assigned && Relay.Inner.Task.stuck settings now twin) := by
  have hstatus : task.status = twin.status := congrArg Relay.Task.status hsame
  have hassigned : task.assignedAt = twin.assignedAt := congrArg Relay.Task.assignedAt hsame
  rw [Task.timedOut, hstatus, hassigned, any_past _ htimed]
  rfl

/-- The nodes that are silent for too long, in the order of the dict. -/
def State.silent (timeouts : Timeouts) (s : State) (now : Instant) : List String :=
  s.nodes.keysWhere fun _ node => decide (now - node.lastHeartbeat > timeouts.nodeTimeout)

theorem silent_eq {settings : Settings} (hnodes : g.nodes = s.nodes) :
    s.silent ⟨settings.taskTimeout, settings.nodeTimeout⟩ now =
      Relay.deadNodes settings g now := by
  rw [Relay.deadNodes, hnodes, State.silent]

theorem InOrder.stuck_eq {settings : Settings} (horder : InOrder s g) (h : Mirrors s g)
    (htimed : Timed g) : s.stuck ⟨settings.taskTimeout, settings.nodeTimeout⟩ now =
      Relay.stuckTasks settings g now := by
  rw [State.stuck, Relay.Inner.stuckTasks_eq]
  exact horder.filter_eq h fun x task twin _ htwin hsame => timedOut_eq hsame (htimed x twin htwin).1

theorem keepTask_eq (hsame : task.twin = twin.unanswered) (htimed : twin.completedAt ≠ some 0) :
    keepTask now task = Relay.keepTask now twin := by
  have hdone : task.done = twin.done := congrArg Relay.Task.done hsame
  have hcompleted : task.completedAt = twin.completedAt := congrArg Relay.Task.completedAt hsame
  have hcreated : task.createdAt = twin.createdAt := congrArg Relay.Task.createdAt hsame
  rw [keepTask, Relay.keepTask, hdone, hcompleted, hcreated, any_past _ htimed]
  cases twin.done with
  | false =>
      simp only [Bool.false_and, Bool.not_false, Bool.true_and, Bool.false_or, Bool.false_eq_true,
        if_false, gt_iff_lt, ← decide_not, Nat.not_lt]
  | true =>
      cases twin.completedAt with
      | none => rfl
      | some at' =>
          simp only [Bool.true_and, Bool.not_true, Bool.false_and, Bool.or_false, if_true,
            Option.map_some, Option.getD_some, gt_iff_lt, ← decide_not, Nat.not_lt]

namespace Mirrors

theorem cleanupOldTasks (h : Mirrors s g) (htimed : Timed g) :
    Mirrors (s.cleanupOldTasks now) { g with
      tasks := g.tasks.retain fun _ task => Relay.keepTask now task
      affinity := g.affinity.retain fun _ bound =>
        decide (now - bound.2 ≤ Relay.sessionAffinityTtl) } := by
  have hkept : Mirrors
      { s with tasks := s.tasks.filter fun x => (s.objects.lookup x).any (keepTask now) }
      { g with tasks := g.tasks.retain fun _ task => Relay.keepTask now task } := by
    refine { h with listed := h.listed.filter _, tasks := fun x => ?_ }
    rw [AList.lookup_retain]
    cases htask : s.get x with
    | none =>
        have hnone : State.get { s with
            tasks := s.tasks.filter fun x => (s.objects.lookup x).any (keepTask now) } x = none := by
          rw [State.get] at htask ⊢
          dsimp only
          split
          · rename_i hmem
            rwa [if_pos (List.mem_filter.mp hmem).1] at htask
          · rfl
        rw [hnone, h.get_eq_none.mp htask]
        rfl
    | some task =>
        obtain ⟨twin, htwin, hsame⟩ := h.twin_of htask
        obtain ⟨hmem, hobject⟩ := get_eq_some.mp htask
        have hkeep : keepTask now task = Relay.keepTask now twin :=
          keepTask_eq hsame (htimed x twin htwin).2
        have hmem' : x ∈ (s.tasks.filter fun x => (s.objects.lookup x).any (keepTask now)) ↔
            Relay.keepTask now twin = true := by
          rw [List.mem_filter, hobject, Option.any_some, hkeep]
          exact and_iff_right hmem
        rw [htwin, Option.filter_some, State.get]
        dsimp only
        by_cases hkept : Relay.keepTask now twin = true
        · rw [if_pos hkept, if_pos (hmem'.mpr hkept), hobject, Option.map_some, Option.map_some,
            hsame]
        · rw [if_neg hkept, if_neg fun hx => hkept (hmem'.mp hx)]
          rfl
  exact hkept.retained _

/-- The janitor, with the tables listed in the same order. -/
theorem relayJanitor {settings : Settings} (h : Mirrors s g) (horder : InOrder s g)
    (hnodes : g.nodes = s.nodes) (hg : g.QueuesExact) (htimed : Timed g) :
    Mirrors (s.relayJanitor ⟨settings.taskTimeout, settings.nodeTimeout⟩ now now now)
      (Relay.sweep settings g now) := by
  have hsilent : s.silent ⟨settings.taskTimeout, settings.nodeTimeout⟩ now =
      Relay.deadNodes settings g now := silent_eq hnodes
  rw [State.silent] at hsilent
  obtain ⟨hdropped, horder₁⟩ := h.foldl_dropNode horder (Relay.deadNodes settings g now)
  have heffect := Relay.Inner.droppedAll_deadNodes hg settings now
  have hexact := hg.foldl_dropNode (Relay.deadNodes settings g now)
  have htimed₁ : Timed ((Relay.deadNodes settings g now).foldl Relay.dropNode g) :=
    htimed.released heffect.tasks
  rw [State.relayJanitor, Relay.sweep]
  dsimp only
  rw [hsilent]
  set s₁ := (Relay.deadNodes settings g now).foldl State.dropNode s
  set g₁ := (Relay.deadNodes settings g now).foldl Relay.dropNode g
  have hreturned : Mirrors
      (s₁.cleanupStuckTasks ⟨settings.taskTimeout, settings.nodeTimeout⟩ now)
      ((Relay.stuckTasks settings g₁ now).foldl Relay.Inner.requeue g₁) := by
    rw [State.cleanupStuckTasks, foldl_requeue_where (requeueStuck_eq _ now) hdropped.listed,
      ← State.stuck, horder₁.stuck_eq hdropped htimed₁]
    apply hdropped.foldl_requeue (AList.keysWhere_nodup _ _)
    intro x hx
    obtain ⟨twin, htwin, hassigned⟩ := Relay.Inner.assigned_of_mem_stuckTasks hx
    obtain ⟨task, htask, hsame⟩ := hdropped.task_of htwin
    have hassignee : task.workerId = twin.workerId := congrArg Relay.Task.workerId hsame
    exact ⟨task, htask, by rw [hassignee]; exact (hexact.held x twin htwin hassigned).1⟩
  exact hreturned.cleanupOldTasks (htimed.released (heffect.tasks_returned rfl
    (g₁.returned_stuckTasks settings now)))

/-! ### Registrations and heartbeats -/

theorem claim (h : Mirrors s g) (nodeId role : String) (now : Instant) (session : String) :
    Mirrors (PyRelay.claim nodeId role now s session) (Relay.claim nodeId role now g session) := by
  unfold PyRelay.claim Relay.claim
  have hlive : ((g.affinity.lookup (role, session)).any fun bound =>
      (g.nodes.lookup bound.1).isSome) = ((s.affinity.lookup (role, session)).any fun bound =>
        (s.nodes.lookup bound.1).isSome) := by
    rw [h.affinity]
    congr 1
    funext bound
    rw [h.nodes]
  dsimp only
  rw [hlive]
  split
  · exact h
  · exact h.bound _ _

end Mirrors

/-- The sessions a registration claims. -/
def reported (sessions : List String) : List String :=
  (sessions.filter (· ≠ "")).take maxReportedSessions

/-- Unless the node is registered already, no claimed session is bound to it since earlier. -/
def State.NewClaims (s : State) (nodeId role : String) (sessions : List String) (now : Instant) :
    Prop :=
  s.nodes.lookup nodeId = none → ∀ session ∈ reported sessions, ∀ used,
    s.affinity.lookup (role, session) = some (nodeId, used) → used = now

namespace Mirrors

/-- Python stores the node before it claims the sessions, Rust after. -/
theorem register {nodeId : String} {sessions : List String} (h : Mirrors s g)
    (hclaims : s.NewClaims nodeId role sessions now) :
    Mirrors (PyRelay.register s nodeId role sessions now)
      (Relay.register g nodeId role (sessions.filter (· ≠ "")) now) := by
  set g₁ : Relay.Inner := { g with nodes := g.nodes.insert nodeId ⟨role, now⟩ } with hg₁
  have hnode : Mirrors { s with nodes := s.nodes.put nodeId ⟨role, now⟩ } g₁ := by
    refine { h with nodes := fun w => ?_ }
    rw [AList.lookup_put, AList.lookup_insert_eq, h.nodes]
  have hfirst : Mirrors (PyRelay.register s nodeId role sessions now)
      ((reported sessions).foldl (Relay.claim nodeId role now) g₁) :=
    hnode.foldl (fun session h => h.claim nodeId role now session) _
  obtain ⟨affinity, hafter, hlookup⟩ :=
    Relay.Inner.foldl_claim_spec nodeId role now (reported sessions) g₁
  obtain ⟨affinity', hafter', hlookup'⟩ :=
    g.register_spec nodeId role (sessions.filter (· ≠ "")) now
  rw [hafter] at hfirst
  rw [hafter']
  refine ⟨hfirst.listed, hfirst.nodes, hfirst.tasks, fun r => ?_, fun w => ?_, fun key => ?_⟩
  · rw [← hfirst.shared]
    exact Relay.queue_orDefault ..
  · rw [← hfirst.own]
    exact Relay.queue_orDefault ..
  · rw [← hfirst.affinity]
    refine (hlookup' key).trans ((hlookup key).trans ?_).symm
    by_cases hkey : key ∈ (reported sessions).map (role, ·)
    swap
    · rw [if_neg fun hboth => hkey hboth.1]
      exact (if_neg fun hboth => hkey hboth.1).symm
    have hclaimed : (g₁.claimed key = false ↔ g.claimed key = false) ∨
        g.affinity.lookup key = some (nodeId, now) := by
      apply Relay.Inner.claimed_insert
      intro used hbound
      rw [h.affinity] at hbound
      rw [h.nodes]
      cases hnone : s.nodes.lookup nodeId with
      | some node => exact .inl rfl
      | none =>
          obtain ⟨session, hsession, rfl⟩ := List.mem_map.mp hkey
          exact .inr (hclaims hnone session hsession used hbound)
    rcases hclaimed with hsame | hown
    · simp only [hsame]
      rfl
    · have hsame : g₁.affinity.lookup key = some (nodeId, now) := hown
      rw [hsame, ite_self]
      exact (ite_self _).symm

theorem heartbeat (h : Mirrors s g) (nodeId : String) (now : Instant) :
    Mirrors (match PyRelay.heartbeat s nodeId now with
      | .ok s => s
      | .error _ => s) (Relay.heartbeat g nodeId now).2 := by
  unfold PyRelay.heartbeat Relay.heartbeat
  rw [h.nodes]
  cases s.nodes.lookup nodeId with
  | none => exact h
  | some node =>
      refine { h with nodes := fun w => ?_ }
      rw [AList.lookup_modify, AList.lookup_modify, h.nodes]

/-! ### Results and failures -/

theorem finish {result : Bytes} {result' : Option Bytes} {error : Option String}
    (h : Mirrors s g) (htask : s.get id = some task) (status : Status) (now : Instant) :
    Mirrors (PyRelay.finish s id status result now) (g.finish id status result' error now) := by
  obtain ⟨twin, htwin, hsame⟩ := h.twin_of htask
  have hroot : task.rootId = twin.rootId := congrArg Relay.Task.rootId hsame
  obtain ⟨objects, hframe⟩ := finish_frame s id status result now
  have hobjects := (finish_of_lookup status result now (get_eq_some.mp htask).2).2
  obtain ⟨tasks, hfinish, hlookup⟩ := g.finish_of_lookup status result' error now htwin
  rw [hframe] at hobjects ⊢
  rw [hfinish]
  refine { h with tasks := fun x => ?_ }
  dsimp only at hobjects ⊢
  have hget : State.get { s with objects := objects } x = if x = id ∨ x = twin.rootId then
      (s.get x).map (conclude status result now) else s.get x := by
    simp only [State.get, hobjects, ← hroot]
    by_cases hmem : x ∈ s.tasks
    · have htarget : s.Target id task x ↔ x = id ∨ x = task.rootId := by
        rw [State.Target, and_iff_left hmem]
        by_cases hid : x = id
        · by_cases hown : task.rootId = id
          · simp [hid, hown]
          · simp [hid, hown]
        · simp [hid]
      simp only [if_pos hmem, htarget]
    · simp only [if_neg hmem, Option.map_none, ite_self]
  rw [hlookup, hget]
  split
  · cases hx : s.get x with
    | none => simp only [h.get_eq_none.mp hx, Option.map_none]
    | some found =>
        obtain ⟨twin', htwin', hsame'⟩ := h.twin_of hx
        have hdone : found.done = twin'.done := congrArg Relay.Task.done hsame'
        rw [htwin', Option.map_some, Option.map_some, Option.map_some, Option.map_some]
        unfold conclude Relay.concluded
        rw [hdone]
        split
        · rw [hsame']
        · exact congrArg some (congrArg (fun record : Relay.Task => { record with
            status := status, completedAt := some now, done := true }) hsame').symm
  · exact h.tasks x

theorem markForwarded (h : Mirrors s g) (id : String) (now : Instant) :
    Mirrors (s.setTask id (PyRelay.markForwarded id now))
      { g with tasks := g.tasks.modify id (Relay.markForwarded id now) } := by
  apply h.setTask
  intro task twin hsame
  have hroot : task.rootId = twin.rootId := congrArg Relay.Task.rootId hsame
  have hdone : task.done = twin.done := congrArg Relay.Task.done hsame
  have hmarked : (if id ≠ task.rootId then true else task.done) =
      if twin.rootId ≠ id then true else twin.done := by
    rw [hroot, hdone]
    simp only [ne_comm]
  unfold PyRelay.markForwarded Relay.markForwarded
  rw [hmarked]
  exact congrArg (fun record : Relay.Task => { record with
    status := .forwarded, completedAt := some now,
    done := if twin.rootId ≠ id then true else twin.done }) hsame

theorem checkWorker_eq (hsame : task.twin = twin.unanswered) (workerId : Option String) :
    PyRelay.checkWorker task workerId = .ok () ↔ Relay.checkWorker twin workerId = true := by
  have hassignee : task.workerId = twin.workerId := congrArg Relay.Task.workerId hsame
  unfold PyRelay.checkWorker Relay.checkWorker
  rw [hassignee]
  cases twin.workerId with
  | none => simp
  | some assigned =>
      by_cases hworker : workerId = some assigned
      · simp [hworker]
      · simp [hworker]

/-- A post finds no record on either side, or a finished one on both, or it is refused by both, or
both take it. -/
theorem post_cases (h : Mirrors s g) (taskId : String) (workerId : Option String) :
    s.get taskId = none ∧ g.tasks.lookup taskId = none ∨
      ∃ task twin, s.get taskId = some task ∧ g.tasks.lookup taskId = some twin ∧
        task.twin = twin.unanswered ∧
        (task.status.finished = true ∧ twin.status.finished = true ∨
          task.status.finished = false ∧ twin.status.finished = false ∧
            ((∃ e, PyRelay.checkWorker task workerId = .error e) ∧
                Relay.checkWorker twin workerId = false ∨
              PyRelay.checkWorker task workerId = .ok () ∧
                Relay.checkWorker twin workerId = true)) := by
  cases htask : s.get taskId with
  | none => exact .inl ⟨rfl, h.get_eq_none.mp htask⟩
  | some task =>
      obtain ⟨twin, htwin, hsame⟩ := h.twin_of htask
      have hstatus : task.status = twin.status := congrArg Relay.Task.status hsame
      refine .inr ⟨task, twin, rfl, htwin, hsame, ?_⟩
      cases hlive : task.status.finished with
      | true => exact .inl ⟨rfl, hstatus ▸ hlive⟩
      | false =>
          refine .inr ⟨rfl, hstatus ▸ hlive, ?_⟩
          have hchecked := checkWorker_eq hsame workerId
          cases hcheck : PyRelay.checkWorker task workerId with
          | error e =>
              refine .inl ⟨⟨e, rfl⟩, ?_⟩
              rw [← Bool.not_eq_true, ← hchecked, hcheck]
              exact fun hok => by cases hok
          | ok _ => exact .inr ⟨rfl, hchecked.mp hcheck⟩

end Mirrors

/-- A failure report whose body arrives at once. -/
def failAtOnce (s : State) (report : FailReport) (text : String) (now : Instant) : State :=
  match postFailure s report with
  | .ok (.inr report) => postFailureBody s report text now
  | .ok (.inl _) | .error _ => s

variable {unpackb readValue : Bytes → Option Relay.Value}
  {taskId next : String} {workerId : Option String} {stopChain : Bool} {body : Bytes}

/-- If the result is passed on, both relays see it, and the session of the chain is not bound to
the empty name for the next role. -/
def State.PassesOn (unpackb readValue : Bytes → Option Relay.Value) (s : State) (taskId : String)
    (workerId : Option String) (stopChain : Bool) (body : Bytes) : Prop :=
  ∀ task nextRole tail, s.get taskId = some task → task.status.finished = false →
    checkWorker task workerId = .ok () → task.route = nextRole :: tail →
    stopsChain unpackb body stopChain = Relay.stopsChain readValue body stopChain ∧
      (stopsChain unpackb body stopChain = false → s.Named nextRole task.session)

namespace Mirrors

theorem postResult (timeouts : Timeouts) (h : Mirrors s g)
    (hpass : s.PassesOn unpackb readValue taskId workerId stopChain body) :
    Mirrors (exec timeouts unpackb (.result taskId workerId stopChain body next) now s)
      (Relay.postResult readValue g taskId workerId stopChain body next now).2 := by
  rcases h.post_cases taskId workerId with ⟨htask, htwin⟩ |
    ⟨task, twin, htask, htwin, hsame, ⟨hlive, hlive'⟩ | ⟨hlive, hlive', ⟨⟨e, hcheck⟩, hcheck'⟩ |
      ⟨hcheck, hcheck'⟩⟩⟩
  · simp only [exec, PyRelay.postResult, htask, Relay.postResult, htwin]
    exact h
  · simp only [exec, PyRelay.postResult, htask, hlive, Relay.postResult, htwin, hlive', if_true]
    exact h
  · simp only [exec, PyRelay.postResult, htask, hlive, hcheck, Relay.postResult, htwin, hlive',
      hcheck']
    exact h
  have hroute : task.route = twin.route := congrArg Relay.Task.route hsame
  cases hnext : task.route with
  | nil =>
      have hnext' : twin.route = [] := hroute ▸ hnext
      simp only [exec, PyRelay.postResult, htask, hlive, hcheck, hnext, Relay.postResult, htwin,
        hlive', hcheck', hnext']
      exact h.finish htask .completed now
  | cons nextRole tail =>
      have hnext' : twin.route = nextRole :: tail := hroute ▸ hnext
      obtain ⟨hstops, hnamed⟩ := hpass task nextRole tail htask hlive hcheck hnext
      cases hstop : PyRelay.stopsChain unpackb body stopChain with
      | true =>
          have hstop' := hstops.symm.trans hstop
          simp only [exec, PyRelay.postResult, htask, hlive, hcheck, hnext, hstop,
            Relay.postResult, htwin, hlive', hcheck', hnext', hstop']
          exact h.finish htask .completed now
      | false =>
          have hstop' := hstops.symm.trans hstop
          simp only [exec, PyRelay.postResult, htask, hlive, hcheck, hnext, hstop,
            Relay.postResult, htwin, hlive', hcheck', hnext', hstop']
          refine (h.markForwarded taskId now).enqueue (hnamed hstop) ?_
          exact congrArg (fun record => (Relay.successor record nextRole tail body now)) hsame

theorem failAtOnce (h : Mirrors s g) (report : FailReport) (text message : String) :
    Mirrors (PyRelay.failAtOnce s report text now)
      (Relay.postFailure g report.taskId report.workerId message now).2 := by
  unfold PyRelay.failAtOnce
  rcases h.post_cases report.taskId report.workerId with ⟨htask, htwin⟩ |
    ⟨task, twin, htask, htwin, -, ⟨hlive, hlive'⟩ | ⟨hlive, hlive', ⟨⟨e, hcheck⟩, hcheck'⟩ |
      ⟨hcheck, hcheck'⟩⟩⟩
  · simp only [PyRelay.postFailure, htask, Relay.postFailure, htwin]
    exact h
  · simp only [PyRelay.postFailure, htask, hlive, Relay.postFailure, htwin, hlive', if_true]
    exact h
  · simp only [PyRelay.postFailure, htask, hlive, hcheck, Relay.postFailure, htwin, hlive', hcheck']
    exact h
  · simp only [PyRelay.postFailure, htask, hlive, hcheck, Relay.postFailure, htwin, hlive', hcheck']
    exact h.finish htask .failed now

end Mirrors
end Distllm.PyRelay
