import Distllm.RelayState

/-! What each function of the locked state does, said once. Later modules use these statements
and never unfold the functions again. -/

namespace Distllm.Relay

/-- The task with this id is waiting in a queue. -/
def Inner.IsPending (g : Inner) (taskId : String) : Prop :=
  ∃ task, g.tasks.lookup taskId = some task ∧ task.status = .pending

/-- A task back in its role queue. -/
def released (task : Task) : Task :=
  { task with status := .pending, workerId := none, assignedAt := none }

/-- A task handed to a worker. -/
def handedTo (worker : String) (now : Instant) (task : Task) : Task :=
  { task with status := .assigned, workerId := some worker, assignedAt := some now }

/-- A task that has been given an outcome, unless it already had one. -/
def concluded (status : Status) (result : Option Bytes) (error : Option String) (now : Instant)
    (task : Task) : Task :=
  if task.done then task
  else { task with
    status := status, result := result, error := error, completedAt := some now, done := true }

/-- The answers to a post that had an effect. -/
def Outcome.accepted : Outcome → Bool
  | status answer => answer == "ok" || answer == "forwarded"
  | notFound | wrongWorker => false

namespace Inner

variable (g : Inner)

@[simp] theorem pushRole_tasks (role id : String) : (g.pushRole role id).tasks = g.tasks := rfl
@[simp] theorem pushRole_nodes (role id : String) : (g.pushRole role id).nodes = g.nodes := rfl
@[simp] theorem pushRole_affinity (role id : String) :
    (g.pushRole role id).affinity = g.affinity := rfl
@[simp] theorem pushRole_workerQueues (role id : String) :
    (g.pushRole role id).workerQueues = g.workerQueues := rfl
@[simp] theorem pushRole_roleQueues (role id : String) :
    (g.pushRole role id).roleQueues = g.roleQueues.enqueue role id := rfl

@[simp] theorem pushWorker_tasks (w id : String) : (g.pushWorker w id).tasks = g.tasks := rfl
@[simp] theorem pushWorker_nodes (w id : String) : (g.pushWorker w id).nodes = g.nodes := rfl
@[simp] theorem pushWorker_affinity (w id : String) :
    (g.pushWorker w id).affinity = g.affinity := rfl
@[simp] theorem pushWorker_roleQueues (w id : String) :
    (g.pushWorker w id).roleQueues = g.roleQueues := rfl
@[simp] theorem pushWorker_workerQueues (w id : String) :
    (g.pushWorker w id).workerQueues = g.workerQueues.enqueue w id := rfl

/-- Looking up the bound worker touches the affinity table only. -/
theorem boundWorker_frame (role : String) (session : Option String) :
    ∃ affinity, (g.boundWorker role session).2 = { g with affinity := affinity } := by
  unfold boundWorker
  split
  · exact ⟨_, rfl⟩
  split
  · exact ⟨_, rfl⟩
  split
  · split <;> exact ⟨_, rfl⟩
  · exact ⟨_, rfl⟩

/-- A bound worker is registered for the role and named by the session's binding, which stays. -/
theorem boundWorker_some {role : String} {session : Option String} {worker : String}
    (h : (g.boundWorker role session).1 = some worker) :
    (g.boundWorker role session).2 = g ∧
      (∃ node, g.nodes.lookup worker = some node ∧ node.role = role) ∧
      ∃ s used, session = some s ∧ g.affinity.lookup (role, s) = some (worker, used) := by
  unfold boundWorker at h ⊢
  split at h
  · cases h
  rename_i s
  split at h
  · cases h
  rename_i w used hbound
  split at h
  · rename_i node hnode
    split at h
    · rename_i hrole
      cases h
      simp only [hnode, hrole, if_true, true_and]
      exact ⟨⟨node, rfl, hrole⟩, s, used, rfl, hbound⟩
    · cases h
  · cases h

/-- Where a new task is queued: in the queue of a registered worker of its role that holds its
session, or in its role queue. Nothing else changes but the affinity table. -/
theorem enqueue_cases (id : String) (task : Task) :
    (∃ worker node, g.nodes.lookup worker = some node ∧ node.role = task.targetRole ∧
      g.enqueue id task = { g with
        tasks := g.tasks.insert id task, workerQueues := g.workerQueues.enqueue worker id }) ∨
    ∃ affinity, g.enqueue id task = { g with
      tasks := g.tasks.insert id task, affinity := affinity,
      roleQueues := g.roleQueues.enqueue task.targetRole id } := by
  obtain ⟨affinity, hframe⟩ := g.boundWorker_frame task.targetRole task.session
  cases hbound : (g.boundWorker task.targetRole task.session).1 with
  | some worker =>
      obtain ⟨hsame, ⟨node, hnode, hrole⟩, _⟩ := g.boundWorker_some hbound
      refine .inl ⟨worker, node, hnode, hrole, ?_⟩
      simp only [enqueue, hbound, hsame]
      rfl
  | none =>
      refine .inr ⟨affinity, ?_⟩
      simp only [enqueue, hbound, hframe]
      rfl

@[simp] theorem enqueue_tasks (id : String) (task : Task) :
    (g.enqueue id task).tasks = g.tasks.insert id task := by
  rcases g.enqueue_cases id task with ⟨_, _, _, _, h⟩ | ⟨_, h⟩ <;> rw [h]

@[simp] theorem enqueue_nodes (id : String) (task : Task) :
    (g.enqueue id task).nodes = g.nodes := by
  rcases g.enqueue_cases id task with ⟨_, _, _, _, h⟩ | ⟨_, h⟩ <;> rw [h]

theorem unbind_frame (task : Task) : ∃ affinity, g.unbind task = { g with affinity := affinity } := by
  unfold unbind
  split
  · split <;> exact ⟨_, rfl⟩
  · exact ⟨_, rfl⟩

/-- Re-queueing a stored task releases it and appends its id to its role queue. -/
theorem requeue_of_lookup {id : String} {task : Task} (h : g.tasks.lookup id = some task) :
    ∃ affinity, g.requeue id = { g with
      tasks := g.tasks.modify id released, affinity := affinity,
      roleQueues := g.roleQueues.enqueue task.targetRole id } := by
  obtain ⟨affinity, hframe⟩ := g.unbind_frame task
  refine ⟨affinity, ?_⟩
  simp only [requeue, h, hframe]
  rfl

/-- Removing a node first or last makes no difference to a re-queue. -/
theorem requeue_withNodes (nodes : AList fun _ : String => Node) (id : String) :
    { g with nodes := nodes }.requeue id = { g.requeue id with nodes := nodes } := by
  cases h : g.tasks.lookup id with
  | none => simp only [requeue, h]
  | some task =>
      simp only [requeue, h, unbind, pushRole]
      cases task.session <;> cases task.workerId <;> try rfl
      dsimp only
      split <;> rfl

theorem moveToRole_cases (id : String) :
    (∃ task, g.tasks.lookup id = some task ∧ task.status = .pending ∧
      g.moveToRole id = g.pushRole task.targetRole id) ∨
    ¬g.IsPending id ∧ g.moveToRole id = g := by
  unfold moveToRole
  split
  · rename_i task htask
    split
    · rename_i hpending
      exact .inl ⟨task, htask, hpending, rfl⟩
    · rename_i hpending
      refine .inr ⟨?_, rfl⟩
      rintro ⟨task', htask', hpending'⟩
      cases htask.symm.trans htask'
      exact hpending hpending'
  · rename_i hnone
    refine .inr ⟨?_, rfl⟩
    rintro ⟨task', htask', _⟩
    cases hnone.symm.trans htask'

/-- Popping finds the first pending id and drops what precedes it, or drops everything. -/
theorem popPending_cases (queue : List String) :
    (∃ stale id rest, queue = stale ++ id :: rest ∧ (∀ x ∈ stale, ¬g.IsPending x) ∧
      g.IsPending id ∧ g.popPending queue = (some id, rest)) ∨
    (∀ x ∈ queue, ¬g.IsPending x) ∧ g.popPending queue = (none, []) := by
  induction queue with
  | nil => exact .inr ⟨by simp, rfl⟩
  | cons first rest ih =>
      by_cases hfirst : g.IsPending first
      · obtain ⟨task, htask, hpending⟩ := hfirst
        refine .inl ⟨[], first, rest, rfl, by simp, ⟨task, htask, hpending⟩, ?_⟩
        simp only [popPending, htask, hpending, if_true]
      · have hskip : g.popPending (first :: rest) = g.popPending rest := by
          cases htask : g.tasks.lookup first with
          | none => simp only [popPending, htask]
          | some task =>
              have hpending : task.status ≠ .pending := fun h => hfirst ⟨task, htask, h⟩
              simp only [popPending, htask, if_neg hpending]
        rw [hskip]
        rcases ih with ⟨stale, id, tail, hsplit, hstale, hid, hpop⟩ | ⟨hall, hpop⟩
        · exact .inl ⟨first :: stale, id, tail, by rw [hsplit]; rfl,
            List.forall_mem_cons.mpr ⟨hfirst, hstale⟩, hid, hpop⟩
        · exact .inr ⟨List.forall_mem_cons.mpr ⟨hfirst, hall⟩, hpop⟩

theorem assign_of_lookup {id : String} {task : Task} (worker : String) (now : Instant)
    (h : g.tasks.lookup id = some task) :
    ∃ affinity, g.assign id worker now = { g with
      tasks := g.tasks.modify id (handedTo worker now), affinity := affinity } := by
  simp only [assign, h]
  cases task.session <;> exact ⟨_, rfl⟩

/-- A poll takes the first pending id of the worker's own queue, else the first of the role
queue, else nothing; ids that are not pending are dropped on the way. -/
theorem takeNext_cases (worker role : String) (now : Instant) :
    (∃ stale id rest, g.workerQueues.queue worker = stale ++ id :: rest ∧
      (∀ x ∈ stale, ¬g.IsPending x) ∧ g.IsPending id ∧
      g.takeNext worker role now = (some id,
        { g with workerQueues := g.workerQueues.modify worker fun _ => rest }.assign
          id worker now)) ∨
    (∃ stale id rest, (∀ x ∈ g.workerQueues.queue worker, ¬g.IsPending x) ∧
      g.roleQueues.queue role = stale ++ id :: rest ∧
      (∀ x ∈ stale, ¬g.IsPending x) ∧ g.IsPending id ∧
      g.takeNext worker role now = (some id,
        { g with
          workerQueues := g.workerQueues.modify worker fun _ => []
          roleQueues := g.roleQueues.modify role fun _ => rest }.assign id worker now)) ∨
    (∀ x ∈ g.workerQueues.queue worker, ¬g.IsPending x) ∧
      (∀ x ∈ g.roleQueues.queue role, ¬g.IsPending x) ∧
      g.takeNext worker role now = (none,
        { g with
          workerQueues := g.workerQueues.modify worker fun _ => []
          roleQueues := g.roleQueues.modify role fun _ => [] }) := by
  rcases g.popPending_cases (g.workerQueues.queue worker) with
    ⟨stale, id, rest, hsplit, hstale, hid, hpop⟩ | ⟨hown, hpop⟩
  · refine .inl ⟨stale, id, rest, hsplit, hstale, hid, ?_⟩
    simp only [takeNext, hpop]
  · set g' : Inner := { g with workerQueues := g.workerQueues.modify worker fun _ => [] } with hg'
    rcases g'.popPending_cases (g.roleQueues.queue role) with
      ⟨stale, id, rest, hsplit, hstale, hid, hshared⟩ | ⟨hrole, hshared⟩
    · refine .inr (.inl ⟨stale, id, rest, hown, hsplit, hstale, hid, ?_⟩)
      simp only [takeNext, hpop, ← hg', hshared]
    · refine .inr (.inr ⟨hown, hrole, ?_⟩)
      simp only [takeNext, hpop, ← hg', hshared]

/-- The queued ids of a removed worker go to the ends of their role queues, those that are still
pending, in order. -/
theorem foldl_moveToRole (queue : List String) :
    ∃ roleQueues, queue.foldl moveToRole g = { g with roleQueues := roleQueues } ∧
      (∀ role, roleQueues.queue role = g.roleQueues.queue role ++ queue.filter fun id =>
        (g.tasks.lookup id).any fun task => task.status == .pending && task.targetRole == role) ∧
      ∀ x, (g.IsPending x →
          roleQueues.pooled.count x = g.roleQueues.pooled.count x + queue.count x) ∧
        (¬g.IsPending x → roleQueues.pooled.count x = g.roleQueues.pooled.count x) := by
  induction queue generalizing g with
  | nil => exact ⟨g.roleQueues, rfl, by simp, by simp⟩
  | cons id rest ih =>
      rw [List.foldl_cons]
      rcases g.moveToRole_cases id with ⟨task, htask, hpending, hmove⟩ | ⟨hnot, hmove⟩
      · obtain ⟨roleQueues, hfold, hqueue, hcount⟩ := ih (g.pushRole task.targetRole id)
        refine ⟨roleQueues, by rw [hmove, hfold]; rfl, ?_, ?_⟩
        · intro role
          rw [hqueue, pushRole_roleQueues, AList.queue_enqueue, List.filter_cons]
          by_cases hrole : role = task.targetRole
          · subst hrole
            simp [htask, hpending]
          · have hrole' : ¬task.targetRole = role := fun h => hrole h.symm
            simp [htask, hrole, hrole']
        · intro x
          have hx := hcount x
          rw [pushRole_roleQueues, AList.count_pooled_enqueue] at hx
          refine ⟨fun hpend => ?_, fun hpend => ?_⟩
          · rw [hx.1 hpend, List.count_cons]
            simp only [beq_iff_eq]
            omega
          · rw [hx.2 hpend, if_neg, Nat.add_zero]
            rintro rfl
            exact hpend ⟨task, htask, hpending⟩
      · rw [hmove]
        obtain ⟨roleQueues, hfold, hqueue, hcount⟩ := ih g
        refine ⟨roleQueues, hfold, ?_, ?_⟩
        · intro role
          rw [hqueue, List.filter_cons, if_neg]
          rw [Option.any_eq_true]
          rintro ⟨task, htask, hboth⟩
          rw [Bool.and_eq_true, beq_iff_eq] at hboth
          exact hnot ⟨task, htask, hboth.1⟩
        · intro x
          refine ⟨fun hpend => ?_, (hcount x).2⟩
          rw [(hcount x).1 hpend, List.count_cons_of_ne]
          rintro rfl
          exact hnot hpend

/-- The second half of a worker's removal: its node, queue and bindings go. -/
def drain (worker : String) : Inner :=
  let queue := g.workerQueues.queue worker
  let g := { g with
    nodes := g.nodes.erase worker, workerQueues := g.workerQueues.erase worker }
  let g := queue.foldl moveToRole g
  { g with affinity := g.affinity.retain fun _ bound => bound.1 != worker }

theorem foldl_requeue_withNodes (nodes : AList fun _ : String => Node) (ids : List String) :
    ids.foldl requeue { g with nodes := nodes } =
      { ids.foldl requeue g with nodes := nodes } := by
  induction ids generalizing g with
  | nil => rfl
  | cons id rest ih => rw [List.foldl_cons, List.foldl_cons, requeue_withNodes, ih]

theorem foldl_requeue_nodes (ids : List String) : (ids.foldl requeue g).nodes = g.nodes := by
  have h : ids.foldl requeue g = { ids.foldl requeue g with nodes := g.nodes } :=
    g.foldl_requeue_withNodes g.nodes ids
  rw [h]

/-- Dropping a registered node re-queues what it held and then drains it. -/
theorem dropNode_of_registered {worker : String} {node : Node}
    (h : g.nodes.lookup worker = some node) :
    dropNode g worker = ((g.assignedTo worker).foldl requeue g).drain worker := by
  have hnodes := g.foldl_requeue_nodes (g.assignedTo worker)
  have hassigned : ({ g with nodes := g.nodes.erase worker } : Inner).assignedTo worker =
    g.assignedTo worker := rfl
  simp only [dropNode, h, forgetWorker, drain, hnodes]
  rw [hassigned, foldl_requeue_withNodes]

theorem dropNode_of_none {worker : String} (h : g.nodes.lookup worker = none) :
    dropNode g worker = g := by
  simp only [dropNode, h]

/-- Draining keeps every task; pending ids of the worker's queue end up in their role queues. -/
theorem drain_cases (worker : String) :
    ∃ roleQueues affinity, g.drain worker =
        ⟨g.nodes.erase worker, g.tasks, roleQueues, g.workerQueues.erase worker, affinity⟩ ∧
      (∀ role, roleQueues.queue role = g.roleQueues.queue role ++
        (g.workerQueues.queue worker).filter fun id => (g.tasks.lookup id).any fun task =>
          task.status == .pending && task.targetRole == role) ∧
      ∀ x, (g.IsPending x → roleQueues.pooled.count x =
          g.roleQueues.pooled.count x + (g.workerQueues.queue worker).count x) ∧
        (¬g.IsPending x → roleQueues.pooled.count x = g.roleQueues.pooled.count x) := by
  obtain ⟨roleQueues, hfold, hqueue, hcount⟩ := foldl_moveToRole
    { g with nodes := g.nodes.erase worker, workerQueues := g.workerQueues.erase worker }
    (g.workerQueues.queue worker)
  exact ⟨roleQueues, _, by rw [drain, hfold], hqueue, hcount⟩

theorem concluded_concluded (status : Status) (result : Option Bytes) (error : Option String)
    (now : Instant) (task : Task) :
    concluded status result error now (concluded status result error now task) =
      concluded status result error now task := by
  unfold concluded
  by_cases h : task.done = true
  · simp only [h, if_true]
  · simp only [if_neg h, if_true]

/-- Finishing a task gives the outcome to the task and to its root, where these are not done. -/
theorem finish_of_lookup {id : String} {task : Task} (status : Status) (result : Option Bytes)
    (error : Option String) (now : Instant) (h : g.tasks.lookup id = some task) :
    ∃ tasks, g.finish id status result error now = { g with tasks := tasks } ∧
      ∀ x, tasks.lookup x = if x = id ∨ x = task.rootId then
        (g.tasks.lookup x).map (concluded status result error now) else g.tasks.lookup x := by
  refine ⟨(g.tasks.modify id (concluded status result error now)).modify task.rootId
    (concluded status result error now), by simp only [finish, h, Option.map_some]; rfl, ?_⟩
  intro x
  rw [AList.lookup_modify, AList.lookup_modify]
  by_cases hid : x = id <;> by_cases hroot : x = task.rootId
  · rw [if_pos hroot, if_pos hid, if_pos (.inl hid), Option.map_map]
    congr 1
    funext t
    exact concluded_concluded status result error now t
  · rw [if_neg hroot, if_pos hid, if_pos (.inl hid)]
  · rw [if_pos hroot, if_neg hid, if_pos (.inr hroot)]
  · rw [if_neg hroot, if_neg hid, if_neg (by rintro (h | h) <;> contradiction)]

end Inner

theorem queue_orDefault (queues : AList fun _ : String => List String) (key other : String) :
    (orDefault queues key).queue other = queues.queue other := by
  rw [orDefault, AList.queue_insert]
  split
  · rename_i h
    rw [h]
  · rfl

theorem count_orDefault (queues : AList fun _ : String => List String) (key x : String) :
    (orDefault queues key).pooled.count x = queues.pooled.count x := by
  have := AList.count_pooled_insert queues key (queues.queue key) x
  rw [orDefault]
  omega

theorem foldl_claim_frame (nodeId role : String) (now : Instant) (sessions : List String)
    (g : Inner) : ∃ affinity, sessions.foldl (claim nodeId role now) g =
      { g with affinity := affinity } := by
  induction sessions generalizing g with
  | nil => exact ⟨_, rfl⟩
  | cons session rest ih =>
      obtain ⟨affinity, hfirst⟩ : ∃ affinity, claim nodeId role now g session =
          { g with affinity := affinity } := by
        unfold claim
        dsimp only
        split <;> exact ⟨_, rfl⟩
      obtain ⟨affinity', hrest⟩ := ih { g with affinity := affinity }
      exact ⟨affinity', by rw [List.foldl_cons, hfirst, hrest]⟩

/-- Registering sets the node and makes its queues; no queue content and no task changes. -/
theorem register_frame (g : Inner) (nodeId role : String) (sessions : List String)
    (now : Instant) : ∃ affinity, register g nodeId role sessions now = { g with
      affinity := affinity, nodes := g.nodes.insert nodeId ⟨role, now⟩,
      roleQueues := orDefault g.roleQueues role,
      workerQueues := orDefault g.workerQueues nodeId } := by
  obtain ⟨affinity, h⟩ := foldl_claim_frame nodeId role now (sessions.take maxReportedSessions) g
  exact ⟨affinity, by simp only [register, h]⟩

/-- What a post of a result does: nothing, a completed chain, or a successor. -/
theorem postResult_cases (readValue : Bytes → Option Value) (g : Inner) (taskId : String)
    (workerId : Option String) (stopChain : Bool) (body : Bytes) (next : String) (now : Instant) :
    (∃ outcome, outcome.accepted = false ∧
      postResult readValue g taskId workerId stopChain body next now = (outcome, g)) ∨
    (∃ task, g.tasks.lookup taskId = some task ∧ task.status.finished = false ∧
      checkWorker task workerId = true ∧
      (task.route = [] ∨ stopsChain readValue body stopChain = true) ∧
      postResult readValue g taskId workerId stopChain body next now =
        (.status "ok", g.finish taskId .completed (some body) none now)) ∨
    ∃ task nextRole tail, g.tasks.lookup taskId = some task ∧ task.status.finished = false ∧
      checkWorker task workerId = true ∧
      task.route = nextRole :: tail ∧ stopsChain readValue body stopChain = false ∧
      postResult readValue g taskId workerId stopChain body next now = (.status "forwarded",
        { g with tasks := g.tasks.modify taskId (markForwarded taskId now) }.enqueue next
          (successor task nextRole tail body now)) := by
  cases htask : g.tasks.lookup taskId with
  | none => exact .inl ⟨.notFound, rfl, by simp only [postResult, htask]⟩
  | some task =>
      by_cases hlive : task.status.finished = true
      · exact .inl ⟨.status "ignored", by decide, by
          simp only [postResult, htask, hlive, if_true]⟩
      rw [Bool.not_eq_true] at hlive
      by_cases hworker : checkWorker task workerId = true
      swap
      · rw [Bool.not_eq_true] at hworker
        exact .inl ⟨.wrongWorker, rfl, by
          simp only [postResult, htask, hlive, hworker]; rfl⟩
      cases hroute : task.route with
      | nil =>
          refine .inr (.inl ⟨task, rfl, hlive, hworker, .inl hroute, ?_⟩)
          simp only [postResult, htask, hlive, hworker, hroute]
          rfl
      | cons nextRole tail =>
          cases hstop : stopsChain readValue body stopChain with
          | true =>
              refine .inr (.inl ⟨task, rfl, hlive, hworker, .inr rfl, ?_⟩)
              simp only [postResult, htask, hlive, hworker, hroute, hstop]
              rfl
          | false =>
              refine .inr (.inr ⟨task, nextRole, tail, rfl, hlive, hworker, hroute, rfl, ?_⟩)
              simp only [postResult, htask, hlive, hworker, hroute, hstop]
              rfl

theorem postFailure_cases (g : Inner) (taskId : String) (workerId : Option String)
    (message : String) (now : Instant) :
    (∃ outcome, outcome.accepted = false ∧
      postFailure g taskId workerId message now = (outcome, g)) ∨
    ∃ task, g.tasks.lookup taskId = some task ∧ task.status.finished = false ∧
      checkWorker task workerId = true ∧
      postFailure g taskId workerId message now =
        (.status "ok", g.finish taskId .failed none (some (cutError message)) now) := by
  cases htask : g.tasks.lookup taskId with
  | none => exact .inl ⟨.notFound, rfl, by simp only [postFailure, htask]⟩
  | some task =>
      by_cases hlive : task.status.finished = true
      · exact .inl ⟨.status "ignored", by decide, by
          simp only [postFailure, htask, hlive, if_true]⟩
      rw [Bool.not_eq_true] at hlive
      by_cases hworker : checkWorker task workerId = true
      · refine .inr ⟨task, rfl, hlive, hworker, ?_⟩
        simp only [postFailure, htask, hlive, hworker]
        rfl
      · rw [Bool.not_eq_true] at hworker
        exact .inl ⟨.wrongWorker, rfl, by
          simp only [postFailure, htask, hlive, hworker]; rfl⟩

end Distllm.Relay
