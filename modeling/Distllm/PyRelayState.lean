import Distllm.RelayState
import Distllm.RouteText

/-! The state of the Python relay and its operations, one definition per function of `relay.py`.
A handler that was suspended keeps its reference to a task object after the task is dropped, so
the task objects (`objects`) are kept apart from the keys of the `tasks` dict. Dicts keep their
insertion order. Clocks are read once per operation, except by the janitor. -/

namespace Distllm.PyRelay

open Relay (Bytes Instant Duration Status Node Value fromSecs finishedTtl danglingTtl
  sessionAffinityTtl maxReportedSessions stopChainSniffLimit maxErrorLength)

structure Timeouts where
  taskTimeout : Duration
  nodeTimeout : Duration

structure Task where
  senderId : String
  targetRole : String
  payload : Bytes
  route : List String
  rootId : String
  session : Option String
  status : Status
  workerId : Option String
  assignedAt : Option Instant
  result : Option Bytes
  createdAt : Instant
  completedAt : Option Instant
  done : Bool
  deriving DecidableEq

structure State where
  nodes : AList fun _ : String => Node
  objects : AList fun _ : String => Task
  tasks : List String
  pendingQueues : AList fun _ : String => List String
  workerQueues : AList fun _ : String => List String
  affinity : AList fun _ : String × String => String × Instant

/-- What a request handler raises. -/
inductive HTTPException where
  | notFound
  | conflict (detail : String)
  deriving DecidableEq, Repr

namespace State

def empty : State := ⟨∅, ∅, [], ∅, ∅, ∅⟩

/-- `tasks.get(task_id)` -/
def get (s : State) (taskId : String) : Option Task :=
  if taskId ∈ s.tasks then s.objects.lookup taskId else none

def setTask (s : State) (taskId : String) (f : Task → Task) : State :=
  { s with objects := s.objects.modify taskId f }

def putPending (s : State) (role taskId : String) : State :=
  { s with pendingQueues := s.pendingQueues.enqueue role taskId }

/-- The live worker holding the session for the role, if any; an empty name is no worker. -/
def boundWorker (s : State) (task : Task) : Option String × State :=
  match task.session with
  | none => (none, s)
  | some session =>
    match s.affinity.lookup (task.targetRole, session) with
    | none => (none, s)
    | some (worker, _) =>
      if worker = "" then (none, s)
      else match s.nodes.lookup worker with
        | some node =>
          if node.role = task.targetRole then (some worker, s)
          else (none, { s with affinity := s.affinity.erase (task.targetRole, session) })
        | none => (none, { s with affinity := s.affinity.erase (task.targetRole, session) })

def enqueue (s : State) (taskId : String) (task : Task) : State :=
  let s := { s with
    objects := s.objects.put taskId task
    tasks := if taskId ∈ s.tasks then s.tasks else s.tasks ++ [taskId] }
  let (worker, s) := s.boundWorker task
  match worker with
  | some worker => { s with workerQueues := s.workerQueues.enqueue worker taskId }
  | none => s.putPending task.targetRole taskId

def requeue (s : State) (taskId : String) : State :=
  match s.objects.lookup taskId with
  | none => s
  | some task =>
    let s := match task.session with
      | some session =>
        if (s.affinity.lookup (task.targetRole, session)).map Prod.fst = task.workerId then
          { s with affinity := s.affinity.erase (task.targetRole, session) }
        else s
      | none => s
    let s := s.setTask taskId fun task =>
      { task with status := .pending, workerId := none, assignedAt := none }
    s.putPending task.targetRole taskId

/-- One task of the loop over all tasks: it is re-queued if the gone worker holds it. -/
def requeueHeld (worker : String) (s : State) (taskId : String) : State :=
  match s.objects.lookup taskId with
  | some task =>
    if task.status = .assigned ∧ task.workerId = some worker then s.requeue taskId else s
  | none => s

/-- One id of the gone worker's queue. -/
def moveToRole (s : State) (taskId : String) : State :=
  match s.get taskId with
  | some task => if task.status = .pending then s.putPending task.targetRole taskId else s
  | none => s

def forgetWorker (s : State) (worker : String) : State :=
  let s := s.tasks.foldl (requeueHeld worker) s
  let queue := s.workerQueues.queue worker
  let s := { s with workerQueues := s.workerQueues.erase worker }
  let s := queue.foldl moveToRole s
  { s with affinity := s.affinity.retain fun _ bound => bound.1 != worker }

/-- One task of the loop over all tasks: it is re-queued if it is assigned for too long. -/
def requeueStuck (timeouts : Timeouts) (now : Instant) (s : State) (taskId : String) : State :=
  match s.objects.lookup taskId with
  | some task =>
    if task.status = .assigned ∧
        (task.assignedAt.any fun at' => at' ≠ 0 && decide (now - at' > timeouts.taskTimeout)) then
      s.requeue taskId
    else s
  | none => s

def cleanupStuckTasks (timeouts : Timeouts) (s : State) (now : Instant) : State :=
  s.tasks.foldl (requeueStuck timeouts now) s

def keepTask (now : Instant) (task : Task) : Bool :=
  let finished := task.done &&
    task.completedAt.any fun at' => at' ≠ 0 && decide (now - at' > finishedTtl)
  !(finished || (!task.done && decide (now - task.createdAt > danglingTtl)))

def cleanupOldTasks (s : State) (now : Instant) : State :=
  { s with
    tasks := s.tasks.filter fun taskId => (s.objects.lookup taskId).any (keepTask now)
    affinity := s.affinity.retain fun _ bound => decide (now - bound.2 ≤ sessionAffinityTtl) }

def dropNode (s : State) (nodeId : String) : State :=
  match s.nodes.lookup nodeId with
  | some _ => { s with nodes := s.nodes.erase nodeId }.forgetWorker nodeId
  | none => s

/-- One pass of the janitor's loop; each of its three parts reads the clock. -/
def relayJanitor (timeouts : Timeouts) (s : State) (now stuckNow oldNow : Instant) : State :=
  let silent := s.nodes.keysWhere fun _ node =>
    decide (now - node.lastHeartbeat > timeouts.nodeTimeout)
  let s := silent.foldl dropNode s
  let s := s.cleanupStuckTasks timeouts stuckNow
  s.cleanupOldTasks oldNow

end State

/-! ### Endpoints -/

open State

/-- A claimed session is bound to the node unless a live replica holds it. -/
def claim (nodeId role : String) (now : Instant) (s : State) (session : String) : State :=
  let live := (s.affinity.lookup (role, session)).any fun bound => (s.nodes.lookup bound.1).isSome
  if live then s else { s with affinity := s.affinity.put (role, session) (nodeId, now) }

def register (s : State) (nodeId role : String) (sessions : List String) (now : Instant) : State :=
  let s := { s with nodes := s.nodes.put nodeId ⟨role, now⟩ }
  ((sessions.filter (· ≠ "")).take maxReportedSessions).foldl (claim nodeId role now) s

def deregister (s : State) (nodeId : String) : State := s.dropNode nodeId

def heartbeat (s : State) (nodeId : String) (now : Instant) : Except HTTPException State :=
  match s.nodes.lookup nodeId with
  | none => .error .notFound
  | some _ => .ok { s with
      nodes := s.nodes.modify nodeId fun node => { node with lastHeartbeat := now } }

/-- An empty session is no session. -/
def sessionOf (session : String) : Option String := if session = "" then none else some session

/-- `taskId` is the identifier drawn for the task. -/
def submitTask (s : State) (taskId targetRole senderId route session : String) (body : Bytes)
    (now : Instant) : State :=
  s.enqueue taskId
    { senderId := senderId, targetRole := targetRole, payload := body,
      route := nextRoles route, rootId := taskId, session := sessionOf session, status := .pending,
      workerId := none, assignedAt := none, result := none, createdAt := now, completedAt := none,
      done := false }

/-- The next queued id: of the worker's own queue, then of the role queue. -/
def queueGetFirst (s : State) (worker role : String) : Option (String × State) :=
  match s.workerQueues.queue worker with
  | taskId :: rest => some (taskId, { s with workerQueues := s.workerQueues.insert worker rest })
  | [] =>
    match s.pendingQueues.queue role with
    | taskId :: rest => some (taskId, { s with pendingQueues := s.pendingQueues.insert role rest })
    | [] => none

/-- Assign a dequeued task to the worker, unless it is gone or already taken. -/
def take (s : State) (taskId worker : String) (now : Instant) : Bool × State :=
  match s.get taskId with
  | none => (false, s)
  | some task =>
    if task.status = .pending then
      let s := s.setTask taskId fun task =>
        { task with status := .assigned, workerId := some worker, assignedAt := some now }
      match task.session with
      | some session =>
        (true, { s with affinity := s.affinity.put (task.targetRole, session) (worker, now) })
      | none => (true, s)
    else (false, s)

/-- Take further tasks until there are `maxTasks` or both queues are empty; `fuel` bounds the
number of queued ids looked at. -/
def takeMore (worker role : String) (now : Instant) : Nat → Nat → State → List String × State
  | 0, _, s => ([], s)
  | _, 0, s => ([], s)
  | fuel + 1, wanted + 1, s =>
    match queueGetFirst s worker role with
    | none => ([], s)
    | some (taskId, s) =>
      match take s taskId worker now with
      | (true, s) =>
        let (rest, s) := takeMore worker role now fuel wanted s
        (taskId :: rest, s)
      | (false, s) => takeMore worker role now fuel (wanted + 1) s

def queued (s : State) (worker role : String) : Nat :=
  (s.workerQueues.queue worker).length + (s.pendingQueues.queue role).length

/-- The payloads of taken tasks. -/
def withPayloads (s : State) (ids : List String) : List (String × Bytes) :=
  ids.filterMap fun id => (s.objects.lookup id).map fun task => (id, task.payload)

/-- A poll that does not have to wait, or whose wait ends with nothing: `none` is answer 204. -/
def pollTask (s : State) (role worker : String) (maxTasks : Nat) (now : Instant) :
    Option (List (String × Bytes)) × State :=
  match queueGetFirst s worker role with
  | none => (none, s)
  | some (taskId, s) =>
    match take s taskId worker now with
    | (false, s) => (none, s)
    | (true, s) =>
      let (rest, s) := takeMore worker role now (queued s worker role) (maxTasks - 1) s
      (some (withPayloads s (taskId :: rest)), s)

/-- `bool(value)` -/
def truthy : Value → Bool
  | .nil => false
  | .boolean b => b
  | .integer i => i ≠ 0
  | .f32 bits => bits &&& 0x7fffffff ≠ 0
  | .f64 bits => bits &&& 0x7fffffffffffffff ≠ 0
  | .string bytes => !bytes.isEmpty
  | .binary bytes => !bytes.isEmpty
  | .array items => !items.isEmpty
  | .map entries => !entries.isEmpty
  | .ext _ _ => true

/-- `unpackb` is the MessagePack decoder, `none` where it raises. -/
def stopsChain (unpackb : Bytes → Option Value) (body : Bytes) (flagged : Bool) : Bool :=
  if flagged then true
  else if body.length > stopChainSniffLimit then false
  else match unpackb body with
    | some (.map entries) =>
      match entries.find? fun entry => entry.1.isStopKey with
      | some entry => truthy entry.2
      | none => false
    | _ => false

def checkWorker (task : Task) (workerId : Option String) : Except HTTPException Unit :=
  if task.workerId.isSome ∧ workerId ≠ task.workerId then
    .error (.conflict "task is assigned to another worker")
  else .ok ()

/-- The outcome for one target of `finish`, unless it is done. -/
def conclude (status : Status) (result : Bytes) (now : Instant) (task : Task) : Task :=
  if task.done then task
  else { task with
    status := status, result := some result, completedAt := some now, done := true }

/-- Complete a task and, for the last step of a chain, its root too. A task that is its own root
is looked up again: it is left alone when it was dropped meanwhile. -/
def finish (s : State) (taskId : String) (status : Status) (result : Bytes) (now : Instant) :
    State :=
  match s.objects.lookup taskId with
  | none => s
  | some task =>
    let s := if task.rootId = taskId then s else s.setTask taskId (conclude status result now)
    match s.get task.rootId with
    | some _ => s.setTask task.rootId (conclude status result now)
    | none => s

/-- The task that carries a forwarded result to the next role of the route. -/
def successor (task : Task) (nextRole : String) (tail : List String) (body : Bytes)
    (now : Instant) : Task :=
  { senderId := task.senderId, targetRole := nextRole, payload := body, route := tail,
    rootId := task.rootId, session := task.session, status := .pending, workerId := none,
    assignedAt := none, result := none, createdAt := now, completedAt := none, done := false }

def markForwarded (taskId : String) (now : Instant) (task : Task) : Task :=
  { task with
    status := .forwarded, completedAt := some now,
    done := if taskId ≠ task.rootId then true else task.done }

/-- The handler of `/result`, from the arrival of the body; `next` is the identifier drawn for
the successor of a forwarded task. -/
def postResult (unpackb : Bytes → Option Value) (s : State) (taskId : String)
    (workerId : Option String) (stopChain : Bool) (body : Bytes) (next : String) (now : Instant) :
    Except HTTPException (String × State) := do
  let some task := s.get taskId | throw .notFound
  if task.status.finished then return ("ignored", s)
  checkWorker task workerId
  match task.route with
  | nextRole :: tail =>
    if stopsChain unpackb body stopChain then return ("ok", finish s taskId .completed body now)
    let s := s.setTask taskId (markForwarded taskId now)
    return ("forwarded", s.enqueue next (successor task nextRole tail body now))
  | [] => return ("ok", finish s taskId .completed body now)

/-- A `/fail` request whose handler waits for the body: its task object and what it was sent. -/
structure FailReport where
  taskId : String
  workerId : Option String
  errorMsg : Option String
  deriving DecidableEq

/-- The handler of `/fail` up to its await: an answer, or the report that now waits. -/
def postFailure (s : State) (report : FailReport) : Except HTTPException (String ⊕ FailReport) := do
  let some task := s.get report.taskId | throw .notFound
  if task.status.finished then return .inl "ignored"
  checkWorker task report.workerId
  return .inr report

def cutError (message : String) : Bytes :=
  (String.ofList (message.toList.take maxErrorLength)).toUTF8.toList

/-- `body or error_msg or "unknown error"` -/
def failureMessage (report : FailReport) (body : String) : String :=
  if body ≠ "" then body
  else match report.errorMsg with
    | some message => if message ≠ "" then message else "unknown error"
    | none => "unknown error"

/-- The handler of `/fail` from the arrival of the decoded body. -/
def postFailureBody (s : State) (report : FailReport) (body : String) (now : Instant) : State :=
  finish s report.taskId .failed (cutError (failureMessage report body)) now

end Distllm.PyRelay
