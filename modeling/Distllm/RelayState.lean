import Mathlib.Algebra.Ring.Int.Defs
import Distllm.Table

/-! The state of the Rust relay and its operations, one definition per function of `state.rs`.
Instants and durations are in nanoseconds. A hash map is an association list whose order is its
iteration order. The wake-up handles of waiting pollers are left out: they decide when a poll
looks at the queues again, not what it finds there. -/

namespace Distllm.Relay

abbrev Bytes := List UInt8
abbrev Instant := Nat
abbrev Duration := Nat

def fromSecs (seconds : Nat) : Duration := seconds * 1000000000

def finishedTtl : Duration := fromSecs 300
def danglingTtl : Duration := fromSecs 1800
def sessionAffinityTtl : Duration := fromSecs 900
def maxReportedSessions : Nat := 256
def stopChainSniffLimit : Nat := 4096
def maxErrorLength : Nat := 8000

/-- The bytes of `STOP_CHAIN_KEY`. -/
def stopChainKey : Bytes := [115, 116, 111, 112, 95, 99, 104, 97, 105, 110]

structure Settings where
  taskTimeout : Duration
  nodeTimeout : Duration

inductive Status where
  | pending
  | assigned
  | forwarded
  | completed
  | failed
  deriving DecidableEq, Repr

namespace Status

def asStr : Status → String
  | pending => "PENDING"
  | assigned => "ASSIGNED"
  | forwarded => "FORWARDED"
  | completed => "COMPLETED"
  | failed => "FAILED"

def finished : Status → Bool
  | completed | failed | forwarded => true
  | pending | assigned => false

end Status

structure Task where
  targetRole : String
  payload : Bytes
  route : List String
  rootId : String
  session : Option String
  status : Status
  workerId : Option String
  assignedAt : Option Instant
  result : Option Bytes
  error : Option String
  createdAt : Instant
  completedAt : Option Instant
  done : Bool
  deriving DecidableEq

structure Node where
  role : String
  lastHeartbeat : Instant
  deriving DecidableEq

structure Inner where
  nodes : AList fun _ : String => Node
  tasks : AList fun _ : String => Task
  roleQueues : AList fun _ : String => List String
  workerQueues : AList fun _ : String => List String
  /-- (role, session) -> (worker, last used) -/
  affinity : AList fun _ : String × String => String × Instant

inductive Outcome where
  | notFound
  | wrongWorker
  | status (answer : String)
  deriving DecidableEq, Repr

inductive ResultView where
  | notFound
  | completed (body : Bytes)
  | failed (error : String)
  | pending (status : String)
  deriving DecidableEq, Repr

/-! ### Reading a result body -/

/-- A MessagePack value as the decoder returns it; strings are raw bytes, floats their bits. -/
inductive Value where
  | nil
  | boolean (b : Bool)
  | integer (i : Int)
  | f32 (bits : UInt32)
  | f64 (bits : UInt64)
  | string (bytes : Bytes)
  | binary (bytes : Bytes)
  | array (items : List Value)
  | map (entries : List (Value × Value))
  | ext (type : Int) (bytes : Bytes)

namespace Value

def asI64 (i : Int) : Option Int := if -2 ^ 63 ≤ i ∧ i < 2 ^ 63 then some i else none
def asU64 (i : Int) : Option Int := if 0 ≤ i ∧ i < 2 ^ 64 then some i else none

/-- The truth value of an entry under the stop key; a float is false when it is a zero of
either sign. -/
def truthy : Value → Bool
  | nil => false
  | boolean b => b
  | integer i => asI64 i ≠ some 0 && asU64 i ≠ some 0
  | f32 bits => bits &&& 0x7fffffff ≠ 0
  | f64 bits => bits &&& 0x7fffffffffffffff ≠ 0
  | string bytes => !bytes.isEmpty
  | binary bytes => !bytes.isEmpty
  | array items => !items.isEmpty
  | map entries => !entries.isEmpty
  | ext _ _ => true

def isStopKey : Value → Bool
  | string bytes => bytes == stopChainKey
  | _ => false

end Value

/-- `readValue` is the MessagePack decoder: the first value of the body, if it has one. -/
def stopsChain (readValue : Bytes → Option Value) (body : Bytes) (flagged : Bool) : Bool :=
  if flagged then true
  else if body.length > stopChainSniffLimit then false
  else match readValue body with
    | some (.map entries) => entries.any fun entry => entry.1.isStopKey && entry.2.truthy
    | _ => false

/-! ### The locked state -/

namespace Inner

def empty : Inner := ⟨∅, ∅, ∅, ∅, ∅⟩

def pushRole (g : Inner) (role taskId : String) : Inner :=
  { g with roleQueues := g.roleQueues.enqueue role taskId }

def pushWorker (g : Inner) (worker taskId : String) : Inner :=
  { g with workerQueues := g.workerQueues.enqueue worker taskId }

/-- The live worker holding the session for the role, if any; a binding to a worker that is gone
or serves another role is removed. -/
def boundWorker (g : Inner) (role : String) (session : Option String) : Option String × Inner :=
  match session with
  | none => (none, g)
  | some session =>
    match g.affinity.lookup (role, session) with
    | none => (none, g)
    | some (worker, _) =>
      match g.nodes.lookup worker with
      | some node =>
        if node.role = role then (some worker, g)
        else (none, { g with affinity := g.affinity.erase (role, session) })
      | none => (none, { g with affinity := g.affinity.erase (role, session) })

def enqueue (g : Inner) (taskId : String) (task : Task) : Inner :=
  let (bound, g) := g.boundWorker task.targetRole task.session
  let g := { g with tasks := g.tasks.insert taskId task }
  match bound with
  | some worker => g.pushWorker worker taskId
  | none => g.pushRole task.targetRole taskId

/-- Drop the session's binding if it names the worker the task was assigned to. -/
def unbind (g : Inner) (task : Task) : Inner :=
  match task.session, task.workerId with
  | some session, some worker =>
    if (g.affinity.lookup (task.targetRole, session)).any fun bound => bound.1 == worker then
      { g with affinity := g.affinity.erase (task.targetRole, session) }
    else g
  | _, _ => g

def requeue (g : Inner) (taskId : String) : Inner :=
  match g.tasks.lookup taskId with
  | none => g
  | some task =>
    let g := g.unbind task
    let g := { g with tasks := g.tasks.modify taskId fun task =>
      { task with status := .pending, workerId := none, assignedAt := none } }
    g.pushRole task.targetRole taskId

/-- One id of a removed worker queue: it moves to its role queue if it is still pending. -/
def moveToRole (g : Inner) (taskId : String) : Inner :=
  match g.tasks.lookup taskId with
  | some task => if task.status = .pending then g.pushRole task.targetRole taskId else g
  | none => g

/-- The tasks a worker currently holds, in iteration order. -/
def assignedTo (g : Inner) (worker : String) : List String :=
  g.tasks.keysWhere fun _ task => task.status == .assigned && task.workerId == some worker

def forgetWorker (g : Inner) (worker : String) : Inner :=
  let g := (g.assignedTo worker).foldl requeue g
  let queue := g.workerQueues.queue worker
  let g := { g with workerQueues := g.workerQueues.erase worker }
  let g := queue.foldl moveToRole g
  { g with affinity := g.affinity.retain fun _ bound => bound.1 != worker }

/-- Pop ids until one names a pending task. -/
def popPending (g : Inner) : List String → Option String × List String
  | [] => (none, [])
  | taskId :: rest =>
    match g.tasks.lookup taskId with
    | none => g.popPending rest
    | some task => if task.status = .pending then (some taskId, rest) else g.popPending rest

/-- Assign a popped task to the worker and bind its session to it. -/
def assign (g : Inner) (taskId worker : String) (now : Instant) : Inner :=
  match g.tasks.lookup taskId with
  | none => g
  | some task =>
    let g := { g with tasks := g.tasks.modify taskId fun task =>
      { task with status := .assigned, workerId := some worker, assignedAt := some now } }
    match task.session with
    | some session =>
      { g with affinity := g.affinity.insert (task.targetRole, session) (worker, now) }
    | none => g

/-- The worker's own queue first, then the role queue. -/
def takeNext (g : Inner) (worker role : String) (now : Instant) : Option String × Inner :=
  let own := g.popPending (g.workerQueues.queue worker)
  let g := { g with workerQueues := g.workerQueues.modify worker fun _ => own.2 }
  match own.1 with
  | some taskId => (some taskId, g.assign taskId worker now)
  | none =>
    let shared := g.popPending (g.roleQueues.queue role)
    let g := { g with roleQueues := g.roleQueues.modify role fun _ => shared.2 }
    match shared.1 with
    | some taskId => (some taskId, g.assign taskId worker now)
    | none => (none, g)

/-- One target of `finish`: a task that is not done gets the outcome. -/
def finishOne (g : Inner) (taskId : String) (status : Status) (result : Option Bytes)
    (error : Option String) (now : Instant) : Inner :=
  { g with tasks := g.tasks.modify taskId fun task =>
      if task.done then task
      else { task with
        status := status, result := result, error := error, completedAt := some now,
        done := true } }

/-- Complete a task and, for the last step of a chain, its root task too. -/
def finish (g : Inner) (taskId : String) (status : Status) (result : Option Bytes)
    (error : Option String) (now : Instant) : Inner :=
  let rootId := (g.tasks.lookup taskId).map Task.rootId
  let g := g.finishOne taskId status result error now
  match rootId with
  | some rootId => g.finishOne rootId status result error now
  | none => g

end Inner

/-! ### Operations of the relay -/

open Relay.Inner

/-- One claimed session: it is bound to the node unless a registered worker holds it. -/
def claim (nodeId role : String) (now : Instant) (g : Inner) (session : String) : Inner :=
  let live := (g.affinity.lookup (role, session)).any fun bound => (g.nodes.lookup bound.1).isSome
  if live then g
  else { g with affinity := g.affinity.insert (role, session) (nodeId, now) }

/-- `entry(key).or_default()` on a map of queues. -/
def orDefault (queues : AList fun _ : String => List String) (key : String) :
    AList fun _ : String => List String :=
  queues.insert key (queues.queue key)

def register (g : Inner) (nodeId role : String) (sessions : List String) (now : Instant) : Inner :=
  let g := (sessions.take maxReportedSessions).foldl (claim nodeId role now) g
  { g with
    nodes := g.nodes.insert nodeId ⟨role, now⟩
    roleQueues := orDefault g.roleQueues role
    workerQueues := orDefault g.workerQueues nodeId }

/-- Remove a node that is registered, with everything it held. -/
def dropNode (g : Inner) (nodeId : String) : Inner :=
  match g.nodes.lookup nodeId with
  | some _ => { g with nodes := g.nodes.erase nodeId }.forgetWorker nodeId
  | none => g

def deregister (g : Inner) (nodeId : String) : Inner := dropNode g nodeId

def heartbeat (g : Inner) (nodeId : String) (now : Instant) : Bool × Inner :=
  match g.nodes.lookup nodeId with
  | some _ =>
    (true, { g with nodes := g.nodes.modify nodeId fun node => { node with lastHeartbeat := now } })
  | none => (false, g)

/-- `taskId` is the identifier drawn for the task, `createdAt` the instant read for it. -/
def submit (g : Inner) (taskId targetRole : String) (body : Bytes) (route : List String)
    (session : Option String) (createdAt : Instant) : Inner :=
  g.enqueue taskId
    { targetRole := targetRole, payload := body, route := route, rootId := taskId,
      session := session, status := .pending, workerId := none, assignedAt := none,
      result := none, error := none, createdAt := createdAt, completedAt := none, done := false }

/-- Take further tasks, at most `n`, as long as there are any. -/
def takeMore (worker role : String) (now : Instant) : Nat → Inner → List String × Inner
  | 0, g => ([], g)
  | n + 1, g =>
    match g.takeNext worker role now with
    | (none, g) => ([], g)
    | (some taskId, g) =>
      let (rest, g) := takeMore worker role now n g
      (taskId :: rest, g)

/-- The payloads of polled tasks. -/
def withPayloads (g : Inner) (ids : List String) : List (String × Bytes) :=
  ids.filterMap fun id => (g.tasks.lookup id).map fun task => (id, task.payload)

/-- One look of `poll` at the queues; with no task found the poller goes on waiting. -/
def poll (g : Inner) (role worker : String) (maxTasks : Nat) (now : Instant) :
    List (String × Bytes) × Inner :=
  let g := { g with
    roleQueues := orDefault g.roleQueues role
    workerQueues := orDefault g.workerQueues worker }
  match g.takeNext worker role now with
  | (none, g) => ([], g)
  | (some first, g) =>
    let (rest, g) := takeMore worker role now (maxTasks - 1) g
    (withPayloads g (first :: rest), g)

/-- The last look of `poll`, at its deadline. -/
def pollDeadline (g : Inner) (role worker : String) (now : Instant) :
    List (String × Bytes) × Inner :=
  match g.takeNext worker role now with
  | (none, g) => ([], g)
  | (some first, g) => (withPayloads g [first], g)

def checkWorker (task : Task) (workerId : Option String) : Bool :=
  match task.workerId with
  | some assigned => workerId == some assigned
  | none => true

/-- The task that carries a forwarded result to the next role of the route. -/
def successor (task : Task) (nextRole : String) (tail : List String) (body : Bytes)
    (now : Instant) : Task :=
  { targetRole := nextRole, payload := body, route := tail, rootId := task.rootId,
    session := task.session, status := .pending, workerId := none, assignedAt := none,
    result := none, error := none, createdAt := now, completedAt := none, done := false }

/-- Mark a task as forwarded; nobody waits on an intermediate step, so it is done. -/
def markForwarded (taskId : String) (now : Instant) (task : Task) : Task :=
  { task with
    status := .forwarded, completedAt := some now,
    done := if task.rootId ≠ taskId then true else task.done }

variable (readValue : Bytes → Option Value)

/-- `next` is the identifier drawn for the successor of a forwarded task. -/
def postResult (g : Inner) (taskId : String) (workerId : Option String) (stopChain : Bool)
    (body : Bytes) (next : String) (now : Instant) : Outcome × Inner :=
  match g.tasks.lookup taskId with
  | none => (.notFound, g)
  | some task =>
    if task.status.finished then (.status "ignored", g)
    else if !checkWorker task workerId then (.wrongWorker, g)
    else match task.route with
      | nextRole :: tail =>
        if stopsChain readValue body stopChain then
          (.status "ok", g.finish taskId .completed (some body) none now)
        else
          let g := { g with tasks := g.tasks.modify taskId (markForwarded taskId now) }
          (.status "forwarded", g.enqueue next (successor task nextRole tail body now))
      | [] => (.status "ok", g.finish taskId .completed (some body) none now)

def cutError (message : String) : String := String.ofList (message.toList.take maxErrorLength)

def postFailure (g : Inner) (taskId : String) (workerId : Option String) (message : String)
    (now : Instant) : Outcome × Inner :=
  match g.tasks.lookup taskId with
  | none => (.notFound, g)
  | some task =>
    if task.status.finished then (.status "ignored", g)
    else if !checkWorker task workerId then (.wrongWorker, g)
    else (.status "ok", g.finish taskId .failed none (some (cutError message)) now)

/-- What `get_result` answers when it looks at the state. -/
def getResult (g : Inner) (taskId : String) : ResultView :=
  match g.tasks.lookup taskId with
  | none => .notFound
  | some task =>
    match task.status with
    | .completed => .completed (task.result.getD [])
    | .failed => .failed (task.error.getD "")
    | other => .pending other.asStr

/-- Nodes whose last heartbeat is too old. -/
def deadNodes (settings : Settings) (g : Inner) (now : Instant) : List String :=
  g.nodes.keysWhere fun _ node => decide (now - node.lastHeartbeat > settings.nodeTimeout)

/-- Tasks assigned for too long. -/
def stuckTasks (settings : Settings) (g : Inner) (now : Instant) : List String :=
  g.tasks.keysWhere fun _ task => task.status == .assigned &&
    (task.assignedAt.map fun at' => decide (now - at' > settings.taskTimeout)).getD false

/-- A chain root stays forwarded and not done while later stages run: it is kept. -/
def keepTask (now : Instant) (task : Task) : Bool :=
  if task.done then (task.completedAt.map fun at' => decide (now - at' ≤ finishedTtl)).getD true
  else decide (now - task.createdAt ≤ danglingTtl)

/-- Dead nodes, stuck tasks, old tasks, idle session bindings. -/
def sweep (settings : Settings) (g : Inner) (now : Instant) : Inner :=
  let g := (deadNodes settings g now).foldl dropNode g
  let g := (stuckTasks settings g now).foldl requeue g
  { g with
    tasks := g.tasks.retain fun _ task => keepTask now task
    affinity := g.affinity.retain fun _ bound => decide (now - bound.2 ≤ sessionAffinityTtl) }

end Distllm.Relay
