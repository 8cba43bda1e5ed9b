import Mathlib.Logic.Relation
import Distllm.Run
import Distllm.Stages
import Distllm.RelaySpec

/-! Runs of the Rust relay. Every operation holds the lock, so a run is a sequence of atomic
operations with the clock read by each; task identifiers are drawn fresh. Between operations the
tables may be re-hashed, so that every iteration order occurs. Each operation is a sequence of a
few kinds of elementary changes (`Atom`): an invariant is proved once for each kind. -/

namespace Distllm.Relay

inductive Op where
  | submit (taskId targetRole : String) (body : Bytes) (route : List String)
      (session : Option String) (createdAt : Instant)
  | poll (role worker : String) (maxTasks : Nat)
  | pollDeadline (role worker : String)
  | postResult (taskId : String) (workerId : Option String) (stopChain : Bool) (body : Bytes)
      (next : String)
  | postFailure (taskId : String) (workerId : Option String) (message : String)
  | register (nodeId role : String) (sessions : List String)
  | deregister (nodeId : String)
  | heartbeat (nodeId : String)
  | sweep

inductive Answer where
  | taskId (id : String)
  | tasks (taken : List (String × Bytes))
  | outcome (outcome : Outcome)
  | alive (known : Bool)
  | done
  deriving DecidableEq

namespace Op

/-- The task identifiers an operation draws. -/
def drawn : Op → List String
  | submit taskId .. => [taskId]
  | postResult _ _ _ _ next => [next]
  | _ => []

/-- `submit` reads its clock before it takes the lock. -/
def Timely (now : Instant) : Op → Prop
  | submit _ _ _ _ _ createdAt => createdAt ≤ now
  | _ => True

end Op

variable (settings : Settings) (readValue : Bytes → Option Value)

def exec (op : Op) (now : Instant) (g : Inner) : Answer × Inner :=
  match op with
  | .submit taskId targetRole body route session createdAt =>
    (.taskId taskId, submit g taskId targetRole body route session createdAt)
  | .poll role worker maxTasks =>
    let (taken, g) := poll g role worker maxTasks now
    (.tasks taken, g)
  | .pollDeadline role worker =>
    let (taken, g) := pollDeadline g role worker now
    (.tasks taken, g)
  | .postResult taskId workerId stopChain body next =>
    let (outcome, g) := postResult readValue g taskId workerId stopChain body next now
    (.outcome outcome, g)
  | .postFailure taskId workerId message =>
    let (outcome, g) := postFailure g taskId workerId message now
    (.outcome outcome, g)
  | .register nodeId role sessions => (.done, register g nodeId role sessions now)
  | .deregister nodeId => (.done, deregister g nodeId)
  | .heartbeat nodeId =>
    let (known, g) := heartbeat g nodeId now
    (.alive known, g)
  | .sweep => (.done, sweep settings g now)

/-- The same tables in another iteration order. -/
structure Inner.Rehashed (g g' : Inner) : Prop where
  nodes : g.nodes.entries.Perm g'.nodes.entries
  tasks : g.tasks.entries.Perm g'.tasks.entries
  roleQueues : g.roleQueues.entries.Perm g'.roleQueues.entries
  workerQueues : g.workerQueues.entries.Perm g'.workerQueues.entries
  affinity : g.affinity.entries.Perm g'.affinity.entries

/-- The relay with the time of its last operation and the identifiers drawn so far. -/
structure World where
  inner : Inner
  clock : Instant
  issued : List String

def World.start (clock : Instant) : World := ⟨.empty, clock, []⟩

inductive Event where
  | call (op : Op) (answer : Answer) (now : Instant)
  | rehash

inductive Step : World → Event → World → Prop where
  | call {w : World} {op : Op} {now : Instant} (hclock : w.clock ≤ now) (htimely : op.Timely now)
      (hfresh : ∀ id ∈ op.drawn, id ∉ w.issued) :
      Step w (.call op (exec settings readValue op now w.inner).1 now)
        ⟨(exec settings readValue op now w.inner).2, now, op.drawn ++ w.issued⟩
  | rehash {w : World} {g : Inner} (h : w.inner.Rehashed g) :
      Step w .rehash { w with inner := g }

/-- The worlds that runs from an empty relay lead to, with the events on the way. -/
abbrev RunFrom (clock : Instant) : List Event → World → Prop :=
  Run (Step settings readValue) (World.start clock)

/-! ### Running a schedule -/

/-- Operations with their instants, in order, with identifiers that are new at each. -/
def Scheduled (clock : Instant) (issued : List String) : List (Op × Instant) → Prop
  | [] => True
  | (op, now) :: rest =>
    clock ≤ now ∧ op.Timely now ∧ (∀ id ∈ op.drawn, id ∉ issued) ∧
      Scheduled now (op.drawn ++ issued) rest

instance (now : Instant) (op : Op) : Decidable (op.Timely now) :=
  match op with
  | .submit _ _ _ _ _ createdAt => inferInstanceAs (Decidable (createdAt ≤ now))
  | .poll .. | .pollDeadline .. | .postResult .. | .postFailure .. | .register .. | .deregister ..
  | .heartbeat .. | .sweep => inferInstanceAs (Decidable True)

instance decidableScheduled (clock : Instant) (issued : List String) :
    (ops : List (Op × Instant)) → Decidable (Scheduled clock issued ops)
  | [] => inferInstanceAs (Decidable True)
  | (op, now) :: rest =>
    have := decidableScheduled now (op.drawn ++ issued) rest
    inferInstanceAs (Decidable (_ ∧ _ ∧ _ ∧ _))

/-- What the relay answers to a schedule, and where that leaves it. -/
def execAll (w : World) : List (Op × Instant) → List Event × World
  | [] => ([], w)
  | (op, now) :: rest =>
    let (answer, inner) := exec settings readValue op now w.inner
    let (events, last) := execAll ⟨inner, now, op.drawn ++ w.issued⟩ rest
    (.call op answer now :: events, last)

theorem run_execAll (w : World) (ops : List (Op × Instant)) (h : Scheduled w.clock w.issued ops) :
    Run (Step settings readValue) w (execAll settings readValue w ops).1
      (execAll settings readValue w ops).2 := by
  induction ops generalizing w with
  | nil => exact .refl w
  | cons first rest ih =>
      obtain ⟨op, now⟩ := first
      obtain ⟨hclock, htimely, hfresh, hrest⟩ := h
      exact .cons (.call hclock htimely hfresh) (ih _ hrest)

/-! ### Elementary changes -/

/-- How often an id is queued, over all role queues and worker queues together. -/
def Inner.occurrences (g : Inner) (id : String) : Nat :=
  g.roleQueues.pooled.count id + g.workerQueues.pooled.count id

/-- Nothing in the relay mentions the id. -/
structure Inner.Fresh (g : Inner) (id : String) : Prop where
  task : g.tasks.lookup id = none
  queue : g.occurrences id = 0
  root : ∀ x task, g.tasks.lookup x = some task → task.rootId ≠ id

/-- A task as `submit` makes it: a root of its own, nothing decided yet. -/
structure Task.Submitted (task : Task) (id : String) (now : Instant) : Prop where
  root : task.rootId = id
  pending : task.status = .pending
  unassigned : task.workerId = none
  created : task.createdAt ≤ now
  notDone : task.done = false

/-- A finishing status with the data its answer needs. -/
inductive Concludes : Status → Option Bytes → Option String → Prop where
  | completed (body : Bytes) : Concludes .completed (some body) none
  | failed (error : String) : Concludes .failed none (some error)

/-- What a worker posts for its task: a body with its stop flag, or a failure message. -/
inductive Post where
  | body (bytes : Bytes) (stopChain : Bool)
  | failure (message : String)
  deriving DecidableEq

/-- What a post says: a result, with whether it stops the chain, or a failure. -/
abbrev Report := Stages.Verdict Bytes String

def Post.report (readValue : Bytes → Option Value) : Post → Report
  | body bytes stopChain => .result bytes (stopsChain readValue bytes stopChain)
  | failure message => .failure message

/-- The report ends the chain of the task with this outcome. -/
inductive Ends (task : Task) : Report → Status → Option Bytes → Option String → Prop where
  | completed (body : Bytes) {stops : Bool} (h : task.route = [] ∨ stops = true) :
      Ends task (.result body stops) .completed (some body) none
  | failed (message : String) :
      Ends task (.failure message) .failed none (some (cutError message))

theorem Ends.concludes {task : Task} {report : Report} {status : Status}
    {result : Option Bytes} {error : Option String} (h : Ends task report status result error) :
    Concludes status result error := by
  cases h with
  | completed body h => exact .completed body
  | failed message => exact .failed _

/-- The accepted post of an event, with the identifier of its task. -/
def Event.post : Event → Option (String × Post)
  | .call (.postResult taskId _ stopChain body _) (.outcome outcome) _ =>
    if outcome.accepted then some (taskId, .body body stopChain) else none
  | .call (.postFailure taskId _ message) (.outcome outcome) _ =>
    if outcome.accepted then some (taskId, .failure message) else none
  | _ => none

/-- The event is an accepted post for this stored task that says this. -/
def Event.Posts (readValue : Bytes → Option Value) (g : Inner) (event : Event) (task : Task)
    (report : Report) : Prop :=
  ∃ id post, event.post = some (id, post) ∧ g.tasks.lookup id = some task ∧
    report = post.report readValue

open Relay.Inner

inductive Atom (drawn : List String) (now : Instant) (posted : Task → Report → Prop) :
    Inner → Inner → Prop where
  | rehashed {g g' : Inner} (h : g.Rehashed g') : Atom drawn now posted g g'
  | opened (g : Inner) (role worker : String) :
      Atom drawn now posted g { g with
        roleQueues := orDefault g.roleQueues role
        workerQueues := orDefault g.workerQueues worker }
  | looked (g : Inner) (worker role : String) : Atom drawn now posted g (g.takeNext worker role now).2
  | submitted (g : Inner) {id : String} {task : Task} (hid : id ∈ drawn) (hfresh : g.Fresh id)
      (htask : task.Submitted id now) : Atom drawn now posted g (g.enqueue id task)
  | forwarded (g : Inner) {id next nextRole : String} {tail : List String} {task : Task}
      (body : Bytes) (hnext : next ∈ drawn) (hfresh : g.Fresh next)
      (htask : g.tasks.lookup id = some task) (hlive : task.status.finished = false)
      (hroute : task.route = nextRole :: tail) (hposted : posted task (.result body false)) :
      Atom drawn now posted g
        ({ g with tasks := g.tasks.modify id (markForwarded id now) }.enqueue next
          (successor task nextRole tail body now))
  | finished (g : Inner) {id : String} {task : Task} {status : Status} {result : Option Bytes}
      {error : Option String} (htask : g.tasks.lookup id = some task)
      (hlive : task.status.finished = false) {report : Report} (hposted : posted task report)
      (hends : Ends task report status result error) :
      Atom drawn now posted g (g.finish id status result error now)
  | registered (g : Inner) (nodeId role : String) (sessions : List String) :
      Atom drawn now posted g (register g nodeId role sessions now)
  | beat (g : Inner) (nodeId : String) :
      Atom drawn now posted g { g with
        nodes := g.nodes.modify nodeId fun node => { node with lastHeartbeat := now } }
  | requeued (g : Inner) {id : String} {task : Task} (htask : g.tasks.lookup id = some task)
      (hassigned : task.status = .assigned) : Atom drawn now posted g (g.requeue id)
  | drained (g : Inner) (worker : String) : Atom drawn now posted g (g.drain worker)
  | cleaned (g : Inner) :
      Atom drawn now posted g { g with
        tasks := g.tasks.retain fun _ task => keepTask now task
        affinity := g.affinity.retain fun _ bound =>
          decide (now - bound.2 ≤ sessionAffinityTtl) }

/-- A sequence of elementary changes. -/
abbrev Atoms (drawn : List String) (now : Instant) (posted : Task → Report → Prop) :
    Inner → Inner → Prop :=
  Relation.ReflTransGen (Atom drawn now posted)

variable {drawn : List String} {now : Instant} {posted : Task → Report → Prop} {settings readValue}

theorem foldl_requeue_atoms (ids : List String) (g : Inner) (hnodup : ids.Nodup)
    (hassigned : ∀ id ∈ ids, ∃ task, g.tasks.lookup id = some task ∧ task.status = .assigned) :
    Atoms drawn now posted g (ids.foldl requeue g) := by
  induction ids generalizing g with
  | nil => exact .refl
  | cons id rest ih =>
      obtain ⟨hid, hnodup⟩ := List.nodup_cons.mp hnodup
      obtain ⟨task, htask, hstatus⟩ := hassigned id List.mem_cons_self
      obtain ⟨affinity, hrequeue⟩ := g.requeue_of_lookup htask
      refine .head (.requeued g htask hstatus) (ih _ hnodup fun x hx => ?_)
      have hne : x ≠ id := fun h => hid (h ▸ hx)
      rw [hrequeue, AList.lookup_modify_ne hne]
      exact hassigned x (List.mem_cons_of_mem _ hx)

theorem dropNode_atoms (g : Inner) (worker : String) : Atoms drawn now posted g (dropNode g worker) := by
  cases h : g.nodes.lookup worker with
  | none => rw [dropNode_of_none g h]
  | some node =>
      rw [dropNode_of_registered g h]
      refine .tail (foldl_requeue_atoms _ g (AList.keysWhere_nodup _ _) fun id hid => ?_)
        (.drained _ worker)
      obtain ⟨task, htask, hboth⟩ := AList.mem_keysWhere.mp hid
      rw [Bool.and_eq_true, beq_iff_eq] at hboth
      exact ⟨task, htask, hboth.1⟩

theorem foldl_dropNode_atoms (workers : List String) (g : Inner) :
    Atoms drawn now posted g (workers.foldl dropNode g) := by
  induction workers generalizing g with
  | nil => exact .refl
  | cons worker rest ih => exact (dropNode_atoms g worker).trans (ih _)

theorem sweep_atoms (g : Inner) : Atoms drawn now posted g (sweep settings g now) := by
  refine .tail ((foldl_dropNode_atoms _ g).trans (foldl_requeue_atoms _ _
    (AList.keysWhere_nodup _ _) fun id hid => ?_)) (.cleaned _)
  obtain ⟨task, htask, hboth⟩ := AList.mem_keysWhere.mp hid
  rw [Bool.and_eq_true, beq_iff_eq] at hboth
  exact ⟨task, htask, hboth.1⟩

theorem takeMore_atoms (worker role : String) (n : Nat) (g : Inner) :
    Atoms drawn now posted g (takeMore worker role now n g).2 := by
  induction n generalizing g with
  | zero => exact .refl
  | succ n ih =>
      have hlook : Atom drawn now posted g (g.takeNext worker role now).2 := .looked g worker role
      rw [takeMore]
      cases htake : g.takeNext worker role now with
      | mk taken g' =>
          rw [htake] at hlook
          cases taken with
          | none => exact .single hlook
          | some id => exact .head hlook (ih g')

theorem poll_atoms (g : Inner) (role worker : String) (maxTasks : Nat) :
    Atoms drawn now posted g (poll g role worker maxTasks now).2 := by
  refine .head (.opened g role worker) ?_
  rw [poll]
  set g' : Inner := { g with
    roleQueues := orDefault g.roleQueues role
    workerQueues := orDefault g.workerQueues worker } with hg'
  have hlook : Atom drawn now posted g' (g'.takeNext worker role now).2 := .looked g' worker role
  cases htake : g'.takeNext worker role now with
  | mk taken g'' =>
      rw [htake] at hlook
      cases taken with
      | none => exact .single hlook
      | some id => exact .head hlook (takeMore_atoms worker role (maxTasks - 1) g'')

theorem pollDeadline_atoms (g : Inner) (role worker : String) :
    Atoms drawn now posted g (pollDeadline g role worker now).2 := by
  have hlook : Atom drawn now posted g (g.takeNext worker role now).2 := .looked g worker role
  rw [pollDeadline]
  cases htake : g.takeNext worker role now with
  | mk taken g' =>
      rw [htake] at hlook
      cases taken <;> exact .single hlook

theorem submit_atoms (g : Inner) {taskId : String} (targetRole : String) (body : Bytes)
    (route : List String) (session : Option String) {createdAt : Instant} (hid : taskId ∈ drawn)
    (hfresh : g.Fresh taskId) (hcreated : createdAt ≤ now) :
    Atoms drawn now posted g (submit g taskId targetRole body route session createdAt) :=
  .single (.submitted g hid hfresh ⟨rfl, rfl, rfl, hcreated, rfl⟩)

variable (settings readValue)

theorem exec_atoms (op : Op) (g : Inner) (htimely : op.Timely now)
    (hfresh : ∀ id ∈ op.drawn, g.Fresh id) :
    Atoms op.drawn now
      (Event.Posts readValue g (.call op (exec settings readValue op now g).1 now))
      g (exec settings readValue op now g).2 := by
  cases op with
  | submit taskId targetRole body route session createdAt =>
      exact submit_atoms g targetRole body route session List.mem_cons_self
        (hfresh _ List.mem_cons_self) htimely
  | poll role worker maxTasks => exact poll_atoms g role worker maxTasks
  | pollDeadline role worker => exact pollDeadline_atoms g role worker
  | postResult taskId workerId stopChain body next =>
      rcases postResult_cases readValue g taskId workerId stopChain body next now with
        ⟨_, _, h⟩ | ⟨task, htask, hlive, _, hends, h⟩ |
          ⟨task, nextRole, tail, htask, hlive, _, hroute, hstops, h⟩
      · simp only [exec, h]
        exact .refl
      · simp only [exec, h]
        exact .single (.finished g htask hlive ⟨taskId, _, rfl, htask, rfl⟩ (.completed body hends))
      · simp only [exec, h]
        exact .single (.forwarded g body List.mem_cons_self (hfresh _ List.mem_cons_self) htask
          hlive hroute ⟨taskId, _, rfl, htask, by rw [← hstops]; rfl⟩)
  | postFailure taskId workerId message =>
      rcases postFailure_cases g taskId workerId message now with
        ⟨_, _, h⟩ | ⟨task, htask, hlive, _, h⟩
      · simp only [exec, h]
        exact .refl
      · simp only [exec, h]
        exact .single (.finished g htask hlive ⟨taskId, _, rfl, htask, rfl⟩ (.failed message))
  | register nodeId role sessions => exact .single (.registered g nodeId role sessions)
  | deregister nodeId => exact dropNode_atoms g nodeId
  | heartbeat nodeId =>
      cases h : g.nodes.lookup nodeId with
      | none =>
          simp only [exec, heartbeat, h]
          exact .refl
      | some node =>
          simp only [exec, heartbeat, h]
          exact .single (.beat g nodeId)
  | sweep => exact sweep_atoms g

end Distllm.Relay
