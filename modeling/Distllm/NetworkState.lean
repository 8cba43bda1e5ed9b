import Distllm.RelayCalls
import Distllm.RelayRoles
import Distllm.ClientCalls

/-! Clients and workers around the Rust relay. What the relay does is one step; what a request says
and what its answer says reach the other side later or not at all, so a request that was given up
may still arrive, and an upload that arrived may be repeated. Workers poll, run their function and
upload what it makes of their tasks, or stop at any time; a worker's name stands for one role. The
relay may lose all its tables. Other clients submit what they like. -/

namespace Distllm.Payload.Network

open Relay (Bytes Instant Duration Op Answer Post ResultView Settings World Event getResult
  routeRoles)
open Payload.Cluster (Reply)

variable {ω : Type}

structure State (ω : Type) where
  relay : World
  holding : AList fun _ : String => List (String × Bytes)
  uploads : List (String × String × Post)
  calls : AList fun _ : Nat => Cluster.Call ω

/-- The relay has just started, and nobody has done anything yet. -/
def State.start (clock : Instant) : State ω := ⟨World.start clock, ∅, [], ∅⟩

def State.setCall (s : State ω) (key : Nat) (c : Cluster.Call ω) : State ω :=
  { s with calls := s.calls.insert key c }

/-- What is asked of the relay by others, and by workers whose answer is lost. -/
def Outside (roleOf : String → String) : Op → Prop
  | .postResult .. | .postFailure .. => False
  | .register nodeId role _ => role = roleOf nodeId
  | _ => True

/-- The worker asks for tasks of its role. -/
inductive Polls (roleOf : String → String) (worker : String) : Op → Prop where
  | poll (maxTasks : Nat) : Polls roleOf worker (.poll (roleOf worker) worker maxTasks)
  | pollDeadline : Polls roleOf worker (.pollDeadline (roleOf worker) worker)

/-- The request of an upload (`_post_result`, `/fail`). -/
def uploadOp (worker taskId next : String) : Post → Op
  | .body bytes stopChain => .postResult taskId (some worker) stopChain bytes next
  | .failure message => .postFailure taskId (some worker) message

/-- The request of a submission. -/
def submitOp (taskId : String) (sub : Submission) (createdAt : Instant) : Op :=
  .submit taskId sub.targetRole sub.body (routeRoles sub.route) sub.session createdAt

variable (T : Transport ω) (funcs : String → Func ω) (cipher : Option Aead)

/-- `_decode` and `_process` of the tasks that were polled. -/
def processed (nonce : String → Nonce) (worker role : String) (tasks : List (String × Bytes)) :
    List (String × String × Post) :=
  (Worker.process T cipher nonce (funcs role)
    (tasks.map fun task => (task.1, Worker.decode T cipher task.2))).filterMap
      fun report => report.2.map fun post => (worker, report.1, post)

inductive Move (ω : Type) where
  | outside (event : Event)
  | restart (now : Instant)
  | poll (worker : String) (event : Event)
  | work (worker : String) (nonce : String → Nonce)
  | stop (worker : String)
  | upload (worker taskId : String) (post : Post) (event : Event)
  | call (key : Nat) (nonce : Nonce) (rid : Rid) (role : String) (payload : Value ω)
      (route : List String) (timeout : Duration) (now : Instant)
  | post (key : Nat) (now : Instant)
  | arrive (key : Nat) (event : Event)
  | hearSubmit (key : Nat) (reply : Reply String) (now : Instant)
  | ask (key : Nat) (now : Instant)
  | answer (key : Nat)
  | hearView (key : Nat) (reply : Reply ResultView) (now : Instant)

variable (roleOf : String → String) (pollInterval : Option Duration) (settings : Settings)
  (readValue : Bytes → Option Relay.Value)

inductive Step : State ω → Move ω → State ω → Prop where
  | rehashed {s : State ω} {w : World} (h : Relay.Step settings readValue s.relay .rehash w) :
      Step s (.outside .rehash) { s with relay := w }
  | outside {s : State ω} {op : Op} {answer : Answer} {now : Instant} {w : World}
      (hop : Outside roleOf op)
      (h : Relay.Step settings readValue s.relay (.call op answer now) w) :
      Step s (.outside (.call op answer now)) { s with relay := w }
  | restarted {s : State ω} {now : Instant} (hclock : s.relay.clock ≤ now) :
      Step s (.restart now) { s with relay := ⟨.empty, now, s.relay.issued⟩ }
  | polled {s : State ω} {worker : String} {op : Op} {taken : List (String × Bytes)}
      {now : Instant} {w : World} (hidle : s.holding.lookup worker = none)
      (hop : Polls roleOf worker op)
      (h : Relay.Step settings readValue s.relay (.call op (.tasks taken) now) w) :
      Step s (.poll worker (.call op (.tasks taken) now))
        { s with relay := w, holding := s.holding.insert worker taken }
  | worked {s : State ω} {worker : String} {tasks : List (String × Bytes)} (nonce : String → Nonce)
      (hheld : s.holding.lookup worker = some tasks) :
      Step s (.work worker nonce)
        { s with
          holding := s.holding.erase worker
          uploads := processed T funcs cipher nonce worker (roleOf worker) tasks ++ s.uploads }
  | stopped {s : State ω} (worker : String) :
      Step s (.stop worker) { s with holding := s.holding.erase worker }
  | uploaded {s : State ω} {worker taskId next : String} {post : Post} {answer : Answer}
      {now : Instant} {w : World} (hupload : (worker, taskId, post) ∈ s.uploads)
      (h : Relay.Step settings readValue s.relay
        (.call (uploadOp worker taskId next post) answer now) w) :
      Step s (.upload worker taskId post (.call (uploadOp worker taskId next post) answer now))
        { s with relay := w }
  | called {s : State ω} {key : Nat} (nonce : Nonce) (rid : Rid) (role : String)
      (payload : Value ω) (route : List String) (timeout : Duration) (now : Instant)
      (hnew : s.calls.lookup key = none) :
      Step s (.call key nonce rid role payload route timeout now)
        (s.setCall key (.start T cipher nonce rid.text role payload route timeout now))
  | posted {s : State ω} {key : Nat} {c : Cluster.Call ω} {due deadline now : Instant}
      {delay : Duration} (hcall : s.calls.lookup key = some c)
      (hphase : c.phase = .pausing due deadline delay) (hclock : c.clock ≤ now) (hdue : due ≤ now) :
      Step s (.post key now)
        (s.setCall key { c with phase := .posting deadline delay, clock := now, sent := c.sent + 1 })
  | arrived {s : State ω} {key : Nat} {c : Cluster.Call ω} {sub : Submission} {taskId : String}
      {createdAt now : Instant} {answer : Answer} {w : World}
      (hcall : s.calls.lookup key = some c) (hsub : c.submission = .ok sub)
      (hunder : c.arrived.length < c.sent)
      (h : Relay.Step settings readValue s.relay
        (.call (submitOp taskId sub createdAt) answer now) w) :
      Step s (.arrive key (.call (submitOp taskId sub createdAt) answer now))
        (State.setCall { s with relay := w } key { c with arrived := taskId :: c.arrived })
  | heardSubmit {s : State ω} {key : Nat} {c : Cluster.Call ω} {deadline now : Instant}
      {delay : Duration} {reply : Reply String} (hcall : s.calls.lookup key = some c)
      (hphase : c.phase = .posting deadline delay) (hclock : c.clock ≤ now)
      (hreply : ∀ taskId, reply = .relayed taskId → taskId ∈ c.arrived) :
      Step s (.hearSubmit key reply now)
        (s.setCall key { c with
          phase := Cluster.afterSubmit c.timeout now deadline delay reply
          clock := now })
  | asked {s : State ω} {key : Nat} {c : Cluster.Call ω} {taskId : String}
      {due deadline now : Instant} (hcall : s.calls.lookup key = some c)
      (hphase : c.phase = .resting taskId due deadline) (hclock : c.clock ≤ now)
      (hdue : due ≤ now) :
      Step s (.ask key now)
        (s.setCall key { c with
          phase := Cluster.look taskId now deadline
          clock := now
          view := none })
  | answered {s : State ω} {key : Nat} {c : Cluster.Call ω} {taskId : String} {deadline : Instant}
      (hcall : s.calls.lookup key = some c) (hphase : c.phase = .asking taskId deadline) :
      Step s (.answer key)
        (s.setCall key { c with view := some (getResult s.relay.inner taskId) })
  | heardView {s : State ω} {key : Nat} {c : Cluster.Call ω} {sub : Submission} {taskId : String}
      {deadline now : Instant} {reply : Reply ResultView} (hcall : s.calls.lookup key = some c)
      (hsub : c.submission = .ok sub) (hphase : c.phase = .asking taskId deadline)
      (hclock : c.clock ≤ now) (hreply : ∀ view, reply = .relayed view → c.view = some view) :
      Step s (.hearView key reply now)
        (s.setCall key { c with
          phase := Cluster.afterView T cipher pollInterval sub.rid taskId now deadline reply
          clock := now })

end Distllm.Payload.Network
