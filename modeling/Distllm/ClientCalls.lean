import Distllm.WorkerState

/-! The loops of a client's call (`worker.py`). `submit` posts a task again and again while requests
fail on the way, with growing pauses, for a minute at most; `wait_for` asks for the result until the
call's time is over. A request may be answered by nobody, by something in between that gives a
status, or by the relay; `afterSubmit` and `afterView` say what follows it. -/

namespace Distllm.Payload

open Relay (Instant Duration ResultView fromSecs)

variable {ω : Type}

namespace Cluster

def submitRetryFor : Duration := fromSecs 60

def firstDelay : Duration := 200000000

def longestDelay : Duration := fromSecs 2

inductive Reply (α : Type) where
  | lost
  | refused (status : Nat)
  | relayed (answer : α)

/-- How a call ends: with a value or an exception of its own making, or with what happened to its
requests (`RelayAuthError`, `TransportError`, `HTTPStatusError`, a response without a task id,
`TaskLostError`, `TimeoutError`). -/
inductive Ending (ω : Type) where
  | returned (outcome : Except Exc (Value ω))
  | unauthorized
  | unreachable
  | rejected (status : Nat)
  | unnamed
  | taskLost
  | timedOut

inductive Phase (ω : Type) where
  | pausing (due deadline : Instant) (delay : Duration)
  | posting (deadline : Instant) (delay : Duration)
  | resting (taskId : String) (due deadline : Instant)
  | asking (taskId : String) (deadline : Instant)
  | ended (ending : Ending ω)

/-- The end of a round of `submit`: once its time is over it gives up. -/
def tryAgain (now deadline : Instant) (delay : Duration) (ending : Ending ω) : Phase ω :=
  if deadline ≤ now then .ended ending
  else .pausing (now + delay) deadline (min (delay * 2) longestDelay)

def afterSubmit (timeout : Duration) (now deadline : Instant) (delay : Duration) :
    Reply String → Phase ω
  | .lost => tryAgain now deadline delay .unreachable
  | .refused status =>
    if 500 ≤ status then tryAgain now deadline delay (.rejected status)
    else if status = 401 then .ended .unauthorized
    else if 200 ≤ status ∧ status < 300 then .ended .unnamed
    else .ended (.rejected status)
  | .relayed taskId => .resting taskId now (now + timeout)

def look (taskId : String) (now deadline : Instant) : Phase ω :=
  if now < deadline then .asking taskId deadline else .ended .timedOut

def backOff (taskId : String) (now deadline : Instant) : Phase ω :=
  .resting taskId (now + min (fromSecs 1) (deadline - now)) deadline

variable (T : Transport ω) (cipher : Option Aead) (pollInterval : Option Duration)

def afterView (rid : Option String) (taskId : String) (now deadline : Instant) :
    Reply ResultView → Phase ω
  | .lost => backOff taskId now deadline
  | .refused status =>
    if status = 401 then .ended .unauthorized
    else if status = 404 then .ended .taskLost
    else if status = 200 then .resting taskId (now + pollInterval.getD 0) deadline
    else backOff taskId now deadline
  | .relayed .notFound => .ended .taskLost
  | .relayed (.completed content) => .ended (.returned (waitFor T cipher taskId rid (.ok content)))
  | .relayed (.failed error) => .ended (.returned (waitFor T cipher taskId rid (.error error)))
  | .relayed (.pending _) => .resting taskId (now + pollInterval.getD 0) deadline

/-- A call in progress: what it was called with, what it submits, how many requests it has sent to
`/submit`, the tasks that the relay has made of them, and what the relay has answered to the
question under way. -/
structure Call (ω : Type) where
  role : String
  payload : Value ω
  route : List String
  timeout : Duration
  submission : Except Exc Submission
  phase : Phase ω
  clock : Instant
  sent : Nat
  arrived : List String
  view : Option ResultView

/-- `call` and `call_route`: what cannot be packed is not submitted. -/
def Call.start (nonce : Nonce) (rid role : String) (payload : Value ω) (route : List String)
    (timeout : Duration) (now : Instant) : Call ω :=
  let submission := submit T cipher nonce rid role payload route
  ⟨role, payload, route, timeout, submission,
    match submission with
    | .error e => .ended (.returned (.error e))
    | .ok _ => .pausing now (now + submitRetryFor) firstDelay,
    now, 0, [], none⟩

end Cluster

end Distllm.Payload
