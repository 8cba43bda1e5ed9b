import Distllm.RelayRun
import Distllm.RouteText
import Distllm.PayloadState

/-! A worker's handling of the tasks it has polled, and a client's call (`worker.py`), without the
network: what is posted for a task, what is submitted for a call, and what the client makes of the
relay's answer. The request id is drawn by the client; workers take it out of a payload and put it
into the result. -/

namespace Distllm.Payload

open Relay (Bytes Post)

variable {ω : Type}

/-- A worker's function, called with one payload or, with `batched=True`, with a list of them. An
exception instance among the results of a batch marks a failed item. -/
inductive Func (ω : Type) where
  | each (f : Value ω → Except Exc (Value ω))
  | batch (g : List (Value ω) → Except Exc (List (Except Exc (Value ω))))

namespace Worker

def runFunc : Func ω → List (Value ω) → List (Except Exc (Value ω))
  | .each f, payloads => payloads.map f
  | .batch g, payloads =>
    match g payloads with
    | .error e => List.replicate payloads.length (.error e)
    | .ok results =>
      if results.length = payloads.length then results
      else List.replicate payloads.length (.error ⟨"RuntimeError", "batch function returned " ++
        toString results.length ++ " results for " ++ toString payloads.length ++ " tasks"⟩)

variable (T : Transport ω) (cipher : Option Aead)

def decode (data : Bytes) : Except Exc (Value ω) :=
  match openWith cipher data with
  | .error e => .error e
  | .ok data => T.unpack data

/-- `payload.pop(RID_KEY, None)` of a dictionary, and the payload without it. -/
def popRid : Value ω → Item ω × Value ω
  | .dict d => ((d.lookup ridKey).getD .none, .dict (d.erase ridKey))
  | .item x => (.none, .item x)

def attachRid : Item ω → Value ω → Value ω
  | .none, value => value
  | rid, .dict d => .dict (d.put ridKey rid)
  | _, .item x => .item x

def stopFlag : Value ω → Except Exc Bool
  | .dict d =>
    match d.lookup stopChainKey with
    | none | some .none => .ok false
    | some (.str s) => .ok (decide (s ≠ ""))
    | some (.other x) => T.truth x
  | .item _ => .ok false

/-- `_report`; nothing is posted when reading the stop flag raises. -/
def report (nonce : Nonce) (result : Except Exc (Value ω)) (rid : Item ω) : Option Post :=
  match result with
  | .error e => some (.failure e.text)
  | .ok value =>
    match T.pack (attachRid rid value) with
    | .error e => some (.failure e.text)
    | .ok body =>
      match stopFlag T (attachRid rid value) with
      | .error _ => none
      | .ok flag => some (.body (sealWith cipher nonce body) flag)

/-- `_process`: payloads that could not be decoded fail on their own, the rest run. -/
def process (nonce : String → Nonce) (func : Func ω)
    (tasks : List (String × Except Exc (Value ω))) : List (String × Option Post) :=
  let good := tasks.filterMap fun task => task.2.toOption.map fun payload => (task.1, popRid payload)
  let bad := tasks.filter fun task => !task.2.isOk
  let results := runFunc func (good.map fun task => task.2.2)
  bad.map (fun task => (task.1, report T cipher (nonce task.1) task.2 .none)) ++
    (good.zip results).map fun outcome =>
      (outcome.1.1, report T cipher (nonce outcome.1.1) outcome.2 outcome.1.2.1)

end Worker

/-! ### The client -/

structure Submission where
  targetRole : String
  route : String
  session : Option String
  body : Bytes
  rid : Option String

namespace Cluster

variable (T : Transport ω) (cipher : Option Aead)

def sessionOf : Value ω → Option String
  | .dict d =>
    match d.lookup sessionKey with
    | some (.str s) => if s = "" then none else some s
    | _ => none
  | .item _ => none

/-- The payload that is packed, and the request id in it: a dictionary gets one to be sealed. -/
def withRid (rid : String) : Value ω → Value ω × Option String
  | .dict d => if cipher.isSome then (.dict (d.put ridKey (.str rid)), some rid) else (.dict d, none)
  | .item x => (.item x, none)

def submit (nonce : Nonce) (rid role : String) (payload : Value ω) (route : List String) :
    Except Exc Submission :=
  match T.pack (withRid cipher rid payload).1 with
  | .error e => .error e
  | .ok body => .ok ⟨role, ",".intercalate route, sessionOf payload, sealWith cipher nonce body,
      (withRid cipher rid payload).2⟩

def result (taskId : String) (rid : Option String) (content : Bytes) : Except Exc (Value ω) :=
  match Worker.decode T cipher content with
  | .error e => .error e
  | .ok value =>
    match rid, value with
    | none, value => .ok value
    | some expected, .dict d =>
      if (Worker.popRid (.dict d)).1.isText expected then .ok (Worker.popRid (.dict d)).2
      else .error (decryptionError
        ("Result of task " ++ taskId ++ " belongs to another request (replayed?)"))
    | some _, .item _ => .error (decryptionError
        ("Result of task " ++ taskId ++ " belongs to another request (replayed?)"))

/-- `wait_for`, once the relay has answered with the end of the task. -/
def waitFor (taskId : String) (rid : Option String) : Except String Bytes → Except Exc (Value ω)
  | .ok content => result T cipher taskId rid content
  | .error error => .error ⟨"RuntimeError", "Task failed on worker: " ++ error⟩

end Cluster

end Distllm.Payload
