import Distllm.Run
import Distllm.Table

/-! A client that encrypts its payloads, and a relay that may hand any sealed message to anyone.
Sealing is ideal: a sealed message is its place in the list of all messages that holders of the
key have sealed, and nothing else can be opened. Request ids are drawn once. The key of the
request id is reserved: worker functions neither see nor return it. -/

namespace Distllm.Cluster

variable {β : Type}

abbrev Rid := Nat
abbrev TaskId := String

/-- A payload or a result, without the request id. -/
inductive Plain (β : Type) where
  | dict (body : β)
  | other (body : β)
  deriving DecidableEq

/-- What is packed. Only a dictionary has room for the request id. -/
inductive Value (β : Type) where
  | dict (rid : Option Rid) (body : β)
  | other (body : β)
  deriving DecidableEq

def Value.rid : Value β → Option Rid
  | dict rid _ => rid
  | other _ => none

def Value.plain : Value β → Plain β
  | dict _ body => .dict body
  | other body => .other body

def Plain.withRid (rid : Option Rid) : Plain β → Value β
  | dict body => .dict rid body
  | other body => .other body

@[simp] theorem plain_withRid (rid : Option Rid) (p : Plain β) : (p.withRid rid).plain = p := by
  cases p <;> rfl

theorem eq_some_of_rid_withRid {rid : Option Rid} {p : Plain β} {r : Rid}
    (h : (p.withRid rid).rid = some r) : rid = some r := by
  cases p with
  | dict => exact h
  | other => exact absurd h nofun

/-- A request of a client, or the result that a worker of a role has made of a sealed payload. -/
inductive Origin where
  | request
  | result (role : String) (input : Nat)
  deriving DecidableEq

structure Sealed (β : Type) where
  origin : Origin
  value : Value β
  deriving DecidableEq

/-- A submission of the client: the roles of its route, and where its request was sealed. -/
structure Submission where
  taskId : TaskId
  roles : List String
  request : Nat
  deriving DecidableEq

/-- A value that `wait_for` has returned, and the sealed message it was read from. -/
structure Returned (β : Type) where
  taskId : TaskId
  message : Nat
  value : Value β
  deriving DecidableEq

structure State (β : Type) where
  log : List (Sealed β)
  nextRid : Rid
  rids : AList fun _ : TaskId => Rid
  submissions : List Submission
  returned : List (Returned β)

def State.init : State β := ⟨[], 0, ∅, [], []⟩

/-- The relay picks the task id it answers a submission with, and the message that a worker or a
waiting client gets; a place where nothing was sealed stands for bytes that do not open. What a
function returns may depend on the caches of its worker, so the event names it. `submitOther` is
a request of another client, or one whose submission the relay did not confirm. -/
inductive Event (β : Type) where
  | submit (taskId : TaskId) (role : String) (route : List String) (payload : Plain β)
  | submitOther (payload : Plain β)
  | work (role : String) (message : Nat) (result : Plain β)
  | waitFor (taskId : TaskId) (message : Nat)

/-- A dictionary is sealed with a request id of its own. -/
def sealRequest (s : State β) (payload : Plain β) : Option Rid × State β :=
  match payload with
  | .dict _ =>
    (some s.nextRid, { s with log := s.log ++ [⟨.request, payload.withRid (some s.nextRid)⟩],
                              nextRid := s.nextRid + 1 })
  | .other _ => (none, { s with log := s.log ++ [⟨.request, payload.withRid none⟩] })

def submit (s : State β) (taskId : TaskId) (role : String) (route : List String)
    (payload : Plain β) : State β :=
  let (rid, t) := sealRequest s payload
  { t with
    rids := rid.elim t.rids fun rid => t.rids.insert taskId rid
    submissions := t.submissions ++ [⟨taskId, role :: route, s.log.length⟩] }

/-- A worker runs its function on the payload; a result echoes the request id. -/
def process (s : State β) (role : String) (message : Nat) (result : Plain β) : State β :=
  match s.log[message]? with
  | none => s
  | some input =>
    { s with log := s.log ++ [⟨.result role message, result.withRid input.value.rid⟩] }

/-- The expected id is taken out before it is compared; without one nothing is compared. -/
def result (s : State β) (taskId : TaskId) (message : Nat) : State β :=
  match s.log[message]? with
  | none => s
  | some content =>
    let t := { s with rids := s.rids.erase taskId }
    match s.rids.lookup taskId with
    | none => { t with returned := t.returned ++ [⟨taskId, message, content.value⟩] }
    | some expected =>
      if content.value.rid = some expected then
        { t with returned :=
            t.returned ++ [⟨taskId, message, content.value.plain.withRid none⟩] }
      else t

def exec (s : State β) : Event β → State β
  | .submit taskId role route payload => submit s taskId role route payload
  | .submitOther payload => (sealRequest s payload).2
  | .work role message result => process s role message result
  | .waitFor taskId message => result s taskId message

def Step (s : State β) (e : Event β) (s' : State β) : Prop :=
  s' = exec s e

end Distllm.Cluster
