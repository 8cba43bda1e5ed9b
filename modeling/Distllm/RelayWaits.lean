import Distllm.Notify
import Distllm.RelaySignals

/-! The open polls of the Rust relay. A poll that finds nothing takes two handles with it, its
worker's and its role's, and looks again when one of them is notified or its time is up. Only a look
and an operation hold the lock; a poll waits, wakes, expires or is given up at any time, also while
an operation still goes through its notifications. -/

namespace Distllm.Relay

open Relay.Inner

/-- A poll is about to look, or it waits at its worker's and its role's handle, or its time is up. -/
inductive Phase where
  | looking
  | waiting (own shared : Nat)
  | late
  deriving DecidableEq

structure Poll where
  role : String
  worker : String
  maxTasks : Nat
  phase : Phase
  deriving DecidableEq

namespace Poll

/-- The poll is for the queue of the key. -/
def Names (p : Poll) (key : Key) : Prop := key = .worker p.worker ∨ key = .role p.role

/-- The number of the handle at which the poll waits for the key. -/
def handle (p : Poll) (key : Key) : Option Nat :=
  match p.phase with
  | .waiting own shared =>
    if key = .worker p.worker then some own else if key = .role p.role then some shared else none
  | .looking | .late => none

end Poll

/-- The relay with its open polls. Handles are numbered in the order in which they are made;
`ringing` is what the operation that holds the lock has still to notify. -/
structure Polling (ν : Type) where
  relay : World
  notify : AList fun _ : Key => Nat
  handles : Key → Nat → ν
  made : Nat
  polls : AList fun _ : Nat => Poll
  ringing : List Signal

variable {ν : Type} (N : Notifier ν Nat) (settings : Settings) (readValue : Bytes → Option Value)

namespace Polling

def start (clock : Instant) : Polling ν := ⟨.start clock, ∅, fun _ _ => N.new, 0, ∅, []⟩

def alter (s : Polling ν) (key : Key) (n : Nat) (f : ν → ν) : Polling ν :=
  { s with handles := fun k m => if k = key ∧ m = n then f (s.handles k m) else s.handles k m }

/-- The handle of the key, a new one if there is none. -/
def notifier (s : Polling ν) (key : Key) : Nat × Polling ν :=
  match s.notify.lookup key with
  | some n => (n, s)
  | none =>
    (s.made, { s.alter key s.made fun _ => N.new with
      notify := s.notify.insert key s.made, made := s.made + 1 })

def ring (s : Polling ν) : Signal → Polling ν
  | .push key =>
    let (n, s) := s.notifier N key
    s.alter key n N.notifyOne
  | .forget worker => { s with notify := s.notify.erase (.worker worker) }

/-- The poll found nothing and takes its handles. -/
def sleep (s : Polling ν) (id : Nat) (p : Poll) : Polling ν :=
  let (own, s) := s.notifier N (.worker p.worker)
  let (shared, s) := s.notifier N (.role p.role)
  { s with polls := s.polls.insert id { p with phase := .waiting own shared } }

/-- The futures of the poll are dropped. -/
def unwait (s : Polling ν) (id : Nat) (p : Poll) : Polling ν :=
  { s with handles := fun k m =>
      if p.handle k = some m then N.drop id (s.handles k m) else s.handles k m }

end Polling

inductive Move where
  | arrive (id : Nat) (role worker : String) (maxTasks : Nat)
  | look (id : Nat) (taken : List (String × Bytes)) (now : Instant)
  | wake (id : Nat) (key : Key)
  | arm (id : Nat) (key : Key)
  | expire (id : Nat)
  | last (id : Nat) (taken : List (String × Bytes)) (now : Instant)
  | cancel (id : Nat)
  | call (op : Op) (answer : Answer) (now : Instant)
  | ring
  | rehash

/-- The operation is not a look of a poll. -/
def Op.plain : Op → Bool
  | poll .. | pollDeadline .. => false
  | _ => true

inductive Polling.Step : Polling ν → Move → Polling ν → Prop where
  | arrive {s : Polling ν} {id : Nat} (role worker : String) (maxTasks : Nat)
      (hnew : s.polls.lookup id = none) :
      Step s (.arrive id role worker maxTasks)
        { s with polls := s.polls.insert id ⟨role, worker, maxTasks, .looking⟩ }
  | found {s : Polling ν} {id : Nat} {p : Poll} {first : String × Bytes}
      {rest : List (String × Bytes)} {now : Instant} {w : World} (hlock : s.ringing = [])
      (hpoll : s.polls.lookup id = some p) (hphase : p.phase = .looking)
      (hstep : Relay.Step settings readValue s.relay
        (.call (.poll p.role p.worker p.maxTasks) (.tasks (first :: rest)) now) w) :
      Step s (.look id (first :: rest) now) { s with relay := w, polls := s.polls.erase id }
  | sleep {s : Polling ν} {id : Nat} {p : Poll} {now : Instant} {w : World}
      (hlock : s.ringing = []) (hpoll : s.polls.lookup id = some p) (hphase : p.phase = .looking)
      (hstep : Relay.Step settings readValue s.relay
        (.call (.poll p.role p.worker p.maxTasks) (.tasks []) now) w) :
      Step s (.look id [] now) ({ s with relay := w }.sleep N id p)
  | wake {s : Polling ν} {id n : Nat} {p : Poll} {key : Key} (hpoll : s.polls.lookup id = some p)
      (hhandle : p.handle key = some n) (hready : (N.poll id (s.handles key n)).1 = true) :
      Step s (.wake id key)
        { (s.alter key n fun v => (N.poll id v).2).unwait N id p with
          polls := s.polls.insert id { p with phase := .looking } }
  | arm {s : Polling ν} {id n : Nat} {p : Poll} {key : Key} (hpoll : s.polls.lookup id = some p)
      (hhandle : p.handle key = some n) (hpending : (N.poll id (s.handles key n)).1 = false) :
      Step s (.arm id key) (s.alter key n fun v => (N.poll id v).2)
  | expire {s : Polling ν} {id own shared : Nat} {p : Poll} (hpoll : s.polls.lookup id = some p)
      (hphase : p.phase = .waiting own shared) :
      Step s (.expire id)
        { s.unwait N id p with polls := s.polls.insert id { p with phase := .late } }
  | last {s : Polling ν} {id : Nat} {p : Poll} {taken : List (String × Bytes)} {now : Instant}
      {w : World} (hlock : s.ringing = []) (hpoll : s.polls.lookup id = some p)
      (hphase : p.phase = .late)
      (hstep : Relay.Step settings readValue s.relay
        (.call (.pollDeadline p.role p.worker) (.tasks taken) now) w) :
      Step s (.last id taken now) { s with relay := w, polls := s.polls.erase id }
  | cancel {s : Polling ν} {id : Nat} {p : Poll} (hpoll : s.polls.lookup id = some p) :
      Step s (.cancel id) { s.unwait N id p with polls := s.polls.erase id }
  | call {s : Polling ν} {op : Op} {answer : Answer} {now : Instant} {w : World}
      (hlock : s.ringing = []) (hop : op.plain = true)
      (hstep : Relay.Step settings readValue s.relay (.call op answer now) w) :
      Step s (.call op answer now)
        { s with relay := w, ringing := signals settings readValue op now s.relay.inner }
  | ring {s : Polling ν} {signal : Signal} {rest : List Signal} (hringing : s.ringing = signal :: rest) :
      Step s .ring { s.ring N signal with ringing := rest }
  | rehash {s : Polling ν} {w : World} (hstep : Relay.Step settings readValue s.relay .rehash w) :
      Step s .rehash { s with relay := w }

end Distllm.Relay
