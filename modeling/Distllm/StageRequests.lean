import Distllm.StagePadding

/-! Requests as clients send them: a field of a payload may hold any value, and reading it may
raise. In `handle` that is the request's own failure. A batch reads fields of all its requests
before it handles any, and runs one pass for several of them: what raises there fails requests that
had nothing wrong with them. -/

namespace Distllm.Stage

variable {τ η ℓ κ : Type}

/-! ### Raw payloads -/

/-- A decoded value as far as a stage reads it: `bool(x)`, `int(x)`, `str(x)`, and `bool(x == text)`,
which is an error for an array of several elements. -/
structure Value where
  truth : Except Exc Bool
  toInt : Except Exc Int
  text : String
  equals : String → Except Exc Bool

/-- A number. -/
def Value.int (n : Int) : Value := ⟨.ok (decide (n ≠ 0)), .ok n, toString n, fun _ => .ok false⟩

/-- A text that is no number. -/
def Value.word (text : String) : Value :=
  ⟨.ok (decide (text ≠ "")),
    .error (.valueError ("invalid literal for int() with base 10: '" ++ text ++ "'")), text,
    fun other => .ok (decide (text = other))⟩

/-- A payload, as a dictionary; what is missing has no value. -/
structure Raw (τ η : Type) where
  sessionId : Option Value
  close : Option Value
  startPos : Option Value
  rewind : Option Value
  output : Option Value
  inputIds : Entry τ
  hiddenStates : Entry η

/-- `bool(payload.get(key))` -/
def truthOf : Option Value → Except Exc Bool
  | none => .ok false
  | some v => v.truth

/-- What could be read, and `False` otherwise. -/
def orFalse : Except Exc Bool → Bool
  | .ok b => b
  | .error _ => false

namespace Raw

/-- `str(payload.get("session_id") or "")` -/
def id (r : Raw τ η) : Except Exc String :=
  match r.sessionId with
  | none => .ok ""
  | some v => v.truth.map fun truth => if truth then v.text else ""

/-- `int(payload.get("start_pos", 0))` -/
def start (r : Raw τ η) : Except Exc Int :=
  match r.startPos with
  | none => .ok 0
  | some v => v.toInt

/-- `payload.get("output") == "argmax"` -/
def isArgmax (r : Raw τ η) : Except Exc Bool :=
  match r.output with
  | none => .ok false
  | some v => v.equals "argmax"

/-- The payload with what has been read, of a request that does not close its session. -/
def read (r : Raw τ η) (id : String) (start : Int) : Payload τ η :=
  ⟨id, false, some start, orFalse (truthOf r.rewind), orFalse r.isArgmax, r.inputIds,
    r.hiddenStates⟩

/-- Only the last stage looks at `output`, when it has run the pass. -/
def outputError (cfg : Config) (r : Raw τ η) : Option Exc :=
  match cfg.isLast, r.isArgmax with
  | true, .error e => some e
  | _, _ => none

end Raw

variable (cfg : Config) (M : Model τ η ℓ κ) (pass : Pass τ η κ) (zero : κ)

/-- One request, in which no model call raises. -/
def handleRaw (now : Instant) (s : Sessions κ) (r : Raw τ η) : Result τ η ℓ × Sessions κ :=
  match r.id with
  | .error e => (.error e, s)
  | .ok id =>
    if id = "" then (.error (.valueError "payload must contain 'session_id'"), s)
    else match truthOf r.close with
    | .error e => (.error e, s)
    | .ok true => (.ok .closed, s.erase id)
    | .ok false => match r.start with
      | .error e => (.error e, s)
      | .ok start =>
        -- `rewind` is looked at only when there is a session to rewind
        match if start ≠ 0 ∧ id ∈ s then truthOf r.rewind else .ok false with
        | .error e => (.error e, s)
        | .ok _ =>
          match r.outputError cfg with
          | none => handle cfg M now s ⟨r.read id start, .none⟩
          | some e =>
            let (result, s) := handle cfg M now s ⟨r.read id start, ⟨none, false, true⟩⟩
            (result.mapError fun e' => if e' = .model .output then e else e', s)

/-! ### Raw batches -/

def batchableRaw (s : Sessions κ) (id : String) (r : Raw τ η) :
    Except Exc (Option (Payload τ η)) := do
  if ← truthOf r.close then return none
  let start ← r.start
  let p := r.read id start
  return if ← batchable cfg s p then some p else none

/-- The requests, with what has been read of those that are batched. -/
def selectRaw (s : Sessions κ) (rs : List (Raw τ η)) :
    Except Exc (List (Raw τ η × Option (Payload τ η))) := do
  let ids ← rs.mapM Raw.id
  let chosen ← (rs.zip ids).mapM fun (r, id) =>
    if ids.count id = 1 then batchableRaw cfg s id r else .ok none
  let few := chosen.countP Option.isSome < max 2 cfg.minBatch
  return rs.zip (if few then chosen.map fun _ => none else chosen)

def handleOthersRaw (now : Instant) : List (Raw τ η × Option (Payload τ η)) → Sessions κ →
    List (Option (Result τ η ℓ)) × Sessions κ
  | [], s => ([], s)
  | (_, some _) :: rest, s =>
    let (results, s) := handleOthersRaw now rest s
    (none :: results, s)
  | (r, none) :: rest, s =>
    let (result, s) := handleRaw cfg M now s r
    let (results, s) := handleOthersRaw now rest s
    (some result :: results, s)

/-- The batched requests with what has been read of them. -/
def batchOf (chosen : List (Raw τ η × Option (Payload τ η))) : List (Raw τ η × Payload τ η) :=
  chosen.filterMap fun (r, read) => read.map fun p => (r, p)

/-- The padded pass; the outputs are made after it, row after row. -/
def decodeRaw (now : Instant) (s : Sessions κ) (batch : List (Raw τ η × Payload τ η)) :
    Except Exc (List (Response τ η ℓ) × Sessions κ) := do
  let (answers, s) ← decodePadded cfg M pass zero now s (batch.map Prod.snd)
  match batch.findSome? fun (r, _) => r.outputError cfg with
  | some e => throw e
  | none => return (answers, s)

def handleBatchRaw (now : Instant) (s : Sessions κ) (rs : List (Raw τ η)) :
    Except Exc (List (Option (Result τ η ℓ))) × Sessions κ :=
  match selectRaw cfg s rs with
  | .error e => (.error e, s)
  | .ok chosen =>
    let (results, s) := handleOthersRaw cfg M now chosen s
    let batch := batchOf chosen
    if batch.isEmpty then (.ok results, s)
    else
      match decodeRaw cfg M pass zero now s batch with
      | .ok (answers, s) => (.ok (fill results (answers.map .ok)), s)
      | .error e => (.ok (fill results (batch.map fun _ => .error e)),
          dropBatch (batch.map Prod.snd) s)

/-! ### One by one -/

def handleAllRaw (now : Instant) : List (Raw τ η) → Sessions κ → List (Result τ η ℓ) × Sessions κ
  | [], s => ([], s)
  | r :: rest, s =>
    let (result, s) := handleRaw cfg M now s r
    let (results, s) := handleAllRaw now rest s
    (result :: results, s)

/-- The requests that are not batched, in order, and then the batched ones; when no selection can be
made, all in order. -/
def oneByOneRaw (now : Instant) (s : Sessions κ) (rs : List (Raw τ η)) :
    List (Option (Result τ η ℓ)) × Sessions κ :=
  match selectRaw cfg s rs with
  | .error _ =>
    let (results, s) := handleAllRaw cfg M now rs s
    (results.map some, s)
  | .ok chosen =>
    let (results, s) := handleOthersRaw cfg M now chosen s
    let (answers, s) := handleAllRaw cfg M now ((batchOf chosen).map Prod.fst) s
    (fill results answers, s)

/-- An entry that is an exception. -/
def Raised (entry : Option (Result τ η ℓ)) : Prop := ∃ e, entry = some (.error e)

/-- One by one the session would still be there, and it is not too old to be kept. -/
def Alive (now : Instant) (s : Sessions κ) (id : String) : Prop :=
  0 ≤ cfg.sessionTtl ∧ ∃ sess, s.lookup id = some sess ∧ Fresh cfg now sess

/-- Every request has its entry, which is an exception only where the request raises by itself, and
a session that is lost although it would be there one by one is that of a request that raised. -/
def Confined (now : Instant) (s : Sessions κ) (rs : List (Raw τ η)) : Prop :=
  ∃ results, (handleBatchRaw cfg M pass zero now s rs).1 = .ok results ∧
    results.length = rs.length ∧
    List.Forall₂ (fun entry alone => Raised entry → Raised alone) results
      (oneByOneRaw cfg M now s rs).1 ∧
    ∀ id, Alive cfg now (oneByOneRaw cfg M now s rs).2 id →
      id ∈ (handleBatchRaw cfg M pass zero now s rs).2 ∨
        ∃ pair ∈ rs.zip results, pair.1.id = .ok id ∧ Raised pair.2

end Distllm.Stage
