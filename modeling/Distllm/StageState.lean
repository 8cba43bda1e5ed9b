import Mathlib.Algebra.GroupWithZero.Nat
import Distllm.Table

/-! A pipeline stage: a slice of the layers of a model with a bounded table of key/value caches,
one per session. The transformer itself is a parameter: what one pass returns for its inputs and
an earlier cache, and which columns it adds to each layer. The table is kept with the most
recently used session first. A pass, a crop and the output may raise: where they do is part of
each request. -/

namespace Distllm.Stage

variable {τ η ℓ κ : Type}

abbrev Instant := Int

/-! ### Payloads and answers -/

/-- A tensor: its shape, and its positions row after row. -/
structure Tensor (α : Type) where
  shape : List Nat
  items : List α

namespace Tensor

variable {α : Type}

/-- One row of positions; `rest` is the shape of a position. -/
def row (rest : List Nat) (items : List α) : Tensor α := ⟨1 :: items.length :: rest, items⟩

def rows (t : Tensor α) : Option Nat := t.shape[0]?

def seqLen (t : Tensor α) : Option Nat := t.shape[1]?

/-- The positions of the first row; indexing raises when there is none. -/
def firstRow (t : Tensor α) : Option (List α) :=
  match t.shape with
  | (_ + 1) :: n :: _ => some (t.items.take n)
  | _ => none

/-- The last position of every row; indexing raises when a row has none. -/
def lastOfRows (t : Tensor α) : Option (List α) :=
  match t.shape with
  | rows :: (n + 1) :: _ => some ((List.range rows).filterMap fun r => t.items[r * (n + 1) + n]?)
  | _ => none

end Tensor

/-- What a payload has under a key. -/
inductive Entry (α : Type) where
  | missing
  | none
  | other
  | tensor (t : Tensor α)

/-- The part of a payload that a stage reads. `sessionId` is empty when the payload has none;
`startPos` is 0 by default, and `none` when it is not a number. -/
structure Payload (τ η : Type) where
  sessionId : String
  close : Bool
  startPos : Option Int
  rewind : Bool
  argmax : Bool
  inputIds : Entry τ
  hiddenStates : Entry η

inductive Response (τ η ℓ : Type) where
  | closed
  | cacheMiss (cached : Int)
  | argmax (tokens : List τ)
  | logits (rows : List ℓ)
  | hidden (payload : Payload τ η)

inductive ModelCall where
  | crop
  | base
  | output
  deriving DecidableEq, Repr

inductive Exc where
  | valueError (message : String)
  | typeError
  | attributeError
  | indexError
  | keyError (key : String)
  | runtimeError
  | model (call : ModelCall)
  deriving DecidableEq, Repr

/-- Concatenating the values under a key raises unless they are tensors. -/
def Entry.cat {α : Type} (keyMissing : Exc) : Entry α → Except Exc (Tensor α)
  | missing => .error keyMissing
  | none | other => .error .typeError
  | tensor t => .ok t

/-- The shape of what `get` finds, if it finds anything. -/
def Entry.shape {α : Type} : Entry α → Except Exc (Option (List Nat))
  | missing | none => .ok .none
  | other => .error .attributeError
  | tensor t => .ok (some t.shape)

abbrev Result (τ η ℓ : Type) := Except Exc (Response τ η ℓ)

/-- Which model calls of a request raise; a crop raises after a number of layers. -/
structure Faults where
  crop : Option Nat
  base : Bool
  output : Bool

def Faults.none : Faults := ⟨.none, false, false⟩

@[simp] theorem Faults.none_crop : Faults.none.crop = .none := rfl
@[simp] theorem Faults.none_base : Faults.none.base = false := rfl
@[simp] theorem Faults.none_output : Faults.none.output = false := rfl

structure Request (τ η : Type) where
  payload : Payload τ η
  faults : Faults

/-! ### Caches -/

/-- A layer of a cache with the columns of the positions it has seen. -/
structure Layer (κ : Type) where
  dynamic : Bool
  initialized : Bool
  columns : List κ
  deriving DecidableEq

/-- `items[:n]` -/
def sliceTo {α : Type} (items : List α) (n : Int) : List α :=
  if n < 0 then items.take (items.length + n).toNat else items.take n.toNat

/-- Keep the first `n` positions; a negative number removes that many, and where there are fewer the
slice counts them from the end once more. -/
def Layer.crop (n : Int) (layer : Layer κ) : Layer κ :=
  { layer with columns := sliceTo layer.columns (if n < 0 then layer.columns.length + n else n) }

theorem Layer.crop_of_nonneg {n : Int} (hn : 0 ≤ n) (layer : Layer κ) :
    layer.crop n = { layer with columns := layer.columns.take n.toNat } := by
  have hn' : ¬n < 0 := Int.not_lt.mpr hn
  rw [Layer.crop, if_neg hn', sliceTo, if_neg hn']

def Layer.update (layer : Layer κ) (new : List κ) : Layer κ :=
  { layer with initialized := true, columns := layer.columns ++ new }

abbrev Cache (κ : Type) := List (Layer κ)

namespace Cache

def crop (n : Int) (cache : Cache κ) : Cache κ := cache.map (Layer.crop n)

/-- A crop that raises after `k` layers. -/
def cropPart (k : Nat) (n : Int) (cache : Cache κ) : Cache κ :=
  (cache.take k).map (Layer.crop n) ++ cache.drop k

def append (cache : Cache κ) (new : List (List κ)) : Cache κ :=
  List.zipWith Layer.update cache new

end Cache

/-! ### The model -/

inductive Inputs (τ η : Type) where
  | inputIds (t : Tensor τ)
  | inputsEmbeds (t : Tensor η)

def Inputs.shape : Inputs τ η → List Nat
  | inputIds t => t.shape
  | inputsEmbeds t => t.shape

def Inputs.rows (new : Inputs τ η) : Option Nat := new.shape[0]?

def Inputs.seqLen (new : Inputs τ η) : Option Nat := new.shape[1]?

/-- The transformer of a stage: `kinds` says which layers of a fresh cache are plain dynamic ones,
`base` is one pass (inputs, first position, cache; hidden states and new columns for each layer),
`baseRows` one pass over several sessions. A pass returns a hidden state for every new position of
every row and adds a column for it to every layer. -/
structure Model (τ η ℓ κ : Type) where
  kinds : List Bool
  base : Inputs τ η → Int → Cache κ → Tensor η × List (List κ)
  baseRows : List (Inputs τ η × Int × Cache κ) → List (Tensor η × List (List κ))
  lmHead : η → ℓ
  argmax : ℓ → τ
  base_rows : ∀ inputs start cache, (base inputs start cache).1.rows = inputs.rows
  base_seqLen : ∀ inputs start cache, (base inputs start cache).1.seqLen = inputs.seqLen
  base_layers : ∀ inputs start cache, (base inputs start cache).2.length = cache.length
  base_columns : ∀ inputs start cache, ∀ new ∈ (base inputs start cache).2,
    new.length = inputs.seqLen.getD 0
  baseRows_length : ∀ rows : List (Inputs τ η × Int × Cache κ),
    (baseRows rows).length = rows.length
  baseRows_columns : ∀ rows : List (Inputs τ η × Int × Cache κ),
    ∀ row ∈ rows.zip (baseRows rows),
    row.2.2.length = row.1.2.2.length ∧ ∀ new ∈ row.2.2, new.length = row.1.1.seqLen.getD 0

def Model.freshCache (M : Model τ η ℓ κ) : Cache κ :=
  M.kinds.map fun dynamic => ⟨dynamic, false, []⟩

def Inputs.items {α : Type} : Inputs α α → List α
  | inputIds t => t.items
  | inputsEmbeds t => t.items

/-- A model that can be run: one layer that keeps its inputs, and a position's hidden state is the
sum of the inputs up to it. -/
def prefixSum : Model Nat Nat Nat Nat :=
  let pass (new : Inputs Nat Nat) (_ : Int) (cache : Cache Nat) : Tensor Nat × List (List Nat) :=
    let n := new.seqLen.getD 0
    let items := (List.range n).map fun i => new.items.getD i 0
    let past := cache.headD ⟨true, true, []⟩
    (⟨new.shape.take 2, (List.range n).map fun i => past.columns.sum + (items.take (i + 1)).sum⟩,
      cache.map fun _ => items)
  { kinds := [true]
    base := pass
    baseRows := List.map fun (new, start, cache) => pass new start cache
    lmHead := id
    argmax := id
    base_rows := fun _ _ _ => List.getElem?_take_of_lt Nat.zero_lt_two
    base_seqLen := fun _ _ _ => List.getElem?_take_of_lt Nat.one_lt_two
    base_layers := by
      intro new start cache
      exact List.length_map _
    base_columns := by
      intro new start cache col hcol
      obtain ⟨_, _, rfl⟩ := List.mem_map.mp hcol
      rw [List.length_map, List.length_range]
    baseRows_length := fun rows => List.length_map _
    baseRows_columns := by
      rintro rows ⟨⟨new, start, cache⟩, hidden, columns⟩ hrow
      obtain ⟨i, hi⟩ := List.mem_iff_getElem?.mp hrow
      obtain ⟨hrow, hpass⟩ := List.getElem?_zip_eq_some.mp hi
      rw [List.getElem?_map, hrow] at hpass
      cases hpass
      refine ⟨List.length_map _, fun col hcol => ?_⟩
      obtain ⟨_, _, rfl⟩ := List.mem_map.mp hcol
      rw [List.length_map, List.length_range] }

/-! ### The stage -/

structure Config where
  isFirst : Bool
  isLast : Bool
  maxSessions : Nat
  sessionTtl : Int
  minBatch : Nat

structure Session (κ : Type) where
  cache : Cache κ
  length : Int
  lastUsed : Instant
  deriving DecidableEq

abbrev Sessions (κ : Type) := AList fun _ : String => Session κ

variable (cfg : Config) (M : Model τ η ℓ κ)

/-- Drop idle sessions, then the least recently used ones beyond the bound. -/
def evict (now : Instant) (s : Sessions κ) : Sessions κ :=
  (s.retain fun _ sess => !decide (now - sess.lastUsed > cfg.sessionTtl)).keepFirst cfg.maxSessions

def inputs (p : Payload τ η) : Except Exc (Inputs τ η) :=
  if cfg.isFirst then
    (p.inputIds.cat (.valueError "first stage expects 'input_ids'")).map .inputIds
  else (p.hiddenStates.cat (.valueError "stage expects 'hidden_states'")).map .inputsEmbeds

/-- The payload an intermediate stage makes for the next one: the control keys and its output. -/
def handOn (p : Payload τ η) (hidden : Tensor η) : Payload τ η :=
  { p with close := false, inputIds := .missing, hiddenStates := .tensor hidden }

def output (p : Payload τ η) (hidden : Tensor η) : Result τ η ℓ :=
  if cfg.isLast && p.argmax then
    match hidden.firstRow with
    | some first => .ok (.argmax (first.map fun h => M.argmax (M.lmHead h)))
    | none => .error .indexError
  else if cfg.isLast then
    match hidden.lastOfRows with
    | some last => .ok (.logits (last.map M.lmHead))
    | none => .error .indexError
  else .ok (.hidden (handOn p hidden))

/-- Run the new tokens on a session whose cache ends at `start`. A pass that raises drops the
stored session; an output that raises leaves the stored cache with the new columns. -/
def advance (now : Instant) (s : Sessions κ) (req : Request τ η) (start : Int)
    (cache : Cache κ) : Result τ η ℓ × Sessions κ :=
  let p := req.payload
  match inputs cfg p with
  | .error e => (.error e, s)
  | .ok new =>
    match new.seqLen with
    | none => (.error .indexError, s)
    | some newTokens =>
      if req.faults.base then (.error (.model .base), s.erase p.sessionId)
      else
        let (hidden, columns) := M.base new start cache
        let cache := cache.append columns
        let result := if req.faults.output then .error (.model .output) else output cfg M p hidden
        match result with
        | .error e =>
          (.error e, if start = 0 then s
            else s.modify p.sessionId fun sess => { sess with cache := cache })
        | .ok answer =>
          (.ok answer, evict cfg now (s.insert p.sessionId ⟨cache, start + newTokens, now⟩))

def handle (now : Instant) (s : Sessions κ) (req : Request τ η) : Result τ η ℓ × Sessions κ :=
  let p := req.payload
  if p.sessionId = "" then (.error (.valueError "payload must contain 'session_id'"), s)
  else if p.close then (.ok .closed, s.erase p.sessionId)
  else match p.startPos with
    | none => (.error .typeError, s)
    | some start =>
      if start = 0 then advance cfg M now s req 0 M.freshCache
      else match s.lookup p.sessionId with
        | none => (.ok (.cacheMiss 0), s)
        | some sess =>
          if p.rewind = true ∧ start < sess.length then
            match req.faults.crop with
            | some k =>
              (.error (.model .crop), s.modify p.sessionId fun sess =>
                { sess with cache := sess.cache.cropPart k start })
            | none =>
              let s := s.modify p.sessionId fun sess =>
                { sess with cache := sess.cache.crop start, length := start }
              advance cfg M now s req start (sess.cache.crop start)
          else if sess.length ≠ start then (.ok (.cacheMiss sess.length), s)
          else advance cfg M now s req start sess.cache

def dropSessions : Sessions κ := ∅

/-! ### Batches -/

/-- A decode step: one new token at the end of an existing, plain cache. -/
def batchable (s : Sessions κ) (p : Payload τ η) : Except Exc Bool :=
  if p.close then .ok false
  else match p.startPos with
    | none => .error .typeError
    | some start =>
      match s.lookup p.sessionId with
      | none => .ok false
      | some sess =>
        if start = 0 ∨ sess.length ≠ start then .ok false
        else
          match if cfg.isFirst then p.inputIds.shape else p.hiddenStates.shape with
          | .error e => .error e
          | .ok (some (1 :: 1 :: _)) =>
            .ok (sess.cache.all fun layer => layer.dynamic && layer.initialized)
          | .ok _ => .ok false

/-- The requests with whether they are batched; `none` of them when there are too few. -/
def selectBatch (s : Sessions κ) (reqs : List (Request τ η)) :
    Except Exc (List (Request τ η × Bool)) := do
  let ids := reqs.map fun req => req.payload.sessionId
  let chosen ← reqs.mapM fun req =>
    if ids.count req.payload.sessionId = 1 then batchable cfg s req.payload else .ok false
  let few := chosen.count true < max 2 cfg.minBatch
  return reqs.zip (if few then chosen.map fun _ => false else chosen)

/-- The requests that are not batched, one by one, in order. -/
def handleOthers (now : Instant) :
    List (Request τ η × Bool) → Sessions κ → List (Option (Result τ η ℓ)) × Sessions κ
  | [], s => ([], s)
  | (_, true) :: rest, s =>
    let (results, s) := handleOthers now rest s
    (none :: results, s)
  | (req, false) :: rest, s =>
    let (result, s) := handle cfg M now s req
    let (results, s) := handleOthers now rest s
    (some result :: results, s)

/-- The stored sessions of the batched payloads. -/
def batchSessions (s : Sessions κ) : List (Payload τ η) → Except Exc (List (Session κ))
  | [] => .ok []
  | p :: rest =>
    match s.lookup p.sessionId with
    | none => .error (.keyError p.sessionId)
    | some sess => (batchSessions s rest).map (sess :: ·)

/-- Every session keeps its own cache, now one token longer, and becomes the most recent one. -/
def storeBatch (now : Instant) :
    List (Payload τ η × Session κ × List (List κ)) → Sessions κ → Sessions κ
  | [], s => s
  | (p, sess, columns) :: rest, s =>
    storeBatch now rest (s.insert p.sessionId ⟨sess.cache.append columns, sess.length + 1, now⟩)

/-- One pass for the decode steps of several sessions; `fault` says whether a model call of it
raises. -/
def decodeBatch (now : Instant) (s : Sessions κ) (ps : List (Payload τ η)) (fault : Bool) :
    Except Exc (List (Response τ η ℓ) × Sessions κ) := do
  let sessions ← batchSessions s ps
  let news ← ps.mapM (inputs cfg)
  if fault then throw (.model .base)
  let rows := M.baseRows ((news.zip sessions).map fun (new, sess) => (new, sess.length, sess.cache))
  let answers ← (ps.zip rows).mapM fun (p, hidden, _) => output cfg M p hidden
  let s := storeBatch now ((ps.zip (sessions.zip rows)).map fun (p, sess, _, columns) =>
    (p, sess, columns)) s
  return (answers, evict cfg now s)

/-- Put the answers of the batch at their places. -/
def fill : List (Option (Result τ η ℓ)) → List (Result τ η ℓ) → List (Option (Result τ η ℓ))
  | [], _ => []
  | some result :: rest, answers => some result :: fill rest answers
  | none :: rest, answer :: answers => some answer :: fill rest answers
  | none :: rest, [] => none :: fill rest []

/-- Drop the sessions of the batched payloads. -/
def dropBatch (ps : List (Payload τ η)) (s : Sessions κ) : Sessions κ :=
  ps.foldl (fun s p => s.erase p.sessionId) s

/-- The whole call raises only where the selection does. When the batched pass raises, the caches
of its sessions may be half-updated: they are dropped. -/
def handleBatch (now : Instant) (s : Sessions κ) (reqs : List (Request τ η)) (batchFault : Bool) :
    Except Exc (List (Option (Result τ η ℓ))) × Sessions κ :=
  match selectBatch cfg s reqs with
  | .error e => (.error e, s)
  | .ok chosen =>
    let (results, s) := handleOthers cfg M now chosen s
    let batch := (chosen.filter Prod.snd).map fun pair => pair.1.payload
    if batch = [] then (.ok results, s)
    else
      match decodeBatch cfg M now s batch batchFault with
      | .ok (answers, s) => (.ok (fill results (answers.map .ok)), s)
      | .error e => (.ok (fill results (batch.map fun _ => .error e)), dropBatch batch s)

end Distllm.Stage
