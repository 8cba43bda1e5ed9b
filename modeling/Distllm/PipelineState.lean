import Distllm.StageState

/-! The client of a pipeline. Every role is served by replicas with caches of their own; a schedule
decides which replica serves a request, whether its answer gets back, and what happens before: a
replica restarts or evicts the session, serves other sessions, or executes an earlier request of
the session once more. Rounds and the trace of executions are only recorded, never read. -/

namespace Distllm.Pipeline

open Stage

variable {τ η ℓ κ ρ σ : Type}

/-- The stages of a pipeline, role after role. -/
structure Deployment (τ η ℓ κ ρ : Type) where
  size : Nat
  model : Nat → Model τ η ℓ κ
  config : Nat → ρ → Config
  pos : 0 < size
  isFirst : ∀ i r, (config i r).isFirst = decide (i = 0)
  isLast : ∀ i r, (config i r).isLast = decide (i + 1 = size)

/-! ### The world -/

/-- A request that was sent, with the round of the client it belongs to. -/
structure Sent (τ η : Type) where
  role : Nat
  payload : Payload τ η
  round : Nat

/-- A request served by a replica: the sessions it found, the round in which the cache of the
session was last written, and the answer. -/
structure Execution (τ η ℓ κ ρ : Type) where
  sent : Sent τ η
  replica : ρ
  found : Sessions κ
  written : Nat
  result : Result τ η ℓ

structure World (τ η ℓ κ ρ : Type) where
  tables : Nat → ρ → Sessions κ
  written : Nat → ρ → Nat
  log : List (Sent τ η)
  trace : List (Execution τ η ℓ κ ρ)
  calls : Nat
  round : Nat

/-- Before anything of the session has been sent. -/
def World.init (tables : Nat → ρ → Sessions κ) : World τ η ℓ κ ρ :=
  ⟨tables, fun _ _ => 0, [], [], 0, 0⟩

inductive Act (τ η ρ : Type) where
  | drop (role : Nat) (replica : ρ)
  | lose (role : Nat) (replica : ρ)
  | other (role : Nat) (replica : ρ) (now : Instant) (req : Request τ η)
  | again (sent : Nat) (replica : ρ) (now : Instant)

/-- What becomes of a request: `lostBefore` and `lostAfter` raise a `TaskLostError`, before or
after it was executed; `failed` raises anything else. -/
inductive Fate where
  | answered
  | lostBefore
  | lostAfter
  | failed
  deriving DecidableEq

structure Turn (τ η ρ : Type) where
  acts : List (Act τ η ρ)
  replica : ρ
  now : Instant
  fate : Fate

abbrev Schedule (τ η ρ : Type) := Nat → Turn τ η ρ

section World

variable [DecidableEq ρ] (P : Deployment τ η ℓ κ ρ) (sessionId : String)

def place {α : Type} (f : Nat → ρ → α) (i : Nat) (r : ρ) (v : α) : Nat → ρ → α :=
  fun j q => if j = i ∧ q = r then v else f j q

def World.setTable (w : World τ η ℓ κ ρ) (i : Nat) (r : ρ) (s : Sessions κ) : World τ η ℓ κ ρ :=
  { w with tables := place w.tables i r s }

/-- Any answer but a miss has written the cache. -/
def wrote : Result τ η ℓ → Bool
  | .error _ | .ok (.cacheMiss _) => false
  | .ok _ => true

/-- Hidden states are a request for the next role. -/
def handedOn (sent : Sent τ η) : Result τ η ℓ → List (Sent τ η)
  | .ok (.hidden p) => [⟨sent.role + 1, p, sent.round⟩]
  | _ => []

/-- A replica executes a request. -/
def execute (sent : Sent τ η) (r : ρ) (now : Instant) (w : World τ η ℓ κ ρ) :
    Result τ η ℓ × World τ η ℓ κ ρ :=
  let i := sent.role
  let outcome := handle (P.config i r) (P.model i) now (w.tables i r) ⟨sent.payload, .none⟩
  (outcome.1,
    { tables := place w.tables i r outcome.2
      written := if wrote outcome.1 then place w.written i r sent.round else w.written
      log := w.log ++ handedOn sent outcome.1
      trace := w.trace ++ [⟨sent, r, w.tables i r, w.written i r, outcome.1⟩]
      calls := w.calls
      round := w.round })

def act (w : World τ η ℓ κ ρ) : Act τ η ρ → World τ η ℓ κ ρ
  | .drop i r => w.setTable i r dropSessions
  | .lose i r => w.setTable i r ((w.tables i r).erase sessionId)
  | .other i r now req =>
    if req.payload.sessionId = sessionId then w
    else w.setTable i r (handle (P.config i r) (P.model i) now (w.tables i r) req).2
  | .again n r now =>
    match w.log[n]? with
    | some sent => (execute P sent r now w).2
    | none => w

end World

/-! ### The client -/

inductive Reply (τ η ℓ : Type) where
  | lost
  | failed
  | answered (response : Response τ η ℓ)

/-- The value of a step, `None` on a cache miss, or an exception. -/
inductive Outcome (α : Type) where
  | value (v : α)
  | miss
  | failed

def Outcome.map {α β : Type} (f : α → β) : Outcome α → Outcome β
  | value v => value (f v)
  | miss => miss
  | failed => failed

section Client

variable [DecidableEq ρ] (P : Deployment τ η ℓ κ ρ) (sessionId : String) (sched : Schedule τ η ρ)

def call (i : Nat) (p : Payload τ η) (w : World τ η ℓ κ ρ) : Reply τ η ℓ × World τ η ℓ κ ρ :=
  let turn := sched w.calls
  let sent : Sent τ η := ⟨i, p, w.round⟩
  let w := turn.acts.foldl (act P sessionId)
    { w with calls := w.calls + 1, log := w.log ++ [sent] }
  match turn.fate with
  | .lostBefore => (.lost, w)
  | .failed => (.failed, w)
  | .lostAfter => (.lost, (execute P sent turn.replica turn.now w).2)
  | .answered =>
    match execute P sent turn.replica turn.now w with
    | (.ok response, w) => (.answered response, w)
    | (.error _, w) => (.failed, w)

/-- The response of the last role, or of the first that did not pass hidden states on. -/
def through : List Nat → Payload τ η → World τ η ℓ κ ρ → Reply τ η ℓ × World τ η ℓ κ ρ
  | [], p, w => (.answered (.hidden p), w)
  | i :: rest, p, w =>
    match call P sessionId sched i p w with
    | (.answered (.hidden next), w) => through rest next w
    | (reply, w) => (reply, w)

variable {α : Type}

/-- The value under the key; a response that is neither a miss nor has it raises. -/
def read (key : Response τ η ℓ → Option α) (response : Response τ η ℓ) : Outcome α :=
  match response with
  | .cacheMiss _ => .miss
  | _ => (key response).elim .failed .value

/-- Send the attempts one after the other, as long as they are lost. -/
def attempt (key : Response τ η ℓ → Option α) :
    List (Payload τ η) → World τ η ℓ κ ρ → Outcome α × World τ η ℓ κ ρ
  | [], w => (.miss, w)
  | p :: rest, w =>
    match through P sessionId sched (List.range P.size) p w with
    | (.lost, w) => attempt key rest w
    | (.failed, w) => (.failed, w)
    | (.answered response, w) => (read key response, w)

/-- A step that is lost is sent again with `rewind`. -/
def step (key : Response τ η ℓ → Option α) (p : Payload τ η) (w : World τ η ℓ κ ρ) :
    Outcome α × World τ η ℓ κ ρ :=
  attempt P sessionId sched key [p, { p with rewind := true }] w

def logitsKey : Response τ η ℓ → Option ℓ
  | .logits (row :: _) => some row
  | _ => none

/-- The last-token logits of new tokens. -/
def forward (startPos : Nat) (inputIds : List τ) (w : World τ η ℓ κ ρ) :
    Outcome ℓ × World τ η ℓ κ ρ :=
  step P sessionId sched logitsKey
    ⟨sessionId, false, some startPos, false, false, .tensor (.row [] inputIds), .missing⟩ w

def close (w : World τ η ℓ κ ρ) : World τ η ℓ κ ρ :=
  (List.range P.size).foldl (fun w i => (call P sessionId sched i
    ⟨sessionId, true, some 0, false, false, .missing, .missing⟩ w).2) w

/-- Run `again` on misses, so many times at most; the number of runs comes with the outcome. -/
def recover (again : World τ η ℓ κ ρ → Outcome α × World τ η ℓ κ ρ) :
    Nat → Outcome α × World τ η ℓ κ ρ → Outcome α × Nat × World τ η ℓ κ ρ
  | n, (.miss, w) =>
    match n with
    | 0 => (.failed, 0, w)
    | n + 1 =>
      let (outcome, runs, w) := recover again n (again w)
      (outcome, runs + 1, w)
  | _, (outcome, w) => (outcome, 0, w)

/-- The client's settings. `pick` samples a token, `audit` says whether a step is audited and
whether the audit passes. -/
structure Options (τ ℓ σ : Type) where
  maxRecoveries : Nat
  eos : τ → Bool
  pick : ℓ → σ → τ × σ
  audit : Nat → List τ → ℓ → Option Bool

structure GenerationResult (τ : Type) where
  tokenIds : List τ
  cacheRecoveries : Nat
  audits : Nat
  deriving DecidableEq

variable (opts : Options τ ℓ σ)

/-- The loop over the steps; `cached` positions are already held by the stages. -/
def generateLoop : Nat → Nat → List τ → Nat → σ → GenerationResult τ → World τ η ℓ κ ρ →
    Option (GenerationResult τ) × World τ η ℓ κ ρ
  | 0, _, _, _, _, result, w => (some result, w)
  | n + 1, i, sequence, cached, rng, result, w =>
    let w := { w with round := w.round + 1 }
    match recover (forward P sessionId sched 0 sequence) opts.maxRecoveries
        (forward P sessionId sched cached (sequence.drop cached) w) with
    | (.value logits, recoveries, w) =>
      match opts.audit i sequence logits with
      | some false => (none, w)
      | verdict =>
        let (token, rng) := opts.pick logits rng
        let result : GenerationResult τ :=
          ⟨result.tokenIds ++ [token], result.cacheRecoveries + recoveries,
            result.audits + verdict.elim 0 fun _ => 1⟩
        if opts.eos token then (some result, w)
        else generateLoop n (i + 1) (sequence ++ [token]) sequence.length rng result w
    | (_, _, w) => (none, w)

/-- Generate up to `maxNewTokens`; `none` when an exception is raised. -/
def generateTokens (inputIds : List τ) (maxNewTokens : Nat) (rng : σ) (w : World τ η ℓ κ ρ) :
    Option (GenerationResult τ) × World τ η ℓ κ ρ :=
  generateLoop P sessionId sched opts maxNewTokens 0 inputIds 0 rng ⟨[], 0, 0⟩ w

/-- Whatever happens, the session is closed in the end. -/
def generate (inputIds : List τ) (maxNewTokens : Nat) (rng : σ) (w : World τ η ℓ κ ρ) :
    Option (GenerationResult τ) × World τ η ℓ κ ρ :=
  let (result, w) := generateTokens P sessionId sched opts inputIds maxNewTokens rng w
  (result, close P sessionId sched w)

end Client
end Distllm.Pipeline
