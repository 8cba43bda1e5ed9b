import Mathlib.Data.Rat.Defs
import Distllm.PipelineState

/-! Spot checks of a generation. Beside the pipeline there are auditors, one for each of its roles;
a checked step is computed again from scratch through them, in a throwaway session, and when the
logits differ too much each stage of the pipeline takes its auditor's place in turn. The requests of
a check reach replicas that serve the generation too, as requests of another session. -/

namespace Distllm.Pipeline

open Stage

variable {τ η ℓ κ ρ σ : Type}

/-- Whose machines serve a role. -/
inductive Side where
  | pipeline
  | auditor
  deriving DecidableEq

/-- The roles of a pipeline and those of its auditors, with the same layer ranges. -/
structure Audited (τ η ℓ κ ρ : Type) where
  side : Side → Deployment τ η ℓ κ ρ
  mirror : (side .auditor).size = (side .pipeline).size

/-- `similarity` compares two rows of logits, with `none` for a result that is not a number. -/
structure AuditConfig (ℓ : Type) where
  rate : ℚ
  minSimilarity : ℚ
  locate : Bool
  similarity : ℓ → ℓ → Option ℚ
  rate_bounds : 0 ≤ rate ∧ rate ≤ 1

namespace AuditConfig

variable (audit : AuditConfig ℓ)

/-- Comparisons with something that is not a number are false, in either direction. -/
def agrees (a b : ℓ) : Bool := (audit.similarity a b).elim false (audit.minSimilarity ≤ ·)

def differs (a b : ℓ) : Bool := (audit.similarity a b).elim false (· < audit.minSimilarity)

end AuditConfig

/-- What the client sees of the machines: a world for each side, and how many throwaway sessions
it has used. -/
structure Sites (τ η ℓ κ ρ : Type) where
  world : Side → World τ η ℓ κ ρ
  checks : Nat

def Sites.setWorld (s : Sites τ η ℓ κ ρ) (b : Side) (w : World τ η ℓ κ ρ) : Sites τ η ℓ κ ρ :=
  { s with world := fun c => if c = b then w else s.world c }

section World

variable [DecidableEq ρ] (P : Deployment τ η ℓ κ ρ) (sessionId : String) (sched : Schedule τ η ρ)

/-- A request of a session that is not the client's generation. -/
def callOther (i : Nat) (p : Payload τ η) (w : World τ η ℓ κ ρ) :
    Reply τ η ℓ × World τ η ℓ κ ρ :=
  let turn := sched w.calls
  let w := turn.acts.foldl (act P sessionId) { w with calls := w.calls + 1 }
  let outcome := handle (P.config i turn.replica) (P.model i) turn.now (w.tables i turn.replica)
    ⟨p, .none⟩
  let served := w.setTable i turn.replica outcome.2
  match turn.fate with
  | .lostBefore => (.lost, w)
  | .failed => (.failed, w)
  | .lostAfter => (.lost, served)
  | .answered =>
    match outcome.1 with
    | .ok response => (.answered response, served)
    | .error _ => (.failed, served)

end World

section Client

variable [DecidableEq ρ] (A : Audited τ η ℓ κ ρ) (sessionId : String) (uuid : Nat → String)
  (sched : Side → Schedule τ η ρ)

/-- A role of a chain: a stage of the pipeline, or an auditor in its place. -/
abbrev Role := Side × Nat

def callRole (role : Role) (p : Payload τ η) (s : Sites τ η ℓ κ ρ) :
    Reply τ η ℓ × Sites τ η ℓ κ ρ :=
  let (reply, w) := callOther (A.side role.1) sessionId (sched role.1) role.2 p (s.world role.1)
  (reply, s.setWorld role.1 w)

def throughChain : List Role → Payload τ η → Sites τ η ℓ κ ρ → Reply τ η ℓ × Sites τ η ℓ κ ρ
  | [], p, s => (.answered (.hidden p), s)
  | role :: rest, p, s =>
    match callRole A sessionId sched role p s with
    | (.answered (.hidden next), s) => throughChain rest next s
    | (reply, s) => (reply, s)

def auditSession (n : Nat) : String := "audit-" ++ uuid n

def closeChain (auditId : String) (chain : List Role) (s : Sites τ η ℓ κ ρ) : Sites τ η ℓ κ ρ :=
  chain.foldl (fun s role => (callRole A sessionId sched role
    ⟨auditId, true, some 0, false, false, .missing, .missing⟩ s).2) s

/-- Last-position logits of a sequence through a chain, in a throwaway session; `none` when an
exception is raised. -/
def runFresh (chain : List Role) (sequence : List τ) (s : Sites τ η ℓ κ ρ) :
    Option ℓ × Sites τ η ℓ κ ρ :=
  let auditId := auditSession uuid s.checks
  let (reply, s) := throughChain A sessionId sched chain
    ⟨auditId, false, some 0, false, false, .tensor (.row [] sequence), .missing⟩
    { s with checks := s.checks + 1 }
  let s := closeChain A sessionId sched auditId chain s
  match reply with
  | .answered response => (logitsKey response, s)
  | _ => (none, s)

/-- The chain of the given sides, role after role. -/
def chainOf (sides : Nat → Side) : List Role :=
  (List.range (A.side .pipeline).size).map fun i => (sides i, i)

def auditors : Nat → Side := fun _ => .auditor

/-- One stage of the pipeline among the auditors. -/
def swapped (i : Nat) : Nat → Side := fun j => if j = i then .pipeline else .auditor

variable (audit : AuditConfig ℓ)

/-- Each stage in its auditor's place, one after the other. -/
def locate (sequence : List τ) (reference : ℓ) : List Nat → List Nat → Sites τ η ℓ κ ρ →
    Option (List Nat) × Sites τ η ℓ κ ρ
  | [], suspects, s => (some suspects, s)
  | i :: rest, suspects, s =>
    match runFresh A sessionId uuid sched (chainOf A (swapped i)) sequence s with
    | (none, s) => (none, s)
    | (some row, s) =>
      locate sequence reference rest
        (if audit.differs row reference then suspects ++ [i] else suspects) s

/-- Why a generation ends with an exception. -/
inductive Stop where
  | failed
  | verification (suspects : List Nat)
  deriving DecidableEq

def check (sequence : List τ) (logits : ℓ) (s : Sites τ η ℓ κ ρ) :
    Except Stop Unit × Sites τ η ℓ κ ρ :=
  match runFresh A sessionId uuid sched (chainOf A auditors) sequence s with
  | (none, s) => (.error .failed, s)
  | (some reference, s) =>
    if audit.agrees logits reference then (.ok (), s)
    else if audit.locate then
      match locate A sessionId uuid sched audit sequence reference
          (List.range (A.side .pipeline).size) [] s with
      | (none, s) => (.error .failed, s)
      | (some suspects, s) => (.error (.verification suspects), s)
    else (.error (.verification []), s)

/-- The settings of a client. `draws` are the numbers that decide which steps are checked. -/
structure Settings (τ ℓ σ : Type) where
  useKvCache : Bool
  maxRecoveries : Nat
  eos : τ → Bool
  pick : ℓ → σ → τ × σ
  audit : Option (AuditConfig ℓ)
  draws : Nat → ℚ

variable (opts : Settings τ ℓ σ)

/-- The audit that a step is checked with, if it is. -/
def Settings.audits (i : Nat) : Option (AuditConfig ℓ) :=
  opts.audit.filter fun audit => decide (opts.draws i < audit.rate)

/-- The logits of the next step and how often the prefix was replayed. Without the cache the whole
sequence is sent every time, and a miss is an error. -/
def stepLogits (sequence : List τ) (cached : Nat) (w : World τ η ℓ κ ρ) :
    Outcome ℓ × Nat × World τ η ℓ κ ρ :=
  let P := A.side .pipeline
  if opts.useKvCache then
    recover (forward P sessionId (sched .pipeline) 0 sequence) opts.maxRecoveries
      (forward P sessionId (sched .pipeline) cached (sequence.drop cached) w)
  else
    let (outcome, w) := forward P sessionId (sched .pipeline) 0 sequence w
    (outcome, 0, w)

def auditedLoop : Nat → Nat → List τ → Nat → σ → GenerationResult τ → Sites τ η ℓ κ ρ →
    Except Stop (GenerationResult τ) × Sites τ η ℓ κ ρ
  | 0, _, _, _, _, result, s => (.ok result, s)
  | n + 1, i, sequence, cached, rng, result, s =>
    let w := s.world .pipeline
    match stepLogits A sessionId sched opts sequence cached { w with round := w.round + 1 } with
    | (.value logits, recoveries, w) =>
      let s := s.setWorld .pipeline w
      let (checked, s) := match opts.audits i with
        | some audit => check A sessionId uuid sched audit sequence logits s
        | none => (.ok (), s)
      match checked with
      | .error stop => (.error stop, s)
      | .ok _ =>
        let (token, rng) := opts.pick logits rng
        let result : GenerationResult τ :=
          ⟨result.tokenIds ++ [token], result.cacheRecoveries + recoveries,
            result.audits + (opts.audits i).elim 0 fun _ => 1⟩
        if opts.eos token then (.ok result, s)
        else auditedLoop n (i + 1) (sequence ++ [token]) sequence.length rng result s
    | (_, _, w) => (.error .failed, s.setWorld .pipeline w)

/-- Generate up to `maxNewTokens` with checks on the way; the session is closed in the end. -/
def generateAudited (inputIds : List τ) (maxNewTokens : Nat) (rng : σ) (s : Sites τ η ℓ κ ρ) :
    Except Stop (GenerationResult τ) × Sites τ η ℓ κ ρ :=
  let (result, s) := auditedLoop A sessionId uuid sched opts maxNewTokens 0 inputIds 0 rng
    ⟨[], 0, 0⟩ s
  (result, s.setWorld .pipeline
    (close (A.side .pipeline) sessionId (sched .pipeline) (s.world .pipeline)))

end Client
end Distllm.Pipeline
