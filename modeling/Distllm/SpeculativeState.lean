import Distllm.Decoding
import Distllm.PipelineState

/-! Speculative decoding over a pipeline. A draft model on the client proposes tokens, the pipeline
runs the pending tokens and the whole proposal in one request that rewinds, and gives the target
model's greedy choice at every position. What agrees is accepted, with one token of the target. -/

namespace Distllm.Speculative

open Stage Decoding Pipeline

variable {τ η ℓ κ ρ δ : Type}

/-! ### The draft model -/

/-- The local model: feed new tokens to a cache and take the greedy choice after the last one. -/
structure DraftModel (τ δ : Type) where
  run : List τ → δ → τ × δ
  crop : Nat → δ → δ

structure Draft (δ : Type) where
  cache : δ
  length : Nat

section Draft

variable (D : DraftModel τ δ)

def Draft.crop (n : Nat) (d : Draft δ) : Draft δ :=
  if d.length > n then ⟨D.crop n d.cache, n⟩ else d

/-- Feed the new tokens, and then every proposed token but the last. -/
def proposeLoop : Nat → List τ → Draft δ → List τ × Draft δ
  | 0, _, d => ([], d)
  | k + 1, new, d =>
    let (token, cache) := D.run new d.cache
    let (rest, d) := proposeLoop k [token] ⟨cache, d.length + new.length⟩
    (token :: rest, d)

/-- Greedy `k` tokens continuing the sequence; the cache is reused for the common part. -/
def propose (sequence : List τ) (k : Nat) (d : Draft δ) : List τ × Draft δ :=
  let d := d.crop D (min d.length (sequence.length - 1))
  proposeLoop D k (sequence.drop d.length) d

/-- Keep no more positions than are valid. -/
def accept (validLength : Nat) (d : Draft δ) : Draft δ := d.crop D validLength

end Draft

/-! ### The client -/

def argmaxKey : Response τ η ℓ → Option (List τ)
  | .argmax tokens => some tokens
  | _ => none

structure Options (τ : Type) where
  k : Nat
  maxRecoveries : Nat
  eos : τ → Bool
  k_pos : 1 ≤ k

structure SpeculativeResult (τ : Type) where
  tokenIds : List τ
  cacheRecoveries : Nat
  rounds : Nat
  proposedDraftTokens : Nat
  acceptedDraftTokens : Nat
  deriving DecidableEq

section Client

variable [DecidableEq ρ] [DecidableEq τ] (P : Deployment τ η ℓ κ ρ) (sessionId : String)
  (sched : Schedule τ η ρ) (D : DraftModel τ δ) (opts : Options τ)

def verify (startPos : Nat) (tokens : List τ) (w : World τ η ℓ κ ρ) :
    Outcome (List τ) × World τ η ℓ κ ρ :=
  step P sessionId sched argmaxKey
    ⟨sessionId, false, some startPos, true, true, .tensor (.row [] tokens), .missing⟩ w

/-- Replay everything from scratch; the part from `cached` on is what the lost request asked for. -/
def replay (cached : Nat) (full : List τ) (w : World τ η ℓ κ ρ) :
    Outcome (List τ) × World τ η ℓ κ ρ :=
  let (outcome, w) := verify P sessionId sched 0 full w
  (outcome.map fun target => target.drop cached, w)

/-- The loop over the rounds, at most `fuel` of them. -/
def generateLoop (maxNewTokens : Nat) : Nat → List τ → Nat → Draft δ → SpeculativeResult τ →
    World τ η ℓ κ ρ → Option (SpeculativeResult τ) × World τ η ℓ κ ρ
  | 0, _, _, _, result, w => (some result, w)
  | fuel + 1, sequence, cached, d, result, w =>
    let room := maxNewTokens - result.tokenIds.length
    if room = 0 then (some result, w)
    else
      let k := min opts.k room
      let (proposal, d) := propose D sequence k d
      let pending := sequence.drop cached
      let w := { w with round := w.round + 1 }
      match recover (replay P sessionId sched cached (sequence ++ proposal)) opts.maxRecoveries
          (verify P sessionId sched cached (pending ++ proposal) w) with
      | (.value target, recoveries, w) =>
        let predictions := target.drop (pending.length - 1)
        let accepted := agreement proposal predictions
        match predictions[accepted]? with
        | none => (none, w)
        | some bonus =>
          let (emitted, stop) := emit opts.eos room (proposal.take accepted ++ [bonus])
          let result : SpeculativeResult τ :=
            ⟨result.tokenIds ++ emitted, result.cacheRecoveries + recoveries, result.rounds + 1,
              result.proposedDraftTokens + k, result.acceptedDraftTokens + accepted⟩
          let valid := sequence.length + accepted
          if stop then (some result, w)
          else generateLoop maxNewTokens fuel (sequence ++ emitted) valid (accept D valid d)
            result w
      | (_, _, w) => (none, w)

/-- Every round gives a token at least, so `maxNewTokens` rounds are enough. -/
def generateTokens (inputIds : List τ) (maxNewTokens : Nat) (d : Draft δ)
    (w : World τ η ℓ κ ρ) : Option (SpeculativeResult τ) × World τ η ℓ κ ρ :=
  generateLoop P sessionId sched D opts maxNewTokens maxNewTokens inputIds 0 d ⟨[], 0, 0, 0, 0⟩ w

def generate (inputIds : List τ) (maxNewTokens : Nat) (d : Draft δ) (w : World τ η ℓ κ ρ) :
    Option (SpeculativeResult τ) × World τ η ℓ κ ρ :=
  let (result, w) := generateTokens P sessionId sched D opts inputIds maxNewTokens d w
  (result, close P sessionId sched w)

end Client
end Distllm.Speculative
