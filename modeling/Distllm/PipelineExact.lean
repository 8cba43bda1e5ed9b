import Distllm.Decoding
import Distllm.PipelineSpec

/-! Decoding through a pipeline is exact. The sequence of the client only grows, so all rounds of
its history are prefixes of one sequence: whatever cache a request finds, it agrees with the
request up to where the request starts, or it is too short and the request is a miss. -/

namespace Distllm.Pipeline

open Stage Decoding

variable {τ η ℓ κ ρ σ : Type} {P : Deployment τ η ℓ κ ρ} {L : Lawful P} {sessionId : String}

/-- Every round carries a prefix of the sequence. -/
def Prefixes (hist : History τ) (sequence : List τ) : Prop :=
  ∀ round ∈ hist, round.1 <+: sequence ∧ round.2 ≤ round.1.length

variable {hist : History τ} {sequence : List τ} {start a : Nat}

theorem take_eq_of_extends {xs ys : List τ} {n : Nat} (h : xs <+: ys) (hn : n ≤ xs.length) :
    xs.take n = ys.take n := by
  obtain ⟨more, rfl⟩ := h
  rw [List.take_append_of_le_length hn]

theorem Prefixes.compatible (h : Prefixes hist sequence) : Compatible (fun _ _ => True) hist := by
  intro q r ys start zs a hq hr _ hle
  obtain ⟨hys, hstart⟩ := h _ (List.mem_of_getElem? hr)
  obtain ⟨hzs, _⟩ := h _ (List.mem_of_getElem? hq)
  exact (take_eq_of_extends hzs hle).trans (take_eq_of_extends hys hstart).symm

theorem Prefixes.extend (h : Prefixes hist sequence) {cached : Nat}
    (hcached : cached ≤ sequence.length) : Prefixes (hist ++ [(sequence, cached)]) sequence := by
  intro round hround
  rcases List.mem_append.mp hround with hround | hround
  · exact h round hround
  · obtain rfl := List.mem_singleton.mp hround
    exact ⟨List.prefix_rfl, hcached⟩

theorem Prefixes.append (h : Prefixes hist sequence) (more : List τ) :
    Prefixes hist (sequence ++ more) :=
  fun round hround => ⟨(h round hround).1.trans (List.prefix_append ..), (h round hround).2⟩

/-- The logits of a slice are those of the full model. -/
theorem logitsKey_finalAnswer (ha : a < sequence.length) {row : ℓ}
    (h : logitsKey (finalAnswer L false sequence a) = some row) : L.logits sequence = some row := by
  have hne : ¬sequence.length ≤ a := Nat.not_le.mpr ha
  unfold finalAnswer at h
  simp only [Bool.false_eq_true, if_false] at h
  rw [List.getLast?_drop, Causal.length_apply, if_neg hne] at h
  unfold Lawful.logits
  cases hlast : (L.hidden Lawful.last Lawful.last_lt sequence).getLast? with
  | none =>
      rw [hlast] at h
      cases h
  | some x =>
      rw [hlast] at h
      cases h
      rfl

/-- A request of the client for its tokens from `start` on. -/
theorem carries_tokens {start : Nat} (rewind argmax : Bool) (h : start < sequence.length) :
    L.Carries sessionId 0 P.pos
      ⟨sessionId, false, some start, rewind, argmax, .tensor (.row [] (sequence.drop start)), .missing⟩
      sequence start :=
  ⟨rfl, rfl, rfl, h, rfl⟩

variable [DecidableEq ρ] {sched : Schedule τ η ρ} {opts : Options τ ℓ σ} {w : World τ η ℓ κ ρ}

variable (sched) in
/-- A step of the loop: whatever is lost on the way, its logits are those of the sequence. -/
theorem forward_exact (hid : sessionId ≠ "") (hk : Kept sessionId L hist w)
    (hprefixes : Prefixes hist sequence) (hhist : hist[w.round]? = some (sequence, start))
    (hstart : start < sequence.length) (n : Nat) :
    let outcome := recover (forward P sessionId sched 0 sequence) n
      (forward P sessionId sched start (sequence.drop start) w)
    Later w outcome.2.2 ∧ Kept sessionId L hist outcome.2.2 ∧
      ∀ row, outcome.1 = .value row → L.logits sequence = some row := by
  have hcompat := hprefixes.compatible
  have hfirst : Reached sessionId w L (fun _ _ => True) hist (fun row => L.logits sequence = some row)
      (forward P sessionId sched start (sequence.drop start) w) := by
    obtain ⟨hlater, hstep⟩ := step_reached sched logitsKey hid hcompat hhist
      (.inr rfl) (carries_tokens false false hstart) (.refl w) fun _ => hk
    exact ⟨hlater, fun hmeets => ⟨(hstep hmeets).1, fun row hrow =>
      logitsKey_finalAnswer hstart ((hstep hmeets).2 row hrow)⟩⟩
  have hagain : ∀ w', Later w w' →
      ((∀ e ∈ w'.trace, e.Meets sessionId fun _ _ => True) → Kept sessionId L hist w') →
      Reached sessionId w L (fun _ _ => True) hist (fun row => L.logits sequence = some row)
        (forward P sessionId sched 0 sequence w') := by
    intro w' hlater hk'
    have hpositive : 0 < sequence.length := Nat.zero_lt_of_lt hstart
    obtain ⟨hlater', hstep⟩ := step_reached sched logitsKey hid hcompat hhist
      (.inl rfl) (carries_tokens false false hpositive) hlater hk'
    exact ⟨hlater', fun hmeets => ⟨(hstep hmeets).1, fun row hrow =>
      logitsKey_finalAnswer hpositive ((hstep hmeets).2 row hrow)⟩⟩
  obtain ⟨hlater, hgood⟩ := recover_reached hfirst hagain n
  exact ⟨hlater, hgood fun _ _ _ _ _ _ _ _ => trivial⟩

/-- The loop gives the tokens so far and then the token-by-token decode. -/
theorem generateLoop_exact (hid : sessionId ≠ "") (n i : Nat) {cached : Nat} (rng : σ)
    (acc : GenerationResult τ) (hk : Kept sessionId L hist w) (hround : hist.length = w.round + 1)
    (hprefixes : Prefixes hist sequence) (hcached : cached < sequence.length)
    {result : GenerationResult τ}
    (h : (generateLoop P sessionId sched opts n i sequence cached rng acc w).1 = some result) :
    result.tokenIds =
      acc.tokenIds ++ decode L.logits opts.pick opts.eos n sequence rng := by
  induction n generalizing i sequence cached rng acc w hist with
  | zero =>
      cases h
      rw [decode, List.append_nil]
  | succ n ih =>
      rw [generateLoop] at h
      dsimp only at h
      have hextend := hprefixes.extend (Nat.le_of_lt hcached)
      have hnext : (hist ++ [(sequence, cached)])[w.round + 1]? = some (sequence, cached) := by
        rw [← hround, List.getElem?_concat_length]
      have hkept : Kept sessionId L (hist ++ [(sequence, cached)])
          { w with round := w.round + 1 } :=
        ⟨(hk.mono _).tables, (hk.mono _).log, (hk.mono _).trace⟩
      obtain ⟨hlater, hk', hvalue⟩ := forward_exact sched hid hkept hextend hnext
        hcached opts.maxRecoveries
      generalize recover (forward P sessionId sched 0 sequence) opts.maxRecoveries
        (forward P sessionId sched cached (sequence.drop cached)
          { w with round := w.round + 1 }) = outcome at h hlater hk' hvalue
      obtain ⟨outcome, recoveries, w'⟩ := outcome
      cases outcome with
      | miss => cases h
      | failed => cases h
      | value row =>
          have hrow := hvalue row rfl
          dsimp only at h hk' hlater
          rw [decode, hrow]
          dsimp only
          split at h
          · cases h
          · split at h
            · rename_i heos
              cases h
              rw [if_pos heos]
            · rename_i heos
              rw [if_neg heos]
              have hlength : (hist ++ [(sequence, cached)]).length = w'.round + 1 := by
                rw [hlater.round, List.length_append, hround]
                rfl
              have hnew : sequence.length < (sequence ++ [(opts.pick row rng).1]).length := by
                rw [List.length_append]
                exact Nat.lt_succ_self _
              rw [ih _ _ _ hk' hlength (hextend.append _) hnew h, List.append_assoc]
              rfl

/-- The tokens of a generation are the token-by-token decode of the composed model, whichever
replicas serve its requests, lose their caches, repeat earlier requests or fail to answer. -/
theorem generate_exact {P : Deployment τ η ℓ κ ρ} (L : Lawful P) {sessionId : String}
    (hid : sessionId ≠ "") (sched : Schedule τ η ρ) (opts : Options τ ℓ σ)
    (tables : Nat → ρ → Sessions κ) (hnew : ∀ i r, (tables i r).lookup sessionId = none)
    {inputIds : List τ} (hprompt : inputIds ≠ []) (maxNewTokens : Nat) (rng : σ)
    {result : GenerationResult τ}
    (h : (generate P sessionId sched opts inputIds maxNewTokens rng (.init tables)).1 =
      some result) :
    result.tokenIds = decode L.logits opts.pick opts.eos maxNewTokens inputIds rng := by
  have hprefixes : Prefixes [([], 0)] inputIds := by
    intro round hround
    obtain rfl := List.mem_singleton.mp hround
    exact ⟨List.nil_prefix, Nat.le_refl 0⟩
  exact generateLoop_exact hid maxNewTokens 0 rng ⟨[], 0, 0⟩ (kept_init hnew) rfl hprefixes
    (List.length_pos_iff.mpr hprompt) h

/-! ### Two stages of prefix sums -/

def sums : Deployment Nat Nat Nat Nat Bool where
  size := 2
  model := fun _ => prefixSum
  config := fun i _ => ⟨decide (i = 0), decide (i + 1 = 2), 4, 600, 4⟩
  pos := by decide
  isFirst := fun _ _ => rfl
  isLast := fun _ _ => rfl

def sumsLaw : Lawful sums where
  dims := []
  first := prefixSumOfIds
  later := fun _ _ => prefixSumOfEmbeds

/-- The prompt is lost on its way back, an old request is repeated on another replica, a cache is
lost and a replica restarts. -/
def troubled : Schedule Nat Nat Bool
  | 1 => ⟨[], true, 0, .lostAfter⟩
  | 3 => ⟨[.again 0 false 1], true, 1, .answered⟩
  | 4 => ⟨[.lose 0 true], false, 2, .answered⟩
  | 6 => ⟨[.drop 1 true], true, 2, .answered⟩
  | _ => ⟨[], true, 3, .answered⟩

def greedyOptions : Options Nat Nat Unit :=
  ⟨2, (· == 0), fun row _ => (row % 5, ()), fun _ _ _ => none⟩

theorem generate_exact_troubled : ∃ result,
    (generate sums "a" troubled greedyOptions [1, 2] 3 () (.init fun _ _ => ∅)).1 = some result ∧
      result.tokenIds =
        decode sumsLaw.logits greedyOptions.pick greedyOptions.eos 3 [1, 2] () := by
  have hid : "a" ≠ "" := by decide
  have hrun : (generate sums "a" troubled greedyOptions [1, 2] 3 ()
      (.init fun _ _ => ∅)).1 = some ⟨[4, 1, 4], 1, 0⟩ := by decide
  exact ⟨_, hrun, generate_exact sumsLaw hid troubled greedyOptions (fun _ _ => ∅)
    (fun _ _ => rfl) (by decide) 3 () hrun⟩

end Distllm.Pipeline
