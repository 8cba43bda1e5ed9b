import Distllm.Causal

/-! Decoding token by token, and what a verified draft contributes to it. `decode` asks for the
logits of the whole sequence before each token; `emit` cuts a run of tokens at the room left or
at the first end token; a draft counts as far as it agrees with the predictions made along it. -/

namespace Distllm.Decoding

variable {τ ℓ σ : Type}

/-- One token at a time, up to the first end token and at most so many. -/
def decode (logits : List τ → Option ℓ) (pick : ℓ → σ → τ × σ) (eos : τ → Bool) :
    Nat → List τ → σ → List τ
  | 0, _, _ => []
  | n + 1, seq, rng => match logits seq with
    | none => []
    | some row =>
      let (token, rng) := pick row rng
      token :: if eos token then [] else decode logits pick eos n (seq ++ [token]) rng

/-! ### Runs of tokens -/

/-- Take tokens as long as there is room, up to and including the first end token. -/
def emit (eos : τ → Bool) : Nat → List τ → List τ × Bool
  | 0, _ => ([], false)
  | _ + 1, [] => ([], false)
  | n + 1, token :: rest =>
    if eos token then ([token], true)
    else
      let (tokens, stop) := emit eos n rest
      (token :: tokens, stop)

variable (next : List τ → Option τ)

/-- Every token of the run is the one that `next` gives after those before it. -/
def Follows : List τ → List τ → Prop
  | _, [] => True
  | seq, token :: rest => next seq = some token ∧ Follows (seq ++ [token]) rest

/-- The greedy choice, without a state to draw from. -/
def greedy (argmax : ℓ → τ) : ℓ → Unit → τ × Unit := fun row _ => (argmax row, ())

variable {next} {logits : List τ → Option ℓ} {argmax : ℓ → τ} {eos : τ → Bool}

variable (eos) in
/-- Greedy decoding may take a run that follows the greedy choice at once. -/
theorem decode_emit (hnext : ∀ seq, next seq = (logits seq).map argmax) {run seq : List τ}
    (h : Follows next seq run) (n : Nat) :
    decode logits (greedy argmax) eos n seq () = (emit eos n run).1 ++
      if (emit eos n run).2 then [] else
        decode logits (greedy argmax) eos (n - (emit eos n run).1.length)
          (seq ++ (emit eos n run).1) () := by
  induction run generalizing n seq with
  | nil =>
      cases n with
      | zero => rfl
      | succ n => simp [emit]
  | cons token rest ih =>
      cases n with
      | zero => rfl
      | succ n =>
          obtain ⟨htoken, hrest⟩ := h
          rw [hnext] at htoken
          obtain ⟨row, hrow, rfl⟩ := Option.map_eq_some_iff.mp htoken
          rw [decode, hrow]
          dsimp only [greedy]
          rw [emit]
          cases heos : eos (argmax row) with
          | true => simp
          | false =>
              have ih := ih hrest n
              simp only [Bool.false_eq_true, if_false, List.cons_append, List.length_cons,
                Nat.add_sub_add_right, List.append_assoc, List.nil_append] at ih ⊢
              exact congrArg _ ih

/-- With room left and no end token the whole run is taken. -/
theorem emit_eq_self {run : List τ} {n : Nat} (hroom : (emit eos n run).1.length < n)
    (hstop : (emit eos n run).2 = false) : (emit eos n run).1 = run := by
  induction run generalizing n with
  | nil => cases n <;> rfl
  | cons token rest ih =>
      cases n with
      | zero => exact absurd hroom (Nat.not_lt_zero _)
      | succ n =>
          rw [emit] at hroom hstop ⊢
          split at hstop
          · cases hstop
          · rename_i heos
            rw [if_neg heos] at hroom ⊢
            exact congrArg _ (ih (Nat.lt_of_succ_lt_succ hroom) hstop)

theorem emit_pos {run : List τ} {n : Nat} (hn : 0 < n) (hrun : run ≠ []) :
    0 < (emit eos n run).1.length := by
  cases run with
  | nil => exact absurd rfl hrun
  | cons token rest =>
      cases n with
      | zero => exact absurd hn (Nat.lt_irrefl 0)
      | succ n =>
          rw [emit]
          split
          · exact Nat.zero_lt_one
          · exact Nat.succ_pos _

/-! ### Drafts -/

variable [DecidableEq τ]

/-- How far the proposal agrees with the predictions. -/
def agreement : List τ → List τ → Nat
  | p :: proposal, q :: predictions => if p = q then agreement proposal predictions + 1 else 0
  | _, _ => 0

theorem agreement_le (proposal predictions : List τ) :
    agreement proposal predictions ≤ proposal.length := by
  induction proposal generalizing predictions with
  | nil => exact Nat.le_refl 0
  | cons p proposal ih =>
      cases predictions with
      | nil => exact Nat.zero_le _
      | cons q predictions =>
          rw [agreement]
          split
          · exact Nat.succ_le_succ (ih predictions)
          · exact Nat.zero_le _

variable (next) in
/-- The predictions made along a proposal: one for every prefix of it. -/
def Predicts : List τ → List τ → List τ → Prop
  | seq, [], predictions => ∃ q, predictions = [q] ∧ next seq = some q
  | seq, p :: proposal, predictions => ∃ q rest, predictions = q :: rest ∧ next seq = some q ∧
      Predicts (seq ++ [p]) proposal rest

/-- The agreeing part of a proposal and the prediction after it follow the greedy choice. -/
theorem follows_accepted {seq proposal predictions : List τ}
    (h : Predicts next seq proposal predictions) :
    ∃ bonus, predictions[agreement proposal predictions]? = some bonus ∧
      Follows next seq (proposal.take (agreement proposal predictions) ++ [bonus]) := by
  induction proposal generalizing seq predictions with
  | nil =>
      obtain ⟨q, rfl, hq⟩ := h
      exact ⟨q, rfl, hq, trivial⟩
  | cons p proposal ih =>
      obtain ⟨q, rest, rfl, hq, hrest⟩ := h
      rw [agreement]
      split
      · rename_i hpq
        subst hpq
        obtain ⟨bonus, hbonus, hfollows⟩ := ih hrest
        exact ⟨bonus, hbonus, hq, hfollows⟩
      · exact ⟨q, rfl, hq, trivial⟩

omit [DecidableEq τ] in
/-- The choices that a causal map makes along a sequence are predictions along its end. -/
theorem predicts_drop (f : Causal τ τ) (hnext : ∀ ys, next ys = (f ys).getLast?) {seq : List τ}
    (hseq : seq ≠ []) (proposal : List τ) :
    Predicts next seq proposal ((f (seq ++ proposal)).drop (seq.length - 1)) := by
  have hpos : 0 < seq.length := List.length_pos_iff.mpr hseq
  induction proposal generalizing seq with
  | nil =>
      have hne : f seq ≠ [] := List.ne_nil_of_length_pos (by rwa [Causal.length_apply])
      refine ⟨(f seq).getLast hne, ?_, by rw [hnext, List.getLast?_eq_getLast_of_ne_nil hne]⟩
      rw [List.append_nil, ← List.drop_length_sub_one hne, Causal.length_apply]
  | cons p rest ih =>
      set full := seq ++ p :: rest with hfull
      have hlt : seq.length - 1 < full.length := by
        rw [hfull, List.length_append]
        omega
      have hlt' : seq.length - 1 < (f full).length := by rwa [Causal.length_apply]
      have hlast : (f seq).getLast? = some (f full)[seq.length - 1] := by
        have htake : full.take (seq.length - 1 + 1) = seq := by
          rw [Nat.sub_add_cancel hpos, hfull, List.take_left']
          rfl
        rw [← List.getElem?_eq_getElem hlt', ← f.getLast?_take full hlt, htake]
      refine ⟨(f full)[seq.length - 1], (f full).drop seq.length, ?_, by rw [hnext, hlast], ?_⟩
      · rw [List.drop_eq_getElem_cons hlt', Nat.sub_add_cancel hpos]
      · have hrest := @ih (seq ++ [p]) (by simp) (by simp)
        rwa [List.append_assoc, List.singleton_append, List.length_append, List.length_singleton,
          Nat.add_sub_cancel] at hrest

end Distllm.Decoding
