import Mathlib.Init

/-! While loops whose body may break off with an error. A loop gets a number of rounds that it may take
at most; where every round keeps an invariant and lowers a measure, as many rounds as the measure says
suffice. -/

namespace Distllm.While

variable {σ ε : Type} {again : σ → Bool} {body : σ → Except ε σ}

/-- `while again(s): s = body(s)`; nothing where the rounds do not suffice. -/
def whileLoop (again : σ → Bool) (body : σ → Except ε σ) : Nat → σ → Option (Except ε σ)
  | 0, s => if again s then none else some (.ok s)
  | rounds + 1, s =>
      if again s then
        match body s with
        | .ok s' => whileLoop again body rounds s'
        | .error e => some (.error e)
      else some (.ok s)

theorem whileLoop_of_not {s : σ} (h : again s = false) (rounds : Nat) :
    whileLoop again body rounds s = some (.ok s) := by
  cases rounds <;> simp [whileLoop, h]

theorem whileLoop_succ_ok {s s' : σ} (h : again s) (hbody : body s = .ok s') (rounds : Nat) :
    whileLoop again body (rounds + 1) s = whileLoop again body rounds s' := by
  rw [whileLoop, if_pos h, hbody]

theorem whileLoop_error {s : σ} {e : ε} {rounds : Nat} (h : again s) (hbody : body s = .error e)
    (hrounds : 0 < rounds) : whileLoop again body rounds s = some (.error e) := by
  obtain ⟨rounds, rfl⟩ := Nat.exists_eq_succ_of_ne_zero (Nat.ne_of_gt hrounds)
  rw [whileLoop, if_pos h, hbody]

/-- A loop whose rounds keep an invariant and lower a measure ends with the invariant. -/
theorem whileLoop_total (again : σ → Bool) (body : σ → Except ε σ) (inv : σ → Prop) (measure : σ → Nat)
    (hround : ∀ s, inv s → again s → ∃ s', body s = .ok s' ∧ inv s' ∧ measure s' < measure s)
    {rounds : Nat} {s : σ} (hs : inv s) (hrounds : measure s ≤ rounds) :
    ∃ s', whileLoop again body rounds s = some (.ok s') ∧ inv s' ∧ again s' = false := by
  induction rounds generalizing s with
  | zero =>
      cases hagain : again s with
      | false => exact ⟨s, whileLoop_of_not hagain 0, hs, hagain⟩
      | true =>
          obtain ⟨s', -, -, hlower⟩ := hround s hs hagain
          omega
  | succ rounds ih =>
      cases hagain : again s with
      | false => exact ⟨s, whileLoop_of_not hagain _, hs, hagain⟩
      | true =>
          obtain ⟨s', hbody, hs', hlower⟩ := hround s hs hagain
          rw [whileLoop_succ_ok hagain hbody]
          exact ih hs' (by omega)

end Distllm.While
