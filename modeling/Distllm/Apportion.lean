import Mathlib.Algebra.BigOperators.Ring.Finset
import Mathlib.Algebra.Order.BigOperators.Group.List
import Mathlib.Algebra.Order.Floor.Semiring
import Mathlib.Tactic.Ring

/-! Sharing a number out by weights: the parts rounded down never come to more than the number, and a
list of counts is brought to a sum by changing one entry at a time. -/

namespace Distllm.Apportion

section Shares

variable {ι K : Type} [Field K] [LinearOrder K] [IsStrictOrderedRing K] [FloorSemiring K]

/-- The parts rounded down do not come to more than the whole. -/
theorem sum_floor_le {l : List ι} {w : ι → K} {pool : ℕ} {total : K} (hw : ∀ i ∈ l, 0 ≤ w i)
    (htotal : 0 < total) (hle : (l.map w).sum ≤ total) :
    (l.map fun i => ⌊pool * w i / total⌋₊).sum ≤ pool := by
  have hparts : ((l.map fun i => ⌊pool * w i / total⌋₊).sum : K) ≤ (l.map w).sum * (pool / total) := by
    rw [← List.sum_map_mul_right, Nat.cast_list_sum, List.map_map]
    apply List.sum_le_sum
    intro i hi
    have hpart : 0 ≤ pool * w i / total := div_nonneg (mul_nonneg pool.cast_nonneg (hw i hi)) htotal.le
    calc ((⌊pool * w i / total⌋₊ : ℕ) : K) ≤ pool * w i / total := Nat.floor_le hpart
      _ = w i * (pool / total) := by ring
  have hwhole : (l.map w).sum * (pool / total) ≤ pool := by
    calc (l.map w).sum * (pool / total) ≤ total * (pool / total) :=
          mul_le_mul_of_nonneg_right hle (div_nonneg pool.cast_nonneg htotal.le)
      _ = pool := mul_div_cancel₀ _ htotal.ne'
  exact Nat.cast_le.mp (hparts.trans hwhole)

end Shares

/-! ### Counts -/

theorem sum_modify_succ {l : List ℕ} {i : ℕ} (hi : i < l.length) : (l.modify i (· + 1)).sum = l.sum + 1 := by
  induction l generalizing i with
  | nil => cases hi
  | cons a l ih =>
      cases i with
      | zero => simp only [List.modify_zero_cons, List.sum_cons]; omega
      | succ i =>
          rw [List.modify_succ_cons, List.sum_cons, List.sum_cons, ih (Nat.lt_of_succ_lt_succ hi), Nat.add_assoc]

theorem sum_modify_pred {l : List ℕ} {i : ℕ} (hi : 0 < l.getD i 0) : (l.modify i (· - 1)).sum + 1 = l.sum := by
  induction l generalizing i with
  | nil => cases hi
  | cons a l ih =>
      cases i with
      | zero =>
          have ha : 0 < a := hi
          simp only [List.modify_zero_cons, List.sum_cons]
          omega
      | succ i =>
          have hsum := ih (i := i) hi
          rw [List.modify_succ_cons, List.sum_cons, List.sum_cons]
          omega

/-- A sum over entries that are given or come from elsewhere. -/
theorem sum_map_getD {ι : Type} (given : ι → Option ℕ) (other : ι → ℕ) (l : List ι) :
    (l.map fun i => (given i).getD (other i)).sum
      = (l.map fun i => (given i).getD 0).sum + ((l.filter fun i => (given i).isNone).map other).sum := by
  induction l with
  | nil => simp
  | cons i l ih =>
      cases hi : given i with
      | none => simp [hi, ih]; omega
      | some count => simp [hi, ih]; omega

end Distllm.Apportion
