import Mathlib.Algebra.Ring.Nat
import Mathlib.Data.List.Count

/-! Consecutive ranges of natural numbers, both ends included: which range holds a number, which range
is the first and which the last, and the ranges that a list of counts cuts off. -/

namespace Distllm.Ranges

/-- The ranges are not empty, follow one another from `start` on, and end right before `stop`. -/
def Consecutive (start stop : ℕ) : List (ℕ × ℕ) → Prop
  | [] => start = stop
  | (a, b) :: rest => a = start ∧ a ≤ b ∧ Consecutive (b + 1) stop rest

instance decidableConsecutive (start stop : ℕ) : (ranges : List (ℕ × ℕ)) → Decidable (Consecutive start stop ranges)
  | [] => inferInstanceAs (Decidable (start = stop))
  | (_, b) :: rest =>
      have := decidableConsecutive (b + 1) stop rest
      inferInstanceAs (Decidable (_ ∧ _ ∧ Consecutive (b + 1) stop rest))

/-- A number lies between the ends of a range. -/
def holds (i : ℕ) (r : ℕ × ℕ) : Bool := r.1 ≤ i && i ≤ r.2

theorem holds_iff {i : ℕ} {r : ℕ × ℕ} : holds i r ↔ r.1 ≤ i ∧ i ≤ r.2 := by
  rw [holds, Bool.and_eq_true, decide_eq_true_eq, decide_eq_true_eq]

namespace Consecutive

variable {start stop : ℕ} {ranges : List (ℕ × ℕ)}

theorem start_le (h : Consecutive start stop ranges) : start ≤ stop := by
  induction ranges generalizing start with
  | nil => exact Nat.le_of_eq h
  | cons r rest ih =>
      obtain ⟨hstart, hle, hrest⟩ := h
      have hstop := ih hrest
      omega

theorem bounds (h : Consecutive start stop ranges) {r : ℕ × ℕ} (hr : r ∈ ranges) :
    start ≤ r.1 ∧ r.1 ≤ r.2 ∧ r.2 < stop := by
  induction ranges generalizing start with
  | nil => cases hr
  | cons s rest ih =>
      obtain ⟨hstart, hle, hrest⟩ := h
      rcases List.mem_cons.mp hr with rfl | hr
      · have hstop := hrest.start_le
        omega
      · have hbounds := ih hrest hr
        omega

/-- Before its first range a partition holds no number. -/
theorem countP_holds_eq_zero (h : Consecutive start stop ranges) {i : ℕ} (hi : i < start) :
    ranges.countP (holds i) = 0 := by
  rw [List.countP_eq_zero]
  intro r hr hholds
  have hbounds := h.bounds hr
  rw [holds_iff] at hholds
  omega

/-- Every number lies in exactly one of the ranges. -/
theorem countP_holds (h : Consecutive start stop ranges) {i : ℕ} (hstart : start ≤ i) (hstop : i < stop) :
    ranges.countP (holds i) = 1 := by
  induction ranges generalizing start with
  | nil =>
      have heq : start = stop := h
      omega
  | cons r rest ih =>
      obtain ⟨hfirst, hle, hrest⟩ := h
      by_cases hi : i ≤ r.2
      · have hholds : holds i r = true := holds_iff.mpr ⟨by omega, hi⟩
        rw [List.countP_cons_of_pos hholds, hrest.countP_holds_eq_zero (by omega)]
      · have hholds : ¬ holds i r = true := fun hr => hi (holds_iff.mp hr).2
        rw [List.countP_cons_of_neg hholds]
        exact ih hrest (by omega)

/-- A range starts at the start exactly if it is the first. -/
theorem first_iff (h : Consecutive start stop ranges) {k : ℕ} {r : ℕ × ℕ} (hk : ranges[k]? = some r) :
    r.1 = start ↔ k = 0 := by
  cases ranges with
  | nil => cases hk
  | cons s rest =>
      obtain ⟨hfirst, hle, hrest⟩ := h
      cases k with
      | zero =>
          obtain rfl : s = r := Option.some.inj hk
          exact iff_of_true hfirst rfl
      | succ k =>
          have hbounds := hrest.bounds (List.mem_of_getElem? hk)
          exact iff_of_false (by omega) (Nat.succ_ne_zero k)

/-- A range ends right before the stop exactly if it is the last. -/
theorem last_iff (h : Consecutive start stop ranges) {k : ℕ} {r : ℕ × ℕ} (hk : ranges[k]? = some r) :
    r.2 + 1 = stop ↔ k + 1 = ranges.length := by
  induction ranges generalizing start k with
  | nil => cases hk
  | cons s rest ih =>
      obtain ⟨hfirst, hle, hrest⟩ := h
      cases k with
      | succ k => rw [ih hrest hk, List.length_cons, Nat.add_right_cancel_iff]
      | zero =>
          obtain rfl : s = r := Option.some.inj hk
          cases rest with
          | nil =>
              have heq : s.2 + 1 = stop := hrest
              exact iff_of_true heq rfl
          | cons t rest =>
              have hbounds := hrest.bounds List.mem_cons_self
              refine iff_of_false (by omega) ?_
              rw [List.length_cons, List.length_cons]
              omega

end Consecutive

/-! ### What each number brings along -/

/-- A value that each range brings once for one number that it holds comes as often as ranges hold
this number. -/
theorem count_flatMap {α : Type} [BEq α] {f : ℕ × ℕ → List α} {ranges : List (ℕ × ℕ)} {a : α} {i : ℕ}
    (hf : ∀ r ∈ ranges, (f r).count a = if holds i r then 1 else 0) :
    (ranges.flatMap f).count a = ranges.countP (holds i) := by
  induction ranges with
  | nil => simp
  | cons r rest ih =>
      have hrest := ih fun s hs => hf s (List.mem_cons_of_mem r hs)
      rw [List.flatMap_cons, List.count_append, hf r List.mem_cons_self, hrest, List.countP_cons, Nat.add_comm]

/-! ### Ranges from counts -/

/-- The ranges of as many numbers as the counts say, from `start` on. -/
def ofCounts (start : ℕ) : List ℕ → List (ℕ × ℕ)
  | [] => []
  | count :: counts => (start, start + count - 1) :: ofCounts (start + count) counts

/-- Positive counts cut their sum off. -/
theorem consecutive_ofCounts {counts : List ℕ} (hpos : ∀ count ∈ counts, 0 < count) (start : ℕ) :
    Consecutive start (start + counts.sum) (ofCounts start counts) := by
  induction counts generalizing start with
  | nil => exact (Nat.add_zero start).symm
  | cons count counts ih =>
      have hcount := hpos count List.mem_cons_self
      have hrest := ih (fun c hc => hpos c (List.mem_cons_of_mem count hc)) (start + count)
      refine ⟨rfl, by omega, ?_⟩
      rw [Nat.sub_add_cancel (by omega), List.sum_cons, ← Nat.add_assoc]
      exact hrest

end Distllm.Ranges
