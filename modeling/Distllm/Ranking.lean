import Mathlib.Algebra.Order.BigOperators.Group.Finset
import Mathlib.Data.Fin.Tuple.Sort
import Mathlib.Order.Interval.Finset.Basic

/-! Rankings of finitely many values, and what an initial segment of a ranking weighs: the values
before a rank, and the ranks that are kept as long as those before them weigh less than a bound. -/

namespace Distllm.Ranked

/-! ### Rankings -/

/-- The values in descending order, equal ones in any order. -/
structure Ranking {n : ℕ} {α : Type} [LinearOrder α] (x : Fin n → α) where
  order : Equiv.Perm (Fin n)
  antitone : Antitone (x ∘ order)

namespace Ranking

variable {n : ℕ} {α : Type} [LinearOrder α] {x : Fin n → α} (r : Ranking x)

/-- Equal values in the order in which they stand. -/
def stable (x : Fin n → α) : Ranking x where
  order := Tuple.sort (OrderDual.toDual ∘ x)
  antitone _ _ h := Tuple.monotone_sort (OrderDual.toDual ∘ x) h

theorem apply_le_of_rank_le {t u : Fin n} (h : r.order.symm t ≤ r.order.symm u) : x u ≤ x t := by
  have hle := r.antitone h
  simpa using hle

theorem rank_lt_of_apply_lt {t u : Fin n} (h : x u < x t) : r.order.symm t < r.order.symm u :=
  lt_of_not_ge fun hrank => h.not_ge (r.apply_le_of_rank_le hrank)

/-- At each rank there are at least as many values that are no smaller. -/
theorem rank_lt_card (i : Fin n) :
    (i : ℕ) < (Finset.univ.filter fun t => x (r.order i) ≤ x t).card := by
  have hranks := (Tuple.lt_card_ge_iff_apply_ge_of_antitone (j := i) r.antitone).mpr le_rfl
  refine hranks.trans_eq (Finset.card_equiv r.order fun j => ?_)
  simp

/-- At each rank there are at most as many values that are greater. -/
theorem card_lt_le_rank (i : Fin n) :
    (Finset.univ.filter fun t => x (r.order i) < x t).card ≤ i := by
  have hranks : ∀ t ∈ Finset.univ.filter fun t => x (r.order i) < x t,
      r.order.symm t ∈ Finset.Iio i := by
    intro t ht
    have hrank := r.rank_lt_of_apply_lt (Finset.mem_filter.mp ht).2
    rw [Equiv.symm_apply_apply] at hrank
    exact Finset.mem_Iio.mpr hrank
  calc (Finset.univ.filter fun t => x (r.order i) < x t).card
      ≤ (Finset.Iio i).card :=
        Finset.card_le_card_of_injOn r.order.symm hranks (r.order.symm.injective.injOn)
    _ = i := Fin.card_Iio i

end Ranking

/-! ### Initial segments -/

variable {ι M : Type} [LinearOrder ι] [LocallyFiniteOrderBot ι] [AddCommMonoid M] [LinearOrder M]

/-- What stands before a rank. -/
def before (w : ι → M) (i : ι) : M := ∑ j ∈ Finset.Iio i, w j

/-- The ranks that have less than the bound before them. -/
def kept [Fintype ι] (w : ι → M) (p : M) : Finset ι := Finset.univ.filter fun i => before w i < p

variable [IsOrderedAddMonoid M] [Fintype ι] {w : ι → M} {p : M} {i j : ι}

omit [IsOrderedAddMonoid M] in
theorem mem_kept : i ∈ kept w p ↔ before w i < p := by
  rw [kept, Finset.mem_filter, and_iff_right (Finset.mem_univ i)]

omit [Fintype ι] in
theorem before_mono (hw : ∀ i, 0 ≤ w i) : Monotone (before w) := fun _ _ h =>
  Finset.sum_le_sum_of_subset_of_nonneg (Finset.Iio_subset_Iio h) fun i _ _ => hw i

theorem mem_kept_of_le (hw : ∀ i, 0 ≤ w i) (h : j ≤ i) (hi : i ∈ kept w p) : j ∈ kept w p :=
  mem_kept.mpr ((before_mono hw h).trans_lt (mem_kept.mp hi))

omit [IsOrderedAddMonoid M] in
theorem mem_kept_of_isMin (hp : 0 < p) (hi : IsMin i) : i ∈ kept w p := by
  rw [mem_kept, before, Finset.Iio_eq_empty.mpr hi, Finset.sum_empty]
  exact hp

/-- The first rank that is not kept has at least the bound before it, and what is before it is
kept. -/
theorem le_sum_kept (hw : ∀ i, 0 ≤ w i) (hp : p ≤ ∑ i, w i) : p ≤ ∑ i ∈ kept w p, w i := by
  by_cases hall : kept w p = Finset.univ
  · rw [hall]
    exact hp
  have hcut : (kept w p)ᶜ.Nonempty :=
    Finset.nonempty_iff_ne_empty.mpr fun h => hall (Finset.compl_eq_empty_iff _ |>.mp h)
  have hfirst : (kept w p)ᶜ.min' hcut ∉ kept w p := Finset.mem_compl.mp (Finset.min'_mem _ hcut)
  have hsubset : Finset.Iio ((kept w p)ᶜ.min' hcut) ⊆ kept w p := fun j hj => by
    by_contra hnot
    exact (Finset.min'_le _ j (Finset.mem_compl.mpr hnot)).not_gt (Finset.mem_Iio.mp hj)
  calc p ≤ before w ((kept w p)ᶜ.min' hcut) := not_lt.mp (mem_kept.not.mp hfirst)
    _ ≤ ∑ i ∈ kept w p, w i :=
        Finset.sum_le_sum_of_subset_of_nonneg hsubset fun i _ _ => hw i

theorem sum_erase_lt (hw : ∀ i, 0 ≤ w i) (hi : i ∈ kept w p) (hlast : ∀ j ∈ kept w p, j ≤ i) :
    ∑ j ∈ (kept w p).erase i, w j < p := by
  have hsegment : (kept w p).erase i = Finset.Iio i := by
    ext j
    rw [Finset.mem_erase, Finset.mem_Iio]
    constructor
    · exact fun h => (hlast j h.2).lt_of_ne h.1
    · exact fun h => ⟨h.ne, mem_kept_of_le hw h.le hi⟩
  rw [hsegment]
  exact mem_kept.mp hi

/-! ### Cutting a ranking -/

namespace Ranking

variable {n : ℕ} {α : Type} [LinearOrder α] {x : Fin n → α} (r : Ranking x) {m : Fin n → M}
  {t u : Fin n}

/-- The values with less than the bound before them. -/
def cut (m : Fin n → M) (p : M) : Finset (Fin n) :=
  (kept (m ∘ r.order) p).map r.order.toEmbedding

omit [IsOrderedAddMonoid M] in
theorem mem_cut : t ∈ r.cut m p ↔ r.order.symm t ∈ kept (m ∘ r.order) p :=
  Finset.mem_map_equiv

theorem mem_cut_of_lt (hm : ∀ t, 0 ≤ m t) (h : x u < x t) (hu : u ∈ r.cut m p) : t ∈ r.cut m p :=
  r.mem_cut.mpr <| mem_kept_of_le (fun i => hm (r.order i)) (r.rank_lt_of_apply_lt h).le
    (r.mem_cut.mp hu)

omit [IsOrderedAddMonoid M] in
theorem exists_max_mem_cut (hn : 0 < n) (hp : 0 < p) : ∃ t ∈ r.cut m p, ∀ u, x u ≤ x t := by
  have hfirst : ∀ i : Fin n, ⟨0, hn⟩ ≤ i := fun i => Nat.zero_le i
  refine ⟨r.order ⟨0, hn⟩, ?_, fun u => r.apply_le_of_rank_le ?_⟩
  · rw [mem_cut, Equiv.symm_apply_apply]
    exact mem_kept_of_isMin hp fun i _ => hfirst i
  · rw [Equiv.symm_apply_apply]
    exact hfirst _

theorem le_sum_cut (hm : ∀ t, 0 ≤ m t) (hp : p ≤ ∑ t, m t) : p ≤ ∑ t ∈ r.cut m p, m t := by
  rw [← Equiv.sum_comp r.order] at hp
  rw [cut, Finset.sum_map]
  exact le_sum_kept (fun i => hm (r.order i)) hp

theorem sum_erase_cut_lt (hm : ∀ t, 0 ≤ m t) (ht : t ∈ r.cut m p)
    (hlast : ∀ u ∈ r.cut m p, r.order.symm u ≤ r.order.symm t) :
    ∑ u ∈ (r.cut m p).erase t, m u < p := by
  obtain ⟨i, hi, rfl⟩ := Finset.mem_map.mp ht
  have hrank : ∀ j ∈ kept (m ∘ r.order) p, j ≤ i := by
    intro j hj
    have hle := hlast (r.order j) (Finset.mem_map_of_mem _ hj)
    simpa using hle
  rw [cut, ← Finset.map_erase, Finset.sum_map]
  exact sum_erase_lt (fun i => hm (r.order i)) hi hrank

end Ranking

end Distllm.Ranked
