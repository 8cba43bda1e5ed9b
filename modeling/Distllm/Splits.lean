import Mathlib.Data.List.DropRight

/-! Lists cut at separators, and what is left of the parts without the padding around them. -/

namespace Distllm.Splits

variable {α : Type} {p q w : α → Bool} {xs ys before after part : List α} {x : α}

/-! ### Cutting -/

theorem splitOnP_cons_pos (h : p x = true) : (x :: xs).splitOnP p = [] :: xs.splitOnP p := by
  rw [List.splitOnP_cons_eq_if_modifyHead, if_pos h]

theorem splitOnP_cons_neg (h : p x = false) {rest : List (List α)}
    (hxs : xs.splitOnP p = part :: rest) : (x :: xs).splitOnP p = (x :: part) :: rest := by
  rw [List.splitOnP_cons_eq_if_modifyHead, if_neg (ne_true_of_eq_false h), hxs,
    List.modifyHead_cons]

theorem exists_splitOnP_eq_cons (p : α → Bool) (xs : List α) :
    ∃ part rest, xs.splitOnP p = part :: rest :=
  List.exists_cons_of_ne_nil (List.splitOnP_ne_nil p xs)

theorem eq_false_of_mem_splitOnP (h : part ∈ xs.splitOnP p) : ∀ c ∈ part, p c = false := by
  induction xs generalizing part with
  | nil =>
      obtain rfl := List.mem_singleton.mp h
      exact fun c hc => absurd hc List.not_mem_nil
  | cons x xs ih =>
      cases hx : p x with
      | true =>
          rw [splitOnP_cons_pos hx] at h
          rcases List.mem_cons.mp h with rfl | h
          · exact fun c hc => absurd hc List.not_mem_nil
          · exact ih h
      | false =>
          obtain ⟨first, rest, hxs⟩ := exists_splitOnP_eq_cons p xs
          rw [splitOnP_cons_neg hx hxs] at h
          rw [hxs] at ih
          rcases List.mem_cons.mp h with rfl | h
          · exact List.forall_mem_cons.mpr ⟨hx, ih List.mem_cons_self⟩
          · exact ih (List.mem_cons_of_mem _ h)

theorem subset_of_mem_splitOnP (h : part ∈ xs.splitOnP p) : part ⊆ xs := by
  induction xs generalizing part with
  | nil =>
      obtain rfl := List.mem_singleton.mp h
      exact List.Subset.refl _
  | cons x xs ih =>
      cases hx : p x with
      | true =>
          rw [splitOnP_cons_pos hx] at h
          rcases List.mem_cons.mp h with rfl | h
          · exact List.nil_subset _
          · exact List.subset_cons_of_subset x (ih h)
      | false =>
          obtain ⟨first, rest, hxs⟩ := exists_splitOnP_eq_cons p xs
          rw [splitOnP_cons_neg hx hxs] at h
          rw [hxs] at ih
          rcases List.mem_cons.mp h with rfl | h
          · exact List.cons_subset_cons x (ih List.mem_cons_self)
          · exact List.subset_cons_of_subset x (ih (List.mem_cons_of_mem _ h))

theorem exists_mem_splitOnP (hmem : x ∈ xs) (hx : p x = false) :
    ∃ part ∈ xs.splitOnP p, x ∈ part := by
  induction xs with
  | nil => exact absurd hmem List.not_mem_nil
  | cons c xs ih =>
      cases hc : p c with
      | true =>
          rcases List.mem_cons.mp hmem with rfl | hmem
          · exact absurd (hx.symm.trans hc) Bool.false_ne_true
          · obtain ⟨part, hpart, hin⟩ := ih hmem
            exact ⟨part, splitOnP_cons_pos hc ▸ List.mem_cons_of_mem _ hpart, hin⟩
      | false =>
          obtain ⟨first, rest, hxs⟩ := exists_splitOnP_eq_cons p xs
          rw [splitOnP_cons_neg hc hxs]
          rw [hxs] at ih
          rcases List.mem_cons.mp hmem with rfl | hmem
          · exact ⟨x :: first, List.mem_cons_self, List.mem_cons_self⟩
          · obtain ⟨part, hpart, hin⟩ := ih hmem
            rcases List.mem_cons.mp hpart with rfl | hpart
            · exact ⟨c :: part, List.mem_cons_self, List.mem_cons_of_mem _ hin⟩
            · exact ⟨part, List.mem_cons_of_mem _ hpart, hin⟩

/-- A cut at `p` that is cut again at `q`. -/
theorem flatMap_splitOnP (p q : α → Bool) (xs : List α) :
    (xs.splitOnP p).flatMap (List.splitOnP q) = xs.splitOnP fun c => p c || q c := by
  induction xs with
  | nil => rfl
  | cons x xs ih =>
      cases hx : p x with
      | true =>
          have hor : (p x || q x) = true := by rw [hx, Bool.true_or]
          rw [splitOnP_cons_pos hx, splitOnP_cons_pos (p := fun c => p c || q c) hor,
            List.flatMap_cons, ih, List.splitOnP_nil, List.singleton_append]
      | false =>
          obtain ⟨part, rest, hxs⟩ := exists_splitOnP_eq_cons p xs
          rw [splitOnP_cons_neg hx hxs, List.flatMap_cons]
          rw [hxs, List.flatMap_cons] at ih
          cases hq : q x with
          | true =>
              have hor : (p x || q x) = true := by rw [hq, Bool.or_true]
              rw [splitOnP_cons_pos hq, splitOnP_cons_pos (p := fun c => p c || q c) hor, ← ih,
                List.cons_append]
          | false =>
              have hor : (p x || q x) = false := by rw [hx, hq, Bool.or_false]
              obtain ⟨first, more, hpart⟩ := exists_splitOnP_eq_cons q part
              rw [hpart, List.cons_append] at ih
              rw [splitOnP_cons_neg hq hpart, List.cons_append,
                splitOnP_cons_neg (p := fun c => p c || q c) hor ih.symm]

/-- The order of two cuts does not matter. -/
theorem flatMap_splitOnP_comm (p q : α → Bool) (xs : List α) :
    (xs.splitOnP p).flatMap (List.splitOnP q) = (xs.splitOnP q).flatMap (List.splitOnP p) := by
  rw [flatMap_splitOnP, flatMap_splitOnP]
  exact congrArg (List.splitOnP · xs) (funext fun c => Bool.or_comm (p c) (q c))

theorem flatMap_splitOnP_of_imp (h : ∀ c, p c = true → q c = true) (xs : List α) :
    (xs.splitOnP p).flatMap (List.splitOnP q) = xs.splitOnP q := by
  rw [flatMap_splitOnP]
  refine congrArg (List.splitOnP · xs) (funext fun c => ?_)
  cases hc : p c with
  | true => rw [Bool.true_or, h c hc]
  | false => rw [Bool.false_or]

/-- Where two lists meet, the last part of one and the first part of the other become one. -/
theorem splitOnP_append (p : α → Bool) (xs ys : List α) :
    ∃ init last first rest, xs.splitOnP p = init ++ [last] ∧ ys.splitOnP p = first :: rest ∧
      (xs ++ ys).splitOnP p = init ++ (last ++ first) :: rest := by
  obtain ⟨first, rest, hys⟩ := exists_splitOnP_eq_cons p ys
  induction xs with
  | nil => exact ⟨[], [], first, rest, rfl, hys, hys⟩
  | cons x xs ih =>
      obtain ⟨init, last, first', rest', hxs, hys', happend⟩ := ih
      obtain ⟨rfl, rfl⟩ := List.cons.inj (hys.symm.trans hys')
      cases hx : p x with
      | true =>
          refine ⟨[] :: init, last, first, rest, ?_, hys, ?_⟩
          · rw [splitOnP_cons_pos hx, hxs, List.cons_append]
          · rw [List.cons_append, splitOnP_cons_pos hx, happend, List.cons_append]
      | false =>
          cases init with
          | nil =>
              exact ⟨[], x :: last, first, rest, splitOnP_cons_neg hx hxs, hys,
                splitOnP_cons_neg hx happend⟩
          | cons part init =>
              exact ⟨(x :: part) :: init, last, first, rest, splitOnP_cons_neg hx hxs, hys,
                splitOnP_cons_neg hx happend⟩

/-! ### Trimming -/

def trim (w : α → Bool) (xs : List α) : List α := (xs.dropWhile w).rdropWhile w

/-- No padding at either end. -/
structure Bare (w : α → Bool) (xs : List α) : Prop where
  head : ∀ c ∈ xs.head?, w c = false
  last : ∀ c ∈ xs.getLast?, w c = false

theorem trim_cons_pos (h : w x = true) (xs : List α) : trim w (x :: xs) = trim w xs :=
  congrArg (List.rdropWhile w) (List.dropWhile_cons_of_pos h)

theorem trim_concat_pos (h : w x = true) (xs : List α) : trim w (xs ++ [x]) = trim w xs := by
  unfold trim
  rw [List.dropWhile_append, List.dropWhile_cons_of_pos h, List.dropWhile_nil]
  split
  · next hempty => rw [List.isEmpty_iff.mp hempty]
  · exact List.rdropWhile_concat_pos w _ x h

theorem trim_append_left (h : ∀ c ∈ before, w c = true) (xs : List α) :
    trim w (before ++ xs) = trim w xs := by
  induction before with
  | nil => rfl
  | cons c before ih =>
      rw [List.cons_append, trim_cons_pos (h c List.mem_cons_self)]
      exact ih fun d hd => h d (List.mem_cons_of_mem _ hd)

theorem trim_append_right (h : ∀ c ∈ after, w c = true) (xs : List α) :
    trim w (xs ++ after) = trim w xs := by
  induction after generalizing xs with
  | nil => rw [List.append_nil]
  | cons c after ih =>
      rw [← List.singleton_append, ← List.append_assoc,
        ih (fun d hd => h d (List.mem_cons_of_mem _ hd)), trim_concat_pos (h c List.mem_cons_self)]

theorem trim_eq_nil_iff : trim w xs = [] ↔ ∀ c ∈ xs, w c = true := by
  unfold trim
  rw [List.rdropWhile_eq_nil_iff]
  refine ⟨fun h => ?_, fun h c hc => h c ((List.dropWhile_sublist w).subset hc)⟩
  intro c hc
  rw [← List.takeWhile_append_dropWhile (p := w) (l := xs)] at hc
  exact (List.mem_append.mp hc).elim List.mem_takeWhile_imp (h c)

theorem trim_of_bare (h : Bare w xs) : trim w xs = xs := by
  have hdrop : xs.dropWhile w = xs := by
    cases xs with
    | nil => rfl
    | cons c xs => exact List.dropWhile_cons_of_neg (ne_true_of_eq_false (h.head c rfl))
  rw [trim, hdrop, List.rdropWhile_eq_self_iff]
  exact fun hne => ne_true_of_eq_false (h.last _ (List.getLast?_eq_some_getLast hne))

theorem trim_parts (w : α → Bool) (xs : List α) :
    ∃ before after, xs = before ++ trim w xs ++ after ∧
      (∀ c ∈ before, w c = true) ∧ ∀ c ∈ after, w c = true := by
  refine ⟨xs.takeWhile w, (xs.dropWhile w).rtakeWhile w, ?_, fun c => List.mem_takeWhile_imp,
    fun c => List.mem_rtakeWhile_imp⟩
  rw [trim, List.append_assoc, List.rdropWhile_append_rtakeWhile,
    List.takeWhile_append_dropWhile]

theorem bare_trim (w : α → Bool) (xs : List α) : Bare w (trim w xs) where
  head c hc := by
    obtain ⟨rest, htrim⟩ : trim w xs <+: xs.dropWhile w := List.rdropWhile_prefix w _
    have hhead : (xs.dropWhile w).head? = some c := by
      rw [← htrim, List.head?_append_of_ne_nil _ fun h => by rw [h] at hc; cases hc]
      exact hc
    have hnot := List.head?_dropWhile_not w xs
    rw [hhead] at hnot
    exact hnot
  last c hc := by
    have hne : trim w xs ≠ [] := fun h => by rw [h] at hc; cases hc
    rw [List.getLast?_eq_some_getLast hne] at hc
    obtain rfl := Option.some.inj hc
    exact eq_false_of_ne_true (List.rdropWhile_last_not w _ hne)

theorem trim_subset (w : α → Bool) (xs : List α) : trim w xs ⊆ xs := fun _ hc =>
  (List.dropWhile_sublist w).subset ((List.rdropWhile_prefix w _).subset hc)

/-! ### The parts without their padding -/

/-- The parts between separators that are more than padding, trimmed. -/
def entries (w p : α → Bool) (xs : List α) : List (List α) :=
  ((xs.splitOnP p).map (trim w)).filter (· ≠ [])

/-- A list without separators has one part. -/
theorem entries_of_none (h : ∀ c ∈ xs, p c = false) :
    entries w p xs = [trim w xs].filter (· ≠ []) := by
  rw [entries, List.splitOnP_eq_singleton h, List.map_singleton]

theorem entries_cons_separator (h : p x = true) (w : α → Bool) (xs : List α) :
    entries w p (x :: xs) = entries w p xs := by
  rw [entries, splitOnP_cons_pos h]
  rfl

theorem entries_cons_pos (h : w x = true) (p : α → Bool) (xs : List α) :
    entries w p (x :: xs) = entries w p xs := by
  cases hx : p x with
  | true => exact entries_cons_separator hx w xs
  | false =>
      obtain ⟨part, rest, hxs⟩ := exists_splitOnP_eq_cons p xs
      rw [entries, entries, splitOnP_cons_neg hx hxs, hxs, List.map_cons, trim_cons_pos h,
        List.map_cons]

theorem entries_append_left (h : ∀ c ∈ before, w c = true) (p : α → Bool) (xs : List α) :
    entries w p (before ++ xs) = entries w p xs := by
  induction before with
  | nil => rfl
  | cons c before ih =>
      rw [List.cons_append, entries_cons_pos (h c List.mem_cons_self)]
      exact ih fun d hd => h d (List.mem_cons_of_mem _ hd)

theorem entries_eq_nil_of_forall (h : ∀ c ∈ xs, w c = true ∨ p c = true) : entries w p xs = [] := by
  induction xs with
  | nil => rfl
  | cons c xs ih =>
      have hrest := ih fun d hd => h d (List.mem_cons_of_mem _ hd)
      rcases h c List.mem_cons_self with hc | hc
      · rw [entries_cons_pos hc, hrest]
      · rw [entries_cons_separator hc, hrest]

/-- Padding at the end changes no part: it is one more part, or the end of the last one. -/
theorem entries_append_right (h : ∀ c ∈ after, w c = true) (p : α → Bool) (xs : List α) :
    entries w p (xs ++ after) = entries w p xs := by
  obtain ⟨init, last, first, rest, hxs, hafter, happend⟩ := splitOnP_append p xs after
  have hnil : entries w p after = [] := entries_eq_nil_of_forall fun c hc => .inl (h c hc)
  rw [entries, hafter, List.map_cons, List.filter_eq_nil_iff, List.forall_mem_cons] at hnil
  have hfirst : ∀ c ∈ first, w c = true :=
    trim_eq_nil_iff.mp (not_not.mp (decide_eq_true_iff.not.mp hnil.1))
  rw [entries, entries, happend, hxs, List.map_append, List.map_append, List.map_cons, List.map_cons,
    trim_append_right hfirst, List.filter_append, List.filter_append, List.filter_cons,
    List.filter_cons, List.filter_eq_nil_iff.mpr hnil.2]
  rfl

theorem entries_eq_nil_iff : entries w p xs = [] ↔ ∀ c ∈ xs, w c = true ∨ p c = true := by
  refine ⟨fun h => ?_, entries_eq_nil_of_forall⟩
  rw [entries, List.filter_eq_nil_iff, List.forall_mem_map] at h
  have hparts : ∀ part ∈ xs.splitOnP p, ∀ c ∈ part, w c = true := fun part hpart =>
    trim_eq_nil_iff.mp (not_not.mp (decide_eq_true_iff.not.mp (h part hpart)))
  intro c hc
  apply or_iff_not_imp_right.mpr
  intro hsep
  obtain ⟨part, hpart, hmem⟩ := exists_mem_splitOnP hc (eq_false_of_ne_true hsep)
  exact hparts part hpart c hmem

theorem mem_entries (h : part ∈ entries w p xs) :
    part ≠ [] ∧ Bare w part ∧ part ⊆ xs ∧ ∀ c ∈ part, p c = false := by
  obtain ⟨hmem, hne⟩ := List.mem_filter.mp h
  obtain ⟨piece, hpiece, rfl⟩ := List.mem_map.mp hmem
  exact ⟨decide_eq_true_iff.mp hne, bare_trim w piece,
    List.Subset.trans (trim_subset w piece) (subset_of_mem_splitOnP hpiece),
    fun c hc => eq_false_of_mem_splitOnP hpiece c (trim_subset w piece hc)⟩

/-- Cut at `p` and then at `q`, or the other way round. -/
theorem flatMap_entries_comm (w p q : α → Bool) (xs : List α) :
    (xs.splitOnP p).flatMap (entries w q) = (xs.splitOnP q).flatMap (entries w p) := by
  have hwords (p q : α → Bool) : (xs.splitOnP p).flatMap (entries w q) =
      (((xs.splitOnP p).flatMap (List.splitOnP q)).map (trim w)).filter (· ≠ []) := by
    rw [List.map_flatMap, List.filter_flatMap]
    rfl
  rw [hwords, hwords, flatMap_splitOnP_comm]

/-! ### What comes on top -/

theorem length_flatMap_append {β : Type} (f g : α → List β) (xs : List α) :
    (xs.flatMap fun x => f x ++ g x).length = (xs.flatMap f).length + (xs.flatMap g).length := by
  induction xs with
  | nil => rfl
  | cons x xs ih =>
      simp only [List.flatMap_cons, List.length_append, ih]
      omega

theorem flatMap_append_eq {β : Type} {f g : α → List β}
    (h : (xs.flatMap fun x => f x ++ g x) = xs.flatMap f) : ∀ x ∈ xs, g x = [] := by
  have hlength := length_flatMap_append f g xs
  rw [h, Nat.left_eq_add] at hlength
  exact List.flatMap_eq_nil_iff.mp (List.length_eq_zero_iff.mp hlength)

end Distllm.Splits
