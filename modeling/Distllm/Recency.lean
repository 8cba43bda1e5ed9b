import Mathlib.Data.List.Dedup
import Distllm.Table

/-! Tables with the most recently used entry first. An entry falls out at the end once as many others
have been put before it as the table may hold, so it stays as long as fewer keys have been used since
its own use. -/

namespace AList

variable {κ ν : Type} [DecidableEq κ]

/-- The key has the value, and the entries before it are of the keys in `used`. -/
def Behind (used : List κ) (a : κ) (v : ν) (s : AList fun _ : κ => ν) : Prop :=
  ∃ front back, s.entries = front ++ ⟨a, v⟩ :: back ∧ ∀ x ∈ front, x.1 ∈ used

namespace Behind

variable {used used' : List κ} {a b : κ} {v w : ν} {s : AList fun _ : κ => ν}

theorem lookup (h : s.Behind used a v) : s.lookup a = some v := by
  obtain ⟨front, back, hentries, -⟩ := h
  rw [← mem_entries_iff, hentries]
  exact List.mem_append_right _ List.mem_cons_self

/-- The keys before one in a table. -/
theorem of_lookup (h : s.lookup a = some v) :
    s.Behind (s.keys.takeWhile fun x => !decide (x = a)) a v := by
  have hmem : (⟨a, v⟩ : Sigma fun _ : κ => ν) ∈ s.entries := mem_entries_iff.mpr h
  obtain ⟨front, back, hentries⟩ := List.append_of_mem hmem
  refine ⟨front, back, hentries, fun x hx => ?_⟩
  have hnodup : (front.map Sigma.fst ++ a :: back.map Sigma.fst).Nodup := by
    have hkeys := s.nodupKeys
    rwa [hentries, List.NodupKeys, List.keys, List.map_append, List.map_cons] at hkeys
  have hbefore : ∀ y ∈ front.map Sigma.fst, (!decide (y = a)) = true := by
    intro y hy
    have hne : y ≠ a := fun hya =>
      (List.nodup_append.mp hnodup).2.2 y hy a List.mem_cons_self hya
    rw [decide_eq_false hne, Bool.not_false]
  rw [keys, List.keys, hentries, List.map_append, List.takeWhile_append_of_pos hbefore]
  exact List.mem_append_left _ (List.mem_map_of_mem hx)

omit [DecidableEq κ] in
theorem mono (h : s.Behind used a v) (hsub : ∀ x ∈ used, x ∈ used') : s.Behind used' a v := by
  obtain ⟨front, back, hentries, hfront⟩ := h
  exact ⟨front, back, hentries, fun x hx => hsub _ (hfront x hx)⟩

/-- An entry just put into the table stands first. -/
theorem insert_self (a : κ) (v : ν) (s : AList fun _ : κ => ν) : (s.insert a v).Behind [] a v :=
  ⟨[], s.entries.kerase a, entries_insert, nofun⟩

theorem erase (h : s.Behind used a v) (hne : b ≠ a) : (s.erase b).Behind used a v := by
  obtain ⟨front, back, hentries, hfront⟩ := h
  have herase : (s.erase b).entries = (front ++ ⟨a, v⟩ :: back).kerase b := by
    rw [← hentries]
    rfl
  by_cases hb : b ∈ front.keys
  · rw [List.kerase_append_left hb] at herase
    exact ⟨_, _, herase, fun x hx => hfront x ((List.kerase_sublist b front).subset hx)⟩
  · rw [List.kerase_append_right hb, List.kerase_cons_ne hne] at herase
    exact ⟨_, _, herase, hfront⟩

theorem insert (h : s.Behind used a v) (hne : b ≠ a) (w : ν) :
    (s.insert b w).Behind (b :: used) a v := by
  obtain ⟨front, back, hentries, hfront⟩ := h.erase hne
  refine ⟨⟨b, w⟩ :: front, back, ?_, fun x hx => ?_⟩
  · rw [entries_insert, List.cons_append, ← hentries]
    rfl
  · rcases List.mem_cons.mp hx with rfl | hx
    · exact List.mem_cons_self
    · exact List.mem_cons_of_mem _ (hfront x hx)

theorem modify (h : s.Behind used a v) (hne : b ≠ a) (f : ν → ν) :
    (s.modify b f).Behind used a v := by
  obtain ⟨front, back, hentries, hfront⟩ := h
  have hmap : (s.modify b f).entries =
      (front ++ ⟨a, v⟩ :: back).map fun x => if x.1 = b then ⟨x.1, f x.2⟩ else x := by
    rw [← hentries]
    rfl
  rw [List.map_append, List.map_cons, if_neg (Ne.symm hne)] at hmap
  refine ⟨_, _, hmap, fun x hx => ?_⟩
  obtain ⟨y, hy, rfl⟩ := List.mem_map.mp hx
  have hkey : (if y.1 = b then (⟨y.1, f y.2⟩ : Sigma fun _ : κ => ν) else y).1 = y.1 := by
    split <;> rfl
  rw [hkey]
  exact hfront y hy

omit [DecidableEq κ] in
theorem retain (h : s.Behind used a v) {p : κ → ν → Bool} (hp : p a v = true) :
    (s.retain p).Behind used a v := by
  obtain ⟨front, back, hentries, hfront⟩ := h
  have hfilter : (s.retain p).entries =
      (front ++ ⟨a, v⟩ :: back).filter fun x => p x.1 x.2 := by
    rw [← hentries]
    rfl
  rw [List.filter_append, List.filter_cons, if_pos hp] at hfilter
  exact ⟨_, _, hfilter, fun x hx => hfront x (List.mem_filter.mp hx).1⟩

/-- With fewer keys used than the table may hold, the entry is not cut off. -/
theorem keepFirst (h : s.Behind used a v) {n : Nat} (hn : used.dedup.length < n) :
    (s.keepFirst n).Behind used a v := by
  obtain ⟨front, back, hentries, hfront⟩ := h
  have hnodup : (front.map Sigma.fst).Nodup := by
    have hkeys := s.nodupKeys
    rw [hentries, List.NodupKeys, List.keys, List.map_append] at hkeys
    exact (List.nodup_append.mp hkeys).1
  have hsub : front.map Sigma.fst ⊆ used.dedup := by
    intro x hx
    obtain ⟨y, hy, rfl⟩ := List.mem_map.mp hx
    exact List.mem_dedup.mpr (hfront y hy)
  have hlength : front.length < n := by
    have hle := (List.subperm_of_subset hnodup hsub).length_le
    rw [List.length_map] at hle
    exact Nat.lt_of_le_of_lt hle hn
  refine ⟨front, back.take (n - front.length - 1), ?_, hfront⟩
  calc (s.keepFirst n).entries
      = (front ++ ⟨a, v⟩ :: back).take n := by rw [← hentries]; rfl
    _ = front ++ (⟨a, v⟩ :: back).take (n - front.length) := by
      rw [List.take_append, List.take_of_length_le (Nat.le_of_lt hlength)]
    _ = front ++ ⟨a, v⟩ :: back.take (n - front.length - 1) := by
      rw [List.take_cons (Nat.sub_pos_of_lt hlength)]

end Behind
end AList
