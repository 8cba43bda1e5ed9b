import Mathlib.Data.List.AList

/-! Finite maps as association lists without repeated keys. The order of the entries stands for
the iteration order of a hash map (it may be permuted at will), or for the recency order of an
ordered dictionary. Mathlib's `AList` has lookup, insertion and removal; an update in place, a
filter, insertion at the end, and the multiset of all items of a map of queues are added here. -/

namespace AList

variable {κ ν α : Type} [DecidableEq κ]

/-! ### Update in place and filter -/

/-- Update the value of one key, leaving the order of the entries alone. -/
def modify (a : κ) (f : ν → ν) (s : AList fun _ : κ => ν) : AList fun _ : κ => ν where
  entries := s.entries.map fun e => if e.1 = a then ⟨e.1, f e.2⟩ else e
  nodupKeys := by
    have h := s.nodupKeys
    rw [List.NodupKeys, List.keys] at h ⊢
    convert h using 1
    rw [List.map_map]
    apply List.map_congr_left
    intro e _
    by_cases he : e.1 = a <;> simp [he]

/-- Keep the entries satisfying `p`. -/
def retain (p : κ → ν → Bool) (s : AList fun _ : κ => ν) : AList fun _ : κ => ν where
  entries := s.entries.filter fun e => p e.1 e.2
  nodupKeys := (List.filter_sublist.map Sigma.fst).nodup s.nodupKeys

/-- The keys of the entries satisfying `p`, in iteration order. -/
def keysWhere (p : κ → ν → Bool) (s : AList fun _ : κ => ν) : List κ :=
  (s.retain p).keys

theorem mem_entries_iff {a : κ} {b : ν} {s : AList fun _ : κ => ν} :
    (⟨a, b⟩ : Sigma fun _ : κ => ν) ∈ s.entries ↔ s.lookup a = some b :=
  (mem_lookup_iff (β := fun _ => ν)).symm

theorem lookup_modify (a b : κ) (f : ν → ν) (s : AList fun _ : κ => ν) :
    (s.modify a f).lookup b = if b = a then (s.lookup b).map f else s.lookup b := by
  apply Option.ext
  intro v
  rw [← mem_entries_iff]
  simp only [modify, List.mem_map, Sigma.exists, mem_entries_iff]
  constructor
  · rintro ⟨c, w, hw, heq⟩
    by_cases hca : c = a
    · rw [if_pos hca] at heq
      obtain ⟨rfl, hv⟩ := Sigma.mk.inj heq
      rw [if_pos hca, hw, ← eq_of_heq hv, Option.map_some]
    · rw [if_neg hca] at heq
      obtain ⟨rfl, hv⟩ := Sigma.mk.inj heq
      rw [if_neg hca, hw, eq_of_heq hv]
  · intro h
    by_cases hba : b = a
    · rw [if_pos hba, Option.map_eq_some_iff] at h
      obtain ⟨w, hw, rfl⟩ := h
      exact ⟨b, w, hw, if_pos hba⟩
    · rw [if_neg hba] at h
      exact ⟨b, v, h, if_neg hba⟩

@[simp] theorem lookup_modify_self (a : κ) (f : ν → ν) (s : AList fun _ : κ => ν) :
    (s.modify a f).lookup a = (s.lookup a).map f := by
  rw [lookup_modify, if_pos rfl]

/-- An update that gives back the stored value changes nothing. -/
theorem modify_eq_self {a : κ} {f : ν → ν} {s : AList fun _ : κ => ν}
    (h : ∀ v, s.lookup a = some v → f v = v) : s.modify a f = s := by
  apply AList.ext
  refine (List.map_congr_left fun e he => ?_).trans (List.map_id _)
  by_cases hea : e.1 = a
  · obtain ⟨k, v⟩ := e
    obtain rfl : k = a := hea
    rw [if_pos rfl, h v (mem_entries_iff.mp he), id]
  · rw [if_neg hea, id]

theorem lookup_modify_ne {a b : κ} (h : b ≠ a) (f : ν → ν) (s : AList fun _ : κ => ν) :
    (s.modify a f).lookup b = s.lookup b := by
  rw [lookup_modify, if_neg h]

@[simp] theorem lookup_retain (p : κ → ν → Bool) (a : κ) (s : AList fun _ : κ => ν) :
    (s.retain p).lookup a = (s.lookup a).filter (p a) := by
  apply Option.ext
  intro v
  rw [← mem_entries_iff, Option.filter_eq_some_iff, ← mem_entries_iff]
  simp [retain]

theorem lookup_retain_eq_some {p : κ → ν → Bool} {a : κ} {v : ν} {s : AList fun _ : κ => ν} :
    (s.retain p).lookup a = some v ↔ s.lookup a = some v ∧ p a v = true := by
  rw [lookup_retain, Option.filter_eq_some_iff]

theorem mem_keysWhere {p : κ → ν → Bool} {a : κ} {s : AList fun _ : κ => ν} :
    a ∈ s.keysWhere p ↔ ∃ v, s.lookup a = some v ∧ p a v = true := by
  rw [keysWhere, ← mem_keys, ← lookup_isSome, Option.isSome_iff_exists]
  exact exists_congr fun _ => lookup_retain_eq_some

omit [DecidableEq κ] in
theorem keysWhere_nodup (p : κ → ν → Bool) (s : AList fun _ : κ => ν) : (s.keysWhere p).Nodup :=
  (s.retain p).keys_nodup

theorem lookup_insert_eq (a b : κ) (v : ν) (s : AList fun _ : κ => ν) :
    (s.insert a v).lookup b = if b = a then some v else s.lookup b := by
  by_cases h : b = a
  · rw [if_pos h, h, lookup_insert]
  · rw [if_neg h, lookup_insert_ne h]

theorem lookup_erase_eq (a b : κ) (s : AList fun _ : κ => ν) :
    (s.erase a).lookup b = if b = a then none else s.lookup b := by
  by_cases h : b = a
  · rw [if_pos h, h, lookup_erase]
  · rw [if_neg h, lookup_erase_ne h]

/-- Set the value of a key; a new key goes to the end of the entries. -/
def put (a : κ) (b : ν) (s : AList fun _ : κ => ν) : AList fun _ : κ => ν :=
  if h : a ∈ s.entries.keys then s.modify a fun _ => b
  else
    { entries := s.entries ++ [⟨a, b⟩]
      nodupKeys := by
        rw [List.NodupKeys, List.keys, List.map_append]
        refine List.nodup_append.mpr ⟨s.nodupKeys, List.nodup_singleton _, ?_⟩
        rintro x hx y hy rfl
        obtain rfl : x = a := List.mem_singleton.mp hy
        exact h hx }

theorem lookup_put (a b : κ) (v : ν) (s : AList fun _ : κ => ν) :
    (s.put a v).lookup b = if b = a then some v else s.lookup b := by
  unfold put
  split
  · rename_i h
    rw [lookup_modify]
    split
    · rename_i hb
      obtain ⟨w, hw⟩ := Option.isSome_iff_exists.mp (lookup_isSome.mpr h)
      rw [hb, hw, Option.map_some]
    · rfl
  · rename_i h
    apply Option.ext
    intro w
    rw [← mem_entries_iff, List.mem_append, List.mem_singleton, mem_entries_iff]
    by_cases hb : b = a
    · subst hb
      rw [if_pos rfl, lookup_eq_none.mpr h]
      simp [eq_comm]
    · rw [if_neg hb]
      simp [hb]

@[simp] theorem lookup_put_self (a : κ) (v : ν) (s : AList fun _ : κ => ν) :
    (s.put a v).lookup a = some v := by
  rw [lookup_put, if_pos rfl]

/-- Two maps with the same lookups have the same entries, up to their order. -/
theorem entries_perm_of_lookup {s t : AList fun _ : κ => ν} (h : ∀ a, s.lookup a = t.lookup a) :
    s.entries.Perm t.entries := by
  apply List.lookup_ext s.nodupKeys t.nodupKeys
  intro a v
  rw [show s.entries.dlookup a = s.lookup a from rfl, h a]
  rfl

/-! ### Iteration order -/

theorem keys_modify (a : κ) (f : ν → ν) (s : AList fun _ : κ => ν) :
    (s.modify a f).keys = s.keys := by
  simp only [keys, List.keys, modify, List.map_map]
  apply List.map_congr_left
  intro e _
  rw [Function.comp_apply]
  split <;> rfl

theorem keysWhere_eq_filter (p : κ → ν → Bool) (s : AList fun _ : κ => ν) :
    s.keysWhere p = s.keys.filter fun a => (s.lookup a).any (p a) := by
  simp only [keysWhere, keys, List.keys, List.filter_map]
  refine congrArg _ (List.filter_congr fun e he => ?_)
  rw [Function.comp_apply, mem_entries_iff.mp he, Option.any_some]

/-- The entries can be listed in any order of their keys. -/
theorem exists_keys_eq {s : AList fun _ : κ => ν} {order : List κ} (hnodup : order.Nodup)
    (hmem : ∀ a ∈ order, (s.lookup a).isSome = true) :
    ∃ t : AList fun _ : κ => ν, t.keys = order ∧
      ∀ a, t.lookup a = if a ∈ order then s.lookup a else none := by
  induction order with
  | nil => exact ⟨∅, rfl, fun a => rfl⟩
  | cons a rest ih =>
      obtain ⟨hnew, hrest⟩ := List.nodup_cons.mp hnodup
      obtain ⟨t, hkeys, hlookup⟩ := ih hrest fun b hb => hmem b (List.mem_cons_of_mem a hb)
      obtain ⟨v, hv⟩ := Option.isSome_iff_exists.mp (hmem a List.mem_cons_self)
      refine ⟨t.insert a v, ?_, fun b => ?_⟩
      · rw [keys_insert, hkeys, List.erase_of_not_mem hnew]
      · rw [lookup_insert_eq, hlookup]
        by_cases hb : b = a
        · rw [if_pos hb, hb, if_pos List.mem_cons_self, hv]
        · rw [if_neg hb]
          simp only [List.mem_cons, hb, false_or]

/-! ### The first entries -/

/-- Keep the first `n` entries. -/
def keepFirst (n : Nat) (s : AList fun _ : κ => ν) : AList fun _ : κ => ν where
  entries := s.entries.take n
  nodupKeys := ((List.take_sublist n s.entries).map Sigma.fst).nodup s.nodupKeys

theorem lookup_of_keepFirst {n : Nat} {a : κ} {v : ν} {s : AList fun _ : κ => ν}
    (h : (s.keepFirst n).lookup a = some v) : s.lookup a = some v := by
  rw [← mem_entries_iff] at h ⊢
  exact List.mem_of_mem_take h

omit [DecidableEq κ] in
theorem keepFirst_of_length_le {n : Nat} {s : AList fun _ : κ => ν} (h : s.keys.length ≤ n) :
    s.keepFirst n = s :=
  AList.ext (List.take_of_length_le (by rwa [keys, List.keys, List.length_map] at h))

/-! ### Lengths -/

omit [DecidableEq κ] in
theorem length_keys_keepFirst (n : Nat) (s : AList fun _ : κ => ν) :
    (s.keepFirst n).keys.length ≤ n := by
  rw [keys, List.keys, List.length_map]
  exact List.length_take_le n s.entries

omit [DecidableEq κ] in
theorem length_keys_retain (p : κ → ν → Bool) (s : AList fun _ : κ => ν) :
    (s.retain p).keys.length ≤ s.keys.length :=
  (List.filter_sublist.map Sigma.fst).length_le

theorem length_keys_erase (a : κ) (s : AList fun _ : κ => ν) :
    (s.erase a).keys.length ≤ s.keys.length := by
  rw [keys_erase]
  exact List.erase_sublist.length_le

theorem length_keys_modify (a : κ) (f : ν → ν) (s : AList fun _ : κ => ν) :
    (s.modify a f).keys.length = s.keys.length := by
  simp only [keys, List.keys, modify, List.length_map]

/-- Storing a key again adds no entry. -/
theorem length_keys_insert {a : κ} {s : AList fun _ : κ => ν} (h : a ∈ s) (v : ν) :
    (s.insert a v).keys.length = s.keys.length := by
  rw [keys_insert, List.length_cons, List.length_erase_of_mem (mem_keys.mp h)]
  exact Nat.succ_pred_eq_of_pos (List.length_pos_of_mem (mem_keys.mp h))

/-! ### Maps of queues -/

/-- The queue of a key, empty when there is none. -/
def queue (q : AList fun _ : κ => List α) (a : κ) : List α := (q.lookup a).getD []

/-- All items of all queues. -/
def pooled (q : AList fun _ : κ => List α) : List α := q.entries.flatMap Sigma.snd

/-- Append an item to a queue, making the queue if it is missing. -/
def enqueue (q : AList fun _ : κ => List α) (a : κ) (x : α) : AList fun _ : κ => List α :=
  q.insert a (q.queue a ++ [x])

@[simp] theorem queue_insert_self (q : AList fun _ : κ => List α) (a : κ) (l : List α) :
    (q.insert a l).queue a = l := by
  rw [queue, lookup_insert, Option.getD_some]

theorem queue_insert_ne (q : AList fun _ : κ => List α) {a b : κ} (h : b ≠ a) (l : List α) :
    (q.insert a l).queue b = q.queue b := by
  rw [queue, lookup_insert_ne h, queue]

theorem queue_insert (q : AList fun _ : κ => List α) (a b : κ) (l : List α) :
    (q.insert a l).queue b = if b = a then l else q.queue b := by
  by_cases h : b = a
  · rw [if_pos h, h, queue_insert_self]
  · rw [if_neg h, queue_insert_ne q h]

theorem queue_enqueue (q : AList fun _ : κ => List α) (a b : κ) (x : α) :
    (q.enqueue a x).queue b = if b = a then q.queue a ++ [x] else q.queue b :=
  queue_insert q a b _

theorem mem_queue_enqueue_self (q : AList fun _ : κ => List α) (a : κ) (x : α) :
    x ∈ (q.enqueue a x).queue a := by
  rw [queue_enqueue, if_pos rfl]
  exact List.mem_append_right _ List.mem_cons_self

theorem mem_queue_enqueue_of_mem {q : AList fun _ : κ => List α} {b : κ} {y : α}
    (h : y ∈ q.queue b) (a : κ) (x : α) : y ∈ (q.enqueue a x).queue b := by
  rw [queue_enqueue]
  split
  · rename_i hba
    exact List.mem_append_left _ (hba ▸ h)
  · exact h

theorem queue_erase (q : AList fun _ : κ => List α) (a b : κ) :
    (q.erase a).queue b = if b = a then [] else q.queue b := by
  rw [queue, lookup_erase_eq]
  by_cases h : b = a
  · rw [if_pos h, if_pos h, Option.getD_none]
  · rw [if_neg h, if_neg h, queue]

theorem queue_modify (q : AList fun _ : κ => List α) (a b : κ) (l : List α)
    (hl : q.queue a = [] → l = []) :
    (q.modify a fun _ => l).queue b = if b = a then l else q.queue b := by
  rw [queue, lookup_modify]
  split
  · rename_i hb
    subst hb
    cases h : q.lookup b with
    | none => exact (hl (by rw [queue, h, Option.getD_none])).symm
    | some _ => rfl
  · rfl

theorem pooled_insert (q : AList fun _ : κ => List α) (a : κ) (l : List α) :
    (q.insert a l).pooled = l ++ (q.erase a).pooled := by
  rw [pooled, entries_insert, List.flatMap_cons]
  rfl

theorem pooled_perm (q : AList fun _ : κ => List α) (a : κ) :
    q.pooled.Perm (q.queue a ++ (q.erase a).pooled) := by
  cases h : q.lookup a with
  | none =>
      have hmem : a ∉ q.entries.keys := lookup_eq_none.mp h
      have hentries : (q.erase a).entries = q.entries := List.kerase_of_notMem_keys hmem
      rw [queue, h, Option.getD_none, List.nil_append, pooled, pooled, hentries]
  | some l =>
      have hmem : a ∈ q.entries.keys := lookup_isSome.mp (by rw [h]; rfl)
      obtain ⟨l', before, after, _, hsplit, herase⟩ := List.exists_of_kerase hmem
      have hl : l' = l := by
        have hlookup : q.lookup a = some l' := mem_entries_iff.mp (by rw [hsplit]; simp)
        exact Option.some.inj (hlookup.symm.trans h)
      have hperm : q.entries.Perm (⟨a, l⟩ :: (q.erase a).entries) := by
        rw [hsplit, hl, show (q.erase a).entries = before ++ after from herase]
        exact List.perm_middle
      rw [queue, h, Option.getD_some]
      exact hperm.flatMap_right _

variable [DecidableEq α]

/-- Replacing one queue changes the number of occurrences of an item by what the two queues hold. -/
theorem count_pooled_insert (q : AList fun _ : κ => List α) (a : κ) (l : List α) (x : α) :
    (q.insert a l).pooled.count x + (q.queue a).count x = q.pooled.count x + l.count x := by
  rw [pooled_insert, (q.pooled_perm a).count_eq, List.count_append, List.count_append]
  omega

theorem count_pooled_enqueue (q : AList fun _ : κ => List α) (a : κ) (x y : α) :
    (q.enqueue a x).pooled.count y = q.pooled.count y + if x = y then 1 else 0 := by
  have h := count_pooled_insert q a (q.queue a ++ [x]) y
  rw [List.count_append, List.count_singleton] at h
  simp only [beq_iff_eq] at h
  rw [enqueue]
  omega

theorem count_pooled_erase (q : AList fun _ : κ => List α) (a : κ) (x : α) :
    (q.erase a).pooled.count x + (q.queue a).count x = q.pooled.count x := by
  rw [(q.pooled_perm a).count_eq, List.count_append]
  omega

theorem count_pooled_congr {q r : AList fun _ : κ => List α} (h : ∀ a, q.lookup a = r.lookup a)
    (x : α) : q.pooled.count x = r.pooled.count x :=
  ((entries_perm_of_lookup h).flatMap_right _).count_eq x

/-- Setting the queue of a key in place; a missing key only ever gets the empty queue. -/
theorem count_pooled_modify (q : AList fun _ : κ => List α) (a : κ) (l : List α) (x : α)
    (hl : q.queue a = [] → l = []) :
    (q.modify a fun _ => l).pooled.count x + (q.queue a).count x = q.pooled.count x + l.count x := by
  cases h : q.lookup a with
  | none =>
      have hqueue : q.queue a = [] := by rw [queue, h, Option.getD_none]
      have hsame : ∀ b, (q.modify a fun _ => l).lookup b = q.lookup b := by
        intro b
        rw [lookup_modify]
        split
        · rename_i hb
          rw [hb, h, Option.map_none]
        · rfl
      rw [count_pooled_congr hsame, hqueue, hl hqueue]
  | some l' =>
      have hsame : ∀ b, (q.modify a fun _ => l).lookup b = (q.insert a l).lookup b := by
        intro b
        rw [lookup_modify, lookup_insert_eq]
        split
        · rename_i hb
          rw [hb, h, Option.map_some]
        · rfl
      rw [count_pooled_congr hsame, count_pooled_insert]

/-- Dropping the front of one queue removes the occurrences of an item in the dropped part. -/
theorem count_pooled_dropFront (q : AList fun _ : κ => List α) {a : κ} {front rest : List α}
    (h : q.queue a = front ++ rest) (x : α) :
    (q.modify a fun _ => rest).pooled.count x + front.count x = q.pooled.count x := by
  have hcount := q.count_pooled_modify a rest x fun hnil => by
    rw [h] at hnil
    exact (List.append_eq_nil_iff.mp hnil).2
  rw [h, List.count_append] at hcount
  omega

omit [DecidableEq α] in
theorem mem_queue_dropFront (q : AList fun _ : κ => List α) {a b : κ} {front rest : List α}
    (h : q.queue a = front ++ rest) {x : α} (hx : x ∉ front) :
    x ∈ (q.modify a fun _ => rest).queue b ↔ x ∈ q.queue b := by
  rw [queue_modify q a b rest fun hnil => (List.append_eq_nil_iff.mp (h ▸ hnil)).2]
  split
  · rename_i hb
    rw [hb, h, List.mem_append]
    exact ⟨.inr, fun hmem => hmem.resolve_left hx⟩
  · exact .rfl

end AList
