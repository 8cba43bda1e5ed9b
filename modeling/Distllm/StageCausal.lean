import Distllm.Causal
import Distllm.StageSpec

/-! Stages whose layers are deterministic and causal. A pass over new positions on the cache of
the first ones gives the part of a full pass that belongs to the new positions, and the cache of
all of them; a crop gives the cache of the first positions. Under this law a request that carries
a slice of a sequence is a miss, or it is answered as a pass over the whole sequence would answer
it, and leaves the cache of that sequence. -/

namespace Distllm.Stage

variable {τ η ℓ κ α : Type} {cfg : Config} {M : Model τ η ℓ κ} {now : Instant} {s : Sessions κ}

/-- The law of a stage: `wrap` makes its input of positions of the shape `shape`, `dims` is the
shape of a hidden position. -/
structure Law (M : Model τ η ℓ κ) (wrap : Tensor α → Inputs τ η) (shape dims : List Nat) where
  full : Causal α η
  cacheOf : List α → Cache κ
  seqLen : ∀ t, (wrap t).seqLen = t.seqLen
  fresh : M.freshCache = cacheOf []
  forward : ∀ (xs : List α) (a : Nat), a < xs.length →
    (M.base (wrap (.row shape (xs.drop a))) a (cacheOf (xs.take a))).1 =
      .row dims ((full xs).drop a)
  cached : ∀ (xs : List α) (a : Nat), a < xs.length →
    M.after (wrap (.row shape (xs.drop a))) a (cacheOf (xs.take a)) = cacheOf xs
  crop : ∀ (xs : List α) (n : Nat), 0 < n → n ≤ xs.length →
    (cacheOf xs).crop n = cacheOf (xs.take n)

variable {wrap : Tensor α → Inputs τ η} {shape dims : List Nat}

/-- What a request gets back for the hidden positions from `a` on. -/
def answer (cfg : Config) (M : Model τ η ℓ κ) (dims : List Nat) (p : Payload τ η)
    (hidden : List η) : Response τ η ℓ :=
  if cfg.isLast && p.argmax then .argmax (hidden.map fun h => M.argmax (M.lmHead h))
  else if cfg.isLast then .logits (hidden.getLast?.toList.map M.lmHead)
  else .hidden (handOn p (.row dims hidden))

theorem lastOfRows_row {β : Type} (rest : List Nat) {items : List β} (h : items ≠ []) :
    (Tensor.row rest items).lastOfRows = some items.getLast?.toList := by
  cases hn : items.length with
  | zero => exact absurd (List.eq_nil_of_length_eq_zero hn) h
  | succ n =>
      have hlast : items[n]? = some (items.getLast h) := by
        rw [List.getLast_eq_getElem, List.getElem?_eq_getElem (by omega)]
        simp only [hn, Nat.add_sub_cancel]
      rw [Tensor.row, Tensor.lastOfRows, hn]
      simp [hlast, List.getLast?_eq_getLast_of_ne_nil h]

theorem firstRow_row {β : Type} (rest : List Nat) (items : List β) :
    (Tensor.row rest items).firstRow = some items :=
  congrArg some List.take_length

theorem output_row (p : Payload τ η) {hidden : List η} (h : hidden ≠ []) :
    output cfg M p (.row dims hidden) = .ok (answer cfg M dims p hidden) := by
  unfold output answer
  split
  · rw [firstRow_row]
  · split
    · rw [lastOfRows_row dims h]
    · rfl

/-- The cache and the length of a session are those of a pass over the sequence. -/
def Law.Holds (law : Law M wrap shape dims) (sess : Session κ) (xs : List α) : Prop :=
  sess.cache = law.cacheOf xs ∧ sess.length = xs.length

/-- The request carries the sequence from position `a` on. -/
structure Slice (cfg : Config) (wrap : Tensor α → Inputs τ η) (shape : List Nat)
    (p : Payload τ η) (xs : List α) (a : Nat) : Prop where
  named : p.sessionId ≠ ""
  isOpen : p.close = false
  starts : p.startPos = some (a : Int)
  nonempty : a < xs.length
  items : inputs cfg p = .ok (wrap (.row shape (xs.drop a)))

variable {law : Law M wrap shape dims} {p : Payload τ η} {xs : List α} {a : Nat}

/-- A pass over the slice on the cache of the positions before it. -/
theorem advance_slice (hp : Slice cfg wrap shape p xs a) :
    advance cfg M now s ⟨p, .none⟩ a (law.cacheOf (xs.take a)) =
      (.ok (answer cfg M dims p ((law.full xs).drop a)),
        evict cfg now (s.insert p.sessionId ⟨law.cacheOf xs, xs.length, now⟩)) := by
  have hlength : (wrap (.row shape (xs.drop a))).seqLen = some (xs.length - a) := by
    rw [law.seqLen]
    exact congrArg some (List.length_drop ..)
  have hhidden : (law.full xs).drop a ≠ [] := by
    rw [Ne, List.drop_eq_nil_iff, law.full.length_apply]
    exact Nat.not_le.mpr hp.nonempty
  have hend : (a : Int) + ((xs.length - a : Nat) : Int) = xs.length := by
    have hle := hp.nonempty
    omega
  have hcached := law.cached xs a hp.nonempty
  unfold Model.after at hcached
  unfold advance
  dsimp only
  rw [hp.items]
  dsimp only
  rw [hlength]
  simp only [Faults.none_base, Faults.none_output, Bool.false_eq_true, if_false]
  rw [law.forward xs a hp.nonempty, output_row p hhidden, hcached, hend]

/-- After the pass the session, unless evicted, holds the whole sequence. -/
theorem stored_slice (id : String) (sess : Session κ)
    (h : (evict cfg now (s.insert id ⟨law.cacheOf xs, xs.length, now⟩)).lookup id = some sess) :
    law.Holds sess xs := by
  have h := lookup_of_evict cfg h
  rw [AList.lookup_insert] at h
  cases h
  exact ⟨rfl, rfl⟩

variable (law now) in
/-- A slice is a miss, or it is answered from the whole sequence, provided that a stored cache
that is long enough agrees with the sequence up to where the slice starts. -/
theorem handle_slice (hp : Slice cfg wrap shape p xs a)
    (hstored : a ≠ 0 → ∀ sess, s.lookup p.sessionId = some sess → (a : Int) ≤ sess.length →
      ∃ zs, law.Holds sess zs ∧ zs.take a = xs.take a) :
    (∃ cached, handle cfg M now s ⟨p, .none⟩ = (.ok (.cacheMiss cached), s)) ∨
      ∃ s', handle cfg M now s ⟨p, .none⟩ =
          (.ok (answer cfg M dims p ((law.full xs).drop a)), s') ∧
        ∀ sess, s'.lookup p.sessionId = some sess → law.Holds sess xs := by
  unfold handle
  dsimp only
  rw [if_neg hp.named, hp.isOpen, if_neg Bool.false_ne_true, hp.starts]
  dsimp only
  by_cases hzero : a = 0
  · right
    subst hzero
    have hfresh : M.freshCache = law.cacheOf (xs.take 0) := law.fresh
    rw [Int.natCast_zero, if_pos rfl, hfresh]
    exact ⟨_, advance_slice hp, stored_slice p.sessionId⟩
  · have hne : (a : Int) ≠ 0 := Int.natCast_ne_zero.mpr hzero
    rw [if_neg hne]
    cases hsess : s.lookup p.sessionId with
    | none => exact .inl ⟨0, rfl⟩
    | some sess =>
        dsimp only
        by_cases hrewind : p.rewind = true ∧ (a : Int) < sess.length
        · right
          obtain ⟨zs, ⟨hcache, hlength⟩, hagree⟩ :=
            hstored hzero sess hsess (Int.le_of_lt hrewind.2)
          have hle : a ≤ zs.length := by
            have hlt := hrewind.2
            omega
          have hcrop : sess.cache.crop a = law.cacheOf (xs.take a) := by
            rw [hcache, law.crop zs a (Nat.pos_of_ne_zero hzero) hle, hagree]
          rw [if_pos hrewind]
          simp only [Faults.none_crop]
          rw [hcrop]
          exact ⟨_, advance_slice hp, stored_slice p.sessionId⟩
        · rw [if_neg hrewind]
          by_cases hlength : sess.length = a
          · right
            obtain ⟨zs, ⟨hcache, hlen⟩, hagree⟩ := hstored hzero sess hsess (Int.le_of_eq hlength.symm)
            have hwhole : zs.take a = zs := List.take_of_length_le (by omega)
            rw [if_neg (not_not_intro hlength), hcache, ← hwhole, hagree]
            exact ⟨_, advance_slice hp, stored_slice p.sessionId⟩
          · left
            rw [if_pos hlength]
            exact ⟨_, rfl⟩

/-! ### The prefix sums -/

def prefixSums : Causal Nat Nat where
  toFun := fun xs => (List.range xs.length).map fun i => (xs.take (i + 1)).sum
  length_eq := fun xs => by rw [List.length_map, List.length_range]
  take_eq := fun xs n => by
    rw [← List.map_take, List.take_range, List.length_take]
    apply List.map_congr_left
    intro i hi
    have hlt : i + 1 ≤ n := by
      have hi := List.mem_range.mp hi
      omega
    rw [List.take_take, Nat.min_eq_left hlt]

theorem prefixSums_drop (xs : List Nat) (a : Nat) :
    (prefixSums xs).drop a = (List.range (xs.length - a)).map fun i =>
      (xs.take a).sum + ((xs.drop a).take (i + 1)).sum := by
  apply List.ext_getElem?
  intro i
  rw [List.getElem?_drop]
  simp only [prefixSums, List.getElem?_map]
  by_cases hi : a + i < xs.length
  · rw [List.getElem?_range hi, List.getElem?_range (by omega)]
    simp only [Option.map_some, Option.some.injEq]
    rw [Nat.add_assoc, List.take_add, List.sum_append]
  · rw [List.getElem?_eq_none (by rw [List.length_range]; omega),
      List.getElem?_eq_none (by rw [List.length_range]; omega)]
    rfl

theorem map_getD_range (xs : List Nat) :
    ((List.range xs.length).map fun i => xs.getD i 0) = xs := by
  apply List.ext_getElem?
  intro i
  rw [List.getElem?_map]
  by_cases hi : i < xs.length
  · rw [List.getElem?_range hi, Option.map_some, List.getD_eq_getElem?_getD,
      List.getElem?_eq_getElem hi, Option.getD_some]
  · rw [List.getElem?_eq_none (by rw [List.length_range]; omega), List.getElem?_eq_none (by omega)]
    rfl

/-- One pass of `prefixSum` on a row of inputs. -/
theorem prefixSum_base {wrap : Tensor Nat → Inputs Nat Nat} (hsame : ∀ t, (wrap t).shape = t.shape)
    (hitems : ∀ t, (wrap t).items = t.items) (items : List Nat) (start : Int) (cache : Cache Nat) :
    prefixSum.base (wrap (.row [] items)) start cache =
      (.row [] ((List.range items.length).map fun i =>
          (cache.headD ⟨true, true, []⟩).columns.sum + (items.take (i + 1)).sum),
        cache.map fun _ => items) := by
  have hshape : (wrap (.row [] items)).shape = [1, items.length] := hsame _
  have hseq : (wrap (.row [] items)).seqLen = some items.length := by
    rw [Inputs.seqLen, hshape]
    rfl
  have hkept : ((List.range items.length).map fun i =>
      (wrap (.row [] items)).items.getD i 0) = items := by
    rw [hitems]
    exact map_getD_range items
  simp only [prefixSum, hshape, hseq, Option.getD_some, hkept]
  simp only [Tensor.row, List.length_map, List.length_range]
  rfl

def prefixSumLaw (wrap : Tensor Nat → Inputs Nat Nat) (hsame : ∀ t, (wrap t).shape = t.shape)
    (hitems : ∀ t, (wrap t).items = t.items) : Law prefixSum wrap [] [] where
  full := prefixSums
  cacheOf := fun xs => [⟨true, !xs.isEmpty, xs⟩]
  seqLen := fun t => congrArg (·[1]?) (hsame t)
  fresh := rfl
  forward := fun xs a _ => by
    rw [prefixSum_base hsame hitems, prefixSums_drop, List.length_drop]
    rfl
  cached := fun xs a ha => by
    have hne : xs.isEmpty = false := by
      rw [List.isEmpty_eq_false_iff]
      exact List.ne_nil_of_length_pos (Nat.zero_lt_of_lt ha)
    rw [Model.after, prefixSum_base hsame hitems]
    simp only [Cache.append, List.map_cons, List.map_nil, List.zipWith_cons_cons,
      List.zipWith_nil_left, Layer.update, List.take_append_drop, hne, Bool.not_false]
  crop := fun xs n hn hle => by
    have hne : xs.isEmpty = (xs.take n).isEmpty := by
      cases xs with
      | nil => rw [List.take_nil]
      | cons x rest =>
          cases n with
          | zero => exact absurd hn (Nat.lt_irrefl 0)
          | succ n => rfl
    simp only [Cache.crop, List.map_cons, List.map_nil, Layer.crop_of_nonneg (Int.natCast_nonneg n),
      Int.toNat_natCast, hne]

/-- `prefixSum` on token ids, as a first stage gets them. -/
def prefixSumOfIds : Law prefixSum .inputIds [] [] :=
  prefixSumLaw .inputIds (fun _ => rfl) fun _ => rfl

/-- `prefixSum` on hidden states, as a later stage gets them. -/
def prefixSumOfEmbeds : Law prefixSum .inputsEmbeds [] [] :=
  prefixSumLaw .inputsEmbeds (fun _ => rfl) fun _ => rfl

end Distllm.Stage
