import Distllm.StageSelection
import Distllm.StageStacking

/-! The answers of a batch, each in the place of its request: those of the requests handled one by one,
and between them those of the pass. -/

namespace Distllm.Stage

variable {τ η ℓ κ : Type} {cfg : Config} {M : Model τ η ℓ κ} {pass : Pass τ η κ} {zero : κ} {s : Sessions κ}
  {now : Instant} {r : Raw τ η} {p : Payload τ η} {rs : List (Raw τ η)}
  {chosen : List (Raw τ η × Option (Payload τ η))}

/-! ### The entries -/

theorem fill_length (results : List (Option (Result τ η ℓ))) (answers : List (Result τ η ℓ)) :
    (fill results answers).length = results.length := by
  induction results generalizing answers with
  | nil => rfl
  | cons entry rest ih =>
      cases entry with
      | some result => exact congrArg Nat.succ (ih answers)
      | none =>
          cases answers with
          | nil => exact congrArg Nat.succ (ih [])
          | cons answer answers => exact congrArg Nat.succ (ih answers)

variable {R : Option (Result τ η ℓ) → Option (Result τ η ℓ) → Prop}
  {results : List (Option (Result τ η ℓ))} {xs ys : List (Result τ η ℓ)}

theorem forall₂_fill (hrefl : ∀ entry, R entry entry)
    (h : List.Forall₂ (fun x y => R (some x) (some y)) xs ys) :
    List.Forall₂ R (fill results xs) (fill results ys) := by
  induction results generalizing xs ys with
  | nil => exact .nil
  | cons entry rest ih =>
      cases entry with
      | some result => exact .cons (hrefl _) (ih h)
      | none =>
          cases h with
          | nil => exact .cons (hrefl _) (ih .nil)
          | cons hxy hrest => exact .cons hxy (ih hrest)

theorem of_forall₂_fill (hx : results.countP Option.isNone = xs.length)
    (hy : results.countP Option.isNone = ys.length)
    (h : List.Forall₂ R (fill results xs) (fill results ys)) :
    List.Forall₂ (fun x y => R (some x) (some y)) xs ys := by
  induction results generalizing xs ys with
  | nil =>
      rw [List.countP_nil] at hx hy
      rw [List.eq_nil_of_length_eq_zero hx.symm, List.eq_nil_of_length_eq_zero hy.symm]
      exact .nil
  | cons entry rest ih =>
      cases entry with
      | some result =>
          rw [List.countP_cons_of_neg (by simp)] at hx hy
          cases h with
          | cons _ hrest => exact ih hx hy hrest
      | none =>
          rw [List.countP_cons_of_pos rfl] at hx hy
          cases xs with
          | nil => cases hx
          | cons x xs =>
              cases ys with
              | nil => cases hy
              | cons y ys =>
                  cases h with
                  | cons hxy hrest => exact .cons hxy (ih (Nat.succ.inj hx) (Nat.succ.inj hy) hrest)

variable (cfg M now) in
theorem handleOthersRaw_places (chosen : List (Raw τ η × Option (Payload τ η))) (s : Sessions κ) :
    (handleOthersRaw cfg M now chosen s).1.length = chosen.length ∧
      (handleOthersRaw cfg M now chosen s).1.countP Option.isNone = (batchOf chosen).length := by
  induction chosen generalizing s with
  | nil => exact ⟨rfl, rfl⟩
  | cons pair rest ih =>
      obtain ⟨r, read⟩ := pair
      cases read with
      | some p =>
          obtain ⟨hlength, hcount⟩ := ih s
          exact ⟨congrArg Nat.succ hlength,
            (List.countP_cons_of_pos rfl).trans (congrArg Nat.succ hcount)⟩
      | none =>
          obtain ⟨hlength, hcount⟩ := ih (handleRaw cfg M now s r).2
          exact ⟨congrArg Nat.succ hlength,
            (List.countP_cons_of_neg Bool.false_ne_true).trans hcount⟩

theorem handleAllRaw_length (rs : List (Raw τ η)) (s : Sessions κ) :
    (handleAllRaw cfg M now rs s).1.length = rs.length := by
  induction rs generalizing s with
  | nil => rfl
  | cons r rest ih =>
      rw [handleAllRaw]
      exact congrArg Nat.succ (ih _)

/-- Every batched request gets the one result at its place. -/
theorem mem_zip_fill {pair : Raw τ η × Payload τ η} (hpair : pair ∈ batchOf chosen)
    (s : Sessions κ) (x : Result τ η ℓ) :
    (pair.1, some x) ∈ (chosen.map Prod.fst).zip
      (fill (handleOthersRaw cfg M now chosen s).1 ((batchOf chosen).map fun _ => x)) := by
  induction chosen generalizing s with
  | nil => cases hpair
  | cons first rest ih =>
      obtain ⟨r, read⟩ := first
      cases read with
      | none => exact List.mem_cons_of_mem _ (ih hpair _)
      | some p =>
          have hbatch : batchOf ((r, some p) :: rest) = (r, p) :: batchOf rest := rfl
          rw [hbatch] at hpair
          rcases List.mem_cons.mp hpair with rfl | hpair
          · exact List.mem_cons_self
          · exact List.mem_cons_of_mem _ (ih hpair s)

/-! ### The batch alone -/

/-- One by one every request of a batch raises when each has its session and raises alone. -/
theorem handleAllRaw_raises_iff {batch : List (Raw τ η × Payload τ η)} {t : Sessions κ}
    (hbatched : ∀ pair ∈ batch, Batched cfg s pair.1 pair.2)
    (hdistinct : (batch.map fun pair => pair.2.sessionId).Nodup)
    (hnamed : ∀ pair ∈ batch, pair.2.sessionId ≠ "")
    (hkeep : ∀ pair ∈ batch, ∀ sess, t.lookup pair.2.sessionId = some sess →
      s.lookup pair.2.sessionId = some sess) :
    (∀ result ∈ (handleAllRaw cfg M now (batch.map Prod.fst) t).1, ∃ e, result = .error e) ↔
      ∀ pair ∈ batch, pair.2.sessionId ∈ t ∧ pair.1.RaisesAlone cfg := by
  induction batch generalizing t with
  | nil => exact ⟨fun _ => List.forall_mem_nil _, fun _ => List.forall_mem_nil _⟩
  | cons first rest ih =>
      have hfirst := hbatched first List.mem_cons_self
      obtain ⟨hother, hrest⟩ := List.nodup_cons.mp hdistinct
      have hne : ∀ pair ∈ rest, pair.2.sessionId ≠ first.2.sessionId := fun pair hpair h =>
        hother (List.mem_map.mpr ⟨pair, hpair, h⟩)
      have hid : ∀ pair ∈ rest, first.1.id ≠ .ok pair.2.sessionId := fun pair hpair h =>
        hne pair hpair (Except.ok.inj (h.symm.trans hfirst.id))
      have ih := @ih (handleRaw cfg M now t first.1).2
        (fun pair hpair => hbatched pair (List.mem_cons_of_mem _ hpair)) hrest
        (fun pair hpair => hnamed pair (List.mem_cons_of_mem _ hpair))
        fun pair hpair sess h => hkeep pair (List.mem_cons_of_mem _ hpair) sess
          (handleRaw_other M (hid pair hpair) h)
      rw [List.map_cons, handleAllRaw]
      dsimp only
      rw [List.forall_mem_cons, List.forall_mem_cons, ih, hfirst.raises_iff
        (hnamed first List.mem_cons_self) (hkeep first List.mem_cons_self)]
      refine and_congr_right fun hraises => forall₂_congr fun pair hpair => and_congr_left fun _ => ?_
      obtain ⟨sess, hsess⟩ := Option.isSome_iff_exists.mp (AList.lookup_isSome.mpr hraises.1)
      have hstays := hfirst.raises_keeps M now (hnamed first List.mem_cons_self)
        (hkeep first List.mem_cons_self sess hsess) hsess hraises.2 (hne pair hpair)
      rw [← AList.lookup_isSome, hstays, AList.lookup_isSome]

/-! ### The pass over a selection -/

theorem handleRaw_bounded (hs : Bounded cfg s) (r : Raw τ η) :
    Bounded cfg (handleRaw cfg M now s r).2 := by
  unfold handleRaw
  split
  · exact hs
  · split
    · exact hs
    · split
      · exact hs
      · exact Nat.le_trans (AList.length_keys_erase ..) hs
      · split
        · exact hs
        · split
          · exact hs
          · split
            · exact handle_bounded M hs _
            · exact handle_bounded M hs _

theorem handleOthersRaw_bounded (hs : Bounded cfg s) :
    Bounded cfg (handleOthersRaw cfg M now chosen s).2 := by
  induction chosen generalizing s with
  | nil => exact hs
  | cons pair rest ih =>
      obtain ⟨r, read⟩ := pair
      cases read with
      | some p =>
          rw [handleOthersRaw]
          exact ih hs
      | none =>
          rw [handleOthersRaw]
          exact ih (handleRaw_bounded hs r)

/-- The batch runs through when its sessions and inputs fit together and no output raises. -/
theorem decodeRaw_isOk_iff (hshaped : pass.Shaped) {batch : List (Raw τ η × Payload τ η)}
    (hne : batch ≠ []) (htokens : ∀ pair ∈ batch, HasToken cfg pair.2) :
    (∃ result, decodeRaw cfg M pass zero now s batch = .ok result) ↔
      (∀ pair ∈ batch, pair.2.sessionId ∈ s) ∧
        Stackable M.kinds.length (storedOf s (batch.map Prod.snd)) ∧
        OneShape cfg (batch.map Prod.snd) ∧ ∀ pair ∈ batch, pair.1.outputError cfg = none := by
  have hpadded := @decodePadded_isOk_iff _ _ _ _ cfg M pass zero s now hshaped (batch.map Prod.snd)
    (by simpa using hne) (List.forall_mem_map.mpr htokens)
  rw [List.forall_mem_map] at hpadded
  have hdecode : (∃ result, decodeRaw cfg M pass zero now s batch = .ok result) ↔
      (∃ result, decodePadded cfg M pass zero now s (batch.map Prod.snd) = .ok result) ∧
        ∀ pair ∈ batch, pair.1.outputError cfg = none := by
    rw [← List.findSome?_eq_none_iff]
    unfold decodeRaw
    cases decodePadded cfg M pass zero now s (batch.map Prod.snd) with
    | error e => exact ⟨fun ⟨_, h⟩ => (by cases h), fun ⟨⟨_, h⟩, _⟩ => (by cases h)⟩
    | ok result =>
        dsimp only [bind, Except.bind]
        cases batch.findSome? fun pair => pair.1.outputError cfg with
        | none => exact ⟨fun _ => ⟨⟨_, rfl⟩, rfl⟩, fun _ => ⟨_, rfl⟩⟩
        | some e => exact ⟨fun ⟨_, h⟩ => (by cases h), fun ⟨_, h⟩ => (by cases h)⟩
  rw [hdecode, hpadded, and_assoc, and_assoc]

theorem decodeRaw_spec {batch : List (Raw τ η × Payload τ η)} {answers : List (Response τ η ℓ)}
    {s' : Sessions κ} (h : decodeRaw cfg M pass zero now s batch = .ok (answers, s')) :
    decodePadded cfg M pass zero now s (batch.map Prod.snd) = .ok (answers, s') := by
  unfold decodeRaw at h
  cases hpadded : decodePadded cfg M pass zero now s (batch.map Prod.snd) with
  | error e =>
      rw [hpadded] at h
      cases h
  | ok result =>
      rw [hpadded] at h
      dsimp only [bind, Except.bind] at h
      split at h
      · cases h
      · exact congrArg Except.ok (Except.ok.inj h)

theorem rows_sessionId {ps : List (Payload τ η)} (h : ∀ p ∈ ps, p.sessionId ∈ s) :
    ((ps.zip (storedOf s ps)).zipIdx.map fun x => x.1.1.sessionId) = ps.map Payload.sessionId := by
  obtain ⟨sessions, hsessions⟩ := batchSessions_isOk_iff.mpr h
  have hlength := (batchSessions_spec.mp hsessions).length_eq
  obtain rfl := batchSessions_storedOf hsessions
  calc ((ps.zip (storedOf s ps)).zipIdx.map fun x => x.1.1.sessionId)
      = (((ps.zip (storedOf s ps)).zipIdx.map Prod.fst).map Prod.fst).map Payload.sessionId := by
        rw [List.map_map, List.map_map]
        rfl
    _ = ps.map Payload.sessionId := by
        rw [List.zipIdx_map_fst, List.map_fst_zip (Nat.le_of_eq hlength)]

/-- After a batch that has run through no session is missing that could have been kept. -/
theorem decodeRaw_keeps {batch : List (Raw τ η × Payload τ η)} {answers : List (Response τ η ℓ)}
    {s' : Sessions κ} (hs : Bounded cfg s) (hmem : ∀ pair ∈ batch, pair.2.sessionId ∈ s)
    (h : decodeRaw cfg M pass zero now s batch = .ok (answers, s')) (httl : 0 ≤ cfg.sessionTtl)
    {id : String} (hid : (∃ pair ∈ batch, id = pair.2.sessionId) ∨
      ∃ sess, s.lookup id = some sess ∧ Fresh cfg now sess) : id ∈ s' := by
  obtain ⟨-, -, layers, longest, rfl⟩ := decodePadded_spec (decodeRaw_spec h)
  set ps := batch.map Prod.snd with hps
  have hpayloads : ∀ p ∈ ps, p.sessionId ∈ s := List.forall_mem_map.mpr hmem
  have hids := rows_sessionId hpayloads
  have hrows : ∀ x ∈ (ps.zip (storedOf s ps)).zipIdx, x.1.1.sessionId ∈ s := by
    intro x hx
    have hx : x.1.1.sessionId ∈ (ps.zip (storedOf s ps)).zipIdx.map fun x => x.1.1.sessionId :=
      List.mem_map_of_mem hx
    rw [hids] at hx
    obtain ⟨p, hp, hpx⟩ := List.mem_map.mp hx
    rw [← hpx]
    exact hpayloads p hp
  rw [← AList.lookup_isSome, lookup_evict (storePadded_bounded hs hrows)]
  rcases lookup_storePadded now layers longest (ps.zip (storedOf s ps)).zipIdx s id with
    ⟨hsame, hother⟩ | ⟨sess', hstored, hnow⟩
  · rcases hid with ⟨pair, hpair, rfl⟩ | ⟨sess, hsess, hfresh⟩
    · rw [hids, hps, List.map_map] at hother
      exact absurd (List.mem_map_of_mem hpair) hother
    · rw [hsame, hsess, Option.filter_some, if_pos (decide_eq_true hfresh)]
      rfl
  · have hfresh' : Fresh cfg now sess' := by
      rw [Fresh, hnow, Int.sub_self]
      exact httl
    rw [hstored, Option.filter_some, if_pos (decide_eq_true hfresh')]
    rfl

theorem Batched.hasToken (h : Batched cfg s r p) : HasToken cfg p := by
  obtain ⟨-, ⟨new, hnew, hrow, hone⟩, -⟩ := batchable_spec h.batchable
  rw [Inputs.rows] at hrow
  rw [Inputs.seqLen] at hone
  refine ⟨new, new.shape.drop 2, hnew, ?_⟩
  cases hshape : new.shape with
  | nil =>
      rw [hshape] at hrow
      cases hrow
  | cons rows dims =>
      cases dims with
      | nil =>
          rw [hshape] at hone
          cases hone
      | cons len rest =>
          rw [hshape] at hrow hone
          rw [Option.some.inj hrow, Option.some.inj hone]
          rfl

theorem Batched.named (h : Batched cfg s r p) (hnamed : "" ∉ s) : p.sessionId ≠ "" := by
  obtain ⟨-, -, sess, -, hsess, -⟩ := batchable_spec h.batchable
  intro hempty
  rw [hempty] at hsess
  exact hnamed (AList.lookup_isSome.mp (Option.isSome_iff_exists.mpr ⟨sess, hsess⟩))

end Distllm.Stage
