import Distllm.StageEntries

/-! A bad request is confined to its own entry of a batch: when this is so for every request that a
client may send, and that it stays so over whole runs. -/

namespace Distllm.Stage

variable {τ η ℓ κ : Type} {cfg : Config} {M : Model τ η ℓ κ} {pass : Pass τ η κ} {zero : κ} {s : Sessions κ}
  {now : Instant} {r : Raw τ η} {p : Payload τ η} {rs : List (Raw τ η)}
  {chosen : List (Raw τ η × Option (Payload τ η))}

/-! ### When a batch is confined -/

/-- The fields of all requests can be selected on; when the batch is run, its sessions are stored
and can be stacked, its inputs have one shape, and no output raises. Or else each of its requests
raises alone. -/
def BatchSafe (cfg : Config) (M : Model τ η ℓ κ) (now : Instant) (s : Sessions κ)
    (rs : List (Raw τ η)) : Prop :=
  ∃ chosen, selectRaw cfg s rs = .ok chosen ∧
    let s₁ := (handleOthersRaw cfg M now chosen s).2
    let batch := batchOf chosen
    (∀ pair ∈ batch, pair.2.sessionId ∈ s₁) ∧
      (Stackable M.kinds.length (storedOf s₁ (batch.map Prod.snd)) ∧
          OneShape cfg (batch.map Prod.snd) ∧ (∀ pair ∈ batch, pair.1.outputError cfg = none) ∨
        ∀ pair ∈ batch, pair.1.RaisesAlone cfg)

section Selected

variable (h : selectRaw cfg s rs = .ok chosen)

include h

theorem oneByOneRaw_selected :
    oneByOneRaw cfg M now s rs =
      let others := handleOthersRaw cfg M now chosen s
      let batch := handleAllRaw cfg M now ((batchOf chosen).map Prod.fst) others.2
      (fill others.1 batch.1, batch.2) := by
  rw [oneByOneRaw, h]

/-- After the other requests a batched session is as it was, or gone. -/
theorem batch_keep {pair : Raw τ η × Payload τ η} (hpair : pair ∈ batchOf chosen)
    {sess : Session κ}
    (hsess : (handleOthersRaw cfg M now chosen s).2.lookup pair.2.sessionId = some sess) :
    s.lookup pair.2.sessionId = some sess :=
  handleOthersRaw_other M ((selectRaw_batch h).others pair hpair) hsess

theorem entries_length (answers : List (Result τ η ℓ)) :
    (fill (handleOthersRaw cfg M now chosen s).1 answers).length = rs.length := by
  obtain ⟨hfst, -, -⟩ := selectRaw_spec h
  rw [fill_length, (handleOthersRaw_places cfg M now chosen s).1, ← hfst, List.length_map]

/-- What the batch does not touch of the other sessions. -/
theorem handleAllRaw_batch {id : String} (hid : ∀ pair ∈ batchOf chosen, id ≠ pair.2.sessionId)
    {t : Sessions κ} {sess : Session κ}
    (hsess : (handleAllRaw cfg M now ((batchOf chosen).map Prod.fst) t).2.lookup id = some sess) :
    t.lookup id = some sess := by
  refine handleAllRaw_other M (fun r hr hr' => ?_) hsess
  obtain ⟨pair, hpair, rfl⟩ := List.mem_map.mp hr
  have hown := ((selectRaw_batch h).batched pair hpair).id
  exact hid pair hpair (Except.ok.inj (hr'.symm.trans hown))

/-- Without a batch the two runs are the same. -/
theorem confined_of_empty (hempty : batchOf chosen = []) : Confined cfg M pass zero now s rs := by
  have hrun : handleBatchRaw cfg M pass zero now s rs =
      (.ok (handleOthersRaw cfg M now chosen s).1, (handleOthersRaw cfg M now chosen s).2) := by
    rw [handleBatchRaw, h]
    dsimp only
    rw [hempty]
    rfl
  have hone : oneByOneRaw cfg M now s rs = handleOthersRaw cfg M now chosen s := by
    rw [oneByOneRaw_selected h, hempty]
    exact congrArg (·, (handleOthersRaw cfg M now chosen s).2) (fill_nil _)
  have hlength := @entries_length _ _ _ _ _ M s now _ _ h []
  rw [fill_nil] at hlength
  refine ⟨_, congrArg Prod.fst hrun, hlength, ?_, fun id hid => .inl ?_⟩
  · rw [hone]
    exact List.forall₂_same.mpr fun _ _ => id
  · rw [hrun]
    rw [hone] at hid
    obtain ⟨-, sess, hsess, -⟩ := hid
    exact AList.lookup_isSome.mp (Option.isSome_iff_exists.mpr ⟨sess, hsess⟩)

/-- Where the batch runs through it has an answer for every request. -/
theorem confined_of_ok (hs : Bounded cfg s) (hne : batchOf chosen ≠ [])
    {answers : List (Response τ η ℓ)} {s' : Sessions κ}
    (hstored : ∀ pair ∈ batchOf chosen,
      pair.2.sessionId ∈ (handleOthersRaw cfg M now chosen s).2)
    (hdecode : decodeRaw cfg M pass zero now (handleOthersRaw cfg M now chosen s).2
      (batchOf chosen) = .ok (answers, s')) : Confined cfg M pass zero now s rs := by
  have hrun : handleBatchRaw cfg M pass zero now s rs =
      (.ok (fill (handleOthersRaw cfg M now chosen s).1 (answers.map .ok)), s') := by
    rw [handleBatchRaw, h]
    dsimp only
    rw [if_neg (by simpa using hne), hdecode]
  have hanswers := (decodePadded_spec (decodeRaw_spec hdecode)).1
  refine ⟨_, congrArg Prod.fst hrun, entries_length h _, ?_, fun id hid => .inl ?_⟩
  · rw [oneByOneRaw_selected h]
    refine forall₂_fill (fun _ => id) (List.forall₂_iff_zip.mpr ⟨?_, fun hzip hraised => ?_⟩)
    · rw [List.length_map, hanswers, handleAllRaw_length, List.length_map, List.length_map]
    · obtain ⟨answer, -, rfl⟩ := List.mem_map.mp (List.of_mem_zip hzip).1
      obtain ⟨e, he⟩ := hraised
      cases he
  · rw [hrun]
    rw [oneByOneRaw_selected h] at hid
    obtain ⟨httl, sess, hsess, hfresh⟩ := hid
    apply decodeRaw_keeps (handleOthersRaw_bounded hs) hstored hdecode httl
    by_cases hbatched : ∃ pair ∈ batchOf chosen, id = pair.2.sessionId
    · exact .inl hbatched
    · exact .inr ⟨sess, handleAllRaw_batch h
        (fun pair hpair hid => hbatched ⟨pair, hpair, hid⟩) hsess, hfresh⟩

/-- Where it raises, its requests get the exception, and their sessions are dropped. -/
theorem confined_of_error_iff (hne : batchOf chosen ≠ []) (hnamed : "" ∉ s) {e : Exc}
    (hdecode : decodeRaw cfg M pass zero now (handleOthersRaw cfg M now chosen s).2
      (batchOf chosen) = .error e) :
    Confined cfg M pass zero now s rs ↔ ∀ pair ∈ batchOf chosen,
      pair.2.sessionId ∈ (handleOthersRaw cfg M now chosen s).2 ∧ pair.1.RaisesAlone cfg := by
  have hbatch := selectRaw_batch h
  have hplaces := handleOthersRaw_places cfg M now chosen s
  have hrun : handleBatchRaw cfg M pass zero now s rs =
      (.ok (fill (handleOthersRaw cfg M now chosen s).1 ((batchOf chosen).map fun _ => .error e)),
        dropBatch ((batchOf chosen).map Prod.snd) (handleOthersRaw cfg M now chosen s).2) := by
    rw [handleBatchRaw, h]
    dsimp only
    rw [if_neg (by simpa using hne), hdecode]
  rw [← handleAllRaw_raises_iff hbatch.batched hbatch.distinct
    (fun pair hpair => (hbatch.batched pair hpair).named hnamed)
    fun pair hpair sess hsess => batch_keep h hpair hsess]
  constructor
  · rintro ⟨results, hresults, -, hentries, -⟩ result hresult
    rw [hrun] at hresults
    obtain rfl := Except.ok.inj hresults
    rw [oneByOneRaw_selected h] at hentries
    have hentries := of_forall₂_fill (by rw [hplaces.2, List.length_map])
      (by rw [hplaces.2, handleAllRaw_length, List.length_map]) hentries
    obtain ⟨x, hx, hraises⟩ := exists_right hentries.flip hresult
    obtain ⟨_, -, rfl⟩ := List.mem_map.mp hx
    obtain ⟨e', he'⟩ := hraises ⟨e, rfl⟩
    exact ⟨e', Option.some.inj he'⟩
  · intro hraises
    refine ⟨_, congrArg Prod.fst hrun, entries_length h _, ?_, fun id hid => ?_⟩
    · rw [oneByOneRaw_selected h]
      refine forall₂_fill (fun _ => id) (List.forall₂_iff_zip.mpr ⟨?_, fun hzip _ => ?_⟩)
      · rw [List.length_map, handleAllRaw_length, List.length_map]
      · obtain ⟨e', he'⟩ := hraises _ (List.of_mem_zip hzip).2
        exact ⟨e', by rw [he']⟩
    · rw [hrun]
      rw [oneByOneRaw_selected h] at hid
      obtain ⟨-, sess, hsess, -⟩ := hid
      by_cases hbatched : ∃ pair ∈ batchOf chosen, id = pair.2.sessionId
      · obtain ⟨pair, hpair, rfl⟩ := hbatched
        obtain ⟨hfst, -, -⟩ := selectRaw_spec h
        refine .inr ⟨_, hfst ▸ mem_zip_fill hpair s _, (hbatch.batched pair hpair).id, e, rfl⟩
      · left
        have hkept := handleAllRaw_batch h (fun pair hpair hid => hbatched ⟨pair, hpair, hid⟩) hsess
        rw [← AList.lookup_isSome, lookup_dropBatch, if_neg, hkept]
        · rfl
        · rw [List.map_map]
          intro hmem
          obtain ⟨pair, hpair, hid⟩ := List.mem_map.mp hmem
          exact hbatched ⟨pair, hpair, hid.symm⟩

end Selected

/-- A bad request is confined to its own entry exactly when the batch is safe. -/
theorem confined_iff_batchSafe (hshaped : pass.Shaped) (hs : Bounded cfg s) (hnamed : "" ∉ s)
    (rs : List (Raw τ η)) :
    Confined cfg M pass zero now s rs ↔ BatchSafe cfg M now s rs := by
  cases hselect : selectRaw cfg s rs with
  | error e =>
      constructor
      · rintro ⟨results, h, -⟩
        rw [handleBatchRaw, hselect] at h
        cases h
      · rintro ⟨chosen, h, -⟩
        cases hselect.symm.trans h
  | ok chosen =>
      have hbatch := selectRaw_batch hselect
      have hsafe : BatchSafe cfg M now s rs ↔
          (∀ pair ∈ batchOf chosen, pair.2.sessionId ∈ (handleOthersRaw cfg M now chosen s).2) ∧
            (Stackable M.kinds.length (storedOf (handleOthersRaw cfg M now chosen s).2
                ((batchOf chosen).map Prod.snd)) ∧ OneShape cfg ((batchOf chosen).map Prod.snd) ∧
                (∀ pair ∈ batchOf chosen, pair.1.outputError cfg = none) ∨
              ∀ pair ∈ batchOf chosen, pair.1.RaisesAlone cfg) := by
        rw [BatchSafe, hselect]
        constructor
        · rintro ⟨chosen', h, hcond⟩
          obtain rfl := Except.ok.inj h
          exact hcond
        · exact fun hcond => ⟨chosen, rfl, hcond⟩
      rw [hsafe]
      by_cases hempty : batchOf chosen = []
      · refine ⟨fun _ => ?_, fun _ => confined_of_empty hselect hempty⟩
        rw [hempty]
        exact ⟨List.forall_mem_nil _, .inr (List.forall_mem_nil _)⟩
      · have hok := @decodeRaw_isOk_iff _ _ _ _ cfg M pass zero
          (handleOthersRaw cfg M now chosen s).2 now hshaped (batchOf chosen) hempty
          fun pair hpair => (hbatch.batched pair hpair).hasToken
        cases hdecode : decodeRaw cfg M pass zero now (handleOthersRaw cfg M now chosen s).2
            (batchOf chosen) with
        | ok result =>
            obtain ⟨answers, s'⟩ := result
            obtain ⟨hstored, hfits⟩ := hok.mp ⟨_, hdecode⟩
            exact ⟨fun _ => ⟨hstored, .inl hfits⟩,
              fun _ => confined_of_ok hselect hs hempty hstored hdecode⟩
        | error e =>
            rw [confined_of_error_iff hselect hempty hnamed hdecode]
            constructor
            · exact fun hraises => ⟨fun pair hpair => (hraises pair hpair).1,
                .inr fun pair hpair => (hraises pair hpair).2⟩
            · rintro ⟨hstored, hfits | hraises⟩
              · obtain ⟨result, hresult⟩ := hok.mpr ⟨hstored, hfits⟩
                cases hdecode.symm.trans hresult
              · exact fun pair hpair => ⟨hstored pair hpair, hraises pair hpair⟩

/-! ### Whole runs -/

/-- A table within its bound, without a session that has no name. -/
def Sane (cfg : Config) (s : Sessions κ) : Prop := Bounded cfg s ∧ "" ∉ s

theorem handleRaw_sane (hs : Sane cfg s) (r : Raw τ η) : Sane cfg (handleRaw cfg M now s r).2 := by
  refine ⟨handleRaw_bounded hs.1 r, fun hmem => ?_⟩
  by_cases hid : r.id = .ok ""
  · rw [handleRaw, hid] at hmem
    exact hs.2 hmem
  · obtain ⟨sess, hsess⟩ := Option.isSome_iff_exists.mp (AList.lookup_isSome.mpr hmem)
    exact hs.2 (AList.lookup_isSome.mp
      (Option.isSome_iff_exists.mpr ⟨sess, handleRaw_other M hid hsess⟩))

theorem handleOthersRaw_sane (hs : Sane cfg s) :
    Sane cfg (handleOthersRaw cfg M now chosen s).2 := by
  induction chosen generalizing s with
  | nil => exact hs
  | cons pair rest ih =>
      obtain ⟨r, read⟩ := pair
      cases read with
      | some p =>
          rw [handleOthersRaw]
          exact ih hs
      | none =>
          rw [handleOthersRaw]
          exact ih (handleRaw_sane hs r)

theorem decodeRaw_sane {batch : List (Raw τ η × Payload τ η)} {answers : List (Response τ η ℓ)}
    {s' : Sessions κ} (hs : Sane cfg s)
    (h : decodeRaw cfg M pass zero now s batch = .ok (answers, s')) : Sane cfg s' := by
  obtain ⟨-, hmem, layers, longest, rfl⟩ := decodePadded_spec (decodeRaw_spec h)
  refine ⟨evict_bounded cfg, fun hempty => hs.2 ?_⟩
  obtain ⟨sess, hsess⟩ := Option.isSome_iff_exists.mp (AList.lookup_isSome.mpr hempty)
  have hstored := lookup_of_evict cfg hsess
  rcases lookup_storePadded_or now layers longest _ s "" with hsame | hrow
  · rw [hsame] at hstored
    exact AList.lookup_isSome.mp (Option.isSome_iff_exists.mpr ⟨sess, hstored⟩)
  · rw [rows_sessionId hmem] at hrow
    obtain ⟨p, hp, hname⟩ := List.mem_map.mp hrow
    exact hname ▸ hmem p hp

/-- A call with payloads as clients send them. -/
inductive RawCall (τ η : Type) where
  | handle (now : Instant) (r : Raw τ η)
  | handleBatch (now : Instant) (rs : List (Raw τ η))
  | dropSessions

variable (cfg M pass zero) in
def execRaw (s : Sessions κ) : RawCall τ η → Sessions κ
  | .handle now r => (handleRaw cfg M now s r).2
  | .handleBatch now rs => (handleBatchRaw cfg M pass zero now s rs).2
  | .dropSessions => dropSessions

theorem execRaw_sane (hs : Sane cfg s) (call : RawCall τ η) :
    Sane cfg (execRaw cfg M pass zero s call) := by
  cases call with
  | handle now r => exact handleRaw_sane hs r
  | dropSessions => exact ⟨Nat.zero_le _, AList.notMem_empty ""⟩
  | handleBatch now rs =>
      unfold execRaw handleBatchRaw
      dsimp only
      split
      · exact hs
      · rename_i chosen _
        have hothers : Sane cfg (handleOthersRaw cfg M now chosen s).2 := handleOthersRaw_sane hs
        split
        · exact hothers
        · split
          · rename_i answers s' hdecode
            exact decodeRaw_sane hothers hdecode
          · refine ⟨dropBatch_bounded hothers.1 _, fun hempty => hothers.2 ?_⟩
            obtain ⟨sess, hsess⟩ := Option.isSome_iff_exists.mp (AList.lookup_isSome.mpr hempty)
            rw [lookup_dropBatch] at hsess
            split at hsess
            · cases hsess
            · exact AList.lookup_isSome.mp (Option.isSome_iff_exists.mpr ⟨sess, hsess⟩)

/-- Whatever clients send, a stage stays within its bound and stores no session without a name. -/
theorem run_sane {calls : List (RawCall τ η)}
    (hrun : Run (fun s call s' => s' = execRaw cfg M pass zero s call) ∅ calls s) : Sane cfg s := by
  refine hrun.invariant (P := Sane cfg) (fun {s call s'} hstep hs => ?_)
    ⟨Nat.zero_le _, AList.notMem_empty ""⟩
  rw [hstep]
  exact execRaw_sane hs call

/-! ### Two clients -/

theorem rowPass_shaped (row : RowPass τ η κ) (dims : List Nat) : (rowPass row dims).Shaped := by
  intro new mask positionIds layers n hrows _
  refine ⟨?_, rfl⟩
  have hhead : new.shape.headD 0 = n := by
    rw [Inputs.rows] at hrows
    cases hshape : new.shape with
    | nil =>
        rw [hshape] at hrows
        cases hrows
    | cons rows dims =>
        rw [hshape] at hrows
        exact Option.some.inj hrows
  exact congrArg some hhead

/-- A decode step as a client sends it. -/
def rawToken (id : String) (startPos : Value) (token : Nat) : Raw Nat Nat :=
  ⟨some (.word id), none, some startPos, none, none, .tensor (.row [] [token]), .missing⟩

theorem confined_iff_batchSafe_pair :
    Confined (pairStage 2) prefixSum (rowPass sumRow []) 0 1 pairSessions
      [rawToken "a" (.int 3) 7, rawToken "b" (.int 2) 8] := by
  rw [confined_iff_batchSafe (rowPass_shaped sumRow []) (by decide) (by decide)]
  have hselect : selectRaw (pairStage 2) pairSessions
      [rawToken "a" (.int 3) 7, rawToken "b" (.int 2) 8] =
      .ok [(rawToken "a" (.int 3) 7, some (tokensOf "a" 3 [7]).payload),
        (rawToken "b" (.int 2) 8, some (tokensOf "b" 2 [8]).payload)] := rfl
  refine ⟨_, hselect, ?_, .inl ⟨?_, ?_, ?_⟩⟩
  · rintro pair (_ | ⟨_, _ | ⟨_, hpair⟩⟩)
    · decide
    · decide
    · cases hpair
  · have hstored : storedOf pairSessions [(tokensOf "a" 3 [7]).payload, (tokensOf "b" 2 [8]).payload] =
        [⟨[⟨true, true, [1, 2, 3]⟩], 3, 0⟩, ⟨[⟨true, true, [4, 5]⟩], 2, 0⟩] := by decide
    have hexcess : ∀ sess ∈ storedOf pairSessions
        [(tokensOf "a" 3 [7]).payload, (tokensOf "b" 2 [8]).payload], sess.excess 0 = some 0 := by
      rw [hstored]
      decide
    intro l hl sess hsess sess' hsess'
    obtain rfl := Nat.lt_one_iff.mp hl
    rw [hexcess sess hsess, hexcess sess' hsess']
    exact ⟨Option.some_ne_none _, rfl⟩
  · have hshape : ∀ p ∈ [(tokensOf "a" 3 [7]).payload, (tokensOf "b" 2 [8]).payload],
        ∀ new, inputs (pairStage 2) p = .ok new → new.shape = [1, 1] := by
      rintro p (_ | ⟨_, _ | ⟨_, hp⟩⟩) new hnew
      · obtain rfl := Except.ok.inj hnew
        rfl
      · obtain rfl := Except.ok.inj hnew
        rfl
      · cases hp
    intro p hp q hq new new' hnew hnew'
    rw [hshape p hp new hnew, hshape q hq new' hnew']
  · rintro pair (_ | ⟨_, _ | ⟨_, hpair⟩⟩)
    · rfl
    · rfl
    · cases hpair

/-- The start position of the second request is no number: the whole batch raises, and the first
request, a decode step with nothing wrong, has no entry. -/
theorem bad_start_fails_batch :
    ¬Confined (pairStage 2) prefixSum (rowPass sumRow []) 0 1 pairSessions
      [rawToken "a" (.int 3) 7, rawToken "b" (.word "two") 8] := by
  rintro ⟨results, h, -⟩
  cases h

end Distllm.Stage
