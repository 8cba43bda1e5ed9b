import Distllm.StageRequests

/-! What a batch has read of its requests when it begins: the requests that go into the pass, each
with its session once, and those that are handled one by one. One by one a request of the pass raises
only where its own fields or its output do, and leaves the other sessions as they are. -/

namespace Distllm.Stage

variable {τ η ℓ κ : Type} {cfg : Config} {M : Model τ η ℓ κ} {pass : Pass τ η κ} {zero : κ} {s : Sessions κ}
  {now : Instant} {r : Raw τ η} {p : Payload τ η} {rs : List (Raw τ η)}
  {chosen : List (Raw τ η × Option (Payload τ η))}

/-! ### The selection -/

/-- What the selection has read of a batched request. -/
structure Batched (cfg : Config) (s : Sessions κ) (r : Raw τ η) (p : Payload τ η) : Prop where
  id : r.id = .ok p.sessionId
  close : truthOf r.close = .ok false
  start : ∃ start, r.start = .ok start ∧ p = r.read p.sessionId start
  batchable : batchable cfg s p = .ok true

theorem batchableRaw_spec {id : String} (hid : r.id = .ok id)
    (h : batchableRaw cfg s id r = .ok (some p)) : Batched cfg s r p ∧ p.sessionId = id := by
  unfold batchableRaw at h
  dsimp only [bind, Except.bind, pure, Except.pure] at h
  split at h
  · cases h
  · rename_i close hclose
    split at h
    · cases h
    · rename_i hopen
      split at h
      · cases h
      · rename_i start hstart
        split at h
        · cases h
        · rename_i flag hflag
          split at h
          · rename_i htrue
            obtain rfl := Option.some.inj (Except.ok.inj h)
            have hfalse : close = false := by simpa using hopen
            exact ⟨⟨hid, hfalse ▸ hclose, ⟨start, hstart, rfl⟩, htrue ▸ hflag⟩, rfl⟩
          · cases h

/-- The session id of a request, if it can be read. -/
def Raw.idD (r : Raw τ η) : String :=
  match r.id with
  | .ok id => id
  | .error _ => ""

theorem Raw.idD_of_ok {id : String} (h : r.id = .ok id) : r.idD = id := by
  rw [Raw.idD, h]

theorem ids_of_mapM {ids : List String} (h : rs.mapM Raw.id = .ok ids) :
    ids = rs.map Raw.idD ∧ ∀ r ∈ rs, r.id = .ok r.idD := by
  have hids := forall₂_of_mapM h
  constructor
  · have hmap : List.Forall₂ (· = ·) (rs.map Raw.idD) ids := by
      rw [List.forall₂_map_left_iff]
      exact hids.imp fun r id hid => Raw.idD_of_ok hid
    rw [List.forall₂_eq_eq_eq] at hmap
    exact hmap.symm
  · intro r hr
    obtain ⟨n, hn⟩ := List.mem_iff_getElem?.mp hr
    obtain ⟨id, _, hid⟩ := getElem?_of_forall₂ hids hn
    rw [Raw.idD_of_ok hid, hid]

/-- The selection has read every session id; a batched one occurs once. -/
theorem selectRaw_spec (h : selectRaw cfg s rs = .ok chosen) :
    chosen.map Prod.fst = rs ∧ (∀ r ∈ rs, r.id = .ok r.idD) ∧
      ∀ r p, (r, some p) ∈ chosen → Batched cfg s r p ∧ (rs.map Raw.idD).count r.idD = 1 := by
  unfold selectRaw at h
  cases hids : rs.mapM Raw.id with
  | error e =>
      rw [hids] at h
      cases h
  | ok ids =>
      obtain ⟨rfl, hread⟩ := ids_of_mapM hids
      rw [hids] at h
      dsimp only [bind, Except.bind] at h
      split at h
      · cases h
      · rename_i reads hreads
        have hreads := forall₂_of_mapM hreads
        have hlength : reads.length = rs.length := by
          rw [← hreads.length_eq, List.length_zip, List.length_map, Nat.min_self]
        obtain rfl := Except.ok.inj h
        refine ⟨?_, hread, fun r p hmem => ?_⟩
        · rw [List.map_fst_zip]
          split
          · rw [List.length_map, hlength]
          · rw [hlength]
        · split at hmem
          · obtain ⟨_, _, hnone⟩ := List.mem_map.mp (List.of_mem_zip hmem).2
            cases hnone
          · have hzip : rs.zip (rs.map Raw.idD) = rs.map fun r => (r, r.idD) := by
              conv_lhs => rw [← List.map_id rs, List.map_map, List.zip_map']
              rfl
            rw [hzip, List.forall₂_map_left_iff] at hreads
            have hok := List.forall₂_zip hreads hmem
            dsimp only at hok
            split at hok
            · rename_i hone
              exact ⟨(batchableRaw_spec (hread r (List.of_mem_zip hmem).1) hok).1, hone⟩
            · cases hok

/-! ### The batch -/

theorem mem_batchOf {pair : Raw τ η × Payload τ η} :
    pair ∈ batchOf chosen ↔ (pair.1, some pair.2) ∈ chosen := by
  rw [batchOf, List.mem_filterMap]
  constructor
  · rintro ⟨⟨r, read⟩, hmem, hread⟩
    obtain ⟨p, rfl, rfl⟩ := Option.map_eq_some_iff.mp hread
    exact hmem
  · intro hmem
    exact ⟨_, hmem, rfl⟩

/-- The requests that a selection leaves to `handle`. -/
def othersOf (chosen : List (Raw τ η × Option (Payload τ η))) : List (Raw τ η) :=
  (chosen.filter fun pair => pair.2.isNone).map Prod.fst

theorem count_batchOf (id : String) :
    (chosen.map fun pair => pair.1.idD).count id =
      ((batchOf chosen).map fun pair => pair.1.idD).count id +
        ((othersOf chosen).map Raw.idD).count id := by
  induction chosen with
  | nil => rfl
  | cons pair rest ih =>
      obtain ⟨r, read⟩ := pair
      have hcons : ((r, read) :: rest : List (Raw τ η × Option (Payload τ η))).map
          (fun pair => pair.1.idD) = r.idD :: rest.map fun pair => pair.1.idD := rfl
      rw [hcons, List.count_cons, ih]
      cases read with
      | none =>
          have hbatch : batchOf ((r, none) :: rest) = batchOf rest := rfl
          have hothers : (othersOf ((r, none) :: rest)).map Raw.idD =
              r.idD :: (othersOf rest).map Raw.idD := rfl
          rw [hbatch, hothers, List.count_cons, Nat.add_assoc]
      | some p =>
          have hbatch : (batchOf ((r, some p) :: rest)).map (fun pair => pair.1.idD) =
              r.idD :: (batchOf rest).map fun pair => pair.1.idD := rfl
          have hothers : othersOf ((r, some p) :: rest) = othersOf rest := rfl
          rw [hbatch, hothers, List.count_cons]
          omega

/-- A batch holds what the selection has read of distinct sessions that no other request names. -/
structure BatchSpec (cfg : Config) (s : Sessions κ)
    (chosen : List (Raw τ η × Option (Payload τ η))) : Prop where
  batched : ∀ pair ∈ batchOf chosen, Batched cfg s pair.1 pair.2
  distinct : ((batchOf chosen).map fun pair => pair.2.sessionId).Nodup
  others : ∀ pair ∈ batchOf chosen, ∀ r ∈ othersOf chosen, r.id ≠ .ok pair.2.sessionId

theorem selectRaw_batch (h : selectRaw cfg s rs = .ok chosen) : BatchSpec cfg s chosen := by
  obtain ⟨hfst, hread, hspec⟩ := selectRaw_spec h
  have hbatched : ∀ pair ∈ batchOf chosen, Batched cfg s pair.1 pair.2 := fun pair hpair =>
    (hspec _ _ (mem_batchOf.mp hpair)).1
  have hid : ∀ pair ∈ batchOf chosen, pair.1.idD = pair.2.sessionId := fun pair hpair =>
    Raw.idD_of_ok (hbatched pair hpair).id
  have hids : chosen.map (fun pair => pair.1.idD) = rs.map Raw.idD := by
    rw [← hfst, List.map_map]
    rfl
  have hcount : ∀ pair ∈ batchOf chosen,
      ((batchOf chosen).map fun pair => pair.1.idD).count pair.1.idD +
        ((othersOf chosen).map Raw.idD).count pair.1.idD = 1 := by
    intro pair hpair
    rw [← count_batchOf, hids]
    exact (hspec _ _ (mem_batchOf.mp hpair)).2
  refine ⟨hbatched, ?_, ?_⟩
  · rw [← List.map_congr_left hid, List.nodup_iff_count_le_one]
    intro id
    by_cases hmem : id ∈ (batchOf chosen).map fun pair => pair.1.idD
    · obtain ⟨pair, hpair, rfl⟩ := List.mem_map.mp hmem
      have hone := hcount pair hpair
      omega
    · rw [List.count_eq_zero_of_not_mem hmem]
      exact Nat.zero_le 1
  · intro pair hpair r hr hsame
    have hone := hcount pair hpair
    have hin : pair.1.idD ∈ (batchOf chosen).map fun pair => pair.1.idD := List.mem_map_of_mem hpair
    have hout : pair.1.idD ∈ (othersOf chosen).map Raw.idD := by
      rw [hid pair hpair, ← Raw.idD_of_ok hsame]
      exact List.mem_map_of_mem hr
    have hin := List.count_pos_iff.mpr hin
    have hout := List.count_pos_iff.mpr hout
    omega

/-! ### Other sessions -/

variable (M)

/-- A request never brings another session into the table, nor changes one. -/
theorem handleRaw_other {id : String} (hid : r.id ≠ .ok id) {sess : Session κ}
    (h : (handleRaw cfg M now s r).2.lookup id = some sess) : s.lookup id = some sess := by
  unfold handleRaw at h
  split at h
  · exact h
  · rename_i own hown
    have hne : id ≠ own := by
      rintro rfl
      exact hid hown
    split at h
    · exact h
    · split at h
      · exact h
      · rwa [AList.lookup_erase_ne hne] at h
      · split at h
        · exact h
        · split at h
          · exact h
          · split at h
            · exact handle_other M hne h
            · exact handle_other M hne h

theorem handleAllRaw_other {id : String} (hid : ∀ r ∈ rs, r.id ≠ .ok id) {sess : Session κ}
    (h : (handleAllRaw cfg M now rs s).2.lookup id = some sess) : s.lookup id = some sess := by
  induction rs generalizing s with
  | nil => exact h
  | cons r rest ih =>
      rw [handleAllRaw] at h
      exact handleRaw_other M (hid r List.mem_cons_self)
        (ih (fun r hr => hid r (List.mem_cons_of_mem _ hr)) h)

theorem handleOthersRaw_other {id : String} (hid : ∀ r ∈ othersOf chosen, r.id ≠ .ok id)
    {sess : Session κ} (h : (handleOthersRaw cfg M now chosen s).2.lookup id = some sess) :
    s.lookup id = some sess := by
  induction chosen generalizing s with
  | nil => exact h
  | cons pair rest ih =>
      obtain ⟨r, read⟩ := pair
      cases read with
      | some p =>
          rw [handleOthersRaw] at h
          exact ih hid h
      | none =>
          have hothers : othersOf ((r, none) :: rest) = r :: othersOf rest := rfl
          rw [hothers] at hid
          rw [handleOthersRaw] at h
          exact handleRaw_other M (hid r List.mem_cons_self)
            (ih (fun r hr => hid r (List.mem_cons_of_mem _ hr)) h)

/-! ### A batched request alone -/

/-- What a decode step reads in `handle` and a batch does not, or not before the pass. -/
def Raw.RaisesAlone (cfg : Config) (r : Raw τ η) : Prop :=
  (∃ e, truthOf r.rewind = .error e) ∨ ∃ e, r.outputError cfg = some e

namespace Batched

variable {M}

theorem read_spec (h : Batched cfg s r p) {sess : Session κ}
    (hsess : s.lookup p.sessionId = some sess) : r.start = .ok sess.length ∧
      p = r.read p.sessionId sess.length ∧ sess.length ≠ 0 := by
  obtain ⟨-, -, sess', start', hsess', hstart', hne, rfl⟩ := batchable_spec h.batchable
  obtain rfl := Option.some.inj (hsess'.symm.trans hsess)
  obtain ⟨start, hstart, hp⟩ := h.start
  have hsame : p.startPos = some start := congrArg Payload.startPos hp
  obtain rfl := Option.some.inj (hsame.symm.trans hstart')
  exact ⟨hstart, hp, hne⟩

theorem continues (h : Batched cfg s r p) {sess : Session κ}
    (hsess : s.lookup p.sessionId = some sess) : p.close = false ∧
      p.startPos = some sess.length := by
  obtain ⟨-, hp, -⟩ := h.read_spec hsess
  exact ⟨congrArg Payload.close hp, congrArg Payload.startPos hp⟩

variable {t : Sessions κ}

/-- Alone it is a miss without its session. -/
theorem alone_missing (h : Batched cfg s r p) (hnamed : p.sessionId ≠ "")
    (hsess : t.lookup p.sessionId = none) : (handleRaw cfg M now t r).1 = .ok (.cacheMiss 0) := by
  obtain ⟨-, -, sess, -, hstored, -⟩ := batchable_spec h.batchable
  obtain ⟨hstart, hp, hne⟩ := h.read_spec hstored
  obtain ⟨hopen, hstartPos⟩ := h.continues hstored
  have habsent : p.sessionId ∉ t := AList.lookup_eq_none.mp hsess
  have hmiss (faults : Faults) :
      handle cfg M now t ⟨p, faults⟩ = (.ok (.cacheMiss 0), t) :=
    handle_absent hnamed hopen hstartPos hne hsess
  rw [handleRaw, h.id]
  dsimp only
  rw [if_neg hnamed, h.close]
  dsimp only
  rw [hstart]
  dsimp only
  rw [if_neg fun h => habsent h.2, ← hp]
  dsimp only
  split
  · rw [hmiss]
  · rw [hmiss]
    rfl

/-- Alone, on its session, it raises what `rewind` raises, or goes on to `handle`. -/
theorem alone_stored (h : Batched cfg s r p) (hnamed : p.sessionId ≠ "") {sess : Session κ}
    (hstored : s.lookup p.sessionId = some sess) (hsess : t.lookup p.sessionId = some sess) :
    handleRaw cfg M now t r = match truthOf r.rewind with
      | .error e => (.error e, t)
      | .ok _ => match r.outputError cfg with
        | none => handle cfg M now t ⟨p, .none⟩
        | some e =>
          let (result, t) := handle cfg M now t ⟨p, ⟨none, false, true⟩⟩
          (result.mapError fun e' => if e' = .model .output then e else e', t) := by
  obtain ⟨hstart, hp, hne⟩ := h.read_spec hstored
  have hmem : p.sessionId ∈ t :=
    AList.lookup_isSome.mp (Option.isSome_iff_exists.mpr ⟨sess, hsess⟩)
  rw [handleRaw, h.id]
  dsimp only
  rw [if_neg hnamed, h.close]
  dsimp only
  rw [hstart]
  dsimp only
  rw [if_pos ⟨hne, hmem⟩]
  cases truthOf r.rewind with
  | error e => rfl
  | ok rewind =>
      cases r.outputError cfg with
      | none =>
          dsimp only
          rw [← hp]
      | some e =>
          dsimp only
          rw [← hp]

variable (M now) in
/-- An output that raises leaves the other sessions as they are. -/
theorem handle_output_raises (h : Batched cfg s r p) (hnamed : p.sessionId ≠ "")
    {sess : Session κ} (hstored : s.lookup p.sessionId = some sess)
    (hsess : t.lookup p.sessionId = some sess) :
    ∃ f, handle cfg M now t ⟨p, ⟨none, false, true⟩⟩ =
      (.error (.model .output), t.modify p.sessionId f) := by
  obtain ⟨-, ⟨new, hnew, -, hone⟩, -⟩ := batchable_spec h.batchable
  obtain ⟨-, -, hne⟩ := h.read_spec hstored
  obtain ⟨hopen, hstartPos⟩ := h.continues hstored
  refine ⟨fun sess' => { sess' with cache := M.after new sess.length sess.cache }, ?_⟩
  rw [handle_continued hnamed hopen hstartPos hne hsess rfl]
  unfold advance
  dsimp only
  rw [hnew]
  dsimp only
  rw [hone]
  dsimp only
  rw [if_neg Bool.false_ne_true, if_pos rfl]
  dsimp only
  rw [if_neg hne]
  rfl

variable (M now) in
theorem handle_answers (h : Batched cfg s r p) (hnamed : p.sessionId ≠ "")
    {sess : Session κ} (hstored : s.lookup p.sessionId = some sess)
    (hsess : t.lookup p.sessionId = some sess) :
    ∃ answer, (handle cfg M now t ⟨p, .none⟩).1 = .ok answer := by
  obtain ⟨-, ⟨new, hnew, hrow, hone⟩, -⟩ := batchable_spec h.batchable
  obtain ⟨-, -, hne⟩ := h.read_spec hstored
  obtain ⟨hopen, hstartPos⟩ := h.continues hstored
  obtain ⟨answer, hanswer, -⟩ := output_ok cfg M p hrow hone sess.length sess.cache
  refine ⟨answer, ?_⟩
  rw [handle_continued hnamed hopen hstartPos hne hsess rfl]
  unfold advance
  dsimp only
  rw [hnew]
  dsimp only
  rw [hone]
  dsimp only
  rw [Faults.none_base, if_neg Bool.false_ne_true, Faults.none_output, if_neg Bool.false_ne_true,
    hanswer]

/-- Alone it raises only on its session, and only where a batch does not read it. -/
theorem raises_iff (h : Batched cfg s r p) (hnamed : p.sessionId ≠ "")
    (hkeep : ∀ sess, t.lookup p.sessionId = some sess → s.lookup p.sessionId = some sess) :
    (∃ e, (handleRaw cfg M now t r).1 = .error e) ↔ p.sessionId ∈ t ∧ r.RaisesAlone cfg := by
  cases hsess : t.lookup p.sessionId with
  | none =>
      have habsent : p.sessionId ∉ t := AList.lookup_eq_none.mp hsess
      rw [h.alone_missing hnamed hsess]
      exact ⟨fun ⟨e, he⟩ => (by cases he), fun hraises => absurd hraises.1 habsent⟩
  | some sess =>
      have hmem : p.sessionId ∈ t :=
        AList.lookup_isSome.mp (Option.isSome_iff_exists.mpr ⟨sess, hsess⟩)
      have hstored := hkeep sess hsess
      rw [h.alone_stored hnamed hstored hsess]
      unfold Raw.RaisesAlone
      cases hrewind : truthOf r.rewind with
      | error e => exact ⟨fun _ => ⟨hmem, .inl ⟨e, rfl⟩⟩, fun _ => ⟨e, rfl⟩⟩
      | ok rewind =>
          dsimp only
          cases houtput : r.outputError cfg with
          | none =>
              obtain ⟨answer, hanswer⟩ := h.handle_answers M now hnamed hstored hsess
              dsimp only
              rw [hanswer]
              constructor
              · rintro ⟨e, he⟩
                cases he
              · rintro ⟨-, ⟨e, he⟩ | ⟨e, he⟩⟩
                · cases he
                · cases he
          | some e =>
              obtain ⟨f, hf⟩ := h.handle_output_raises M now hnamed hstored hsess
              dsimp only
              rw [hf]
              exact ⟨fun _ => ⟨hmem, .inr ⟨e, rfl⟩⟩, fun _ => ⟨e, rfl⟩⟩

variable (M now) in
/-- Where it raises alone, the other sessions stay. -/
theorem raises_keeps (h : Batched cfg s r p) (hnamed : p.sessionId ≠ "") {sess : Session κ}
    (hstored : s.lookup p.sessionId = some sess) (hsess : t.lookup p.sessionId = some sess)
    (hraises : r.RaisesAlone cfg) {id : String} (hid : id ≠ p.sessionId) :
    (handleRaw cfg M now t r).2.lookup id = t.lookup id := by
  rw [h.alone_stored hnamed hstored hsess]
  cases hrewind : truthOf r.rewind with
  | error e => rfl
  | ok rewind =>
      dsimp only
      cases houtput : r.outputError cfg with
      | none =>
          exfalso
          rcases hraises with ⟨e, he⟩ | ⟨e, he⟩
          · cases hrewind.symm.trans he
          · cases houtput.symm.trans he
      | some e =>
          obtain ⟨f, hf⟩ := h.handle_output_raises M now hnamed hstored hsess
          dsimp only
          rw [hf]
          exact AList.lookup_modify_ne hid f t

end Batched

end Distllm.Stage
