import Distllm.StagePadding

/-! When the padded pass of a batch succeeds: the inputs have one shape, every session is stored, and
its cache can be stacked with those of the others. Nothing else in the pass raises, and it changes no
session but its own. -/

namespace Distllm.Stage

variable {τ η ℓ κ : Type} {cfg : Config} {M : Model τ η ℓ κ} {pass : Pass τ η κ} {zero : κ} {s : Sessions κ}
  {now : Instant}

theorem mapM_isOk_iff {ε α β : Type} {f : α → Except ε β} {xs : List α} :
    (∃ ys, xs.mapM f = .ok ys) ↔ ∀ x ∈ xs, ∃ y, f x = .ok y := by
  refine ⟨fun ⟨ys, h⟩ x hx => ?_, mapM_ok f xs⟩
  obtain ⟨n, hn⟩ := List.mem_iff_getElem?.mp hx
  obtain ⟨y, _, hy⟩ := getElem?_of_forall₂ (forall₂_of_mapM h) hn
  exact ⟨y, hy⟩

/-- Single tokens can be put together when they have one shape. -/
theorem Tensor.cat_isOk_iff {α : Type} {ts : List (Tensor α)} (hne : ts ≠ [])
    (htokens : ∀ t ∈ ts, ∃ rest, t.shape = 1 :: 1 :: rest) :
    (∃ new, Tensor.cat ts = .ok new) ↔ ∀ t ∈ ts, ∀ u ∈ ts, t.shape = u.shape := by
  cases ts with
  | nil => exact absurd rfl hne
  | cons first others =>
      obtain ⟨rest, hfirst⟩ := htokens first List.mem_cons_self
      rw [Tensor.cat, hfirst]
      dsimp only
      constructor
      · rintro ⟨new, hnew⟩
        split at hnew
        · rename_i hagree
          have hall : ∀ t ∈ first :: others, t.shape = 1 :: 1 :: rest := by
            intro t ht
            rcases List.mem_cons.mp ht with rfl | ht
            · exact hfirst
            · obtain ⟨rest', hshape⟩ := htokens t (List.mem_cons_of_mem _ ht)
              have htail := (hagree t ht).2
              rw [hshape] at htail
              rw [hshape, ← List.cons.inj htail |>.2]
          intro t ht u hu
          rw [hall t ht, hall u hu]
        · cases hnew
      · intro hsame
        rw [if_pos]
        · exact ⟨_, rfl⟩
        · intro u hu
          rw [← hsame first List.mem_cons_self u (List.mem_cons_of_mem _ hu), hfirst]
          exact ⟨List.cons_ne_nil _ _, rfl⟩

theorem Tensor.cat_shape {α : Type} {ts : List (Tensor α)} {new : Tensor α}
    (htokens : ∀ t ∈ ts, ∃ rest, t.shape = 1 :: 1 :: rest) (h : Tensor.cat ts = .ok new) :
    new.rows = some ts.length ∧ new.seqLen = some 1 := by
  cases ts with
  | nil => cases h
  | cons first others =>
      obtain ⟨rest, hfirst⟩ := htokens first List.mem_cons_self
      rw [Tensor.cat, hfirst] at h
      dsimp only at h
      split at h
      · obtain rfl := Except.ok.inj h
        have hrows : ∀ t ∈ others, t.shape.headD 0 = 1 := by
          intro t ht
          obtain ⟨rest', hshape⟩ := htokens t (List.mem_cons_of_mem _ ht)
          rw [hshape]
          rfl
        rw [foldl_rows hrows, Nat.add_comm]
        exact ⟨rfl, rfl⟩
      · cases h

/-- The input of a decode step, of whatever shape a token has. -/
def HasToken (cfg : Config) (p : Payload τ η) : Prop :=
  ∃ new rest, inputs cfg p = .ok new ∧ new.shape = 1 :: 1 :: rest

theorem exists_news {ps : List (Payload τ η)} (h : ∀ p ∈ ps, HasToken cfg p) :
    ∃ news, List.Forall₂ (fun p new => inputs cfg p = .ok new) ps news ∧
      ∀ new ∈ news, ∃ rest, new.shape = 1 :: 1 :: rest := by
  induction ps with
  | nil => exact ⟨[], .nil, List.forall_mem_nil _⟩
  | cons p ps ih =>
      obtain ⟨new, rest, hnew, hshape⟩ := h p List.mem_cons_self
      obtain ⟨news, hnews, hshapes⟩ := ih fun p hp => h p (List.mem_cons_of_mem _ hp)
      refine ⟨new :: news, .cons hnew hnews, fun other hother => ?_⟩
      rcases List.mem_cons.mp hother with rfl | hother
      · exact ⟨rest, hshape⟩
      · exact hshapes other hother

/-- All the inputs have one shape. -/
def OneShape (cfg : Config) (ps : List (Payload τ η)) : Prop :=
  ∀ p ∈ ps, ∀ q ∈ ps, ∀ new new', inputs cfg p = .ok new → inputs cfg q = .ok new' →
    new.shape = new'.shape

theorem catEntries_isOk_iff {α : Type} {keyMissing : Exc} {entry : Payload τ η → Entry α}
    {wrap : Tensor α → Inputs τ η} (hshape : ∀ t, (wrap t).shape = t.shape)
    {ps : List (Payload τ η)} {news : List (Inputs τ η)} (hne : ps ≠ [])
    (hread : List.Forall₂ (fun p new => ((entry p).cat keyMissing).map wrap = .ok new) ps news)
    (htokens : ∀ new ∈ news, ∃ rest, new.shape = 1 :: 1 :: rest) :
    ((∃ new, (catEntries keyMissing (ps.map entry)).map wrap = .ok new) ↔
      ∀ new ∈ news, ∀ new' ∈ news, new.shape = new'.shape) ∧
    ∀ new, (catEntries keyMissing (ps.map entry)).map wrap = .ok new →
      new.rows = some ps.length ∧ new.seqLen = some 1 := by
  obtain ⟨ts, hps, rfl⟩ := exists_tensors hread
  have hlength : ts.length = ps.length := by
    have hmaps := congrArg List.length hps
    rw [List.length_map, List.length_map] at hmaps
    exact hmaps.symm
  have hts : ts ≠ [] := by
    rintro rfl
    exact hne (List.eq_nil_of_length_eq_zero hlength.symm)
  have htensors : ∀ t ∈ ts, ∃ rest, t.shape = 1 :: 1 :: rest := fun t ht =>
    hshape t ▸ htokens (wrap t) (List.mem_map_of_mem ht)
  rw [hps, catEntries_tensors]
  constructor
  · have hwrap : (∃ new, (Tensor.cat ts).map wrap = .ok new) ↔ ∃ t, Tensor.cat ts = .ok t := by
      cases Tensor.cat ts with
      | error e => exact ⟨fun ⟨_, h⟩ => (by cases h), fun ⟨_, h⟩ => (by cases h)⟩
      | ok t => exact ⟨fun _ => ⟨t, rfl⟩, fun _ => ⟨wrap t, rfl⟩⟩
    rw [hwrap, Tensor.cat_isOk_iff hts htensors]
    simp only [List.forall_mem_map, hshape]
  · intro new hnew
    cases hcat : Tensor.cat ts with
    | error e =>
        rw [hcat] at hnew
        cases hnew
    | ok t =>
        rw [hcat] at hnew
        obtain rfl := Except.ok.inj hnew
        obtain ⟨hrows, hlen⟩ := Tensor.cat_shape htensors hcat
        rw [Inputs.rows, Inputs.seqLen, hshape]
        exact ⟨hlength ▸ hrows, hlen⟩

theorem exists_right {α β : Type} {R : α → β → Prop} {xs : List α} {ys : List β}
    (h : List.Forall₂ R xs ys) {x : α} (hx : x ∈ xs) : ∃ y ∈ ys, R x y := by
  obtain ⟨n, hn⟩ := List.mem_iff_getElem?.mp hx
  obtain ⟨y, hy, hR⟩ := getElem?_of_forall₂ h hn
  exact ⟨y, List.mem_of_getElem? hy, hR⟩

/-- The inputs of decode steps can be put together when they have one shape. -/
theorem catInputs_isOk_iff {ps : List (Payload τ η)} (hne : ps ≠ [])
    (htokens : ∀ p ∈ ps, HasToken cfg p) :
    ((∃ new, catInputs cfg ps = .ok new) ↔ OneShape cfg ps) ∧
      ∀ new, catInputs cfg ps = .ok new → new.rows = some ps.length ∧ new.seqLen = some 1 := by
  obtain ⟨news, hread, hshapes⟩ := exists_news htokens
  have hone : OneShape cfg ps ↔ ∀ new ∈ news, ∀ new' ∈ news, new.shape = new'.shape := by
    constructor
    · intro h new hnew new' hnew'
      obtain ⟨p, hp, hpnew⟩ := exists_right hread.flip hnew
      obtain ⟨q, hq, hqnew⟩ := exists_right hread.flip hnew'
      exact h p hp q hq new new' hpnew hqnew
    · intro h p hp q hq new new' hpnew hqnew
      obtain ⟨x, hx, hpx⟩ := exists_right hread hp
      obtain ⟨y, hy, hqy⟩ := exists_right hread hq
      obtain rfl := Except.ok.inj (hpx.symm.trans hpnew)
      obtain rfl := Except.ok.inj (hqy.symm.trans hqnew)
      exact h x hx y hy
  rw [hone]
  unfold inputs at hread
  unfold catInputs
  split
  · rename_i hfirst
    simp only [if_pos hfirst] at hread
    exact catEntries_isOk_iff (fun _ => rfl) hne hread hshapes
  · rename_i hfirst
    simp only [if_neg hfirst] at hread
    exact catEntries_isOk_iff (fun _ => rfl) hne hread hshapes

/-- By how much a layer is longer than the session says. -/
def Session.excess (sess : Session κ) (l : Nat) : Option Int :=
  sess.cache[l]?.map fun layer => layer.columns.length - sess.length

/-- Every session has every layer, each of them too long by as much as in the other sessions. -/
def Stackable (layers : Nat) (sessions : List (Session κ)) : Prop :=
  ∀ l < layers, ∀ sess ∈ sessions, ∀ sess' ∈ sessions,
    sess.excess l ≠ none ∧ sess.excess l = sess'.excess l

theorem stackRows_isOk_iff {rows : List (List κ)} :
    (∃ stacked, stackRows rows = .ok stacked) ↔
      ∀ columns ∈ rows, ∀ columns' ∈ rows, columns.length = columns'.length := by
  unfold stackRows
  cases rows with
  | nil => simp
  | cons first others =>
      rw [List.headD_cons]
      constructor
      · rintro ⟨stacked, h⟩
        split at h
        · rename_i hall
          intro columns hcolumns columns' hcolumns'
          rw [hall columns hcolumns, hall columns' hcolumns']
        · cases h
      · intro h
        rw [if_pos fun columns hcolumns => h columns hcolumns first List.mem_cons_self]
        exact ⟨_, rfl⟩

/-- One row of a padded layer. -/
def paddedRow (zero : κ) (longest : Int) (l : Nat) (sess : Session κ) : Except Exc (List κ) :=
  match sess.cache[l]? with
  | none => .error .indexError
  | some layer => .ok (padLeft zero (longest - sess.length) layer.columns)

theorem excess_of_paddedRow {sess : Session κ} {longest : Int} (hle : sess.length ≤ longest)
    {l : Nat} {columns : List κ} (h : paddedRow zero longest l sess = .ok columns) :
    sess.excess l = some (columns.length - longest) := by
  unfold paddedRow at h
  unfold Session.excess
  cases hlayer : sess.cache[l]? with
  | none =>
      rw [hlayer] at h
      cases h
  | some layer =>
      rw [hlayer] at h
      obtain rfl := Except.ok.inj h
      rw [Option.map_some, padLeft_length]
      congr 1
      omega

theorem paddedRow_isOk {sess : Session κ} (longest : Int) {l : Nat} (h : sess.excess l ≠ none) :
    ∃ columns, paddedRow zero longest l sess = .ok columns := by
  unfold Session.excess at h
  unfold paddedRow
  cases hlayer : sess.cache[l]? with
  | none =>
      rw [hlayer] at h
      exact absurd rfl h
  | some layer => exact ⟨_, rfl⟩

/-- A layer can be stacked when it is too long by as much in every session. -/
theorem stackLayer_isOk_iff {sessions : List (Session κ)} {longest : Int}
    (hle : ∀ sess ∈ sessions, sess.length ≤ longest) (l : Nat) :
    (∃ stacked, stackLayer zero sessions longest l = .ok stacked) ↔
      ∀ sess ∈ sessions, ∀ sess' ∈ sessions,
        sess.excess l ≠ none ∧ sess.excess l = sess'.excess l := by
  have hunfold : stackLayer zero sessions longest l =
      (sessions.mapM (paddedRow zero longest l)).bind stackRows := rfl
  rw [hunfold]
  constructor
  · rintro ⟨stacked, h⟩ sess hsess sess' hsess'
    cases hrows : sessions.mapM (paddedRow zero longest l) with
    | error e =>
        rw [hrows] at h
        cases h
    | ok rows =>
        rw [hrows] at h
        have hequal := stackRows_isOk_iff.mp ⟨stacked, h⟩
        obtain ⟨columns, hcolumns, hrow⟩ := exists_right (forall₂_of_mapM hrows) hsess
        obtain ⟨columns', hcolumns', hrow'⟩ := exists_right (forall₂_of_mapM hrows) hsess'
        rw [excess_of_paddedRow (hle sess hsess) hrow, excess_of_paddedRow (hle sess' hsess') hrow',
          hequal columns hcolumns columns' hcolumns']
        exact ⟨Option.some_ne_none _, rfl⟩
  · intro h
    obtain ⟨rows, hrows⟩ := mapM_ok (paddedRow zero longest l) sessions fun sess hsess =>
      paddedRow_isOk longest (h sess hsess sess hsess).1
    rw [hrows]
    apply stackRows_isOk_iff.mpr
    intro columns hcolumns columns' hcolumns'
    obtain ⟨sess, hsess, hrow⟩ := exists_right (forall₂_of_mapM hrows).flip hcolumns
    obtain ⟨sess', hsess', hrow'⟩ := exists_right (forall₂_of_mapM hrows).flip hcolumns'
    have hsame := (h sess hsess sess' hsess').2
    rw [excess_of_paddedRow (hle sess hsess) hrow, excess_of_paddedRow (hle sess' hsess') hrow'] at hsame
    have hsame := Option.some.inj hsame
    omega

/-- A pass over one new position for every row returns a hidden state for each. -/
def Pass.Shaped (pass : Pass τ η κ) : Prop :=
  ∀ new mask positionIds layers n, new.rows = some n → new.seqLen = some 1 →
    (pass new mask positionIds layers).1.rows = some n ∧
      (pass new mask positionIds layers).1.seqLen = some 1

theorem sliceRow_isOk {hidden : Tensor η} {n row : Nat} (hrows : hidden.rows = some n)
    (hlen : hidden.seqLen = some 1) (hrow : row < n) :
    ∃ slice, hidden.sliceRow row = .ok slice ∧ slice.rows = some 1 ∧ slice.seqLen = some 1 := by
  obtain ⟨shape, items⟩ := hidden
  cases shape with
  | nil => cases hrows
  | cons rows dims =>
      obtain rfl := Option.some.inj hrows
      refine ⟨_, rfl, ?_, hlen⟩
      have hone : min 1 (rows - row) = 1 := by omega
      rw [Tensor.rows, hone]
      rfl

variable (cfg M) in
theorem output_isOk (p : Payload τ η) {hidden : Tensor η} (hrows : hidden.rows = some 1)
    (hlen : hidden.seqLen = some 1) : ∃ answer, output cfg M p hidden = .ok answer := by
  unfold output
  split
  · obtain ⟨first, hfirst⟩ := firstRow_isSome hlen (by rw [hrows]; decide)
    rw [hfirst]
    exact ⟨_, rfl⟩
  · split
    · obtain ⟨last, hlast⟩ := lastOfRows_isSome hlen (by rw [hlen]; decide)
      rw [hlast]
      exact ⟨_, rfl⟩
    · exact ⟨_, rfl⟩

/-- The sessions that payloads name, as far as they are stored. -/
def storedOf (s : Sessions κ) (ps : List (Payload τ η)) : List (Session κ) :=
  ps.filterMap fun p => s.lookup p.sessionId

theorem batchSessions_storedOf {ps : List (Payload τ η)} {sessions : List (Session κ)}
    (h : batchSessions s ps = .ok sessions) : sessions = storedOf s ps := by
  rw [batchSessions_spec] at h
  induction h with
  | nil => rfl
  | @cons p sess ps sessions hsess _ ih =>
      have hcons : storedOf s (p :: ps) = sess :: storedOf s ps := by
        rw [storedOf, List.filterMap_cons, hsess]
        rfl
      rw [hcons, ih]

theorem batchSessions_isOk_iff {ps : List (Payload τ η)} :
    (∃ sessions, batchSessions s ps = .ok sessions) ↔ ∀ p ∈ ps, p.sessionId ∈ s := by
  constructor
  · rintro ⟨sessions, h⟩ p hp
    obtain ⟨sess, _, hsess⟩ := exists_right (batchSessions_spec.mp h) hp
    exact AList.lookup_isSome.mp (Option.isSome_iff_exists.mpr ⟨sess, hsess⟩)
  · intro h
    induction ps with
    | nil => exact ⟨[], rfl⟩
    | cons p ps ih =>
        obtain ⟨sessions, hsessions⟩ := ih fun q hq => h q (List.mem_cons_of_mem _ hq)
        obtain ⟨sess, hsess⟩ :=
          Option.isSome_iff_exists.mp (AList.lookup_isSome.mpr (h p List.mem_cons_self))
        exact ⟨sess :: sessions, by rw [batchSessions, hsess, hsessions]; rfl⟩

variable (cfg M) in
/-- The outputs of a pass do not raise, and there is one for every row. -/
theorem answers_isOk (hshaped : pass.Shaped) {ps : List (Payload τ η)} {new : Inputs τ η}
    (hrows : new.rows = some ps.length) (hlen : new.seqLen = some 1) (mask : List (List Bool))
    (positionIds : List (List Int)) (layers : Stacked κ) :
    ∃ answers, (ps.zipIdx.mapM fun (x : Payload τ η × Nat) => do
      output cfg M x.1 (← (pass new mask positionIds layers).1.sliceRow x.2)) = .ok answers := by
  obtain ⟨hhidden, hseq⟩ := hshaped new mask positionIds layers ps.length hrows hlen
  apply mapM_ok _ _
  intro x hx
  obtain ⟨p, row⟩ := x
  have hrow : row < ps.length :=
    (List.getElem?_eq_some_iff.mp (List.mem_zipIdx_iff_getElem?.mp hx)).1
  obtain ⟨slice, hslice, hone, hone'⟩ :=
    sliceRow_isOk hhidden hseq hrow
  obtain ⟨answer, hanswer⟩ := output_isOk cfg M p hone hone'
  refine ⟨answer, ?_⟩
  dsimp only [bind, Except.bind]
  rw [hslice]
  exact hanswer

/-- A padded pass succeeds when the sessions are stored and can be stacked, and the inputs can be
put together. Then it leaves every session of the batch, used now, and the others as they are. -/
theorem decodePadded_isOk_iff (hshaped : pass.Shaped) {ps : List (Payload τ η)} (hne : ps ≠ [])
    (htokens : ∀ p ∈ ps, HasToken cfg p) :
    (∃ result, decodePadded cfg M pass zero now s ps = .ok result) ↔
      (∀ p ∈ ps, p.sessionId ∈ s) ∧ Stackable M.kinds.length (storedOf s ps) ∧
        OneShape cfg ps := by
  obtain ⟨hcat, hcatShape⟩ := catInputs_isOk_iff hne htokens
  rw [← batchSessions_isOk_iff, ← hcat]
  unfold decodePadded
  cases hsessions : batchSessions s ps with
  | error e =>
      constructor
      · rintro ⟨result, h⟩
        cases h
      · rintro ⟨⟨sessions, h⟩, -⟩
        cases h
  | ok sessions =>
      obtain rfl := batchSessions_storedOf hsessions
      have hlength := (batchSessions_spec.mp hsessions).length_eq
      have hstored : storedOf s ps ≠ [] := by
        intro hnil
        rw [hnil] at hlength
        exact hne (List.eq_nil_of_length_eq_zero hlength)
      obtain ⟨longest, hlongest⟩ : ∃ longest, ((storedOf s ps).map Session.length).max? =
          some longest := by
        rw [← Option.isSome_iff_exists, Option.isSome_iff_ne_none, Ne, List.max?_eq_none_iff,
          List.map_eq_nil_iff]
        exact hstored
      have hle : ∀ sess ∈ storedOf s ps, sess.length ≤ longest := fun sess hsess =>
        (List.max?_eq_some_iff.mp hlongest).2 _ (List.mem_map_of_mem hsess)
      have hstack : (∃ layers, (List.range M.kinds.length).mapM
          (stackLayer zero (storedOf s ps) longest) = .ok layers) ↔
          Stackable M.kinds.length (storedOf s ps) := by
        rw [mapM_isOk_iff]
        simp only [List.mem_range, stackLayer_isOk_iff hle]
        rfl
      rw [← hstack]
      dsimp only [bind, Except.bind, pure, Except.pure]
      rw [hlongest]
      dsimp only
      cases hlayers : (List.range M.kinds.length).mapM
          (stackLayer zero (storedOf s ps) longest) with
      | error e =>
          constructor
          · rintro ⟨result, h⟩
            cases h
          · rintro ⟨-, ⟨layers, h⟩, -⟩
            cases h
      | ok layers =>
          cases hnew : catInputs cfg ps with
          | error e =>
              constructor
              · rintro ⟨result, h⟩
                cases h
              · rintro ⟨-, -, new, h⟩
                cases h
          | ok new =>
              obtain ⟨hrows, hlen⟩ := hcatShape new hnew
              obtain ⟨answers, hanswers⟩ := answers_isOk cfg M hshaped hrows hlen
                (((storedOf s ps).map Session.length).map (maskRow longest))
                (((storedOf s ps).map Session.length).map fun length => [length]) layers
              refine ⟨fun _ => ⟨⟨_, rfl⟩, ⟨layers, rfl⟩, new, rfl⟩, fun _ => ?_⟩
              dsimp only [bind, Except.bind] at hanswers ⊢
              rw [hanswers]
              exact ⟨_, rfl⟩

/-- A padded pass has an answer for every payload; it leaves the sessions of the batch, used now. -/
theorem decodePadded_spec {ps : List (Payload τ η)} {answers : List (Response τ η ℓ)}
    {s' : Sessions κ} (h : decodePadded cfg M pass zero now s ps = .ok (answers, s')) :
    answers.length = ps.length ∧ (∀ p ∈ ps, p.sessionId ∈ s) ∧ ∃ layers longest,
      s' = evict cfg now (storePadded now layers longest (ps.zip (storedOf s ps)).zipIdx s) := by
  unfold decodePadded at h
  cases hsessions : batchSessions s ps with
  | error e =>
      rw [hsessions] at h
      cases h
  | ok sessions =>
      obtain rfl := batchSessions_storedOf hsessions
      rw [hsessions] at h
      dsimp only [bind, Except.bind, pure, Except.pure] at h
      split at h
      · cases h
      · rename_i longest _
        split at h
        · cases h
        · split at h
          · cases h
          · split at h
            · cases h
            · rename_i found hfound
              obtain ⟨rfl, rfl⟩ := Prod.mk.inj (Except.ok.inj h)
              refine ⟨?_, batchSessions_isOk_iff.mp ⟨_, hsessions⟩, _, longest, rfl⟩
              rw [← (forall₂_of_mapM hfound).length_eq, List.length_zipIdx]

variable (now) in
/-- A padded pass leaves its sessions, used now, and the others as they are. -/
theorem lookup_storePadded (layers : Stacked κ) (longest : Int)
    (rows : List ((Payload τ η × Session κ) × Nat)) (s : Sessions κ) (id : String) :
    (storePadded now layers longest rows s).lookup id = s.lookup id ∧
        id ∉ rows.map (fun x => x.1.1.sessionId) ∨
      ∃ sess, (storePadded now layers longest rows s).lookup id = some sess ∧ sess.lastUsed = now := by
  induction rows generalizing s with
  | nil => exact .inl ⟨rfl, List.not_mem_nil⟩
  | cons x rest ih =>
      obtain ⟨⟨p, sess⟩, row⟩ := x
      rw [storePadded]
      rcases ih (s.insert p.sessionId (sess.unpad now layers longest row)) with ⟨hlookup, hid⟩ | hfound
      · rw [hlookup]
        by_cases hp : id = p.sessionId
        · subst hp
          exact .inr ⟨_, AList.lookup_insert _, rfl⟩
        · refine .inl ⟨AList.lookup_insert_ne hp, ?_⟩
          rw [List.map_cons, List.mem_cons, not_or]
          exact ⟨hp, hid⟩
      · exact .inr hfound

variable (now) in
/-- What a padded pass changes are its own sessions. -/
theorem lookup_storePadded_or (layers : Stacked κ) (longest : Int)
    (rows : List ((Payload τ η × Session κ) × Nat)) (s : Sessions κ) (id : String) :
    (storePadded now layers longest rows s).lookup id = s.lookup id ∨
      id ∈ rows.map fun x => x.1.1.sessionId := by
  induction rows generalizing s with
  | nil => exact .inl rfl
  | cons x rest ih =>
      obtain ⟨⟨p, sess⟩, row⟩ := x
      rw [storePadded, List.map_cons]
      rcases ih (s.insert p.sessionId (sess.unpad now layers longest row)) with hlookup | hid
      · by_cases hp : id = p.sessionId
        · exact .inr (hp ▸ List.mem_cons_self)
        · exact .inl (hlookup.trans (AList.lookup_insert_ne hp))
      · exact .inr (List.mem_cons_of_mem _ hid)

theorem storePadded_bounded {layers : Stacked κ} {longest : Int}
    {rows : List ((Payload τ η × Session κ) × Nat)} (hs : Bounded cfg s)
    (hmem : ∀ x ∈ rows, x.1.1.sessionId ∈ s) :
    Bounded cfg (storePadded now layers longest rows s) := by
  induction rows generalizing s with
  | nil => exact hs
  | cons x rest ih =>
      obtain ⟨⟨p, sess⟩, row⟩ := x
      have hp := hmem _ List.mem_cons_self
      apply ih (Nat.le_trans (Nat.le_of_eq (AList.length_keys_insert hp _)) hs)
      intro y hy
      exact (AList.mem_insert _).mpr (.inr (hmem y (List.mem_cons_of_mem _ hy)))

end Distllm.Stage
