import Distllm.ServingStage
import Distllm.StageConfined

/-! What a worker makes of the dictionaries that it has polled, one by one or in a batch, and whoever
has sent them. A batch is exact where it runs through: as one of its sessions has a column for every
position, all of them have, and every request gets what it would get alone. -/

namespace Distllm.Pipeline.Lawful

open Stage

variable {τ η ℓ κ ρ : Type} {P : Deployment τ η ℓ κ ρ} {L : Lawful P} {sessionId : String}
  {i : Nat} {hi : i < P.size} {ys : List τ} {a : Nat} {sess : Session κ}

theorem HoldsAt.consistent (h : L.HoldsAt i hi sess ys) : sess.Consistent := by
  cases i with
  | zero => exact Law.Holds.consistent h
  | succ i => exact Law.Holds.consistent h

variable {r : ρ} {x : Decode τ η ℓ κ}

/-- A decode step that carries the end of a sequence. -/
theorem Carries.decodes (hp : L.Carries sessionId i hi x.req.payload ys a)
    (hx : x.Valid (P.config i r) (P.model i)) (hsess : L.HoldsAt i hi x.sess (ys.take a))
    (now : Instant) : x.answer = L.answerAt i hi x.req.payload ys a ∧
      L.HoldsAt i hi (x.stored (P.model i) now) ys := by
  obtain ⟨-, hopen, hstarts, hnonempty, hitems⟩ := hp
  unfold answerAt
  cases i with
  | zero =>
      have hslice : Slice (P.config 0 r) .inputIds [] x.req.payload ys a := by
        refine ⟨hx.named, hopen, hstarts, hnonempty, ?_⟩
        rw [inputs, P.isFirst 0 r, decide_eq_true rfl, if_pos rfl, hitems]
        rfl
      have hdecode := hx.slice now hslice hsess
      rwa [answer_config] at hdecode
  | succ i =>
      have hslice : Slice (P.config (i + 1) r) .inputsEmbeds L.dims x.req.payload
          (L.hidden i (Nat.lt_of_succ_lt hi) ys) a := by
        refine ⟨hx.named, hopen, hstarts, by rwa [Causal.length_apply], ?_⟩
        rw [inputs, P.isFirst (i + 1) r, decide_eq_false (Nat.succ_ne_zero i),
          if_neg Bool.false_ne_true, hitems]
        rfl
      have hholds : (L.later i hi).Holds x.sess
          ((L.hidden i (Nat.lt_of_succ_lt hi) ys).take a) := by
        rw [← Causal.apply_take]
        exact hsess
      have hdecode := hx.slice now hslice hholds
      rwa [answer_config] at hdecode

end Distllm.Pipeline.Lawful

namespace Distllm.Serving

open Stage (Config Model Pass Raw Sessions Session Response Result Tensor Entry Decode handleRaw
  handleOthersRaw batchOf fill decodeRaw dropBatch Layered Sane Rowwise RowPass evict storeSteps)
open Payload (Dict Value Exc)
open Pipeline (Lawful)

variable {τ η ℓ κ σ ω : Type} {S : Setup τ η ℓ κ ω} {L : Lawful S.pipeline}
  {jobs : String → Option (Job τ ℓ σ)} {i : Nat} {hi : i < S.pipeline.size} {worker : String}
  {s : Sessions κ} {now : Stage.Instant} {d : Dict ω}

/-! ### The table -/

/-- What a worker's table is like. -/
structure Kept (S : Setup τ η ℓ κ ω) (L : Lawful S.pipeline) (jobs : String → Option (Job τ ℓ σ))
    (i : Nat) (hi : i < S.pipeline.size) (worker : String) (s : Sessions κ) : Prop where
  faithful : Faithful S L jobs i hi s
  layered : Layered (S.pipeline.model i) s
  sane : Sane (S.pipeline.config i worker) s

theorem kept_empty : Kept S L jobs i hi worker ∅ := by
  refine ⟨fun _ _ sess _ hsess => ?_, fun _ sess hsess => ?_, Nat.zero_le _, AList.notMem_empty _⟩
  · cases hsess
  · cases hsess

/-- Sessions may be dropped at any time. -/
theorem Kept.forget (hs : Kept S L jobs i hi worker s) {t : Sessions κ}
    (h : ∀ id sess, t.lookup id = some sess → s.lookup id = some sess) :
    Kept S L jobs i hi worker t := by
  have hmem : ∀ id, id ∈ t → id ∈ s := by
    intro id hid
    obtain ⟨sess, hsess⟩ := Option.isSome_iff_exists.mp (AList.lookup_isSome.mpr hid)
    exact AList.lookup_isSome.mp (Option.isSome_iff_exists.mpr ⟨sess, h id sess hsess⟩)
  refine ⟨fun id job sess hjob hsess => hs.faithful id job sess hjob (h id sess hsess),
    fun id sess hsess => hs.layered id sess (h id sess hsess), ?_, fun hempty => ?_⟩
  · have hsub : t.keys.Subperm s.keys := List.subperm_of_subset t.keys_nodup fun id => hmem id
    exact Nat.le_trans hsub.length_le hs.sane.1
  · exact hs.sane.2 (hmem "" hempty)

theorem handleRaw_kept (hnames : jobs "" = none) (hs : Kept S L jobs i hi worker s)
    (hd : Decent S L jobs i hi d) (now : Stage.Instant) :
    let outcome := handleRaw (S.pipeline.config i worker) (S.pipeline.model i) now s (S.codec.raw d)
    Kept S L jobs i hi worker outcome.2 ∧ Right S L jobs i hi d outcome.1 := by
  obtain ⟨hfaithful, hright⟩ := handleRaw_faithful hnames hs.faithful hd worker now
  exact ⟨⟨hfaithful, Stage.handleRaw_layered hs.layered _, Stage.handleRaw_sane hs.sane _⟩, hright⟩

/-! ### Batches -/

/-- The dictionaries of a call, with what the selection has read of those that are batched. -/
abbrev Items (τ η ω : Type) := List (Dict ω × Option (Stage.Payload τ η))

section Batches

variable {items : Items τ η ω}

/-- The items as the selection returns them. -/
def Items.chosen (C : Codec τ η ℓ ω) (items : Items τ η ω) :
    List (Raw τ η × Option (Stage.Payload τ η)) :=
  items.map fun x => (C.raw x.1, x.2)

/-- The batched dictionaries. -/
def Items.batch (items : Items τ η ω) : List (Dict ω × Stage.Payload τ η) :=
  items.filterMap fun x => x.2.map fun p => (x.1, p)

theorem batchOf_chosen (C : Codec τ η ℓ ω) (items : Items τ η ω) :
    batchOf (items.chosen C) = items.batch.map fun x => (C.raw x.1, x.2) := by
  rw [batchOf, Items.chosen, Items.batch, List.filterMap_map, List.map_filterMap]
  congr 1
  funext x
  obtain ⟨d, read⟩ := x
  cases read <;> rfl

theorem mem_batch {x : Dict ω × Stage.Payload τ η} :
    x ∈ items.batch ↔ (x.1, some x.2) ∈ items := by
  rw [Items.batch, List.mem_filterMap]
  constructor
  · rintro ⟨⟨d, read⟩, hmem, hread⟩
    obtain ⟨p, rfl, rfl⟩ := Option.map_eq_some_iff.mp hread
    exact hmem
  · exact fun hmem => ⟨_, hmem, rfl⟩

/-- The entry is the result of the payload. -/
def Entered (S : Setup τ η ℓ κ ω) (L : Lawful S.pipeline) (jobs : String → Option (Job τ ℓ σ))
    (i : Nat) (hi : i < S.pipeline.size) (d : Dict ω) (entry : Option (Result τ η ℓ)) : Prop :=
  ∃ result, entry = some result ∧ Right S L jobs i hi d result

/-- The payloads that are not batched, and then the results of the batch in their places. -/
theorem others_kept (hnames : jobs "" = none) (hs : Kept S L jobs i hi worker s)
    (hd : ∀ x ∈ items, Decent S L jobs i hi x.1) (now : Stage.Instant) :
    let outcome := handleOthersRaw (S.pipeline.config i worker) (S.pipeline.model i) now
      (items.chosen S.codec) s
    Kept S L jobs i hi worker outcome.2 ∧ ∀ results : List (Result τ η ℓ),
      List.Forall₂ (fun x result => Right S L jobs i hi x.1 result) items.batch results →
        List.Forall₂ (Entered S L jobs i hi) (items.map Prod.fst) (fill outcome.1 results) := by
  induction items generalizing s with
  | nil => exact ⟨hs, fun _ _ => .nil⟩
  | cons x rest ih =>
      obtain ⟨d, read⟩ := x
      have hrest : ∀ x ∈ rest, Decent S L jobs i hi x.1 := fun x hx =>
        hd x (List.mem_cons_of_mem _ hx)
      cases read with
      | some p =>
          obtain ⟨hkept, hresults⟩ := ih hs hrest
          refine ⟨hkept, fun results h => ?_⟩
          cases h with
          | cons hfirst hothers => exact .cons ⟨_, rfl, hfirst⟩ (hresults _ hothers)
      | none =>
          obtain ⟨hfirst, hright⟩ := handleRaw_kept hnames hs (hd _ List.mem_cons_self) now
          obtain ⟨hkept, hresults⟩ := ih hfirst hrest
          exact ⟨hkept, fun results h => .cons ⟨_, rfl, hright⟩ (hresults _ h)⟩

/-- What the selection has read of a request is the request. -/
theorem Requests.batched {p q : Stage.Payload τ η} {ys : List τ} {a : Nat} {cfg : Config}
    (h : Requests S L jobs i hi d q ys a) (hbatched : Stage.Batched cfg s (S.codec.raw d) p) :
    p = q := by
  have hid : p.sessionId = q.sessionId := Except.ok.inj (hbatched.id.symm.trans h.reads.id)
  obtain ⟨start, hstart, hp⟩ := hbatched.start
  rw [hp, hid]
  exact h.reads.read hstart

theorem cat_sized {α : Type} {read : Payload.Item ω → Entry α}
    (hread : ∀ item t, read item = .tensor t → t.Sized) {found : Option (Payload.Item ω)}
    {keyMissing : Stage.Exc} {wrap : Tensor α → Stage.Inputs τ η} {new : Stage.Inputs τ η}
    (h : ((entryOf read found).cat keyMissing).map wrap = .ok new) :
    ∃ t : Tensor α, t.Sized ∧ new = wrap t := by
  cases found with
  | none => cases h
  | some item =>
      rw [entryOf] at h
      cases hitem : read item with
      | tensor t =>
          rw [hitem] at h
          exact ⟨t, hread item t hitem, (Except.ok.inj h).symm⟩
      | missing =>
          rw [hitem] at h
          cases h
      | none =>
          rw [hitem] at h
          cases h
      | other =>
          rw [hitem] at h
          cases h

theorem inputs_sized (hC : S.codec.Sound S.transport) {p : Stage.Payload τ η} {cfg : Config}
    (hbatched : Stage.Batched cfg s (S.codec.raw d) p) {new : Stage.Inputs τ η}
    (hnew : Stage.inputs cfg p = .ok new) : new.Sized := by
  obtain ⟨start, -, hp⟩ := hbatched.start
  have hids : p.inputIds = entryOf S.codec.ids (d.lookup idsKey) :=
    congrArg Stage.Payload.inputIds hp
  have hhidden : p.hiddenStates = entryOf S.codec.hidden (d.lookup hiddenKey) :=
    congrArg Stage.Payload.hiddenStates hp
  rw [Stage.inputs, hids, hhidden] at hnew
  split at hnew
  · obtain ⟨t, ht, rfl⟩ := cat_sized hC.idsSized hnew
    exact ht
  · obtain ⟨t, ht, rfl⟩ := cat_sized hC.hiddenSized hnew
    exact ht

/-- A stored cache that ends where a request starts is the cache of what comes before. -/
theorem Requests.holds {p : Stage.Payload τ η} {ys : List τ} {a : Nat}
    (h : Requests S L jobs i hi d p ys a) (hs : Faithful S L jobs i hi s) {sess : Session κ}
    (hsess : s.lookup p.sessionId = some sess) (hlength : sess.length = a) :
    L.HoldsAt i hi sess (ys.take a) := by
  obtain ⟨zs, hholds, hagree⟩ := h.stored hs hsess (Int.le_of_eq hlength.symm)
  have hlen := hholds.length
  rw [← hagree, List.take_of_length_le (by omega)]
  exact hholds

variable {t : Sessions κ}

/-- What has been batched of a generation is a request of it. -/
theorem exists_requests (hd : ∀ x ∈ items, Decent S L jobs i hi x.1) {cfg : Config}
    {x : Dict ω × Stage.Payload τ η} (hx : x ∈ items.batch)
    (hbatched : Stage.Batched cfg t (S.codec.raw x.1) x.2) (hours : S.Names jobs x.1) :
    ∃ ys a, Requests S L jobs i hi x.1 x.2 ys a := by
  rcases hd _ (mem_batch.mp hx) with hforeign | hcloses | ⟨q, ys, a, h⟩
  · exact absurd hours hforeign
  · cases hbatched.close.symm.trans hcloses.closes
  · exact ⟨ys, a, h.batched hbatched ▸ h⟩

/-- A decode step of a generation, on a faithful table. -/
theorem Requests.decodes {x : Decode τ η ℓ κ} {ys : List τ} {a : Nat}
    (h : Requests S L jobs i hi d x.req.payload ys a) (hs : Faithful S L jobs i hi s)
    (hx : x.Valid (S.pipeline.config i worker) (S.pipeline.model i))
    (hsess : s.lookup x.id = some x.sess) (now : Stage.Instant) :
    x.answer = L.answerAt i hi x.req.payload ys a ∧
      L.HoldsAt i hi (x.stored (S.pipeline.model i) now) ys := by
  have hstart : x.sess.length = (a : Int) :=
    Option.some.inj (hx.continues.symm.trans h.carries.starts)
  exact h.carries.decodes hx (h.holds hs hsess hstart) now

/-- A batch that runs through, with a session of a generation in it. -/
theorem decode_ours (hC : S.codec.Sound S.transport) {row : RowPass τ η κ} {dims : List Nat}
    (hmask : Rowwise (S.pipeline.model i) (S.pass i) row dims) (hs : Kept S L jobs i hi worker s)
    (hd : ∀ x ∈ items, Decent S L jobs i hi x.1)
    (hbatch : ∀ x ∈ items.batch, Stage.Batched (S.pipeline.config i worker) s
      (S.codec.raw x.1) x.2)
    (hdistinct : (items.batch.map fun x => x.2.sessionId).Nodup)
    {answers : List (Response τ η ℓ)} {s' : Sessions κ}
    (h : Stage.decodePadded (S.pipeline.config i worker) (S.pipeline.model i) (S.pass i) S.zero now s
      (items.batch.map Prod.snd) = .ok (answers, s'))
    {x : Dict ω × Stage.Payload τ η} (hx : x ∈ items.batch) (hours : S.Names jobs x.1) :
    Faithful S L jobs i hi s' ∧
      List.Forall₂ (fun x answer => Right S L jobs i hi x.1 (.ok answer)) items.batch answers := by
  obtain ⟨ys, a, hreq⟩ := exists_requests hd hx (hbatch x hx) hours
  obtain ⟨-, hmem, -⟩ := Stage.decodePadded_spec h
  rw [List.forall_mem_map] at hmem
  obtain ⟨sess, hsess⟩ := Option.isSome_iff_exists.mp (AList.lookup_isSome.mpr (hmem x hx))
  obtain ⟨job, hjob, -⟩ := hreq.job
  obtain ⟨zs, -, hholds⟩ := hs.faithful _ _ _ hjob hsess
  rw [← Function.comp_def, ← List.map_map] at hdistinct
  obtain ⟨steps, hps, rfl, rfl, hnodup, hvalid⟩ := Stage.decodes_of_ok hmask hs.layered h hdistinct
    (List.forall_mem_map.mpr fun x hx => (hbatch x hx).named hs.sane.2)
    (List.forall_mem_map.mpr fun x hx => (hbatch x hx).batchable)
    (List.forall_mem_map.mpr fun x hx => (hbatch x hx).hasToken)
    (List.forall_mem_map.mpr fun x hx _ => inputs_sized hC (hbatch x hx))
    (List.mem_map_of_mem hx) hsess hholds.consistent
  have hpairs : List.Forall₂ (fun x step => x.2 = step.req.payload) items.batch steps := by
    have hsame : List.Forall₂ Eq (items.batch.map Prod.snd) (steps.map fun x => x.req.payload) := by
      rw [List.forall₂_eq_eq_eq]
      exact hps
    rwa [List.forall₂_map_left_iff, List.forall₂_map_right_iff] at hsame
  constructor
  · intro sessionId job sess hjob hsess
    have hsess := Stage.lookup_of_evict _ hsess
    by_cases hid : sessionId ∈ steps.map Decode.id
    · obtain ⟨step, hstep, rfl⟩ := List.mem_map.mp hid
      obtain ⟨y, hy, hpayload⟩ := Stage.exists_right hpairs.flip hstep
      have hnames : S.Names jobs y.1 := ⟨step.id, job, hjob, by
        rw [Decode.id, ← hpayload]
        exact (hbatch y hy).id⟩
      obtain ⟨ys, a, hreq⟩ := exists_requests hd hy (hbatch y hy) hnames
      rw [hpayload] at hreq
      rw [Stage.lookup_storeSteps_of_mem hnodup hstep] at hsess
      obtain rfl := Option.some.inj hsess
      obtain ⟨job', hjob', hys⟩ := hreq.job
      obtain rfl := Option.some.inj (hjob.symm.trans hjob')
      obtain ⟨hstepValid, hstepSess⟩ := hvalid step hstep
      exact ⟨ys, hys, (hreq.decodes hs.faithful hstepValid hstepSess now).2⟩
    · rw [Stage.lookup_storeSteps_of_notMem hid] at hsess
      exact hs.faithful sessionId job sess hjob hsess
  · rw [List.forall₂_map_right_iff, List.forall₂_iff_zip]
    refine ⟨hpairs.length_eq, fun {y step} hzip => ?_⟩
    obtain ⟨hy, hstep⟩ := List.of_mem_zip hzip
    have hpayload := List.forall₂_zip hpairs hzip
    obtain ⟨hstepValid, hstepSess⟩ := hvalid step hstep
    refine ⟨fun hcloses => ?_, fun q ys a hreq response hresponse => ?_⟩
    · cases (hbatch y hy).close.symm.trans hcloses.closes
    · obtain rfl := hreq.batched (hbatch y hy)
      obtain rfl := Except.ok.inj hresponse
      rw [hpayload] at hreq ⊢
      exact .inr (hreq.decodes hs.faithful hstepValid hstepSess now).1

/-- A batch of other sessions leaves those of the generations as they are. -/
theorem decode_theirs (hs : Kept S L jobs i hi worker s)
    (hbatch : ∀ x ∈ items.batch, Stage.Batched (S.pipeline.config i worker) s
      (S.codec.raw x.1) x.2)
    {answers : List (Response τ η ℓ)} {s' : Sessions κ}
    (h : Stage.decodePadded (S.pipeline.config i worker) (S.pipeline.model i) (S.pass i) S.zero now s
      (items.batch.map Prod.snd) = .ok (answers, s'))
    (hforeign : ∀ x ∈ items.batch, ¬S.Names jobs x.1) :
    Faithful S L jobs i hi s' ∧
      List.Forall₂ (fun x answer => Right S L jobs i hi x.1 (.ok answer)) items.batch answers := by
  obtain ⟨hlength, hmem, layers, longest, rfl⟩ := Stage.decodePadded_spec h
  rw [List.length_map] at hlength
  constructor
  · intro sessionId job sess hjob hsess
    have hstored := Stage.lookup_of_evict _ hsess
    rcases Stage.lookup_storePadded_or now layers longest _ s sessionId with hsame | hrow
    · rw [hsame] at hstored
      exact hs.faithful sessionId job sess hjob hstored
    · rw [Stage.rows_sessionId hmem, List.map_map] at hrow
      obtain ⟨x, hx, rfl⟩ := List.mem_map.mp hrow
      exact absurd ⟨_, job, hjob, (hbatch x hx).id⟩ (hforeign x hx)
  · rw [List.forall₂_iff_zip]
    refine ⟨hlength.symm, fun {x answer} hzip => ?_⟩
    have hother := hforeign x (List.of_mem_zip hzip).1
    exact ⟨fun hcloses => absurd hcloses.names hother, fun p ys a h => absurd h.names hother⟩

/-- After the payloads that are not batched, the batched ones are still what the selection saw. -/
theorem batched_after {cfg : Config} {M : Model τ η ℓ κ} {rs : List (Raw τ η)}
    {chosen : List (Raw τ η × Option (Stage.Payload τ η))}
    (h : Stage.selectRaw cfg t rs = .ok chosen) {pair : Raw τ η × Stage.Payload τ η}
    (hpair : pair ∈ batchOf chosen)
    (hmem : pair.2.sessionId ∈ (handleOthersRaw cfg M now chosen t).2) :
    Stage.Batched cfg (handleOthersRaw cfg M now chosen t).2 pair.1 pair.2 := by
  have hbatched := (Stage.selectRaw_batch h).batched pair hpair
  obtain ⟨sess, hsess⟩ := Option.isSome_iff_exists.mp (AList.lookup_isSome.mpr hmem)
  have hbefore := Stage.batch_keep h hpair hsess
  refine ⟨hbatched.id, hbatched.close, hbatched.start, ?_⟩
  rw [← hbatched.batchable, Stage.batchable, Stage.batchable, hsess, hbefore]

/-- A batch, that runs through or not. -/
theorem decode_kept (hC : S.codec.Sound S.transport) {row : RowPass τ η κ} {dims : List Nat}
    (hmask : Rowwise (S.pipeline.model i) (S.pass i) row dims)
    (hd : ∀ x ∈ items, Decent S L jobs i hi x.1) {rs : List (Raw τ η)}
    (hselect : Stage.selectRaw (S.pipeline.config i worker) t rs = .ok (items.chosen S.codec))
    (hs : Kept S L jobs i hi worker (handleOthersRaw (S.pipeline.config i worker)
      (S.pipeline.model i) now (items.chosen S.codec) t).2)
    {answers : List (Response τ η ℓ)} {s' : Sessions κ}
    (h : decodeRaw (S.pipeline.config i worker) (S.pipeline.model i) (S.pass i) S.zero now
      (handleOthersRaw (S.pipeline.config i worker) (S.pipeline.model i) now
        (items.chosen S.codec) t).2 (batchOf (items.chosen S.codec)) = .ok (answers, s')) :
    Kept S L jobs i hi worker s' ∧
      List.Forall₂ (fun x answer => Right S L jobs i hi x.1 (.ok answer)) items.batch answers := by
  have hpadded := Stage.decodeRaw_spec h
  have hmem := (Stage.decodePadded_spec hpadded).2.1
  rw [List.forall_mem_map] at hmem
  have hbatched := fun pair hpair => batched_after hselect hpair (hmem pair hpair)
  have hdistinct := (Stage.selectRaw_batch hselect).distinct
  have hsane := Stage.decodeRaw_sane hs.sane h
  have hlayered := Stage.decodePadded_layered hs.layered hpadded
  rw [batchOf_chosen, List.map_map] at hpadded hdistinct
  rw [batchOf_chosen, List.forall_mem_map] at hbatched
  have hdone : Faithful S L jobs i hi s' ∧
      List.Forall₂ (fun x answer => Right S L jobs i hi x.1 (.ok answer)) items.batch answers := by
    by_cases hours : ∃ x ∈ items.batch, S.Names jobs x.1
    · obtain ⟨x, hx, hnames⟩ := hours
      exact decode_ours hC hmask hs hd hbatched hdistinct hpadded hx hnames
    · exact decode_theirs hs hbatched hpadded fun x hx hnames => hours ⟨x, hx, hnames⟩
  exact ⟨⟨hdone.1, hlayered, hsane⟩, hdone.2⟩

theorem dropBatch_kept (hs : Kept S L jobs i hi worker s) (ps : List (Stage.Payload τ η)) :
    Kept S L jobs i hi worker (dropBatch ps s) := by
  refine hs.forget fun id sess hsess => ?_
  rw [Stage.lookup_dropBatch] at hsess
  split at hsess
  · cases hsess
  · exact hsess

theorem exists_items {C : Codec τ η ℓ ω} {chosen : List (Raw τ η × Option (Stage.Payload τ η))}
    {ds : List (Dict ω)} (h : chosen.map Prod.fst = ds.map C.raw) :
    ∃ items : Items τ η ω, ds = items.map Prod.fst ∧ chosen = items.chosen C := by
  induction ds generalizing chosen with
  | nil => exact ⟨[], rfl, List.map_eq_nil_iff.mp h⟩
  | cons d rest ih =>
      cases chosen with
      | nil => cases h
      | cons pair others =>
          obtain ⟨hfirst, hothers⟩ := List.cons.inj h
          obtain ⟨items, rfl, rfl⟩ := ih hothers
          have hpair : pair = (C.raw d, pair.2) := Prod.ext hfirst rfl
          exact ⟨(d, pair.2) :: items, rfl, congrArg (· :: items.chosen C) hpair⟩

/-- All dictionaries of a call. -/
theorem handleBatchRaw_kept (hC : S.codec.Sound S.transport) {row : RowPass τ η κ} {dims : List Nat}
    (hmask : Rowwise (S.pipeline.model i) (S.pass i) row dims) (hnames : jobs "" = none)
    (hs : Kept S L jobs i hi worker s) {ds : List (Dict ω)}
    (hd : ∀ d ∈ ds, Decent S L jobs i hi d) (now : Stage.Instant) :
    let outcome := Stage.handleBatchRaw (S.pipeline.config i worker) (S.pipeline.model i) (S.pass i)
      S.zero now s (ds.map S.codec.raw)
    Kept S L jobs i hi worker outcome.2 ∧ ∀ entries, outcome.1 = .ok entries →
      List.Forall₂ (Entered S L jobs i hi) ds entries := by
  unfold Stage.handleBatchRaw
  cases hselect : Stage.selectRaw (S.pipeline.config i worker) s (ds.map S.codec.raw) with
  | error e => exact ⟨hs, nofun⟩
  | ok chosen =>
      obtain ⟨items, rfl, rfl⟩ := exists_items (Stage.selectRaw_spec hselect).1
      rw [List.forall_mem_map] at hd
      obtain ⟨hkept, hresults⟩ := others_kept hnames hs hd now
      dsimp only
      split
      · rename_i hempty
        rw [List.isEmpty_iff, batchOf_chosen, List.map_eq_nil_iff] at hempty
        refine ⟨hkept, fun entries hentries => ?_⟩
        obtain rfl := Except.ok.inj hentries
        rw [← Stage.fill_nil (handleOthersRaw _ _ _ _ _).1]
        exact hresults [] (hempty ▸ .nil)
      · split
        · rename_i answers s' hdecode
          obtain ⟨hdone, hanswers⟩ := decode_kept hC hmask hd hselect hkept hdecode
          refine ⟨hdone, fun entries hentries => ?_⟩
          obtain rfl := Except.ok.inj hentries
          exact hresults _ (List.forall₂_map_right_iff.mpr hanswers)
        · rename_i e hdecode
          refine ⟨dropBatch_kept hkept _, fun entries hentries => ?_⟩
          obtain rfl := Except.ok.inj hentries
          apply hresults
          rw [batchOf_chosen, List.map_map, List.forall₂_map_right_iff]
          exact List.forall₂_same.mpr fun x _ => ⟨fun _ _ h => (by cases h), fun _ _ _ _ _ h => (by cases h)⟩

end Batches

/-! ### A worker's function -/

/-- What a stage may return for a payload. -/
inductive Answers (S : Setup τ η ℓ κ ω) (L : Lawful S.pipeline) (jobs : String → Option (Job τ ℓ σ))
    (i : Nat) (hi : i < S.pipeline.size) : Value ω → Except Exc (Value ω) → Prop where
  | raised (payload : Value ω) (e : Exc) : Answers S L jobs i hi payload (.error e)
  | served {d : Dict ω} {response : Response τ η ℓ} (h : Right S L jobs i hi d (.ok response)) :
      Answers S L jobs i hi (.dict d) (.ok (.dict (S.codec.respond d response)))

theorem Right.answers {result : Result τ η ℓ} (h : Right S L jobs i hi d result) :
    Answers S L jobs i hi (.dict d) (S.codec.outcome d result) := by
  cases result with
  | ok response => exact .served h
  | error e => exact .raised _ _

/-- Whoever has sent the payloads. -/
def AllDecent (S : Setup τ η ℓ κ ω) (L : Lawful S.pipeline) (jobs : String → Option (Job τ ℓ σ))
    (i : Nat) (hi : i < S.pipeline.size) (payloads : List (Value ω)) : Prop :=
  ∀ d, .dict d ∈ payloads → Decent S L jobs i hi d

theorem handleEach_kept (hnames : jobs "" = none) (hs : Kept S L jobs i hi worker s)
    {payloads : List (Value ω)} (hd : AllDecent S L jobs i hi payloads) (time : Nat → Stage.Instant)
    (n : Nat) :
    let outcome := handleEach S.codec (S.pipeline.config i worker) (S.pipeline.model i) time n
      payloads s
    Kept S L jobs i hi worker outcome.2 ∧
      List.Forall₂ (Answers S L jobs i hi) payloads outcome.1 := by
  induction payloads generalizing s n with
  | nil => exact ⟨hs, .nil⟩
  | cons payload rest ih =>
      have hrest : AllDecent S L jobs i hi rest := fun d hmem => hd d (List.mem_cons_of_mem _ hmem)
      cases payload with
      | item x =>
          obtain ⟨hkept, hanswers⟩ := ih hs hrest (n + 1)
          exact ⟨hkept, .cons (.raised _ _) hanswers⟩
      | dict d =>
          obtain ⟨hfirst, hright⟩ := handleRaw_kept hnames hs (hd d List.mem_cons_self) (time n)
          obtain ⟨hkept, hanswers⟩ := ih hfirst hrest (n + 1)
          exact ⟨hkept, .cons hright.answers hanswers⟩

theorem mapM_asDict {payloads : List (Value ω)} {ds : List (Dict ω)}
    (h : payloads.mapM asDict = some ds) : payloads = ds.map .dict := by
  induction payloads generalizing ds with
  | nil =>
      obtain rfl : [] = ds := Option.some.inj h
      rfl
  | cons payload rest ih =>
      rw [List.mapM_cons] at h
      obtain ⟨d, hd, h⟩ := Option.bind_eq_some_iff.mp h
      obtain ⟨others, hothers, h⟩ := Option.bind_eq_some_iff.mp h
      obtain rfl := Option.some.inj h
      cases payload with
      | item x => cases hd
      | dict first =>
          obtain rfl : first = d := Option.some.inj hd
          rw [ih hothers, List.map_cons]

theorem handleTogether_kept (hC : S.codec.Sound S.transport) {row : RowPass τ η κ} {dims : List Nat}
    (hmask : Rowwise (S.pipeline.model i) (S.pass i) row dims) (hnames : jobs "" = none)
    (hs : Kept S L jobs i hi worker s) {payloads : List (Value ω)}
    (hd : AllDecent S L jobs i hi payloads) (now : Stage.Instant) :
    let outcome := handleTogether S.codec (S.pipeline.config i worker) (S.pipeline.model i)
      (S.pass i) S.zero now s payloads
    Kept S L jobs i hi worker outcome.2 ∧ ∀ results, outcome.1 = .ok results →
      List.Forall₂ (Answers S L jobs i hi) payloads results := by
  unfold handleTogether
  cases hread : payloads.mapM asDict with
  | none => exact ⟨hs, nofun⟩
  | some ds =>
      obtain rfl := mapM_asDict hread
      have hall : ∀ d ∈ ds, Decent S L jobs i hi d := fun d hmem => hd d (List.mem_map_of_mem hmem)
      obtain ⟨hkept, hentries⟩ := handleBatchRaw_kept hC hmask hnames hs hall now
      dsimp only
      split
      · rename_i e s' houtcome
        rw [houtcome] at hkept
        exact ⟨hkept, nofun⟩
      · rename_i entries s' houtcome
        rw [houtcome] at hkept hentries
        refine ⟨hkept, fun results hresults => ?_⟩
        obtain rfl := Except.ok.inj hresults
        rw [List.forall₂_map_left_iff]
        refine List.Forall₂.rec .nil (fun {d entry ds entries} hentered _ ih => ?_)
          (hentries entries rfl)
        obtain ⟨result, rfl, hright⟩ := hentered
        exact .cons hright.answers ih

/-- What a worker of a role makes of its payloads, on its own table. -/
theorem stage_kept (hC : S.codec.Sound S.transport) {row : RowPass τ η κ} {dims : List Nat}
    (hmask : Rowwise (S.pipeline.model i) (S.pass i) row dims) (hnames : jobs "" = none)
    (hs : Kept S L jobs i hi worker s) {payloads : List (Value ω)}
    (hd : AllDecent S L jobs i hi payloads) (time : Nat → Stage.Instant) :
    Kept S L jobs i hi worker (S.stage i worker time s payloads).2 ∧
      ∀ results, (S.stage i worker time s payloads).1 = .ok results →
        List.Forall₂ (Answers S L jobs i hi) payloads results := by
  unfold Setup.stage serve
  split
  · exact handleTogether_kept hC hmask hnames hs hd (time 0)
  · obtain ⟨hkept, hanswers⟩ := handleEach_kept hnames hs hd time 0
    refine ⟨hkept, fun results hresults => ?_⟩
    obtain rfl := Except.ok.inj hresults
    exact hanswers

end Distllm.Serving
