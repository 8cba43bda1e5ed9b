import Distllm.Run
import Distllm.StageSpec

/-! Raising model calls and the recorded length of a session. A stage compares only recorded
lengths, so every layer of a stored cache has to hold exactly that many positions after every
call, and a request that raises has to drop its session or to leave it as it was. `Request.Safe`
names the three places in `handle` where an exception would do neither. -/

namespace Distllm.Stage

variable {τ η ℓ κ : Type}

def Session.Consistent (sess : Session κ) : Prop :=
  ∀ layer ∈ sess.cache, (layer.columns.length : Int) = sess.length

def Consistent (s : Sessions κ) : Prop :=
  ∀ id sess, s.lookup id = some sess → sess.Consistent

/-! ### Caches -/

theorem append_columns {cache : Cache κ} {news : List (List κ)} {length : Int} {n : Nat}
    (hcache : ∀ layer ∈ cache, (layer.columns.length : Int) = length)
    (hnews : ∀ new ∈ news, new.length = n) :
    ∀ layer ∈ cache.append news, (layer.columns.length : Int) = length + n := by
  induction cache generalizing news with
  | nil => exact nofun
  | cons first rest ih =>
      cases news with
      | nil => exact nofun
      | cons new others =>
          intro layer hlayer
          rcases List.mem_cons.mp hlayer with rfl | hrest
          · have hfirst := hcache first List.mem_cons_self
            have hnew := hnews new List.mem_cons_self
            simp only [Layer.update, List.length_append]
            omega
          · exact ih (fun layer h => hcache layer (List.mem_cons_of_mem _ h))
              (fun new h => hnews new (List.mem_cons_of_mem _ h)) layer hrest

theorem append_none {cache : Cache κ} {news : List (List κ)} (hlayers : news.length = cache.length)
    (hnews : ∀ new ∈ news, new.length = 0) :
    (cache.append news).map Layer.columns = cache.map Layer.columns := by
  induction cache generalizing news with
  | nil => rfl
  | cons first rest ih =>
      cases news with
      | nil => cases hlayers
      | cons new others =>
          have hnew := List.eq_nil_of_length_eq_zero (hnews new List.mem_cons_self)
          have hrest := ih (Nat.succ.inj hlayers) fun new h => hnews new (List.mem_cons_of_mem _ h)
          simp only [Cache.append, List.zipWith_cons_cons, List.map_cons, Layer.update] at hrest ⊢
          rw [hnew, List.append_nil, hrest]

theorem after_columns (M : Model τ η ℓ κ) {cache : Cache κ} {new : Inputs τ η} {start : Int}
    {n : Nat} (hcache : ∀ layer ∈ cache, (layer.columns.length : Int) = start)
    (hlen : new.seqLen = some n) :
    ∀ layer ∈ M.after new start cache, (layer.columns.length : Int) = start + n :=
  append_columns hcache fun col hcol => by rw [M.base_columns new start cache col hcol, hlen]; rfl

theorem freshCache_columns (M : Model τ η ℓ κ) :
    ∀ layer ∈ M.freshCache, (layer.columns.length : Int) = 0 := by
  intro layer hlayer
  obtain ⟨kind, _, rfl⟩ := List.mem_map.mp hlayer
  rfl

theorem crop_columns {cache : Cache κ} {length start : Int}
    (hcache : ∀ layer ∈ cache, (layer.columns.length : Int) = length) (hpos : 0 < start)
    (hle : start ≤ length) :
    ∀ layer ∈ cache.crop start, (layer.columns.length : Int) = start := by
  intro layer hlayer
  obtain ⟨old, hold, rfl⟩ := List.mem_map.mp hlayer
  have hlength := hcache old hold
  rw [Layer.crop_of_nonneg (Int.le_of_lt hpos), List.length_take]
  omega

/-! ### Tables -/

variable {s : Sessions κ} {id : String}

theorem Consistent.insert (hs : Consistent s) {sess : Session κ} (h : sess.Consistent) :
    Consistent (s.insert id sess) := by
  intro x sess' hx
  rw [AList.lookup_insert_eq] at hx
  split at hx
  · cases hx
    exact h
  · exact hs x sess' hx

theorem Consistent.erase (hs : Consistent s) : Consistent (s.erase id) := by
  intro x sess hx
  rw [AList.lookup_erase_eq] at hx
  split at hx
  · cases hx
  · exact hs x sess hx

theorem Consistent.modify (hs : Consistent s) {f : Session κ → Session κ}
    (h : ∀ sess, s.lookup id = some sess → (f sess).Consistent) : Consistent (s.modify id f) := by
  intro x sess hx
  rw [AList.lookup_modify] at hx
  split at hx
  · rename_i hid
    obtain ⟨old, hold, rfl⟩ := Option.map_eq_some_iff.mp hx
    exact h old (hid ▸ hold)
  · exact hs x sess hx

theorem Consistent.evict (hs : Consistent s) (cfg : Config) (now : Instant) :
    Consistent (evict cfg now s) :=
  fun x sess hx => hs x sess (lookup_of_evict cfg hx)

/-! ### One request -/

variable (cfg : Config)

/-- There is something to answer with: a row for the chosen tokens, a last position for logits. -/
def Payload.HasOutput (p : Payload τ η) (new : Inputs τ η) : Prop :=
  cfg.isLast = true → if p.argmax = true then new.rows ≠ some 0 else new.seqLen ≠ some 0

/-- The request stays clear of the places where an exception leaves a half-changed session. A
crop that raises must not have removed anything yet; once a request has rewound its session, either
the pass raises, which drops the session, or `start_pos` is positive, the inputs can be read and
the output does not raise; and the output does not raise after new positions were added to a
stored session. -/
def Request.Safe (s : Sessions κ) (req : Request τ η) : Prop :=
  ∀ sess start, req.payload.close = false → s.lookup req.payload.sessionId = some sess →
    req.payload.startPos = some start → start ≠ 0 →
    (Rewinds req.payload sess start →
      (∀ k, req.faults.crop = some k → sess.cache.cropPart k start = sess.cache) ∧
      (req.faults.crop = none → ∃ new n, inputs cfg req.payload = .ok new ∧ new.seqLen = some n ∧
        (req.faults.base = true ∨ 0 < start ∧ req.faults.output = false ∧
          req.payload.HasOutput cfg new))) ∧
    (sess.length = start → ∀ new n, inputs cfg req.payload = .ok new → new.seqLen = some n →
      req.faults.base = false → n ≠ 0 →
        req.faults.output = false ∧ req.payload.HasOutput cfg new)

/-- What a session has to offer: its recorded length and the positions of every layer. -/
def Session.holds (sess : Session κ) : Int × List (List κ) :=
  (sess.length, sess.cache.map Layer.columns)

/-- The session is gone, or as usable as it was. -/
def Unharmed (s s' : Sessions κ) (id : String) : Prop :=
  s'.lookup id = none ∨ (s'.lookup id).map Session.holds = (s.lookup id).map Session.holds

variable {cfg} (M : Model τ η ℓ κ)

theorem firstRow_isSome {α : Type} {t : Tensor α} {n : Nat} (hlen : t.seqLen = some n)
    (hrows : t.rows ≠ some 0) : ∃ first, t.firstRow = some first := by
  obtain ⟨shape, items⟩ := t
  cases shape with
  | nil => cases hlen
  | cons rows rest =>
      cases rest with
      | nil => cases hlen
      | cons len others =>
          cases rows with
          | zero => exact absurd rfl hrows
          | succ r => exact ⟨_, rfl⟩

theorem lastOfRows_isSome {α : Type} {t : Tensor α} {n : Nat} (hlen : t.seqLen = some n)
    (hn : t.seqLen ≠ some 0) : ∃ last, t.lastOfRows = some last := by
  obtain ⟨shape, items⟩ := t
  cases shape with
  | nil => cases hlen
  | cons rows rest =>
      cases rest with
      | nil => cases hlen
      | cons len others =>
          cases len with
          | zero => exact absurd rfl hn
          | succ m => exact ⟨_, rfl⟩

/-- With something to answer with, only a fault makes the output raise. -/
theorem output_ne_error {p : Payload τ η} {new : Inputs τ η} {n : Nat} (hlen : new.seqLen = some n)
    (hout : p.HasOutput cfg new) (start : Int) (cache : Cache κ) (e : Exc) :
    output cfg M p (M.base new start cache).1 ≠ .error e := by
  have hrows := M.base_rows new start cache
  have hseq := M.base_seqLen new start cache
  intro h
  unfold output at h
  split at h
  · rename_i hargmax
    obtain ⟨hlast, hargmax⟩ := Bool.and_eq_true_iff.mp hargmax
    have hout := hout hlast
    rw [if_pos hargmax] at hout
    obtain ⟨first, hfirst⟩ := firstRow_isSome (hseq.trans hlen) (hrows ▸ hout)
    rw [hfirst] at h
    cases h
  · rename_i hargmax
    split at h
    · rename_i hlast
      have hout := hout hlast
      rw [hlast, Bool.true_and] at hargmax
      rw [if_neg hargmax] at hout
      obtain ⟨last, hrow⟩ := lastOfRows_isSome (hseq.trans hlen) (hseq ▸ hout)
      rw [hrow] at h
      cases h
    · cases h

variable {now : Instant} {req : Request τ η}

/-- A pass over no new positions adds nothing. -/
theorem after_none (M : Model τ η ℓ κ) {cache : Cache κ} {new : Inputs τ η} {start : Int}
    (hlen : new.seqLen = some 0) :
    (M.after new start cache).map Layer.columns = cache.map Layer.columns := by
  have hempty : ∀ col ∈ (M.base new start cache).2, col.length = 0 := fun col hcol => by
    rw [M.base_columns new start cache col hcol, hlen]
    rfl
  exact append_none (M.base_layers new start cache) hempty

/-- An output that raises after a pass over no new positions has changed nothing. -/
theorem outputFailed_unharmed {sess : Session κ} {start : Int} {new : Inputs τ η}
    (hsess : s.lookup req.payload.sessionId = some sess) (hlen : new.seqLen = some 0) :
    Unharmed s (s.modify req.payload.sessionId fun sess' =>
      { sess' with cache := M.after new start sess.cache }) req.payload.sessionId := by
  right
  rw [AList.lookup_modify_self, hsess, Option.map_some, Option.map_some, Option.map_some,
    Session.holds, Session.holds, after_none M hlen]

/-- The table is in line and an exception has done no harm. -/
def Sound (s : Sessions κ) (id : String) (outcome : Result τ η ℓ × Sessions κ) : Prop :=
  Consistent outcome.2 ∧ ∀ e, outcome.1 = .error e → Unharmed s outcome.2 id

theorem Sound.unchanged (hs : Consistent s) (result : Result τ η ℓ) : Sound s id (result, s) :=
  ⟨hs, fun _ _ => .inr rfl⟩

theorem Sound.dropped (hs : Consistent s) (result : Result τ η ℓ) :
    Sound s id (result, s.erase id) :=
  ⟨hs.erase, fun _ _ => .inl (AList.lookup_erase ..)⟩

theorem Sound.stored (hs : Consistent s) {sess : Session κ} (h : sess.Consistent)
    (answer : Response τ η ℓ) :
    Sound s id (.ok answer, Stage.evict cfg now (s.insert id sess)) :=
  ⟨(hs.insert h).evict cfg now, nofun⟩

variable (now) in
theorem fresh_sound (hs : Consistent s) :
    Sound s req.payload.sessionId (advance cfg M now s req 0 M.freshCache) := by
  have hadvanced := advance_advanced cfg M now s req 0 M.freshCache
  generalize advance cfg M now s req 0 M.freshCache = outcome at hadvanced ⊢
  cases hadvanced with
  | refused e h => exact .unchanged hs _
  | baseFailed hinputs hlen hbase => exact .dropped hs _
  | outputFailed e hinputs hlen hbase hfault => exact .unchanged hs _
  | answered hinputs hlen hbase hfault houtput =>
      refine .stored hs ?_ _
      exact after_columns M (freshCache_columns M) hlen

variable (now) in
/-- A rewound session is dropped, or the request on it does not raise. -/
theorem rewound_sound (hs : Consistent s) {sess : Session κ} {start : Int}
    (hsess : s.lookup req.payload.sessionId = some sess) (hlt : start < sess.length)
    (hsafe : ∃ new n, inputs cfg req.payload = .ok new ∧ new.seqLen = some n ∧
      (req.faults.base = true ∨ 0 < start ∧ req.faults.output = false ∧
        req.payload.HasOutput cfg new)) :
    Sound s req.payload.sessionId (advance cfg M now (s.modify req.payload.sessionId fun sess =>
      { sess with cache := sess.cache.crop start, length := start }) req start
        (sess.cache.crop start)) := by
  obtain ⟨new, n, hinputs, hlen, hsafely⟩ := hsafe
  set cropped : Sessions κ := s.modify req.payload.sessionId fun sess =>
    { sess with cache := sess.cache.crop start, length := start }
  have hothers : ∀ x, x ≠ req.payload.sessionId → cropped.lookup x = s.lookup x :=
    fun x hx => AList.lookup_modify_ne hx _ _
  have hadvanced := advance_advanced cfg M now cropped req start (sess.cache.crop start)
  generalize advance cfg M now cropped req start (sess.cache.crop start) = outcome at hadvanced ⊢
  cases hadvanced with
  | refused e h => exact absurd hlen (h new n hinputs)
  | baseFailed hinputs' hlen' hbase =>
      refine ⟨fun x sess' hx => ?_, fun _ _ => .inl (AList.lookup_erase ..)⟩
      rw [AList.lookup_erase_eq] at hx
      split at hx
      · cases hx
      · rename_i hother
        exact hs x sess' ((hothers x hother).symm.trans hx)
  | outputFailed e hinputs' hlen' hbase hfault =>
      rename_i new' n'
      obtain rfl := Except.ok.inj (hinputs.symm.trans hinputs')
      rw [hbase] at hsafely
      obtain ⟨_, hoff, hout⟩ := hsafely.resolve_left Bool.false_ne_true
      rcases hfault with hfault | houtput
      · rw [hoff] at hfault
        cases hfault
      · exact absurd houtput (output_ne_error M hlen hout _ _ _)
  | answered hinputs' hlen' hbase hfault houtput =>
      rename_i new' n' answer
      rw [hbase] at hsafely
      obtain ⟨hpositive, _⟩ := hsafely.resolve_left Bool.false_ne_true
      have hcols := crop_columns (hs _ sess hsess) hpositive (Int.le_of_lt hlt)
      refine ⟨Consistent.evict (fun x sess' hx => ?_) cfg now, nofun⟩
      rw [AList.lookup_insert_eq] at hx
      split at hx
      · cases hx
        exact after_columns M hcols hlen'
      · rename_i hother
        exact hs x sess' ((hothers x hother).symm.trans hx)

variable (now) in
/-- An output that raises on a session that goes on has added no position to it. -/
theorem continued_sound (hs : Consistent s) {sess : Session κ} {start : Int}
    (hsess : s.lookup req.payload.sessionId = some sess) (hne : start ≠ 0)
    (hlength : sess.length = start)
    (hsafe : ∀ new n, inputs cfg req.payload = .ok new → new.seqLen = some n →
      req.faults.base = false → n ≠ 0 →
        req.faults.output = false ∧ req.payload.HasOutput cfg new) :
    Sound s req.payload.sessionId (advance cfg M now s req start sess.cache) := by
  have hcols : ∀ layer ∈ sess.cache, (layer.columns.length : Int) = start := fun layer h =>
    (hs _ sess hsess layer h).trans hlength
  have hadvanced := advance_advanced cfg M now s req start sess.cache
  generalize advance cfg M now s req start sess.cache = outcome at hadvanced ⊢
  cases hadvanced with
  | refused e h => exact .unchanged hs _
  | baseFailed hinputs hlen hbase => exact .dropped hs _
  | outputFailed e hinputs hlen hbase hfault =>
      rename_i new n
      have hsafely := hsafe new n hinputs hlen hbase
      have hnone : n = 0 := by
        by_contra hn
        obtain ⟨hoff, hout⟩ := hsafely hn
        rcases hfault with hfault | houtput
        · rw [hoff] at hfault
          cases hfault
        · exact output_ne_error M hlen hout _ _ _ houtput
      subst hnone
      rw [if_neg hne]
      refine ⟨hs.modify fun sess' hsess' => ?_, fun _ _ => outputFailed_unharmed M hsess hlen⟩
      cases hsess.symm.trans hsess'
      intro layer hlayer
      have hlayer := after_columns M hcols hlen layer hlayer
      rw [hlayer, hlength]
      exact Int.add_zero start
  | answered hinputs hlen hbase hfault houtput =>
      refine .stored hs ?_ _
      exact after_columns M hcols hlen

variable (now) in
/-- One request keeps every cache in line with its recorded length, and does no harm when it
raises. -/
theorem handle_consistent (hs : Consistent s) (hsafe : req.Safe cfg s) :
    Sound s req.payload.sessionId (handle cfg M now s req) := by
  have hhandled := handle_handled cfg M now s req
  generalize handle cfg M now s req = outcome at hhandled ⊢
  cases hhandled with
  | refused e => exact .unchanged hs _
  | closed hclose => exact .dropped hs _
  | missed cached hstart hne h => exact .unchanged hs _
  | fresh hclose hstart => exact fresh_sound M now hs
  | cropFailed hclose hsess hstart hne hrewinds hcrop =>
      rename_i sess start k
      have hsame := ((hsafe sess start hclose hsess hstart hne).1 hrewinds).1 k hcrop
      have htable : (s.modify req.payload.sessionId fun sess =>
          { sess with cache := sess.cache.cropPart k start }) = s := by
        apply AList.modify_eq_self
        intro sess' h
        cases hsess.symm.trans h
        rw [hsame]
      rw [htable]
      exact .unchanged hs _
  | rewound hclose hsess hstart hne hrewinds hcrop =>
      exact rewound_sound M now hs hsess hrewinds.2
        (((hsafe _ _ hclose hsess hstart hne).1 hrewinds).2 hcrop)
  | continued hclose hsess hstart hne hlength =>
      exact continued_sound M now hs hsess hne hlength
        ((hsafe _ _ hclose hsess hstart hne).2 hlength)

/-! ### Batches -/

/-- One request with its answer, the table before it and the table after it. -/
structure Execution (τ η ℓ κ : Type) where
  before : Sessions κ
  req : Request τ η
  result : Result τ η ℓ
  after : Sessions κ

def Execution.Unharmed (x : Execution τ η ℓ κ) : Prop :=
  ∀ e, x.result = .error e → Stage.Unharmed x.before x.after x.req.payload.sessionId

variable (cfg)

/-- The requests of a batch that `handleOthers` runs. -/
def othersExecutions (now : Instant) :
    List (Request τ η × Bool) → Sessions κ → List (Execution τ η ℓ κ)
  | [], _ => []
  | (_, true) :: rest, s => othersExecutions now rest s
  | (req, false) :: rest, s =>
    ⟨s, req, (handle cfg M now s req).1, (handle cfg M now s req).2⟩ ::
      othersExecutions now rest (handle cfg M now s req).2

/-- The requests that share the batched pass. -/
def batchExecutions (now : Instant) (s : Sessions κ) (batch : List (Request τ η))
    (fault : Bool) : List (Execution τ η ℓ κ) :=
  let ps := batch.map Request.payload
  match decodeBatch cfg M now s ps fault with
  | .ok (answers, after) => (batch.zip answers).map fun (req, answer) => ⟨s, req, .ok answer, after⟩
  | .error e => batch.map fun req => ⟨s, req, .error e, dropBatch ps s⟩

variable {cfg}

theorem handleOthers_snd (rest : List (Request τ η × Bool)) :
    (handleOthers cfg M now ((req, false) :: rest) s).2 =
      (handleOthers cfg M now rest (handle cfg M now s req).2).2 := by
  rw [handleOthers]

theorem handleOthers_consistent {chosen : List (Request τ η × Bool)} (hs : Consistent s)
    (hsafe : ∀ x ∈ othersExecutions cfg M now chosen s, x.req.Safe cfg x.before) :
    Consistent (handleOthers cfg M now chosen s).2 ∧
      ∀ x ∈ othersExecutions cfg M now chosen s, x.Unharmed := by
  induction chosen generalizing s with
  | nil =>
      rw [othersExecutions]
      exact ⟨hs, List.forall_mem_nil _⟩
  | cons pair rest ih =>
      obtain ⟨req, batched⟩ := pair
      cases batched with
      | true =>
          rw [othersExecutions] at hsafe ⊢
          rw [handleOthers]
          exact ih hs hsafe
      | false =>
          rw [othersExecutions] at hsafe ⊢
          rw [handleOthers_snd]
          obtain ⟨hafter, hunharmed⟩ := handle_consistent M now hs
            (hsafe _ List.mem_cons_self)
          obtain ⟨hrest, hothers⟩ := ih hafter fun x hx => hsafe x (List.mem_cons_of_mem _ hx)
          refine ⟨hrest, fun x hx => ?_⟩
          rcases List.mem_cons.mp hx with rfl | hx
          · exact hunharmed
          · exact hothers x hx

theorem storeBatch_consistent
    {rows : List (Payload τ η × Session κ × List (List κ))} (hs : Consistent s)
    (hrows : ∀ row ∈ rows, row.2.1.Consistent ∧ ∀ new ∈ row.2.2, new.length = 1) :
    Consistent (storeBatch now rows s) := by
  induction rows generalizing s with
  | nil => exact hs
  | cons row rest ih =>
      obtain ⟨p, sess, columns⟩ := row
      obtain ⟨hsess, hcolumns⟩ := hrows _ List.mem_cons_self
      have hnew : Session.Consistent ⟨sess.cache.append columns, sess.length + 1, now⟩ :=
        append_columns hsess hcolumns
      exact ih (hs.insert hnew) fun row hrow => hrows row (List.mem_cons_of_mem _ hrow)

/-- A batched pass that returns has added one position to each of its sessions. -/
theorem decodeBatch_consistent {ps : List (Payload τ η)} {fault : Bool}
    {answers : List (Response τ η ℓ)} {s' : Sessions κ} (hs : Consistent s)
    (hps : ∀ p ∈ ps, ∃ new, inputs cfg p = .ok new ∧ new.seqLen = some 1)
    (h : decodeBatch cfg M now s ps fault = .ok (answers, s')) : Consistent s' := by
  obtain ⟨sessions, news, hsessions, hnews, -, rfl⟩ := decodeBatch_spec M h
  refine Consistent.evict (storeBatch_consistent hs fun row hrow => ?_) cfg now
  obtain ⟨⟨p, sess, hidden, columns⟩, hmem, rfl⟩ := List.mem_map.mp hrow
  obtain ⟨i, hi⟩ := List.mem_iff_getElem?.mp hmem
  obtain ⟨hp, hi⟩ := List.getElem?_zip_eq_some.mp hi
  obtain ⟨hsess, hcolumns⟩ := List.getElem?_zip_eq_some.mp hi
  have hlookup : s.lookup p.sessionId = some sess :=
    List.forall₂_zip hsessions
      (List.mem_iff_getElem?.mpr ⟨i, List.getElem?_zip_eq_some.mpr ⟨hp, hsess⟩⟩)
  obtain ⟨new, hnew, hone⟩ := hps p (List.mem_of_getElem? hp)
  have hgiven : news[i]? = some new := by
    obtain ⟨new', hnew', hinputs⟩ := getElem?_of_forall₂ hnews hp
    cases hnew.symm.trans hinputs
    exact hnew'
  have hpair : (news.zip sessions)[i]? = some (new, sess) :=
    List.getElem?_zip_eq_some.mpr ⟨hgiven, hsess⟩
  obtain ⟨-, hlength⟩ := M.baseRows_columns _ ((new, sess.length, sess.cache), hidden, columns)
    (List.mem_iff_getElem?.mpr ⟨i, List.getElem?_zip_eq_some.mpr ⟨by
      rw [List.getElem?_map, hpair]
      rfl, hcolumns⟩⟩)
  refine ⟨hs _ sess hlookup, fun col hcol => ?_⟩
  rw [hlength col hcol, hone]
  rfl

/-- Dropping a batch drops every session of it and no other. -/
theorem lookup_dropBatch (ps : List (Payload τ η)) (s : Sessions κ) (id : String) :
    (dropBatch ps s).lookup id =
      if id ∈ ps.map Payload.sessionId then none else s.lookup id := by
  induction ps generalizing s with
  | nil => rfl
  | cons p rest ih =>
      rw [dropBatch, List.foldl_cons]
      apply (ih (s.erase p.sessionId)).trans
      rw [AList.lookup_erase_eq]
      by_cases hrest : id ∈ rest.map Payload.sessionId
      · rw [if_pos hrest, List.map_cons, if_pos (List.mem_cons_of_mem _ hrest)]
      · rw [if_neg hrest]
        simp only [List.map_cons, List.mem_cons, hrest, or_false]

variable (now) in
/-- The batched requests do no harm, whatever raises. -/
theorem batch_consistent {batch : List (Request τ η)} (fault : Bool) (hs : Consistent s)
    (hbatch : ∀ req ∈ batch, ∃ new, inputs cfg req.payload = .ok new ∧ new.seqLen = some 1) :
    (∀ answers s', decodeBatch cfg M now s (batch.map Request.payload) fault = .ok (answers, s') →
      Consistent s') ∧
    Consistent (dropBatch (batch.map Request.payload) s) ∧
    ∀ x ∈ batchExecutions cfg M now s batch fault, x.Unharmed := by
  refine ⟨fun answers s' h => decodeBatch_consistent M hs ?_ h, fun id sess h => ?_,
    fun x hx e he => ?_⟩
  · intro p hp
    obtain ⟨req, hreq, rfl⟩ := List.mem_map.mp hp
    exact hbatch req hreq
  · rw [lookup_dropBatch] at h
    split at h
    · cases h
    · exact hs id sess h
  · unfold batchExecutions at hx
    dsimp only at hx
    split at hx
    · obtain ⟨pair, -, rfl⟩ := List.mem_map.mp hx
      cases he
    · obtain ⟨req, hreq, rfl⟩ := List.mem_map.mp hx
      left
      rw [lookup_dropBatch, if_pos]
      exact List.mem_map_of_mem (List.mem_map_of_mem hreq)

/-! ### Calls -/

inductive Call (τ η : Type) where
  | handle (now : Instant) (req : Request τ η)
  | handleBatch (now : Instant) (reqs : List (Request τ η)) (batchFault : Bool)
  | dropSessions

variable (cfg)

def exec (s : Sessions κ) : Call τ η → Sessions κ
  | .handle now req => (handle cfg M now s req).2
  | .handleBatch now reqs batchFault => (handleBatch cfg M now s reqs batchFault).2
  | .dropSessions => Stage.dropSessions

/-- The requests that a call runs with `handle`. -/
def oneByOne (s : Sessions κ) : Call τ η → List (Execution τ η ℓ κ)
  | .handle now req => [⟨s, req, (handle cfg M now s req).1, (handle cfg M now s req).2⟩]
  | .handleBatch now reqs _ =>
    match selectBatch cfg s reqs with
    | .ok chosen => othersExecutions cfg M now chosen s
    | .error _ => []
  | .dropSessions => []

/-- The requests that a call runs in a batched pass. -/
def batched (s : Sessions κ) : Call τ η → List (Execution τ η ℓ κ)
  | .handleBatch now reqs batchFault =>
    match selectBatch cfg s reqs with
    | .ok chosen => batchExecutions cfg M now (handleOthers cfg M now chosen s).2
        ((chosen.filter Prod.snd).map Prod.fst) batchFault
    | .error _ => []
  | _ => []

/-- A call whose one-by-one requests are all safe. -/
def SafeStep (s : Sessions κ) (call : Call τ η) (s' : Sessions κ) : Prop :=
  s' = exec cfg M s call ∧ ∀ x ∈ oneByOne cfg M s call, x.req.Safe cfg x.before

variable {cfg} {call : Call τ η}

/-- One call keeps every cache in line with its recorded length, and does no harm. -/
theorem exec_consistent (hs : Consistent s)
    (hsafe : ∀ x ∈ oneByOne cfg M s call, x.req.Safe cfg x.before) :
    Consistent (exec cfg M s call) ∧
      ∀ x ∈ oneByOne cfg M s call ++ batched cfg M s call, x.Unharmed := by
  cases call with
  | dropSessions =>
      refine ⟨fun id sess h => ?_, List.forall_mem_nil _⟩
      cases h
  | handle now req =>
      obtain ⟨hafter, hunharmed⟩ := handle_consistent M now hs
        (hsafe _ List.mem_cons_self)
      refine ⟨hafter, fun x hx => ?_⟩
      obtain rfl := List.mem_singleton.mp hx
      exact hunharmed
  | handleBatch now reqs batchFault =>
      unfold exec oneByOne batched handleBatch at *
      dsimp only at *
      cases hselect : selectBatch cfg s reqs with
      | error e => exact ⟨hs, List.forall_mem_nil _⟩
      | ok chosen =>
          rw [hselect] at hsafe
          dsimp only at hsafe ⊢
          obtain ⟨hothers, hone⟩ := handleOthers_consistent M hs hsafe
          generalize handleOthers cfg M now chosen s = others at hothers ⊢
          obtain ⟨results, s₁⟩ := others
          have hbatch : ∀ req ∈ (chosen.filter Prod.snd).map Prod.fst,
              ∃ new, inputs cfg req.payload = .ok new ∧ new.seqLen = some 1 := by
            intro req hreq
            obtain ⟨pair, hpair, rfl⟩ := List.mem_map.mp hreq
            obtain ⟨hmem, htrue⟩ := List.mem_filter.mp hpair
            obtain ⟨-, ⟨new, hnew, -, hone⟩, -⟩ :=
              batchable_spec ((selectBatch_spec hselect).2 pair hmem htrue).1
            exact ⟨new, hnew, hone⟩
          obtain ⟨hdecoded, hdropped, hshared⟩ := batch_consistent M now batchFault hothers
            hbatch
          rw [List.map_map] at hdecoded hdropped
          refine ⟨?_, fun x hx => (List.mem_append.mp hx).elim (hone x) (hshared x)⟩
          dsimp only
          split
          · exact hothers
          · split
            · rename_i answers s' hdecode
              exact hdecoded answers s' hdecode
            · exact hdropped

/-- In every run whose requests are safe, every stored cache has exactly the recorded length after
every call, and a request that raises has dropped its session or left it as usable as it was. -/
theorem caches_agree_when_safe {calls : List (Call τ η)} {s : Sessions κ}
    (hrun : Run (SafeStep cfg M) ∅ calls s) :
    Consistent s ∧ ∀ call s', SafeStep cfg M s call s' →
      Consistent s' ∧ ∀ x ∈ oneByOne cfg M s call ++ batched cfg M s call, x.Unharmed := by
  have hs : Consistent s := by
    refine hrun.invariant (P := Consistent) (fun {s call s'} hstep hs => ?_) fun id sess h => ?_
    · obtain ⟨rfl, hsafe⟩ := hstep
      exact (exec_consistent M hs hsafe).1
    · cases h
  refine ⟨hs, fun call s' hstep => ?_⟩
  obtain ⟨rfl, hsafe⟩ := hstep
  exact exec_consistent M hs hsafe

def firstStage : Config := ⟨true, false, 4, 600, 4⟩

/-- New tokens of one session for a first stage. -/
def tokens (startPos : Int) (items : List Nat) (rewind : Bool) (faults : Faults) :
    Request Nat Nat :=
  ⟨⟨"a", false, some startPos, rewind, false, .tensor (.row [] items), .missing⟩, faults⟩

def prompt : Call Nat Nat := .handle 0 (tokens 0 [1, 2, 3] false .none)

/-- A prompt, then a step that crops it. -/
theorem caches_agree_when_safe_rewound :
    Consistent (exec firstStage prefixSum (exec firstStage prefixSum ∅ prompt)
      (.handle 1 (tokens 2 [5] true .none))) := by
  have hprompt : SafeStep firstStage prefixSum ∅ prompt (exec firstStage prefixSum ∅ prompt) := by
    refine ⟨rfl, fun x hx => ?_⟩
    obtain rfl := List.mem_singleton.mp hx
    intro sess start _ hsess
    cases hsess
  have hrewind : SafeStep firstStage prefixSum (exec firstStage prefixSum ∅ prompt)
      (.handle 1 (tokens 2 [5] true .none)) (exec firstStage prefixSum
        (exec firstStage prefixSum ∅ prompt) (.handle 1 (tokens 2 [5] true .none))) := by
    refine ⟨rfl, fun x hx => ?_⟩
    obtain rfl := List.mem_singleton.mp hx
    intro sess start _ hsess hstart _
    have hstored : sess = ⟨[⟨true, true, [1, 2, 3]⟩], 3, 0⟩ :=
      Option.some.inj (hsess.symm.trans (by decide))
    obtain rfl : 2 = start := Option.some.inj hstart
    rw [hstored]
    exact ⟨fun _ => ⟨nofun, fun _ => ⟨_, _, rfl, rfl, .inr ⟨by decide, rfl, nofun⟩⟩⟩, nofun⟩
  exact (caches_agree_when_safe prefixSum ((Run.single hprompt).snoc hrewind)).1

/-- The output of a decode step raises after the pass has added its position to the stored cache:
the session stays stored with three positions recorded and four held. -/
theorem output_raises_after_append : ∃ (calls : List (Call Nat Nat)) (s : Sessions Nat),
    Run (fun s call s' => s' = exec firstStage prefixSum s call) ∅ calls s ∧ ¬Consistent s := by
  refine ⟨[prompt, .handle 1 (tokens 3 [4] false ⟨none, false, true⟩)], _,
    .cons rfl (.single rfl), fun h => ?_⟩
  have hbad := h "a" ⟨[⟨true, true, [1, 2, 3, 4]⟩], 3, 0⟩ (by decide) _ List.mem_cons_self
  exact absurd hbad (by decide)

end Distllm.Stage
