import Distllm.StageFaults

/-! A batched pass against the same requests one by one. Both run the requests that are not
batched first; then the batched ones are looked up together, or handled in turn with an eviction
after each. The comparison is made at one instant, and the table of a stage never holds more
sessions than it may, so only age can make the two differ. -/

namespace Distllm.Stage

variable {τ η ℓ κ : Type} (cfg : Config) (M : Model τ η ℓ κ) {now : Instant} {s : Sessions κ}

/-! ### Bounded tables -/

def Bounded (s : Sessions κ) : Prop := s.keys.length ≤ cfg.maxSessions

/-- The session was used recently enough to survive an eviction. -/
def Fresh (now : Instant) (sess : Session κ) : Prop := now - sess.lastUsed ≤ cfg.sessionTtl

instance (sess : Session κ) : Decidable (Fresh cfg now sess) :=
  inferInstanceAs (Decidable (_ ≤ _))

instance (s : Sessions κ) : Decidable (Bounded cfg s) := inferInstanceAs (Decidable (_ ≤ _))

theorem evict_bounded : Bounded cfg (evict cfg now s) :=
  AList.length_keys_keepFirst cfg.maxSessions _

variable {cfg}

theorem advance_bounded (hs : Bounded cfg s) (req : Request τ η) (start : Int) (cache : Cache κ) :
    Bounded cfg (advance cfg M now s req start cache).2 := by
  have hadvanced := advance_advanced cfg M now s req start cache
  generalize advance cfg M now s req start cache = outcome at hadvanced ⊢
  cases hadvanced with
  | refused e h => exact hs
  | baseFailed hinputs hlen hbase => exact Nat.le_trans (AList.length_keys_erase ..) hs
  | outputFailed e hinputs hlen hbase hfault =>
      dsimp only
      split
      · exact hs
      · exact Nat.le_trans (Nat.le_of_eq (AList.length_keys_modify ..)) hs
  | answered hinputs hlen hbase hfault houtput => exact evict_bounded cfg

theorem handle_bounded (hs : Bounded cfg s) (req : Request τ η) :
    Bounded cfg (handle cfg M now s req).2 := by
  have hhandled := handle_handled cfg M now s req
  generalize handle cfg M now s req = outcome at hhandled ⊢
  cases hhandled with
  | refused e => exact hs
  | closed hclose => exact Nat.le_trans (AList.length_keys_erase ..) hs
  | missed cached hstart hne h => exact hs
  | fresh hclose hstart => exact advance_bounded M hs req 0 _
  | cropFailed hclose hsess hstart hne hrewinds hcrop =>
      exact Nat.le_trans (Nat.le_of_eq (AList.length_keys_modify ..)) hs
  | rewound hclose hsess hstart hne hrewinds hcrop =>
      exact advance_bounded M (Nat.le_trans (Nat.le_of_eq (AList.length_keys_modify ..)) hs) req _ _
  | continued hclose hsess hstart hne hlength => exact advance_bounded M hs req _ _

theorem handleOthers_bounded (hs : Bounded cfg s) (chosen : List (Request τ η × Bool)) :
    Bounded cfg (handleOthers cfg M now chosen s).2 := by
  induction chosen generalizing s with
  | nil => exact hs
  | cons pair rest ih =>
      obtain ⟨req, batched⟩ := pair
      cases batched with
      | true =>
          rw [handleOthers]
          exact ih hs
      | false =>
          rw [handleOthers_snd]
          exact ih (handle_bounded M hs req)

theorem dropBatch_bounded (hs : Bounded cfg s) (ps : List (Payload τ η)) :
    Bounded cfg (dropBatch ps s) := by
  induction ps generalizing s with
  | nil => exact hs
  | cons p rest ih => exact ih (Nat.le_trans (AList.length_keys_erase ..) hs)

theorem exec_bounded (hs : Bounded cfg s) (call : Call τ η) : Bounded cfg (exec cfg M s call) := by
  cases call with
  | handle now req => exact handle_bounded M hs req
  | dropSessions => exact Nat.zero_le _
  | handleBatch now reqs batchFault =>
      unfold exec handleBatch
      dsimp only
      split
      · exact hs
      · rename_i chosen hselect
        have hothers : Bounded cfg (handleOthers cfg M now chosen s).2 :=
          handleOthers_bounded M hs chosen
        split
        · exact hothers
        · split
          · rename_i answers s' hdecode
            obtain ⟨_, _, _, _, _, rfl⟩ := decodeBatch_spec M hdecode
            exact evict_bounded cfg
          · exact dropBatch_bounded hothers _

/-- A stage never holds more sessions than it may. -/
theorem run_bounded {calls : List (Call τ η)}
    (hrun : Run (fun s call s' => s' = exec cfg M s call) ∅ calls s) : Bounded cfg s := by
  refine hrun.invariant (P := Bounded cfg) (fun {s call s'} hstep hs => ?_) (Nat.zero_le _)
  rw [hstep]
  exact exec_bounded M hs call

/-- What an eviction leaves of a bounded table: the fresh sessions. -/
theorem lookup_evict (hs : Bounded cfg s) (id : String) :
    (evict cfg now s).lookup id = (s.lookup id).filter (Fresh cfg now ·) := by
  have hretain := Nat.le_trans (AList.length_keys_retain
    (fun _ sess => !decide (now - sess.lastUsed > cfg.sessionTtl)) s) hs
  rw [evict, AList.keepFirst_of_length_le hretain, AList.lookup_retain]
  congr 1
  funext sess
  rw [← decide_not]
  exact decide_eq_decide.mpr Int.not_lt

/-! ### Other sessions -/

theorem handleOthers_other {chosen : List (Request τ η × Bool)} {id : String}
    (hid : ∀ pair ∈ chosen, pair.2 = false → id ≠ pair.1.payload.sessionId) {sess : Session κ}
    (h : (handleOthers cfg M now chosen s).2.lookup id = some sess) : s.lookup id = some sess := by
  induction chosen generalizing s with
  | nil => exact h
  | cons pair rest ih =>
      obtain ⟨req, batched⟩ := pair
      have hrest := fun pair hpair => hid pair (List.mem_cons_of_mem _ hpair)
      cases batched with
      | true =>
          rw [handleOthers] at h
          exact ih hrest h
      | false =>
          rw [handleOthers_snd] at h
          exact handle_other M (hid _ List.mem_cons_self rfl) (ih hrest h)

/-! ### Well-formed payloads -/

/-- A payload with a session and, unless it closes it, a start position and a tensor. -/
def Payload.WellFormed (cfg : Config) (p : Payload τ η) : Prop :=
  p.sessionId ≠ "" ∧
    (p.close = false → (∃ start, p.startPos = some start) ∧ ∃ new, inputs cfg p = .ok new)

theorem Entry.shape_of_cat {α : Type} {keyMissing : Exc} {entry : Entry α} {t : Tensor α}
    (h : entry.cat keyMissing = .ok t) : entry.shape = .ok (some t.shape) := by
  cases entry with
  | tensor t' =>
      cases h
      rfl
  | missing => cases h
  | none => cases h
  | other => cases h

/-- The selection finds the shape of readable inputs. -/
theorem shape_of_inputs {p : Payload τ η} {new : Inputs τ η} (h : inputs cfg p = .ok new) :
    (if cfg.isFirst then p.inputIds.shape else p.hiddenStates.shape) = .ok (some new.shape) := by
  unfold inputs at h
  split at h
  · rename_i hfirst
    rw [if_pos hfirst]
    cases hcat : p.inputIds.cat (.valueError "first stage expects 'input_ids'") with
    | error e => rw [hcat] at h; cases h
    | ok t =>
        rw [hcat] at h
        cases h
        exact Entry.shape_of_cat hcat
  · rename_i hfirst
    rw [if_neg hfirst]
    cases hcat : p.hiddenStates.cat (.valueError "stage expects 'hidden_states'") with
    | error e => rw [hcat] at h; cases h
    | ok t =>
        rw [hcat] at h
        cases h
        exact Entry.shape_of_cat hcat

theorem batchable_ok {p : Payload τ η} (h : p.WellFormed cfg) :
    ∃ flag, batchable cfg s p = .ok flag := by
  unfold batchable
  cases hclose : p.close with
  | true => exact ⟨false, rfl⟩
  | false =>
      obtain ⟨⟨start, hstart⟩, new, hnew⟩ := h.2 hclose
      rw [if_neg Bool.false_ne_true, hstart]
      dsimp only
      cases s.lookup p.sessionId with
      | none => exact ⟨false, rfl⟩
      | some sess =>
          dsimp only
          rw [shape_of_inputs hnew]
          split
          · exact ⟨false, rfl⟩
          · split
            · cases ‹Except.ok _ = Except.error _›
            · exact ⟨_, rfl⟩
            · exact ⟨false, rfl⟩

theorem mapM_ok {ε α β : Type} (f : α → Except ε β) (xs : List α)
    (h : ∀ x ∈ xs, ∃ y, f x = .ok y) : ∃ ys, xs.mapM f = .ok ys := by
  induction xs with
  | nil => exact ⟨[], rfl⟩
  | cons x xs ih =>
      obtain ⟨y, hy⟩ := h x List.mem_cons_self
      obtain ⟨ys, hys⟩ := ih fun x hx => h x (List.mem_cons_of_mem _ hx)
      exact ⟨y :: ys, mapM_of_forall₂ (.cons hy (forall₂_of_mapM hys))⟩

/-- The selection does not raise on well-formed payloads. -/
theorem selectBatch_ok {reqs : List (Request τ η)}
    (h : ∀ req ∈ reqs, req.payload.WellFormed cfg) : ∃ chosen, selectBatch cfg s reqs = .ok chosen := by
  unfold selectBatch
  dsimp only
  obtain ⟨flags, hflags⟩ := mapM_ok (fun req : Request τ η =>
    if (reqs.map fun req => req.payload.sessionId).count req.payload.sessionId = 1 then
      batchable cfg s req.payload else .ok false) reqs fun req hreq => by
    split
    · exact batchable_ok (h req hreq)
    · exact ⟨false, rfl⟩
  rw [hflags]
  exact ⟨_, rfl⟩

/-! ### One decode step -/

/-- A decode step with the stored session it runs on, its input and its answer. -/
structure Decode (τ η ℓ κ : Type) where
  req : Request τ η
  sess : Session κ
  new : Inputs τ η
  answer : Response τ η ℓ

namespace Decode

abbrev id (x : Decode τ η ℓ κ) : String := x.req.payload.sessionId

/-- The session after the step. -/
def stored (M : Model τ η ℓ κ) (now : Instant) (x : Decode τ η ℓ κ) : Session κ :=
  ⟨M.after x.new x.sess.length x.sess.cache, x.sess.length + 1, now⟩

structure Valid (cfg : Config) (M : Model τ η ℓ κ) (x : Decode τ η ℓ κ) : Prop where
  named : x.id ≠ ""
  isOpen : x.req.payload.close = false
  faultless : x.req.faults = .none
  continues : x.req.payload.startPos = some x.sess.length
  nonempty : x.sess.length ≠ 0
  readable : inputs cfg x.req.payload = .ok x.new
  oneToken : x.new.seqLen = some 1
  answers : output cfg M x.req.payload (M.base x.new x.sess.length x.sess.cache).1 = .ok x.answer
  noMiss : ∀ cached, x.answer ≠ .cacheMiss cached

end Decode

variable (cfg) in
theorem output_ok (p : Payload τ η) {new : Inputs τ η} (hrow : new.rows = some 1)
    (hone : new.seqLen = some 1) (start : Int) (cache : Cache κ) :
    ∃ answer, output cfg M p (M.base new start cache).1 = .ok answer ∧
      ∀ cached, answer ≠ .cacheMiss cached := by
  have hout : p.HasOutput cfg new := by
    intro _
    split
    · rw [hrow]
      decide
    · rw [hone]
      decide
  cases houtput : output cfg M p (M.base new start cache).1 with
  | error e => exact absurd houtput (output_ne_error M hone hout start cache e)
  | ok answer =>
      refine ⟨answer, rfl, ?_⟩
      rintro cached rfl
      unfold output at houtput
      split at houtput
      · split at houtput <;> cases houtput
      · split at houtput
        · split at houtput <;> cases houtput
        · cases houtput

/-- What the selection has found makes a decode step. -/
theorem exists_decode {req : Request τ η} (hwell : req.payload.WellFormed cfg)
    (hfaults : req.faults = .none) (hbatch : batchable cfg s req.payload = .ok true) :
    ∃ x : Decode τ η ℓ κ, x.req = req ∧ x.Valid cfg M ∧ s.lookup x.id = some x.sess := by
  obtain ⟨hclose, ⟨new, hnew, hrow, hone⟩, sess, start, hsess, hstart, hne, rfl⟩ :=
    batchable_spec hbatch
  obtain ⟨answer, hanswer, hmiss⟩ := output_ok cfg M req.payload hrow hone sess.length sess.cache
  exact ⟨⟨req, sess, new, answer⟩, rfl, ⟨hwell.1, hclose, hfaults, hstart, hne, hnew, hone, hanswer,
    hmiss⟩, hsess⟩

variable {M} {x : Decode τ η ℓ κ}

/-- A request at the end of a stored cache goes on there. -/
theorem handle_continued {req : Request τ η} {start : Int} {sess : Session κ}
    (hnamed : req.payload.sessionId ≠ "") (hopen : req.payload.close = false)
    (hstart : req.payload.startPos = some start) (hne : start ≠ 0)
    (hsess : s.lookup req.payload.sessionId = some sess) (hlength : sess.length = start) :
    handle cfg M now s req = advance cfg M now s req start sess.cache := by
  unfold handle
  dsimp only
  rw [if_neg hnamed, hopen, if_neg Bool.false_ne_true, hstart]
  dsimp only
  rw [if_neg hne, hsess]
  dsimp only
  rw [if_neg fun h => Int.ne_of_lt h.2 hlength.symm, if_neg (not_not_intro hlength)]

/-- Without its session it is a miss. -/
theorem handle_absent {req : Request τ η} {start : Int} (hnamed : req.payload.sessionId ≠ "")
    (hopen : req.payload.close = false) (hstart : req.payload.startPos = some start)
    (hne : start ≠ 0) (hsess : s.lookup req.payload.sessionId = none) :
    handle cfg M now s req = (.ok (.cacheMiss 0), s) := by
  unfold handle
  dsimp only
  rw [if_neg hnamed, hopen, if_neg Bool.false_ne_true, hstart]
  dsimp only
  rw [if_neg hne, hsess]

/-- On its session the step is answered and the session stored. -/
theorem Decode.Valid.handle_stored (hx : x.Valid cfg M) (hsess : s.lookup x.id = some x.sess) :
    handle cfg M now s x.req = (.ok x.answer, evict cfg now (s.insert x.id (x.stored M now))) := by
  have hbase : x.req.faults.base = false := by
    rw [hx.faultless]
    rfl
  have houtput : x.req.faults.output = false := by
    rw [hx.faultless]
    rfl
  rw [handle_continued hx.named hx.isOpen hx.continues hx.nonempty hsess rfl]
  unfold advance
  dsimp only
  rw [hx.readable]
  dsimp only
  rw [hx.oneToken]
  dsimp only
  rw [hbase, if_neg Bool.false_ne_true, houtput, if_neg Bool.false_ne_true, hx.answers]
  rfl

theorem Decode.Valid.handle_missing (hx : x.Valid cfg M) (hsess : s.lookup x.id = none) :
    handle cfg M now s x.req = (.ok (.cacheMiss 0), s) :=
  handle_absent hx.named hx.isOpen hx.continues hx.nonempty hsess

/-! ### The batched pass -/

variable {steps : List (Decode τ η ℓ κ)}

/-- The caches and lengths of a batch of steps, put into the table. -/
def storeSteps (M : Model τ η ℓ κ) (now : Instant) (steps : List (Decode τ η ℓ κ))
    (s : Sessions κ) : Sessions κ :=
  steps.foldl (fun s x => s.insert x.id (x.stored M now)) s

theorem storeBatch_steps (steps : List (Decode τ η ℓ κ)) (s : Sessions κ) :
    storeBatch now (steps.map fun x =>
      (x.req.payload, x.sess, (M.base x.new x.sess.length x.sess.cache).2)) s =
      storeSteps M now steps s := by
  induction steps generalizing s with
  | nil => rfl
  | cons x rest ih =>
      rw [List.map_cons, storeBatch, ih]
      rfl

/-- What has been stored does not depend on the table, the rest does not change. -/
theorem lookup_storeSteps (steps : List (Decode τ η ℓ κ)) (s : Sessions κ) (id : String) :
    (storeSteps M now steps s).lookup id =
      ((storeSteps M now steps ∅).lookup id).or (s.lookup id) := by
  induction steps generalizing s with
  | nil => rfl
  | cons x rest ih =>
      have hcons (t : Sessions κ) : storeSteps M now (x :: rest) t =
          storeSteps M now rest (t.insert x.id (x.stored M now)) := rfl
      rw [hcons, hcons, ih (s.insert _ _), ih (AList.insert _ _ ∅), AList.lookup_insert_eq,
        AList.lookup_insert_eq, Option.or_assoc]
      split
      · rfl
      · rfl

theorem lookup_storeSteps_of_notMem {id : String} (hid : id ∉ steps.map Decode.id) :
    (storeSteps M now steps s).lookup id = s.lookup id := by
  induction steps generalizing s with
  | nil => rfl
  | cons x rest ih =>
      rw [List.map_cons, List.mem_cons, not_or] at hid
      have hcons : storeSteps M now (x :: rest) s =
          storeSteps M now rest (s.insert x.id (x.stored M now)) := rfl
      rw [hcons, ih hid.2, AList.lookup_insert_ne hid.1]

theorem lookup_storeSteps_of_mem (hnodup : (steps.map Decode.id).Nodup) (hx : x ∈ steps) :
    (storeSteps M now steps s).lookup x.id = some (x.stored M now) := by
  induction steps generalizing s with
  | nil => cases hx
  | cons y rest ih =>
      obtain ⟨hy, hrest⟩ := List.nodup_cons.mp hnodup
      have hcons : storeSteps M now (y :: rest) s =
          storeSteps M now rest (s.insert y.id (y.stored M now)) := rfl
      rw [hcons]
      rcases List.mem_cons.mp hx with rfl | hx
      · rw [lookup_storeSteps_of_notMem hy, AList.lookup_insert]
      · exact ih hrest hx

theorem storeSteps_bounded (hs : Bounded cfg s) (hmem : ∀ x ∈ steps, x.id ∈ s) :
    Bounded cfg (storeSteps M now steps s) := by
  induction steps generalizing s with
  | nil => exact hs
  | cons x rest ih =>
      have hx := hmem x List.mem_cons_self
      apply ih (Nat.le_trans (Nat.le_of_eq (AList.length_keys_insert hx _)) hs)
      intro y hy
      exact (AList.mem_insert _).mpr (.inr (hmem y (List.mem_cons_of_mem _ hy)))

/-- The batched pass forwards each row as a pass of its own would. -/
def RowByRow (M : Model τ η ℓ κ) : Prop :=
  ∀ rows, M.baseRows rows = rows.map fun (new, start, cache) => M.base new start cache

theorem batchSessions_steps (hsess : ∀ x ∈ steps, s.lookup x.id = some x.sess) :
    batchSessions s (steps.map fun x => x.req.payload) = .ok (steps.map Decode.sess) := by
  rw [batchSessions_spec, List.forall₂_map_left_iff, List.forall₂_map_right_iff]
  exact List.forall₂_same.mpr hsess

/-- When every session is still stored, the pass answers every step and stores all of them. -/
theorem decodeBatch_stored (hrows : RowByRow M) (hvalid : ∀ x ∈ steps, x.Valid cfg M)
    (hsess : ∀ x ∈ steps, s.lookup x.id = some x.sess) :
    decodeBatch cfg M now s (steps.map fun x => x.req.payload) false =
      .ok (steps.map Decode.answer, evict cfg now (storeSteps M now steps s)) := by
  have hnews : (steps.map fun x => x.req.payload).mapM (inputs cfg) =
      .ok (steps.map Decode.new) := by
    apply mapM_of_forall₂
    rw [List.forall₂_map_left_iff, List.forall₂_map_right_iff]
    exact List.forall₂_same.mpr fun x hx => (hvalid x hx).readable
  have hanswers : (steps.map fun x => (x.req.payload,
      M.base x.new x.sess.length x.sess.cache)).mapM (m := Except Exc)
        (fun x => output cfg M x.1 x.2.1) = .ok (steps.map Decode.answer) := by
    apply mapM_of_forall₂
    rw [List.forall₂_map_left_iff, List.forall₂_map_right_iff]
    exact List.forall₂_same.mpr fun x hx => (hvalid x hx).answers
  have hpass : M.baseRows (((steps.map Decode.new).zip (steps.map Decode.sess)).map
      fun x => (x.1, x.2.length, x.2.cache)) =
        steps.map fun x => M.base x.new x.sess.length x.sess.cache := by
    rw [hrows, List.zip_map', List.map_map, List.map_map]
    rfl
  unfold decodeBatch
  rw [batchSessions_steps hsess, hnews]
  dsimp only [bind, Except.bind, pure, Except.pure]
  rw [if_neg Bool.false_ne_true, hpass, List.zip_map', hanswers]
  dsimp only
  rw [List.zip_map', List.zip_map', List.map_map, ← storeBatch_steps]
  rfl

variable (cfg M now) in
/-- When a session is gone, the pass raises a `KeyError`. -/
theorem decodeBatch_missing {ps : List (Payload τ η)} (fault : Bool)
    (hmiss : ∃ p ∈ ps, s.lookup p.sessionId = none) :
    ∃ key, decodeBatch cfg M now s ps fault = .error (.keyError key) := by
  have hsessions : ∃ key, batchSessions s ps = .error (.keyError key) := by
    induction ps with
    | nil => exact absurd hmiss (by rintro ⟨p, hp, _⟩; cases hp)
    | cons p rest ih =>
        rw [batchSessions]
        cases hp : s.lookup p.sessionId with
        | none => exact ⟨p.sessionId, rfl⟩
        | some sess =>
            obtain ⟨q, hq, hnone⟩ := hmiss
            rcases List.mem_cons.mp hq with rfl | hq
            · cases hp.symm.trans hnone
            · obtain ⟨key, hkey⟩ := ih ⟨q, hq, hnone⟩
              exact ⟨key, by rw [hkey]; rfl⟩
  obtain ⟨key, hkey⟩ := hsessions
  refine ⟨key, ?_⟩
  unfold decodeBatch
  rw [hkey]
  rfl

/-! ### One by one -/

variable (cfg M) in
/-- The requests one by one, in order. -/
def handleAll (now : Instant) :
    List (Request τ η) → Sessions κ → List (Result τ η ℓ) × Sessions κ
  | [], s => ([], s)
  | req :: rest, s =>
    let (result, s) := handle cfg M now s req
    let (results, s) := handleAll now rest s
    (result :: results, s)

theorem handleAll_cons (req : Request τ η) (rest : List (Request τ η)) (s : Sessions κ) :
    handleAll cfg M now (req :: rest) s =
      ((handle cfg M now s req).1 :: (handleAll cfg M now rest (handle cfg M now s req).2).1,
        (handleAll cfg M now rest (handle cfg M now s req).2).2) := by
  rw [handleAll]

variable (now) in
/-- A step whose session is gone is answered with a miss, wherever it comes. -/
theorem handleAll_missing (hnodup : (steps.map Decode.id).Nodup) (hx : x.Valid cfg M)
    (hmem : x ∈ steps) (hmiss : s.lookup x.id = none) :
    .ok (.cacheMiss 0) ∈ (handleAll cfg M now (steps.map Decode.req) s).1 := by
  induction steps generalizing s with
  | nil => cases hmem
  | cons y rest ih =>
      rw [List.map_cons, handleAll_cons]
      obtain ⟨hy, hrest⟩ := List.nodup_cons.mp hnodup
      rcases List.mem_cons.mp hmem with rfl | hmem
      · rw [hx.handle_missing hmiss]
        exact List.mem_cons_self
      · have hne : x.id ≠ y.id := fun h => hy (h ▸ List.mem_map_of_mem hmem)
        refine List.mem_cons_of_mem _ (ih hrest hmem ?_)
        by_contra hsome
        obtain ⟨sess, hsess⟩ := Option.ne_none_iff_exists'.mp hsome
        rw [handle_other M hne hsess] at hmiss
        cases hmiss

theorem filter_or_filter {α : Type} (p : α → Bool) (a b : Option α) :
    (a.or (b.filter p)).filter p = (a.or b).filter p := by
  cases a with
  | some v => rfl
  | none => simp only [Option.none_or, Option.filter_filter, Bool.and_self]

/-- When every session is stored, and all but the first are fresh, the steps get the same answers
one by one, and leave the sessions that one eviction at the end would have left. -/
theorem handleAll_stored (hs : Bounded cfg s) (hne : steps ≠ [])
    (hnodup : (steps.map Decode.id).Nodup) (hvalid : ∀ x ∈ steps, x.Valid cfg M)
    (hsess : ∀ x ∈ steps, s.lookup x.id = some x.sess)
    (hfresh : ∀ x ∈ steps.tail, Fresh cfg now x.sess) :
    (handleAll cfg M now (steps.map Decode.req) s).1 = steps.map (fun x => .ok x.answer) ∧
      ∀ id, (handleAll cfg M now (steps.map Decode.req) s).2.lookup id =
        (evict cfg now (storeSteps M now steps s)).lookup id := by
  induction steps generalizing s with
  | nil => exact absurd rfl hne
  | cons x rest ih =>
      have hx := hvalid x List.mem_cons_self
      have hxsess := hsess x List.mem_cons_self
      have hmem : ∀ y ∈ x :: rest, y.id ∈ s := fun y hy =>
        AList.lookup_isSome.mp (Option.isSome_iff_exists.mpr ⟨_, hsess y hy⟩)
      rw [List.map_cons, handleAll_cons, hx.handle_stored hxsess]
      dsimp only
      set stored := s.insert x.id (x.stored M now) with hstored
      have hbounded : Bounded cfg stored :=
        Nat.le_trans (Nat.le_of_eq (AList.length_keys_insert (hmem x List.mem_cons_self) _)) hs
      obtain ⟨hother, hrest⟩ := List.nodup_cons.mp hnodup
      cases rest with
      | nil => exact ⟨rfl, fun id => rfl⟩
      | cons y others =>
          have hkept : ∀ z ∈ y :: others, (evict cfg now stored).lookup z.id = some z.sess := by
            intro z hz
            have hne : z.id ≠ x.id := fun h => hother (h ▸ List.mem_map_of_mem hz)
            rw [lookup_evict hbounded, hstored, AList.lookup_insert_ne hne,
              hsess z (List.mem_cons_of_mem _ hz), Option.filter_some,
              if_pos (decide_eq_true (hfresh z hz))]
          obtain ⟨hanswers, hlookup⟩ := ih (evict_bounded cfg) (List.cons_ne_nil _ _) hrest
            (fun z hz => hvalid z (List.mem_cons_of_mem _ hz)) hkept
            fun z hz => hfresh z (List.mem_of_mem_tail hz)
          have hmem' : ∀ z ∈ y :: others, z.id ∈ evict cfg now stored := fun z hz =>
            AList.lookup_isSome.mp (Option.isSome_iff_exists.mpr ⟨_, hkept z hz⟩)
          have hmem'' : ∀ z ∈ y :: others, z.id ∈ stored := fun z hz =>
            (AList.mem_insert _).mpr (.inr (hmem z (List.mem_cons_of_mem _ hz)))
          refine ⟨by rw [hanswers]; rfl, fun id => ?_⟩
          have hcons : storeSteps M now (x :: y :: others) s =
              storeSteps M now (y :: others) stored := rfl
          rw [hlookup id, hcons, lookup_evict (storeSteps_bounded (evict_bounded cfg) hmem'),
            lookup_evict (storeSteps_bounded hbounded hmem''), lookup_storeSteps,
            lookup_storeSteps _ stored, lookup_evict hbounded, filter_or_filter]

/-! ### The comparison -/

section Compare

variable (cfg M)

/-- The requests that are not batched, in order, and then the batched ones, in order. -/
def handleUnbatched (now : Instant) (s : Sessions κ) (reqs : List (Request τ η)) :
    Except Exc (List (Option (Result τ η ℓ))) × Sessions κ :=
  match selectBatch cfg s reqs with
  | .error e => (.error e, s)
  | .ok chosen =>
    let (results, s) := handleOthers cfg M now chosen s
    let (answers, s) := handleAll cfg M now ((chosen.filter Prod.snd).map Prod.fst) s
    (.ok (fill results answers), s)

/-- The same results, and the same sessions with the same lengths and caches. -/
def SameOutcome (a b : Except Exc (List (Option (Result τ η ℓ))) × Sessions κ) : Prop :=
  a.1 = b.1 ∧ ∀ id, (a.2.lookup id).map (fun sess => (sess.length, sess.cache)) =
    (b.2.lookup id).map fun sess => (sess.length, sess.cache)

/-- When the batched pass starts, every session of the batch is still stored, and all but the
first were used within the time to live. -/
def BatchKept (now : Instant) (s : Sessions κ) (reqs : List (Request τ η)) : Prop :=
  ∀ chosen, selectBatch cfg s reqs = .ok chosen →
    let batch := (chosen.filter Prod.snd).map fun pair => pair.1.payload.sessionId
    let s₁ := (handleOthers cfg M now chosen s).2
    (∀ id ∈ batch, s₁.lookup id ≠ none) ∧
      ∀ id ∈ batch.tail, ∀ sess, s₁.lookup id = some sess → Fresh cfg now sess

end Compare

theorem fill_nil (results : List (Option (Result τ η ℓ))) : fill results [] = results := by
  induction results with
  | nil => rfl
  | cons result rest ih =>
      cases result with
      | none => exact congrArg (none :: ·) ih
      | some result => exact congrArg (some result :: ·) ih

/-- With as many answers as places, the filled list determines the answers. -/
theorem fill_inj {results : List (Option (Result τ η ℓ))} {xs ys : List (Result τ η ℓ)}
    (hx : results.countP Option.isNone = xs.length) (hy : results.countP Option.isNone = ys.length)
    (h : fill results xs = fill results ys) : xs = ys := by
  induction results generalizing xs ys with
  | nil =>
      rw [List.countP_nil] at hx hy
      rw [List.eq_nil_of_length_eq_zero hx.symm, List.eq_nil_of_length_eq_zero hy.symm]
  | cons result rest ih =>
      cases result with
      | some result =>
          rw [List.countP_cons_of_neg (by simp)] at hx hy
          rw [fill, fill] at h
          exact ih hx hy (List.cons.inj h).2
      | none =>
          rw [List.countP_cons_of_pos rfl] at hx hy
          cases xs with
          | nil => cases hx
          | cons x xs =>
              cases ys with
              | nil => cases hy
              | cons y ys =>
                  rw [fill, fill] at h
                  obtain ⟨hxy, hrest⟩ := List.cons.inj h
                  rw [Option.some.inj hxy, ih (Nat.succ.inj hx) (Nat.succ.inj hy) hrest]

theorem handleOthers_places (chosen : List (Request τ η × Bool)) (s : Sessions κ) :
    (handleOthers cfg M now chosen s).1.countP Option.isNone = (chosen.filter Prod.snd).length := by
  induction chosen generalizing s with
  | nil => rfl
  | cons pair rest ih =>
      obtain ⟨req, batched⟩ := pair
      cases batched with
      | true =>
          rw [handleOthers, List.filter_cons_of_pos rfl, List.length_cons, ← ih s]
          exact List.countP_cons_of_pos rfl
      | false =>
          rw [handleOthers, List.filter_cons_of_neg Bool.false_ne_true,
            ← ih (handle cfg M now s req).2]
          exact List.countP_cons_of_neg Bool.false_ne_true

theorem handleAll_length (reqs : List (Request τ η)) (s : Sessions κ) :
    (handleAll cfg M now reqs s).1.length = reqs.length := by
  induction reqs generalizing s with
  | nil => rfl
  | cons req rest ih =>
      rw [handleAll_cons]
      exact congrArg Nat.succ (ih _)

section Select

variable {reqs : List (Request τ η)} {chosen : List (Request τ η × Bool)}

abbrev Pair.id (pair : Request τ η × Bool) : String := pair.1.payload.sessionId

/-- The session of a batched request occurs once among all requests. -/
theorem count_chosen (h : selectBatch cfg s reqs = .ok chosen) {pair : Request τ η × Bool}
    (hmem : pair ∈ chosen.filter Prod.snd) :
    ((chosen.filter Prod.snd).map Pair.id).count (Pair.id pair) +
      ((chosen.filter fun pair => !pair.2).map Pair.id).count (Pair.id pair) = 1 := by
  obtain ⟨hfst, hspec⟩ := selectBatch_spec h
  obtain ⟨hchosen, htrue⟩ := List.mem_filter.mp hmem
  rw [← List.count_append, ← List.map_append,
    ((List.filter_append_perm Prod.snd chosen).map Pair.id).count_eq]
  have hids : chosen.map Pair.id = reqs.map fun req => req.payload.sessionId := by
    rw [← hfst, List.map_map]
    rfl
  rw [hids]
  exact (hspec pair hchosen htrue).2

theorem chosen_nodup (h : selectBatch cfg s reqs = .ok chosen) :
    ((chosen.filter Prod.snd).map Pair.id).Nodup := by
  rw [List.nodup_iff_count_le_one]
  intro id
  by_cases hid : id ∈ (chosen.filter Prod.snd).map Pair.id
  · obtain ⟨pair, hpair, rfl⟩ := List.mem_map.mp hid
    have hone := count_chosen h hpair
    omega
  · rw [List.count_eq_zero_of_not_mem hid]
    exact Nat.zero_le 1

theorem chosen_other (h : selectBatch cfg s reqs = .ok chosen) {pair other : Request τ η × Bool}
    (hpair : pair ∈ chosen.filter Prod.snd) (hother : other ∈ chosen) (hfalse : other.2 = false) :
    Pair.id pair ≠ Pair.id other := by
  intro heq
  have hone := count_chosen h hpair
  have hfirst : 0 < ((chosen.filter Prod.snd).map Pair.id).count (Pair.id pair) :=
    List.count_pos_iff.mpr (List.mem_map_of_mem hpair)
  have hsecond : 0 < ((chosen.filter fun pair => !pair.2).map Pair.id).count (Pair.id pair) := by
    rw [heq]
    exact List.count_pos_iff.mpr (List.mem_map_of_mem
      (List.mem_filter.mpr ⟨hother, by rw [hfalse]; rfl⟩))
  omega

/-- A list of images has a list of preimages. -/
theorem exists_map_eq {α β : Type} {f : β → α} {Q : β → Prop} {xs : List α}
    (h : ∀ x ∈ xs, ∃ y, f y = x ∧ Q y) : ∃ ys : List β, ys.map f = xs ∧ ∀ y ∈ ys, Q y := by
  induction xs with
  | nil => exact ⟨[], rfl, List.forall_mem_nil _⟩
  | cons x xs ih =>
      obtain ⟨y, rfl, hy⟩ := h x List.mem_cons_self
      obtain ⟨ys, rfl, hys⟩ := ih fun x hx => h x (List.mem_cons_of_mem _ hx)
      refine ⟨y :: ys, rfl, fun z hz => ?_⟩
      rcases List.mem_cons.mp hz with rfl | hz
      · exact hy
      · exact hys z hz

/-- The batched requests of a selection are decode steps on the sessions stored before it. -/
theorem exists_steps (h : selectBatch cfg s reqs = .ok chosen)
    (hwell : ∀ req ∈ reqs, req.payload.WellFormed cfg)
    (hfaults : ∀ req ∈ reqs, batchable cfg s req.payload = .ok true → req.faults = .none) :
    ∃ steps : List (Decode τ η ℓ κ), steps.map Decode.req = (chosen.filter Prod.snd).map Prod.fst ∧
      ∀ x ∈ steps, x.Valid cfg M ∧ s.lookup x.id = some x.sess := by
  obtain ⟨hfst, hspec⟩ := selectBatch_spec h
  have hdecode : ∀ pair ∈ chosen.filter Prod.snd,
      ∃ x : Decode τ η ℓ κ, x.req = pair.1 ∧ x.Valid cfg M ∧ s.lookup x.id = some x.sess := by
    intro pair hpair
    obtain ⟨hchosen, htrue⟩ := List.mem_filter.mp hpair
    have hreq : pair.1 ∈ reqs := hfst ▸ List.mem_map_of_mem hchosen
    have hbatchable := (hspec pair hchosen htrue).1
    exact exists_decode M (hwell _ hreq) (hfaults _ hreq hbatchable) hbatchable
  apply exists_map_eq
  intro req hreq
  obtain ⟨pair, hpair, rfl⟩ := List.mem_map.mp hreq
  exact hdecode pair hpair

end Select

/-- After the other requests a batched session is as it was, or gone. -/
theorem others_keep {reqs : List (Request τ η)} {chosen : List (Request τ η × Bool)}
    (h : selectBatch cfg s reqs = .ok chosen)
    (hsteps : steps.map Decode.req = (chosen.filter Prod.snd).map Prod.fst)
    (hsess : ∀ x ∈ steps, s.lookup x.id = some x.sess) (hx : x ∈ steps) {sess : Session κ}
    (hafter : (handleOthers cfg M now chosen s).2.lookup x.id = some sess) : sess = x.sess := by
  have hreq : x.req ∈ (chosen.filter Prod.snd).map Prod.fst := hsteps ▸ List.mem_map_of_mem hx
  obtain ⟨pair, hpair, hfst⟩ := List.mem_map.mp hreq
  have hid : Pair.id pair = x.id := congrArg (fun req => req.payload.sessionId) hfst
  refine Option.some.inj ((handleOthers_other M (fun other hother hfalse => ?_) hafter).symm.trans
    (hsess x hx))
  rw [← hid]
  exact chosen_other h hpair hother hfalse

/-- The end of a batch call: the batched pass and what becomes of its results. -/
def finishBatch (cfg : Config) (M : Model τ η ℓ κ) (now : Instant) (s : Sessions κ)
    (results : List (Option (Result τ η ℓ))) (batch : List (Payload τ η)) (fault : Bool) :
    Except Exc (List (Option (Result τ η ℓ))) × Sessions κ :=
  match decodeBatch cfg M now s batch fault with
  | .ok (answers, s) => (.ok (fill results (answers.map .ok)), s)
  | .error e => (.ok (fill results (batch.map fun _ => .error e)), dropBatch batch s)

section Finish

variable {results : List (Option (Result τ η ℓ))}

theorem finishBatch_of_kept (hrows : RowByRow M) (hs : Bounded cfg s) (hne : steps ≠ [])
    (hnodup : (steps.map Decode.id).Nodup) (hvalid : ∀ x ∈ steps, x.Valid cfg M)
    (hsess : ∀ x ∈ steps, s.lookup x.id = some x.sess)
    (hfresh : ∀ x ∈ steps.tail, Fresh cfg now x.sess) :
    SameOutcome
      (finishBatch cfg M now s results (steps.map fun x => x.req.payload) false)
      (.ok (fill results (handleAll cfg M now (steps.map Decode.req) s).1),
        (handleAll cfg M now (steps.map Decode.req) s).2) := by
  obtain ⟨hanswers, hlookup⟩ := handleAll_stored hs hne hnodup hvalid hsess hfresh
  rw [finishBatch, decodeBatch_stored hrows hvalid hsess]
  refine ⟨?_, fun id => ?_⟩
  · dsimp only
    rw [hanswers, List.map_map]
    rfl
  · dsimp only
    rw [hlookup id]

theorem kept_of_finishBatch (hrows : RowByRow M) (hs : Bounded cfg s)
    (hplaces : results.countP Option.isNone = steps.length)
    (hnodup : (steps.map Decode.id).Nodup) (hvalid : ∀ x ∈ steps, x.Valid cfg M)
    (hkeep : ∀ x ∈ steps, ∀ sess, s.lookup x.id = some sess → sess = x.sess)
    (hsame : (finishBatch cfg M now s results (steps.map fun x => x.req.payload) false).1 =
      .ok (fill results (handleAll cfg M now (steps.map Decode.req) s).1)) :
    (∀ x ∈ steps, s.lookup x.id = some x.sess) ∧ ∀ x ∈ steps.tail, Fresh cfg now x.sess := by
  have hlength : results.countP Option.isNone =
      (handleAll cfg M now (steps.map Decode.req) s).1.length := by
    rw [hplaces, handleAll_length, List.length_map]
  -- One by one, a missing session gives a miss; a batched pass raises, or has no miss at all.
  by_cases hmissing : ∃ x ∈ steps, s.lookup x.id = none
  · exfalso
    obtain ⟨x, hx, hnone⟩ := hmissing
    have hgone : ∃ p ∈ steps.map fun x => x.req.payload, s.lookup p.sessionId = none :=
      ⟨_, List.mem_map_of_mem hx, hnone⟩
    obtain ⟨key, hkey⟩ := decodeBatch_missing cfg M now false hgone
    rw [finishBatch, hkey] at hsame
    have hfill := fill_inj (by rw [hplaces, List.length_map, List.length_map]) hlength
      (Except.ok.inj hsame)
    have hmiss := handleAll_missing now hnodup (hvalid x hx) hx hnone
    rw [← hfill] at hmiss
    obtain ⟨_, _, h⟩ := List.mem_map.mp hmiss
    cases h
  · have hsess : ∀ x ∈ steps, s.lookup x.id = some x.sess := by
      intro x hx
      cases hlookup : s.lookup x.id with
      | none => exact absurd ⟨x, hx, hlookup⟩ hmissing
      | some sess => rw [hkeep x hx sess hlookup]
    refine ⟨hsess, fun x hx => ?_⟩
    by_contra hold
    rw [finishBatch, decodeBatch_stored hrows hvalid hsess] at hsame
    have hfill := fill_inj (by rw [hplaces, List.length_map, List.length_map]) hlength
      (Except.ok.inj hsame)
    -- The eviction after the first step has dropped the old session.
    cases steps with
    | nil => cases hx
    | cons y rest =>
        have hy := hvalid y List.mem_cons_self
        have hysess := hsess y List.mem_cons_self
        obtain ⟨hother, hrest⟩ := List.nodup_cons.mp hnodup
        have hbounded : Bounded cfg (s.insert y.id (y.stored M now)) :=
          Nat.le_trans (Nat.le_of_eq (AList.length_keys_insert
            (AList.lookup_isSome.mp (Option.isSome_iff_exists.mpr ⟨_, hysess⟩)) _)) hs
        have hgone : (evict cfg now (s.insert y.id (y.stored M now))).lookup x.id = none := by
          have hne : x.id ≠ y.id := fun h => hother (h ▸ List.mem_map_of_mem hx)
          rw [lookup_evict hbounded, AList.lookup_insert_ne hne,
            hsess x (List.mem_cons_of_mem _ hx), Option.filter_some,
            if_neg (by rw [decide_eq_true_eq]; exact hold)]
        have hmiss := handleAll_missing now hrest (hvalid x (List.mem_cons_of_mem _ hx)) hx
          hgone
        have hmem : .ok (.cacheMiss 0) ∈
            (handleAll cfg M now ((y :: rest).map Decode.req) s).1 := by
          rw [List.map_cons, handleAll_cons, hy.handle_stored hysess]
          exact List.mem_cons_of_mem _ hmiss
        rw [← hfill, List.map_map] at hmem
        obtain ⟨z, hz, h⟩ := List.mem_map.mp hmem
        exact (hvalid z hz).noMiss 0 (Except.ok.inj h)

end Finish

variable (M) in
/-- On well-formed payloads and with a pass that treats every row on its own, a batch gives the
results and the sessions of the requests one by one exactly when its sessions are still stored
when the pass starts, and all but the first are fresh. -/
theorem sameOutcome_iff_batchKept {reqs : List (Request τ η)} (hrows : RowByRow M)
    (hs : Bounded cfg s) (hwell : ∀ req ∈ reqs, req.payload.WellFormed cfg)
    (hfaults : ∀ req ∈ reqs, batchable cfg s req.payload = .ok true → req.faults = .none) :
    SameOutcome (handleBatch cfg M now s reqs false) (handleUnbatched cfg M now s reqs) ↔
      BatchKept cfg M now s reqs := by
  obtain ⟨chosen, hselect⟩ := selectBatch_ok (s := s) hwell
  obtain ⟨steps, hsteps, hvalid⟩ := exists_steps (M := M) hselect hwell hfaults
  have hkeep : ∀ x ∈ steps, ∀ sess,
      (handleOthers cfg M now chosen s).2.lookup x.id = some sess → sess = x.sess :=
    fun x hx sess => others_keep hselect hsteps (fun x hx => (hvalid x hx).2) hx
  have hplaces : (handleOthers cfg M now chosen s).1.countP Option.isNone = steps.length := by
    rw [handleOthers_places, ← List.length_map Prod.fst, ← hsteps, List.length_map]
  have hbounded : Bounded cfg (handleOthers cfg M now chosen s).2 := handleOthers_bounded M hs chosen
  have hpayloads : (chosen.filter Prod.snd).map (fun pair => pair.1.payload) =
      steps.map fun x => x.req.payload := by
    have h := congrArg (List.map Request.payload) hsteps
    rw [List.map_map, List.map_map] at h
    exact h.symm
  have hids : (chosen.filter Prod.snd).map Pair.id = steps.map Decode.id := by
    have h := congrArg (List.map Payload.sessionId) hpayloads
    rw [List.map_map, List.map_map] at h
    exact h
  have hnodup : (steps.map Decode.id).Nodup := hids ▸ chosen_nodup hselect
  have hkept : BatchKept cfg M now s reqs ↔
      (∀ x ∈ steps, (handleOthers cfg M now chosen s).2.lookup x.id = some x.sess) ∧
        ∀ x ∈ steps.tail, Fresh cfg now x.sess := by
    constructor
    · intro h
      obtain ⟨hstored, hfresh⟩ := h chosen hselect
      change ∀ id ∈ (chosen.filter Prod.snd).map Pair.id, _ at hstored
      change ∀ id ∈ ((chosen.filter Prod.snd).map Pair.id).tail, _ at hfresh
      rw [hids] at hstored hfresh
      have hsess : ∀ x ∈ steps,
          (handleOthers cfg M now chosen s).2.lookup x.id = some x.sess := by
        intro x hx
        obtain ⟨sess, hsess⟩ := Option.ne_none_iff_exists'.mp (hstored x.id (List.mem_map_of_mem hx))
        rw [hsess, hkeep x hx sess hsess]
      refine ⟨hsess, fun x hx => hfresh x.id ?_ _ (hsess x (List.mem_of_mem_tail hx))⟩
      rw [← List.map_tail]
      exact List.mem_map_of_mem hx
    · rintro ⟨hsess, hfresh⟩ chosen' hselect'
      cases hselect.symm.trans hselect'
      change (∀ id ∈ (chosen.filter Prod.snd).map Pair.id, _) ∧
        ∀ id ∈ ((chosen.filter Prod.snd).map Pair.id).tail, _
      rw [hids, ← List.map_tail]
      constructor
      · rintro id hid hnone
        obtain ⟨x, hx, rfl⟩ := List.mem_map.mp hid
        cases (hsess x hx).symm.trans hnone
      · rintro id hid sess hlookup
        obtain ⟨x, hx, rfl⟩ := List.mem_map.mp hid
        rw [hkeep x (List.mem_of_mem_tail hx) sess hlookup]
        exact hfresh x hx
  rw [hkept, handleBatch, handleUnbatched, hselect]
  dsimp only
  rw [hpayloads, ← hsteps]
  by_cases hnil : steps = []
  · subst hnil
    rw [List.map_nil, if_pos rfl, List.map_nil, handleAll, fill_nil]
    exact ⟨fun _ => ⟨List.forall_mem_nil _, List.forall_mem_nil _⟩, fun _ => ⟨rfl, fun _ => rfl⟩⟩
  · rw [if_neg fun h => hnil (List.map_eq_nil_iff.mp h)]
    refine ⟨fun h => kept_of_finishBatch hrows hbounded hplaces hnodup (fun x hx => (hvalid x hx).1)
      hkeep h.1, fun h => finishBatch_of_kept hrows hbounded hnil hnodup
        (fun x hx => (hvalid x hx).1) h.1 h.2⟩

/-! ### A table with two sessions -/

def pairStage (maxSessions : Nat) : Config := ⟨true, false, maxSessions, 600, 2⟩

def pairSessions : Sessions Nat :=
  (AList.insert "b" ⟨[⟨true, true, [4, 5]⟩], 2, 0⟩ ∅).insert "a" ⟨[⟨true, true, [1, 2, 3]⟩], 3, 0⟩

def tokensOf (id : String) (startPos : Int) (items : List Nat) : Request Nat Nat :=
  ⟨⟨id, false, some startPos, false, false, .tensor (.row [] items), .missing⟩, .none⟩

/-- A decode step of each session, and the prompt of a third one. -/
def mixedBatch : List (Request Nat Nat) :=
  [tokensOf "a" 3 [7], tokensOf "b" 2 [8], tokensOf "c" 0 [1]]

theorem tokensOf_wellFormed {cfg : Config} (hfirst : cfg.isFirst = true) {id : String}
    (hid : id ≠ "") (startPos : Int) (items : List Nat) :
    (tokensOf id startPos items).payload.WellFormed cfg := by
  refine ⟨hid, fun _ => ⟨⟨startPos, rfl⟩, .inputIds (.row [] items), ?_⟩⟩
  rw [inputs, if_pos hfirst]
  rfl

/-- With room for the third session nothing differs. -/
theorem sameOutcome_iff_batchKept_roomy :
    SameOutcome (handleBatch (pairStage 3) prefixSum 1 pairSessions mixedBatch false)
      (handleUnbatched (pairStage 3) prefixSum 1 pairSessions mixedBatch) := by
  refine (sameOutcome_iff_batchKept prefixSum (fun _ => rfl) (by decide) ?_ ?_).mpr ?_
  · intro req hreq
    simp only [mixedBatch, List.mem_cons, List.not_mem_nil, or_false] at hreq
    rcases hreq with rfl | rfl | rfl
    · exact tokensOf_wellFormed rfl (by decide) 3 [7]
    · exact tokensOf_wellFormed rfl (by decide) 2 [8]
    · exact tokensOf_wellFormed rfl (by decide) 0 [1]
  · intro req hreq _
    simp only [mixedBatch, List.mem_cons, List.not_mem_nil, or_false] at hreq
    rcases hreq with rfl | rfl | rfl
    · rfl
    · rfl
    · rfl
  · intro chosen hselect
    have hchosen : selectBatch (pairStage 3) pairSessions mixedBatch =
        .ok [(tokensOf "a" 3 [7], true), (tokensOf "b" 2 [8], true),
          (tokensOf "c" 0 [1], false)] := rfl
    obtain rfl := Except.ok.inj (hchosen.symm.trans hselect)
    constructor
    · intro id hid
      have hid : id ∈ ["a", "b"] := hid
      simp only [List.mem_cons, List.not_mem_nil, or_false] at hid
      rcases hid with rfl | rfl
      · decide
      · decide
    · intro id hid sess hsess
      obtain rfl := List.mem_singleton.mp (show id ∈ ["b"] from hid)
      have hstored : some sess = some ⟨[⟨true, true, [4, 5]⟩], 2, 0⟩ := hsess.symm.trans (by decide)
      rw [Option.some.inj hstored]
      decide

/-- The prompt of the third session evicts the second before the batch looks its sessions up: both
decode steps fail with a `KeyError` and the first loses its cache, where one by one it is answered
and only the second is a miss. -/
theorem batch_fails_after_eviction :
    ¬SameOutcome (handleBatch (pairStage 2) prefixSum 1 pairSessions mixedBatch false)
      (handleUnbatched (pairStage 2) prefixSum 1 pairSessions mixedBatch) := by
  intro h
  have hlost := h.2 "a"
  exact absurd hlost (by decide)

end Distllm.Stage
