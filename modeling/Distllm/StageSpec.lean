import Mathlib.Data.List.Forall2
import Distllm.StageState

/-! What a stage does with one request, said once: the cases of `advance` and `handle`, and what
the selection and the pass of a batch have established when they come to an end. -/

namespace Distllm.Stage

/-! ### Lists of fallible results -/

theorem forall₂_of_mapM {ε α β : Type} {f : α → Except ε β} {xs : List α} {ys : List β}
    (h : xs.mapM f = .ok ys) : List.Forall₂ (fun x y => f x = .ok y) xs ys := by
  induction xs generalizing ys with
  | nil =>
      rw [List.mapM_nil] at h
      cases h
      exact .nil
  | cons x xs ih =>
      rw [List.mapM_cons] at h
      cases hx : f x with
      | error e =>
          rw [hx] at h
          cases h
      | ok y =>
          rw [hx] at h
          cases hxs : xs.mapM f with
          | error e =>
              rw [hxs] at h
              cases h
          | ok rest =>
              rw [hxs] at h
              cases h
              exact .cons hx (ih hxs)

theorem mapM_of_forall₂ {ε α β : Type} {f : α → Except ε β} {xs : List α} {ys : List β}
    (h : List.Forall₂ (fun x y => f x = .ok y) xs ys) : xs.mapM f = .ok ys := by
  induction h with
  | nil => rfl
  | cons hx _ ih =>
      rw [List.mapM_cons, hx, ih]
      rfl

theorem getElem?_of_forall₂ {α β : Type} {R : α → β → Prop} {xs : List α} {ys : List β}
    (h : List.Forall₂ R xs ys) {i : Nat} {x : α} (hx : xs[i]? = some x) :
    ∃ y, ys[i]? = some y ∧ R x y := by
  obtain ⟨hi, hx⟩ := List.getElem?_eq_some_iff.mp hx
  have hi' : i < ys.length := h.length_eq ▸ hi
  refine ⟨ys[i], List.getElem?_eq_getElem hi', ?_⟩
  rw [← hx]
  exact h.get hi hi'

variable {τ η ℓ κ : Type} (cfg : Config) (M : Model τ η ℓ κ) {now : Instant} {s : Sessions κ}

/-- The cache after a pass. -/
def Model.after (M : Model τ η ℓ κ) (new : Inputs τ η) (start : Int) (cache : Cache κ) : Cache κ :=
  cache.append (M.base new start cache).2

/-- The cases of `advance`, with the answer and the table they lead to. -/
inductive Advanced (now : Instant) (s : Sessions κ) (req : Request τ η) (start : Int)
    (cache : Cache κ) : Result τ η ℓ × Sessions κ → Prop where
  | refused (e : Exc)
      (h : ∀ new n, inputs cfg req.payload = .ok new → new.seqLen ≠ some n) :
      Advanced now s req start cache (.error e, s)
  | baseFailed {new : Inputs τ η} {n : Nat} (hinputs : inputs cfg req.payload = .ok new)
      (hlen : new.seqLen = some n) (hbase : req.faults.base = true) :
      Advanced now s req start cache (.error (.model .base), s.erase req.payload.sessionId)
  | outputFailed {new : Inputs τ η} {n : Nat} (e : Exc)
      (hinputs : inputs cfg req.payload = .ok new) (hlen : new.seqLen = some n)
      (hbase : req.faults.base = false)
      (hfault : req.faults.output = true ∨
        output cfg M req.payload (M.base new start cache).1 = .error e) :
      Advanced now s req start cache (.error e, if start = 0 then s
        else s.modify req.payload.sessionId fun sess =>
          { sess with cache := M.after new start cache })
  | answered {new : Inputs τ η} {n : Nat} {answer : Response τ η ℓ}
      (hinputs : inputs cfg req.payload = .ok new) (hlen : new.seqLen = some n)
      (hbase : req.faults.base = false) (hfault : req.faults.output = false)
      (houtput : output cfg M req.payload (M.base new start cache).1 = .ok answer) :
      Advanced now s req start cache (.ok answer, evict cfg now
        (s.insert req.payload.sessionId ⟨M.after new start cache, start + n, now⟩))

theorem advance_advanced (now : Instant) (s : Sessions κ) (req : Request τ η) (start : Int)
    (cache : Cache κ) :
    Advanced cfg M now s req start cache (advance cfg M now s req start cache) := by
  unfold advance
  dsimp only
  split
  · rename_i e hinputs
    exact .refused e fun new n h => nomatch hinputs.symm.trans h
  rename_i new hinputs
  split
  · rename_i hlen
    refine .refused _ fun new' n h => ?_
    cases hinputs.symm.trans h
    rw [hlen]
    exact nofun
  rename_i n hlen
  split
  · rename_i hbase
    exact .baseFailed hinputs hlen hbase
  rename_i hbase
  rw [Bool.not_eq_true] at hbase
  by_cases hfault : req.faults.output = true
  · rw [if_pos hfault]
    exact .outputFailed _ hinputs hlen hbase (.inl hfault)
  · rw [if_neg hfault]
    split
    · rename_i e houtput
      exact .outputFailed e hinputs hlen hbase (.inr houtput)
    · rename_i answer houtput
      exact .answered hinputs hlen hbase (Bool.not_eq_true _ ▸ hfault) houtput

/-- The request rewinds the stored session. -/
def Rewinds (p : Payload τ η) (sess : Session κ) (start : Int) : Prop :=
  p.rewind = true ∧ start < sess.length

instance (p : Payload τ η) (sess : Session κ) (start : Int) : Decidable (Rewinds p sess start) :=
  inferInstanceAs (Decidable (_ ∧ _))

/-- The cases of `handle`. -/
inductive Handled (now : Instant) (s : Sessions κ) (req : Request τ η) :
    Result τ η ℓ × Sessions κ → Prop where
  | refused (e : Exc) : Handled now s req (.error e, s)
  | closed (hclose : req.payload.close = true) :
      Handled now s req (.ok .closed, s.erase req.payload.sessionId)
  | missed {start : Int} (cached : Int) (hstart : req.payload.startPos = some start)
      (hne : start ≠ 0)
      (h : ∀ sess, s.lookup req.payload.sessionId = some sess →
        sess.length ≠ start ∧ ¬Rewinds req.payload sess start) :
      Handled now s req (.ok (.cacheMiss cached), s)
  | fresh (hclose : req.payload.close = false) (hstart : req.payload.startPos = some 0) :
      Handled now s req (advance cfg M now s req 0 M.freshCache)
  | cropFailed {sess : Session κ} {start : Int} {k : Nat}
      (hclose : req.payload.close = false)
      (hsess : s.lookup req.payload.sessionId = some sess)
      (hstart : req.payload.startPos = some start) (hne : start ≠ 0)
      (hrewinds : Rewinds req.payload sess start) (hcrop : req.faults.crop = some k) :
      Handled now s req (.error (.model .crop), s.modify req.payload.sessionId fun sess =>
        { sess with cache := sess.cache.cropPart k start })
  | rewound {sess : Session κ} {start : Int}
      (hclose : req.payload.close = false)
      (hsess : s.lookup req.payload.sessionId = some sess)
      (hstart : req.payload.startPos = some start) (hne : start ≠ 0)
      (hrewinds : Rewinds req.payload sess start) (hcrop : req.faults.crop = none) :
      Handled now s req (advance cfg M now (s.modify req.payload.sessionId fun sess =>
        { sess with cache := sess.cache.crop start, length := start }) req start
        (sess.cache.crop start))
  | continued {sess : Session κ} {start : Int}
      (hclose : req.payload.close = false)
      (hsess : s.lookup req.payload.sessionId = some sess)
      (hstart : req.payload.startPos = some start) (hne : start ≠ 0)
      (hlength : sess.length = start) :
      Handled now s req (advance cfg M now s req start sess.cache)

theorem handle_handled (now : Instant) (s : Sessions κ) (req : Request τ η) :
    Handled cfg M now s req (handle cfg M now s req) := by
  unfold handle
  dsimp only
  split
  · exact .refused _
  split
  · rename_i hclose
    exact .closed hclose
  rename_i hclose
  rw [Bool.not_eq_true] at hclose
  cases hstart : req.payload.startPos with
  | none => exact .refused _
  | some start =>
      dsimp only
      by_cases hzero : start = 0
      · rw [if_pos hzero]
        exact .fresh hclose (hzero ▸ hstart)
      · rw [if_neg hzero]
        cases hsess : s.lookup req.payload.sessionId with
        | none => exact .missed 0 hstart hzero fun sess h => nomatch hsess.symm.trans h
        | some sess =>
            dsimp only
            by_cases hrewinds : req.payload.rewind = true ∧ start < sess.length
            · rw [if_pos hrewinds]
              cases hcrop : req.faults.crop with
              | some k => exact .cropFailed hclose hsess hstart hzero hrewinds hcrop
              | none => exact .rewound hclose hsess hstart hzero hrewinds hcrop
            · rw [if_neg hrewinds]
              by_cases hlength : sess.length = start
              · rw [if_neg (not_not_intro hlength)]
                exact .continued hclose hsess hstart hzero hlength
              · rw [if_pos hlength]
                refine .missed _ hstart hzero fun sess' h => ?_
                cases hsess.symm.trans h
                exact ⟨hlength, hrewinds⟩

/-! ### Eviction -/

theorem lookup_of_evict {id : String} {sess : Session κ}
    (h : (evict cfg now s).lookup id = some sess) : s.lookup id = some sess :=
  (AList.lookup_retain_eq_some.mp (AList.lookup_of_keepFirst h)).1

/-! ### Other sessions -/

variable {cfg}

theorem advance_other {req : Request τ η} {start : Int} {cache : Cache κ} {id : String}
    (hid : id ≠ req.payload.sessionId) {sess : Session κ}
    (h : (advance cfg M now s req start cache).2.lookup id = some sess) :
    s.lookup id = some sess := by
  have hadvanced := advance_advanced cfg M now s req start cache
  generalize advance cfg M now s req start cache = outcome at hadvanced h
  cases hadvanced with
  | refused e _ => exact h
  | baseFailed hinputs hlen hbase =>
      rwa [AList.lookup_erase_ne hid] at h
  | outputFailed e hinputs hlen hbase hfault =>
      dsimp only at h
      split at h
      · exact h
      · rwa [AList.lookup_modify_ne hid] at h
  | answered hinputs hlen hbase hfault houtput =>
      have h := lookup_of_evict cfg h
      rwa [AList.lookup_insert_ne hid] at h

/-- A request never brings another session into the table, nor changes one. -/
theorem handle_other {req : Request τ η} {id : String} (hid : id ≠ req.payload.sessionId)
    {sess : Session κ} (h : (handle cfg M now s req).2.lookup id = some sess) :
    s.lookup id = some sess := by
  have hhandled := handle_handled cfg M now s req
  generalize handle cfg M now s req = outcome at hhandled h
  cases hhandled with
  | refused e => exact h
  | closed hclose => rwa [AList.lookup_erase_ne hid] at h
  | missed cached hstart hne _ => exact h
  | fresh hclose hstart => exact advance_other M hid h
  | cropFailed hclose hsess hstart hne hrewinds hcrop => rwa [AList.lookup_modify_ne hid] at h
  | rewound hclose hsess hstart hne hrewinds hcrop =>
      have h := advance_other M hid h
      rwa [AList.lookup_modify_ne hid] at h
  | continued hclose hsess hstart hne hlength => exact advance_other M hid h

/-! ### Batches -/

theorem Entry.eq_tensor_of_shape {α : Type} {entry : Entry α} {shape : List Nat}
    (h : entry.shape = .ok (some shape)) : ∃ t, entry = .tensor t ∧ t.shape = shape := by
  cases entry with
  | tensor t => exact ⟨t, rfl, Option.some.inj (Except.ok.inj h)⟩
  | missing => cases h
  | none => cases h
  | other => cases h

theorem inputs_of_shape {p : Payload τ η} {shape : List Nat}
    (h : (if cfg.isFirst then p.inputIds.shape else p.hiddenStates.shape) = .ok (some shape)) :
    ∃ new, inputs cfg p = .ok new ∧ new.shape = shape := by
  unfold inputs
  split at h
  · rename_i hfirst
    obtain ⟨t, ht, hshape⟩ := Entry.eq_tensor_of_shape h
    exact ⟨.inputIds t, by rw [if_pos hfirst, ht]; rfl, hshape⟩
  · rename_i hfirst
    obtain ⟨t, ht, hshape⟩ := Entry.eq_tensor_of_shape h
    exact ⟨.inputsEmbeds t, by rw [if_neg hfirst, ht]; rfl, hshape⟩

/-- A batched request has one row with one new position to add to a stored session that ends where
it starts. -/
theorem batchable_spec {p : Payload τ η} (h : batchable cfg s p = .ok true) :
    p.close = false ∧
      (∃ new, inputs cfg p = .ok new ∧ new.rows = some 1 ∧ new.seqLen = some 1) ∧
      ∃ sess start, s.lookup p.sessionId = some sess ∧ p.startPos = some start ∧ start ≠ 0 ∧
        sess.length = start := by
  unfold batchable at h
  cases hclose : p.close with
  | true =>
      rw [hclose] at h
      cases h
  | false =>
      rw [hclose, if_neg Bool.false_ne_true] at h
      cases hstart : p.startPos with
      | none =>
          rw [hstart] at h
          cases h
      | some start =>
          cases hsess : s.lookup p.sessionId with
          | none =>
              rw [hstart, hsess] at h
              cases h
          | some sess =>
              rw [hstart, hsess] at h
              dsimp only at h
              split at h
              · cases h
              rename_i hcond
              obtain ⟨hzero, hlength⟩ := not_or.mp hcond
              refine ⟨rfl, ?_, sess, start, rfl, rfl, hzero, not_not.mp hlength⟩
              split at h
              · cases h
              · rename_i hshape
                obtain ⟨new, hnew, hnewShape⟩ := inputs_of_shape hshape
                exact ⟨new, hnew, by rw [Inputs.rows, hnewShape]; rfl,
                  by rw [Inputs.seqLen, hnewShape]; rfl⟩
              · cases h

/-- The selection keeps the requests in order and marks only batchable ones, once a session. -/
theorem selectBatch_spec {reqs : List (Request τ η)} {chosen : List (Request τ η × Bool)}
    (h : selectBatch cfg s reqs = .ok chosen) :
    chosen.map Prod.fst = reqs ∧ ∀ pair ∈ chosen, pair.2 = true →
      batchable cfg s pair.1.payload = .ok true ∧
      (reqs.map fun req => req.payload.sessionId).count pair.1.payload.sessionId = 1 := by
  unfold selectBatch at h
  dsimp only at h
  set pick : Request τ η → Except Exc Bool := fun req =>
    if (reqs.map fun req => req.payload.sessionId).count req.payload.sessionId = 1 then
      batchable cfg s req.payload else .ok false with hpick
  cases hmap : reqs.mapM pick with
  | error e =>
      rw [hmap] at h
      cases h
  | ok flags =>
      rw [hmap] at h
      have hflags := forall₂_of_mapM hmap
      have hlen := hflags.length_eq
      obtain rfl := Except.ok.inj h
      constructor
      · rw [List.map_fst_zip]
        split
        · rw [List.length_map, hlen]
        · rw [hlen]
      · intro pair hpair htrue
        split at hpair
        · obtain ⟨_, _, hfalse⟩ := List.mem_map.mp (List.of_mem_zip hpair).2
          rw [← hfalse] at htrue
          cases htrue
        · obtain ⟨req, flag⟩ := pair
          obtain rfl : flag = true := htrue
          have hok : pick req = .ok true := List.forall₂_zip hflags hpair
          simp only [hpick] at hok
          split at hok
          · rename_i hone
            exact ⟨hok, hone⟩
          · cases hok

theorem batchSessions_spec {ps : List (Payload τ η)} {sessions : List (Session κ)} :
    batchSessions s ps = .ok sessions ↔
      List.Forall₂ (fun p sess => s.lookup p.sessionId = some sess) ps sessions := by
  induction ps generalizing sessions with
  | nil =>
      rw [List.forall₂_nil_left_iff]
      exact ⟨fun h => (Except.ok.inj h).symm, fun h => by rw [h]; rfl⟩
  | cons p rest ih =>
      rw [batchSessions]
      cases hsess : s.lookup p.sessionId with
      | none =>
          refine ⟨nofun, fun h => ?_⟩
          obtain ⟨_, _, hp, _, _⟩ := List.forall₂_cons_left_iff.mp h
          cases hsess.symm.trans hp
      | some sess =>
          dsimp only
          constructor
          · intro h
            cases hrest : batchSessions s rest with
            | error e =>
                rw [hrest] at h
                cases h
            | ok found =>
                rw [hrest] at h
                cases h
                exact .cons hsess (ih.mp hrest)
          · intro h
            obtain ⟨sess', found, hp, hrest, rfl⟩ := List.forall₂_cons_left_iff.mp h
            cases hsess.symm.trans hp
            rw [ih.mpr hrest]
            rfl

/-- A batched pass that returns has found every session and has had an input for each. -/
theorem decodeBatch_spec {ps : List (Payload τ η)} {fault : Bool}
    {answers : List (Response τ η ℓ)} {s' : Sessions κ}
    (h : decodeBatch cfg M now s ps fault = .ok (answers, s')) :
    ∃ sessions news, List.Forall₂ (fun p sess => s.lookup p.sessionId = some sess) ps sessions ∧
      List.Forall₂ (fun p new => inputs cfg p = .ok new) ps news ∧
      let rows := M.baseRows
        ((news.zip sessions).map fun (new, sess) => (new, sess.length, sess.cache))
      List.Forall₂ (fun (pair : Payload τ η × Tensor η × List (List κ)) answer =>
        output cfg M pair.1 pair.2.1 = .ok answer) (ps.zip rows) answers ∧
      s' = evict cfg now (storeBatch now ((ps.zip (sessions.zip rows)).map
        fun (p, sess, _, columns) => (p, sess, columns)) s) := by
  unfold decodeBatch at h
  cases hsessions : batchSessions s ps with
  | error e =>
      rw [hsessions] at h
      cases h
  | ok sessions =>
      cases hnews : ps.mapM (inputs cfg) with
      | error e =>
          rw [hsessions, hnews] at h
          cases h
      | ok news =>
          rw [hsessions, hnews] at h
          cases fault with
          | true => cases h
          | false =>
              dsimp only [bind, Except.bind, pure, Except.pure] at h
              rw [if_neg Bool.false_ne_true] at h
              split at h
              · cases h
              · rename_i answers' hanswers
                obtain ⟨rfl, rfl⟩ := Prod.mk.inj (Except.ok.inj h)
                exact ⟨sessions, news, batchSessions_spec.mp hsessions, forall₂_of_mapM hnews,
                  forall₂_of_mapM hanswers, rfl⟩

end Distllm.Stage
