import Distllm.Recency
import Distllm.StageBatch

/-! Which sessions a stage forgets. A table is kept with the most recently used session first, so a
session goes only when it is closed, when it has been idle for too long, when the model fails on it,
or when as many others have been used since as the stage may hold. -/

namespace Distllm.Stage

variable {τ η ℓ κ : Type} {cfg : Config} (M : Model τ η ℓ κ) {now : Instant} {s : Sessions κ}
  {used : List String} {id : String} {sess : Session κ}

/-- The sessions that the requests of a call name. -/
def Call.sessionIds : Call τ η → List String
  | .handle _ req => [req.payload.sessionId]
  | .handleBatch _ reqs _ => reqs.map fun req => req.payload.sessionId
  | .dropSessions => []

/-- The call is about other sessions, and comes before the session has been idle for too long. -/
def Call.Spares (cfg : Config) (id : String) (lastUsed : Instant) : Call τ η → Prop
  | .handle now req => req.payload.sessionId ≠ id ∧ now - lastUsed ≤ cfg.sessionTtl
  | .handleBatch now reqs _ =>
    (∀ req ∈ reqs, req.payload.sessionId ≠ id) ∧ now - lastUsed ≤ cfg.sessionTtl
  | .dropSessions => False

instance (cfg : Config) (id : String) (lastUsed : Instant) (call : Call τ η) :
    Decidable (call.Spares cfg id lastUsed) :=
  match call with
  | .handle _ _ => inferInstanceAs (Decidable (_ ∧ _))
  | .handleBatch _ _ _ => inferInstanceAs (Decidable (_ ∧ _))
  | .dropSessions => inferInstanceAs (Decidable False)

/-! ### One call -/

section Call

variable (hroom : used.dedup.length < cfg.maxSessions)
  (hfresh : now - sess.lastUsed ≤ cfg.sessionTtl)

include hroom hfresh

theorem evict_behind (h : s.Behind used id sess) : (evict cfg now s).Behind used id sess := by
  have hkept : (!decide (now - sess.lastUsed > cfg.sessionTtl)) = true := by
    rw [decide_eq_false (Int.not_lt.mpr hfresh), Bool.not_false]
  exact AList.Behind.keepFirst (AList.Behind.retain h hkept) hroom

theorem advance_behind {req : Request τ η} (h : s.Behind used id sess)
    (hused : req.payload.sessionId ∈ used) (hid : req.payload.sessionId ≠ id) (start : Int)
    (cache : Cache κ) : (advance cfg M now s req start cache).2.Behind used id sess := by
  have hadvanced := advance_advanced cfg M now s req start cache
  generalize advance cfg M now s req start cache = outcome at hadvanced ⊢
  cases hadvanced with
  | refused e _ => exact h
  | baseFailed hinputs hlen hbase => exact h.erase hid
  | outputFailed e hinputs hlen hbase hfault =>
      dsimp only
      split
      · exact h
      · exact h.modify hid _
  | answered hinputs hlen hbase hfault houtput =>
      refine evict_behind hroom hfresh ((h.insert hid _).mono fun x hx => ?_)
      rcases List.mem_cons.mp hx with rfl | hx
      · exact hused
      · exact hx

theorem handle_behind {req : Request τ η} (h : s.Behind used id sess)
    (hused : req.payload.sessionId ∈ used) (hid : req.payload.sessionId ≠ id) :
    (handle cfg M now s req).2.Behind used id sess := by
  have hhandled := handle_handled cfg M now s req
  generalize handle cfg M now s req = outcome at hhandled ⊢
  cases hhandled with
  | refused e => exact h
  | closed hclose => exact h.erase hid
  | missed cached hstart hne _ => exact h
  | fresh hclose hstart => exact advance_behind M hroom hfresh h hused hid _ _
  | cropFailed hclose hsess hstart hne hrewinds hcrop => exact h.modify hid _
  | rewound hclose hsess hstart hne hrewinds hcrop =>
      exact advance_behind M hroom hfresh (h.modify hid _) hused hid _ _
  | continued hclose hsess hstart hne hlength =>
      exact advance_behind M hroom hfresh h hused hid _ _

theorem handleOthers_behind {chosen : List (Request τ η × Bool)} (h : s.Behind used id sess)
    (hused : ∀ pair ∈ chosen, pair.1.payload.sessionId ∈ used ∧ pair.1.payload.sessionId ≠ id) :
    (handleOthers cfg M now chosen s).2.Behind used id sess := by
  induction chosen generalizing s with
  | nil => exact h
  | cons pair rest ih =>
      have hrest := fun pair hpair => hused pair (List.mem_cons_of_mem _ hpair)
      obtain ⟨req, inBatch⟩ := pair
      cases inBatch with
      | true => exact ih h hrest
      | false =>
          obtain ⟨hmem, hne⟩ := hused _ List.mem_cons_self
          exact ih (handle_behind M hroom hfresh h hmem hne) hrest

omit hroom hfresh in
theorem storeBatch_behind {steps : List (Payload τ η × Session κ × List (List κ))}
    (h : s.Behind used id sess)
    (hused : ∀ step ∈ steps, step.1.sessionId ∈ used ∧ step.1.sessionId ≠ id) :
    (storeBatch now steps s).Behind used id sess := by
  induction steps generalizing s with
  | nil => exact h
  | cons step rest ih =>
      obtain ⟨hmem, hne⟩ := hused step List.mem_cons_self
      refine ih ((h.insert hne _).mono fun x hx => ?_)
        fun step hstep => hused step (List.mem_cons_of_mem _ hstep)
      rcases List.mem_cons.mp hx with rfl | hx
      · exact hmem
      · exact hx

omit hroom hfresh in
theorem dropBatch_behind {ps : List (Payload τ η)} (h : s.Behind used id sess)
    (hne : ∀ p ∈ ps, p.sessionId ≠ id) : (dropBatch ps s).Behind used id sess := by
  induction ps generalizing s with
  | nil => exact h
  | cons p rest ih =>
      exact ih (h.erase (hne p List.mem_cons_self)) fun p hp => hne p (List.mem_cons_of_mem _ hp)

theorem handleBatch_behind {reqs : List (Request τ η)} (h : s.Behind used id sess)
    (hused : ∀ req ∈ reqs, req.payload.sessionId ∈ used ∧ req.payload.sessionId ≠ id)
    (batchFault : Bool) : (handleBatch cfg M now s reqs batchFault).2.Behind used id sess := by
  unfold handleBatch
  cases hselect : selectBatch cfg s reqs with
  | error e => exact h
  | ok chosen =>
      obtain ⟨hreqs, -⟩ := selectBatch_spec hselect
      have hchosen : ∀ pair ∈ chosen,
          pair.1.payload.sessionId ∈ used ∧ pair.1.payload.sessionId ≠ id :=
        fun pair hpair => hused _ (hreqs ▸ List.mem_map_of_mem hpair)
      have hothers := handleOthers_behind M hroom hfresh h hchosen
      have hbatch : ∀ p ∈ (chosen.filter Prod.snd).map fun pair => pair.1.payload,
          p.sessionId ∈ used ∧ p.sessionId ≠ id := by
        intro p hp
        obtain ⟨pair, hpair, rfl⟩ := List.mem_map.mp hp
        exact hchosen pair (List.mem_filter.mp hpair).1
      dsimp only
      generalize handleOthers cfg M now chosen s = outcome at hothers ⊢
      obtain ⟨results, t⟩ := outcome
      dsimp only at hothers ⊢
      split
      · exact hothers
      · split
        · rename_i answers s' hdecode
          obtain ⟨sessions, news, _, _, _, rfl⟩ := decodeBatch_spec M hdecode
          refine evict_behind hroom hfresh (storeBatch_behind hothers fun step hstep => ?_)
          obtain ⟨pair, hpair, rfl⟩ := List.mem_map.mp hstep
          exact hbatch _ (List.of_mem_zip hpair).1
        · exact dropBatch_behind hothers fun p hp => (hbatch p hp).2

end Call

/-! ### Runs -/

theorem exec_behind {call : Call τ η} (hspares : call.Spares cfg id sess.lastUsed)
    (hroom : used.dedup.length < cfg.maxSessions) (hused : ∀ x ∈ call.sessionIds, x ∈ used)
    (h : s.Behind used id sess) : (exec cfg M s call).Behind used id sess := by
  cases call with
  | handle now req =>
      exact handle_behind M hroom hspares.2 h (hused _ List.mem_cons_self) hspares.1
  | handleBatch now reqs batchFault =>
      refine handleBatch_behind M hroom hspares.2 h (fun req hreq => ⟨?_, hspares.1 req hreq⟩) _
      exact hused _ (List.mem_map_of_mem hreq)
  | dropSessions => exact hspares.elim

theorem advance_ne_cacheMiss (s : Sessions κ) (req : Request τ η) (start cached : Int)
    (cache : Cache κ) : (advance cfg M now s req start cache).1 ≠ .ok (.cacheMiss cached) := by
  have hadvanced := advance_advanced cfg M now s req start cache
  generalize advance cfg M now s req start cache = outcome at hadvanced ⊢
  cases hadvanced with
  | refused e _ => exact nofun
  | baseFailed hinputs hlen hbase => exact nofun
  | outputFailed e hinputs hlen hbase hfault => exact nofun
  | answered hinputs hlen hbase hfault houtput =>
      intro h
      cases h
      unfold output at houtput
      split at houtput
      · split at houtput
        · cases houtput
        · cases houtput
      · split at houtput
        · split at houtput
          · cases houtput
          · cases houtput
        · cases houtput

/-- A step at the end of the stored cache finds it. -/
theorem handle_ne_cacheMiss {req : Request τ η}
    (hsess : s.lookup req.payload.sessionId = some sess)
    (hstart : req.payload.startPos = some sess.length) (cached : Int) :
    (handle cfg M now s req).1 ≠ .ok (.cacheMiss cached) := by
  have hhandled := handle_handled cfg M now s req
  generalize handle cfg M now s req = outcome at hhandled ⊢
  cases hhandled with
  | refused e => exact nofun
  | closed hclose => exact nofun
  | missed cached hstart' hne hmiss =>
      cases hstart.symm.trans hstart'
      exact absurd rfl (hmiss sess hsess).1
  | fresh hclose hstart => exact advance_ne_cacheMiss M _ _ _ _ _
  | cropFailed hclose hsess hstart hne hrewinds hcrop => exact nofun
  | rewound hclose hsess hstart hne hrewinds hcrop => exact advance_ne_cacheMiss M _ _ _ _ _
  | continued hclose hsess hstart hne hlength => exact advance_ne_cacheMiss M _ _ _ _ _

/-- A step that a model pass has answered makes its session the first one. -/
theorem advance_first {req : Request τ η} {start : Int} {cache : Cache κ} {answer : Response τ η ℓ}
    (hmax : 0 < cfg.maxSessions) (httl : 0 ≤ cfg.sessionTtl)
    (hanswer : (advance cfg M now s req start cache).1 = .ok answer) :
    ∃ sess, sess.lastUsed = now ∧
      (advance cfg M now s req start cache).2.Behind [] req.payload.sessionId sess := by
  have hadvanced := advance_advanced cfg M now s req start cache
  generalize advance cfg M now s req start cache = outcome at hadvanced hanswer ⊢
  cases hadvanced with
  | refused e _ => cases hanswer
  | baseFailed hinputs hlen hbase => cases hanswer
  | outputFailed e hinputs hlen hbase hfault => cases hanswer
  | @answered new n _ hinputs hlen hbase hfault houtput =>
      refine ⟨⟨M.after new start cache, start + n, now⟩, rfl, ?_⟩
      refine evict_behind hmax ?_ (AList.Behind.insert_self _ _ s)
      dsimp only
      rw [Int.sub_self]
      exact httl

theorem handle_first {req : Request τ η} {answer : Response τ η ℓ} (hmax : 0 < cfg.maxSessions)
    (httl : 0 ≤ cfg.sessionTtl) (hanswer : (handle cfg M now s req).1 = .ok answer)
    (hopen : answer ≠ .closed) (hfound : ∀ cached, answer ≠ .cacheMiss cached) :
    ∃ sess, sess.lastUsed = now ∧
      (handle cfg M now s req).2.Behind [] req.payload.sessionId sess := by
  have hhandled := handle_handled cfg M now s req
  generalize handle cfg M now s req = outcome at hhandled hanswer ⊢
  cases hhandled with
  | refused e => cases hanswer
  | closed hclose =>
      cases hanswer
      exact absurd rfl hopen
  | missed cached hstart hne _ =>
      cases hanswer
      exact absurd rfl (hfound cached)
  | fresh hclose hstart => exact advance_first M hmax httl hanswer
  | cropFailed hclose hsess hstart hne hrewinds hcrop => cases hanswer
  | rewound hclose hsess hstart hne hrewinds hcrop => exact advance_first M hmax httl hanswer
  | continued hclose hsess hstart hne hlength => exact advance_first M hmax httl hanswer

variable {s' : Sessions κ} {calls : List (Call τ η)}

theorem run_behind (hrun : Run (fun s call s' => s' = exec cfg M s call) s calls s')
    (h : s.Behind used id sess) (hspares : ∀ call ∈ calls, call.Spares cfg id sess.lastUsed)
    (hroom : (used ++ calls.flatMap Call.sessionIds).dedup.length < cfg.maxSessions) :
    s'.Behind (used ++ calls.flatMap Call.sessionIds) id sess := by
  set named := used ++ calls.flatMap Call.sessionIds with hnamed
  have hbehind : (∀ call ∈ calls, call.Spares cfg id sess.lastUsed ∧
      ∀ x ∈ call.sessionIds, x ∈ named) → s'.Behind named id sess := by
    refine hrun.invariant_labels (P := fun labels t =>
      (∀ call ∈ labels, call.Spares cfg id sess.lastUsed ∧ ∀ x ∈ call.sessionIds, x ∈ named) →
        t.Behind named id sess) (fun {labels s call t} hstep hs hlabels => ?_) fun _ => ?_
    · obtain ⟨hcall, hids⟩ := hlabels call (by simp)
      rw [hstep]
      exact exec_behind M hcall hroom hids (hs fun call hmem =>
        hlabels call (List.mem_append_left _ hmem))
    · exact h.mono fun x hx => List.mem_append_left _ hx
  refine hbehind fun call hcall => ⟨hspares call hcall, fun x hx => ?_⟩
  exact List.mem_append_right _ (List.mem_flatMap_of_mem hcall hx)

/-- A stored session stays as it is, and its next step finds it, as long as the sessions used since
are fewer than the stage may hold: those before it in the table and those that the calls name. -/
theorem recent_session_kept (hrun : Run (fun s call s' => s' = exec cfg M s call) s calls s')
    (hsess : s.lookup id = some sess) (hspares : ∀ call ∈ calls, call.Spares cfg id sess.lastUsed)
    (hroom : ((s.keys.takeWhile fun x => !decide (x = id)) ++
      calls.flatMap Call.sessionIds).dedup.length < cfg.maxSessions) :
    s'.lookup id = some sess ∧ ∀ now (req : Request τ η) cached, req.payload.sessionId = id →
      req.payload.startPos = some sess.length →
      (handle cfg M now s' req).1 ≠ .ok (.cacheMiss cached) := by
  have hkept := (run_behind M hrun (.of_lookup hsess) hspares hroom).lookup
  refine ⟨hkept, fun now req cached hid hstart => ?_⟩
  exact handle_ne_cacheMiss M (hid.symm ▸ hkept) hstart cached

/-- After an answered step its session is kept through any calls that name fewer other sessions than
the stage may hold. -/
theorem answered_session_kept {req : Request τ η} {answer : Response τ η ℓ}
    (hanswer : (handle cfg M now s req).1 = .ok answer) (hopen : answer ≠ .closed)
    (hfound : ∀ cached, answer ≠ .cacheMiss cached) (httl : 0 ≤ cfg.sessionTtl)
    (hrun : Run (fun s call s' => s' = exec cfg M s call) (handle cfg M now s req).2 calls s')
    (hspares : ∀ call ∈ calls, call.Spares cfg req.payload.sessionId now)
    (hroom : (calls.flatMap Call.sessionIds).dedup.length < cfg.maxSessions) :
    ∃ sess, sess.lastUsed = now ∧ s'.lookup req.payload.sessionId = some sess ∧
      (handle cfg M now s req).2.lookup req.payload.sessionId = some sess := by
  obtain ⟨sess, rfl, hfirst⟩ :=
    handle_first M (Nat.zero_lt_of_lt hroom) httl hanswer hopen hfound
  exact ⟨sess, rfl, (run_behind M hrun hfirst hspares hroom).lookup, hfirst.lookup⟩

/-- Two other sessions come and go while one waits. -/
def busyCalls : List (Call Nat Nat) :=
  [.handle 1 (tokensOf "b" 0 [4]), .handleBatch 2 [tokensOf "b" 1 [5], tokensOf "c" 0 [6]] false]

theorem recent_session_kept_busy :
    let s := exec firstStage prefixSum ∅ (.handle 0 (tokensOf "a" 0 [1, 2, 3]))
    (busyCalls.foldl (exec firstStage prefixSum) s).lookup "a" =
      some ⟨[⟨true, true, [1, 2, 3]⟩], 3, 0⟩ := by
  have hspares : ∀ call ∈ busyCalls, call.Spares firstStage "a" 0 := by decide
  exact (recent_session_kept prefixSum (Run.foldl _ _ busyCalls) (by decide) hspares
    (by decide)).1

end Distllm.Stage
