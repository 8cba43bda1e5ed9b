import Mathlib.Data.Nat.Count
import Distllm.PipelineExact
import Distllm.StageRecency

/-! A generation gets to its end. A prompt is never a cache miss, so once a step has missed the
cache it is given up only when each of its recoveries loses two requests. As long as fewer requests
are lost in any stretch of calls of the length of a step, the generation gives all of its tokens,
whatever happens to the caches. -/

namespace Distllm.Pipeline

open Stage Decoding

variable {τ η ℓ κ ρ σ : Type}

def Fate.isLost : Fate → Bool
  | lostBefore | lostAfter => true
  | answered | failed => false

/-- How many of the first `n` calls are lost. -/
def losses (sched : Schedule τ η ρ) (n : Nat) : Nat :=
  Nat.count (fun k => (sched k).fate.isLost = true) n

theorem losses_mono (sched : Schedule τ η ρ) {n m : Nat} (h : n ≤ m) :
    losses sched n ≤ losses sched m :=
  Nat.count_monotone _ h

theorem losses_lt {sched : Schedule τ η ρ} {n m : Nat} (hlost : (sched n).fate.isLost = true)
    (h : n < m) : losses sched n < losses sched m :=
  Nat.count_strict_mono hlost h

/-- No call fails outright, and in any stretch of as many calls as a step may make, fewer are lost
than its recoveries can make up for. -/
structure Reliable (P : Deployment τ η ℓ κ ρ) (maxRecoveries : Nat) (sched : Schedule τ η ρ) :
    Prop where
  notFailed : ∀ n, (sched n).fate ≠ .failed
  fewLost : ∀ n, losses sched (n + 2 * P.size * (maxRecoveries + 1)) <
    losses sched n + 2 * maxRecoveries

variable [DecidableEq ρ] {P : Deployment τ η ℓ κ ρ} {L : Lawful P} {sessionId : String}
  {sched : Schedule τ η ρ} {w : World τ η ℓ κ ρ} {hist : History τ} {i : Nat} {hi : i < P.size}
  {p : Payload τ η} {ys : List τ} {start a : Nat}

/-! ### Calls -/

theorem act_calls (w : World τ η ℓ κ ρ) (a : Act τ η ρ) : (act P sessionId w a).calls = w.calls := by
  cases a with
  | drop i r => rfl
  | lose i r => rfl
  | other i r now req =>
      rw [act]
      split
      · rfl
      · rfl
  | again n r now =>
      rw [act]
      split
      · rfl
      · rfl

theorem ready_calls (i : Nat) (p : Payload τ η) (w : World τ η ℓ κ ρ) :
    (ready P sessionId sched i p w).calls = w.calls + 1 := by
  have hacts : ∀ (acts : List (Act τ η ρ)) (v : World τ η ℓ κ ρ),
      (acts.foldl (act P sessionId) v).calls = v.calls := by
    intro acts
    induction acts with
    | nil => exact fun v => rfl
    | cons a rest ih => exact fun v => (ih _).trans (act_calls v a)
  exact hacts _ _

theorem call_calls (i : Nat) (p : Payload τ η) (w : World τ η ℓ κ ρ) :
    (call P sessionId sched i p w).2.calls = w.calls + 1 := by
  rcases call_cases P sessionId sched i p w with ⟨reply, _, h⟩ | ⟨r, now, reply, h, _⟩
  · rw [h]
    exact ready_calls i p w
  · rw [h]
    exact ready_calls i p w

/-- When a request is sent, the caches are those of its session. -/
theorem ready_kept (hid : sessionId ≠ "") (hcompat : Compatible (fun _ _ => True) hist)
    (hk : Kept sessionId L hist w) (hhist : hist[w.round]? = some (ys, start))
    (ha : a = 0 ∨ a = start) (hp : L.Carries sessionId i hi p ys a) :
    Kept sessionId L hist (ready P sessionId sched i p w) := by
  have hsent : Kept sessionId L hist
      { w with calls := w.calls + 1, log := w.log ++ [⟨i, p, w.round⟩] } := by
    refine ⟨hk.tables, fun sent hsent => ?_, hk.trace⟩
    rcases List.mem_append.mp hsent with hsent | hsent
    · exact hk.log sent hsent
    · obtain rfl := List.mem_singleton.mp hsent
      exact ⟨hi, ys, start, a, hhist, ha, hp⟩
  exact acts_kept hid hcompat hsent _ fun _ _ _ _ _ _ _ _ => trivial

/-- The start of a session is no cache miss. -/
theorem execute_start {sent : Sent τ η} {r : ρ} {now : Instant} (hstart : sent.payload.startPos = some 0)
    (cached : Int) : (execute P sent r now w).1 ≠ .ok (.cacheMiss cached) := by
  have hhandled := handle_handled (P.config sent.role r) (P.model sent.role) now
    (w.tables sent.role r) ⟨sent.payload, .none⟩
  unfold execute
  dsimp only
  generalize Stage.handle (P.config sent.role r) (P.model sent.role) now (w.tables sent.role r)
    ⟨sent.payload, .none⟩ = outcome at hhandled ⊢
  cases hhandled with
  | refused e => exact nofun
  | closed hclose => exact nofun
  | missed cached' hstart' hne hmiss =>
      cases hstart.symm.trans hstart'
      exact absurd rfl hne
  | fresh hclose hstart' => exact advance_ne_cacheMiss _ _ _ _ _ _
  | cropFailed hclose hsess hstart' hne hrewinds hcrop => exact nofun
  | rewound hclose hsess hstart' hne hrewinds hcrop => exact advance_ne_cacheMiss _ _ _ _ _ _
  | continued hclose hsess hstart' hne hlength => exact advance_ne_cacheMiss _ _ _ _ _ _

/-- What a request brings that went off with call `n`: it was lost, or the cache was missed after
the start, or it was answered. -/
def Gives (sched : Schedule τ η ρ) (n m a : Nat) (answer : Response τ η ℓ) (reply : Reply τ η ℓ) :
    Prop :=
  (reply = .lost ∧ losses sched n < losses sched m) ∨
    (a ≠ 0 ∧ ∃ cached, reply = .answered (.cacheMiss cached)) ∨ reply = .answered answer

theorem call_gives (hid : sessionId ≠ "") (hcompat : Compatible (fun _ _ => True) hist)
    (hfates : ∀ n, (sched n).fate ≠ .failed) (hk : Kept sessionId L hist w)
    (hhist : hist[w.round]? = some (ys, start)) (ha : a = 0 ∨ a = start)
    (hp : L.Carries sessionId i hi p ys a) :
    Gives sched w.calls (w.calls + 1) a (L.answerAt i hi p ys a)
      (call P sessionId sched i p w).1 := by
  have hready : Kept sessionId L hist (ready P sessionId sched i p w) :=
    ready_kept hid hcompat hk hhist ha hp
  have hlost : ∀ fate, fate.isLost = true → (sched w.calls).fate = fate →
      losses sched w.calls < losses sched (w.calls + 1) :=
    fun fate hfate h => losses_lt (h ▸ hfate) (Nat.lt_succ_self _)
  unfold call
  dsimp only
  rw [← ready]
  cases hfate : (sched w.calls).fate with
  | lostBefore => exact .inl ⟨rfl, hlost _ rfl hfate⟩
  | failed => exact absurd hfate (hfates _)
  | lostAfter => exact .inl ⟨rfl, hlost _ rfl hfate⟩
  | answered =>
      set outcome := execute P ⟨i, p, w.round⟩ (sched w.calls).replica (sched w.calls).now
        (ready P sessionId sched i p w) with houtcome
      have hexecuted : (∃ cached, outcome.1 = .ok (.cacheMiss cached)) ∨
          outcome.1 = .ok (L.answerAt i hi p ys a) :=
        (execute_kept hid hcompat hready hhist ha hp fun _ _ _ _ _ _ _ _ => trivial).2
      have hstart : a = 0 → ∀ cached, outcome.1 ≠ .ok (.cacheMiss cached) :=
        fun hzero => execute_start (by rw [hp.starts, hzero]; rfl)
      clear_value outcome
      dsimp only
      obtain ⟨result, w'⟩ := outcome
      rcases hexecuted with ⟨cached, hmiss⟩ | hanswer
      · obtain rfl : result = .ok (.cacheMiss cached) := hmiss
        exact .inr (.inl ⟨fun hzero => hstart hzero cached rfl, cached, rfl⟩)
      · obtain rfl : result = .ok (L.answerAt i hi p ys a) := hanswer
        exact .inr (.inr rfl)

/-- A request went from one world to another through some roles. -/
structure Passed (sched : Schedule τ η ρ) (n a : Nat) (answer : Response τ η ℓ)
    (w w' : World τ η ℓ κ ρ) (reply : Reply τ η ℓ) : Prop where
  later : w.calls ≤ w'.calls
  few : w'.calls ≤ w.calls + n
  gives : Gives sched w.calls w'.calls a answer reply

omit [DecidableEq ρ] in
theorem Gives.mono {n n' m m' : Nat} {answer : Response τ η ℓ} {reply : Reply τ η ℓ}
    (h : Gives sched n m a answer reply) (hn : n' ≤ n) (hm : m ≤ m') :
    Gives sched n' m' a answer reply := by
  rcases h with ⟨hreply, hlosses⟩ | h
  · exact .inl ⟨hreply, (losses_mono sched hn).trans_lt (hlosses.trans_le (losses_mono sched hm))⟩
  · exact .inr h

/-- One hop of a request through the roles; `hrest` speaks about the hops after it. -/
theorem through_passed_hop (hid : sessionId ≠ "") (hcompat : Compatible (fun _ _ => True) hist)
    (hfates : ∀ n, (sched n).fate ≠ .failed) {rest : List Nat} (hk : Kept sessionId L hist w)
    (hhist : hist[w.round]? = some (ys, start)) (ha : a = 0 ∨ a = start)
    (hp : L.Carries sessionId i hi p ys a)
    (hrest : ∀ (hnext : i + 1 < P.size) next w', next.argmax = p.argmax →
      L.Carries sessionId (i + 1) hnext next ys a → Kept sessionId L hist w' → w'.round = w.round →
      Passed sched rest.length a (finalAnswer L p.argmax ys a) w'
        (through P sessionId sched rest next w').2 (through P sessionId sched rest next w').1) :
    Passed sched (rest.length + 1) a (finalAnswer L p.argmax ys a) w
      (through P sessionId sched (i :: rest) p w).2 (through P sessionId sched (i :: rest) p w).1 := by
  have hgives := call_gives hid hcompat hfates hk hhist ha hp
  have hcalls : (call P sessionId sched i p w).2.calls = w.calls + 1 := call_calls i p w
  by_cases hhidden : ∃ next, (call P sessionId sched i p w).1 = .answered (.hidden next)
  · obtain ⟨next, hnext⟩ := hhidden
    have hkept := (call_kept sched hid hcompat hk hhist ha hp fun _ _ _ _ _ _ _ _ => trivial).1
    have hlater : Later w (call P sessionId sched i p w).2 := call_later i p w
    rw [through]
    generalize call P sessionId sched i p w = outcome at hgives hcalls hkept hlater hnext ⊢
    obtain ⟨reply, w'⟩ := outcome
    obtain rfl : reply = .answered (.hidden next) := hnext
    rcases hgives with ⟨h, -⟩ | ⟨-, cached, h⟩ | h
    · cases h
    · cases h
    · obtain ⟨hnext, rfl⟩ := answerAt_hidden (Reply.answered.inj h).symm
      obtain ⟨hle, hfew, hgives⟩ := hrest hnext
        (handOn p (.row L.dims ((L.hidden i hi ys).drop a))) w' rfl (hp.handOn hnext) hkept
        hlater.round
      dsimp only at hcalls ⊢
      exact ⟨by omega, by omega, hgives.mono (by omega) (Nat.le_refl _)⟩
  · rw [through_stops (not_exists.mp hhidden)]
    refine ⟨by omega, by omega, ?_⟩
    rw [hcalls]
    rcases hgives with h | h | h
    · exact .inl h
    · exact .inr (.inl h)
    · by_cases hlast : i + 1 = P.size
      · exact .inr (.inr (h.trans (congrArg _ (answerAt_last hlast))))
      · refine absurd ⟨handOn p (.row L.dims ((L.hidden i hi ys).drop a)), h.trans ?_⟩ hhidden
        unfold Lawful.answerAt
        dsimp only
        rw [if_neg hlast]

/-- From role `i` on, with `k` more roles to follow it. -/
theorem through_passed (hid : sessionId ≠ "") (hcompat : Compatible (fun _ _ => True) hist)
    (hfates : ∀ n, (sched n).fate ≠ .failed) {k : Nat} (hk : Kept sessionId L hist w)
    (hhist : hist[w.round]? = some (ys, start)) (ha : a = 0 ∨ a = start)
    (hsize : i + (k + 1) = P.size) (hp : L.Carries sessionId i hi p ys a) :
    Passed sched (k + 1) a (finalAnswer L p.argmax ys a) w
      (through P sessionId sched (List.range' i (k + 1)) p w).2
      (through P sessionId sched (List.range' i (k + 1)) p w).1 := by
  induction k generalizing i p w with
  | zero =>
      refine @through_passed_hop τ η ℓ κ ρ _ P L sessionId sched w hist i hi p ys start a hid
        hcompat hfates [] hk hhist ha hp fun hnext => ?_
      omega
  | succ k ih =>
      have hhop := @through_passed_hop τ η ℓ κ ρ _ P L sessionId sched w hist i hi p ys start a hid
        hcompat hfates (List.range' (i + 1) (k + 1)) hk hhist ha hp
      rw [List.length_range'] at hhop
      refine hhop fun hnext next w' hargmax hp' hk' hround => ?_
      rw [← hargmax]
      exact ih hk' (by rw [hround]; exact hhist) (by omega) hp'

/-! ### Steps -/

variable {α : Type} {key : Response τ η ℓ → Option α}

/-- What a step or its recoveries bring: no value only after so many losses. -/
structure Brought (sched : Schedule τ η ρ) (n lost : Nat) (w : World τ η ℓ κ ρ)
    (outcome : Outcome α × World τ η ℓ κ ρ) : Prop where
  later : w.calls ≤ outcome.2.calls
  few : outcome.2.calls ≤ w.calls + n
  value : (∃ v, outcome.1 = .value v) ∨
    outcome.1 = .miss ∧ losses sched w.calls + lost ≤ losses sched outcome.2.calls

/-- Attempts that all carry the same slice are missed at its start only if all of them are lost. -/
theorem attempt_brought (hid : sessionId ≠ "") (hcompat : Compatible (fun _ _ => True) hist)
    (hfates : ∀ n, (sched n).fate ≠ .failed) (hk : Kept sessionId L hist w)
    (hhist : hist[w.round]? = some (ys, start)) (ha : a = 0 ∨ a = start) {argmax : Bool}
    (hkey : ∃ v, key (finalAnswer L argmax ys a) = some v) {ps : List (Payload τ η)}
    (hps : ∀ p ∈ ps, L.Carries sessionId 0 P.pos p ys a ∧ p.argmax = argmax) :
    Brought sched (ps.length * P.size) (if a = 0 then ps.length else 0) w
      (attempt P sessionId sched key ps w) := by
  induction ps generalizing w with
  | nil => exact ⟨Nat.le_refl _, Nat.le_add_right _ _, .inr ⟨rfl, by split <;> exact Nat.le_refl _⟩⟩
  | cons p rest ih =>
      obtain ⟨hp, hargmax⟩ := hps p List.mem_cons_self
      have hsize : 0 + (P.size - 1 + 1) = P.size := by
        have hpos := P.pos
        omega
      have hpassed := through_passed hid hcompat hfates hk hhist ha hsize hp
      have hkept := (through_kept sched hid hcompat hk hhist ha hsize hp
        fun _ _ _ _ _ _ _ _ => trivial).1
      have hlater : Later w (through P sessionId sched (List.range P.size) p w).2 :=
        through_later _ p w
      rw [Nat.zero_add] at hsize
      rw [hsize, ← List.range_eq_range'] at hpassed hkept
      rw [hargmax] at hpassed
      rw [attempt, List.length_cons, Nat.succ_mul]
      generalize through P sessionId sched (List.range P.size) p w = outcome
        at hpassed hkept hlater ⊢
      obtain ⟨reply, w'⟩ := outcome
      obtain ⟨hle, hfew, hgives⟩ := hpassed
      dsimp only at hle hfew hgives hkept hlater
      rcases hgives with ⟨rfl, hlosses⟩ | ⟨hne, cached, rfl⟩ | rfl
      · obtain ⟨hle', hfew', hvalue⟩ := ih hkept (by rw [hlater.round]; exact hhist)
          fun p hp => hps p (List.mem_cons_of_mem _ hp)
        dsimp only
        refine ⟨hle.trans hle', by omega, hvalue.imp_right (And.imp_right fun hrest => ?_)⟩
        split at hrest
        · rename_i hzero
          rw [if_pos hzero]
          omega
        · rename_i hzero
          rw [if_neg hzero]
          omega
      · refine ⟨hle, by dsimp only; omega, .inr ⟨rfl, ?_⟩⟩
        rw [if_neg hne]
        exact losses_mono sched hle
      · obtain ⟨v, hv⟩ := hkey
        refine ⟨hle, by dsimp only; omega, .inl ⟨v, ?_⟩⟩
        dsimp only [Pipeline.read]
        rw [hv]
        cases hanswer : finalAnswer L argmax ys a with
        | cacheMiss cached =>
            unfold finalAnswer at hanswer
            dsimp only at hanswer
            split at hanswer
            · cases hanswer
            · cases hanswer
        | closed => rfl
        | hidden next => rfl
        | argmax ids => rfl
        | logits rows => rfl

omit [DecidableEq ρ] in
theorem logitsKey_some (ha : a < ys.length) :
    ∃ row, logitsKey (finalAnswer L false ys a) = some row := by
  have hne : ((L.hidden Lawful.last Lawful.last_lt ys).drop a) ≠ [] := by
    rw [Ne, List.drop_eq_nil_iff, Causal.length_apply]
    exact Nat.not_le.mpr ha
  refine ⟨(P.model (Lawful.last (P := P))).lmHead (List.getLast _ hne), ?_⟩
  unfold finalAnswer
  dsimp only
  rw [if_neg Bool.false_ne_true, List.getLast?_eq_getLast_of_ne_nil hne]
  rfl

theorem forward_kept (hid : sessionId ≠ "") (hprefixes : Prefixes hist ys)
    (hk : Kept sessionId L hist w) (hhist : hist[w.round]? = some (ys, start))
    (ha : a = 0 ∨ a = start) (hlt : a < ys.length) :
    Kept sessionId L hist (forward P sessionId sched a (ys.drop a) w).2 :=
  (step_kept hid hprefixes.compatible hk hhist ha (carries_tokens false false hlt)
    fun _ _ _ _ _ _ _ _ => trivial).1

/-- The last-token logits, unless the cache was missed or both requests were lost. -/
theorem forward_brought (hid : sessionId ≠ "") (hprefixes : Prefixes hist ys)
    (hfates : ∀ n, (sched n).fate ≠ .failed) (hk : Kept sessionId L hist w)
    (hhist : hist[w.round]? = some (ys, start)) (ha : a = 0 ∨ a = start) (hlt : a < ys.length) :
    Brought sched (2 * P.size) (if a = 0 then 2 else 0) w
      (forward P sessionId sched a (ys.drop a) w) := by
  have hboth : ∀ p ∈ [(⟨sessionId, false, some (a : Int), false, false, .tensor (.row [] (ys.drop a)),
      .missing⟩ : Payload τ η), ⟨sessionId, false, some (a : Int), true, false,
      .tensor (.row [] (ys.drop a)), .missing⟩],
      L.Carries sessionId 0 P.pos p ys a ∧ p.argmax = false := by
    intro p hp
    rcases List.mem_cons.mp hp with rfl | hp
    · exact ⟨carries_tokens false false hlt, rfl⟩
    · obtain rfl := List.mem_singleton.mp hp
      exact ⟨carries_tokens true false hlt, rfl⟩
  exact attempt_brought hid hprefixes.compatible hfates hk hhist ha (logitsKey_some hlt) hboth

omit [DecidableEq ρ] in
/-- Runs that each lose two requests or bring a value: with none of them, two requests were lost
for each. -/
theorem recover_brought {again : World τ η ℓ κ ρ → Outcome α × World τ η ℓ κ ρ}
    {Q : World τ η ℓ κ ρ → Prop} {size : Nat}
    (hagain : ∀ w, Q w → Brought sched size 2 w (again w) ∧ Q (again w).2) (n : Nat)
    {first : Outcome α × World τ η ℓ κ ρ} (hQ : Q first.2) (hfirst : first.1 ≠ .failed) :
    (∃ v, (recover again n first).1 = .value v) ∨
      ∃ m ≤ first.2.calls + size * n, losses sched first.2.calls + 2 * n ≤ losses sched m := by
  induction n generalizing first with
  | zero =>
      obtain ⟨outcome, w⟩ := first
      cases outcome with
      | value v => exact .inl ⟨v, rfl⟩
      | miss => exact .inr ⟨w.calls, Nat.le_refl _, Nat.le_refl _⟩
      | failed => exact absurd rfl hfirst
  | succ n ih =>
      obtain ⟨outcome, w⟩ := first
      cases outcome with
      | value v => exact .inl ⟨v, rfl⟩
      | failed => exact absurd rfl hfirst
      | miss =>
          obtain ⟨⟨hle, hfew, hvalue⟩, hQ'⟩ := hagain w hQ
          rcases hvalue with ⟨v, hv⟩ | ⟨hmiss, hlosses⟩
          · left
            rw [recover]
            generalize again w = outcome at hv ⊢
            obtain ⟨outcome, w'⟩ := outcome
            obtain rfl : outcome = .value v := hv
            cases n with
            | zero => exact ⟨v, rfl⟩
            | succ n => exact ⟨v, rfl⟩
          · rcases ih hQ' (by rw [hmiss]; exact nofun) with ⟨v, hv⟩ | ⟨m, hm, hlost⟩
            · exact .inl ⟨v, by rw [recover]; exact hv⟩
            · refine .inr ⟨m, ?_, by dsimp only; omega⟩
              rw [Nat.mul_succ]
              dsimp only
              omega

variable {opts : Options τ ℓ σ}

/-- A step of the loop has its logits in the end. -/
theorem forward_completes (hid : sessionId ≠ "") (hreliable : Reliable P opts.maxRecoveries sched)
    (hk : Kept sessionId L hist w) (hprefixes : Prefixes hist ys)
    (hhist : hist[w.round]? = some (ys, start)) (hstart : start < ys.length) :
    ∃ row, (recover (forward P sessionId sched 0 ys) opts.maxRecoveries
      (forward P sessionId sched start (ys.drop start) w)).1 = .value row := by
  have hpositive : 0 < ys.length := Nat.zero_lt_of_lt hstart
  obtain ⟨hle, hfew, hvalue⟩ :=
    forward_brought hid hprefixes hreliable.notFailed hk hhist (.inr rfl) hstart
  have hkept : Kept sessionId L hist (forward P sessionId sched start (ys.drop start) w).2 :=
    forward_kept hid hprefixes hk hhist (.inr rfl) hstart
  have hagain : ∀ v, (Kept sessionId L hist v ∧ v.round = w.round) →
      Brought sched (2 * P.size) 2 v (forward P sessionId sched 0 ys v) ∧
        Kept sessionId L hist (forward P sessionId sched 0 ys v).2 ∧
        (forward P sessionId sched 0 ys v).2.round = w.round := by
    intro v ⟨hkv, hround⟩
    have hhistv : hist[v.round]? = some (ys, start) := by rw [hround]; exact hhist
    have hbrought := forward_brought hid hprefixes hreliable.notFailed hkv hhistv (.inl rfl) hpositive
    have hstep : Kept sessionId L hist (forward P sessionId sched 0 (ys.drop 0) v).2 :=
      forward_kept hid hprefixes hkv hhistv (.inl rfl) hpositive
    rw [if_pos rfl, List.drop_zero] at hbrought
    rw [List.drop_zero] at hstep
    exact ⟨hbrought, hstep, (step_later _ v).round.trans hround⟩
  have hfirst : (forward P sessionId sched start (ys.drop start) w).1 ≠ .failed := by
    rcases hvalue with ⟨v, hv⟩ | ⟨hmiss, -⟩
    · rw [hv]
      exact nofun
    · rw [hmiss]
      exact nofun
  have hrecovered := recover_brought hagain opts.maxRecoveries ⟨hkept, (step_later _ w).round⟩ hfirst
  rcases hrecovered with hvalue | ⟨m, hm, hlost⟩
  · exact hvalue
  · have hfew' := hreliable.fewLost w.calls
    have hbefore : losses sched w.calls ≤ losses sched
        (forward P sessionId sched start (ys.drop start) w).2.calls := losses_mono sched hle
    have hafter : losses sched m ≤
        losses sched (w.calls + 2 * P.size * (opts.maxRecoveries + 1)) := by
      apply losses_mono
      rw [Nat.mul_succ]
      omega
    omega

theorem generateLoop_completes (hid : sessionId ≠ "")
    (hreliable : Reliable P opts.maxRecoveries sched)
    (haudit : ∀ i sequence row, opts.audit i sequence row ≠ some false) (n i : Nat) {cached : Nat}
    {sequence : List τ} (rng : σ) (acc : GenerationResult τ) (hk : Kept sessionId L hist w)
    (hround : hist.length = w.round + 1) (hprefixes : Prefixes hist sequence)
    (hcached : cached < sequence.length) :
    ∃ result, (generateLoop P sessionId sched opts n i sequence cached rng acc w).1 =
      some result := by
  induction n generalizing i sequence cached rng acc w hist with
  | zero => exact ⟨acc, rfl⟩
  | succ n ih =>
      have hextend := hprefixes.extend (Nat.le_of_lt hcached)
      have hnext : (hist ++ [(sequence, cached)])[w.round + 1]? = some (sequence, cached) := by
        rw [← hround, List.getElem?_concat_length]
      have hkept : Kept sessionId L (hist ++ [(sequence, cached)])
          { w with round := w.round + 1 } :=
        ⟨(hk.mono _).tables, (hk.mono _).log, (hk.mono _).trace⟩
      obtain ⟨hlater, hk', -⟩ := forward_exact sched hid hkept hextend hnext hcached
        opts.maxRecoveries
      obtain ⟨row, hrow⟩ := forward_completes hid hreliable hkept hextend hnext hcached
      rw [generateLoop]
      dsimp only
      generalize recover (forward P sessionId sched 0 sequence) opts.maxRecoveries
        (forward P sessionId sched cached (sequence.drop cached)
          { w with round := w.round + 1 }) = outcome at hlater hk' hrow ⊢
      obtain ⟨outcome, recoveries, w'⟩ := outcome
      obtain rfl : outcome = .value row := hrow
      dsimp only at hk' hlater ⊢
      split
      · rename_i hfailed
        exact absurd hfailed (haudit _ _ _)
      · split
        · exact ⟨_, rfl⟩
        · have hlength : (hist ++ [(sequence, cached)]).length = w'.round + 1 := by
            rw [hlater.round, List.length_append, hround]
            rfl
          have hnew : sequence.length < (sequence ++ [(opts.pick row rng).1]).length := by
            rw [List.length_append]
            exact Nat.lt_succ_self _
          exact ih _ _ _ hk' hlength (hextend.append _) hnew

/-- A generation whose checks pass gives all tokens of the full model, as long as no call fails
outright and few are lost, whatever the replicas forget. -/
theorem generate_completes (L : Lawful P) (hid : sessionId ≠ "") (opts : Options τ ℓ σ)
    (hreliable : Reliable P opts.maxRecoveries sched)
    (haudit : ∀ i sequence row, opts.audit i sequence row ≠ some false)
    (tables : Nat → ρ → Sessions κ) (hnew : ∀ i r, (tables i r).lookup sessionId = none)
    {inputIds : List τ} (hprompt : inputIds ≠ []) (maxNewTokens : Nat) (rng : σ) :
    ∃ result, (generate P sessionId sched opts inputIds maxNewTokens rng (.init tables)).1 =
        some result ∧
      result.tokenIds = decode L.logits opts.pick opts.eos maxNewTokens inputIds rng := by
  have hprefixes : Prefixes [([], 0)] inputIds := by
    intro round hround
    obtain rfl := List.mem_singleton.mp hround
    exact ⟨List.nil_prefix, Nat.le_refl 0⟩
  have hkept : Kept sessionId L [([], 0)] (.init tables) := kept_init hnew
  have hpositive : 0 < inputIds.length := List.length_pos_iff.mpr hprompt
  obtain ⟨result, hresult⟩ := generateLoop_completes hid hreliable haudit maxNewTokens 0 rng
    ⟨[], 0, 0⟩ hkept rfl hprefixes hpositive
  exact ⟨result, hresult, generateLoop_exact hid maxNewTokens 0 rng ⟨[], 0, 0⟩ hkept rfl hprefixes
    hpositive hresult⟩

/-- Of the calls of `troubled` only one is lost. -/
theorem troubled_lost {n : Nat} (h : (troubled n).fate.isLost = true) : n = 1 := by
  unfold troubled at h
  split at h
  · rfl
  · cases h
  · cases h
  · cases h
  · cases h

theorem losses_troubled (n : Nat) : losses troubled n ≤ if n ≤ 1 then 0 else 1 := by
  induction n with
  | zero => exact Nat.le_refl _
  | succ n ih =>
      rw [losses, Nat.count_succ]
      rw [losses] at ih
      by_cases hlost : (troubled n).fate.isLost = true
      · obtain rfl := troubled_lost hlost
        rw [if_pos hlost]
        exact Nat.add_le_add_right ih 1
      · rw [if_neg hlost]
        refine ih.trans ?_
        split
        · exact Nat.zero_le _
        · rw [if_neg (by omega)]

theorem troubled_reliable : Reliable sums 2 troubled where
  notFailed := fun n h => by
    unfold troubled at h
    split at h
    · cases h
    · cases h
    · cases h
    · cases h
    · cases h
  fewLost := fun n => by
    have hfew := losses_troubled (n + 2 * sums.size * (2 + 1))
    split at hfew
    · omega
    · omega

theorem generate_completes_troubled : ∃ result,
    (generate sums "a" troubled greedyOptions [1, 2] 3 () (.init fun _ _ => ∅)).1 = some result ∧
      result.tokenIds =
        decode sumsLaw.logits greedyOptions.pick greedyOptions.eos 3 [1, 2] () :=
  generate_completes sumsLaw (by decide) greedyOptions troubled_reliable
    (fun _ _ _ => nofun) (fun _ _ => ∅) (fun _ _ => rfl) (by decide) 3 ()

end Distllm.Pipeline
