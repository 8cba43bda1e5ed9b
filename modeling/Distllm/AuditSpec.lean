import Mathlib.Data.List.Nodup
import Distllm.AuditState
import Distllm.PipelineSpec

/-! What a check computes. A request that starts a session is answered from its own inputs, whatever
else a replica holds, so a chain gives the composition of its stages' passes and nothing a schedule
does can change that. From it follows whom a failed check accuses. -/

namespace Distllm.Pipeline

open Stage

variable {τ η ℓ κ ρ σ : Type}

/-! ### A request that starts a session -/

/-- What a stage answers to a request that starts a session. -/
def freshAnswer (cfg : Config) (M : Model τ η ℓ κ) (p : Payload τ η) : Result τ η ℓ :=
  match inputs cfg p with
  | .error e => .error e
  | .ok new =>
    match new.seqLen with
    | none => .error .indexError
    | some _ => output cfg M p (M.base new 0 M.freshCache).1

/-- The request opens a session and asks for logits. -/
structure Opens (p : Payload τ η) : Prop where
  named : p.sessionId ≠ ""
  isOpen : p.close = false
  starts : p.startPos = some 0
  plain : p.argmax = false

theorem handle_opens {cfg : Config} {M : Model τ η ℓ κ} {now : Instant} {s : Sessions κ}
    {p : Payload τ η} (hp : Opens p) :
    (handle cfg M now s ⟨p, .none⟩).1 = freshAnswer cfg M p := by
  unfold handle freshAnswer
  dsimp only
  rw [if_neg hp.named, hp.isOpen, if_neg Bool.false_ne_true, hp.starts]
  dsimp only
  rw [if_pos rfl]
  unfold advance
  dsimp only
  cases inputs cfg p with
  | error e => rfl
  | ok new =>
      dsimp only
      cases new.seqLen with
      | none => rfl
      | some n =>
          simp only [Faults.none_base, Faults.none_output, Bool.false_eq_true, if_false]
          cases output cfg M p (M.base new 0 M.freshCache).1 with
          | ok answer => rfl
          | error e => rfl

section World

variable [DecidableEq ρ] {P : Deployment τ η ℓ κ ρ} {sessionId : String} {sched : Schedule τ η ρ}
  {L : Lawful P} {hist : History τ} {i : Nat} {p : Payload τ η} {w : World τ η ℓ κ ρ}

variable (P sessionId sched) in
/-- Where a request of another session leaves the world: after what came before it, and after it has
been served if it was. -/
theorem callOther_cases (i : Nat) (p : Payload τ η) (w : World τ η ℓ κ ρ) :
    let w' := (sched w.calls).acts.foldl (act P sessionId) { w with calls := w.calls + 1 }
    (callOther P sessionId sched i p w).2 = w' ∨
      ∃ r now, (callOther P sessionId sched i p w).2 =
        w'.setTable i r (handle (P.config i r) (P.model i) now (w'.tables i r) ⟨p, .none⟩).2 := by
  unfold callOther
  dsimp only
  cases (sched w.calls).fate with
  | lostBefore => exact .inl rfl
  | failed => exact .inl rfl
  | lostAfter => exact .inr ⟨_, _, rfl⟩
  | answered =>
      refine .inr ⟨(sched w.calls).replica, (sched w.calls).now, ?_⟩
      dsimp only
      split
      · rfl
      · rfl

theorem callOther_later (i : Nat) (p : Payload τ η) (w : World τ η ℓ κ ρ) :
    Later w (callOther P sessionId sched i p w).2 := by
  obtain ⟨htrace, hround⟩ :=
    acts_later P sessionId (sched w.calls).acts { w with calls := w.calls + 1 }
  rcases callOther_cases P sessionId sched i p w with h | ⟨r, now, h⟩
  · rw [h]
    exact ⟨htrace, hround⟩
  · rw [h]
    exact ⟨htrace, hround⟩

/-- The caches of the generation survive a request of another session, or they are evicted. -/
theorem callOther_kept (hid : sessionId ≠ "") (hother : p.sessionId ≠ sessionId)
    (hcompat : Compatible (fun _ _ => True) hist) (hk : Kept sessionId L hist w) :
    Kept sessionId L hist (callOther P sessionId sched i p w).2 := by
  have hcounted : Kept sessionId L hist { w with calls := w.calls + 1 } :=
    ⟨hk.tables, hk.log, hk.trace⟩
  have hacts := acts_kept hid hcompat hcounted (sched w.calls).acts
    fun _ _ _ _ _ _ _ _ => trivial
  rcases callOther_cases P sessionId sched i p w with h | ⟨r, now, h⟩
  · rw [h]
    exact hacts
  · rw [h]
    exact setTable_kept hacts i r fun sess hsess => handle_other _ (Ne.symm hother) hsess

/-- An answer to a request that opens a session is computed from the request alone. -/
theorem callOther_answered (hp : Opens p) {response : Response τ η ℓ}
    (h : (callOther P sessionId sched i p w).1 = .answered response) :
    ∃ r, freshAnswer (P.config i r) (P.model i) p = .ok response := by
  unfold callOther at h
  dsimp only at h
  split at h
  · cases h
  · cases h
  · cases h
  · split at h
    · rename_i hanswer
      cases h
      rw [handle_opens hp] at hanswer
      exact ⟨_, hanswer⟩
    · cases h

end World

/-! ### Chains -/

section Chain

variable (A : Audited τ η ℓ κ ρ)

/-- How many stages a chain has. -/
def Audited.size : Nat := (A.side .pipeline).size

theorem Audited.side_size (b : Side) : (A.side b).size = A.size := by
  cases b with
  | pipeline => rfl
  | auditor => exact A.mirror

def Audited.model (role : Role) : Model τ η ℓ κ := (A.side role.1).model role.2

/-- The hidden states after stage `i` of a chain, each stage run over the whole sequence. -/
def hiddenAfter (sides : Nat → Side) (sequence : List τ) : Nat → Tensor η
  | 0 => ((A.model (sides 0, 0)).base (.inputIds (.row [] sequence)) 0
      (A.model (sides 0, 0)).freshCache).1
  | i + 1 => ((A.model (sides (i + 1), i + 1)).base
      (.inputsEmbeds (hiddenAfter sides sequence i)) 0 (A.model (sides (i + 1), i + 1)).freshCache).1

/-- The last-position logits of a chain, as the composition of its stages. -/
def freshLogits (sides : Nat → Side) (sequence : List τ) : Option ℓ :=
  ((hiddenAfter A sides sequence (A.size - 1)).lastOfRows.bind List.head?).map
    (A.model (sides (A.size - 1), A.size - 1)).lmHead

variable {A}

/-- Stages that compute alike are as good as each other in a chain. -/
theorem freshLogits_congr {sides sides' : Nat → Side} (sequence : List τ)
    (h : ∀ i < A.size, A.model (sides i, i) = A.model (sides' i, i)) :
    freshLogits A sides sequence = freshLogits A sides' sequence := by
  have hpos : 0 < A.size := (A.side .pipeline).pos
  have hhidden : ∀ i < A.size, hiddenAfter A sides sequence i = hiddenAfter A sides' sequence i := by
    intro i hi
    induction i with
    | zero => rw [hiddenAfter, hiddenAfter, h 0 hi]
    | succ i ih => rw [hiddenAfter, hiddenAfter, ih (Nat.lt_of_succ_lt hi), h (i + 1) hi]
  have hlast : A.size - 1 < A.size := Nat.sub_one_lt_of_lt hpos
  rw [freshLogits, freshLogits, hhidden _ hlast, h _ hlast]

/-- The payload brings stage `i` of a chain its input. -/
def Brings (A : Audited τ η ℓ κ ρ) (sides : Nat → Side) (sequence : List τ) (p : Payload τ η) :
    Nat → Prop
  | 0 => p.inputIds = .tensor (.row [] sequence)
  | i + 1 => p.hiddenStates = .tensor (hiddenAfter A sides sequence i)

variable {sides : Nat → Side} {sequence : List τ} {p : Payload τ η} {i : Nat}

theorem Brings.inputs (h : Brings A sides sequence p i) (r : ρ) :
    ∃ new, Stage.inputs ((A.side (sides i)).config i r) p = .ok new ∧
      ((A.model (sides i, i)).base new 0 (A.model (sides i, i)).freshCache).1 =
        hiddenAfter A sides sequence i := by
  cases i with
  | zero =>
      refine ⟨.inputIds (.row [] sequence), ?_, rfl⟩
      rw [Stage.inputs, (A.side (sides 0)).isFirst 0 r, decide_eq_true rfl, if_pos rfl,
        show p.inputIds = .tensor (.row [] sequence) from h]
      rfl
  | succ i =>
      refine ⟨.inputsEmbeds (hiddenAfter A sides sequence i), ?_, rfl⟩
      rw [Stage.inputs, (A.side (sides (i + 1))).isFirst (i + 1) r,
        decide_eq_false (Nat.succ_ne_zero i), if_neg Bool.false_ne_true,
        show p.hiddenStates = .tensor (hiddenAfter A sides sequence i) from h]
      rfl

/-- The answer of a stage inside the chain is the payload for the next one. -/
theorem freshAnswer_inner (h : Brings A sides sequence p i) (hnext : i + 1 < A.size) {r : ρ}
    {response : Response τ η ℓ} (hanswer : freshAnswer ((A.side (sides i)).config i r)
      (A.model (sides i, i)) p = .ok response) :
    response = .hidden (handOn p (hiddenAfter A sides sequence i)) := by
  obtain ⟨new, hnew, hhidden⟩ := h.inputs r
  rw [freshAnswer, hnew] at hanswer
  dsimp only at hanswer
  cases hlen : new.seqLen with
  | none =>
      rw [hlen] at hanswer
      cases hanswer
  | some n =>
      have hlast : ((A.side (sides i)).config i r).isLast = false := by
        rw [(A.side (sides i)).isLast i r, A.side_size]
        exact decide_eq_false (Nat.ne_of_lt hnext)
      rw [hlen, hhidden] at hanswer
      dsimp only at hanswer
      rw [output, hlast] at hanswer
      cases hanswer
      rfl

/-- The last stage answers the logits of the chain. -/
theorem freshAnswer_last (h : Brings A sides sequence p i) (hp : p.argmax = false)
    (hlast : i + 1 = A.size) {r : ρ} {response : Response τ η ℓ}
    (hanswer : freshAnswer ((A.side (sides i)).config i r) (A.model (sides i, i)) p =
      .ok response) :
    logitsKey response = freshLogits A sides sequence := by
  obtain ⟨new, hnew, hhidden⟩ := h.inputs r
  rw [freshAnswer, hnew] at hanswer
  dsimp only at hanswer
  cases hlen : new.seqLen with
  | none =>
      rw [hlen] at hanswer
      cases hanswer
  | some n =>
      have hisLast : ((A.side (sides i)).config i r).isLast = true := by
        rw [(A.side (sides i)).isLast i r, A.side_size]
        exact decide_eq_true hlast
      obtain rfl : i = A.size - 1 := by omega
      rw [hlen, hhidden] at hanswer
      dsimp only at hanswer
      rw [output, hisLast, hp] at hanswer
      simp only [Bool.and_false, Bool.false_eq_true, if_false, if_true] at hanswer
      rw [freshLogits]
      cases hrows : (hiddenAfter A sides sequence (A.size - 1)).lastOfRows with
      | none =>
          rw [hrows] at hanswer
          cases hanswer
      | some rows =>
          rw [hrows] at hanswer
          cases hanswer
          cases rows with
          | nil => rfl
          | cons row rest => rfl

end Chain

theorem freshAnswer_hidden {cfg : Config} {M : Model τ η ℓ κ} {p next : Payload τ η}
    (h : freshAnswer cfg M p = .ok (.hidden next)) : ∃ t, next = handOn p t := by
  unfold freshAnswer at h
  split at h
  · cases h
  · split at h
    · cases h
    · unfold output at h
      split at h
      · split at h
        · cases h
        · cases h
      · split at h
        · split at h
          · cases h
          · cases h
        · cases h
          exact ⟨_, rfl⟩

theorem Opens.handOn {p : Payload τ η} (hp : Opens p) (t : Tensor η) : Opens (Stage.handOn p t) :=
  ⟨hp.named, rfl, hp.starts, hp.plain⟩

section Client

variable [DecidableEq ρ] {A : Audited τ η ℓ κ ρ} {sessionId : String}
  {sched : Side → Schedule τ η ρ} {p : Payload τ η} {s : Sites τ η ℓ κ ρ}

theorem callRole_answered {role : Role} (hp : Opens p) {response : Response τ η ℓ}
    (h : (callRole A sessionId sched role p s).1 = .answered response) :
    ∃ r, freshAnswer ((A.side role.1).config role.2 r) (A.model role) p = .ok response :=
  callOther_answered hp h

theorem throughChain_stops {role : Role} {rest : List Role}
    (h : ∀ next, (callRole A sessionId sched role p s).1 ≠ .answered (.hidden next)) :
    throughChain A sessionId sched (role :: rest) p s = callRole A sessionId sched role p s := by
  rw [throughChain]
  split
  · rename_i next s' hcall
    exact absurd (congrArg Prod.fst hcall) (h next)
  · rename_i hcall
    exact hcall.symm

theorem throughChain_goes_on {role : Role} {rest : List Role} {next : Payload τ η}
    (h : (callRole A sessionId sched role p s).1 = .answered (.hidden next)) :
    throughChain A sessionId sched (role :: rest) p s =
      throughChain A sessionId sched rest next (callRole A sessionId sched role p s).2 := by
  rw [throughChain]
  generalize callRole A sessionId sched role p s = outcome at h ⊢
  obtain ⟨reply, s'⟩ := outcome
  obtain rfl : reply = .answered (.hidden next) := h
  rfl

/-- An answer of the rest of a chain is the one that the composition of the stages gives. -/
theorem throughChain_answered {sides : Nat → Side} {sequence : List τ} {i k : Nat}
    (hsize : i + (k + 1) = A.size) (hp : Opens p) (hbrings : Brings A sides sequence p i)
    {response : Response τ η ℓ}
    (h : (throughChain A sessionId sched ((List.range' i (k + 1)).map fun j => (sides j, j)) p s).1 =
      .answered response) : logitsKey response = freshLogits A sides sequence := by
  induction k generalizing i p s with
  | zero =>
      have hlast : i + 1 = A.size := hsize
      rw [List.range'_one, List.map_singleton] at h
      by_cases hnext : ∃ next, (callRole A sessionId sched (sides i, i) p s).1 =
          .answered (.hidden next)
      · obtain ⟨next, hnext⟩ := hnext
        rw [throughChain_goes_on hnext] at h
        cases h
        obtain ⟨r, hanswer⟩ := callRole_answered hp hnext
        exact freshAnswer_last hbrings hp.plain hlast hanswer
      · rw [throughChain_stops (not_exists.mp hnext)] at h
        obtain ⟨r, hanswer⟩ := callRole_answered hp h
        exact freshAnswer_last hbrings hp.plain hlast hanswer
  | succ k ih =>
      have hinner : i + 1 < A.size := by omega
      rw [List.range'_succ, List.map_cons] at h
      by_cases hnext : ∃ next, (callRole A sessionId sched (sides i, i) p s).1 =
          .answered (.hidden next)
      · obtain ⟨next, hnext⟩ := hnext
        rw [throughChain_goes_on hnext] at h
        obtain ⟨r, hanswer⟩ := callRole_answered hp hnext
        have hhand := freshAnswer_inner hbrings hinner hanswer
        cases hhand
        have hbrings' : Brings A sides sequence (handOn p (hiddenAfter A sides sequence i)) (i + 1) :=
          rfl
        exact ih (by omega) (hp.handOn _) hbrings' h
      · rw [throughChain_stops (not_exists.mp hnext)] at h
        obtain ⟨r, hanswer⟩ := callRole_answered hp h
        have hhand := freshAnswer_inner hbrings hinner hanswer
        exact absurd (h.trans (congrArg _ hhand)) (not_exists.mp hnext _)

variable {uuid : Nat → String} {sequence : List τ}

theorem auditSession_length (n : Nat) : 6 ≤ (auditSession uuid n).length := by
  have hword : "audit-".length = 6 := rfl
  rw [auditSession, String.length_append, hword]
  exact Nat.le_add_right ..

theorem auditSession_ne_empty (n : Nat) : auditSession uuid n ≠ "" := by
  intro h
  have hlength := @auditSession_length uuid n
  rw [h] at hlength
  exact absurd hlength (by decide)

/-- A throwaway run gives the logits of its chain, if it gives any. -/
theorem runFresh_value {sides : Nat → Side} {row : ℓ}
    (h : (runFresh A sessionId uuid sched (chainOf A sides) sequence s).1 = some row) :
    freshLogits A sides sequence = some row := by
  have hsize : 0 + (A.size - 1 + 1) = A.size := by
    have hpos : 0 < A.size := (A.side .pipeline).pos
    omega
  have hopens : Opens (⟨auditSession uuid s.checks, false, some 0, false, false,
      .tensor (.row [] sequence), .missing⟩ : Payload τ η) :=
    ⟨auditSession_ne_empty _, rfl, rfl, rfl⟩
  have hchain : chainOf A sides =
      (List.range' 0 (A.size - 1 + 1)).map fun j => (sides j, j) := by
    rw [chainOf, List.range_eq_range', ← Audited.size, ← Nat.zero_add (A.size - 1 + 1), hsize]
  unfold runFresh at h
  dsimp only at h
  rw [hchain] at h
  have hanswered := @throughChain_answered τ η ℓ κ ρ _ A sessionId sched
    ⟨auditSession uuid s.checks, false, some 0, false, false, .tensor (.row [] sequence), .missing⟩
    { s with checks := s.checks + 1 } sides sequence 0 (A.size - 1) hsize hopens rfl
  generalize throughChain A sessionId sched _ _ { s with checks := s.checks + 1 } = outcome
    at h hanswered
  obtain ⟨reply, s'⟩ := outcome
  cases reply with
  | lost => cases h
  | failed => cases h
  | answered response => exact (hanswered rfl).symm.trans h

/-! ### Whom a check accuses -/

variable {audit : AuditConfig ℓ}

/-- The stages that turn the auditors' answer into a different one. -/
def suspectsOf (A : Audited τ η ℓ κ ρ) (audit : AuditConfig ℓ) (sequence : List τ)
    (reference : ℓ) : List Nat :=
  (List.range A.size).filter fun i =>
    (freshLogits A (swapped i) sequence).any (audit.differs · reference)

theorem locate_value {reference : ℓ} {stages found suspects : List Nat}
    (h : (locate A sessionId uuid sched audit sequence reference stages found s).1 =
      some suspects) :
    suspects = found ++ stages.filter fun i =>
      (freshLogits A (swapped i) sequence).any (audit.differs · reference) := by
  induction stages generalizing found s with
  | nil =>
      cases h
      rw [List.filter_nil, List.append_nil]
  | cons i rest ih =>
      rw [locate] at h
      have hvalue := @runFresh_value τ η ℓ κ ρ _ A sessionId sched s uuid sequence (swapped i)
      generalize runFresh A sessionId uuid sched (chainOf A (swapped i)) sequence s = outcome
        at h hvalue
      obtain ⟨row, s'⟩ := outcome
      cases row with
      | none => cases h
      | some row =>
          have hrow := hvalue rfl
          rw [ih h, List.filter_cons, hrow, Option.any_some]
          split
          · rw [List.append_assoc, List.singleton_append]
          · rfl

/-- What a check that passes has seen. -/
theorem check_passed {logits : ℓ}
    (h : (check A sessionId uuid sched audit sequence logits s).1 = .ok ()) :
    ∃ reference, freshLogits A auditors sequence = some reference ∧
      audit.agrees logits reference = true := by
  unfold check at h
  have hvalue := @runFresh_value τ η ℓ κ ρ _ A sessionId sched s uuid sequence auditors
  generalize runFresh A sessionId uuid sched (chainOf A auditors) sequence s = outcome at h hvalue
  obtain ⟨row, s'⟩ := outcome
  cases row with
  | none => cases h
  | some reference =>
      refine ⟨reference, hvalue rfl, ?_⟩
      dsimp only at h
      split at h
      · assumption
      · split at h
        · split at h
          · cases h
          · cases h
        · cases h

/-- What a check that raises has seen, and whom it accuses. -/
theorem check_raised {logits : ℓ} {suspects : List Nat}
    (h : (check A sessionId uuid sched audit sequence logits s).1 =
      .error (.verification suspects)) :
    ∃ reference, freshLogits A auditors sequence = some reference ∧
      audit.agrees logits reference = false ∧
      suspects = if audit.locate then suspectsOf A audit sequence reference else [] := by
  unfold check at h
  have hvalue := @runFresh_value τ η ℓ κ ρ _ A sessionId sched s uuid sequence auditors
  generalize runFresh A sessionId uuid sched (chainOf A auditors) sequence s = outcome at h hvalue
  obtain ⟨row, s'⟩ := outcome
  cases row with
  | none => cases h
  | some reference =>
      dsimp only at h
      cases hagrees : audit.agrees logits reference with
      | true =>
          rw [hagrees, if_pos rfl] at h
          cases h
      | false =>
          refine ⟨reference, hvalue rfl, hagrees, ?_⟩
          rw [hagrees, if_neg Bool.false_ne_true] at h
          cases hlocate : audit.locate with
          | false =>
              rw [hlocate, if_neg Bool.false_ne_true] at h
              cases h
              rfl
          | true =>
              rw [hlocate, if_pos rfl] at h
              have hfound := @locate_value τ η ℓ κ ρ _ A sessionId sched s' uuid sequence audit
                reference (List.range A.size) [] suspects
              rw [← Audited.size] at h
              generalize locate A sessionId uuid sched audit sequence reference
                (List.range A.size) [] s' = outcome at h hfound
              obtain ⟨found, s''⟩ := outcome
              cases found with
              | none => cases h
              | some found =>
                  cases h
                  rw [if_pos rfl, hfound rfl, List.nil_append, suspectsOf]

end Client

section Blame

variable {A : Audited τ η ℓ κ ρ} {audit : AuditConfig ℓ} {sequence : List τ} {reference : ℓ}

/-- A stage that computes as its auditor is not accused, whatever the others do. -/
theorem not_mem_suspectsOf {i : Nat}
    (hsame : A.model (.pipeline, i) = A.model (.auditor, i))
    (href : freshLogits A auditors sequence = some reference)
    (hself : audit.differs reference reference = false) :
    i ∉ suspectsOf A audit sequence reference := by
  intro hmem
  have hany := (List.mem_filter.mp hmem).2
  have hchain : freshLogits A (swapped i) sequence = freshLogits A auditors sequence := by
    apply freshLogits_congr
    intro j _
    unfold swapped auditors
    split
    · rename_i hj
      rw [hj, hsame]
    · rfl
  rw [hchain, href, Option.any_some, hself] at hany
  cases hany

/-- When only one stage computes differently, it is accused exactly if the whole pipeline's logits
differ measurably from the reference. -/
theorem suspectsOf_single {j : Nat} (hj : j < A.size)
    (hsame : ∀ i < A.size, i ≠ j → A.model (.pipeline, i) = A.model (.auditor, i))
    (href : freshLogits A auditors sequence = some reference)
    (hself : audit.differs reference reference = false) {logits : ℓ}
    (hlogits : freshLogits A (fun _ => .pipeline) sequence = some logits) :
    suspectsOf A audit sequence reference = if audit.differs logits reference then [j] else [] := by
  have hwhole : freshLogits A (swapped j) sequence = some logits := by
    rw [← hlogits]
    apply freshLogits_congr
    intro i hi
    unfold swapped
    split
    · rfl
    · rename_i hij
      exact (hsame i hi hij).symm
  have hothers : ∀ i, i ≠ j →
      (freshLogits A (swapped i) sequence).any (audit.differs · reference) = false := by
    intro i hij
    by_cases hi : i < A.size
    · have hnot := not_mem_suspectsOf (hsame i hi hij) href hself
      rw [suspectsOf, List.mem_filter] at hnot
      rw [← Bool.not_eq_true]
      exact fun h => hnot ⟨List.mem_range.mpr hi, h⟩
    · have hchain : freshLogits A (swapped i) sequence = freshLogits A auditors sequence := by
        apply freshLogits_congr
        intro k hk
        unfold swapped auditors
        rw [if_neg (by omega)]
      rw [hchain, href, Option.any_some, hself]
  have hfilter : suspectsOf A audit sequence reference =
      (List.range A.size).filter fun i => decide (i = j) && audit.differs logits reference := by
    unfold suspectsOf
    apply List.filter_congr
    intro i _
    by_cases hij : i = j
    · rw [hij, hwhole, Option.any_some, decide_eq_true rfl, Bool.true_and]
    · rw [hothers i hij, decide_eq_false hij, Bool.false_and]
  rw [hfilter]
  cases audit.differs logits reference with
  | false => simp
  | true =>
      simp only [Bool.and_true, if_true]
      rw [List.filter_eq, List.count_eq_one_of_mem List.nodup_range (List.mem_range.mpr hj),
        List.replicate_one]

end Blame
end Distllm.Pipeline
