import Distllm.AuditSpec
import Distllm.PipelineExact

/-! A generation with checks on the way is as exact as one without: the requests of a check belong
to sessions of their own, and what they do to the caches of the generation a replica may do anyway.
What a check compares are the logits of the pipeline, as a whole model, and those of the auditors;
so a pipeline that computes as its auditors never fails one, and a single stage that computes
differently is the one that is named. -/

namespace Distllm.Pipeline

open Stage Decoding

variable {τ η ℓ κ ρ σ : Type} {A : Audited τ η ℓ κ ρ}

theorem differs_of_agrees {audit : AuditConfig ℓ} {a b : ℓ} (h : audit.agrees a b = true) :
    audit.differs a b = false := by
  unfold AuditConfig.agrees at h
  unfold AuditConfig.differs
  cases hab : audit.similarity a b with
  | none => rfl
  | some x =>
      rw [hab] at h
      change decide (audit.minSimilarity ≤ x) = true at h
      exact decide_eq_false (Rat.not_lt.mpr (of_decide_eq_true h))

theorem differs_of_not_agrees {audit : AuditConfig ℓ} {a b : ℓ}
    (h : audit.agrees a b = false) : audit.differs a b = (audit.similarity a b).isSome := by
  unfold AuditConfig.agrees at h
  unfold AuditConfig.differs
  cases hab : audit.similarity a b with
  | none => rfl
  | some x =>
      rw [hab] at h
      change decide (audit.minSimilarity ≤ x) = false at h
      exact decide_eq_true (Rat.not_le.mp (of_decide_eq_false h))

theorem audit_of_audits {opts : Settings τ ℓ σ} {i : Nat} {audit : AuditConfig ℓ}
    (h : opts.audits i = some audit) : opts.audit = some audit :=
  (Option.filter_eq_some_iff.mp h).1

/-! ### A side as one model -/

theorem hiddenAfter_lawful {b : Side} (L : Lawful (A.side b)) {sequence : List τ}
    (hne : sequence ≠ []) (i : Nat) (hi : i < (A.side b).size) :
    hiddenAfter A (fun _ => b) sequence i = .row L.dims (L.hidden i hi sequence) := by
  have hpos : 0 < sequence.length := List.length_pos_iff.mpr hne
  induction i with
  | zero =>
      have hforward := L.first.forward sequence 0 hpos
      rw [List.take_zero, List.drop_zero, List.drop_zero, ← L.first.fresh] at hforward
      exact hforward
  | succ i ih =>
      have hlt : i < (A.side b).size := Nat.lt_of_succ_lt hi
      have hlength : 0 < (L.hidden i hlt sequence).length := by rwa [Causal.length_apply]
      have hforward := (L.later i hi).forward (L.hidden i hlt sequence) 0 hlength
      rw [List.take_zero, List.drop_zero, List.drop_zero, ← (L.later i hi).fresh] at hforward
      rw [hiddenAfter, ih hlt]
      exact hforward

/-- A chain of one side only gives the logits of that side as a whole. -/
theorem freshLogits_lawful {b : Side} (L : Lawful (A.side b)) {sequence : List τ}
    (hne : sequence ≠ []) : freshLogits A (fun _ => b) sequence = L.logits sequence := by
  have hlast : A.size - 1 = Lawful.last (P := A.side b) := by
    rw [Lawful.last, A.side_size]
  have hhidden : L.hidden Lawful.last Lawful.last_lt sequence ≠ [] := by
    apply List.ne_nil_of_length_pos
    rw [Causal.length_apply]
    exact List.length_pos_iff.mpr hne
  rw [freshLogits, hlast, hiddenAfter_lawful L hne _ Lawful.last_lt, lastOfRows_row _ hhidden]
  unfold Lawful.logits
  rw [List.getLast?_eq_getLast_of_ne_nil hhidden]
  rfl

/-! ### Checks spare the generation -/

section Spared

variable [DecidableEq ρ] {sessionId : String} {uuid : Nat → String}
  {sched : Side → Schedule τ η ρ} {L : Lawful (A.side .pipeline)} {hist : History τ}
  {p : Payload τ η} {sequence : List τ} {audit : AuditConfig ℓ}

/-- The generation's caches are kept on the way from one state to another. -/
structure Spared (sessionId : String) (L : Lawful (A.side .pipeline)) (hist : History τ)
    (s s' : Sites τ η ℓ κ ρ) : Prop where
  later : Later (s.world .pipeline) (s'.world .pipeline)
  kept : Kept sessionId L hist (s.world .pipeline) → Kept sessionId L hist (s'.world .pipeline)

omit [DecidableEq ρ] in
theorem Spared.refl (s : Sites τ η ℓ κ ρ) : Spared sessionId L hist s s := ⟨.refl _, id⟩

omit [DecidableEq ρ] in
theorem Spared.trans {s₁ s₂ s₃ : Sites τ η ℓ κ ρ} (h : Spared sessionId L hist s₁ s₂)
    (h' : Spared sessionId L hist s₂ s₃) : Spared sessionId L hist s₁ s₃ :=
  ⟨h.later.trans h'.later, fun hk => h'.kept (h.kept hk)⟩

variable (sched L) (hid : sessionId ≠ "") (hcompat : Compatible (fun _ _ => True) hist)
  (hother : ∀ n, auditSession uuid n ≠ sessionId)

include hid hcompat in
theorem callRole_spared (role : Role) (hp : p.sessionId ≠ sessionId) (s : Sites τ η ℓ κ ρ) :
    Spared sessionId L hist s (callRole A sessionId sched role p s).2 := by
  obtain ⟨b, i⟩ := role
  cases b with
  | pipeline => exact ⟨callOther_later .., callOther_kept hid hp hcompat⟩
  | auditor => exact ⟨.refl _, id⟩

include hid hcompat in
theorem throughChain_spared (chain : List Role) (hopens : Opens p)
    (hp : p.sessionId ≠ sessionId) (s : Sites τ η ℓ κ ρ) :
    Spared sessionId L hist s (throughChain A sessionId sched chain p s).2 := by
  induction chain generalizing p s with
  | nil => exact .refl s
  | cons role rest ih =>
      have hcall := callRole_spared sched L hid hcompat role hp s
      by_cases hnext : ∃ next, (callRole A sessionId sched role p s).1 = .answered (.hidden next)
      · obtain ⟨next, hnext⟩ := hnext
        rw [throughChain_goes_on hnext]
        obtain ⟨r, hanswer⟩ := callRole_answered hopens hnext
        obtain ⟨t, rfl⟩ := freshAnswer_hidden hanswer
        exact hcall.trans (ih (hopens.handOn t) hp _)
      · rw [throughChain_stops (not_exists.mp hnext)]
        exact hcall

include hid hcompat in
theorem closeChain_spared {auditId : String} (hp : auditId ≠ sessionId) (chain : List Role)
    (s : Sites τ η ℓ κ ρ) :
    Spared sessionId L hist s (closeChain A sessionId sched auditId chain s) := by
  induction chain generalizing s with
  | nil => exact .refl s
  | cons role rest ih => exact (callRole_spared sched L hid hcompat role hp s).trans (ih _)

include hid hcompat hother

variable (sequence audit)

theorem runFresh_spared (chain : List Role) (s : Sites τ η ℓ κ ρ) :
    Spared sessionId L hist s (runFresh A sessionId uuid sched chain sequence s).2 := by
  set opening : Payload τ η := ⟨auditSession uuid s.checks, false, some 0, false, false,
    .tensor (.row [] sequence), .missing⟩ with hopening
  have hthrough := throughChain_spared sched L hid hcompat chain
    (⟨auditSession_ne_empty _, rfl, rfl, rfl⟩ : Opens opening) (hother _)
    { s with checks := s.checks + 1 }
  have hclose := closeChain_spared sched L hid hcompat (hother s.checks) chain
    (throughChain A sessionId sched chain opening { s with checks := s.checks + 1 }).2
  have hboth := hthrough.trans hclose
  unfold runFresh
  dsimp only
  split
  · exact ⟨hboth.later, hboth.kept⟩
  · exact ⟨hboth.later, hboth.kept⟩

theorem locate_spared (reference : ℓ) (stages found : List Nat) (s : Sites τ η ℓ κ ρ) :
    Spared sessionId L hist s
      (locate A sessionId uuid sched audit sequence reference stages found s).2 := by
  induction stages generalizing found s with
  | nil => exact .refl s
  | cons i rest ih =>
      have hrun := runFresh_spared sched L sequence hid hcompat hother
        (chainOf A (swapped i)) s
      rw [locate]
      generalize runFresh A sessionId uuid sched (chainOf A (swapped i)) sequence s = outcome at hrun ⊢
      obtain ⟨row, s'⟩ := outcome
      cases row with
      | none => exact hrun
      | some row => exact hrun.trans (ih _ s')

theorem check_spared (logits : ℓ) (s : Sites τ η ℓ κ ρ) :
    Spared sessionId L hist s (check A sessionId uuid sched audit sequence logits s).2 := by
  have hrun := runFresh_spared sched L sequence hid hcompat hother
    (chainOf A auditors) s
  unfold check
  generalize runFresh A sessionId uuid sched (chainOf A auditors) sequence s = outcome at hrun ⊢
  obtain ⟨row, s'⟩ := outcome
  cases row with
  | none => exact hrun
  | some reference =>
      have hlocate := locate_spared sched L sequence audit hid hcompat hother reference
        (List.range (A.side .pipeline).size) [] s'
      dsimp only
      split
      · exact hrun
      · split
        · generalize locate A sessionId uuid sched audit sequence reference
            (List.range (A.side .pipeline).size) [] s' = outcome at hlocate ⊢
          obtain ⟨suspects, s''⟩ := outcome
          cases suspects with
          | none => exact hrun.trans hlocate
          | some suspects => exact hrun.trans hlocate
        · exact hrun

end Spared

/-! ### The loop -/

section Loop

variable [DecidableEq ρ] {sessionId : String} {uuid : Nat → String}
  {sched : Side → Schedule τ η ρ} {L : Lawful (A.side .pipeline)} {hist : History τ}
  {sequence : List τ} {opts : Settings τ ℓ σ} {w : World τ η ℓ κ ρ}

omit [DecidableEq ρ] in
theorem recover_zero {α : Type} (again : World τ η ℓ κ ρ → Outcome α × World τ η ℓ κ ρ)
    (first : Outcome α × World τ η ℓ κ ρ) :
    (recover again 0 first).2.2 = first.2 ∧
      ∀ v, first.1 = .value v → (recover again 0 first).1 = .value v := by
  obtain ⟨outcome, w⟩ := first
  cases outcome with
  | value v => exact ⟨rfl, fun _ h => h⟩
  | miss => exact ⟨rfl, nofun⟩
  | failed => exact ⟨rfl, nofun⟩

/-- Where the requests of a step start, in either mode. -/
def startOf (opts : Settings τ ℓ σ) (cached : Nat) : Nat := if opts.useKvCache then cached else 0

omit [DecidableEq ρ] in
theorem startOf_le (cached : Nat) : startOf opts cached ≤ cached := by
  unfold startOf
  split
  · exact Nat.le_refl _
  · exact Nat.zero_le _

variable (sched opts) in
/-- With and without the cache, the logits of a step are those of the sequence. -/
theorem stepLogits_exact (hid : sessionId ≠ "") (hk : Kept sessionId L hist w)
    (hprefixes : Prefixes hist sequence) {cached : Nat}
    (hhist : hist[w.round]? = some (sequence, startOf opts cached))
    (hcached : cached < sequence.length) :
    let outcome := stepLogits A sessionId sched opts sequence cached w
    Later w outcome.2.2 ∧ Kept sessionId L hist outcome.2.2 ∧
      ∀ row, outcome.1 = .value row → L.logits sequence = some row := by
  have hstart : startOf opts cached < sequence.length := (startOf_le cached).trans_lt hcached
  unfold stepLogits
  cases hmode : opts.useKvCache with
  | true =>
      have hwith : startOf opts cached = cached := by rw [startOf, hmode, if_pos rfl]
      rw [hwith] at hhist
      exact forward_exact (sched .pipeline) hid hk hprefixes hhist hcached opts.maxRecoveries
  | false =>
      have hwithout : startOf opts cached = 0 := by rw [startOf, hmode, if_neg Bool.false_ne_true]
      rw [hwithout] at hhist hstart
      have hexact := forward_exact (sched .pipeline) hid hk hprefixes hhist hstart 0
      obtain ⟨hworld, hvalue⟩ := recover_zero
        (forward (A.side .pipeline) sessionId (sched .pipeline) 0 sequence)
        (forward (A.side .pipeline) sessionId (sched .pipeline) 0 (sequence.drop 0) w)
      dsimp only at hexact
      rw [hworld, List.drop_zero] at hexact
      rw [List.drop_zero] at hvalue
      dsimp only
      rw [if_neg Bool.false_ne_true]
      exact ⟨hexact.1, hexact.2.1, fun row hrow => hexact.2.2 row (hvalue row hrow)⟩

/-- A step that is checked has logits that agree with the auditors'. -/
def Agreed (L : Lawful (A.side .pipeline)) (opts : Settings τ ℓ σ) (i : Nat) (sequence : List τ) :
    Prop :=
  ∀ audit, opts.audits i = some audit → ∃ row reference, L.logits sequence = some row ∧
    freshLogits A auditors sequence = some reference ∧ audit.agrees row reference = true

/-- A step whose check accuses the given stages. -/
def Accused (L : Lawful (A.side .pipeline)) (opts : Settings τ ℓ σ) (i : Nat) (sequence : List τ)
    (suspects : List Nat) : Prop :=
  ∃ audit row reference, opts.audits i = some audit ∧ L.logits sequence = some row ∧
    freshLogits A auditors sequence = some reference ∧ audit.agrees row reference = false ∧
    suspects = if audit.locate then suspectsOf A audit sequence reference else []

/-- How many of `n` steps from `i` on are checked. -/
def auditsFrom (opts : Settings τ ℓ σ) (i n : Nat) : Nat :=
  (List.range' i n).countP fun k => (opts.audits k).isSome

omit [DecidableEq ρ] in
theorem auditsFrom_succ (i n : Nat) :
    auditsFrom opts i (n + 1) = auditsFrom opts i 1 + auditsFrom opts (i + 1) n := by
  rw [auditsFrom, List.range'_succ, ← List.singleton_append, List.countP_append]
  rfl

/-- What a generation ends with, started on a sequence at step `i` with `n` steps to go. -/
def Faithful (L : Lawful (A.side .pipeline)) (opts : Settings τ ℓ σ) (n i : Nat)
    (sequence : List τ) (rng : σ) (acc : GenerationResult τ) :
    Except Stop (GenerationResult τ) → Prop
  | .ok result =>
    let tokens := decode L.logits opts.pick opts.eos n sequence rng
    result.tokenIds = acc.tokenIds ++ tokens ∧
      result.audits = acc.audits + auditsFrom opts i tokens.length ∧
      ∀ k < tokens.length, Agreed L opts (i + k) (sequence ++ tokens.take k)
  | .error (.verification suspects) => ∃ k < n,
    (decode L.logits opts.pick opts.eos k sequence rng).length = k ∧
      Accused L opts (i + k) (sequence ++ decode L.logits opts.pick opts.eos k sequence rng) suspects
  | .error .failed => True

omit [DecidableEq ρ] in
/-- One token put before what the rest of a generation ends with. -/
theorem Faithful.cons {n i : Nat} {rng : σ} {acc acc' : GenerationResult τ} {row : ℓ}
    {result : Except Stop (GenerationResult τ)} (hrow : L.logits sequence = some row)
    (heos : opts.eos (opts.pick row rng).1 = false) (hagreed : Agreed L opts i sequence)
    (htokens : acc'.tokenIds = acc.tokenIds ++ [(opts.pick row rng).1])
    (haudits : acc'.audits = acc.audits + auditsFrom opts i 1)
    (h : Faithful L opts n (i + 1) (sequence ++ [(opts.pick row rng).1]) (opts.pick row rng).2 acc'
      result) : Faithful L opts (n + 1) i sequence rng acc result := by
  have hdecode : ∀ m, decode L.logits opts.pick opts.eos (m + 1) sequence rng =
      (opts.pick row rng).1 :: decode L.logits opts.pick opts.eos m
        (sequence ++ [(opts.pick row rng).1]) (opts.pick row rng).2 := by
    intro m
    rw [decode, hrow]
    dsimp only
    rw [if_neg (by rw [heos]; exact Bool.false_ne_true)]
  cases result with
  | ok result =>
      obtain ⟨hids, hcount, hall⟩ := h
      refine ⟨?_, ?_, fun k hk => ?_⟩
      · rw [hids, htokens, hdecode, List.append_assoc, List.singleton_append]
      · rw [hcount, haudits, hdecode, List.length_cons, auditsFrom_succ i (_ : List τ).length,
          Nat.add_assoc]
      · rw [hdecode] at hk ⊢
        cases k with
        | zero =>
            rw [List.take_zero, List.append_nil]
            exact hagreed
        | succ k =>
            have hrest := hall k (Nat.lt_of_succ_lt_succ hk)
            rw [List.append_assoc, List.singleton_append] at hrest
            rw [List.take_succ_cons, show i + (k + 1) = i + 1 + k by omega]
            exact hrest
  | error stop =>
      cases stop with
      | failed => trivial
      | verification suspects =>
          obtain ⟨k, hk, hlength, haccused⟩ := h
          refine ⟨k + 1, Nat.succ_lt_succ hk, ?_, ?_⟩
          · rw [hdecode, List.length_cons, hlength]
          · rw [List.append_assoc, List.singleton_append] at haccused
            rw [hdecode, show i + (k + 1) = i + 1 + k by omega]
            exact haccused

omit [DecidableEq ρ] in
/-- The token that ends a generation. -/
theorem Faithful.last {n i : Nat} {rng : σ} {acc acc' : GenerationResult τ} {row : ℓ}
    (hrow : L.logits sequence = some row) (heos : opts.eos (opts.pick row rng).1 = true)
    (hagreed : Agreed L opts i sequence)
    (htokens : acc'.tokenIds = acc.tokenIds ++ [(opts.pick row rng).1])
    (haudits : acc'.audits = acc.audits + auditsFrom opts i 1) :
    Faithful L opts (n + 1) i sequence rng acc (.ok acc') := by
  have hdecode : decode L.logits opts.pick opts.eos (n + 1) sequence rng =
      [(opts.pick row rng).1] := by
    rw [decode, hrow]
    dsimp only
    rw [if_pos heos]
  refine ⟨?_, ?_, fun k hk => ?_⟩
  · rw [hdecode, htokens]
  · rw [hdecode, haudits, List.length_singleton]
  · rw [hdecode] at hk ⊢
    obtain rfl : k = 0 := Nat.lt_one_iff.mp hk
    rw [List.take_zero, List.append_nil]
    exact hagreed

omit [DecidableEq ρ] in
theorem auditsFrom_one (i : Nat) :
    auditsFrom opts i 1 = (opts.audits i).elim 0 fun _ => 1 := by
  rw [auditsFrom, List.range'_one, List.countP_singleton]
  cases opts.audits i with
  | none => rfl
  | some audit => rfl

variable (sched opts) in
/-- A round of the loop sends the sequence from where the cache ends: the caches are kept up to this
request, and the logits are those of the sequence. -/
theorem stepLogits_round (hid : sessionId ≠ "") (hk : Kept sessionId L hist w)
    (hround : hist.length = w.round + 1) (hprefixes : Prefixes hist sequence) {cached : Nat}
    (hcached : cached < sequence.length) :
    let extended := hist ++ [(sequence, startOf opts cached)]
    let outcome := stepLogits A sessionId sched opts sequence cached { w with round := w.round + 1 }
    Prefixes extended sequence ∧ extended.length = outcome.2.2.round + 1 ∧
      Kept sessionId L extended outcome.2.2 ∧
      ∀ row, outcome.1 = .value row → L.logits sequence = some row := by
  intro extended outcome
  have hextend : Prefixes extended sequence :=
    hprefixes.extend ((startOf_le cached).trans (Nat.le_of_lt hcached))
  have hnext : extended[w.round + 1]? = some (sequence, startOf opts cached) := by
    rw [← hround, List.getElem?_concat_length]
  have hkept : Kept sessionId L extended { w with round := w.round + 1 } :=
    ⟨(hk.mono _).tables, (hk.mono _).log, (hk.mono _).trace⟩
  obtain ⟨hlater, hk', hvalue⟩ := stepLogits_exact sched opts hid hkept hextend hnext hcached
  refine ⟨hextend, ?_, hk', hvalue⟩
  rw [hlater.round, List.length_append, hround]
  rfl

variable (A sessionId uuid sched opts) in
/-- The check of a step, where one is due. -/
def checkStep (i : Nat) (sequence : List τ) (row : ℓ) (s : Sites τ η ℓ κ ρ) :
    Except Stop Unit × Sites τ η ℓ κ ρ :=
  match opts.audits i with
  | some audit => check A sessionId uuid sched audit sequence row s
  | none => (.ok (), s)

variable (A sessionId uuid sched opts) in
theorem auditedLoop_succ (n i : Nat) (sequence : List τ) (cached : Nat) (rng : σ)
    (acc : GenerationResult τ) (s : Sites τ η ℓ κ ρ) :
    auditedLoop A sessionId uuid sched opts (n + 1) i sequence cached rng acc s =
      let w := s.world .pipeline
      match stepLogits A sessionId sched opts sequence cached { w with round := w.round + 1 } with
      | (.value row, recoveries, w) =>
        let (checked, s) := checkStep A sessionId uuid sched opts i sequence row (s.setWorld .pipeline w)
        match checked with
        | .error stop => (.error stop, s)
        | .ok _ =>
          let acc : GenerationResult τ := ⟨acc.tokenIds ++ [(opts.pick row rng).1],
            acc.cacheRecoveries + recoveries, acc.audits + auditsFrom opts i 1⟩
          if opts.eos (opts.pick row rng).1 then (.ok acc, s)
          else auditedLoop A sessionId uuid sched opts n (i + 1)
            (sequence ++ [(opts.pick row rng).1]) sequence.length (opts.pick row rng).2 acc s
      | (_, _, w) => (.error .failed, s.setWorld .pipeline w) := by
  rw [auditsFrom_one, auditedLoop]
  rfl

/-- What a step's check says when it comes to an end. -/
def Judged (L : Lawful (A.side .pipeline)) (opts : Settings τ ℓ σ) (i : Nat) (sequence : List τ) :
    Except Stop Unit → Prop
  | .ok _ => Agreed L opts i sequence
  | .error (.verification suspects) => Accused L opts i sequence suspects
  | .error .failed => True

variable (sched) in
/-- A check spares the generation, and passes or accuses by the logits of the sequence. -/
theorem checkStep_judged (hid : sessionId ≠ "") (hother : ∀ n, auditSession uuid n ≠ sessionId)
    (hprefixes : Prefixes hist sequence) (i : Nat) {row : ℓ} (hrow : L.logits sequence = some row)
    (s : Sites τ η ℓ κ ρ) :
    let outcome := checkStep A sessionId uuid sched opts i sequence row s
    Spared sessionId L hist s outcome.2 ∧ Judged L opts i sequence outcome.1 := by
  unfold checkStep
  cases haudit : opts.audits i with
  | none =>
      refine ⟨.refl s, fun audit h => ?_⟩
      rw [haudit] at h
      cases h
  | some audit =>
      refine ⟨check_spared sched L sequence audit hid hprefixes.compatible hother row s, ?_⟩
      have hpassed := @check_passed τ η ℓ κ ρ _ A sessionId sched s uuid sequence audit row
      have hraised := @check_raised τ η ℓ κ ρ _ A sessionId sched s uuid sequence audit row
      dsimp only
      cases hchecked : (check A sessionId uuid sched audit sequence row s).1 with
      | ok _ =>
          intro audit' h
          obtain rfl := Option.some.inj (haudit.symm.trans h)
          obtain ⟨reference, href, hagrees⟩ := hpassed hchecked
          exact ⟨row, reference, hrow, href, hagrees⟩
      | error stop =>
          cases stop with
          | failed => trivial
          | verification suspects =>
              obtain ⟨reference, href, hagrees, hsuspects⟩ := hraised hchecked
              exact ⟨audit, row, reference, haudit, hrow, href, hagrees, hsuspects⟩

/-- The loop ends with the tokens of the full model, all checked steps having agreed, or with an
accusation at the first one that does not. -/
theorem auditedLoop_faithful (hid : sessionId ≠ "") (hother : ∀ n, auditSession uuid n ≠ sessionId)
    (n i : Nat) {cached : Nat} (rng : σ) (acc : GenerationResult τ) {s : Sites τ η ℓ κ ρ}
    (hk : Kept sessionId L hist (s.world .pipeline))
    (hround : hist.length = (s.world .pipeline).round + 1) (hprefixes : Prefixes hist sequence)
    (hcached : cached < sequence.length) :
    Faithful L opts n i sequence rng acc
      (auditedLoop A sessionId uuid sched opts n i sequence cached rng acc s).1 := by
  induction n generalizing i sequence cached rng acc s hist with
  | zero => exact ⟨(List.append_nil _).symm, rfl, fun k hk => absurd hk (Nat.not_lt_zero k)⟩
  | succ n ih =>
      obtain ⟨hextend, hlength, hk', hvalue⟩ :=
        stepLogits_round sched opts hid hk hround hprefixes hcached
      rw [auditedLoop_succ]
      dsimp only
      generalize stepLogits A sessionId sched opts sequence cached
        { s.world .pipeline with round := (s.world .pipeline).round + 1 } = outcome at hlength hk' hvalue ⊢
      obtain ⟨outcome, recoveries, w'⟩ := outcome
      cases outcome with
      | miss => trivial
      | failed => trivial
      | value row =>
          have hrow := hvalue row rfl
          obtain ⟨hspared, hjudged⟩ := checkStep_judged sched hid hother hextend i hrow
            (s.setWorld .pipeline w')
          dsimp only
          generalize checkStep A sessionId uuid sched opts i sequence row (s.setWorld .pipeline w') =
            checked at hspared hjudged ⊢
          obtain ⟨checked, s'⟩ := checked
          cases checked with
          | error stop =>
              cases stop with
              | failed => trivial
              | verification suspects =>
                  refine ⟨0, Nat.succ_pos n, rfl, ?_⟩
                  rw [decode, List.append_nil]
                  exact hjudged
          | ok _ =>
              cases heos : opts.eos (opts.pick row rng).1 with
              | true =>
                  dsimp only
                  rw [if_pos rfl]
                  exact .last hrow heos hjudged rfl rfl
              | false =>
                  dsimp only
                  rw [if_neg Bool.false_ne_true]
                  have hround' : (hist ++ [(sequence, startOf opts cached)]).length =
                      (s'.world .pipeline).round + 1 := by
                    rw [hspared.later.round]
                    exact hlength
                  have hlonger : sequence.length < (sequence ++ [(opts.pick row rng).1]).length := by
                    rw [List.length_append]
                    exact Nat.lt_succ_self _
                  exact (ih (i + 1) (opts.pick row rng).2 _ (hspared.kept hk') hround'
                    (hextend.append _) hlonger).cons hrow heos hjudged rfl rfl

end Loop

/-! ### Generations -/

/-- Before anything of the session has been sent. -/
def Sites.init (tables : Side → Nat → ρ → Sessions κ) : Sites τ η ℓ κ ρ :=
  ⟨fun b => .init (tables b), 0⟩

section Generate

variable [DecidableEq ρ] (L : Lawful (A.side .pipeline)) {sessionId : String} {uuid : Nat → String}
  (hid : sessionId ≠ "") (hother : ∀ n, auditSession uuid n ≠ sessionId)
  (sched : Side → Schedule τ η ρ) (opts : Settings τ ℓ σ) (tables : Side → Nat → ρ → Sessions κ)
  (hnew : ∀ i r, (tables .pipeline i r).lookup sessionId = none) {inputIds : List τ}
  (hprompt : inputIds ≠ []) (maxNewTokens : Nat) (rng : σ)

include L hid hother hnew hprompt

theorem generateAudited_faithful :
    Faithful L opts maxNewTokens 0 inputIds rng ⟨[], 0, 0⟩
      (generateAudited A sessionId uuid sched opts inputIds maxNewTokens rng (.init tables)).1 := by
  have hprefixes : Prefixes [([], 0)] inputIds := by
    intro round hround
    obtain rfl := List.mem_singleton.mp hround
    exact ⟨List.nil_prefix, Nat.le_refl 0⟩
  have hk : Kept sessionId L [([], 0)]
      ((Sites.init tables : Sites τ η ℓ κ ρ).world .pipeline) := kept_init hnew
  exact auditedLoop_faithful hid hother maxNewTokens 0 rng _ hk rfl hprefixes
    (List.length_pos_iff.mpr hprompt)

/-- A generation with checks, with or without the cache, gives the tokens of the full model; it has
counted its checks, and at each of them the pipeline's logits agreed with the auditors'. -/
theorem generateAudited_exact {result : GenerationResult τ}
    (h : (generateAudited A sessionId uuid sched opts inputIds maxNewTokens rng
      (.init tables)).1 = .ok result) :
    result.tokenIds = decode L.logits opts.pick opts.eos maxNewTokens inputIds rng ∧
      result.audits = auditsFrom opts 0 result.tokenIds.length ∧
      ∀ k < result.tokenIds.length, Agreed L opts k (inputIds ++ result.tokenIds.take k) := by
  have hfaithful := generateAudited_faithful L hid hother sched opts tables hnew hprompt maxNewTokens rng
  rw [h] at hfaithful
  obtain ⟨hids, haudits, hall⟩ := hfaithful
  simp only [List.nil_append, Nat.zero_add] at hids haudits hall
  rw [hids]
  exact ⟨rfl, haudits, hall⟩

/-- A pipeline that computes as its auditors is never accused, whatever is lost on the way. -/
theorem honest_never_accused (hsame : ∀ i < A.size, A.model (.pipeline, i) = A.model (.auditor, i))
    (hself : ∀ audit, opts.audit = some audit → ∀ row, audit.agrees row row = true)
    (suspects : List Nat) :
    (generateAudited A sessionId uuid sched opts inputIds maxNewTokens rng (.init tables)).1 ≠
      .error (.verification suspects) := by
  intro h
  have hfaithful := generateAudited_faithful L hid hother sched opts tables hnew hprompt maxNewTokens rng
  rw [h] at hfaithful
  obtain ⟨k, -, -, audit, row, reference, haudit, hrow, href, hagrees, -⟩ := hfaithful
  have hne : inputIds ++ decode L.logits opts.pick opts.eos k inputIds rng ≠ [] :=
    List.append_ne_nil_of_left_ne_nil hprompt _
  have hchain : freshLogits A auditors (inputIds ++ decode L.logits opts.pick opts.eos k inputIds rng) =
      freshLogits A (fun _ => .pipeline) (inputIds ++ decode L.logits opts.pick opts.eos k inputIds rng) :=
    freshLogits_congr _ fun i hi => (hsame i hi).symm
  rw [freshLogits_lawful L hne, hrow, href] at hchain
  cases hchain
  rw [hself audit (audit_of_audits haudit) row] at hagrees
  cases hagrees

/-- When one stage computes differently from its auditor and a check fails, it is the one that is
named, unless the difference is not a number. -/
theorem deviating_stage_named {j : Nat} (hj : j < A.size)
    (hsame : ∀ i < A.size, i ≠ j → A.model (.pipeline, i) = A.model (.auditor, i))
    (hself : ∀ audit, opts.audit = some audit → ∀ row, audit.agrees row row = true)
    {suspects : List Nat}
    (h : (generateAudited A sessionId uuid sched opts inputIds maxNewTokens rng
      (.init tables)).1 = .error (.verification suspects)) :
    ∃ k audit row reference, opts.audits k = some audit ∧
      L.logits (inputIds ++ decode L.logits opts.pick opts.eos k inputIds rng) = some row ∧
      freshLogits A auditors
        (inputIds ++ decode L.logits opts.pick opts.eos k inputIds rng) = some reference ∧
      audit.agrees row reference = false ∧
      suspects = if audit.locate && (audit.similarity row reference).isSome then [j] else [] := by
  have hfaithful := generateAudited_faithful L hid hother sched opts tables hnew hprompt maxNewTokens rng
  rw [h] at hfaithful
  obtain ⟨k, -, -, audit, row, reference, haudit, hrow, href, hagrees, hsuspects⟩ := hfaithful
  rw [Nat.zero_add] at haudit
  have hne : inputIds ++ decode L.logits opts.pick opts.eos k inputIds rng ≠ [] :=
    List.append_ne_nil_of_left_ne_nil hprompt _
  have hnot : audit.differs reference reference = false :=
    differs_of_agrees (hself audit (audit_of_audits haudit) reference)
  refine ⟨k, audit, row, reference, haudit, hrow, href, hagrees, ?_⟩
  rw [hsuspects, suspectsOf_single hj hsame href hnot ((freshLogits_lawful L hne).trans hrow),
    differs_of_not_agrees hagrees]
  cases audit.locate with
  | true => rfl
  | false => rfl

end Generate

/-! ### Two stages of prefix sums and their auditors -/

/-- A stage that adds `shift` to its logits. -/
def shiftedSum (shift : Nat) : Model Nat Nat Nat Nat := { prefixSum with lmHead := (· + shift) }

def shiftedLaw (shift : Nat) {wrap : Tensor Nat → Inputs Nat Nat} (law : Law prefixSum wrap [] []) :
    Law (shiftedSum shift) wrap [] [] :=
  ⟨law.full, law.cacheOf, law.seqLen, law.fresh, law.forward, law.cached, law.crop⟩

def shiftAt (shift i : Nat) : Nat := if i = 1 then shift else 0

def shiftedSums (shift : Nat) : Deployment Nat Nat Nat Nat Bool :=
  { sums with model := fun i => shiftedSum (shiftAt shift i) }

def shiftedSumsLaw (shift : Nat) : Lawful (shiftedSums shift) where
  dims := []
  first := shiftedLaw (shiftAt shift 0) prefixSumOfIds
  later := fun i hi => shiftedLaw (shiftAt shift (i + 1)) (sumsLaw.later i hi)

def auditedSums (shift : Nat) : Audited Nat Nat Nat Nat Bool :=
  ⟨fun b => shiftedSums (if b = .pipeline then shift else 0), rfl⟩

/-- Every step is checked; rows are alike or not. -/
def everyStep (useKvCache : Bool) : Settings Nat Nat Unit :=
  ⟨useKvCache, 2, (· == 0), fun row _ => (row % 5, ()),
    some ⟨1, 1, true, fun a b => some (if a = b then 1 else 0), by decide⟩, fun _ => 0⟩

theorem everyStep_self {useKvCache : Bool} (audit : AuditConfig Nat)
    (h : (everyStep useKvCache).audit = some audit) (row : Nat) : audit.agrees row row = true := by
  cases h
  simp [AuditConfig.agrees]

/-- The generation loses requests and caches; the auditors answer. -/
def troubledPipeline : Side → Schedule Nat Nat Bool
  | .pipeline => troubled
  | .auditor => fun _ => ⟨[], true, 3, .answered⟩

theorem auditSession_ne_a (n : Nat) : auditSession toString n ≠ "a" := by
  intro h
  have hlength := @auditSession_length toString n
  rw [h] at hlength
  exact absurd hlength (by decide)

theorem generateAudited_exact_sums : ∃ result,
    (generateAudited (auditedSums 0) "a" toString troubledPipeline (everyStep true) [1, 2] 3 ()
      (.init fun _ _ _ => ∅)).1 = .ok result ∧ result.audits = 3 ∧
    result.tokenIds = decode (shiftedSumsLaw 0).logits (everyStep true).pick (everyStep true).eos 3
      [1, 2] () := by
  have hid : "a" ≠ "" := by decide
  have hrun : (generateAudited (auditedSums 0) "a" toString troubledPipeline (everyStep true) [1, 2] 3
      () (.init fun _ _ _ => ∅)).1 = .ok ⟨[4, 1, 4], 1, 3⟩ := by decide +kernel
  obtain ⟨hids, -, -⟩ := generateAudited_exact (A := auditedSums 0) (shiftedSumsLaw 0) hid
    auditSession_ne_a troubledPipeline (everyStep true) (fun _ _ _ => ∅) (fun _ _ => rfl)
    (by decide) 3 () hrun
  exact ⟨_, hrun, rfl, hids⟩

theorem honest_never_accused_sums :
    (generateAudited (auditedSums 0) "a" toString troubledPipeline (everyStep true) [1, 2] 3 ()
      (.init fun _ _ _ => ∅)).1 ≠ .error (.verification [0]) :=
  honest_never_accused (A := auditedSums 0) (shiftedSumsLaw 0) (by decide) auditSession_ne_a
    troubledPipeline (everyStep true) (fun _ _ _ => ∅) (fun _ _ => rfl) (by decide) 3 ()
    (fun _ _ => rfl) everyStep_self [0]

theorem deviating_stage_named_sums :
    (generateAudited (auditedSums 1) "a" toString troubledPipeline (everyStep true) [1, 2] 3 ()
      (.init fun _ _ _ => ∅)).1 = .error (.verification [1]) ∧
    ∃ audit : AuditConfig Nat, ∃ row reference, audit.agrees row reference = false ∧
      [1] = if audit.locate && (audit.similarity row reference).isSome then [1] else [] := by
  have hid : "a" ≠ "" := by decide
  have hrun : (generateAudited (auditedSums 1) "a" toString troubledPipeline (everyStep true) [1, 2] 3
      () (.init fun _ _ _ => ∅)).1 = .error (.verification [1]) := by decide +kernel
  have hsame : ∀ i < (auditedSums 1).size, i ≠ 1 →
      (auditedSums 1).model (.pipeline, i) = (auditedSums 1).model (.auditor, i) := by
    intro i hi hne
    obtain rfl : i = 0 := by
      have hsize : i < 2 := hi
      omega
    rfl
  obtain ⟨k, audit, row, reference, -, -, -, hagrees, hsuspects⟩ :=
    deviating_stage_named (A := auditedSums 1) (shiftedSumsLaw 1) hid auditSession_ne_a
      troubledPipeline (everyStep true) (fun _ _ _ => ∅) (fun _ _ => rfl) (by decide) 3 ()
      (by decide) hsame everyStep_self hrun
  exact ⟨hrun, audit, row, reference, hagrees, hsuspects⟩

end Distllm.Pipeline
