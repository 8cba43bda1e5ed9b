import Distllm.SpeculativeState

/-! The acceptance loop of speculative decoding, with everything that could go wrong in it: a lost
cache, an index out of range, a division by the number of tokens of a round, a round that gives
nothing. Whatever answers the requests, as long as an answer lists the target's choices along the
client's sequence and the new tokens, the loop returns the greedy decode of the target. -/

namespace Distllm.Speculative

open Decoding Pipeline

variable {τ η ℓ κ ρ δ σ : Type}

/-- Python's `xs[start:]`; a negative start counts from the end. -/
def sliceFrom (start : Int) (xs : List τ) : List τ :=
  xs.drop (if start < 0 then xs.length - start.natAbs else start.toNat)

theorem sliceFrom_natCast (start : Nat) (xs : List τ) : sliceFrom start xs = xs.drop start := by
  rw [sliceFrom, if_neg (by omega), Int.toNat_natCast]

/-- What the loop calls; the state is whatever the calls change. An answer of `verify` may depend
on the client's sequence, which the stages know from earlier requests. -/
structure Peers (τ σ : Type) where
  propose : List τ → Nat → σ → List τ × σ
  verify : List τ → Nat → List τ → σ → Outcome (List τ) × σ
  accept : Nat → σ → σ

inductive Ended (τ : Type) where
  | returned (result : SpeculativeResult τ)
  | verifyRaised
  | cacheRecoveryError
  | indexError
  | zeroDivisionError
  /-- So many rounds were not enough. -/
  | unfinished
  deriving DecidableEq

variable [DecidableEq τ]

/-- `while accepted < k and proposal[accepted] == predictions[accepted]`; `none` is an index out of
range. -/
def countAccepted (proposal predictions : List τ) : Nat → Nat → Option Nat
  | 0, accepted => some accepted
  | left + 1, accepted =>
    match proposal[accepted]?, predictions[accepted]? with
    | some p, some q => if p = q then countAccepted proposal predictions left (accepted + 1)
      else some accepted
    | _, _ => none

section Loop

variable (peers : Peers τ σ) (opts : Options τ) (maxNewTokens : Nat)

omit [DecidableEq τ] in
/-- Replay as long as the stages have lost the cache, so many times at most. -/
def whileLost (sequence proposal : List τ) (cached : Nat) :
    Nat → Outcome (List τ) × σ → Except (Ended τ) (List τ) × Nat × σ
  | _, (.value target, s) => (.ok target, 0, s)
  | _, (.failed, s) => (.error .verifyRaised, 0, s)
  | 0, (.miss, s) => (.error .cacheRecoveryError, 1, s)
  | left + 1, (.miss, s) =>
    let replayed := peers.verify sequence 0 (sequence ++ proposal) s
    let (target, recoveries, s) := whileLost sequence proposal cached left
      (replayed.1.map (sliceFrom cached), replayed.2)
    (target, recoveries + 1, s)

/-- What a round accepts: a part of the proposal and the target's token after it. -/
structure Accepted (τ : Type) where
  proposal : List τ
  accepted : Nat
  bonus : τ
  recoveries : Nat

/-- Compare the proposal with what the target says from the last pending token on. -/
def compare (k pending : Nat) (proposal target : List τ) (recoveries : Nat) :
    Except (Ended τ) (Accepted τ) :=
  let offset : Int := pending - 1
  let predictions := sliceFrom offset target
  match countAccepted proposal predictions k 0 with
  | none => .error .indexError
  | some accepted =>
    match predictions[accepted]? with
    | none => .error .indexError
    | some bonus => .ok ⟨proposal, accepted, bonus, recoveries⟩

/-- A round up to the tokens it gives. -/
def round (k : Nat) (sequence : List τ) (cached : Nat) (s : σ) :
    Except (Ended τ) (Accepted τ) × σ :=
  let proposed := peers.propose sequence k s
  let pending := sequence.drop cached
  let verified := whileLost peers sequence proposed.1 cached opts.maxRecoveries
    (peers.verify sequence cached (pending ++ proposed.1) proposed.2)
  (verified.1.bind fun target =>
    compare k pending.length proposed.1 target verified.2.1, verified.2.2)

/-- The loop over the rounds, at most `fuel` of them, with the tokens that each of them emits. -/
def acceptanceLoop : Nat → List τ → Nat → SpeculativeResult τ → σ → Ended τ × List (List τ) × σ
  | 0, _, _, result, s =>
    (if result.tokenIds.length < maxNewTokens then .unfinished else .returned result, [], s)
  | fuel + 1, sequence, cached, result, s =>
    if result.tokenIds.length < maxNewTokens then
      let room := maxNewTokens - result.tokenIds.length
      let k := min opts.k room
      match round peers opts k sequence cached s with
      | (.error ended, s) => (ended, [], s)
      | (.ok r, s) =>
        let (emitted, stop) := emit opts.eos room (r.proposal.take r.accepted ++ [r.bonus])
        let s := peers.accept (sequence.length + r.accepted) s
        let result : SpeculativeResult τ :=
          ⟨result.tokenIds ++ emitted, result.cacheRecoveries + r.recoveries, result.rounds + 1,
            result.proposedDraftTokens + k, result.acceptedDraftTokens + r.accepted⟩
        -- the time of a round after the first is divided by the number of its tokens
        if result.rounds ≠ 1 ∧ emitted = [] then (.zeroDivisionError, [emitted], s)
        else if stop then (.returned result, [emitted], s)
        else
          let (ended, log, s) :=
            acceptanceLoop fuel (sequence ++ emitted) (sequence.length + r.accepted) result s
          (ended, emitted :: log, s)
    else (.returned result, [], s)

/-- `maxNewTokens` rounds are meant to be enough. -/
def speculate (inputIds : List τ) (s : σ) : Ended τ × List (List τ) × σ :=
  acceptanceLoop peers opts maxNewTokens maxNewTokens inputIds 0 ⟨[], 0, 0, 0, 0⟩ s

end Loop

/-! ### Counting what agrees -/

/-- The loop counts how far the proposal agrees; it runs out of range exactly when the bonus token
would. -/
theorem countAccepted_bonus (proposal predictions : List τ) :
    ((countAccepted proposal predictions proposal.length 0).bind fun accepted =>
      predictions[accepted]?.map fun bonus => (accepted, bonus)) =
    predictions[agreement proposal predictions]?.map fun bonus =>
      (agreement proposal predictions, bonus) := by
  suffices h : ∀ done restP restQ : List τ,
      ((countAccepted (done ++ restP) (done ++ restQ) restP.length done.length).bind
        fun accepted => (done ++ restQ)[accepted]?.map fun bonus => (accepted, bonus)) =
      restQ[agreement restP restQ]?.map fun bonus =>
        (done.length + agreement restP restQ, bonus) by
    have hstart := h [] proposal predictions
    simpa using hstart
  intro done restP
  induction restP generalizing done with
  | nil =>
      intro restQ
      rw [List.length_nil, countAccepted, Option.bind_some,
        List.getElem?_append_right (Nat.le_refl _), Nat.sub_self]
      cases restQ <;> rfl
  | cons p restP ih =>
      intro restQ
      rw [List.length_cons, countAccepted, List.getElem?_append_right (Nat.le_refl _),
        List.getElem?_append_right (Nat.le_refl _), Nat.sub_self]
      cases restQ with
      | nil => rfl
      | cons q restQ =>
          simp only [List.getElem?_cons_zero]
          by_cases hpq : p = q
          · subst hpq
            have ih := ih (done ++ [p]) restQ
            rw [List.append_assoc, List.append_assoc, List.length_append, List.length_singleton,
              List.singleton_append, List.singleton_append] at ih
            rw [if_pos rfl, ih, agreement, if_pos rfl, List.getElem?_cons_succ]
            refine congrArg (Option.map · _) (funext fun bonus => ?_)
            rw [Nat.add_assoc, Nat.add_comm 1]
          · rw [if_neg hpq, Option.bind_some, List.getElem?_append_right (Nat.le_refl _),
              Nat.sub_self, agreement, if_neg hpq, Nat.add_zero]

/-- A round accepts what agrees, if the target says something after it. -/
theorem compare_eq {pending : Nat} (hpending : 0 < pending) (proposal answer : List τ)
    (recoveries : Nat) :
    compare proposal.length pending proposal answer recoveries =
      let predictions := answer.drop (pending - 1)
      match predictions[agreement proposal predictions]? with
      | none => .error .indexError
      | some bonus => .ok ⟨proposal, agreement proposal predictions, bonus, recoveries⟩ := by
  have hoffset : (pending : Int) - 1 = ((pending - 1 : Nat) : Int) := by omega
  rw [compare, hoffset, sliceFrom_natCast]
  dsimp only
  have hcount := countAccepted_bonus proposal (answer.drop (pending - 1))
  cases hbonus : (answer.drop (pending - 1))[agreement proposal (answer.drop (pending - 1))]? with
  | none =>
      rw [hbonus] at hcount
      cases haccepted : countAccepted proposal (answer.drop (pending - 1)) proposal.length 0 with
      | none => rfl
      | some accepted =>
          rw [haccepted, Option.bind_some, Option.map_none, Option.map_eq_none_iff] at hcount
          dsimp only
          rw [hcount]
  | some bonus =>
      rw [hbonus, Option.map_some] at hcount
      obtain ⟨accepted, haccepted, hmap⟩ := Option.bind_eq_some_iff.mp hcount
      obtain ⟨_, hbonus', hpair⟩ := Option.map_eq_some_iff.mp hmap
      obtain ⟨rfl, rfl⟩ := Prod.mk.inj hpair
      rw [haccepted]
      dsimp only
      rw [hbonus']

/-! ### Answers that list the target's choices -/

/-- Every answer lists the target's choices along the client's sequence and the new tokens. -/
def Peers.Lists (peers : Peers τ σ) (target : List τ → τ) : Prop :=
  ∀ sequence start tokens s answer, (peers.verify sequence start tokens s).1 = .value answer →
    answer = (List.range tokens.length).map fun i =>
      target (sequence.take start ++ tokens.take (i + 1))

variable {peers : Peers τ σ} {opts : Options τ} {maxNewTokens : Nat} {target : List τ → τ}
  {sequence proposal : List τ} {cached : Nat}

omit [DecidableEq τ] in
variable (target) in
/-- The target's choices along a proposal are predictions. -/
theorem predicts_range (sequence proposal : List τ) :
    Predicts (fun ys => some (target ys)) sequence proposal
      ((List.range (proposal.length + 1)).map fun i => target (sequence ++ proposal.take i)) := by
  induction proposal generalizing sequence with
  | nil => exact ⟨target sequence, by simp, rfl⟩
  | cons p proposal ih =>
      refine ⟨target sequence, _, ?_, rfl, ih (sequence ++ [p])⟩
      rw [List.length_cons, List.range_succ_eq_map, List.map_cons, List.map_map]
      simp only [List.take_zero, List.append_nil, List.cons.injEq, true_and]
      apply List.map_congr_left
      intro i _
      rw [Function.comp_apply, List.take_succ_cons, List.append_assoc, List.singleton_append]

omit [DecidableEq τ] in
variable (target) in
/-- A slice of the target's choices along the whole sequence and the proposal. -/
theorem drop_choices (start n : Nat) (full : List τ) :
    ((List.range (full.length - start)).map fun i =>
        target (full.take start ++ (full.drop start).take (i + 1))).drop n =
      (List.range (full.length - start - n)).map fun i => target (full.take (start + n + i + 1)) := by
  apply List.ext_getElem
  · simp
  · intro i h _
    rw [List.length_drop, List.length_map, List.length_range] at h
    simp only [List.getElem_drop, List.getElem_map, List.getElem_range]
    rw [← List.take_add]
    congr 2
    omega

omit [DecidableEq τ] in
/-- What holds of the first answer and of what is kept of every replay holds of the result. -/
theorem whileLost_rule {Q : List τ → Prop}
    (hreplay : ∀ s answer, (peers.verify sequence 0 (sequence ++ proposal) s).1 = .value answer →
      Q (sliceFrom cached answer))
    (left : Nat) (asked : Outcome (List τ) × σ)
    (hfirst : ∀ answer, asked.1 = .value answer → Q answer) {answer : List τ}
    (h : (whileLost peers sequence proposal cached left asked).1 = .ok answer) : Q answer := by
  induction left generalizing asked with
  | zero =>
      obtain ⟨outcome, s⟩ := asked
      cases outcome with
      | value first => exact hfirst answer (congrArg Outcome.value (Except.ok.inj h))
      | miss => cases h
      | failed => cases h
  | succ left ih =>
      obtain ⟨outcome, s⟩ := asked
      cases outcome with
      | value first => exact hfirst answer (congrArg Outcome.value (Except.ok.inj h))
      | failed => cases h
      | miss =>
          refine ih _ (fun kept hkept => ?_) h
          cases hanswer : (peers.verify sequence 0 (sequence ++ proposal) s).1 with
          | value whole =>
              rw [hanswer] at hkept
              obtain rfl := Outcome.value.inj hkept
              exact hreplay s whole hanswer
          | miss =>
              rw [hanswer] at hkept
              cases hkept
          | failed =>
              rw [hanswer] at hkept
              cases hkept

omit [DecidableEq τ] in
/-- Whether it was answered at once or after replays, a request gives the target's choices from the
cached position on. -/
theorem whileLost_lists (hlists : peers.Lists target) (hcached : cached < sequence.length)
    (left : Nat) (s : σ) {answer : List τ}
    (h : (whileLost peers sequence proposal cached left
      (peers.verify sequence cached (sequence.drop cached ++ proposal) s)).1 = .ok answer) :
    answer = (List.range ((sequence ++ proposal).length - cached)).map fun i =>
      target ((sequence ++ proposal).take (cached + i + 1)) := by
  have hle : cached ≤ sequence.length := Nat.le_of_lt hcached
  refine whileLost_rule (Q := (· = (List.range ((sequence ++ proposal).length - cached)).map fun i =>
    target ((sequence ++ proposal).take (cached + i + 1)))) (fun s answer hanswer => ?_) left _
    (fun answer hanswer => ?_) h
  · have hdrop := drop_choices target 0 cached (sequence ++ proposal)
    rw [List.drop_zero, Nat.sub_zero, Nat.zero_add, List.take_zero] at hdrop
    rw [hlists _ _ _ _ _ hanswer, sliceFrom_natCast, List.take_zero, hdrop]
  · have hdrop := drop_choices target cached 0 (sequence ++ proposal)
    rw [List.drop_zero, Nat.sub_zero, Nat.add_zero] at hdrop
    rw [hlists _ _ _ _ _ hanswer, ← List.drop_append_of_le_length hle, List.length_drop,
      ← List.take_append_of_le_length hle, hdrop]

omit [DecidableEq τ] in
/-- Read after the pending tokens, these are predictions along the proposal, one more than it has
tokens. -/
theorem predictions_eq (hcached : cached < sequence.length) {answer : List τ}
    (h : answer = (List.range ((sequence ++ proposal).length - cached)).map fun i =>
      target ((sequence ++ proposal).take (cached + i + 1))) :
    answer.drop ((sequence.drop cached).length - 1) =
      (List.range (proposal.length + 1)).map fun i => target (sequence ++ proposal.take i) := by
  rw [List.length_drop, h]
  apply List.ext_getElem
  · rw [List.length_drop, List.length_map, List.length_map, List.length_range, List.length_range,
      List.length_append]
    omega
  · intro i _ hi
    rw [List.length_map, List.length_range] at hi
    rw [List.getElem_drop, List.getElem_map, List.getElem_map, List.getElem_range,
      List.getElem_range]
    have hpos : cached + (sequence.length - cached - 1 + i) + 1 = sequence.length + i := by omega
    rw [hpos, List.take_length_add_append]

/-! ### The rounds -/

omit [DecidableEq τ] in
theorem whileLost_error {left : Nat} {asked : Outcome (List τ) × σ} {ended : Ended τ}
    (h : (whileLost peers sequence proposal cached left asked).1 = .error ended) :
    ended = .verifyRaised ∨ ended = .cacheRecoveryError := by
  induction left generalizing asked with
  | zero =>
      obtain ⟨outcome, s⟩ := asked
      cases outcome with
      | value first => cases h
      | miss => exact .inr (Except.error.inj h).symm
      | failed => exact .inl (Except.error.inj h).symm
  | succ left ih =>
      obtain ⟨outcome, s⟩ := asked
      cases outcome with
      | value first => cases h
      | miss => exact ih h
      | failed => exact .inl (Except.error.inj h).symm

omit [DecidableEq τ] in
/-- What is emitted while there is room for more leaves a token pending. -/
theorem emit_pending {eos : τ → Bool} {room accepted : Nat} {bonus : τ}
    (haccepted : accepted ≤ proposal.length)
    (hroom : (emit eos room (proposal.take accepted ++ [bonus])).1.length < room)
    (hstop : (emit eos room (proposal.take accepted ++ [bonus])).2 = false) :
    sequence.length + accepted <
      (sequence ++ (emit eos room (proposal.take accepted ++ [bonus])).1).length := by
  rw [emit_eq_self hroom hstop, List.length_append, List.length_append, List.length_take,
    List.length_singleton]
  omega

variable (opts) in
/-- A round finds every index in range, and what it accepts follows the target. -/
theorem round_sound (hproposed : ∀ sequence k s, (peers.propose sequence k s).1.length = k)
    (hlists : peers.Lists target) (hcached : cached < sequence.length) (k : Nat) (s : σ) :
    (∀ ended, (round peers opts k sequence cached s).1 = .error ended →
      ended = .verifyRaised ∨ ended = .cacheRecoveryError) ∧
    ∀ r, (round peers opts k sequence cached s).1 = .ok r → r.accepted ≤ k ∧
      r.accepted ≤ r.proposal.length ∧
      Follows (fun ys => some (target ys)) sequence (r.proposal.take r.accepted ++ [r.bonus]) := by
  rw [round]
  dsimp only
  have hlength := hproposed sequence k s
  generalize peers.propose sequence k s = proposed at hlength
  obtain ⟨proposal, s₁⟩ := proposed
  dsimp only at hlength ⊢
  cases hverified : (whileLost peers sequence proposal cached opts.maxRecoveries
      (peers.verify sequence cached (sequence.drop cached ++ proposal) s₁)).1 with
  | error ended =>
      refine ⟨?_, ?_⟩
      · intro ended' h
        obtain rfl := Except.error.inj h
        exact whileLost_error hverified
      · intro r h
        cases h
  | ok answer =>
      have hpending : 0 < (sequence.drop cached).length := by
        rw [List.length_drop]
        omega
      obtain ⟨bonus, hbonus, hfollows⟩ :=
        follows_accepted (predicts_range target sequence proposal)
      rw [← predictions_eq hcached (whileLost_lists hlists hcached _ s₁ hverified)] at hbonus hfollows
      rw [Except.bind, ← hlength, compare_eq hpending]
      dsimp only
      rw [hbonus]
      have hle := agreement_le proposal (answer.drop ((sequence.drop cached).length - 1))
      refine ⟨?_, ?_⟩
      · intro ended h
        cases h
      · intro r h
        obtain rfl := Except.ok.inj h
        exact ⟨hle, hle, hfollows⟩

/-- Nothing has gone wrong, and what is returned continues the tokens so far with the greedy
decode, in the rounds of the log; no more was accepted than proposed. -/
def Ended.Sound (opts : Options τ) (target : List τ → τ) (maxNewTokens : Nat)
    (sequence : List τ) (before : SpeculativeResult τ) (log : List (List τ)) : Ended τ → Prop
  | .returned result => result.tokenIds = before.tokenIds ++
        decode (fun ys => some (target ys)) (greedy id) opts.eos
          (maxNewTokens - before.tokenIds.length) sequence () ∧
      result.tokenIds = before.tokenIds ++ log.flatten ∧
      result.rounds = before.rounds + log.length ∧
      result.acceptedDraftTokens ≤ result.proposedDraftTokens
  | .verifyRaised | .cacheRecoveryError => True
  | .indexError | .zeroDivisionError | .unfinished => False

omit [DecidableEq τ] in
/-- Without room for a token nothing more is decoded. -/
theorem Ended.Sound.done {opts : Options τ} {result : SpeculativeResult τ}
    (hroom : ¬result.tokenIds.length < maxNewTokens)
    (haccepted : result.acceptedDraftTokens ≤ result.proposedDraftTokens) :
    (Ended.returned result).Sound opts target maxNewTokens sequence result [] := by
  rw [Nat.not_lt] at hroom
  refine ⟨?_, (List.append_nil _).symm, rfl, haccepted⟩
  rw [Nat.sub_eq_zero_of_le hroom, decode, List.append_nil]

omit [DecidableEq τ] in
/-- A round in front of the others: what it emits is decoded first. -/
theorem Ended.Sound.cons {opts : Options τ} {result after : SpeculativeResult τ} {ended : Ended τ}
    {emitted : List τ} {log : List (List τ)}
    (h : ended.Sound opts target maxNewTokens (sequence ++ emitted) after log)
    (htokens : after.tokenIds = result.tokenIds ++ emitted)
    (hrounds : after.rounds = result.rounds + 1)
    (hdecode : decode (fun ys => some (target ys)) (greedy id) opts.eos
        (maxNewTokens - result.tokenIds.length) sequence () =
      emitted ++ decode (fun ys => some (target ys)) (greedy id) opts.eos
        (maxNewTokens - after.tokenIds.length) (sequence ++ emitted) ()) :
    ended.Sound opts target maxNewTokens sequence result (emitted :: log) := by
  cases ended with
  | returned final =>
      obtain ⟨hfinal, hlog, hcount, hbound⟩ := h
      refine ⟨?_, ?_, ?_, hbound⟩
      · rw [hfinal, htokens, hdecode, htokens, List.append_assoc]
      · rw [hlog, htokens, List.flatten_cons, List.append_assoc]
      · rw [hcount, hrounds, List.length_cons, Nat.add_right_comm, Nat.add_assoc]
  | verifyRaised => trivial
  | cacheRecoveryError => trivial
  | indexError => exact h
  | zeroDivisionError => exact h
  | unfinished => exact h

/-- A run of the loop that is sound, with no empty round and no more rounds than there was room for
tokens. -/
def SoundRun (opts : Options τ) (target : List τ → τ) (maxNewTokens : Nat) (sequence : List τ)
    (before : SpeculativeResult τ) (run : Ended τ × List (List τ) × σ) : Prop :=
  run.1.Sound opts target maxNewTokens sequence before run.2.1 ∧
    (∀ emitted ∈ run.2.1, emitted ≠ []) ∧ run.2.1.length ≤ maxNewTokens - before.tokenIds.length

section Runs

variable {result after : SpeculativeResult τ} {emitted : List τ} {s : σ}

omit [DecidableEq τ] in
theorem SoundRun.done (hroom : ¬result.tokenIds.length < maxNewTokens)
    (haccepted : result.acceptedDraftTokens ≤ result.proposedDraftTokens) :
    SoundRun opts target maxNewTokens sequence result (.returned result, [], s) :=
  ⟨.done hroom haccepted, List.forall_mem_nil _, Nat.zero_le _⟩

omit [DecidableEq τ] in
theorem SoundRun.raised {ended : Ended τ} (h : ended = .verifyRaised ∨ ended = .cacheRecoveryError) :
    SoundRun opts target maxNewTokens sequence result (ended, [], s) := by
  refine ⟨?_, List.forall_mem_nil _, Nat.zero_le _⟩
  rcases h with rfl | rfl
  · trivial
  · trivial

omit [DecidableEq τ] in
/-- The round that stops: the decode is what it emits. -/
theorem SoundRun.last (htokens : after.tokenIds = result.tokenIds ++ emitted)
    (hrounds : after.rounds = result.rounds + 1)
    (hfewer : after.acceptedDraftTokens ≤ after.proposedDraftTokens)
    (hdecode : decode (fun ys => some (target ys)) (greedy id) opts.eos
      (maxNewTokens - result.tokenIds.length) sequence () = emitted)
    (hne : emitted ≠ []) (hroom : result.tokenIds.length < maxNewTokens) :
    SoundRun opts target maxNewTokens sequence result (.returned after, [emitted], s) := by
  refine ⟨⟨?_, ?_, hrounds, hfewer⟩, ?_, ?_⟩
  · rw [htokens, hdecode]
  · rw [htokens, List.flatten_singleton]
  · exact List.forall_mem_singleton.mpr hne
  · exact Nat.sub_pos_of_lt hroom

omit [DecidableEq τ] in
/-- A round and the rest of the loop. -/
theorem SoundRun.cons {run : Ended τ × List (List τ) × σ}
    (h : SoundRun opts target maxNewTokens (sequence ++ emitted) after run)
    (htokens : after.tokenIds = result.tokenIds ++ emitted)
    (hrounds : after.rounds = result.rounds + 1)
    (hdecode : decode (fun ys => some (target ys)) (greedy id) opts.eos
        (maxNewTokens - result.tokenIds.length) sequence () =
      emitted ++ decode (fun ys => some (target ys)) (greedy id) opts.eos
        (maxNewTokens - after.tokenIds.length) (sequence ++ emitted) ())
    (hne : emitted ≠ []) (hroom : result.tokenIds.length < maxNewTokens) :
    SoundRun opts target maxNewTokens sequence result (run.1, emitted :: run.2.1, run.2.2) := by
  obtain ⟨hsound, hfull, hshort⟩ := h
  refine ⟨hsound.cons htokens hrounds hdecode, List.forall_mem_cons.mpr ⟨hne, hfull⟩, ?_⟩
  have hpositive := List.length_pos_iff.mpr hne
  rw [htokens, List.length_append] at hshort
  rw [List.length_cons]
  omega

omit [DecidableEq τ] in
variable (opts) in
/-- What a round emits: a token at least, the first ones of the decode; and with room for more and no
stop a token stays pending. -/
theorem emit_round {r : Accepted τ} (hle : r.accepted ≤ r.proposal.length)
    (hfollows : Follows (fun ys => some (target ys)) sequence (r.proposal.take r.accepted ++ [r.bonus]))
    {room : Nat} (hroom : 0 < room) :
    let emission := emit opts.eos room (r.proposal.take r.accepted ++ [r.bonus])
    emission.1 ≠ [] ∧
      (decode (fun ys => some (target ys)) (greedy id) opts.eos room sequence () = emission.1 ++
        if emission.2 then [] else decode (fun ys => some (target ys)) (greedy id) opts.eos
          (room - emission.1.length) (sequence ++ emission.1) ()) ∧
      (emission.1.length < room → emission.2 = false →
        sequence.length + r.accepted < (sequence ++ emission.1).length) := by
  have hnext : ∀ ys, some (target ys) = (some (target ys)).map id := fun _ => rfl
  refine ⟨?_, decode_emit opts.eos hnext hfollows room, fun hmore hstop => emit_pending hle hmore hstop⟩
  exact List.length_pos_iff.mp (emit_pos hroom (by simp))

end Runs

/-- No round is empty, and there are no more of them than there is room for tokens. -/
theorem acceptanceLoop_sound (hproposed : ∀ sequence k s, (peers.propose sequence k s).1.length = k)
    (hlists : peers.Lists target) (fuel : Nat) {sequence : List τ} {cached : Nat}
    {result : SpeculativeResult τ} (s : σ) (hfuel : maxNewTokens - result.tokenIds.length ≤ fuel)
    (hpending : result.tokenIds.length < maxNewTokens → cached < sequence.length)
    (haccepted : result.acceptedDraftTokens ≤ result.proposedDraftTokens) :
    SoundRun opts target maxNewTokens sequence result
      (acceptanceLoop peers opts maxNewTokens fuel sequence cached result s) := by
  induction fuel generalizing sequence cached result s with
  | zero =>
      have hroom : ¬result.tokenIds.length < maxNewTokens := by omega
      rw [acceptanceLoop, if_neg hroom]
      exact .done hroom haccepted
  | succ fuel ih =>
      rw [acceptanceLoop]
      by_cases hroom : result.tokenIds.length < maxNewTokens
      swap
      · rw [if_neg hroom]
        exact .done hroom haccepted
      rw [if_pos hroom]
      dsimp only
      set room := maxNewTokens - result.tokenIds.length with hroomdef
      obtain ⟨herror, hok⟩ :=
        round_sound opts hproposed hlists (hpending hroom) (min opts.k room) s
      generalize round peers opts (min opts.k room) sequence cached s = rounded at herror hok
      obtain ⟨rounded, s₁⟩ := rounded
      cases rounded with
      | error ended => exact .raised (herror ended rfl)
      | ok r =>
          obtain ⟨hk, hle, hfollows⟩ := hok r rfl
          obtain ⟨hne, hdecode, hpend⟩ :=
            emit_round opts hle hfollows (Nat.sub_pos_of_lt hroom)
          rw [← hroomdef] at hne hdecode hpend
          dsimp only
          generalize emit opts.eos room (r.proposal.take r.accepted ++ [r.bonus]) = emission
            at hne hdecode hpend ⊢
          obtain ⟨emitted, stop⟩ := emission
          dsimp only at hne hdecode hpend ⊢
          rw [if_neg fun h : _ ∧ emitted = [] => hne h.2]
          have hfewer : result.acceptedDraftTokens + r.accepted ≤
              result.proposedDraftTokens + min opts.k room := Nat.add_le_add haccepted hk
          cases stop with
          | true =>
              rw [if_pos rfl]
              rw [if_pos rfl, List.append_nil] at hdecode
              exact .last rfl rfl hfewer hdecode hne hroom
          | false =>
              rw [if_neg Bool.false_ne_true]
              rw [if_neg Bool.false_ne_true] at hdecode
              have hrest : maxNewTokens - (result.tokenIds ++ emitted).length =
                  room - emitted.length := by
                rw [List.length_append, hroomdef, Nat.sub_sub]
              have hpositive := List.length_pos_iff.mpr hne
              rw [← hrest] at hdecode
              refine SoundRun.cons (ih _ ?_ (fun hmore => hpend ?_ rfl) hfewer) rfl rfl hdecode hne hroom
              · dsimp only
                omega
              · dsimp only at hmore
                rw [List.length_append] at hmore
                omega

/-- Whatever is proposed and however often the cache is lost, what is returned is the greedy decode
of the target; every round emits a token, and no index is out of range. -/
theorem speculate_greedy (hproposed : ∀ sequence k s, (peers.propose sequence k s).1.length = k)
    (hlists : peers.Lists target) {prompt : List τ} (hprompt : prompt ≠ []) (s : σ) :
    let run := speculate peers opts maxNewTokens prompt s
    (∀ result, run.1 = .returned result →
      result.tokenIds =
        decode (fun ys => some (target ys)) (greedy id) opts.eos maxNewTokens prompt () ∧
      result.tokenIds = run.2.1.flatten ∧ result.rounds = run.2.1.length ∧
      result.acceptedDraftTokens ≤ result.proposedDraftTokens) ∧
    (run.1 ≠ .indexError ∧ run.1 ≠ .zeroDivisionError ∧ run.1 ≠ .unfinished) ∧
    (∀ emitted ∈ run.2.1, emitted ≠ []) ∧ run.2.1.length ≤ maxNewTokens := by
  have hpending : ([] : List τ).length < maxNewTokens → 0 < prompt.length :=
    fun _ => List.length_pos_iff.mpr hprompt
  have hrun := @acceptanceLoop_sound _ _ _ peers opts maxNewTokens target hproposed hlists
    maxNewTokens prompt 0 ⟨[], 0, 0, 0, 0⟩ s (Nat.sub_le _ _) hpending (Nat.le_refl 0)
  dsimp only
  rw [speculate]
  generalize acceptanceLoop peers opts maxNewTokens maxNewTokens prompt 0 ⟨[], 0, 0, 0, 0⟩ s = run
    at hrun
  obtain ⟨ended, log, s₁⟩ := run
  obtain ⟨hsound, hfull, hshort⟩ := hrun
  dsimp only at hsound hfull hshort ⊢
  refine ⟨?_, ⟨?_, ?_, ?_⟩, hfull, hshort⟩
  · rintro result rfl
    obtain ⟨htokens, hlog, hrounds, hbound⟩ := hsound
    exact ⟨htokens, hlog, hrounds.trans (Nat.zero_add _), hbound⟩
  all_goals
    rintro rfl
    exact hsound

/-- The target counts the tokens modulo three, the draft always says two, and the stages lose the
cache of their second request. -/
def forgetfulPeers : Peers Nat Nat where
  propose := fun _ k calls => (List.replicate k 2, calls)
  verify := fun sequence start tokens calls =>
    (if calls = 1 then .miss
      else .value ((List.range tokens.length).map fun i =>
        (sequence.take start ++ tokens.take (i + 1)).length % 3), calls + 1)
  accept := fun _ calls => calls

theorem forgetfulPeers_lists : forgetfulPeers.Lists fun ys => ys.length % 3 := by
  intro sequence start tokens calls answer h
  dsimp only [forgetfulPeers] at h
  split at h
  · cases h
  · exact (Outcome.value.inj h).symm

theorem speculate_greedy_forgetful :
    let opts : Options Nat := ⟨2, 1, fun token => token == 9, by decide⟩
    speculate forgetfulPeers opts 6 [5, 5] 0 =
        (.returned ⟨[2, 0, 1, 2, 0, 1], 1, 4, 7, 2⟩, [[2, 0], [1], [2, 0], [1]], 5) ∧
      decode (fun ys : List Nat => some (ys.length % 3)) (greedy id) opts.eos 6 [5, 5] () =
        [2, 0, 1, 2, 0, 1] := by
  intro opts
  have hrun : speculate forgetfulPeers opts 6 [5, 5] 0 =
      (.returned ⟨[2, 0, 1, 2, 0, 1], 1, 4, 7, 2⟩, [[2, 0], [1], [2, 0], [1]], 5) := by decide
  have hgreedy := @speculate_greedy _ _ _ forgetfulPeers opts 6 _ (fun _ _ _ => List.length_replicate)
    forgetfulPeers_lists [5, 5] (by decide) 0
  exact ⟨hrun, (hgreedy.1 _ (congrArg Prod.fst hrun)).1.symm⟩

/-! ### The pipeline as the peers -/

section Pipeline

variable [DecidableEq ρ] (P : Deployment τ η ℓ κ ρ) (sessionId : String) (sched : Schedule τ η ρ)
  (D : DraftModel τ δ)

/-- The stages of a pipeline and the draft model of the client. -/
def pipelinePeers : Peers τ (World τ η ℓ κ ρ × Draft δ) where
  propose := fun sequence k (w, d) =>
    let (proposal, d) := propose D sequence k d
    (proposal, { w with round := w.round + 1 }, d)
  verify := fun _ start tokens (w, d) =>
    let (outcome, w) := verify P sessionId sched start tokens w
    (outcome, w, d)
  accept := fun valid (w, d) => (w, accept D valid d)

omit [DecidableEq τ] in
theorem proposeLoop_length (k : Nat) (new : List τ) (d : Draft δ) :
    (proposeLoop D k new d).1.length = k := by
  induction k generalizing new d with
  | zero => rfl
  | succ k ih =>
      rw [proposeLoop]
      exact congrArg Nat.succ (ih ..)

omit [DecidableEq τ] in
theorem propose_length (sequence : List τ) (k : Nat) (d : Draft δ) :
    (propose D sequence k d).1.length = k :=
  proposeLoop_length D k _ _

omit [DecidableEq τ] in
/-- The same replays; an exhausted client gives up. -/
theorem whileLost_recover (sequence proposal : List τ) (cached left : Nat)
    (asked : Outcome (List τ) × World τ η ℓ κ ρ) (d : Draft δ) :
    let lost := whileLost (pipelinePeers P sessionId sched D) sequence proposal cached left
      (asked.1, asked.2, d)
    let outcome := recover (replay P sessionId sched cached (sequence ++ proposal)) left asked
    lost.2.2 = (outcome.2.2, d) ∧ match lost.1 with
      | .ok target => outcome.1 = .value target ∧ lost.2.1 = outcome.2.1
      | .error _ => outcome.1 = .failed := by
  induction left generalizing asked with
  | zero =>
      obtain ⟨outcome, w⟩ := asked
      cases outcome with
      | value target => exact ⟨rfl, rfl, rfl⟩
      | miss => exact ⟨rfl, rfl⟩
      | failed => exact ⟨rfl, rfl⟩
  | succ left ih =>
      obtain ⟨outcome, w⟩ := asked
      cases outcome with
      | value target => exact ⟨rfl, rfl, rfl⟩
      | failed => exact ⟨rfl, rfl⟩
      | miss =>
          have hagain : whileLost (pipelinePeers P sessionId sched D) sequence proposal cached
              (left + 1) (.miss, w, d) =
              let again := replay P sessionId sched cached (sequence ++ proposal) w
              let lost := whileLost (pipelinePeers P sessionId sched D) sequence proposal cached
                left (again.1, again.2, d)
              (lost.1, lost.2.1 + 1, lost.2.2) := by
            have hslice : sliceFrom (cached : Int) = fun target : List τ => target.drop cached :=
              funext (sliceFrom_natCast cached)
            rw [whileLost, hslice]
            rfl
          obtain ⟨hworld, hlost⟩ := ih (replay P sessionId sched cached (sequence ++ proposal) w)
          rw [hagain, recover]
          refine ⟨hworld, ?_⟩
          dsimp only
          generalize (whileLost (pipelinePeers P sessionId sched D) sequence proposal cached left
            _).1 = lost at hlost
          cases lost with
          | ok target => exact ⟨hlost.1, congrArg Nat.succ hlost.2⟩
          | error ended => exact hlost

/-- What the client is given at the end. -/
def Ended.result? : Ended τ → Option (SpeculativeResult τ)
  | .returned result => some result
  | _ => none

variable {P sessionId sched D}

/-- A round of the client is a round of the loop. -/
theorem round_recover (k : Nat) (hcached : cached < sequence.length) (w : World τ η ℓ κ ρ)
    (d : Draft δ) :
    let proposed := propose D sequence k d
    let outcome := recover (replay P sessionId sched cached (sequence ++ proposed.1))
      opts.maxRecoveries (verify P sessionId sched cached (sequence.drop cached ++ proposed.1)
        { w with round := w.round + 1 })
    let rounded := round (pipelinePeers P sessionId sched D) opts k sequence cached (w, d)
    rounded.2 = (outcome.2.2, proposed.2) ∧ match outcome.1 with
      | .value target =>
        let predictions := target.drop ((sequence.drop cached).length - 1)
        let accepted := agreement proposed.1 predictions
        rounded.1 = match predictions[accepted]? with
          | none => .error .indexError
          | some bonus => .ok ⟨proposed.1, accepted, bonus, outcome.2.1⟩
      | _ => ∃ ended, rounded.1 = .error ended ∧ ended.result? = none := by
  intro proposed outcome
  obtain ⟨hworld, hlost⟩ := whileLost_recover P sessionId sched D sequence proposed.1 cached
    opts.maxRecoveries (verify P sessionId sched cached (sequence.drop cached ++ proposed.1)
      { w with round := w.round + 1 }) proposed.2
  have hrounded : round (pipelinePeers P sessionId sched D) opts k sequence cached (w, d) =
      let verified := whileLost (pipelinePeers P sessionId sched D) sequence proposed.1 cached
        opts.maxRecoveries ((verify P sessionId sched cached (sequence.drop cached ++ proposed.1)
          { w with round := w.round + 1 }).1, (verify P sessionId sched cached
            (sequence.drop cached ++ proposed.1) { w with round := w.round + 1 }).2, proposed.2)
      (verified.1.bind fun target =>
        compare k (sequence.drop cached).length proposed.1 target verified.2.1, verified.2.2) := rfl
  have hpending : 0 < (sequence.drop cached).length := by
    rw [List.length_drop]
    omega
  have hlength : proposed.1.length = k := propose_length D sequence k d
  rw [hrounded]
  generalize hverified : whileLost (pipelinePeers P sessionId sched D) sequence proposed.1 cached
    opts.maxRecoveries _ = lost at hworld hlost
  obtain ⟨lost, recoveries, s⟩ := lost
  refine ⟨hworld, ?_⟩
  cases lost with
  | ok target =>
      obtain ⟨hvalue, hrecoveries⟩ := hlost
      dsimp only at hrecoveries
      rw [hvalue, hrecoveries]
      dsimp only
      rw [Except.bind, ← hlength, compare_eq hpending]
  | error ended =>
      rw [hlost]
      refine ⟨ended, rfl, ?_⟩
      rcases whileLost_error (congrArg Prod.fst hverified) with rfl | rfl
      · rfl
      · rfl

theorem generateLoop_acceptanceLoop (fuel : Nat) {result : SpeculativeResult τ}
    (hfuel : maxNewTokens - result.tokenIds.length ≤ fuel)
    (hpending : result.tokenIds.length < maxNewTokens → cached < sequence.length)
    (w : World τ η ℓ κ ρ) (d : Draft δ) :
    let run := acceptanceLoop (pipelinePeers P sessionId sched D) opts maxNewTokens fuel sequence
      cached result (w, d)
    generateLoop P sessionId sched D opts maxNewTokens fuel sequence cached d result w =
      (run.1.result?, run.2.2.1) := by
  induction fuel generalizing sequence cached d result w with
  | zero =>
      rw [generateLoop, acceptanceLoop, if_neg (by omega)]
      rfl
  | succ fuel ih =>
      rw [generateLoop, acceptanceLoop]
      by_cases hroom : result.tokenIds.length < maxNewTokens
      swap
      · rw [if_neg hroom, if_pos (by omega)]
        rfl
      rw [if_pos hroom, if_neg (by omega)]
      dsimp only
      set room := maxNewTokens - result.tokenIds.length with hroomdef
      have hround := @round_recover _ _ _ _ _ _ _ opts sequence cached _ P sessionId sched D
        (min opts.k room) (hpending hroom) w d
      have hlength := propose_length D sequence (min opts.k room) d
      generalize propose D sequence (min opts.k room) d = proposed at hround hlength ⊢
      obtain ⟨proposal, d₁⟩ := proposed
      dsimp only at hround hlength ⊢
      generalize round (pipelinePeers P sessionId sched D) opts (min opts.k room) sequence cached
        (w, d) = rounded at hround ⊢
      generalize recover (replay P sessionId sched cached (sequence ++ proposal)) opts.maxRecoveries
        _ = outcome at hround ⊢
      obtain ⟨rounded, s⟩ := rounded
      obtain ⟨outcome, recoveries, w₁⟩ := outcome
      obtain ⟨rfl, hrounded⟩ := hround
      cases outcome with
      | miss =>
          obtain ⟨ended, rfl, hnone⟩ := hrounded
          exact congrArg (·, w₁) hnone.symm
      | failed =>
          obtain ⟨ended, rfl, hnone⟩ := hrounded
          exact congrArg (·, w₁) hnone.symm
      | value target =>
          dsimp only at hrounded ⊢
          generalize hpredictions : target.drop ((sequence.drop cached).length - 1) = predictions
            at hrounded ⊢
          cases hbonus : predictions[agreement proposal predictions]? with
          | none =>
              rw [hbonus] at hrounded
              rw [hrounded]
              rfl
          | some bonus =>
              rw [hbonus] at hrounded
              rw [hrounded]
              dsimp only
              have hemits : 0 < (emit opts.eos room
                  (proposal.take (agreement proposal predictions) ++ [bonus])).1.length :=
                emit_pos (by omega) (by simp)
              have hpend := @emit_pending _ sequence proposal opts.eos room _ bonus
                (agreement_le proposal predictions)
              generalize emit opts.eos room
                (proposal.take (agreement proposal predictions) ++ [bonus]) = emission
                at hemits hpend ⊢
              obtain ⟨emitted, stop⟩ := emission
              dsimp only at hemits hpend ⊢
              have hne : emitted ≠ [] := List.length_pos_iff.mp hemits
              rw [if_neg fun h : _ ∧ emitted = [] => hne h.2]
              cases stop with
              | true => rfl
              | false =>
                  refine ih ?_ (fun hmore => hpend ?_ rfl) w₁ _
                  · dsimp only
                    rw [List.length_append]
                    omega
                  · dsimp only at hmore
                    rw [List.length_append] at hmore
                    omega

/-- The client over a pipeline is the loop over the stages and the draft model. -/
theorem generateTokens_speculate {inputIds : List τ} (hprompt : inputIds ≠ [])
    (w : World τ η ℓ κ ρ) (d : Draft δ) :
    let run := speculate (pipelinePeers P sessionId sched D) opts maxNewTokens inputIds (w, d)
    generateTokens P sessionId sched D opts inputIds maxNewTokens d w =
      (run.1.result?, run.2.2.1) :=
  generateLoop_acceptanceLoop maxNewTokens (Nat.sub_le _ _)
    (fun _ => List.length_pos_iff.mpr hprompt) w d

end Pipeline

end Distllm.Speculative
