import Distllm.PipelineExact
import Distllm.SpeculativeState

/-! Speculative decoding is exact as long as no replica is left behind. A cache holds the sequence
of the round in which it was last written, rejected tokens included; the next round starts where
the two still agree, but a later one need not. So a request may find a cache of the round before
its own or of a later one, unless the cache is too short for it. -/

namespace Distllm.Speculative

open Stage Decoding Pipeline

variable {τ η ℓ κ ρ δ : Type} {P : Deployment τ η ℓ κ ρ} {L : Lawful P} {sessionId : String}

/-! ### The target model -/

/-- The target model's choice after every position. -/
def choices (L : Lawful P) : Causal τ τ :=
  (L.hidden Lawful.last Lawful.last_lt).map fun x =>
    (P.model (Lawful.last (P := P))).argmax (Lawful.lmHead P x)

/-- The target model's choice after a sequence. -/
def argmax (P : Deployment τ η ℓ κ ρ) : ℓ → τ := (P.model (Lawful.last (P := P))).argmax

theorem choices_getLast? (ys : List τ) :
    (L.logits ys).map (argmax P) = (choices L ys).getLast? := by
  rw [Lawful.logits, choices, Causal.map_apply, List.getLast?_map, Option.map_map]
  rfl

theorem argmaxKey_finalAnswer {ys target : List τ} {a : Nat}
    (h : argmaxKey (finalAnswer L true ys a) = some target) : target = (choices L ys).drop a := by
  unfold finalAnswer at h
  simp only [if_true] at h
  obtain rfl := Option.some.inj h
  rw [choices, Causal.map_apply, List.map_drop]
  rfl

/-! ### Histories -/

/-- A request of a round may find a cache of the round before it, or of a later one. -/
def UpToDate (written round : Nat) : Prop := round ≤ written + 1

instance : DecidableRel UpToDate := fun q r => inferInstanceAs (Decidable (r ≤ q + 1))

/-- What the rounds so far have in common with the sequence of the client, of which `cached`
positions are valid in the caches of the last round. -/
structure Histories (hist : History τ) (sequence : List τ) (cached : Nat) : Prop where
  compatible : Compatible UpToDate hist
  past : ∀ round ∈ hist, round.2 ≤ sequence.length ∧
    round.1.take round.2 = sequence.take round.2
  last : ∀ round, hist[hist.length - 1]? = some round → cached ≤ round.1.length →
    round.1.take cached = sequence.take cached
  pending : cached < sequence.length

variable {hist : History τ} {sequence proposal : List τ} {cached : Nat}

theorem Histories.init {prompt : List τ} (h : prompt ≠ []) :
    Histories [([], 0)] prompt 0 := by
  refine ⟨fun q r ys start zs a hq hr _ _ => ?_, fun round hround => ?_, fun _ _ _ => rfl,
    List.length_pos_iff.mpr h⟩
  · obtain ⟨_, rfl⟩ := Prod.mk.inj (List.mem_singleton.mp (List.mem_of_getElem? hr))
    rfl
  · obtain rfl := List.mem_singleton.mp hround
    exact ⟨Nat.zero_le _, rfl⟩

/-- A new round may meet the one before it, and the older ones may meet the new one. -/
theorem Histories.extend (h : Histories hist sequence cached) (proposal : List τ) :
    Compatible UpToDate (hist ++ [(sequence ++ proposal, cached)]) := by
  have hcached : (sequence ++ proposal).take cached = sequence.take cached :=
    List.take_append_of_le_length (Nat.le_of_lt h.pending)
  intro q r ys start zs a hq hr hmeets hle
  have hlast {n : Nat} {x : List τ × Nat}
      (hn : (hist ++ [(sequence ++ proposal, cached)])[n]? = some x) :
      hist[n]? = some x ∨ n = hist.length ∧ x = (sequence ++ proposal, cached) := by
    rw [List.getElem?_append] at hn
    split at hn
    · exact .inl hn
    · rw [List.getElem?_singleton] at hn
      split at hn
      · right
        have hle : hist.length ≤ n := Nat.not_lt.mp ‹_›
        exact ⟨by omega, (Option.some.inj hn).symm⟩
      · cases hn
  rcases hlast hr with hr | ⟨rfl, hx⟩
  · rcases hlast hq with hq | ⟨rfl, hx⟩
    · exact h.compatible q r ys start zs a hq hr hmeets hle
    · cases hx
      obtain ⟨hstart, htake⟩ := h.past _ (List.mem_of_getElem? hr)
      rw [List.take_append_of_le_length hstart]
      exact htake.symm
  · cases hx
    rcases hlast hq with hq | ⟨rfl, hx⟩
    · have hlt := (List.getElem?_eq_some_iff.mp hq).1
      have hprev : q = hist.length - 1 := by
        unfold UpToDate at hmeets
        omega
      rw [hcached]
      exact h.last (zs, a) (hprev ▸ hq) hle
    · cases hx
      rfl

/-- After a round the accepted part of the proposal and one more token have been added. -/
theorem Histories.advance (h : Histories hist sequence cached) {accepted : Nat}
    (haccepted : accepted ≤ proposal.length) (bonus : τ) :
    Histories (hist ++ [(sequence ++ proposal, cached)])
      (sequence ++ (proposal.take accepted ++ [bonus])) (sequence.length + accepted) where
  compatible := h.extend proposal
  past := fun round hround => by
    rw [List.length_append]
    rcases List.mem_append.mp hround with hround | hround
    · obtain ⟨hle, htake⟩ := h.past round hround
      exact ⟨Nat.le_add_right_of_le hle, by rw [List.take_append_of_le_length hle, htake]⟩
    · obtain rfl := List.mem_singleton.mp hround
      have hle : cached ≤ sequence.length := Nat.le_of_lt h.pending
      exact ⟨Nat.le_add_right_of_le hle, by
        rw [List.take_append_of_le_length hle, List.take_append_of_le_length hle]⟩
  last := fun round hround _ => by
    rw [List.length_append, List.length_singleton, Nat.add_sub_cancel,
      List.getElem?_concat_length] at hround
    cases hround
    rw [List.take_length_add_append, List.take_length_add_append,
      List.take_append_of_le_length (by rw [List.length_take]; omega), List.take_take,
      Nat.min_self]
  pending := by
    rw [List.length_append, List.length_append, List.length_take, List.length_singleton]
    omega

/-! ### A round -/

section Rounds

variable [DecidableEq ρ] {sched : Schedule τ η ρ} {w : World τ η ℓ κ ρ}

/-- The executions of a world respect the condition. -/
def AllUpToDate (sessionId : String) (w : World τ η ℓ κ ρ) : Prop :=
  ∀ x ∈ w.trace, x.Meets sessionId UpToDate

omit [DecidableEq ρ] in
instance (w : World τ η ℓ κ ρ) : Decidable (AllUpToDate sessionId w) :=
  inferInstanceAs (Decidable (∀ x ∈ w.trace, x.Meets sessionId UpToDate))

theorem replay_later (full : List τ) (w : World τ η ℓ κ ρ) :
    Later w (replay P sessionId sched cached full w).2 :=
  step_later _ w

variable (sched) in
/-- Whatever is lost on the way, the verified tokens are the target's choices after the valid
positions. -/
theorem verify_exact (hid : sessionId ≠ "") (hk : Kept sessionId L hist w) {full : List τ}
    (hcompat : Compatible UpToDate hist) (hhist : hist[w.round]? = some (full, cached))
    (hcached : cached < full.length) (n : Nat) :
    let outcome := recover (replay P sessionId sched cached full) n
      (verify P sessionId sched cached (full.drop cached) w)
    Later w outcome.2.2 ∧ (AllUpToDate sessionId outcome.2.2 →
      Kept sessionId L hist outcome.2.2 ∧
        ∀ target, outcome.1 = .value target → target = (choices L full).drop cached) := by
  have hfirst : Reached sessionId w L UpToDate hist (· = (choices L full).drop cached)
      (verify P sessionId sched cached (full.drop cached) w) := by
    obtain ⟨hlater, hstep⟩ := step_reached sched argmaxKey hid hcompat hhist
      (.inr rfl) (carries_tokens true true hcached) (.refl w) fun _ => hk
    exact ⟨hlater, fun hmeets => ⟨(hstep hmeets).1, fun target htarget =>
      argmaxKey_finalAnswer ((hstep hmeets).2 target htarget)⟩⟩
  refine recover_reached hfirst (fun w' hlater hk' => ?_) n
  have hpositive : 0 < full.length := Nat.zero_lt_of_lt hcached
  obtain ⟨hlater', hstep⟩ := step_reached sched argmaxKey hid hcompat hhist
    (.inl rfl) (carries_tokens true true hpositive) hlater hk'
  refine ⟨hlater', fun hmeets => ⟨(hstep hmeets).1, fun target htarget => ?_⟩⟩
  unfold replay at htarget
  dsimp only at htarget
  generalize houtcome : (verify P sessionId sched 0 full w').1 = outcome at htarget
  cases outcome with
  | miss => cases htarget
  | failed => cases htarget
  | value whole =>
      cases htarget
      rw [argmaxKey_finalAnswer ((hstep hmeets).2 whole houtcome), List.drop_zero]

variable (sessionId cached sched) in
theorem round_later (full tokens : List τ) (n : Nat) (w : World τ η ℓ κ ρ) :
    Later w (recover (replay P sessionId sched cached full) n
      (verify P sessionId sched cached tokens w)).2.2 :=
  recover_rule (Q := fun x => Later w x.2) (fun w' h => h.trans (replay_later full w'))
    (fun _ h => h) n _ (step_later _ w)

variable (sched) in
/-- A round verifies the pending tokens and the proposal against the target's choices. -/
theorem round_exact (hid : sessionId ≠ "") (hk : Kept sessionId L hist w)
    (hround : hist.length = w.round + 1) (hhist : Histories hist sequence cached)
    (proposal : List τ) (n : Nat) :
    let outcome := recover (replay P sessionId sched cached (sequence ++ proposal)) n
      (verify P sessionId sched cached (sequence.drop cached ++ proposal)
        { w with round := w.round + 1 })
    Later { w with round := w.round + 1 } outcome.2.2 ∧ (AllUpToDate sessionId outcome.2.2 →
      Kept sessionId L (hist ++ [(sequence ++ proposal, cached)]) outcome.2.2 ∧
        ∀ target, outcome.1 = .value target →
          target = (choices L (sequence ++ proposal)).drop cached) := by
  have hpending := hhist.pending
  have hkept : Kept sessionId L (hist ++ [(sequence ++ proposal, cached)])
      { w with round := w.round + 1 } :=
    ⟨(hk.mono _).tables, (hk.mono _).log, (hk.mono _).trace⟩
  have hnow : (hist ++ [(sequence ++ proposal, cached)])[w.round + 1]? =
      some (sequence ++ proposal, cached) := by
    rw [← hround, List.getElem?_concat_length]
  have hlt : cached < (sequence ++ proposal).length := by
    rw [List.length_append]
    omega
  rw [← List.drop_append_of_le_length (Nat.le_of_lt hpending)]
  exact verify_exact sched hid hkept (hhist.extend proposal) hnow hlt n

/-! ### The loop -/

variable [DecidableEq τ] {D : DraftModel τ δ} {opts : Options τ} {max fuel : Nat}

/-- What the loop does with the answer of a round, and all that comes after it. -/
def afterRound (P : Deployment τ η ℓ κ ρ) (sessionId : String) (sched : Schedule τ η ρ)
    (D : DraftModel τ δ) (opts : Options τ) (max fuel : Nat) (sequence : List τ) (cached : Nat)
    (proposal target : List τ) (recoveries : Nat) (d : Draft δ) (acc : SpeculativeResult τ)
    (w : World τ η ℓ κ ρ) : Option (SpeculativeResult τ) × World τ η ℓ κ ρ :=
  let room := max - acc.tokenIds.length
  let predictions := target.drop ((sequence.drop cached).length - 1)
  let accepted := agreement proposal predictions
  match predictions[accepted]? with
  | none => (none, w)
  | some bonus =>
    let (emitted, stop) := emit opts.eos room (proposal.take accepted ++ [bonus])
    let acc : SpeculativeResult τ :=
      ⟨acc.tokenIds ++ emitted, acc.cacheRecoveries + recoveries, acc.rounds + 1,
        acc.proposedDraftTokens + min opts.k room, acc.acceptedDraftTokens + accepted⟩
    let valid := sequence.length + accepted
    if stop then (some acc, w)
    else generateLoop P sessionId sched D opts max fuel (sequence ++ emitted) valid
      (accept D valid d) acc w

theorem generateLoop_succ (sequence : List τ) (cached : Nat) (d : Draft δ) (acc : SpeculativeResult τ) (w : World τ η ℓ κ ρ) :
    generateLoop P sessionId sched D opts max (fuel + 1) sequence cached d acc w =
      if max - acc.tokenIds.length = 0 then (some acc, w)
      else
        let (proposal, d) := propose D sequence (min opts.k (max - acc.tokenIds.length)) d
        match recover (replay P sessionId sched cached (sequence ++ proposal)) opts.maxRecoveries
            (verify P sessionId sched cached (sequence.drop cached ++ proposal)
              { w with round := w.round + 1 }) with
        | (.value target, recoveries, w) =>
          afterRound P sessionId sched D opts max fuel sequence cached proposal target recoveries d acc w
        | (_, _, w) => (none, w) := by
  rw [generateLoop]
  rfl

theorem afterRound_trace {target : List τ} {recoveries : Nat} {d : Draft δ}
    {acc : SpeculativeResult τ} (htrace : ∀ (sequence : List τ) (cached : Nat) (d : Draft δ)
      (acc : SpeculativeResult τ), w.trace <+:
        (generateLoop P sessionId sched D opts max fuel sequence cached d acc w).2.trace) :
    w.trace <+: (afterRound P sessionId sched D opts max fuel sequence cached proposal target
      recoveries d acc w).2.trace := by
  unfold afterRound
  dsimp only
  split
  · exact List.prefix_rfl
  · split
    · exact List.prefix_rfl
    · exact htrace ..

theorem generateLoop_trace (fuel : Nat) (sequence : List τ) (cached : Nat) (d : Draft δ)
    (acc : SpeculativeResult τ) (w : World τ η ℓ κ ρ) :
    w.trace <+:
      (generateLoop P sessionId sched D opts max fuel sequence cached d acc w).2.trace := by
  induction fuel generalizing sequence cached d acc w with
  | zero => exact List.prefix_rfl
  | succ fuel ih =>
      rw [generateLoop_succ]
      split
      · exact List.prefix_rfl
      · generalize propose D sequence (min opts.k (max - acc.tokenIds.length)) d = proposed
        obtain ⟨proposal, d'⟩ := proposed
        dsimp only
        have hround := (round_later (P := P) sessionId cached sched (sequence ++ proposal)
          (sequence.drop cached ++ proposal) opts.maxRecoveries { w with round := w.round + 1 }).trace
        generalize recover _ opts.maxRecoveries _ = outcome at hround ⊢
        obtain ⟨outcome, recoveries, w'⟩ := outcome
        cases outcome with
        | miss => exact hround
        | failed => exact hround
        | value target =>
            exact hround.trans (afterRound_trace fun sequence cached d acc => ih sequence cached d acc w')

theorem generateLoop_done {d : Draft δ} {acc : SpeculativeResult τ}
    (h : max - acc.tokenIds.length = 0) :
    generateLoop P sessionId sched D opts max fuel sequence cached d acc w = (some acc, w) := by
  cases fuel with
  | zero => rfl
  | succ fuel => rw [generateLoop_succ, if_pos h]

/-- The execution is a miss, or its answer is what the stage computes from scratch on accepted
tokens followed by the new tokens of the request. -/
def Grounded (L : Lawful P) (sessionId : String) (final : List τ)
    (x : Execution τ η ℓ κ ρ) : Prop :=
  ∃ (hi : x.sent.role < P.size) (ys : List τ) (a : Nat),
    L.Carries sessionId x.sent.role hi x.sent.payload ys a ∧ ys.take a <+: final ∧
      ((∃ cached, x.result = .ok (.cacheMiss cached)) ∨
        x.result = .ok (L.answerAt x.sent.role hi x.sent.payload ys a))

omit [DecidableEq ρ] [DecidableEq τ] in
theorem grounded_of_kept {final : List τ} (hk : Kept sessionId L hist w)
    (hpast : ∀ round ∈ hist, round.1.take round.2 = sequence.take round.2)
    (hfinal : sequence <+: final) : ∀ x ∈ w.trace, Grounded L sessionId final x := by
  intro x hx
  obtain ⟨hi, ys, start, a, hhist, ha, hp, hresult⟩ := hk.trace x hx
  refine ⟨hi, ys, a, hp, ?_, hresult⟩
  rcases ha with rfl | rfl
  · exact List.nil_prefix
  · have htake : ys.take a = sequence.take a := hpast (ys, a) (List.mem_of_getElem? hhist)
    rw [htake]
    exact (List.take_prefix a sequence).trans hfinal

omit [DecidableEq ρ] [DecidableEq τ] in
theorem grounded_round {final : List τ}
    (hk : Kept sessionId L (hist ++ [(sequence ++ proposal, cached)]) w)
    (hhist : Histories hist sequence cached) (hfinal : sequence <+: final) :
    ∀ x ∈ w.trace, Grounded L sessionId final x := by
  refine grounded_of_kept hk (fun round h => ?_) hfinal
  rcases List.mem_append.mp h with h | h
  · exact (hhist.past round h).2
  · obtain rfl := List.mem_singleton.mp h
    exact List.take_append_of_le_length (Nat.le_of_lt hhist.pending)

omit [DecidableEq ρ] in
/-- The predictions of a round, read after the pending tokens: the accepted part of the proposal
and the bonus token follow the target's greedy choice. -/
theorem follows_round (h : cached < sequence.length) (proposal : List τ) :
    let predictions := ((choices L (sequence ++ proposal)).drop cached).drop
      ((sequence.drop cached).length - 1)
    ∃ bonus, predictions[agreement proposal predictions]? = some bonus ∧
      Follows (fun ys => (L.logits ys).map (argmax P)) sequence
        (proposal.take (agreement proposal predictions) ++ [bonus]) := by
  have hoffset : cached + ((sequence.drop cached).length - 1) = sequence.length - 1 := by
    rw [List.length_drop]
    omega
  rw [List.drop_drop, hoffset]
  exact follows_accepted (predicts_drop (choices L) choices_getLast?
    (List.ne_nil_of_length_pos (Nat.zero_lt_of_lt h)) proposal)

/-- What the loop comes to, if no request in it finds a cache left behind: the tokens so far and then
the greedy decode, and no stage has answered from rejected tokens. -/
def Exact (L : Lawful P) (sessionId : String) (opts : Options τ) (max : Nat) (prompt sequence : List τ)
    (acc : SpeculativeResult τ) (outcome : Option (SpeculativeResult τ) × World τ η ℓ κ ρ) : Prop :=
  AllUpToDate sessionId outcome.2 → ∀ result, outcome.1 = some result →
    result.tokenIds = acc.tokenIds ++ decode L.logits (greedy (argmax P)) opts.eos
        (max - acc.tokenIds.length) sequence () ∧
      ∀ x ∈ outcome.2.trace, Grounded L sessionId (prompt ++ result.tokenIds) x

omit [DecidableEq ρ] [DecidableEq τ] in
/-- Without room for a token the loop is at its end. -/
theorem Exact.done {prompt : List τ} {acc : SpeculativeResult τ} (hk : Kept sessionId L hist w)
    (hhist : Histories hist sequence cached) (hsequence : sequence = prompt ++ acc.tokenIds)
    (hroom : max - acc.tokenIds.length = 0) :
    Exact L sessionId opts max prompt sequence acc (some acc, w) := by
  rintro - result h
  cases h
  rw [hroom, decode, List.append_nil]
  exact ⟨rfl, grounded_of_kept hk (fun round h => (hhist.past round h).2) (hsequence ▸ List.prefix_rfl)⟩

/-- A round emits what the greedy decode begins with; with room left and no stop all that it accepted is
emitted, and the rest of the loop goes on from there. -/
theorem afterRound_exact {prompt : List τ} {acc : SpeculativeResult τ} {recoveries : Nat} {d : Draft δ}
    (hk : Kept sessionId L (hist ++ [(sequence ++ proposal, cached)]) w)
    (hhist : Histories hist sequence cached) (hsequence : sequence = prompt ++ acc.tokenIds)
    (hrest : ∀ (accepted : Nat) (bonus : τ) (d : Draft δ) (acc' : SpeculativeResult τ),
      accepted ≤ proposal.length →
      acc'.tokenIds = acc.tokenIds ++ (proposal.take accepted ++ [bonus]) →
      Exact L sessionId opts max prompt (sequence ++ (proposal.take accepted ++ [bonus])) acc'
        (generateLoop P sessionId sched D opts max fuel
          (sequence ++ (proposal.take accepted ++ [bonus])) (sequence.length + accepted) d acc' w)) :
    Exact L sessionId opts max prompt sequence acc
      (afterRound P sessionId sched D opts max fuel sequence cached proposal
        ((choices L (sequence ++ proposal)).drop cached) recoveries d acc w) := by
  intro hmeets result h
  unfold afterRound at h hmeets ⊢
  obtain ⟨bonus, hbonus, hfollows⟩ := follows_round (L := L) hhist.pending proposal
  dsimp only at h hmeets ⊢
  rw [hbonus] at h hmeets ⊢
  dsimp only at h hmeets ⊢
  generalize haccepted : agreement proposal (((choices L (sequence ++ proposal)).drop
    cached).drop ((sequence.drop cached).length - 1)) = accepted at h hmeets hfollows ⊢
  have hle : accepted ≤ proposal.length := haccepted ▸ agreement_le ..
  set run := proposal.take accepted ++ [bonus] with hrun
  set room := max - acc.tokenIds.length with hroomdef
  have hdecode := decode_emit opts.eos (fun _ => rfl) hfollows room
  have hextends : sequence <+: prompt ++ (acc.tokenIds ++ (emit opts.eos room run).1) := by
    rw [hsequence, ← List.append_assoc]
    exact List.prefix_append ..
  have hground := grounded_round hk hhist hextends
  by_cases hstop : (emit opts.eos room run).2 = true
  · rw [if_pos hstop] at h ⊢
    cases h
    rw [hdecode, if_pos hstop, List.append_nil]
    exact ⟨rfl, hground⟩
  · rw [if_neg hstop] at h hmeets ⊢
    rw [hdecode, if_neg hstop]
    have hleft : max - (acc.tokenIds ++ (emit opts.eos room run).1).length =
        room - (emit opts.eos room run).1.length := by
      rw [List.length_append, hroomdef, Nat.sub_sub]
    by_cases hmore : (emit opts.eos room run).1.length < room
    · have hemitted := emit_eq_self hmore (Bool.not_eq_true _ ▸ hstop)
      rw [hemitted] at h hmeets hleft ⊢
      obtain ⟨htokens, htrace⟩ := hrest accepted bonus _ _ hle rfl hmeets result h
      dsimp only at htokens
      rw [hleft] at htokens
      exact ⟨by rw [htokens, List.append_assoc], htrace⟩
    · -- The room is used up: the next turn of the loop ends it.
      have hdone : room - (emit opts.eos room run).1.length = 0 := by omega
      rw [generateLoop_done (by rw [hleft, hdone])] at h ⊢
      cases h
      rw [hdone, decode, List.append_nil]
      exact ⟨rfl, hground⟩

/-- The loop gives the tokens so far and then the greedy decode. -/
theorem generateLoop_exact (hid : sessionId ≠ "") (fuel : Nat) (d : Draft δ)
    (acc : SpeculativeResult τ) {prompt : List τ} (hk : Kept sessionId L hist w)
    (hround : hist.length = w.round + 1) (hhist : Histories hist sequence cached)
    (hsequence : sequence = prompt ++ acc.tokenIds) (hfuel : max - acc.tokenIds.length ≤ fuel) :
    Exact L sessionId opts max prompt sequence acc
      (generateLoop P sessionId sched D opts max fuel sequence cached d acc w) := by
  induction fuel generalizing sequence cached d acc w hist with
  | zero => exact .done hk hhist hsequence (Nat.le_zero.mp hfuel)
  | succ fuel ih =>
      rw [generateLoop_succ]
      by_cases hroom : max - acc.tokenIds.length = 0
      · rw [if_pos hroom]
        exact .done hk hhist hsequence hroom
      · rw [if_neg hroom]
        generalize propose D sequence (min opts.k (max - acc.tokenIds.length)) d = proposed
        obtain ⟨proposal, d'⟩ := proposed
        dsimp only
        have hverified := round_exact sched hid hk hround hhist proposal opts.maxRecoveries
        generalize recover (replay P sessionId sched cached (sequence ++ proposal))
          opts.maxRecoveries (verify P sessionId sched cached (sequence.drop cached ++ proposal)
            { w with round := w.round + 1 }) = outcome at hverified ⊢
        obtain ⟨outcome, recoveries, w'⟩ := outcome
        obtain ⟨hlater, hexact⟩ := hverified
        cases outcome with
        | miss =>
            rintro - _ h
            cases h
        | failed =>
            rintro - _ h
            cases h
        | value target =>
            intro hmeets
            -- the requests of the round are among those of the whole run
            obtain ⟨hk', htarget⟩ := hexact fun x hx => hmeets x
              ((afterRound_trace fun _ _ _ _ => generateLoop_trace ..).subset hx)
            obtain rfl := htarget target rfl
            have hlength : (hist ++ [(sequence ++ proposal, cached)]).length = w'.round + 1 := by
              rw [hlater.round, List.length_append, hround]
              rfl
            refine afterRound_exact hk' hhist hsequence
              (fun accepted bonus d acc' hle htokens => ?_) hmeets
            apply ih d acc' hk' hlength (hhist.advance hle bonus)
            · rw [hsequence, htokens, List.append_assoc]
            · rw [htokens, List.length_append, List.length_append, List.length_singleton]
              omega

end Rounds

variable [DecidableEq ρ] [DecidableEq τ]

/-- In a run in which no request finds a cache left behind, the tokens are the greedy decode of
the target model, and no stage has answered from rejected tokens. -/
theorem generate_exact_of_upToDate {P : Deployment τ η ℓ κ ρ} (L : Lawful P) {sessionId : String}
    (hid : sessionId ≠ "") (sched : Schedule τ η ρ) (D : DraftModel τ δ) (opts : Options τ)
    (tables : Nat → ρ → Sessions κ) (hnew : ∀ i r, (tables i r).lookup sessionId = none)
    {inputIds : List τ} (hprompt : inputIds ≠ []) (maxNewTokens : Nat) (d : Draft δ)
    (hmeets : AllUpToDate sessionId
      (generateTokens P sessionId sched D opts inputIds maxNewTokens d (.init tables)).2)
    {result : SpeculativeResult τ}
    (h : (generate P sessionId sched D opts inputIds maxNewTokens d (.init tables)).1 =
      some result) :
    result.tokenIds =
        decode L.logits (greedy (argmax P)) opts.eos maxNewTokens inputIds () ∧
      ∀ x ∈ (generateTokens P sessionId sched D opts inputIds maxNewTokens d (.init tables)).2.trace,
        Grounded L sessionId (inputIds ++ result.tokenIds) x :=
  generateLoop_exact hid maxNewTokens d ⟨[], 0, 0, 0, 0⟩ (kept_init hnew) rfl (Histories.init hprompt)
    (List.append_nil _).symm (Nat.le_refl _) hmeets result h

/-! ### A replica left behind -/

/-- One stage of prefix sums, the only one. -/
def singleSums : Deployment Nat Nat Nat Nat Bool where
  size := 1
  model := fun _ => prefixSum
  config := fun i _ => ⟨decide (i = 0), decide (i + 1 = 1), 4, 600, 4⟩
  pos := by decide
  isFirst := fun _ _ => rfl
  isLast := fun _ _ => rfl

def singleLaw : Lawful singleSums where
  dims := []
  first := prefixSumOfIds
  later := fun i h => absurd (Nat.lt_of_succ_lt_succ h) (Nat.not_lt_zero i)

/-- A draft that is wrong most of the time. -/
def sevens : DraftModel Nat Unit := ⟨fun _ _ => (7, ()), fun _ d => d⟩

def fourDrafts : Options Nat := ⟨4, 2, (· == 0), by decide⟩

/-- The requests of round 2, a miss and its replay, are served by another replica. -/
def failover : Schedule Nat Nat Bool
  | 1 | 2 => ⟨[], false, 0, .answered⟩
  | _ => ⟨[], true, 0, .answered⟩

/-- The failover back to the first replica comes after one round, not two. -/
def promptFailover : Schedule Nat Nat Bool
  | 0 => ⟨[], true, 0, .answered⟩
  | _ => ⟨[], false, 0, .answered⟩

theorem generate_exact_of_upToDate_failover : ∃ result,
    (generate singleSums "a" promptFailover sevens fourDrafts [1] 3 ⟨(), 0⟩
      (.init fun _ _ => ∅)).1 = some result ∧
    result.tokenIds =
      decode singleLaw.logits (greedy (argmax singleSums)) fourDrafts.eos 3 [1] () := by
  have hid : "a" ≠ "" := by decide
  have hrun : (generate singleSums "a" promptFailover sevens fourDrafts [1] 3 ⟨(), 0⟩
      (.init fun _ _ => ∅)).1 = some ⟨[1, 2, 4], 1, 3, 6, 0⟩ := by decide
  exact ⟨_, hrun, (generate_exact_of_upToDate singleLaw hid promptFailover sevens fourDrafts
    (fun _ _ => ∅) (fun _ _ => rfl) (by decide) 3 ⟨(), 0⟩ (by decide) hrun).1⟩

/-- Round 3 comes back to the replica of round 1, whose cache still holds the proposal that was
rejected there and is long enough: it answers from it. -/
theorem left_behind_answers : ∃ result,
    (generate singleSums "a" failover sevens fourDrafts [1] 3 ⟨(), 0⟩
      (.init fun _ _ => ∅)).1 = some result ∧
    result.tokenIds ≠
      decode singleLaw.logits (greedy (argmax singleSums)) fourDrafts.eos 3 [1] () :=
  ⟨⟨[1, 2, 10], 1, 3, 6, 0⟩, by decide, by decide⟩

end Distllm.Speculative
