import Distllm.Run
import Distllm.SpeculativeLoop

/-! The draft model over the life of a generator. Its cache is reused by length alone, from round to
round and from one run to the next; whether it proposes its own greedy continuation depends on
which tokens the positions that are kept were computed from. -/

namespace Distllm.Speculative

open Decoding Pipeline

variable {τ η ℓ κ ρ δ σ : Type}

/-- The `k` greedy tokens after a sequence. -/
def continuation (next : List τ → τ) : Nat → List τ → List τ
  | 0, _ => []
  | k + 1, sequence => next sequence :: continuation next k (sequence ++ [next sequence])

/-- A model whose cache behaves as that of a stage: feeding new tokens gives what the full forward
gives, cropping keeps the first positions. -/
structure DraftModel.Lawful (D : DraftModel τ δ) (next : List τ → τ) (Holds : δ → List τ → Prop) :
    Prop where
  token : ∀ {cache held new}, Holds cache held → new ≠ [] →
    (D.run new cache).1 = next (held ++ new)
  fed : ∀ {cache held new}, Holds cache held → new ≠ [] →
    Holds (D.run new cache).2 (held ++ new)
  crop : ∀ {cache held} n, Holds cache held → Holds (D.crop n cache) (held.take n)

/-- The cache was computed from these tokens, and its length is known. -/
def Draft.Covers (Holds : δ → List τ → Prop) (d : Draft δ) (held : List τ) : Prop :=
  Holds d.cache held ∧ held.length = d.length

/-- What the cache may keep for a sequence was computed from its first tokens. -/
def Draft.Reusable (Holds : δ → List τ → Prop) (d : Draft δ) (sequence : List τ) : Prop :=
  ∃ held, d.Covers Holds held ∧ held.take (sequence.length - 1) <+: sequence

section Draft

variable {D : DraftModel τ δ} {next : List τ → τ} {Holds : δ → List τ → Prop} {d : Draft δ}
  {held new sequence : List τ}

theorem Draft.Covers.crop (hlawful : D.Lawful next Holds) (h : d.Covers Holds held) (n : Nat) :
    (d.crop D n).Covers Holds (held.take n) := by
  rw [Draft.crop]
  split
  · rename_i hlong
    refine ⟨hlawful.crop n h.1, ?_⟩
    rw [List.length_take, h.2]
    exact Nat.min_eq_left (Nat.le_of_lt hlong)
  · rename_i hshort
    rwa [List.take_of_length_le (by rw [h.2]; omega)]

/-- The loop continues whatever the cache was computed from and the new tokens. -/
theorem proposeLoop_continuation (hlawful : D.Lawful next Holds) (k : Nat) (hnew : new ≠ [])
    (h : d.Covers Holds held) :
    (proposeLoop D k new d).1 = continuation next k (held ++ new) ∧
      ∃ fed, (proposeLoop D k new d).2.Covers Holds fed ∧
        fed <+: held ++ new ++ (proposeLoop D k new d).1 := by
  induction k generalizing new d held with
  | zero =>
      refine ⟨rfl, held, h, ?_⟩
      rw [List.append_assoc]
      exact List.prefix_append ..
  | succ k ih =>
      have htoken := hlawful.token h.1 hnew
      have hcovers : (Draft.mk (D.run new d.cache).2 (d.length + new.length)).Covers Holds
          (held ++ new) := ⟨hlawful.fed h.1 hnew, by rw [List.length_append, h.2]⟩
      obtain ⟨hrest, fed, hfed, hprefix⟩ :=
        ih (List.cons_ne_nil (D.run new d.cache).1 []) hcovers
      rw [proposeLoop, continuation]
      dsimp only
      refine ⟨?_, fed, hfed, ?_⟩
      · rw [hrest, htoken]
      · rw [List.append_assoc, List.singleton_append] at hprefix
        exact hprefix

/-- What is proposed continues the tokens behind the positions that are kept, and the rest of the
sequence. -/
theorem propose_kept (hlawful : D.Lawful next Holds) (k : Nat) (hsequence : sequence ≠ [])
    (h : d.Covers Holds held) :
    let kept := held.take (sequence.length - 1)
    (propose D sequence k d).1 = continuation next k (kept ++ sequence.drop kept.length) ∧
      ∃ fed, (propose D sequence k d).2.Covers Holds fed ∧
        fed <+: kept ++ sequence.drop kept.length ++ (propose D sequence k d).1 := by
  intro kept
  have hpositive := List.length_pos_iff.mpr hsequence
  have hkept : held.take (min d.length (sequence.length - 1)) = kept := by
    rw [← h.2, Nat.min_comm, ← List.take_eq_take_min]
  have hcovers := h.crop hlawful (min d.length (sequence.length - 1))
  rw [hkept] at hcovers
  have hnew : sequence.drop kept.length ≠ [] := by
    rw [← List.length_pos_iff, List.length_drop, List.length_take]
    omega
  rw [propose, ← hcovers.2]
  exact proposeLoop_continuation hlawful k hnew hcovers

/-- The greedy continuation, as long as what is kept belongs to the sequence. -/
theorem propose_continuation (hlawful : D.Lawful next Holds) (k : Nat) (hsequence : sequence ≠ [])
    (h : d.Reusable Holds sequence) :
    (propose D sequence k d).1 = continuation next k sequence ∧
      ∃ fed, (propose D sequence k d).2.Covers Holds fed ∧
        fed <+: sequence ++ (propose D sequence k d).1 := by
  obtain ⟨held, hcovers, hprefix⟩ := h
  have hproposed := propose_kept hlawful k hsequence hcovers
  have hjoined := List.prefix_iff_eq_append.mp hprefix
  dsimp only at hproposed
  rwa [hjoined] at hproposed

/-- After a round the cache belongs to the sequence with what was accepted. -/
theorem accept_reusable (hlawful : D.Lawful next Holds) {proposal fed : List τ}
    (h : d.Covers Holds fed) (hfed : fed <+: sequence ++ proposal) (accepted : Nat) (bonus : τ) :
    (accept D (sequence.length + accepted) d).Reusable Holds
      (sequence ++ (proposal.take accepted ++ [bonus])) := by
  refine ⟨_, h.crop hlawful _, (List.take_prefix _ _).trans ?_⟩
  have htake := hfed.take (sequence.length + accepted)
  rw [List.take_length_add_append] at htake
  rw [← List.append_assoc]
  exact htake.trans (List.prefix_append ..)

end Draft

/-! ### The life of a generator -/

/-- A run of `generate`: the prompt and the tokens so far, the room left, the end tokens. -/
structure Generation (τ : Type) where
  sequence : List τ
  room : Nat
  eos : τ → Bool

inductive Phase (τ : Type) where
  | idle
  | ready (run : Generation τ)
  /-- A proposal waits for its verification. -/
  | waiting (run : Generation τ) (proposal : List τ)

structure Generator (τ δ : Type) where
  phase : Phase τ
  draft : Draft δ

inductive Call (τ δ : Type) where
  | generate (prompt : List τ) (maxNewTokens : Nat) (eos : τ → Bool)
  | propose
  | verified (accepted : Nat) (bonus : τ)
  /-- A run is left by an exception of a stage, a recovery or the callback, or it is cancelled. -/
  | raised
  /-- The draft model itself raises and leaves its cache in some state. -/
  | broken (left : Draft δ)

/-- `while len(new_ids) < max_new_tokens` -/
def Generation.phase (run : Generation τ) : Phase τ :=
  if run.room = 0 then .idle else .ready run

/-- Emit the tokens of a round. -/
def Generation.extend (run : Generation τ) (tokens : List τ) : Phase τ :=
  let (emitted, stop) := emit run.eos run.room tokens
  if stop then .idle
  else Generation.phase ⟨run.sequence ++ emitted, run.room - emitted.length, run.eos⟩

/-- The calls of a generator, one run of `generate` after the other. -/
inductive Life (D : DraftModel τ δ) (k : Nat) : Generator τ δ → Call τ δ → Generator τ δ → Prop
  | generate {d : Draft δ} {prompt : List τ} (maxNewTokens : Nat) (eos : τ → Bool) :
      prompt ≠ [] → Life D k ⟨.idle, d⟩ (.generate prompt maxNewTokens eos)
        ⟨Generation.phase ⟨prompt, maxNewTokens, eos⟩, d⟩
  | propose {d : Draft δ} {run : Generation τ} :
      Life D k ⟨.ready run, d⟩ .propose
        ⟨.waiting run (propose D run.sequence (min k run.room) d).1,
          (propose D run.sequence (min k run.room) d).2⟩
  | verified {d : Draft δ} {run : Generation τ} {proposal : List τ} {accepted : Nat} (bonus : τ) :
      accepted ≤ proposal.length → Life D k ⟨.waiting run proposal, d⟩ (.verified accepted bonus)
        ⟨run.extend (proposal.take accepted ++ [bonus]),
          accept D (run.sequence.length + accepted) d⟩
  | raised {d : Draft δ} {phase : Phase τ} : Life D k ⟨phase, d⟩ .raised ⟨.idle, d⟩
  | broken {d : Draft δ} {run : Generation τ} (left : Draft δ) :
      Life D k ⟨.ready run, d⟩ (.broken left) ⟨.idle, left⟩

variable {D : DraftModel τ δ} {next : List τ → τ} {Holds : δ → List τ → Prop} {k : Nat}

/-- A run of `generate` starts with a cache whose kept part belongs to its prompt. -/
def Call.Fits (Holds : δ → List τ → Prop) (d : Draft δ) : Call τ δ → Prop
  | .generate prompt maxNewTokens _ => 0 < maxNewTokens → d.Reusable Holds prompt
  | _ => True

/-- What the cache has to do with the sequence of the run that is under way. -/
def Generator.Consistent (Holds : δ → List τ → Prop) (g : Generator τ δ) : Prop :=
  match g.phase with
  | .idle => True
  | .ready run => run.sequence ≠ [] ∧ g.draft.Reusable Holds run.sequence
  | .waiting run proposal => run.sequence ≠ [] ∧
      ∃ fed, g.draft.Covers Holds fed ∧ fed <+: run.sequence ++ proposal

theorem Generation.phase_done {run : Generation τ} (h : run.room = 0) : run.phase = .idle :=
  if_pos h

theorem Generation.phase_ready {run : Generation τ} (h : 0 < run.room) :
    run.phase = .ready run :=
  if_neg (Nat.ne_of_gt h)

theorem Generation.phase_consistent {run : Generation τ} {d : Draft δ}
    (hsequence : run.sequence ≠ []) (h : 0 < run.room → d.Reusable Holds run.sequence) :
    Generator.Consistent Holds ⟨run.phase, d⟩ := by
  by_cases hroom : run.room = 0
  · rw [Generation.phase_done hroom]
    trivial
  · rw [Generation.phase_ready (Nat.pos_of_ne_zero hroom)]
    exact ⟨hsequence, h (Nat.pos_of_ne_zero hroom)⟩

/-- Unless the run ends, everything that was accepted has been emitted. -/
theorem Generation.extend_consistent (hlawful : D.Lawful next Holds) {run : Generation τ}
    {proposal fed : List τ} {d : Draft δ} (h : d.Covers Holds fed)
    (hfed : fed <+: run.sequence ++ proposal) (accepted : Nat) (bonus : τ) :
    Generator.Consistent Holds ⟨run.extend (proposal.take accepted ++ [bonus]),
      accept D (run.sequence.length + accepted) d⟩ := by
  have hemit := @emit_eq_self _ run.eos (proposal.take accepted ++ [bonus]) run.room
  have hpos := @emit_pos _ run.eos (proposal.take accepted ++ [bonus]) run.room
  rw [Generation.extend]
  generalize emit run.eos run.room (proposal.take accepted ++ [bonus]) = emission at hemit hpos
  obtain ⟨emitted, stop⟩ := emission
  cases stop with
  | true => trivial
  | false =>
      dsimp only at hemit hpos ⊢
      rw [if_neg Bool.false_ne_true]
      by_cases hroom : emitted.length < run.room
      · have hall := hemit hroom rfl
        refine Generation.phase_consistent ?_ fun _ => ?_
        · have hemitted := hpos (Nat.zero_lt_of_lt hroom) (by simp)
          rw [← List.length_pos_iff, List.length_append]
          omega
        · rw [hall]
          exact accept_reusable hlawful h hfed accepted bonus
      · have hdone : run.room - emitted.length = 0 := by omega
        rw [Generation.phase_done hdone]
        trivial

theorem Life.consistent (hlawful : D.Lawful next Holds) {g g' : Generator τ δ} {call : Call τ δ}
    (hstep : Life D k g call g') (hfits : call.Fits Holds g.draft)
    (h : g.Consistent Holds) : g'.Consistent Holds := by
  cases hstep with
  | generate maxNewTokens eos hprompt => exact Generation.phase_consistent hprompt hfits
  | propose => exact ⟨h.1, (propose_continuation hlawful _ h.1 h.2).2⟩
  | verified bonus haccepted =>
      obtain ⟨-, fed, hcovers, hfed⟩ := h
      exact Generation.extend_consistent hlawful hcovers hfed _ bonus
  | raised => trivial
  | broken left => trivial

/-- The first run of a generator finds an empty cache. -/
theorem Draft.reusable_fresh {empty : δ} (hempty : Holds empty []) (sequence : List τ) :
    Draft.Reusable Holds ⟨empty, 0⟩ sequence :=
  ⟨[], ⟨hempty, rfl⟩, by rw [List.take_nil]; exact List.nil_prefix⟩

/-- When every run of `generate` starts with a fitting cache, the draft model always proposes its
own greedy continuation of the sequence. -/
theorem propose_greedy (hlawful : D.Lawful next Holds) {d : Draft δ} {calls : List (Call τ δ)}
    {g : Generator τ δ}
    (hrun : Run (fun g call g' => Life D k g call g' ∧ call.Fits Holds g.draft) ⟨.idle, d⟩ calls g)
    {run : Generation τ} (hready : g.phase = .ready run) (n : Nat) :
    (propose D run.sequence n g.draft).1 = continuation next n run.sequence := by
  have hconsistent : g.Consistent Holds :=
    hrun.invariant (fun hstep h => hstep.1.consistent hlawful hstep.2 h) trivial
  rw [Generator.Consistent, hready] at hconsistent
  exact (propose_continuation hlawful n hconsistent.1 hconsistent.2).1

/-- A draft model that always says the first token; its cache is the list of what it was fed. -/
def firstToken : DraftModel Nat (List Nat) where
  run := fun new cache => ((cache ++ new).headD 0, cache ++ new)
  crop := fun n cache => cache.take n

theorem firstToken_lawful : firstToken.Lawful (fun ys => ys.headD 0) Eq where
  token := fun hheld _ => by rw [← hheld]; rfl
  fed := fun hheld _ => by rw [← hheld]; rfl
  crop := fun n hheld => by rw [← hheld]; rfl

/-- A run of one token after the prompt `[1, 2]`, with a new generator. -/
theorem firstToken_run : Run (fun g call g' => Life firstToken 1 g call g' ∧ call.Fits Eq g.draft)
    ⟨.idle, ⟨[], 0⟩⟩ [.generate [1, 2] 1 (· == 9), .propose, .verified 0 7]
      ⟨.idle, ⟨[1, 2], 2⟩⟩ := by
  have hgenerate : Life firstToken 1 ⟨.idle, ⟨[], 0⟩⟩ (.generate [1, 2] 1 (· == 9))
      ⟨.ready ⟨[1, 2], 1, (· == 9)⟩, ⟨[], 0⟩⟩ := Life.generate 1 (· == 9) (by decide)
  have hpropose : Life firstToken 1 ⟨.ready ⟨[1, 2], 1, (· == 9)⟩, ⟨[], 0⟩⟩ .propose
      ⟨.waiting ⟨[1, 2], 1, (· == 9)⟩ [1], ⟨[1, 2], 2⟩⟩ := Life.propose
  have hverified : Life firstToken 1 ⟨.waiting ⟨[1, 2], 1, (· == 9)⟩ [1], ⟨[1, 2], 2⟩⟩
      (.verified 0 7) ⟨.idle, ⟨[1, 2], 2⟩⟩ := Life.verified 7 (by decide)
  exact Run.cons ⟨hgenerate, fun _ => Draft.reusable_fresh rfl _⟩
    (Run.cons ⟨hpropose, trivial⟩ (Run.single ⟨hverified, trivial⟩))

/-- The second prompt continues what the first run has made of its prompt. -/
theorem propose_greedy_extended :
    (propose firstToken [1, 2, 7] 1 ⟨[1, 2], 2⟩).1 =
      continuation (fun ys => ys.headD 0) 1 [1, 2, 7] := by
  have hgenerate : Life firstToken 1 ⟨.idle, ⟨[1, 2], 2⟩⟩ (.generate [1, 2, 7] 1 (· == 9))
      ⟨.ready ⟨[1, 2, 7], 1, (· == 9)⟩, ⟨[1, 2], 2⟩⟩ := Life.generate 1 (· == 9) (by decide)
  exact propose_greedy firstToken_lawful
    (firstToken_run.snoc ⟨hgenerate, fun _ => ⟨[1, 2], ⟨rfl, rfl⟩, by decide⟩⟩) rfl 1

/-- The second prompt has nothing to do with the first: the draft model continues `[1, 4]`. -/
theorem another_prompt_keeps_cache : ∃ calls g run,
    Run (Life firstToken 1) ⟨.idle, ⟨[], 0⟩⟩ calls g ∧ g.phase = .ready run ∧
      (propose firstToken run.sequence 1 g.draft).1 ≠
        continuation (fun ys => ys.headD 0) 1 run.sequence := by
  have hgenerate : Life firstToken 1 ⟨.idle, ⟨[1, 2], 2⟩⟩ (.generate [3, 4] 1 (· == 9))
      ⟨.ready ⟨[3, 4], 1, (· == 9)⟩, ⟨[1, 2], 2⟩⟩ := Life.generate 1 (· == 9) (by decide)
  exact ⟨_, _, _, (firstToken_run.mono And.left).snoc hgenerate, rfl, by decide⟩

/-! ### The runs of the acceptance loop -/

/-- The proposals of these peers are those of a draft model, which nothing else touches. -/
structure DraftedBy (peers : Peers τ σ) (D : DraftModel τ δ) (draft : σ → Draft δ) :
    Prop where
  proposal : ∀ sequence k s,
    (peers.propose sequence k s).1 = (propose D sequence k (draft s)).1
  proposed : ∀ sequence k s,
    draft (peers.propose sequence k s).2 = (propose D sequence k (draft s)).2
  verify : ∀ sequence start tokens s, draft (peers.verify sequence start tokens s).2 = draft s
  accept : ∀ valid s, draft (peers.accept valid s) = accept D valid (draft s)

theorem pipelinePeers_draftedBy [DecidableEq τ] [DecidableEq ρ] (P : Deployment τ η ℓ κ ρ)
    (sessionId : String) (sched : Schedule τ η ρ) (D : DraftModel τ δ) :
    DraftedBy (pipelinePeers P sessionId sched D) D Prod.snd :=
  ⟨fun _ _ _ => rfl, fun _ _ _ => rfl, fun _ _ _ _ => rfl, fun _ _ => rfl⟩

section Loop

variable [DecidableEq τ] {peers : Peers τ σ} {opts : Options τ} {maxNewTokens : Nat}
  {draft : σ → Draft δ}

omit [DecidableEq τ] in
theorem draft_whileLost (h : DraftedBy peers D draft) (sequence proposal : List τ)
    (cached left : Nat) (asked : Outcome (List τ) × σ) :
    draft (whileLost peers sequence proposal cached left asked).2.2 = draft asked.2 := by
  induction left generalizing asked with
  | zero =>
      obtain ⟨outcome, s⟩ := asked
      cases outcome with
      | value target => rfl
      | miss => rfl
      | failed => rfl
  | succ left ih =>
      obtain ⟨outcome, s⟩ := asked
      cases outcome with
      | value target => rfl
      | failed => rfl
      | miss => exact (ih _).trans (h.verify ..)

theorem countAccepted_le {proposal predictions : List τ} {left accepted n : Nat}
    (h : countAccepted proposal predictions left accepted = some n) : n ≤ accepted + left := by
  induction left generalizing accepted with
  | zero => exact Nat.le_of_eq (Option.some.inj h).symm
  | succ left ih =>
      rw [countAccepted] at h
      split at h
      · split at h
        · have hle := ih h
          omega
        · obtain rfl := Option.some.inj h
          exact Nat.le_add_right ..
      · cases h

theorem compare_accepted_le {k pending recoveries : Nat} {proposal answer : List τ}
    {r : Accepted τ} (h : compare k pending proposal answer recoveries = .ok r) :
    r.proposal = proposal ∧ r.accepted ≤ k := by
  rw [compare] at h
  split at h
  · cases h
  · rename_i accepted hcount
    split at h
    · cases h
    · obtain rfl := Except.ok.inj h
      have hle := countAccepted_le hcount
      rw [Nat.zero_add] at hle
      exact ⟨rfl, hle⟩

/-- A round asks the draft model once, and accepts a part of what it has proposed. -/
theorem draft_round (opts : Options τ) (h : DraftedBy peers D draft) (k : Nat) (sequence : List τ) (cached : Nat)
    (s : σ) :
    draft (round peers opts k sequence cached s).2 = (propose D sequence k (draft s)).2 ∧
      ∀ r, (round peers opts k sequence cached s).1 = .ok r →
        r.proposal = (propose D sequence k (draft s)).1 ∧ r.accepted ≤ r.proposal.length := by
  refine ⟨(draft_whileLost h ..).trans ((h.verify ..).trans (h.proposed ..)), fun r hr => ?_⟩
  rw [round] at hr
  generalize (whileLost peers sequence _ cached opts.maxRecoveries _) = verified at hr
  obtain ⟨_ | target, recoveries, s'⟩ := verified
  · cases hr
  · obtain ⟨hproposal, hle⟩ := compare_accepted_le hr
    rw [hproposal, h.proposal, propose_length]
    exact ⟨rfl, hle⟩

/-- The loop from a round on is a life of the draft model. -/
theorem acceptanceLoop_life (opts : Options τ) (h : DraftedBy peers D draft) (fuel : Nat)
    {sequence : List τ} {cached : Nat} {result : SpeculativeResult τ} (s : σ)
    (hfuel : maxNewTokens - result.tokenIds.length ≤ fuel) :
    ∃ calls, Run (Life D opts.k)
      ⟨Generation.phase ⟨sequence, maxNewTokens - result.tokenIds.length, opts.eos⟩, draft s⟩ calls
      ⟨.idle, draft (acceptanceLoop peers opts maxNewTokens fuel sequence cached result s).2.2⟩ := by
  induction fuel generalizing sequence cached result s with
  | zero =>
      rw [acceptanceLoop, Generation.phase_done (Nat.le_zero.mp hfuel)]
      exact ⟨[], .refl _⟩
  | succ fuel ih =>
      rw [acceptanceLoop]
      by_cases hroom : result.tokenIds.length < maxNewTokens
      swap
      · rw [if_neg hroom, Generation.phase_done (Nat.sub_eq_zero_of_le (Nat.not_lt.mp hroom))]
        exact ⟨[], .refl _⟩
      rw [if_pos hroom, Generation.phase_ready (Nat.sub_pos_of_lt hroom)]
      dsimp only
      set room := maxNewTokens - result.tokenIds.length with hroomdef
      obtain ⟨hdraft, haccepted⟩ := draft_round opts h (min opts.k room) sequence cached s
      have hpropose : Life D opts.k ⟨.ready ⟨sequence, room, opts.eos⟩, draft s⟩ .propose
          ⟨.waiting ⟨sequence, room, opts.eos⟩ (propose D sequence (min opts.k room) (draft s)).1,
            draft (round peers opts (min opts.k room) sequence cached s).2⟩ := by
        rw [hdraft]
        exact Life.propose
      generalize round peers opts (min opts.k room) sequence cached s = rounded at *
      obtain ⟨ended | r, s₁⟩ := rounded
      · exact ⟨_, (Run.single hpropose).snoc Life.raised⟩
      obtain ⟨hproposal, hle⟩ := haccepted r rfl
      rw [← hproposal] at hpropose
      have hverified : Life D opts.k ⟨.waiting ⟨sequence, room, opts.eos⟩ r.proposal, draft s₁⟩
          (.verified r.accepted r.bonus)
          ⟨Generation.extend ⟨sequence, room, opts.eos⟩ (r.proposal.take r.accepted ++ [r.bonus]),
            draft (peers.accept (sequence.length + r.accepted) s₁)⟩ := by
        rw [h.accept]
        exact Life.verified r.bonus hle
      have hemits : 0 < (emit opts.eos room (r.proposal.take r.accepted ++ [r.bonus])).1.length :=
        emit_pos (Nat.sub_pos_of_lt hroom) (by simp)
      rw [Generation.extend] at hverified
      dsimp only at hverified hpropose ⊢
      generalize emit opts.eos room (r.proposal.take r.accepted ++ [r.bonus]) = emission
        at hverified hemits ⊢
      obtain ⟨emitted, stop⟩ := emission
      dsimp only at hverified hemits ⊢
      have hround := (Run.single hpropose).snoc hverified
      split
      · exact ⟨_, hround.snoc Life.raised⟩
      cases stop with
      | true => exact ⟨_, hround⟩
      | false =>
          have hrest : room - emitted.length = maxNewTokens - (result.tokenIds ++ emitted).length := by
            rw [List.length_append, hroomdef, Nat.sub_sub]
          rw [if_neg Bool.false_ne_true, hrest] at hround
          obtain ⟨calls, hcalls⟩ := @ih (sequence ++ emitted) (sequence.length + r.accepted)
            ⟨result.tokenIds ++ emitted, result.cacheRecoveries + r.recoveries,
              result.rounds + 1, result.proposedDraftTokens + min opts.k room,
              result.acceptedDraftTokens + r.accepted⟩
            (peers.accept (sequence.length + r.accepted) s₁) (by dsimp only; omega)
          exact ⟨_, hround.append hcalls⟩

/-- A run of `generate` is a part of the draft model's life; nothing resets the cache. -/
theorem speculate_life (h : DraftedBy peers D draft) {prompt : List τ} (hprompt : prompt ≠ [])
    (s : σ) :
    ∃ calls, Run (Life D opts.k) ⟨.idle, draft s⟩ (.generate prompt maxNewTokens opts.eos :: calls)
      ⟨.idle, draft (speculate peers opts maxNewTokens prompt s).2.2⟩ := by
  obtain ⟨calls, hcalls⟩ := @acceptanceLoop_life _ _ _ _ _ peers maxNewTokens draft opts h
    maxNewTokens prompt 0 ⟨[], 0, 0, 0, 0⟩ s (Nat.sub_le _ _)
  exact ⟨calls, Run.cons (Life.generate maxNewTokens opts.eos hprompt) hcalls⟩

end Loop
end Distllm.Speculative
