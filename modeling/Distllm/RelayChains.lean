import Distllm.RelayLedger

/-! A chain in progress has exactly one live step, and every task is answered at most once. The
first is the invariant of the stored records, the second needs in addition that identifiers are
drawn once: a task that was answered is not live, and is never made live again. -/

namespace Distllm.Relay

open Relay.Inner Ledger

variable {settings : Settings} {readValue : Bytes → Option Value}

/-! ### Steps as changes of the records -/

/-- A step changes the records at its own instant, with identifiers that were not drawn before. -/
theorem step_changes {w w' : World} {event : Event} (h : Step settings readValue w event w')
    (hw : w.QueuesInv) : w.clock ≤ w'.clock ∧ ∃ drawn, (∀ id ∈ drawn, id ∉ w.issued) ∧
      w'.issued = drawn ++ w.issued ∧
      Changes drawn w'.clock (event.Posts readValue w.inner) w.inner.ledger w'.inner.ledger := by
  cases h with
  | call hclock htimely hfresh =>
      rename_i op now
      have hatoms := exec_atoms settings readValue op w.inner htimely fun id hid =>
        hw.known.fresh (hfresh id hid)
      exact ⟨hclock, op.drawn, hfresh, rfl, atoms_changes hatoms⟩
  | rehash h =>
      have hatom : Atom [] w.clock (Event.Posts readValue w.inner .rehash) w.inner _ := .rehashed h
      exact ⟨Nat.le_refl _, [], by simp, rfl, .single (atom_change hatom)⟩

/-- What every reachable relay satisfies about its chains. -/
structure World.ChainsInv (w : World) : Prop where
  queues : w.QueuesInv
  chains : w.inner.ledger.ChainsInv w.clock

theorem chainsInv_start (clock : Instant) : (World.start clock).ChainsInv where
  queues := queuesInv_start clock
  chains :=
    { life := fun _ _ h => (start_lookup h).elim
      root := fun _ _ h => (start_lookup h).elim
      one := fun _ _ h => (start_lookup h).elim
      unique := fun _ _ _ ⟨_, h, _⟩ => (start_lookup h).elim
      none := fun _ _ h => (start_lookup h).elim }

theorem chainsInv_step {w w' : World} {event : Event} (h : Step settings readValue w event w')
    (hw : w.ChainsInv) : w'.ChainsInv := by
  obtain ⟨hclock, drawn, _, _, hchanges⟩ := step_changes h hw.queues
  exact ⟨queuesInv_step h hw.queues, chainsInv_changes hchanges (hw.chains.mono hclock)⟩

theorem chainsInv_run {clock : Instant} {events : List Event} {w : World}
    (hrun : RunFrom settings readValue clock events w) : w.ChainsInv :=
  hrun.invariant chainsInv_step (chainsInv_start clock)

/-! ### Accepted posts -/

/-- A post on the task that is answered `ok` or `forwarded`. -/
def Event.accepts (id : String) : Event → Bool
  | .call (.postResult taskId _ _ _ _) (.outcome outcome) _
  | .call (.postFailure taskId _ _) (.outcome outcome) _ => taskId == id && outcome.accepted
  | _ => false

/-- The task is not stored or no longer live. -/
def Ledger.Settled (s : Ledger) (id : String) : Prop := ∀ task, s id = some task → ¬task.Live

theorem settled_change {drawn : List String} {now : Instant} {posted : Task → Report → Prop}
    {s s' : Ledger} {id : String}
    (h : Change drawn now posted s s') (hid : id ∉ drawn) (hs : s.Settled id) : s'.Settled id := by
  cases h with
  | moved h =>
      intro t' ht' hlive
      obtain ⟨t, ht, hmoved⟩ := exists_of_relMoved (ht' ▸ h id)
      exact hs t ht (hmoved.live_iff.mp hlive)
  | submitted hnewId hnew hroot htask =>
      intro t ht
      rw [Function.update_of_ne (by rintro rfl; exact hid hnewId)] at ht
      exact hs t ht
  | forwarded body hnext hnew hroot htask hlive hroute hposted =>
      intro t ht
      rw [Function.update_of_ne (by rintro rfl; exact hid hnext), Function.update_apply] at ht
      split at ht
      · cases ht
        exact nofun
      · exact hs t ht
  | finished htask hlive hposted hends =>
      intro t' ht'
      dsimp only at ht'
      split at ht'
      · obtain ⟨t, ht, rfl⟩ := Option.map_eq_some_iff.mp ht'
        unfold concluded
        split
        · exact hs t ht
        · cases hends <;> exact nofun
      · exact hs t' ht'
  | cleaned => exact fun t ht => hs t (Option.filter_eq_some_iff.mp ht).1

theorem settled_changes {drawn : List String} {now : Instant} {posted : Task → Report → Prop}
    {s s' : Ledger} {id : String}
    (h : Changes drawn now posted s s') (hid : id ∉ drawn) (hs : s.Settled id) : s'.Settled id := by
  induction h with
  | refl => exact hs
  | tail _ hchange ih => exact settled_change hchange hid ih

/-- Finishing settles a task that is not yet done. -/
theorem finish_settled (g : Inner) {id : String} {task : Task} {status : Status}
    {result : Option Bytes} {error : Option String} {now : Instant}
    (htask : g.tasks.lookup id = some task) (hdone : task.done = false)
    (houtcome : Concludes status result error) :
    (g.finish id status result error now).ledger.Settled id := by
  intro t' ht'
  obtain ⟨t, ht, ⟨rfl, hold⟩ | ⟨_, _, rfl⟩⟩ := lookup_finish g htask ht'
  · cases htask.symm.trans ht
    rcases hold with hne | hd
    · exact absurd rfl hne.1
    · rw [hdone] at hd
      cases hd
  · cases houtcome <;> exact nofun

/-- An accepted post finds its task live and leaves it settled. -/
theorem step_accepts {w w' : World} {event : Event} {id : String}
    (h : Step settings readValue w event w') (hw : w.ChainsInv) (haccepts : event.accepts id) :
    (∃ task, w.inner.ledger id = some task ∧ task.Live) ∧ w'.inner.ledger.Settled id := by
  cases h with
  | rehash h => cases haccepts
  | call hclock htimely hfresh =>
      rename_i op now
      cases op with
      | postResult taskId workerId stopChain body next =>
          rcases postResult_cases readValue w.inner taskId workerId stopChain body next now with
            ⟨outcome, hrefused, h⟩ | ⟨task, htask, hlive, _, _, h⟩ |
              ⟨task, nextRole, tail, htask, hlive, _, hroute, _, h⟩
          · simp only [exec, h, Event.accepts, hrefused, Bool.and_false] at haccepts
            cases haccepts
          · simp only [exec, h, Event.accepts, Bool.and_eq_true, beq_iff_eq] at haccepts ⊢
            obtain ⟨rfl, _⟩ := haccepts
            exact ⟨⟨task, htask, hlive⟩, finish_settled _ htask
              ((hw.chains.life taskId task htask).live hlive) (.completed body)⟩
          · simp only [exec, h, Event.accepts, Bool.and_eq_true, beq_iff_eq] at haccepts ⊢
            obtain ⟨rfl, _⟩ := haccepts
            refine ⟨⟨task, htask, hlive⟩, fun t ht => ?_⟩
            have hne : taskId ≠ next := by
              rintro rfl
              exact hfresh taskId List.mem_cons_self (hw.queues.known.task taskId task htask)
            rw [ledger, enqueue_tasks, AList.lookup_insert_ne hne, AList.lookup_modify_self,
              htask] at ht
            cases ht
            rintro ⟨⟩
      | postFailure taskId workerId message =>
          rcases postFailure_cases w.inner taskId workerId message now with
            ⟨outcome, hrefused, h⟩ | ⟨task, htask, hlive, _, h⟩
          · simp only [exec, h, Event.accepts, hrefused, Bool.and_false] at haccepts
            cases haccepts
          · simp only [exec, h, Event.accepts, Bool.and_eq_true, beq_iff_eq] at haccepts ⊢
            obtain ⟨rfl, _⟩ := haccepts
            exact ⟨⟨task, htask, hlive⟩, finish_settled _ htask
              ((hw.chains.life taskId task htask).live hlive) (.failed _)⟩
      | _ => cases haccepts

/-- An identifier answered before was drawn and is settled. -/
def PostedOnce (events : List Event) (w : World) : Prop :=
  w.ChainsInv ∧ ∀ id, events.countP (Event.accepts id) ≤ 1 ∧
    (0 < events.countP (Event.accepts id) → id ∈ w.issued ∧ w.inner.ledger.Settled id)

theorem postedOnce_step {w w' : World} {events : List Event} {event : Event}
    (h : Step settings readValue w event w') (hw : PostedOnce events w) :
    PostedOnce (events ++ [event]) w' := by
  obtain ⟨hinv, hposted⟩ := hw
  have hinv' := chainsInv_step h hinv
  obtain ⟨_, drawn, hdrawn, hissued, hchanges⟩ := step_changes h hinv.queues
  refine ⟨hinv', fun id => ?_⟩
  obtain ⟨hle, hsettled⟩ := hposted id
  rw [List.countP_append, List.countP_singleton]
  by_cases haccepts : event.accepts id = true
  · obtain ⟨⟨task, htask, hlive⟩, hafter⟩ := step_accepts h hinv haccepts
    have hzero : events.countP (Event.accepts id) = 0 := by
      by_contra hne
      exact (hsettled (Nat.pos_of_ne_zero hne)).2 task htask hlive
    rw [if_pos haccepts, hzero]
    refine ⟨Nat.le_refl 1, fun _ => ⟨?_, hafter⟩⟩
    rw [hissued]
    exact List.mem_append_right _ (hinv.queues.known.task id task htask)
  · rw [if_neg haccepts]
    refine ⟨hle, fun hpos => ?_⟩
    obtain ⟨hmem, hset⟩ := hsettled hpos
    rw [hissued]
    exact ⟨List.mem_append_right _ hmem,
      settled_changes hchanges (fun hid => hdrawn id hid hmem) hset⟩

theorem postedOnce_run {clock : Instant} {events : List Event} {w : World}
    (hrun : RunFrom settings readValue clock events w) : PostedOnce events w :=
  hrun.invariant_labels postedOnce_step
    ⟨chainsInv_start clock, fun _ => ⟨Nat.zero_le 1, fun h => absurd h (Nat.lt_irrefl 0)⟩⟩

/-- A forwarded answer stores one new record, the next step of the same chain. -/
theorem forwarded_creates {w w' : World} {id : String} {workerId : Option String}
    {stopChain : Bool} {body : Bytes} {next : String} {now : Instant} (hw : w.ChainsInv)
    (h : Step settings readValue w (.call (.postResult id workerId stopChain body next)
      (.outcome (.status "forwarded")) now) w') :
    ∃ task, w.inner.tasks.lookup id = some task ∧
      (∀ x, w.inner.tasks.lookup x = none ∧ (w'.inner.tasks.lookup x).isSome = true ↔ x = next) ∧
      ∃ step, w'.inner.tasks.lookup next = some step ∧ step.rootId = task.rootId ∧
        step.status = .pending ∧ step.payload = body ∧
        task.route = step.targetRole :: step.route := by
  generalize hevent : Event.call (.postResult id workerId stopChain body next)
    (.outcome (.status "forwarded")) now = event at h
  cases h with
  | rehash h => cases hevent
  | call hclock htimely hfresh =>
      obtain ⟨rfl, hanswer, rfl⟩ := Event.call.inj hevent
      rcases postResult_cases readValue w.inner id workerId stopChain body next now with
        ⟨outcome, hrefused, h⟩ | ⟨task, htask, hlive, _, _, h⟩ |
          ⟨task, nextRole, tail, htask, hlive, _, hroute, _, h⟩
      · simp only [exec, h, Answer.outcome.injEq] at hanswer
        rw [← hanswer] at hrefused
        exact absurd hrefused (by decide)
      · simp only [exec, h, Answer.outcome.injEq, Outcome.status.injEq] at hanswer
        exact absurd hanswer (by decide)
      · have hnew := (hw.queues.known.fresh (hfresh next List.mem_cons_self)).task
        have hlookup : ∀ x, (exec settings readValue
            (.postResult id workerId stopChain body next) now w.inner).2.tasks.lookup x =
              if x = next then some (successor task nextRole tail body now)
              else if x = id then (w.inner.tasks.lookup x).map (markForwarded id now)
              else w.inner.tasks.lookup x := by
          intro x
          simp only [exec, h, enqueue_tasks, AList.lookup_insert_eq, AList.lookup_modify]
        refine ⟨task, htask, fun x => ?_, successor task nextRole tail body now, ?_, rfl, rfl, rfl,
          hroute⟩
        · rw [hlookup]
          by_cases hx : x = next
          · rw [if_pos hx]
            exact ⟨fun _ => hx, fun _ => ⟨hx ▸ hnew, rfl⟩⟩
          · rw [if_neg hx]
            refine ⟨?_, fun h => absurd h hx⟩
            rintro ⟨hnone, hsome⟩
            rw [hnone, Option.map_none, ite_self] at hsome
            cases hsome
        · rw [hlookup, if_pos rfl]

/-- **A chain in progress has exactly one live step.** In every reachable relay a stored root that
is not done has exactly one live step and a stored root that is done has none; over the run every
task receives at most one accepted post, and a forwarded answer creates exactly one successor. -/
theorem one_live_step {clock : Instant} {events : List Event} {w : World}
    (hrun : RunFrom settings readValue clock events w) :
    (∀ r root, w.inner.tasks.lookup r = some root → root.rootId = r → root.done = false →
      ∃! id, w.inner.ledger.LiveStep r id) ∧
    (∀ r root, w.inner.tasks.lookup r = some root → root.rootId = r → root.done = true →
      ∀ id, ¬w.inner.ledger.LiveStep r id) ∧
    (∀ id, events.countP (Event.accepts id) ≤ 1) ∧
    ∀ id workerId stopChain body next now w',
      Step settings readValue w (.call (.postResult id workerId stopChain body next)
        (.outcome (.status "forwarded")) now) w' →
      ∃ task, w.inner.tasks.lookup id = some task ∧
        (∀ x, w.inner.tasks.lookup x = none ∧ (w'.inner.tasks.lookup x).isSome = true ↔
          x = next) ∧
        ∃ step, w'.inner.tasks.lookup next = some step ∧ step.rootId = task.rootId ∧
          step.status = .pending ∧ step.payload = body ∧
          task.route = step.targetRole :: step.route := by
  obtain ⟨hinv, hposted⟩ := postedOnce_run hrun
  refine ⟨fun r root hr hown hdone => ?_, fun r root hr hown hdone => ?_,
    fun id => (hposted id).1, fun _ _ _ _ _ _ _ hstep => forwarded_creates hinv hstep⟩
  · obtain ⟨id, hid⟩ := hinv.chains.one r root hr hown hdone
    exact ⟨id, hid, fun x hx => hinv.chains.unique r id x hid hx⟩
  · exact hinv.chains.none r root hr hown hdone

/-- A root whose first step was forwarded to a second role: its successor is the live step. -/
theorem one_live_step_forwarded :
    ∃ w root, RunFrom ⟨fromSecs 120, fromSecs 15⟩ (fun _ => none) 0
        [.call (.submit "t" "a" [] ["b"] none 0) (.taskId "t") 0,
          .call (.postResult "t" none false [7] "u") (.outcome (.status "forwarded")) 1] w ∧
      w.inner.tasks.lookup "t" = some root ∧ root.status = .forwarded ∧
      ∃! id, w.inner.ledger.LiveStep "t" id := by
  have hrun := run_execAll ⟨fromSecs 120, fromSecs 15⟩ (fun _ => none) (World.start 0)
    [(.submit "t" "a" [] ["b"] none 0, 0), (.postResult "t" none false [7] "u", 1)] (by decide)
  exact ⟨_, _, hrun, rfl, rfl, (one_live_step hrun).1 "t" _ rfl rfl rfl⟩

end Distllm.Relay
