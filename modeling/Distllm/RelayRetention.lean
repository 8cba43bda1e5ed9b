import Distllm.RelayChains

/-! The first outcome of a task is its only one, and it stays readable for the retention time that
starts when it is given; a task without an outcome is kept for its own, longer, time. -/

namespace Distllm.Relay

open Relay.Inner Ledger

/-- An answer that says how the task ended. -/
def ResultView.Final : ResultView → Prop
  | completed _ | failed _ => True
  | notFound | pending _ => False

/-- What the record of a task says about its outcome. -/
def Task.view (task : Task) : ResultView :=
  match task.status with
  | .completed => .completed (task.result.getD [])
  | .failed => .failed (task.error.getD "")
  | other => .pending other.asStr

theorem getResult_of_lookup {g : Inner} {id : String} {task : Task}
    (h : g.tasks.lookup id = some task) : getResult g id = task.view := by
  rw [getResult, h]
  rfl

theorem getResult_of_none {g : Inner} {id : String} (h : g.tasks.lookup id = none) :
    getResult g id = .notFound := by
  rw [getResult, h]

theorem view_final {task : Task} :
    task.view.Final ↔ task.status = .completed ∨ task.status = .failed := by
  unfold Task.view
  cases task.status <;> simp [ResultView.Final]

theorem view_moved {task task' : Task} (h : task.Moved task') (hdead : ¬task.Live) :
    task'.view = task.view := by
  rw [Task.view, Task.view, h.status_eq hdead, h.result, h.error]

/-- The task has the outcome `view` since the instant `since`. -/
def Ledger.Answered (s : Ledger) (id : String) (view : ResultView) (since : Instant) : Prop :=
  ∃ task, s id = some task ∧ task.done = true ∧ task.view = view ∧ task.completedAt = some since

variable {drawn : List String} {now since : Instant} {posted : Task → Report → Prop}
  {s s' : Ledger} {id : String} {view : ResultView}

/-- An outcome stays as it is, until its record is dropped when its time is over. -/
theorem answered_change (h : Change drawn now posted s s') (hs : s.ChainsInv now)
    (hans : s.Answered id view since) :
    s'.Answered id view since ∨ s' id = none ∧ since + finishedTtl < now := by
  obtain ⟨task, htask, hdone, hview, hsince⟩ := hans
  have hdead : ¬task.Live := fun hlive => by
    rw [(hs.life id task htask).live hlive] at hdone
    cases hdone
  cases h with
  | moved h =>
      have hx := h id
      rw [htask] at hx
      generalize hs' : s' id = o at hx
      cases hx with
      | some hmoved =>
          exact .inl ⟨_, hs', hmoved.done.trans hdone, (view_moved hmoved hdead).trans hview,
            hmoved.completedAt.trans hsince⟩
  | submitted hid hnew hroot hsubmitted =>
      refine .inl ⟨task, ?_, hdone, hview, hsince⟩
      rw [Function.update_of_ne, htask]
      rintro rfl
      cases hnew.symm.trans htask
  | forwarded body hnext hnew hroot hother hlive hroute hposted =>
      refine .inl ⟨task, ?_, hdone, hview, hsince⟩
      rw [Function.update_of_ne, Function.update_of_ne, htask]
      · rintro rfl
        cases htask.symm.trans hother
        exact hdead hlive
      · rintro rfl
        cases hnew.symm.trans htask
  | finished hother hlive hposted hends =>
      refine .inl ⟨task, ?_, hdone, hview, hsince⟩
      dsimp only
      rw [htask, Option.map_some, concluded, if_pos hdone, ite_self]
  | cleaned =>
      by_cases hkeep : keepTask now task = true
      · exact .inl ⟨task, Option.filter_eq_some_iff.mpr ⟨htask, hkeep⟩, hdone, hview, hsince⟩
      · refine .inr ⟨?_, ?_⟩
        · dsimp only
          rw [htask, Option.filter_some_neg (Bool.not_eq_true _ ▸ hkeep)]
        · rw [keepTask, if_pos hdone, hsince, Option.map_some, Option.getD_some,
            decide_eq_true_eq] at hkeep
          exact Nat.add_comm _ _ ▸ Nat.lt_sub_iff_add_lt.mp (Nat.lt_of_not_le hkeep)

theorem answered_changes (h : Changes drawn now posted s s') (hs : s.ChainsInv now)
    (hid : id ∉ drawn)
    (hans : s.Answered id view since ∨ s id = none ∧ since + finishedTtl < now) :
    s'.Answered id view since ∨ s' id = none ∧ since + finishedTtl < now := by
  induction h with
  | refl => exact hans
  | tail hfront hchange ih =>
      rcases ih with hans | ⟨hnone, hlate⟩
      · exact answered_change hchange (chainsInv_changes hfront hs) hans
      · exact .inr ⟨absent_change hchange hid hnone, hlate⟩

/-- An outcome that is given by a change at `now` says so. -/
theorem outcome_since_change (h : Change drawn now posted s s')
    (hsince : ∀ task, s id = some task → task.view.Final → task.completedAt = some now) (task : Task)
    (htask : s' id = some task) (hfinal : task.view.Final) : task.completedAt = some now := by
  cases h with
  | moved h =>
      obtain ⟨t, ht, hmoved⟩ := exists_of_relMoved (htask ▸ h id)
      have hdead : ¬t.Live := fun hlive => by
        have hlive' : task.status.finished = false := hmoved.live_iff.mpr hlive
        rcases view_final.mp hfinal with hstatus | hstatus <;> rw [hstatus] at hlive' <;>
          cases hlive'
      rw [hmoved.completedAt]
      exact hsince t ht (view_moved hmoved hdead ▸ hfinal)
  | submitted hid hnew hroot hsubmitted =>
      rw [Function.update_apply] at htask
      split at htask
      · cases htask
        rcases view_final.mp hfinal with hstatus | hstatus <;>
          cases hsubmitted.pending.symm.trans hstatus
      · exact hsince task htask hfinal
  | forwarded body hnext hnew hroot hother hlive hroute hposted =>
      rw [Function.update_apply, Function.update_apply] at htask
      split at htask
      · cases htask
        cases hfinal
      split at htask
      · cases htask
        cases hfinal
      · exact hsince task htask hfinal
  | finished hother hlive hposted hends =>
      dsimp only at htask
      split at htask
      · obtain ⟨t, ht, rfl⟩ := Option.map_eq_some_iff.mp htask
        unfold concluded at hfinal ⊢
        split
        · rename_i hdone
          rw [if_pos hdone] at hfinal
          exact hsince t ht hfinal
        · rfl
      · exact hsince task htask hfinal
  | cleaned => exact hsince task (Option.filter_eq_some_iff.mp htask).1 hfinal

theorem outcome_since_changes (h : Changes drawn now posted s s')
    (hbefore : ∀ task, s id = some task → ¬task.view.Final) (task : Task)
    (htask : s' id = some task) (hfinal : task.view.Final) : task.completedAt = some now := by
  induction h generalizing task with
  | refl => exact absurd hfinal (hbefore task htask)
  | tail _ hchange ih => exact outcome_since_change hchange ih task htask hfinal

/-- The task was submitted at `createdAt` and is stored; an outcome it may have is as young as
`now`. -/
def Ledger.Kept (s : Ledger) (id : String) (createdAt now : Instant) : Prop :=
  ∃ task, s id = some task ∧ task.createdAt = createdAt ∧
    (task.done = false ∨ task.completedAt = some now)

theorem kept_change {createdAt : Instant} (h : Change drawn now posted s s')
    (hage : now ≤ createdAt + danglingTtl) (hkept : s.Kept id createdAt now) :
    s'.Kept id createdAt now := by
  obtain ⟨task, htask, hcreated, hdone⟩ := hkept
  cases h with
  | moved h =>
      have hx := h id
      rw [htask] at hx
      generalize hs' : s' id = o at hx
      cases hx with
      | some hmoved =>
          refine ⟨_, hs', hmoved.createdAt.trans hcreated, ?_⟩
          rwa [hmoved.done, hmoved.completedAt]
  | submitted hid hnew hroot hsubmitted =>
      refine ⟨task, ?_, hcreated, hdone⟩
      rw [Function.update_of_ne, htask]
      rintro rfl
      cases hnew.symm.trans htask
  | forwarded body hnext hnew hroot hother hlive hroute hposted =>
      rename_i other next nextRole tail t
      have hne : id ≠ next := by
        rintro rfl
        cases hnew.symm.trans htask
      by_cases hid : id = other
      · subst hid
        cases htask.symm.trans hother
        refine ⟨markForwarded id now task, ?_, hcreated, .inr rfl⟩
        rw [Function.update_of_ne hne, Function.update_self]
      · refine ⟨task, ?_, hcreated, hdone⟩
        rw [Function.update_of_ne hne, Function.update_of_ne hid, htask]
  | finished hother hlive hposted hends =>
      rename_i other t status result error report
      by_cases hid : id = other ∨ id = t.rootId
      · refine ⟨concluded status result error now task, ?_, ?_, ?_⟩
        · dsimp only
          rw [if_pos hid, htask, Option.map_some]
        · unfold concluded
          split <;> exact hcreated
        · unfold concluded
          split
          · exact hdone
          · exact .inr rfl
      · refine ⟨task, ?_, hcreated, hdone⟩
        dsimp only
        rw [if_neg hid, htask]
  | cleaned =>
      refine ⟨task, Option.filter_eq_some_iff.mpr ⟨htask, ?_⟩, hcreated, hdone⟩
      unfold keepTask
      split
      · rename_i hd
        rw [hd] at hdone
        rw [hdone.resolve_left nofun, Option.map_some, Option.getD_some, Nat.sub_self]
        rfl
      · rw [hcreated, decide_eq_true_eq]
        exact Nat.sub_le_iff_le_add'.mpr hage

theorem kept_changes {createdAt : Instant} (h : Changes drawn now posted s s')
    (hage : now ≤ createdAt + danglingTtl) (hkept : s.Kept id createdAt now) :
    s'.Kept id createdAt now := by
  induction h with
  | refl => exact hkept
  | tail _ hchange ih => exact kept_change hchange hage ih

/-! ### Runs -/

variable {settings : Settings} {readValue : Bytes → Option Value} {clock : Instant}
  {before after events : List Event} {v w : World}

theorem answered_of_final (hw : w.ChainsInv) (hfinal : (getResult w.inner id).Final) :
    ∃ since, w.inner.ledger.Answered id (getResult w.inner id) since := by
  cases htask : w.inner.tasks.lookup id with
  | none =>
      rw [getResult_of_none htask] at hfinal
      cases hfinal
  | some task =>
      rw [getResult_of_lookup htask] at hfinal ⊢
      have hlife := hw.chains.life id task htask
      have hdone : task.done = true := by
        rcases view_final.mp hfinal with hs | hs
        · exact (hlife.completed hs).1
        · exact (hlife.failed hs).1
      obtain ⟨since, hsince⟩ := Option.isSome_iff_exists.mp (hlife.completedAt hdone)
      exact ⟨since, task, htask, hdone, rfl, hsince⟩

theorem getResult_of_answered (h : w.inner.ledger.Answered id view since) :
    getResult w.inner id = view := by
  obtain ⟨task, htask, _, hview, _⟩ := h
  exact (getResult_of_lookup htask).trans hview

theorem answered_step {event : Event} (h : Step settings readValue v event w) (hv : v.ChainsInv)
    (hid : id ∈ v.issued)
    (hans : v.inner.ledger.Answered id view since ∨
      v.inner.ledger id = none ∧ since + finishedTtl < v.clock) :
    w.inner.ledger.Answered id view since ∨
      w.inner.ledger id = none ∧ since + finishedTtl < w.clock := by
  obtain ⟨hclock, drawn, hdrawn, _, hchanges⟩ := step_changes h hv.queues
  exact answered_changes hchanges (hv.chains.mono hclock) (fun hd => hdrawn id hd hid)
    (hans.imp_right fun ⟨hnone, hlate⟩ => ⟨hnone, Nat.lt_of_lt_of_le hlate hclock⟩)

/-- From an outcome on, the run answers it until its time is over. -/
theorem answered_run (hv : v.ChainsInv) (hafter : Run (Step settings readValue) v after w)
    (hans : v.inner.ledger.Answered id view since) :
    w.inner.ledger.Answered id view since ∨
      w.inner.ledger id = none ∧ since + finishedTtl < w.clock := by
  have hid : id ∈ v.issued := by
    obtain ⟨task, htask, _⟩ := hans
    exact hv.queues.known.task id task htask
  have hall : w.ChainsInv ∧ id ∈ w.issued ∧ (w.inner.ledger.Answered id view since ∨
      w.inner.ledger id = none ∧ since + finishedTtl < w.clock) := by
    induction hafter with
    | refl => exact ⟨hv, hid, .inl hans⟩
    | snoc _ hstep ih =>
        obtain ⟨hu, hidu, hansu⟩ := ih
        obtain ⟨_, drawn, _, hissued, _⟩ := step_changes hstep hu.queues
        refine ⟨chainsInv_step hstep hu, ?_, answered_step hstep hu hidu hansu⟩
        rw [hissued]
        exact List.mem_append_right _ hidu
  exact hall.2.2

/-- An outcome was given by one step of the run, at the instant its record says. -/
theorem outcome_given (hrun : RunFrom settings readValue clock events w)
    (hans : w.inner.ledger.Answered id view since) (hview : view.Final) :
    ∃ front event rest u u', events = front ++ event :: rest ∧
      RunFrom settings readValue clock front u ∧ Step settings readValue u event u' ∧
      Run (Step settings readValue) u' rest w ∧ ¬(getResult u.inner id).Final ∧
      getResult u'.inner id = view ∧ u'.clock = since := by
  induction hrun with
  | refl =>
      obtain ⟨task, htask, _⟩ := hans
      exact (start_lookup htask).elim
  | @snoc v w' front event hfront hstep ih =>
      have hv := chainsInv_run hfront
      by_cases hbefore : (getResult v.inner id).Final
      · obtain ⟨since', hans'⟩ := answered_of_final hv hbefore
        have hid : id ∈ v.issued := by
          obtain ⟨task, htask, _⟩ := hans'
          exact hv.queues.known.task id task htask
        obtain ⟨task, htask, _, hsame, hsince⟩ := hans
        have hkept : v.inner.ledger.Answered id view since := by
          rcases answered_step hstep hv hid (.inl hans') with ⟨t, ht, _, hv', hs'⟩ | ⟨hnone, _⟩
          · cases htask.symm.trans ht
            rw [← hsame, hv', ← Option.some.inj (hs'.symm.trans hsince)]
            exact hans'
          · cases hnone.symm.trans htask
        obtain ⟨first, label, rest, u, u', rfl, hfirst, hlabel, hrest, hnot, hgiven, hat⟩ :=
          ih hkept
        exact ⟨first, label, rest ++ [event], u, u', by simp, hfirst, hlabel, hrest.snoc hstep,
          hnot, hgiven, hat⟩
      · refine ⟨front, event, [], v, w', rfl, hfront, hstep, .refl w', hbefore,
          getResult_of_answered hans, ?_⟩
        obtain ⟨task, htask, _, rfl, hsince⟩ := hans
        obtain ⟨_, drawn, _, _, hchanges⟩ := step_changes hstep hv.queues
        have hnow := outcome_since_changes hchanges (fun t ht hfinal => hbefore
          ((getResult_of_lookup ht).symm ▸ hfinal)) task htask hview
        exact Option.some.inj (hnow.symm.trans hsince)

/-- A submitted task is stored, or was done at some point of the run, or its time is over. -/
theorem submitted_kept (hrun : RunFrom settings readValue clock events w) {role : String}
    {body : Bytes} {route : List String} {session : Option String} {createdAt : Instant}
    {answer : Answer} {at' : Instant}
    (hsubmit : Event.call (.submit id role body route session createdAt) answer at' ∈ events) :
    createdAt + danglingTtl < w.clock ∨
    (∃ front rest u task, events = front ++ rest ∧ RunFrom settings readValue clock front u ∧
      Run (Step settings readValue) u rest w ∧ u.inner.tasks.lookup id = some task ∧
      task.done = true) ∨
    ∃ task, w.inner.tasks.lookup id = some task ∧ task.createdAt = createdAt ∧
      task.done = false := by
  induction hrun with
  | refl => cases hsubmit
  | @snoc v w' front event hfront hstep ih =>
      have hv := chainsInv_run hfront
      obtain ⟨hclock, drawn, _, _, hchanges⟩ := step_changes hstep hv.queues
      rcases List.mem_append.mp hsubmit with hold | hnew
      · rcases ih hold with hlate | ⟨first, rest, u, task, rfl, hfirst, hrest, htask, hdone⟩ |
          ⟨task, htask, hcreated, hdone⟩
        · exact .inl (Nat.lt_of_lt_of_le hlate hclock)
        · exact .inr (.inl ⟨first, rest ++ [event], u, task, by simp, hfirst, hrest.snoc hstep,
            htask, hdone⟩)
        by_cases hage : w'.clock ≤ createdAt + danglingTtl
        swap
        · exact .inl (Nat.lt_of_not_le hage)
        obtain ⟨task', htask', hcreated', _⟩ :=
          kept_changes hchanges hage ⟨task, htask, hcreated, .inl hdone⟩
        cases hdone' : task'.done with
        | true => exact .inr (.inl ⟨front ++ [event], [], w', task', by simp, hfront.snoc hstep,
            .refl w', htask', hdone'⟩)
        | false => exact .inr (.inr ⟨task', htask', hcreated', hdone'⟩)
      · obtain rfl := List.mem_singleton.mp hnew
        generalize hevent : Event.call (.submit id role body route session createdAt) answer at' =
          event at hstep
        cases hstep with
        | rehash h => cases hevent
        | call _ _ hfresh =>
            obtain ⟨rfl, _, _⟩ := Event.call.inj hevent
            refine .inr (.inr ⟨⟨role, body, route, id, session, .pending, none, none, none, none,
              createdAt, none, false⟩, ?_, rfl, rfl⟩)
            · show (submit v.inner id role body route session createdAt).tasks.lookup id = _
              rw [submit, enqueue_tasks, AList.lookup_insert]

/-- **First result wins and stays readable.** Once the answer about a task is final, every later
answer is the same one as long as at most 300 s have passed since the step that gave it; and a
submitted task is answered `NotFound` only if more than 1800 s have passed since it was submitted,
or if it was done before. -/
theorem first_result_stays_readable (hbefore : RunFrom settings readValue clock before v)
    (hafter : Run (Step settings readValue) v after w) (id : String) :
    ((getResult v.inner id).Final →
      ∃ front event rest u u', before = front ++ event :: rest ∧
        RunFrom settings readValue clock front u ∧ Step settings readValue u event u' ∧
        Run (Step settings readValue) u' rest v ∧ ¬(getResult u.inner id).Final ∧
        getResult u'.inner id = getResult v.inner id ∧
        (w.clock ≤ u'.clock + fromSecs 300 → getResult w.inner id = getResult v.inner id)) ∧
    ∀ role body route session createdAt answer now,
      Event.call (.submit id role body route session createdAt) answer now ∈ before ++ after →
      getResult w.inner id = .notFound →
      createdAt + fromSecs 1800 < w.clock ∨
      ∃ front rest u task, before ++ after = front ++ rest ∧
        RunFrom settings readValue clock front u ∧ Run (Step settings readValue) u rest w ∧
        u.inner.tasks.lookup id = some task ∧ task.done = true := by
  have hv := chainsInv_run hbefore
  refine ⟨fun hfinal => ?_, fun role body route session createdAt answer now hsubmit hgone => ?_⟩
  · obtain ⟨since, hans⟩ := answered_of_final hv hfinal
    obtain ⟨front, event, rest, u, u', hsplit, hfront, hstep, hrest, hnot, hgiven, rfl⟩ :=
      outcome_given hbefore hans hfinal
    refine ⟨front, event, rest, u, u', hsplit, hfront, hstep, hrest, hnot, hgiven, fun hclock => ?_⟩
    rcases answered_run hv hafter hans with hans' | ⟨_, hlate⟩
    · exact getResult_of_answered hans'
    · exact absurd hclock (Nat.not_le_of_lt hlate)
  · rcases submitted_kept (hbefore.append hafter) hsubmit with hlate | hdone |
      ⟨task, htask, _, hdone⟩
    · exact .inl hlate
    · exact .inr hdone
    · rw [getResult_of_lookup htask] at hgone
      unfold Task.view at hgone
      split at hgone <;> cases hgone

/-- A result given at the start is still answered after a sweep 300 s later. -/
theorem first_result_stays_readable_swept :
    ∃ before after v w, RunFrom ⟨fromSecs 120, fromSecs 15⟩ (fun _ => none) 0 before v ∧
      Run (Step ⟨fromSecs 120, fromSecs 15⟩ (fun _ => none)) v after w ∧
      getResult v.inner "t" = .completed [5] ∧ w.clock = fromSecs 300 ∧
      getResult w.inner "t" = .completed [5] := by
  have hbefore := run_execAll ⟨fromSecs 120, fromSecs 15⟩ (fun _ => none) (World.start 0)
    [(.submit "t" "a" [] [] none 0, 0), (.postResult "t" none false [5] "u", 0)] (by decide)
  have hafter := run_execAll ⟨fromSecs 120, fromSecs 15⟩ (fun _ => none)
    (execAll ⟨fromSecs 120, fromSecs 15⟩ (fun _ => none) (World.start 0)
      [(.submit "t" "a" [] [] none 0, 0), (.postResult "t" none false [5] "u", 0)]).2
    [(.sweep, fromSecs 300)] (by decide)
  obtain ⟨_, _, _, _, u', _, _, _, _, _, _, hkept⟩ :=
    (first_result_stays_readable hbefore hafter "t").1 trivial
  exact ⟨_, _, _, _, hbefore, hafter, rfl, rfl, (hkept (Nat.le_add_left _ _)).trans rfl⟩

end Distllm.Relay
