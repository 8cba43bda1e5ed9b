import Distllm.RelayChains

/-! A relayed chain computes the sequential composition of its stages. The record of a root and
its live step together show how far the chain has come (`Ledger.Shows`); every change of the
records is a hop of the abstract machine for that chain, or leaves it where it is, or drops it. -/

namespace Distllm.Relay

open Relay.Inner Ledger Stages

/-- The stored records show the chain of root `r` at this point. -/
def Ledger.Shows (s : Ledger) (r : String) : Progress String Bytes String → Prop
  | .running role input route => ∃ root, s r = some root ∧ root.rootId = r ∧ root.done = false ∧
      ∃ id step, s id = some step ∧ step.rootId = r ∧ step.Live ∧
        step.targetRole = role ∧ step.payload = input ∧ step.route = route
  | .completed body => ∃ root, s r = some root ∧ root.rootId = r ∧ root.done = true ∧
      root.status = .completed ∧ root.result = some body
  | .failed message => ∃ root, s r = some root ∧ root.rootId = r ∧ root.done = true ∧
      root.status = .failed ∧ root.error = some (cutError message)

variable {drawn : List String} {now : Instant} {posted : Task → Report → Prop} {s s' : Ledger}
  {r : String} {p : Progress String Bytes String}

/-! ### Which records a chain is shown by -/

/-- The same record of a root that is not done, and the same live step, show the same progress. -/
theorem shows_of_same (h : s.Shows r p)
    (hroot : ∀ root, s r = some root → ∃ root', s' r = some root' ∧ root'.rootId = root.rootId ∧
      root'.done = root.done ∧ (root.done = true → root'.status = root.status ∧
        root'.result = root.result ∧ root'.error = root.error))
    (hstep : ∀ id step, s id = some step → step.rootId = r → step.Live →
      ∃ step', s' id = some step' ∧ step'.rootId = r ∧ step'.Live ∧
        step'.targetRole = step.targetRole ∧ step'.payload = step.payload ∧
        step'.route = step.route) : s'.Shows r p := by
  cases p with
  | running role input route =>
      obtain ⟨root, hr, hown, hdone, id, step, hid, hsr, hlive, hrole, hinput, hroute⟩ := h
      obtain ⟨root', hr', hown', hdone', _⟩ := hroot root hr
      obtain ⟨step', hid', hsr', hlive', hrole', hinput', hroute'⟩ := hstep id step hid hsr hlive
      exact ⟨root', hr', hown'.trans hown, hdone'.trans hdone, id, step', hid', hsr', hlive',
        hrole'.trans hrole, hinput'.trans hinput, hroute'.trans hroute⟩
  | completed body =>
      obtain ⟨root, hr, hown, hdone, hstatus, hresult⟩ := h
      obtain ⟨root', hr', hown', hdone', hsame⟩ := hroot root hr
      obtain ⟨hs, hres, _⟩ := hsame hdone
      exact ⟨root', hr', hown'.trans hown, hdone'.trans hdone, hs.trans hstatus,
        hres.trans hresult⟩
  | failed message =>
      obtain ⟨root, hr, hown, hdone, hstatus, herror⟩ := h
      obtain ⟨root', hr', hown', hdone', hsame⟩ := hroot root hr
      obtain ⟨hs, _, herr⟩ := hsame hdone
      exact ⟨root', hr', hown'.trans hown, hdone'.trans hdone, hs.trans hstatus,
        herr.trans herror⟩

theorem shows_root (h : s.Shows r p) : ∃ root, s r = some root ∧ root.rootId = r := by
  cases p with
  | running role input route =>
      obtain ⟨root, hr, hown, _⟩ := h
      exact ⟨root, hr, hown⟩
  | completed body =>
      obtain ⟨root, hr, hown, _⟩ := h
      exact ⟨root, hr, hown⟩
  | failed message =>
      obtain ⟨root, hr, hown, _⟩ := h
      exact ⟨root, hr, hown⟩

/-- A chain with a live step is running at that step. -/
theorem shows_live (hs : s.ChainsInv now) (h : s.Shows r p) {id : String} {task : Task}
    (htask : s id = some task) (hroot : task.rootId = r) (hlive : task.Live) :
    p = .running task.targetRole task.payload task.route ∧
      ∃ root, s r = some root ∧ root.rootId = r ∧ root.done = false := by
  have hstep : s.LiveStep r id := ⟨task, htask, hroot, hlive⟩
  cases p with
  | running role input route =>
      obtain ⟨root, hr, hown, hdone, x, step, hx, hxr, hxlive, rfl, rfl, rfl⟩ := h
      obtain rfl := hs.unique r id x hstep ⟨step, hx, hxr, hxlive⟩
      cases htask.symm.trans hx
      exact ⟨rfl, root, hr, hown, hdone⟩
  | completed body =>
      obtain ⟨root, hr, hown, hdone, _⟩ := h
      exact absurd hstep (hs.none r root hr hown hdone id)
  | failed message =>
      obtain ⟨root, hr, hown, hdone, _⟩ := h
      exact absurd hstep (hs.none r root hr hown hdone id)

/-! ### The simulation -/

theorem shows_moved (hs : s.ChainsInv now) (h : s.Shows r p)
    (hmoved : ∀ x, Option.Rel Task.Moved (s x) (s' x)) : s'.Shows r p := by
  have hforth : ∀ x t, s x = some t → ∃ t', s' x = some t' ∧ t.Moved t' := by
    intro x t ht
    have hx := hmoved x
    rw [ht] at hx
    generalize s' x = o' at hx ⊢
    cases hx with
    | some ht' => exact ⟨_, rfl, ht'⟩
  refine shows_of_same h (fun root hr => ?_) fun id step hid hroot hlive => ?_
  · obtain ⟨root', hr', hm⟩ := hforth r root hr
    refine ⟨root', hr', hm.rootId, hm.done, fun hdone => ⟨hm.status_eq fun hlive => ?_, hm.result,
      hm.error⟩⟩
    rw [(hs.life r root hr).live hlive] at hdone
    cases hdone
  · obtain ⟨step', hid', hm⟩ := hforth id step hid
    exact ⟨step', hid', hm.rootId.trans hroot, hm.live_iff.mpr hlive, hm.targetRole, hm.payload,
      hm.route⟩

theorem shows_submitted (h : s.Shows r p) {id : String} {task : Task} (hnew : s id = none) :
    Shows (Function.update s id (some task)) r p := by
  have hforth : ∀ x t, s x = some t → Function.update s id (some task) x = some t := by
    intro x t ht
    rw [Function.update_of_ne, ht]
    rintro rfl
    cases hnew.symm.trans ht
  exact shows_of_same h
    (fun root hr => ⟨root, hforth r root hr, rfl, rfl, fun _ => ⟨rfl, rfl, rfl⟩⟩)
    fun id' step hid hroot hlive => ⟨step, hforth id' step hid, hroot, hlive, rfl, rfl, rfl⟩

variable (V : String → Bytes → Verdict Bytes String)

theorem shows_forwarded (hs : s.ChainsInv now) (h : s.Shows r p) {id next nextRole : String}
    {tail : List String} {task : Task} {body : Bytes} (hnew : s next = none)
    (htask : s id = some task) (hlive : task.Live) (hroute : task.route = nextRole :: tail)
    (hverdict : V task.targetRole task.payload = .result body false) :
    ∃ p', (p' = p ∨ p = .running task.targetRole task.payload task.route ∧ p' = p.advance V) ∧
      Shows (Function.update (Function.update s id (some (markForwarded id now task)))
        next (some (successor task nextRole tail body now))) r p' := by
  set s' : Ledger := Function.update (Function.update s id (some (markForwarded id now task)))
    next (some (successor task nextRole tail body now)) with hs'
  have hother : ∀ x t, s x = some t → x ≠ id → s' x = some t := by
    intro x t ht hx
    rw [hs', Function.update_of_ne, Function.update_of_ne hx, ht]
    rintro rfl
    cases hnew.symm.trans ht
  by_cases hr : task.rootId = r
  · obtain ⟨rfl, root, hroot, hown, hdone⟩ := shows_live hs h htask hr hlive
    refine ⟨.running nextRole body tail, .inr ⟨rfl, ?_⟩, ?_⟩
    · rw [hroute, Progress.advance_next V hverdict]
    · have hroot' : ∃ root', s' r = some root' ∧ root'.rootId = r ∧ root'.done = false := by
        by_cases hid : r = id
        · subst hid
          cases htask.symm.trans hroot
          refine ⟨markForwarded r now task, ?_, hown, ?_⟩
          · rw [hs', Function.update_of_ne, Function.update_self]
            rintro rfl
            cases hnew.symm.trans htask
          · show (if task.rootId ≠ r then true else task.done) = false
            rw [if_neg (not_not_intro hr), hdone]
        · exact ⟨root, hother r root hroot hid, hown, hdone⟩
      obtain ⟨root', hr', hown', hdone'⟩ := hroot'
      exact ⟨root', hr', hown', hdone', next, successor task nextRole tail body now,
        Function.update_self .., hr, rfl, rfl, rfl, rfl⟩
  · refine ⟨p, .inl rfl, shows_of_same h (fun root hroot => ?_) fun x step hx hroot hlive' => ?_⟩
    · have hid : r ≠ id := by
        rintro rfl
        obtain ⟨root', hr', hown⟩ := shows_root h
        cases htask.symm.trans hr'
        exact hr hown
      exact ⟨root, hother r root hroot hid, rfl, rfl, fun _ => ⟨rfl, rfl, rfl⟩⟩
    · refine ⟨step, hother x step hx ?_, hroot, hlive', rfl, rfl, rfl⟩
      rintro rfl
      cases htask.symm.trans hx
      exact hr hroot

theorem shows_finished (hs : s.ChainsInv now) (h : s.Shows r p) {id : String} {task : Task}
    {report : Report} {status : Status} {result : Option Bytes} {error : Option String}
    (htask : s id = some task) (hlive : task.Live) (hends : Ends task report status result error)
    (hverdict : V task.targetRole task.payload = report) :
    ∃ p', (p' = p ∨ p = .running task.targetRole task.payload task.route ∧ p' = p.advance V) ∧
      Shows (fun x => if x = id ∨ x = task.rootId then
        (s x).map (concluded status result error now) else s x) r p' := by
  by_cases hr : task.rootId = r
  · obtain ⟨rfl, root, hroot, hown, hdone⟩ := shows_live hs h htask hr hlive
    have hroot' : (if r = id ∨ r = task.rootId then
        (s r).map (concluded status result error now) else s r) =
        some { root with
          status := status, result := result, error := error, completedAt := some now,
          done := true } := by
      rw [if_pos (.inr hr.symm), hroot, Option.map_some, concluded,
        if_neg (by rw [hdone]; exact Bool.false_ne_true)]
    cases hends with
    | completed body hlast =>
        refine ⟨.completed body, .inr ⟨rfl, (Progress.advance_last V hverdict hlast).symm⟩, ?_⟩
        exact ⟨_, hroot', hown, rfl, rfl, rfl⟩
    | failed message =>
        refine ⟨.failed message, .inr ⟨rfl, (Progress.advance_failure V hverdict _).symm⟩, ?_⟩
        exact ⟨_, hroot', hown, rfl, rfl, rfl⟩
  · have hid : ∀ x t, s x = some t → t.rootId = r → ¬(x = id ∨ x = task.rootId) := by
      rintro x t ht hroot (rfl | rfl)
      · cases htask.symm.trans ht
        exact hr hroot
      · exact hr ((hs.root id task htask t ht).1.symm.trans hroot)
    refine ⟨p, .inl rfl, shows_of_same h (fun root hroot => ?_) fun x step hx hroot hlive' => ?_⟩
    · obtain ⟨root', hr', hown⟩ := shows_root h
      cases hroot.symm.trans hr'
      exact ⟨root, (if_neg (hid r root hroot hown)).trans hroot, rfl, rfl,
        fun _ => ⟨rfl, rfl, rfl⟩⟩
    · exact ⟨step, (if_neg (hid x step hx hroot)).trans hx, hroot, hlive', rfl, rfl, rfl⟩

/-- A chain whose root is kept keeps its live step. -/
theorem shows_cleaned (hs : s.ChainsInv now) (h : s.Shows r p) :
    (s r).filter (keepTask now) = none ∨
      Shows (fun x => (s x).filter (keepTask now)) r p := by
  have hs' := chainsInv_cleaned hs
  cases hkeep : (s r).filter (keepTask now) with
  | none => exact .inl rfl
  | some root' =>
      have hr := (Option.filter_eq_some_iff.mp hkeep).1
      refine .inr (shows_of_same h (fun root hroot => ?_) fun id step hid hroot hlive => ?_)
      · cases hr.symm.trans hroot
        exact ⟨root', hkeep, rfl, rfl, fun _ => ⟨rfl, rfl, rfl⟩⟩
      · obtain ⟨_, root, hr', hown, hdone⟩ := shows_live hs h hid hroot hlive
        cases hr.symm.trans hr'
        obtain ⟨x, t, ht, htr, htlive⟩ := hs'.one r root' hkeep hown hdone
        have hx := (Option.filter_eq_some_iff.mp ht).1
        obtain rfl := hs.unique r id x ⟨step, hid, hroot, hlive⟩ ⟨t, hx, htr, htlive⟩
        cases hid.symm.trans hx
        exact ⟨step, ht, hroot, hlive, rfl, rfl, rfl⟩

/-- Every change of the records is a hop of the chain by a posted report, or none, or drops the
chain's root. -/
theorem shows_change (h : Change drawn now posted s s') (hs : s.ChainsInv now)
    (hposted : ∀ task report, posted task report → V task.targetRole task.payload = report)
    (hshow : s.Shows r p) :
    s' r = none ∨ ∃ p', (p' = p ∨ ∃ task report, posted task report ∧
      p = .running task.targetRole task.payload task.route ∧ p' = p.advance V) ∧ s'.Shows r p' := by
  cases h with
  | moved h => exact .inr ⟨p, .inl rfl, shows_moved hs hshow h⟩
  | submitted hid hnew hroot htask => exact .inr ⟨p, .inl rfl, shows_submitted hshow hnew⟩
  | forwarded body hnext hnew hroot htask hlive hroute hreport =>
      obtain ⟨p', hp', hshow'⟩ :=
        shows_forwarded V hs hshow hnew htask hlive hroute (hposted _ _ hreport)
      exact .inr ⟨p', hp'.imp_right fun h => ⟨_, _, hreport, h⟩, hshow'⟩
  | finished htask hlive hreport hends =>
      obtain ⟨p', hp', hshow'⟩ :=
        shows_finished V hs hshow htask hlive hends (hposted _ _ hreport)
      exact .inr ⟨p', hp'.imp_right fun h => ⟨_, _, hreport, h⟩, hshow'⟩
  | cleaned => exact (shows_cleaned hs hshow).imp_right fun h => ⟨p, .inl rfl, h⟩

/-- The chain of `r`, if its root is still stored, will come to this outcome. -/
def Ledger.ComesTo (s : Ledger) (r : String) (outcome : Except String Bytes) : Prop :=
  s r = none ∨ ∃ p, s.Shows r p ∧ p.outcome V = outcome

theorem comesTo_changes (h : Changes drawn now posted s s') (hs : s.ChainsInv now)
    (hposted : ∀ task report, posted task report → V task.targetRole task.payload = report)
    {outcome : Except String Bytes} (hr : r ∉ drawn) (hcomes : s.ComesTo V r outcome) :
    s'.ComesTo V r outcome := by
  induction h with
  | refl => exact hcomes
  | tail hfront hchange ih =>
      have hmid := chainsInv_changes hfront hs
      rcases ih with hnone | ⟨p, hshow, houtcome⟩
      · exact .inl (absent_change hchange hr hnone)
      · rcases shows_change V hchange hmid hposted hshow with
          hnone | ⟨p', rfl | ⟨_, _, _, _, rfl⟩, hshow'⟩
        · exact .inl hnone
        · exact .inr ⟨p', hshow', houtcome⟩
        · exact .inr ⟨_, hshow', (Progress.outcome_advance V p).trans houtcome⟩

/-! ### Runs -/

variable {settings : Settings} {readValue : Bytes → Option Value}

/-- A step of the relay in which an accepted post carries what `F` makes of its task. -/
def FaithfulStep (settings : Settings) (readValue : Bytes → Option Value)
    (F : String → Bytes → Post) (w : World) (event : Event) (w' : World) : Prop :=
  Step settings readValue w event w' ∧ ∀ id post, event.post = some (id, post) →
    ∀ task, w.inner.tasks.lookup id = some task → post = F task.targetRole task.payload

/-- A stage as the relay sees it. -/
def verdicts (readValue : Bytes → Option Value) (F : String → Bytes → Post) (role : String)
    (payload : Bytes) : Report :=
  (F role payload).report readValue

theorem step_posts {F : String → Bytes → Post} {w w' : World} {event : Event}
    (h : FaithfulStep settings readValue F w event w') (task : Task) (report : Report)
    (hposts : event.Posts readValue w.inner task report) :
    verdicts readValue F task.targetRole task.payload = report := by
  obtain ⟨id, post, hpost, htask, rfl⟩ := hposts
  rw [verdicts, ← h.2 id post hpost task htask]

/-- A submitted root shows its chain at its first stage. -/
theorem submit_shows (g : Inner) (id role : String) (body : Bytes) (route : List String)
    (session : Option String) (createdAt : Instant) :
    (submit g id role body route session createdAt).ledger.Shows id
      (.running role body route) := by
  have hself : (submit g id role body route session createdAt).ledger id =
      some ⟨role, body, route, id, session, .pending, none, none, none, none, createdAt, none,
        false⟩ := by
    rw [submit, ledger, enqueue_tasks, AList.lookup_insert]
  exact ⟨_, hself, rfl, rfl, id, _, hself, rfl, rfl, rfl, rfl, rfl⟩

/-- Every submitted chain, as long as its root is stored, will come to the composition. -/
def ChainsCompose (readValue : Bytes → Option Value) (F : String → Bytes → Post)
    (events : List Event) (w : World) : Prop :=
  w.ChainsInv ∧ ∀ id role body route session createdAt answer now,
    Event.call (.submit id role body route session createdAt) answer now ∈ events →
    id ∈ w.issued ∧ w.inner.ledger.ComesTo (verdicts readValue F) id
      (compose (verdicts readValue F) role body route)

theorem chainsCompose_step {F : String → Bytes → Post} {events : List Event} {w w' : World}
    {event : Event} (h : FaithfulStep settings readValue F w event w')
    (hw : ChainsCompose readValue F events w) :
    ChainsCompose readValue F (events ++ [event]) w' := by
  obtain ⟨hinv, hcomes⟩ := hw
  obtain ⟨hclock, drawn, hdrawn, hissued, hchanges⟩ := step_changes h.1 hinv.queues
  refine ⟨chainsInv_step h.1 hinv, fun id role body route session createdAt answer now hmem => ?_⟩
  rcases List.mem_append.mp hmem with hold | hnew
  · obtain ⟨hid, hcomes⟩ := hcomes id role body route session createdAt answer now hold
    rw [hissued]
    exact ⟨List.mem_append_right _ hid, comesTo_changes _ hchanges (hinv.chains.mono hclock)
      (step_posts h) (fun hd => hdrawn id hd hid) hcomes⟩
  · obtain rfl := List.mem_singleton.mp hnew
    generalize hevent : Event.call (.submit id role body route session createdAt) answer now =
      event at h
    cases h.1 with
    | rehash h => cases hevent
    | call _ _ hfresh =>
        obtain ⟨rfl, _, _⟩ := Event.call.inj hevent
        exact ⟨List.mem_cons_self, .inr ⟨_, submit_shows w.inner id role body route session
          createdAt, rfl⟩⟩

theorem chainsCompose_run {F : String → Bytes → Post} {clock : Instant} {events : List Event}
    {w : World} (hrun : Run (FaithfulStep settings readValue F) (World.start clock) events w) :
    ChainsCompose readValue F events w :=
  hrun.invariant_labels chainsCompose_step ⟨chainsInv_start clock, nofun⟩

/-- A final answer about a root is the end of the chain that it shows. -/
theorem getResult_shows {w : World} (hw : w.ChainsInv) {id : String}
    (h : w.inner.ledger.Shows id p) :
    (∀ body, getResult w.inner id = .completed body → p = .completed body) ∧
    ∀ error, getResult w.inner id = .failed error →
      ∃ message, p = .failed message ∧ error = cutError message := by
  cases p with
  | running role input route =>
      obtain ⟨root, hroot, hown, hdone, _⟩ := h
      have hlife := hw.chains.life id root hroot
      have hroot : w.inner.tasks.lookup id = some root := hroot
      have hcompleted : root.status ≠ .completed := fun hs => by
        rw [(hlife.completed hs).1] at hdone
        cases hdone
      have hfailed : root.status ≠ .failed := fun hs => by
        rw [(hlife.failed hs).1] at hdone
        cases hdone
      simp only [getResult, hroot]
      cases hs : root.status with
      | completed => exact absurd hs hcompleted
      | failed => exact absurd hs hfailed
      | pending => exact ⟨nofun, nofun⟩
      | assigned => exact ⟨nofun, nofun⟩
      | forwarded => exact ⟨nofun, nofun⟩
  | completed body =>
      obtain ⟨root, hroot, _, _, hstatus, hresult⟩ := h
      have hroot : w.inner.tasks.lookup id = some root := hroot
      simp only [getResult, hroot, hstatus, hresult]
      exact ⟨fun body' h => ResultView.completed.inj h ▸ rfl, nofun⟩
  | failed message =>
      obtain ⟨root, hroot, _, _, hstatus, herror⟩ := h
      have hroot : w.inner.tasks.lookup id = some root := hroot
      simp only [getResult, hroot, hstatus, herror]
      exact ⟨nofun, fun error h => ⟨message, rfl, (ResultView.failed.inj h).symm⟩⟩

/-- Of a root that is not stored there is no final answer. -/
theorem getResult_absent {w : World} {id : String} (h : w.inner.ledger id = none) :
    (∀ body, getResult w.inner id ≠ .completed body) ∧
      ∀ error, getResult w.inner id ≠ .failed error := by
  have hnone : w.inner.tasks.lookup id = none := h
  simp only [getResult, hnone]
  exact ⟨nofun, nofun⟩

/-- A final answer about a root is the outcome its chain comes to. -/
theorem getResult_comesTo {w : World} (hw : w.ChainsInv) {V : String → Bytes → Report}
    {id : String} {outcome : Except String Bytes} (h : w.inner.ledger.ComesTo V id outcome) :
    (∀ body, getResult w.inner id = .completed body → outcome = .ok body) ∧
    ∀ error, getResult w.inner id = .failed error →
      ∃ message, outcome = .error message ∧ error = cutError message := by
  rcases h with hnone | ⟨p, hshow, rfl⟩
  · obtain ⟨hcompleted, hfailed⟩ := getResult_absent hnone
    exact ⟨fun body h => absurd h (hcompleted body), fun error h => absurd h (hfailed error)⟩
  · obtain ⟨hcompleted, hfailed⟩ := getResult_shows hw hshow
    refine ⟨fun body h => by rw [hcompleted body h]; rfl, fun error h => ?_⟩
    obtain ⟨message, rfl, herror⟩ := hfailed error h
    exact ⟨message, rfl, herror⟩

/-- **A relayed chain computes the sequential composition of its stages.** If every accepted post
carries the outcome of a fixed stage function for the role and payload of its task, then a final
answer about a submitted root is what its body comes to along its route: the result of the stage
that stops the chain or is last, or the first failure, cut to 8000 characters. -/
theorem chain_computes_composition {F : String → Bytes → Post} {clock : Instant}
    {events : List Event} {w : World}
    (hrun : Run (FaithfulStep settings readValue F) (World.start clock) events w)
    {id role : String} {body : Bytes} {route : List String} {session : Option String}
    {createdAt : Instant} {answer : Answer} {now : Instant}
    (hsubmit : Event.call (.submit id role body route session createdAt) answer now ∈ events) :
    (∀ result, getResult w.inner id = .completed result →
      compose (verdicts readValue F) role body route = .ok result) ∧
    ∀ error, getResult w.inner id = .failed error →
      ∃ message, compose (verdicts readValue F) role body route = .error message ∧
        error = String.ofList (message.toList.take 8000) := by
  obtain ⟨hinv, hcomes⟩ := chainsCompose_run hrun
  exact getResult_comesTo hinv
    (hcomes id role body route session createdAt answer now hsubmit).2

/-- A failure message that is longer than what is kept of it. -/
def longMessage : String := String.ofList (List.replicate 9000 'x')

theorem cutError_replicate (n : Nat) (c : Char) :
    cutError (String.ofList (List.replicate n c)) =
      String.ofList (List.replicate (min maxErrorLength n) c) := by
  rw [cutError, String.toList_ofList, List.take_replicate]

/-- Two stages append to their input, and the third fails. -/
def appendOrFail (role : String) (payload : Bytes) : Post :=
  if role = "c" then .failure longMessage
  else .body (payload ++ [if role = "a" then 1 else 2]) false

/-- Two chains that take turns: `t` over `a` and `b`, and `f` over `a` and `c`. -/
def twoChains : List Event :=
  [.call (.submit "t" "a" [] ["b"] none 0) (.taskId "t") 0,
    .call (.submit "f" "a" [] ["c"] none 0) (.taskId "f") 0,
    .call (.postResult "t" none false [1] "u") (.outcome (.status "forwarded")) 1,
    .call (.postResult "f" none false [1] "v") (.outcome (.status "forwarded")) 1,
    .call (.postFailure "v" none longMessage) (.outcome (.status "ok")) 2,
    .call (.postResult "u" none false [1, 2] "w") (.outcome (.status "ok")) 2]

theorem twoChains_run : ∃ w,
    Run (FaithfulStep ⟨fromSecs 120, fromSecs 15⟩ (fun _ => none) appendOrFail) (World.start 0)
      twoChains w ∧
    getResult w.inner "t" = .completed [1, 2] ∧
      getResult w.inner "f" = .failed (cutError longMessage) := by
  have hrun : Run (FaithfulStep ⟨fromSecs 120, fromSecs 15⟩ (fun _ => none) appendOrFail)
      (World.start 0) twoChains _ :=
    .cons ⟨.call (by decide) (Nat.le_refl 0) (by decide), nofun⟩ <|
    .cons ⟨.call (by decide) (Nat.le_refl 0) (by decide), nofun⟩ <|
    .cons ⟨.call (by decide) trivial (by decide),
      fun _ _ hpost _ htask => by cases hpost; cases htask; rfl⟩ <|
    .cons ⟨.call (by decide) trivial (by decide),
      fun _ _ hpost _ htask => by cases hpost; cases htask; rfl⟩ <|
    .cons ⟨.call (by decide) trivial nofun, fun _ _ hpost _ htask => by
      obtain ⟨rfl, rfl⟩ := Prod.mk.inj (Option.some.inj hpost)
      obtain rfl := Option.some.inj htask
      exact (if_pos rfl).symm⟩ <|
    .single ⟨.call (by decide) trivial (by decide),
      fun _ _ hpost _ htask => by cases hpost; cases htask; rfl⟩
  exact ⟨_, hrun, rfl, rfl⟩

/-- The first chain answers both additions, the second one the failure, cut. -/
theorem chain_computes_composition_appended : ∃ w,
    Run (FaithfulStep ⟨fromSecs 120, fromSecs 15⟩ (fun _ => none) appendOrFail) (World.start 0)
      twoChains w ∧
    getResult w.inner "t" = .completed [1, 2] ∧
    compose (verdicts (fun _ => none) appendOrFail) "a" [] ["b"] = .ok [1, 2] ∧
    getResult w.inner "f" = .failed (String.ofList (List.replicate 8000 'x')) ∧
    ∃ message, compose (verdicts (fun _ => none) appendOrFail) "a" [] ["c"] = .error message ∧
      String.ofList (List.replicate 8000 'x') = String.ofList (message.toList.take 8000) := by
  obtain ⟨w, hrun, ht, hf⟩ := twoChains_run
  have hcut : cutError longMessage = String.ofList (List.replicate 8000 'x') :=
    cutError_replicate 9000 'x'
  rw [hcut] at hf
  exact ⟨w, hrun, ht, (chain_computes_composition hrun (List.mem_cons_self ..)).1 _ ht, hf,
    (chain_computes_composition hrun (List.mem_cons_of_mem _ (List.mem_cons_self ..))).2 _ hf⟩

end Distllm.Relay
