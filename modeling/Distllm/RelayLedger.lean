import Mathlib.Data.Option.Basic
import Distllm.RelayQueues

/-! The stored task records alone. For them the elementary changes come down to five: records
move between waiting and assigned, a root is submitted, a step is forwarded, a step is finished,
old records are dropped. On top of this stands the life of a chain: which records are live, when a
record is done, and how the record of a root relates to its steps. -/

namespace Distllm.Relay

open Relay.Inner

/-- The stored records by identifier. -/
abbrev Ledger := String → Option Task

def Inner.ledger (g : Inner) : Ledger := g.tasks.lookup

/-- A step that still waits for its outcome. -/
def Task.Live (task : Task) : Prop := task.status.finished = false

instance (task : Task) : Decidable task.Live := inferInstanceAs (Decidable (_ = _))

/-- The same record, but for where a live step is waiting. -/
structure Task.Moved (task task' : Task) : Prop where
  targetRole : task'.targetRole = task.targetRole
  payload : task'.payload = task.payload
  route : task'.route = task.route
  rootId : task'.rootId = task.rootId
  result : task'.result = task.result
  error : task'.error = task.error
  createdAt : task'.createdAt = task.createdAt
  completedAt : task'.completedAt = task.completedAt
  done : task'.done = task.done
  status : task'.status = task.status ∨ task.Live ∧ task'.Live

namespace Task.Moved

theorem refl (task : Task) : task.Moved task :=
  ⟨rfl, rfl, rfl, rfl, rfl, rfl, rfl, rfl, rfl, .inl rfl⟩

theorem finished {task task' : Task} (h : task.Moved task') :
    task'.status.finished = task.status.finished := by
  rcases h.status with hsame | ⟨hlive, hlive'⟩
  · rw [hsame]
  · exact hlive'.trans hlive.symm

theorem live_iff {task task' : Task} (h : task.Moved task') : task'.Live ↔ task.Live := by
  rw [Task.Live, Task.Live, h.finished]

theorem status_eq {task task' : Task} (h : task.Moved task') (hdead : ¬task.Live) :
    task'.status = task.status :=
  h.status.resolve_right fun hlive => hdead hlive.1

end Task.Moved

inductive Change (drawn : List String) (now : Instant) (posted : Task → Report → Prop) :
    Ledger → Ledger → Prop where
  | moved {s s' : Ledger} (h : ∀ x, Option.Rel Task.Moved (s x) (s' x)) : Change drawn now posted s s'
  | submitted (s : Ledger) {id : String} {task : Task} (hid : id ∈ drawn) (hnew : s id = none)
      (hroot : ∀ x t, s x = some t → t.rootId ≠ id) (htask : task.Submitted id now) :
      Change drawn now posted s (Function.update s id (some task))
  | forwarded (s : Ledger) {id next nextRole : String} {tail : List String} {task : Task}
      (body : Bytes) (hnext : next ∈ drawn) (hnew : s next = none)
      (hroot : ∀ x t, s x = some t → t.rootId ≠ next) (htask : s id = some task)
      (hlive : task.Live) (hroute : task.route = nextRole :: tail)
      (hposted : posted task (.result body false)) :
      Change drawn now posted s (Function.update (Function.update s id (some (markForwarded id now task)))
        next (some (successor task nextRole tail body now)))
  | finished (s : Ledger) {id : String} {task : Task} {status : Status} {result : Option Bytes}
      {error : Option String} (htask : s id = some task) (hlive : task.Live) {report : Report}
      (hposted : posted task report) (hends : Ends task report status result error) :
      Change drawn now posted s fun x => if x = id ∨ x = task.rootId then
        (s x).map (concluded status result error now) else s x
  | cleaned (s : Ledger) : Change drawn now posted s fun x => (s x).filter (keepTask now)

/-- A sequence of changes. -/
abbrev Changes (drawn : List String) (now : Instant) (posted : Task → Report → Prop) :
    Ledger → Ledger → Prop :=
  Relation.ReflTransGen (Change drawn now posted)

variable {drawn : List String} {now : Instant} {posted : Task → Report → Prop}

theorem relMoved_refl (o : Option Task) : Option.Rel Task.Moved o o := by
  cases o with
  | none => exact .none
  | some task => exact .some (.refl task)

theorem relMoved_map {f : Task → Task} {o : Option Task} (h : ∀ t, o = some t → t.Moved (f t)) :
    Option.Rel Task.Moved o (o.map f) := by
  cases o with
  | none => exact .none
  | some task => exact .some (h task rfl)

theorem exists_of_relMoved {o : Option Task} {task' : Task}
    (h : Option.Rel Task.Moved o (some task')) : ∃ task, o = some task ∧ task.Moved task' := by
  cases h with
  | some hmoved => exact ⟨_, rfl, hmoved⟩

theorem ledger_enqueue (g : Inner) (id : String) (task : Task) :
    (g.enqueue id task).ledger = Function.update g.ledger id (some task) := by
  funext x
  rw [ledger, enqueue_tasks, AList.lookup_insert_eq, Function.update_apply]
  rfl

theorem ledger_modify (g : Inner) {id : String} {task : Task} (f : Task → Task)
    (htask : g.tasks.lookup id = some task) :
    ({ g with tasks := g.tasks.modify id f } : Inner).ledger =
      Function.update g.ledger id (some (f task)) := by
  funext x
  rw [ledger, AList.lookup_modify, Function.update_apply]
  split
  · rename_i hx
    rw [hx, htask, Option.map_some]
  · rfl

/-- Every elementary change is one of the five changes of the records. -/
theorem atom_change {g g' : Inner} (h : Atom drawn now posted g g') :
    Change drawn now posted g.ledger g'.ledger := by
  have hsame : ∀ {g' : Inner}, (∀ x, g'.ledger x = g.ledger x) →
      Change drawn now posted g.ledger g'.ledger := fun hsame =>
    .moved fun x => hsame x ▸ relMoved_refl _
  cases h with
  | rehashed h => exact hsame h.lookup_tasks
  | opened role worker => exact hsame fun _ => rfl
  | looked worker role =>
      have htook := took_takeNext g worker role now
      refine .moved fun x => ?_
      rw [ledger, ledger, htook.tasks]
      split
      · rename_i htaken
        obtain ⟨task, htask, hpending⟩ := htook.pending x htaken
        apply relMoved_map
        intro t ht
        cases htask.symm.trans ht
        exact ⟨rfl, rfl, rfl, rfl, rfl, rfl, rfl, rfl, rfl, .inr ⟨by rw [Task.Live, hpending]; rfl, rfl⟩⟩
      · exact relMoved_refl _
  | submitted hid hfresh htask =>
      rw [ledger_enqueue]
      exact .submitted _ hid hfresh.task hfresh.root htask
  | forwarded body hnext hfresh htask hlive hroute hposted =>
      rw [ledger_enqueue, ledger_modify _ _ htask]
      exact .forwarded _ body hnext hfresh.task hfresh.root htask hlive hroute hposted
  | finished htask hlive hposted hends =>
      rename_i id task status result error report
      obtain ⟨tasks, hfinish, hlookup⟩ := g.finish_of_lookup status result error now htask
      have hledger : (g.finish id status result error now).ledger = fun x =>
          if x = id ∨ x = task.rootId then (g.ledger x).map (concluded status result error now)
          else g.ledger x := by
        funext x
        rw [ledger, hfinish]
        exact hlookup x
      rw [hledger]
      exact .finished _ htask hlive hposted hends
  | registered nodeId role sessions =>
      obtain ⟨affinity, h⟩ := register_frame g nodeId role sessions now
      rw [h]
      exact hsame fun _ => rfl
  | beat nodeId => exact hsame fun _ => rfl
  | requeued htask hassigned =>
      rename_i id task
      obtain ⟨affinity, h⟩ := g.requeue_of_lookup htask
      refine .moved fun x => ?_
      rw [ledger, ledger, h, AList.lookup_modify]
      split
      · rename_i hx
        apply relMoved_map
        intro t ht
        rw [hx, htask] at ht
        cases ht
        exact ⟨rfl, rfl, rfl, rfl, rfl, rfl, rfl, rfl, rfl, .inr ⟨by rw [Task.Live, hassigned]; rfl, rfl⟩⟩
      · exact relMoved_refl _
  | drained worker =>
      obtain ⟨roleQueues, affinity, h, _, _⟩ := g.drain_cases worker
      rw [h]
      exact hsame fun _ => rfl
  | cleaned =>
      have hledger : ({ g with
          tasks := g.tasks.retain fun _ task => keepTask now task
          affinity := g.affinity.retain fun _ bound =>
            decide (now - bound.2 ≤ sessionAffinityTtl) } : Inner).ledger =
          fun x => (g.ledger x).filter (keepTask now) := by
        funext x
        exact AList.lookup_retain _ x g.tasks
      rw [hledger]
      exact .cleaned _

/-- A record that is not stored stays so, as long as its identifier is not drawn. -/
theorem absent_change {s s' : Ledger} (h : Change drawn now posted s s') {id : String}
    (hid : id ∉ drawn) (hs : s id = none) : s' id = none := by
  cases h with
  | moved h =>
      have hx := h id
      rw [hs] at hx
      generalize s' id = o' at hx ⊢
      cases hx
      rfl
  | submitted hnewId hnew hroot htask =>
      rw [Function.update_of_ne (by rintro rfl; exact hid hnewId), hs]
  | forwarded body hnext hnew hroot htask hlive hroute hreport =>
      rw [Function.update_of_ne (by rintro rfl; exact hid hnext), Function.update_of_ne, hs]
      rintro rfl
      cases hs.symm.trans htask
  | finished htask hlive hreport hends =>
      dsimp only
      rw [hs, Option.map_none, ite_self]
  | cleaned =>
      dsimp only
      rw [hs, Option.filter_none]

theorem atoms_changes {g g' : Inner} (h : Atoms drawn now posted g g') :
    Changes drawn now posted g.ledger g'.ledger :=
  h.lift Inner.ledger fun _ _ => atom_change

/-! ### The life of a chain -/

/-- What a stored record looks like at every moment. -/
structure Task.Lifecycle (task : Task) (id : String) (now : Instant) : Prop where
  live : task.Live → task.done = false
  forwarded : task.status = .forwarded → task.rootId ≠ id → task.done = true
  completed : task.status = .completed → task.done = true ∧ task.result.isSome = true
  failed : task.status = .failed → task.done = true ∧ task.error.isSome = true
  rootDone : task.done = true → task.rootId = id → task.status = .completed ∨ task.status = .failed
  completedAt : task.done = true → task.completedAt.isSome = true
  createdAt : task.createdAt ≤ now

/-- The identifier names a live step of the chain of root `r`. -/
def Ledger.LiveStep (s : Ledger) (r id : String) : Prop :=
  ∃ task, s id = some task ∧ task.rootId = r ∧ task.Live

structure Ledger.ChainsInv (s : Ledger) (now : Instant) : Prop where
  life : ∀ id task, s id = some task → task.Lifecycle id now
  root : ∀ id task, s id = some task → ∀ rootTask, s task.rootId = some rootTask →
    rootTask.rootId = task.rootId ∧ rootTask.createdAt ≤ task.createdAt
  one : ∀ r rootTask, s r = some rootTask → rootTask.rootId = r → rootTask.done = false →
    ∃ id, s.LiveStep r id
  unique : ∀ r id id', s.LiveStep r id → s.LiveStep r id' → id' = id
  none : ∀ r rootTask, s r = some rootTask → rootTask.rootId = r → rootTask.done = true →
    ∀ id, ¬s.LiveStep r id

theorem Task.Lifecycle.mono {task : Task} {id : String} {now now' : Instant}
    (h : task.Lifecycle id now) (hle : now ≤ now') : task.Lifecycle id now' :=
  { h with createdAt := Nat.le_trans h.createdAt hle }

theorem Task.Lifecycle.moved {task task' : Task} {id : String} (h : task.Lifecycle id now)
    (hmoved : task.Moved task') : task'.Lifecycle id now := by
  have hstatus : task'.status.finished = true → task'.status = task.status := fun hfinished =>
    hmoved.status_eq fun hlive => by
      rw [hmoved.finished, show task.status.finished = false from hlive] at hfinished
      cases hfinished
  refine ⟨fun hlive => ?_, fun hs hne => ?_, fun hs => ?_, fun hs => ?_, fun hd hroot => ?_,
    fun hd => ?_, hmoved.createdAt ▸ h.createdAt⟩
  · rw [hmoved.done]
    exact h.live (hmoved.live_iff.mp hlive)
  · rw [hmoved.done]
    rw [hmoved.rootId] at hne
    exact h.forwarded ((hstatus (by rw [hs]; rfl)).symm.trans hs) hne
  · rw [hmoved.done, hmoved.result]
    exact h.completed ((hstatus (by rw [hs]; rfl)).symm.trans hs)
  · rw [hmoved.done, hmoved.error]
    exact h.failed ((hstatus (by rw [hs]; rfl)).symm.trans hs)
  · rw [hmoved.done] at hd
    rw [hmoved.rootId] at hroot
    rw [hmoved.status_eq fun hlive => by rw [h.live hlive] at hd; cases hd]
    exact h.rootDone hd hroot
  · rw [hmoved.completedAt]
    exact h.completedAt (hmoved.done ▸ hd)

theorem Task.Submitted.lifecycle {task : Task} {id : String} (h : task.Submitted id now) :
    task.Lifecycle id now := by
  have hdone := h.notDone
  have hpending := h.pending
  refine ⟨fun _ => hdone, fun hs _ => ?_, fun hs => ?_, fun hs => ?_, fun hd _ => ?_, fun hd => ?_,
    h.created⟩
  · rw [hpending] at hs; cases hs
  · rw [hpending] at hs; cases hs
  · rw [hpending] at hs; cases hs
  · rw [hdone] at hd; cases hd
  · rw [hdone] at hd; cases hd

theorem Task.Lifecycle.markForwarded {task : Task} {id : String} (h : task.Lifecycle id now)
    (hlive : task.Live) : (markForwarded id now task).Lifecycle id now := by
  have hdone := h.live hlive
  refine ⟨nofun, fun _ hne => if_pos hne, nofun, nofun, fun hd hroot => ?_, fun _ => rfl,
    h.createdAt⟩
  have hsame : task.rootId = id := hroot
  have hd' : (if task.rootId ≠ id then true else task.done) = true := hd
  rw [if_neg (not_not_intro hsame), hdone] at hd'
  cases hd'

theorem Task.Lifecycle.concluded {task : Task} {id : String} (h : task.Lifecycle id now)
    {status : Status} {result : Option Bytes} {error : Option String}
    (houtcome : Concludes status result error) :
    (concluded status result error now task).Lifecycle id now := by
  unfold Relay.concluded
  split
  · exact h
  · cases houtcome with
    | completed body =>
        exact ⟨nofun, nofun, fun _ => ⟨rfl, rfl⟩, nofun, fun _ _ => .inl rfl, fun _ => rfl,
          h.createdAt⟩
    | failed error =>
        exact ⟨nofun, nofun, nofun, fun _ => ⟨rfl, rfl⟩, fun _ _ => .inr rfl, fun _ => rfl,
          h.createdAt⟩

theorem successor_lifecycle {task : Task} {next nextRole : String} {tail : List String}
    {body : Bytes} : (successor task nextRole tail body now).Lifecycle next now :=
  ⟨fun _ => rfl, nofun, nofun, nofun, nofun, nofun, Nat.le_refl now⟩

/-! ### Live steps under each change -/

namespace Ledger

variable {s s' : Ledger}

theorem liveStep_moved (h : ∀ x, Option.Rel Task.Moved (s x) (s' x)) (r x : String) :
    s'.LiveStep r x ↔ s.LiveStep r x := by
  have hx := h x
  unfold LiveStep
  generalize s x = o at hx ⊢
  generalize s' x = o' at hx ⊢
  cases hx with
  | none => rfl
  | some hmoved =>
      simp only [Option.some.injEq, exists_eq_left', hmoved.rootId, hmoved.live_iff]

theorem liveStep_submitted {id : String} {task : Task} (hnew : s id = none)
    (htask : task.Submitted id now) (r x : String) :
    LiveStep (Function.update s id (some task)) r x ↔ x = id ∧ r = id ∨ s.LiveStep r x := by
  unfold LiveStep
  rw [Function.update_apply]
  by_cases hx : x = id
  · rw [if_pos hx]
    simp only [Option.some.injEq, exists_eq_left', htask.root, hx, hnew]
    have hlive : task.Live := by rw [Task.Live, htask.pending]; rfl
    simp [hlive, eq_comm]
  · rw [if_neg hx]
    simp [hx]

theorem liveStep_forwarded {id next nextRole : String} {tail : List String} {task : Task}
    {body : Bytes} (hnew : s next = none) (r x : String) :
    LiveStep (Function.update (Function.update s id (some (markForwarded id now task)))
      next (some (successor task nextRole tail body now))) r x ↔
        x = next ∧ task.rootId = r ∨ x ≠ id ∧ s.LiveStep r x := by
  unfold LiveStep
  rw [Function.update_apply, Function.update_apply]
  by_cases hnext : x = next
  · rw [if_pos hnext]
    simp [hnext, hnew, successor, Task.Live, Status.finished]
  · rw [if_neg hnext]
    by_cases hid : x = id
    · rw [if_pos hid]
      subst hid
      simp [hnext, markForwarded, Task.Live, Status.finished]
    · rw [if_neg hid]
      simp [hnext, hid]

theorem liveStep_finished (hs : s.ChainsInv now) {id : String} {task : Task} {status : Status}
    {result : Option Bytes} {error : Option String} (htask : s id = some task) (hlive : task.Live)
    (houtcome : Concludes status result error) (r x : String) :
    LiveStep (fun x => if x = id ∨ x = task.rootId then
      (s x).map (concluded status result error now) else s x) r x ↔ x ≠ id ∧ s.LiveStep r x := by
  have hdead : ∀ y t, s y = some t → ¬(concluded status result error now t).Live := by
    intro y t ht hl
    unfold concluded at hl
    split at hl
    · rename_i hdone
      rw [(hs.life y t ht).live hl] at hdone
      cases hdone
    · cases houtcome <;> cases hl
  have hstep : s.LiveStep task.rootId id := ⟨task, htask, rfl, hlive⟩
  unfold LiveStep
  dsimp only
  split
  · rename_i hx
    constructor
    · rintro ⟨t', ht', _, hl⟩
      obtain ⟨t, ht, rfl⟩ := Option.map_eq_some_iff.mp ht'
      exact absurd hl (hdead x t ht)
    · rintro ⟨hne, t, ht, hroot, hl⟩
      -- the root itself is live only as the single live step of its chain
      obtain rfl : x = task.rootId := hx.resolve_left hne
      have hown := (hs.root id task htask t ht).1
      exact absurd (hs.unique task.rootId id _ hstep ⟨t, ht, hown, hl⟩) hne
  · rename_i hx
    exact ⟨fun h => ⟨fun h' => hx (.inl h'), h⟩, fun h => h.2⟩

/-! ### The invariant of chains -/

theorem ChainsInv.mono {now' : Instant} (h : s.ChainsInv now) (hle : now ≤ now') :
    s.ChainsInv now' :=
  { h with life := fun id task ht => (h.life id task ht).mono hle }

theorem chainsInv_moved (hs : s.ChainsInv now) (h : ∀ x, Option.Rel Task.Moved (s x) (s' x)) :
    s'.ChainsInv now := by
  have hback : ∀ x t', s' x = some t' → ∃ t, s x = some t ∧ t.Moved t' := fun x t' ht' =>
    exists_of_relMoved (ht' ▸ h x)
  refine ⟨fun x t' ht' => ?_, fun x t' ht' rt' hrt' => ?_, fun r rt' hrt' hroot hdone => ?_,
    fun r x x' hx hx' => ?_, fun r rt' hrt' hroot hdone x hx => ?_⟩
  · obtain ⟨t, ht, hmoved⟩ := hback x t' ht'
    exact (hs.life x t ht).moved hmoved
  · obtain ⟨t, ht, hmoved⟩ := hback x t' ht'
    rw [hmoved.rootId] at hrt' ⊢
    obtain ⟨rt, hrt, hrmoved⟩ := hback _ rt' hrt'
    rw [hrmoved.rootId, hrmoved.createdAt, hmoved.createdAt]
    exact hs.root x t ht rt hrt
  · obtain ⟨rt, hrt, hrmoved⟩ := hback r rt' hrt'
    rw [hrmoved.rootId] at hroot
    rw [hrmoved.done] at hdone
    obtain ⟨x, hx⟩ := hs.one r rt hrt hroot hdone
    exact ⟨x, (liveStep_moved h r x).mpr hx⟩
  · exact hs.unique r x x' ((liveStep_moved h r x).mp hx) ((liveStep_moved h r x').mp hx')
  · obtain ⟨rt, hrt, hrmoved⟩ := hback r rt' hrt'
    rw [hrmoved.rootId] at hroot
    rw [hrmoved.done] at hdone
    exact hs.none r rt hrt hroot hdone x ((liveStep_moved h r x).mp hx)

theorem chainsInv_submitted (hs : s.ChainsInv now) {id : String} {task : Task}
    (hnew : s id = none) (hroot : ∀ x t, s x = some t → t.rootId ≠ id)
    (htask : task.Submitted id now) : ChainsInv (Function.update s id (some task)) now := by
  have hfresh : ∀ x, ¬s.LiveStep id x := fun x ⟨t, ht, hr, _⟩ => hroot x t ht hr
  refine ⟨fun x t ht => ?_, fun x t ht rt hrt => ?_, fun r rt hrt hown hdone => ?_,
    fun r x x' hx hx' => ?_, fun r rt hrt hown hdone x hx => ?_⟩
  · rw [Function.update_apply] at ht
    split at ht
    · rename_i hx
      cases ht
      exact hx ▸ htask.lifecycle
    · exact hs.life x t ht
  · rw [Function.update_apply] at ht hrt
    split at ht
    · cases ht
      rw [if_pos htask.root] at hrt
      cases hrt
      exact ⟨rfl, Nat.le_refl _⟩
    · rw [if_neg (hroot x t ht)] at hrt
      exact hs.root x t ht rt hrt
  · rw [Function.update_apply] at hrt
    split at hrt
    · rename_i hr
      exact ⟨id, (liveStep_submitted hnew htask r id).mpr (.inl ⟨rfl, hr⟩)⟩
    · obtain ⟨x, hx⟩ := hs.one r rt hrt hown hdone
      exact ⟨x, (liveStep_submitted hnew htask r x).mpr (.inr hx)⟩
  · rw [liveStep_submitted hnew htask] at hx hx'
    rcases hx with ⟨rfl, hr⟩ | hx <;> rcases hx' with ⟨rfl, hr'⟩ | hx'
    · rfl
    · exact absurd hx' (hr ▸ hfresh x')
    · exact absurd hx (hr' ▸ hfresh x)
    · exact hs.unique r x x' hx hx'
  · rw [Function.update_apply] at hrt
    rw [liveStep_submitted hnew htask] at hx
    split at hrt
    · cases hrt
      rw [htask.notDone] at hdone
      cases hdone
    · rename_i hr
      exact hx.elim (fun h => hr h.2) (hs.none r rt hrt hown hdone x)

/-- A record after a step has been forwarded: the new one, the step's, or one that was there. -/
theorem forwarded_at {id next nextRole : String} {tail : List String} {task : Task} {body : Bytes}
    {x : String} {t' : Task} (ht' : Function.update (Function.update s id (some (markForwarded id now task)))
      next (some (successor task nextRole tail body now)) x = some t') :
    x = next ∧ t' = successor task nextRole tail body now ∨
      x = id ∧ t' = markForwarded id now task ∨ x ≠ id ∧ s x = some t' := by
  rw [Function.update_apply] at ht'
  split at ht'
  · rename_i hx
    exact .inl ⟨hx, (Option.some.inj ht').symm⟩
  · rw [Function.update_apply] at ht'
    split at ht'
    · rename_i hx
      exact .inr (.inl ⟨hx, (Option.some.inj ht').symm⟩)
    · rename_i hx
      exact .inr (.inr ⟨hx, ht'⟩)

/-- The root of an old record keeps its own root, its creation time and, unless it was live, whether
it is done. -/
theorem forwarded_root {id next nextRole : String} {tail : List String} {task : Task} {body : Bytes}
    (hroot : ∀ x t, s x = some t → t.rootId ≠ next) (htask : s id = some task) {x r : String} {t rt' : Task}
    (ht : s x = some t) (hr : t.rootId = r)
    (hrt' : Function.update (Function.update s id (some (markForwarded id now task)))
      next (some (successor task nextRole tail body now)) r = some rt') :
    ∃ rt, s r = some rt ∧ rt'.rootId = rt.rootId ∧ rt'.createdAt = rt.createdAt ∧
      (rt'.rootId = r → rt'.done = rt.done) := by
  rcases forwarded_at hrt' with ⟨hrn, _⟩ | ⟨rfl, rfl⟩ | ⟨_, hrt⟩
  · exact absurd (hr.trans hrn) (hroot x t ht)
  · refine ⟨task, htask, rfl, rfl, fun hown => ?_⟩
    have hown : task.rootId = r := hown
    show (if task.rootId ≠ r then true else task.done) = task.done
    rw [if_neg (not_not_intro hown)]
  · exact ⟨rt', hrt, rfl, rfl, fun _ => rfl⟩

/-- A step is forwarded: its successor takes its place as the live step of the chain. -/
theorem chainsInv_forwarded (hs : s.ChainsInv now) {id next nextRole : String}
    {tail : List String} {task : Task} (body : Bytes) (hnew : s next = none)
    (hroot : ∀ x t, s x = some t → t.rootId ≠ next) (htask : s id = some task)
    (hlive : task.Live) :
    ChainsInv (Function.update (Function.update s id (some (markForwarded id now task)))
      next (some (successor task nextRole tail body now))) now := by
  have hstep : s.LiveStep task.rootId id := ⟨task, htask, rfl, hlive⟩
  refine ⟨fun x t ht => ?_, fun x t ht rt hrt => ?_, fun r rt hrt hown hdone => ?_,
    fun r x x' hx hx' => ?_, fun r rt hrt hown hdone x hx => ?_⟩
  · rcases forwarded_at ht with ⟨rfl, rfl⟩ | ⟨rfl, rfl⟩ | ⟨_, ht⟩
    · exact successor_lifecycle
    · exact (hs.life x task htask).markForwarded hlive
    · exact hs.life x t ht
  · rcases forwarded_at ht with ⟨rfl, rfl⟩ | ⟨rfl, rfl⟩ | ⟨_, ht⟩
    · obtain ⟨rt₀, hrt₀, hr, hc, _⟩ := forwarded_root hroot htask htask rfl hrt
      obtain ⟨hr₀, hc₀⟩ := hs.root id task htask rt₀ hrt₀
      exact ⟨hr.trans hr₀, hc ▸ Nat.le_trans hc₀ (hs.life id task htask).createdAt⟩
    · obtain ⟨rt₀, hrt₀, hr, hc, _⟩ := forwarded_root hroot htask htask rfl hrt
      obtain ⟨hr₀, hc₀⟩ := hs.root x task htask rt₀ hrt₀
      exact ⟨hr.trans hr₀, hc ▸ hc₀⟩
    · obtain ⟨rt₀, hrt₀, hr, hc, _⟩ := forwarded_root hroot htask ht rfl hrt
      obtain ⟨hr₀, hc₀⟩ := hs.root x t ht rt₀ hrt₀
      exact ⟨hr.trans hr₀, hc ▸ hc₀⟩
  · by_cases hr : task.rootId = r
    · exact ⟨next, (liveStep_forwarded hnew r next).mpr (.inl ⟨rfl, hr⟩)⟩
    · rcases forwarded_at hrt with ⟨rfl, rfl⟩ | ⟨rfl, rfl⟩ | ⟨_, hrt⟩
      · exact absurd hown hr
      · exact absurd hown hr
      · obtain ⟨x, hx⟩ := hs.one r rt hrt hown hdone
        refine ⟨x, (liveStep_forwarded hnew r x).mpr (.inr ⟨fun hxid => hr ?_, hx⟩)⟩
        obtain ⟨t, ht, htr, _⟩ := hx
        rw [hxid, htask] at ht
        cases ht
        exact htr
  · rw [liveStep_forwarded hnew] at hx hx'
    rcases hx with ⟨rfl, hr⟩ | ⟨hne, hx⟩ <;> rcases hx' with ⟨rfl, hr'⟩ | ⟨hne', hx'⟩
    · rfl
    · exact absurd (hs.unique r id x' (hr ▸ hstep) hx') hne'
    · exact absurd (hs.unique r id x (hr' ▸ hstep) hx) hne
    · exact hs.unique r x x' hx hx'
  · by_cases hr : task.rootId = r
    · obtain ⟨rt₀, hrt₀, hr₀, _, hd⟩ := forwarded_root hroot htask htask hr hrt
      exact hs.none r rt₀ hrt₀ (hr₀.symm.trans hown) ((hd hown).symm.trans hdone) id (hr ▸ hstep)
    · rcases forwarded_at hrt with ⟨rfl, rfl⟩ | ⟨rfl, rfl⟩ | ⟨_, hrt⟩
      · exact hr hown
      · exact hr hown
      · rw [liveStep_forwarded hnew] at hx
        exact hx.elim (fun h => hr h.2) fun h => hs.none r rt hrt hown hdone x h.2

theorem concluded_done (task : Task) (status : Status) (result : Option Bytes)
    (error : Option String) (now : Instant) :
    (concluded status result error now task).done = true := by
  unfold concluded
  split
  · assumption
  · rfl

/-- A record after a step has finished, and the record it was. -/
theorem concluded_at (hs : s.ChainsInv now) {id root : String} {status : Status}
    {result : Option Bytes} {error : Option String} (houtcome : Concludes status result error)
    {x : String} {t' : Task} (ht' : (if x = id ∨ x = root then
      (s x).map (concluded status result error now) else s x) = some t') :
    ∃ t, s x = some t ∧ t'.rootId = t.rootId ∧ t'.createdAt = t.createdAt ∧
      t'.Lifecycle x now ∧ (x = id ∨ x = root ∨ t'.done = t.done) := by
  split at ht'
  · rename_i hx
    obtain ⟨t, ht, rfl⟩ := Option.map_eq_some_iff.mp ht'
    refine ⟨t, ht, ?_, ?_, (hs.life x t ht).concluded houtcome, hx.imp_right .inl⟩ <;>
      unfold concluded <;> split <;> rfl
  · exact ⟨t', ht', rfl, rfl, hs.life x t' ht', .inr (.inr rfl)⟩

theorem chainsInv_finished (hs : s.ChainsInv now) {id : String} {task : Task} {status : Status}
    {result : Option Bytes} {error : Option String} (htask : s id = some task) (hlive : task.Live)
    (houtcome : Concludes status result error) :
    ChainsInv (fun x => if x = id ∨ x = task.rootId then
      (s x).map (concluded status result error now) else s x) now := by
  have hstep : s.LiveStep task.rootId id := ⟨task, htask, rfl, hlive⟩
  -- the roots of the other chains are as they were
  have hother : ∀ r rt, (if r = id ∨ r = task.rootId then
      (s r).map (concluded status result error now) else s r) = some rt → rt.rootId = r →
      r ≠ task.rootId → ∃ rt₀, s r = some rt₀ ∧ rt₀.rootId = r ∧ rt₀.done = rt.done := by
    intro r rt hrt hown hne
    obtain ⟨rt₀, hrt₀, hr, _, _, hd⟩ := concluded_at hs houtcome hrt
    have hid : r ≠ id := by
      rintro rfl
      rw [hrt₀] at htask
      cases htask
      exact hne (hr ▸ hown).symm
    exact ⟨rt₀, hrt₀, hr ▸ hown, ((hd.resolve_left hid).resolve_left hne).symm⟩
  refine ⟨fun x t ht => ?_, fun x t ht rt hrt => ?_, fun r rt hrt hown hdone => ?_,
    fun r x x' hx hx' => ?_, fun r rt hrt hown hdone x hx => ?_⟩
  · obtain ⟨_, _, _, _, hlife, _⟩ := concluded_at hs houtcome ht
    exact hlife
  · obtain ⟨t₀, ht₀, hr, hc, _⟩ := concluded_at hs houtcome ht
    rw [hr] at hrt
    obtain ⟨rt₀, hrt₀, hr', hc', _⟩ := concluded_at hs houtcome hrt
    rw [hr, hr', hc, hc']
    exact hs.root x t₀ ht₀ rt₀ hrt₀
  · have hne : r ≠ task.rootId := by
      rintro rfl
      rw [if_pos (.inr rfl)] at hrt
      obtain ⟨rt₀, _, rfl⟩ := Option.map_eq_some_iff.mp hrt
      rw [concluded_done] at hdone
      cases hdone
    obtain ⟨rt₀, hrt₀, hown₀, hdone₀⟩ := hother r rt hrt hown hne
    obtain ⟨x, hx⟩ := hs.one r rt₀ hrt₀ hown₀ (hdone₀.trans hdone)
    refine ⟨x, (liveStep_finished hs htask hlive houtcome r x).mpr ⟨fun hxid => hne ?_, hx⟩⟩
    obtain ⟨t, ht, htr, _⟩ := hx
    rw [hxid, htask] at ht
    cases ht
    exact htr.symm
  · rw [liveStep_finished hs htask hlive houtcome] at hx hx'
    exact hs.unique r x x' hx.2 hx'.2
  · rw [liveStep_finished hs htask hlive houtcome] at hx
    by_cases hne : r = task.rootId
    · exact hx.1 (hs.unique r id x (hne ▸ hstep) hx.2)
    · obtain ⟨rt₀, hrt₀, hown₀, hdone₀⟩ := hother r rt hrt hown hne
      exact hs.none r rt₀ hrt₀ hown₀ (hdone₀.trans hdone) x hx.2

/-- Old records are dropped: a live step is at least as young as its root, so it is kept as long
as a root that is not done. -/
theorem chainsInv_cleaned (hs : s.ChainsInv now) :
    ChainsInv (fun x => (s x).filter (keepTask now)) now := by
  have hstep : ∀ r x, LiveStep (fun x => (s x).filter (keepTask now)) r x → s.LiveStep r x := by
    rintro r x ⟨t, ht, hr, hl⟩
    exact ⟨t, (Option.filter_eq_some_iff.mp ht).1, hr, hl⟩
  refine ⟨fun x t ht => ?_, fun x t ht rt hrt => ?_, fun r rt hrt hown hdone => ?_,
    fun r x x' hx hx' => ?_, fun r rt hrt hown hdone x hx => ?_⟩
  · exact hs.life x t (Option.filter_eq_some_iff.mp ht).1
  · exact hs.root x t (Option.filter_eq_some_iff.mp ht).1 rt (Option.filter_eq_some_iff.mp hrt).1
  · obtain ⟨hrt, hkeep⟩ := Option.filter_eq_some_iff.mp hrt
    obtain ⟨x, t, ht, htr, hl⟩ := hs.one r rt hrt hown hdone
    have hage := (hs.root x t ht rt (htr ▸ hrt)).2
    refine ⟨x, t, Option.filter_eq_some_iff.mpr ⟨ht, ?_⟩, htr, hl⟩
    rw [keepTask, if_neg (by rw [hdone]; decide), decide_eq_true_eq] at hkeep
    rw [keepTask, if_neg (by rw [(hs.life x t ht).live hl]; decide), decide_eq_true_eq]
    exact Nat.le_trans (Nat.sub_le_sub_left hage now) hkeep
  · exact hs.unique r x x' (hstep r x hx) (hstep r x' hx')
  · exact hs.none r rt (Option.filter_eq_some_iff.mp hrt).1 hown hdone x (hstep r x hx)

theorem chainsInv_change (h : Change drawn now posted s s') (hs : s.ChainsInv now) : s'.ChainsInv now := by
  cases h with
  | moved h => exact chainsInv_moved hs h
  | submitted hid hnew hroot htask => exact chainsInv_submitted hs hnew hroot htask
  | forwarded body hnext hnew hroot htask hlive hroute hposted =>
      exact chainsInv_forwarded hs body hnew hroot htask hlive
  | finished htask hlive hposted hends =>
      exact chainsInv_finished hs htask hlive hends.concludes
  | cleaned => exact chainsInv_cleaned hs

theorem chainsInv_changes (h : Changes drawn now posted s s') (hs : s.ChainsInv now) :
    s'.ChainsInv now := by
  induction h with
  | refl => exact hs
  | tail _ hchange ih => exact chainsInv_change hchange ih

end Ledger

end Distllm.Relay
