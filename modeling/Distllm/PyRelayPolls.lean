import Distllm.PyRelayMirror

/-! What a poll of the Python relay hands out. It looks at the first queued id alone before it
answers 204: an id that is no longer pending hides those that wait behind it. Once a task is
found, the loop for the further ones passes over such ids. On a state that mirrors it, every look
either takes the first waiting task or drops one id that is not pending. -/

namespace Distllm.PyRelay

open State
open Relay (Bytes Instant Status Took)
open Relay.Inner (Dealt)

/-- The task with this id is waiting in a queue. -/
def State.IsPending (s : State) (id : String) : Prop :=
  ∃ task, s.get id = some task ∧ task.status = .pending

instance (s : State) : DecidablePred s.IsPending := fun id =>
  decidable_of_iff ((s.get id).any (fun task => task.status == .pending) = true) (by
    simp only [Option.any_eq_true, beq_iff_eq, State.IsPending])

/-- The ids queued for a poll: those of the worker's own queue, then those of the role queue. -/
def State.queuedFor (s : State) (worker role : String) : List String :=
  s.workerQueues.queue worker ++ s.pendingQueues.queue role

/-- What a poll of the worker for the role may find. -/
def State.waiting (s : State) (worker role : String) : List String :=
  (s.queuedFor worker role).filter (s.IsPending ·)

/-- The first waiting tasks, at most `maxTasks` but one at least. -/
def State.batch (s : State) (worker role : String) (maxTasks : Nat) : List String :=
  (s.waiting worker role).take (max 1 maxTasks)

/-- The first queued id names a waiting task, or none does. -/
def State.FirstWaits (s : State) (worker role : String) : Prop :=
  ∀ id, (s.queuedFor worker role).head? = some id →
    s.IsPending id ∨ s.waiting worker role = []

/-- The answer to a poll: 204 (`none`) when no task is handed out. -/
def answer (taken : List (String × Bytes)) : Option (List (String × Bytes)) :=
  if taken = [] then none else some taken

variable {s s' : State} {g : Relay.Inner} {id x worker role : String} {task : Task}
  {now : Instant} {issued : List String}

namespace Mirrors

theorem isPending (h : Mirrors s g) (x : String) : s.IsPending x ↔ g.IsPending x := by
  constructor
  · rintro ⟨task, htask, hpending⟩
    obtain ⟨twin, htwin, hsame⟩ := h.twin_of htask
    have hstatus : task.status = twin.status := congrArg Relay.Task.status hsame
    exact ⟨twin, htwin, hstatus ▸ hpending⟩
  · rintro ⟨twin, htwin, hpending⟩
    obtain ⟨task, htask, hsame⟩ := h.task_of htwin
    have hstatus : task.status = twin.status := congrArg Relay.Task.status hsame
    exact ⟨task, htask, hstatus.trans hpending⟩

theorem waiting (h : Mirrors s g) (worker role : String) :
    s.waiting worker role = g.waiting worker role := by
  rw [State.waiting, Relay.Inner.waiting, Relay.Inner.pendingOf, State.queuedFor, h.own, h.shared]
  exact List.filter_congr fun x _ => decide_eq_decide.mpr (h.isPending x)

theorem batch (h : Mirrors s g) (worker role : String) (maxTasks : Nat) :
    s.batch worker role maxTasks = g.batch worker role maxTasks := by
  rw [State.batch, Relay.Inner.batch, h.waiting]

theorem withPayloads {ids : List String} (h : Mirrors s g)
    (hids : ∀ id ∈ ids, (g.tasks.lookup id).isSome = true) :
    PyRelay.withPayloads s ids = Relay.withPayloads g ids := by
  apply List.filterMap_congr
  intro id hid
  obtain ⟨twin, htwin⟩ := Option.isSome_iff_exists.mp (hids id hid)
  obtain ⟨task, htask, hsame⟩ := h.task_of htwin
  have hpayload : task.payload = twin.payload := congrArg Relay.Task.payload hsame
  rw [htwin, (get_eq_some.mp htask).2, Option.map_some, Option.map_some, hpayload]

/-- Taking a waiting task. -/
theorem take (h : Mirrors s g) (hid : g.IsPending id) (worker : String) (now : Instant) :
    (PyRelay.take s id worker now).1 = true ∧
      Mirrors (PyRelay.take s id worker now).2 (g.assign id worker now) := by
  obtain ⟨task, htask, hpending⟩ := (h.isPending id).mpr hid
  obtain ⟨twin, htwin, hsame⟩ := h.twin_of htask
  have hrole : task.targetRole = twin.targetRole := congrArg Relay.Task.targetRole hsame
  have hsession : task.session = twin.session := congrArg Relay.Task.session hsame
  have hassigned : Mirrors (s.setTask id fun task => { task with
      status := .assigned, workerId := some worker, assignedAt := some now })
      { g with tasks := g.tasks.modify id (Relay.handedTo worker now) } :=
    h.setTask fun task twin heq => congrArg (Relay.handedTo worker now) heq
  simp only [PyRelay.take, htask, hpending, if_true, Relay.Inner.assign, htwin]
  rw [← hsession, ← hrole]
  cases task.session with
  | none => exact ⟨rfl, hassigned⟩
  | some session => exact ⟨rfl, hassigned.bound _ _⟩

theorem not_take (h : Mirrors s g) (hid : ¬g.IsPending id) (worker : String) (now : Instant) :
    PyRelay.take s id worker now = (false, s) := by
  unfold PyRelay.take
  cases htask : s.get id with
  | none => rfl
  | some task => exact if_neg fun hpending => hid ((h.isPending id).mp ⟨task, htask, hpending⟩)

end Mirrors

/-! ### One look -/

theorem queueGetFirst_cases (s : State) (worker role : String) :
    (∃ id rest, s.workerQueues.queue worker = id :: rest ∧ queueGetFirst s worker role =
      some (id, { s with workerQueues := s.workerQueues.insert worker rest })) ∨
    (∃ id rest, s.workerQueues.queue worker = [] ∧ s.pendingQueues.queue role = id :: rest ∧
      queueGetFirst s worker role =
        some (id, { s with pendingQueues := s.pendingQueues.insert role rest })) ∨
    s.queuedFor worker role = [] ∧ queueGetFirst s worker role = none := by
  unfold queueGetFirst State.queuedFor
  cases hown : s.workerQueues.queue worker with
  | cons id rest => exact .inl ⟨id, rest, rfl, rfl⟩
  | nil =>
      cases hshared : s.pendingQueues.queue role with
      | cons id rest => exact .inr (.inl ⟨id, rest, rfl, rfl, rfl⟩)
      | nil => exact .inr (.inr ⟨rfl, rfl⟩)

namespace Mirrors

theorem popOwn {rest : List String} (h : Mirrors s g)
    (hown : s.workerQueues.queue worker = id :: rest) :
    Mirrors { s with workerQueues := s.workerQueues.insert worker rest }
      { g with workerQueues := g.workerQueues.modify worker fun _ => rest } := by
  refine { h with own := fun w => ?_ }
  have hown' := (h.own worker).trans hown
  rw [AList.queue_insert, AList.queue_modify _ _ _ _ fun hnil =>
    absurd (hown'.symm.trans hnil) (List.cons_ne_nil _ _), h.own]

theorem popShared {rest : List String} (h : Mirrors s g)
    (hshared : s.pendingQueues.queue role = id :: rest) :
    Mirrors { s with pendingQueues := s.pendingQueues.insert role rest }
      { g with roleQueues := g.roleQueues.modify role fun _ => rest } := by
  refine { h with shared := fun r => ?_ }
  have hshared' := (h.shared role).trans hshared
  rw [AList.queue_insert, AList.queue_modify _ _ _ _ fun hnil =>
    absurd (hshared'.symm.trans hnil) (List.cons_ne_nil _ _), h.shared]

/-- An empty queue may be emptied. -/
theorem emptyOwn (h : Mirrors s g) (hown : s.workerQueues.queue worker = []) :
    Mirrors s { g with workerQueues := g.workerQueues.modify worker fun _ => [] } := by
  refine { h with own := fun w => ?_ }
  rw [AList.queue_modify _ _ _ _ fun _ => rfl, h.own]
  split
  · rename_i hw
    rw [hw, hown]
  · rfl

/-- A look at the first queued id takes its task as the other relay would, or skips the id. -/
theorem look (h : Mirrors s g) (hget : queueGetFirst s worker role = some (id, s'))
    (now : Instant) :
    (s.queuedFor worker role).head? = some id ∧ queued s' worker role + 1 = queued s worker role ∧
    (g.IsPending id → (PyRelay.take s' id worker now).1 = true ∧
      (g.takeNext worker role now).1 = some id ∧
      Mirrors (PyRelay.take s' id worker now).2 (g.takeNext worker role now).2) ∧
    (¬g.IsPending id → PyRelay.take s' id worker now = (false, s') ∧
      ∃ g', Took g worker now none g' ∧ g.Dealt worker now [] g' ∧ Mirrors s' g') := by
  rcases queueGetFirst_cases s worker role with
    ⟨first, rest, hown, hfirst⟩ | ⟨first, rest, hown, hshared, hfirst⟩ | ⟨_, hfirst⟩
  · obtain ⟨rfl, rfl⟩ := Prod.mk.inj (Option.some.inj (hfirst.symm.trans hget))
    have hpopped := h.popOwn hown
    refine ⟨by rw [State.queuedFor, hown]; rfl, ?_, fun hid => ?_, fun hid => ?_⟩
    · simp only [queued, AList.queue_insert_self, hown, List.length_cons]
      omega
    · rw [Relay.Inner.takeNext_own ((h.own worker).trans hown) hid]
      obtain ⟨htaken, hafter⟩ := hpopped.take hid worker now
      exact ⟨htaken, rfl, hafter⟩
    · obtain ⟨htook, hdealt⟩ := Relay.Inner.skipped_own ((h.own worker).trans hown) hid now
      exact ⟨hpopped.not_take hid worker now, _, htook, hdealt, hpopped⟩
  · obtain ⟨rfl, rfl⟩ := Prod.mk.inj (Option.some.inj (hfirst.symm.trans hget))
    have hpopped := h.popShared hshared
    refine ⟨by rw [State.queuedFor, hown, hshared]; rfl, ?_, fun hid => ?_, fun hid => ?_⟩
    · rw [queued, queued, AList.queue_insert_self, hshared, List.length_cons]
      rfl
    · rw [Relay.Inner.takeNext_shared ((h.own worker).trans hown) ((h.shared role).trans hshared)
        hid]
      obtain ⟨htaken, hafter⟩ := (hpopped.emptyOwn hown).take hid worker now
      exact ⟨htaken, rfl, hafter⟩
    · obtain ⟨htook, hdealt⟩ :=
        Relay.Inner.skipped_shared ((h.shared role).trans hshared) hid worker now
      exact ⟨hpopped.not_take hid worker now, _, htook, hdealt, hpopped⟩
  · cases hfirst.symm.trans hget

end Mirrors

/-! ### The whole poll -/

theorem queued_take (s : State) (id worker role : String) (now : Instant) (w : String) :
    queued (take s id worker now).2 w role = queued s w role := by
  unfold take
  split
  · rfl
  split
  · split <;> rfl
  · rfl

theorem length_queuedFor (s : State) (worker role : String) :
    (s.queuedFor worker role).length = queued s worker role :=
  List.length_append

theorem waiting_of_queuedFor (h : s.queuedFor worker role = []) : s.waiting worker role = [] := by
  rw [State.waiting, h]
  rfl

/-- A task that the other relay takes is the first that waits, and the others wait after it. -/
theorem takeNext_first (hg : g.QueuesExact) (hknown : g.Known issued) {id : String}
    (hnext : (g.takeNext worker role now).1 = some id) :
    ∃ rest, g.waiting worker role = id :: rest ∧ (g.takeNext worker role now).2.waiting worker role = rest ∧
      (g.takeNext worker role now).2.QueuesExact ∧ (g.takeNext worker role now).2.Known issued ∧
        g.Dealt worker now [id] (g.takeNext worker role now).2 := by
  obtain ⟨hfirst, hdealt⟩ := g.takeNext_dealt worker role now
  have htook := Relay.took_takeNext g worker role now
  rw [hnext] at hfirst hdealt
  obtain ⟨rest, hwaiting⟩ := List.head?_eq_some_iff.mp hfirst.symm
  have hleft := hdealt.waiting_rest hwaiting (hg.nodup_waiting worker role)
  exact ⟨rest, hwaiting, hleft, htook.queuesExact hg, htook.known hknown, hdealt⟩

/-- The state mirrors what handing out the tasks makes of the other relay's state. -/
def Deals (g : Relay.Inner) (worker : String) (now : Instant) (issued ids : List String)
    (s : State) : Prop :=
  ∃ g', Mirrors s g' ∧ g'.QueuesExact ∧ g'.Known issued ∧ g.Dealt worker now ids g'

theorem Deals.trans {g' : Relay.Inner} {ids ids' : List String}
    (hdealt : g.Dealt worker now ids g') (h : Deals g' worker now issued ids' s) :
    Deals g worker now issued (ids ++ ids') s := by
  obtain ⟨g'', hmirrors, hexact, hknown, hrest⟩ := h
  exact ⟨g'', hmirrors, hexact, hknown, hdealt.trans hrest⟩

namespace Mirrors

theorem deals_nil (h : Mirrors s g) (hg : g.QueuesExact) (hknown : g.Known issued) :
    Deals g worker now issued [] s :=
  ⟨g, h, hg, hknown, .refl g worker now⟩

theorem waiting_of_none (h : Mirrors s g) (hget : queueGetFirst s worker role = none) :
    g.waiting worker role = [] := by
  rw [← h.waiting]
  rcases queueGetFirst_cases s worker role with
    ⟨_, _, _, hfirst⟩ | ⟨_, _, _, _, hfirst⟩ | ⟨hnone, _⟩
  · cases hfirst.symm.trans hget
  · cases hfirst.symm.trans hget
  · exact waiting_of_queuedFor hnone

/-- The loop for further tasks takes the first ones that wait, whatever lies between them. -/
theorem takeMore {fuel : Nat} (wanted : Nat) (h : Mirrors s g) (hg : g.QueuesExact)
    (hknown : g.Known issued) (hfuel : queued s worker role ≤ fuel) :
    (PyRelay.takeMore worker role now fuel wanted s).1 = (g.waiting worker role).take wanted ∧
      Deals g worker now issued ((g.waiting worker role).take wanted)
        (PyRelay.takeMore worker role now fuel wanted s).2 := by
  induction fuel generalizing wanted s g with
  | zero =>
      have hnone : g.waiting worker role = [] := by
        rw [← h.waiting]
        refine waiting_of_queuedFor (List.length_eq_zero_iff.mp ?_)
        rw [length_queuedFor]
        omega
      rw [hnone, List.take_nil]
      unfold PyRelay.takeMore
      exact ⟨rfl, h.deals_nil hg hknown⟩
  | succ fuel ih =>
      cases wanted with
      | zero =>
          unfold PyRelay.takeMore
          exact ⟨rfl, h.deals_nil hg hknown⟩
      | succ wanted =>
          rw [PyRelay.takeMore]
          cases hget : queueGetFirst s worker role with
          | none =>
              rw [h.waiting_of_none hget]
              exact ⟨rfl, h.deals_nil hg hknown⟩
          | some found =>
              obtain ⟨id, s'⟩ := found
              obtain ⟨_, hqueued, hpending, hstale⟩ := h.look hget now
              dsimp only
              by_cases hid : g.IsPending id
              · obtain ⟨htaken, hnext, hafter⟩ := hpending hid
                obtain ⟨rest, hwaiting, hleft, hexact, hissued, hdealt⟩ := takeNext_first hg hknown hnext
                have hfewer : queued (PyRelay.take s' id worker now).2 worker role ≤ fuel := by
                  rw [queued_take]
                  omega
                obtain ⟨hmore, hdeals⟩ := ih wanted hafter hexact hissued hfewer
                rw [hleft] at hmore hdeals
                rw [hwaiting, List.take_succ_cons, ← hmore]
                generalize PyRelay.take s' id worker now = result at htaken hmore hdeals ⊢
                obtain ⟨taken, s''⟩ := result
                obtain rfl : taken = true := htaken
                rw [← hmore] at hdeals
                exact ⟨rfl, .trans hdealt hdeals⟩
              · obtain ⟨hskip, g', htook, hdealt, hafter⟩ := hstale hid
                have hleft : g'.waiting worker role = g.waiting worker role := by
                  rw [hdealt.waiting]
                  exact List.filter_eq_self.mpr fun _ _ => by simp
                have hfewer : queued s' worker role ≤ fuel := by omega
                obtain ⟨hmore, hdeals⟩ := ih (wanted + 1) hafter (htook.queuesExact hg)
                  (htook.known hknown) hfewer
                rw [hleft] at hmore hdeals
                rw [hskip]
                exact ⟨hmore, .trans hdealt hdeals⟩

/-- A poll hands out the first waiting tasks if the first queued id is one of them or there is
none, and otherwise answers 204, with the first queued id dropped. -/
theorem pollTask (h : Mirrors s g) (hg : g.QueuesExact) (hknown : g.Known issued)
    (role worker : String) (maxTasks : Nat) (now : Instant) :
    (s.FirstWaits worker role →
      (PyRelay.pollTask s role worker maxTasks now).1 =
          answer (Relay.withPayloads g (g.batch worker role maxTasks)) ∧
        Deals g worker now issued (g.batch worker role maxTasks)
          (PyRelay.pollTask s role worker maxTasks now).2) ∧
    (¬s.FirstWaits worker role → (PyRelay.pollTask s role worker maxTasks now).1 = none ∧
      Deals g worker now issued [] (PyRelay.pollTask s role worker maxTasks now).2) := by
  have hnothing : g.waiting worker role = [] → g.batch worker role maxTasks = [] := fun hnone => by
    rw [Relay.Inner.batch, hnone, List.take_nil]
  cases hget : queueGetFirst s worker role with
  | none =>
      rw [hnothing (h.waiting_of_none hget), PyRelay.pollTask, hget]
      exact ⟨fun _ => ⟨rfl, h.deals_nil hg hknown⟩, fun _ => ⟨rfl, h.deals_nil hg hknown⟩⟩
  | some found =>
      obtain ⟨id, s'⟩ := found
      obtain ⟨hhead, _, hpending, hstale⟩ := h.look hget now
      rw [PyRelay.pollTask, hget]
      dsimp only
      by_cases hid : g.IsPending id
      · have hready : s.FirstWaits worker role := fun first hfirst => by
          obtain rfl := Option.some.inj (hhead.symm.trans hfirst)
          exact .inl ((h.isPending id).mpr hid)
        refine ⟨fun _ => ?_, fun hnot => absurd hready hnot⟩
        obtain ⟨htaken, hnext, hafter⟩ := hpending hid
        obtain ⟨rest, hwaiting, hleft, hexact, hissued, hdealt⟩ := takeNext_first hg hknown hnext
        have hbatch : g.batch worker role maxTasks = id :: rest.take (maxTasks - 1) := by
          rw [Relay.Inner.batch, hwaiting, show max 1 maxTasks = maxTasks - 1 + 1 by omega,
            List.take_succ_cons]
        generalize PyRelay.take s' id worker now = result at htaken hafter ⊢
        obtain ⟨taken, s''⟩ := result
        obtain rfl : taken = true := htaken
        dsimp only at hafter ⊢
        obtain ⟨hmore, hdeals⟩ := hafter.takeMore (maxTasks - 1) hexact hissued
          (le_refl (queued s'' worker role))
        rw [hleft] at hmore hdeals
        have hall := Deals.trans hdealt hdeals
        rw [List.singleton_append, ← hbatch] at hall
        refine ⟨?_, hall⟩
        obtain ⟨g', hlast, _, _, hdealt'⟩ := hall
        have hstored : ∀ x ∈ g.batch worker role maxTasks, (g.tasks.lookup x).isSome = true :=
          fun x => Relay.Inner.batch_stored
        have hsome : (g.tasks.lookup id).isSome = true :=
          hstored id (hbatch ▸ List.mem_cons_self)
        obtain ⟨task, htask⟩ := Option.isSome_iff_exists.mp hsome
        rw [hmore, ← hbatch, hlast.withPayloads fun x hx => by
          rw [hdealt'.tasks, if_pos hx, Option.isSome_map]
          exact hstored x hx, Relay.Inner.withPayloads_dealt hdealt', answer, if_neg]
        rw [hbatch, Relay.withPayloads, List.filterMap_cons, htask]
        exact List.cons_ne_nil _ _
      · obtain ⟨hskip, g', htook, hdealt, hafter⟩ := hstale hid
        have hdeals : Deals g worker now issued [] s' :=
          ⟨g', hafter, htook.queuesExact hg, htook.known hknown, hdealt⟩
        rw [hskip]
        refine ⟨fun hready => ?_, fun _ => ⟨rfl, hdeals⟩⟩
        have hnone : g.waiting worker role = [] := by
          rw [← h.waiting]
          exact (hready id hhead).resolve_left fun hwaits => hid ((h.isPending id).mp hwaits)
        rw [hnothing hnone]
        exact ⟨rfl, hdeals⟩

end Mirrors
end Distllm.PyRelay
