import Mathlib.Data.Option.Basic
import Mathlib.Logic.Relation
import Distllm.Run
import Distllm.PyRelayState

/-! Failure reports of the Python relay. The handler of `/fail` checks the task, waits for the
body of the request, and only then has its effect: other requests and the janitor run in between.
The invariant of the task objects says which reports still have an effect when their body arrives,
and when such an effect is one the checks would have allowed. -/

namespace Distllm.PyRelay

open State
open Relay (Bytes Instant Duration Status Value fromSecs)

inductive Op where
  | submit (taskId targetRole senderId route session : String) (body : Bytes)
  | poll (role worker : String) (maxTasks : Nat)
  | result (taskId : String) (workerId : Option String) (stopChain : Bool) (body : Bytes)
      (next : String)
  | register (nodeId role : String) (sessions : List String)
  | deregister (nodeId : String)
  | heartbeat (nodeId : String)
  | janitor (stuckNow oldNow : Instant)

/-- The task identifiers an operation draws. -/
def Op.drawn : Op → List String
  | submit taskId .. => [taskId]
  | result _ _ _ _ next => [next]
  | _ => []

variable (timeouts : Timeouts) (unpackb : Bytes → Option Value)

def exec (op : Op) (now : Instant) (s : State) : State :=
  match op with
  | .submit taskId targetRole senderId route session body =>
    submitTask s taskId targetRole senderId route session body now
  | .poll role worker maxTasks => (pollTask s role worker maxTasks now).2
  | .result taskId workerId stopChain body next =>
    match postResult unpackb s taskId workerId stopChain body next now with
    | .ok (_, s) => s
    | .error _ => s
  | .register nodeId role sessions => register s nodeId role sessions now
  | .deregister nodeId => deregister s nodeId
  | .heartbeat nodeId => match heartbeat s nodeId now with
    | .ok s => s
    | .error _ => s
  | .janitor stuckNow oldNow => s.relayJanitor timeouts now stuckNow oldNow

/-- The relay with the failure reports that wait for their bodies and the identifiers drawn. -/
structure World where
  state : State
  reports : List FailReport
  issued : List String

def World.start : World := ⟨.empty, [], []⟩

inductive Event where
  | call (op : Op) (now : Instant)
  | fail (report : FailReport)
  | failBody (report : FailReport) (body : String) (now : Instant)

/-- The reports that wait after the first part of a `/fail`. -/
def waiting (w : World) (report : FailReport) : List FailReport :=
  match postFailure w.state report with
  | .ok (.inr report) => report :: w.reports
  | .ok (.inl _) | .error _ => w.reports

inductive Step : World → Event → World → Prop where
  | call {w : World} {op : Op} {now : Instant} (hfresh : ∀ id ∈ op.drawn, id ∉ w.issued) :
      Step w (.call op now) ⟨exec timeouts unpackb op now w.state, w.reports, op.drawn ++ w.issued⟩
  | fail {w : World} {report : FailReport} :
      Step w (.fail report) ⟨w.state, waiting w report, w.issued⟩
  | failBody {w : World} {report : FailReport} {body : String} {now : Instant}
      (hwaits : report ∈ w.reports) :
      Step w (.failBody report body now)
        ⟨postFailureBody w.state report body now, w.reports.erase report, w.issued⟩

abbrev RunFrom : List Event → World → Prop := Run (Step timeouts unpackb) World.start

/-! ### Changes of the task objects -/

/-- The same task, but for where it waits: handed to a worker, or back in its queue. -/
structure Task.Moved (task task' : Task) : Prop where
  rootId : task'.rootId = task.rootId
  done : task'.done = task.done
  status : task'.status = task.status ∧ task'.workerId = task.workerId ∨
    task.status = .pending ∧ task'.status = .assigned ∧ task'.workerId.isSome = true ∨
    task.status = .assigned ∧ task'.status = .pending ∧ task'.workerId = none

theorem Task.Moved.refl (task : Task) : task.Moved task := ⟨rfl, rfl, .inl ⟨rfl, rfl⟩⟩

/-- No task object mentions the identifier. -/
structure State.Fresh (s : State) (id : String) : Prop where
  object : s.objects.lookup id = none
  root : ∀ x task, s.objects.lookup x = some task → task.rootId ≠ id

inductive Change (drawn : List String) : State → State → Prop where
  | moved {s s' : State}
      (hobjects : ∀ x, Option.Rel Task.Moved (s.objects.lookup x) (s'.objects.lookup x))
      (htasks : s'.tasks ⊆ s.tasks) : Change drawn s s'
  | created {s s' : State} {id : String} (task : Task) (hid : id ∈ drawn) (hfresh : s.Fresh id)
      (hpending : task.status = .pending) (hworker : task.workerId = none)
      (hdone : task.done = false)
      (hroot : task.rootId = id ∨
        ∃ x t, s.objects.lookup x = some t ∧ task.rootId = t.rootId)
      (hobjects : ∀ x, s'.objects.lookup x = if x = id then some task else s.objects.lookup x)
      (htasks : ∀ x ∈ s'.tasks, x = id ∨ x ∈ s.tasks) : Change drawn s s'
  | forwarded {s : State} {id : String} {task : Task} {now : Instant}
      (htask : s.get id = some task) (hlive : task.status.finished = false) :
      Change drawn s (s.setTask id (markForwarded id now))
  | finished {s : State} {id : String} {task : Task} {status : Status} {result : Bytes}
      {now : Instant} (htask : s.objects.lookup id = some task)
      (hstatus : status = .completed ∨ status = .failed) :
      Change drawn s (finish s id status result now)

abbrev Changes (drawn : List String) : State → State → Prop :=
  Relation.ReflTransGen (Change drawn)

variable {drawn : List String} {now : Instant}

theorem relMoved_refl (o : Option Task) : Option.Rel Task.Moved o o := by
  cases o with
  | none => exact .none
  | some task => exact .some (.refl task)

/-- Operations on the other tables, and dropped tasks, leave the objects alone. -/
theorem change_of_objects {s s' : State} (hobjects : s'.objects = s.objects)
    (htasks : s'.tasks ⊆ s.tasks) : Change drawn s s' :=
  .moved (fun x => by rw [hobjects]; exact relMoved_refl _) htasks

theorem get_eq_some {s : State} {id : String} {task : Task} :
    s.get id = some task ↔ id ∈ s.tasks ∧ s.objects.lookup id = some task := by
  unfold State.get
  split
  · rename_i h
    simp [h]
  · rename_i h
    simp [h]

theorem boundWorker_frame (s : State) (task : Task) :
    ∃ affinity, (s.boundWorker task).2 = { s with affinity := affinity } := by
  unfold boundWorker
  split
  · exact ⟨_, rfl⟩
  split
  · exact ⟨_, rfl⟩
  split
  · exact ⟨_, rfl⟩
  split
  · split <;> exact ⟨_, rfl⟩
  · exact ⟨_, rfl⟩

/-- A new task is stored under its key; otherwise only queues and bindings change. -/
theorem enqueue_frame (s : State) (id : String) (task : Task) :
    (s.enqueue id task).objects = s.objects.put id task ∧
      ∀ x ∈ (s.enqueue id task).tasks, x = id ∨ x ∈ s.tasks := by
  have htasks : ∀ x ∈ (if id ∈ s.tasks then s.tasks else s.tasks ++ [id]), x = id ∨ x ∈ s.tasks := by
    intro x hx
    split at hx
    · exact .inr hx
    · exact (List.mem_append.mp hx).elim .inr fun h => .inl (List.mem_singleton.mp h)
  set s' : State := { s with
    objects := s.objects.put id task
    tasks := if id ∈ s.tasks then s.tasks else s.tasks ++ [id] } with hs'
  obtain ⟨affinity, hframe⟩ := boundWorker_frame s' task
  unfold enqueue
  dsimp only
  rw [← hs', hframe]
  split
  · exact ⟨rfl, htasks⟩
  · exact ⟨rfl, htasks⟩

theorem setTask_moved {s : State} {id : String} {f : Task → Task}
    (h : ∀ task, s.objects.lookup id = some task → task.Moved (f task)) (x : String) :
    Option.Rel Task.Moved (s.objects.lookup x) ((s.setTask id f).objects.lookup x) := by
  rw [setTask, AList.lookup_modify]
  split
  · rename_i hx
    subst hx
    cases ht : s.objects.lookup x with
    | none => exact .none
    | some task => exact .some (h task ht)
  · exact relMoved_refl _

/-- Re-queueing a stored task releases it; otherwise only its queue and bindings change. -/
theorem requeue_of_lookup {s : State} {id : String} {task : Task}
    (htask : s.objects.lookup id = some task) :
    ∃ affinity queues, s.requeue id = { s.setTask id (fun task =>
      { task with status := .pending, workerId := none, assignedAt := none }) with
      affinity := affinity, pendingQueues := queues } := by
  simp only [requeue, htask]
  cases task.session with
  | none => exact ⟨_, _, rfl⟩
  | some session =>
      dsimp only
      split <;> exact ⟨_, _, rfl⟩

theorem requeue_change {s : State} {id : String} {task : Task}
    (htask : s.objects.lookup id = some task) (hassigned : task.status = .assigned) :
    Change drawn s (s.requeue id) := by
  obtain ⟨affinity, queues, h⟩ := requeue_of_lookup htask
  rw [h]
  refine .moved (fun x => setTask_moved (fun t ht => ?_) x) fun x hx => hx
  cases htask.symm.trans ht
  exact ⟨rfl, rfl, .inr (.inr ⟨hassigned, rfl, rfl⟩)⟩

theorem requeueHeld_changes (worker : String) (s : State) (id : String) :
    Changes drawn s (s.requeueHeld worker id) := by
  unfold requeueHeld
  split
  · rename_i task htask
    split
    · rename_i h
      exact .single (requeue_change htask h.1)
    · exact .refl
  · exact .refl

theorem requeueStuck_changes (s : State) (id : String) :
    Changes drawn s (s.requeueStuck timeouts now id) := by
  unfold requeueStuck
  split
  · rename_i task htask
    split
    · rename_i h
      exact .single (requeue_change htask h.1)
    · exact .refl
  · exact .refl

theorem moveToRole_changes (s : State) (id : String) : Changes drawn s (s.moveToRole id) := by
  unfold moveToRole
  split
  · split
    · exact .single (change_of_objects rfl fun x hx => hx)
    · exact .refl
  · exact .refl

theorem foldl_changes {α : Type} {f : State → α → State} (h : ∀ s x, Changes drawn s (f s x))
    (items : List α) (s : State) : Changes drawn s (items.foldl f s) := by
  induction items generalizing s with
  | nil => exact .refl
  | cons item rest ih => exact (h s item).trans (ih _)

theorem forgetWorker_changes (s : State) (worker : String) :
    Changes drawn s (s.forgetWorker worker) := by
  apply (foldl_changes (requeueHeld_changes worker) s.tasks s).trans
  set s' := s.tasks.foldl (requeueHeld worker) s
  have herased : Change drawn s' { s' with workerQueues := s'.workerQueues.erase worker } :=
    change_of_objects rfl fun x hx => hx
  refine .tail ((Relation.ReflTransGen.single herased).trans
    (foldl_changes moveToRole_changes (s'.workerQueues.queue worker) _)) ?_
  exact change_of_objects rfl fun x hx => hx

theorem dropNode_changes (s : State) (nodeId : String) : Changes drawn s (s.dropNode nodeId) := by
  unfold dropNode
  split
  · have herased : Change drawn s { s with nodes := s.nodes.erase nodeId } :=
      change_of_objects rfl fun x hx => hx
    exact .head herased (forgetWorker_changes _ nodeId)
  · exact .refl

theorem relayJanitor_changes (s : State) (stuckNow oldNow : Instant) :
    Changes drawn s (s.relayJanitor timeouts now stuckNow oldNow) := by
  set silent := s.nodes.keysWhere fun _ node =>
    decide (now - node.lastHeartbeat > timeouts.nodeTimeout)
  have hdropped : Changes drawn s (silent.foldl dropNode s) := foldl_changes dropNode_changes _ s
  set dropped := silent.foldl dropNode s with hd
  have hstuck : Changes drawn dropped (dropped.cleanupStuckTasks timeouts stuckNow) :=
    foldl_changes (requeueStuck_changes timeouts) _ dropped
  refine .tail (hdropped.trans hstuck) ?_
  exact change_of_objects rfl fun x hx => (List.mem_filter.mp hx).1

theorem take_changes (s : State) (id worker : String) :
    Changes drawn s (take s id worker now).2 := by
  unfold take
  split
  · exact .refl
  rename_i task htask
  split
  · rename_i hpending
    have hobject := (get_eq_some.mp htask).2
    have htaken : ∀ x, Option.Rel Task.Moved (s.objects.lookup x)
        ((s.setTask id fun task => { task with
          status := .assigned, workerId := some worker, assignedAt := some now }).objects.lookup
            x) := by
      apply setTask_moved
      intro t ht
      cases hobject.symm.trans ht
      exact ⟨rfl, rfl, .inr (.inl ⟨hpending, rfl, rfl⟩)⟩
    cases task.session with
    | none => exact .single (.moved htaken fun x hx => hx)
    | some session => exact .single (.moved htaken fun x hx => hx)
  · exact .refl

theorem queueGetFirst_change {s s' : State} {worker role id : String}
    (h : queueGetFirst s worker role = some (id, s')) : Change drawn s s' := by
  unfold queueGetFirst at h
  split at h
  · cases h
    exact change_of_objects rfl fun x hx => hx
  split at h
  · cases h
    exact change_of_objects rfl fun x hx => hx
  · cases h

theorem takeMore_changes (worker role : String) (fuel wanted : Nat) (s : State) :
    Changes drawn s (takeMore worker role now fuel wanted s).2 := by
  induction fuel generalizing wanted s with
  | zero =>
      unfold takeMore
      exact .refl
  | succ fuel ih =>
      cases wanted with
      | zero =>
          unfold takeMore
          exact .refl
      | succ wanted =>
          rw [takeMore]
          cases hget : queueGetFirst s worker role with
          | none => exact .refl
          | some found =>
              obtain ⟨id, s'⟩ := found
              have htake : Changes drawn s' (take s' id worker now).2 := take_changes s' id worker
              refine .head (queueGetFirst_change hget) ?_
              dsimp only
              cases hresult : take s' id worker now with
              | mk taken s'' =>
                  rw [hresult] at htake
                  cases taken with
                  | true => exact htake.trans (ih wanted s'')
                  | false => exact htake.trans (ih (wanted + 1) s'')

theorem pollTask_changes (s : State) (role worker : String) (maxTasks : Nat) :
    Changes drawn s (pollTask s role worker maxTasks now).2 := by
  unfold pollTask
  cases hget : queueGetFirst s worker role with
  | none => exact .refl
  | some found =>
      obtain ⟨id, s'⟩ := found
      have htake : Changes drawn s' (take s' id worker now).2 := take_changes s' id worker
      refine .head (queueGetFirst_change hget) ?_
      dsimp only
      cases hresult : take s' id worker now with
      | mk taken s'' =>
          rw [hresult] at htake
          cases taken with
          | true => exact htake.trans (takeMore_changes worker role _ _ s'')
          | false => exact htake

theorem register_changes (s : State) (nodeId role : String) (sessions : List String) :
    Changes drawn s (register s nodeId role sessions now) := by
  have hnodes : Change drawn s { s with nodes := s.nodes.put nodeId ⟨role, now⟩ } :=
    change_of_objects rfl fun x hx => hx
  refine .head hnodes (foldl_changes (fun s session => ?_) _ _)
  unfold claim
  dsimp only
  split
  · exact .refl
  · exact .single (change_of_objects rfl fun x hx => hx)

/-- What a post of a result does to the task objects: nothing, a completion, or a forward. -/
theorem postResult_cases (s : State) (id : String) (workerId : Option String) (stopChain : Bool)
    (body : Bytes) (next : String) (now : Instant) :
    (∃ e, postResult unpackb s id workerId stopChain body next now = .error e) ∨
    (postResult unpackb s id workerId stopChain body next now = .ok ("ignored", s)) ∨
    (∃ task, s.get id = some task ∧ task.status.finished = false ∧
      postResult unpackb s id workerId stopChain body next now =
        .ok ("ok", finish s id .completed body now)) ∨
    ∃ task nextRole tail, s.get id = some task ∧ task.status.finished = false ∧
      task.route = nextRole :: tail ∧
      postResult unpackb s id workerId stopChain body next now =
        .ok ("forwarded", (s.setTask id (markForwarded id now)).enqueue next
          (successor task nextRole tail body now)) := by
  cases htask : s.get id with
  | none =>
      refine .inl ⟨.notFound, ?_⟩
      simp only [postResult, htask]
      rfl
  | some task =>
      cases hlive : task.status.finished with
      | true =>
          refine .inr (.inl ?_)
          simp only [postResult, htask, hlive]
          rfl
      | false =>
          cases hcheck : checkWorker task workerId with
          | error e =>
              refine .inl ⟨e, ?_⟩
              simp only [postResult, htask, hlive, hcheck]
              rfl
          | ok _ =>
              cases hroute : task.route with
              | nil =>
                  refine .inr (.inr (.inl ⟨task, rfl, hlive, ?_⟩))
                  simp only [postResult, htask, hlive, hcheck, hroute]
                  rfl
              | cons nextRole tail =>
                  cases hstop : stopsChain unpackb body stopChain with
                  | true =>
                      refine .inr (.inr (.inl ⟨task, rfl, hlive, ?_⟩))
                      simp only [postResult, htask, hlive, hcheck, hroute, hstop]
                      rfl
                  | false =>
                      refine .inr (.inr (.inr ⟨task, nextRole, tail, rfl, hlive, hroute, ?_⟩))
                      simp only [postResult, htask, hlive, hcheck, hroute, hstop]
                      rfl

theorem exec_changes (op : Op) (s : State) (hfresh : ∀ id ∈ op.drawn, s.Fresh id) :
    Changes op.drawn s (exec timeouts unpackb op now s) := by
  cases op with
  | submit id targetRole senderId route session body =>
      set task : Task :=
        { senderId := senderId, targetRole := targetRole, payload := body,
          route := nextRoles route, rootId := id, session := sessionOf session,
          status := .pending, workerId := none, assignedAt := none, result := none,
          createdAt := now, completedAt := none, done := false }
      obtain ⟨hobjects, htasks⟩ := enqueue_frame s id task
      refine .single (.created task List.mem_cons_self (hfresh id List.mem_cons_self) rfl rfl rfl
        (.inl rfl) (fun x => ?_) htasks)
      exact (congrArg (AList.lookup x) hobjects).trans (AList.lookup_put id x task s.objects)
  | poll role worker maxTasks => exact pollTask_changes s role worker maxTasks
  | result id workerId stopChain body next =>
      rcases postResult_cases unpackb s id workerId stopChain body next now with
        ⟨e, h⟩ | h | ⟨task, htask, hlive, h⟩ | ⟨task, nextRole, tail, htask, hlive, hroute, h⟩
      · simp only [exec, h]
        exact .refl
      · simp only [exec, h]
        exact .refl
      · simp only [exec, h]
        exact .single (.finished (get_eq_some.mp htask).2 (.inl rfl))
      · simp only [exec, h]
        set s' := s.setTask id (markForwarded id now) with hs'
        have hobject := (get_eq_some.mp htask).2
        have hlookup : ∀ x, s'.objects.lookup x =
            if x = id then (s.objects.lookup x).map (markForwarded id now)
            else s.objects.lookup x := fun x => AList.lookup_modify id x _ s.objects
        have hnew := hfresh next List.mem_cons_self
        have hfresh' : s'.Fresh next := by
          refine ⟨?_, fun x t ht => ?_⟩
          · rw [hlookup, hnew.object]
            split <;> rfl
          · rw [hlookup] at ht
            split at ht
            · obtain ⟨t', ht', rfl⟩ := Option.map_eq_some_iff.mp ht
              exact hnew.root x t' ht'
            · exact hnew.root x t ht
        obtain ⟨hobjects, htasks⟩ := enqueue_frame s' next (successor task nextRole tail body now)
        refine .tail (.single (.forwarded htask hlive)) (.created
          (successor task nextRole tail body now) List.mem_cons_self hfresh' rfl rfl rfl (.inr ⟨id, markForwarded id now task, ?_, rfl⟩) (fun x => ?_) htasks)
        · rw [hlookup, if_pos rfl, hobject, Option.map_some]
        · rw [hobjects, AList.lookup_put]
  | register nodeId role sessions => exact register_changes s nodeId role sessions
  | deregister nodeId => exact dropNode_changes s nodeId
  | heartbeat nodeId =>
      cases h : s.nodes.lookup nodeId with
      | none =>
          simp only [exec, heartbeat, h]
          exact .refl
      | some node =>
          simp only [exec, heartbeat, h]
          exact .single (change_of_objects rfl fun x hx => hx)
  | janitor stuckNow oldNow => exact relayJanitor_changes timeouts s stuckNow oldNow

/-! ### The invariant of the task objects -/

/-- What a task object looks like at every moment. -/
structure Task.Lifecycle (task : Task) (id : String) : Prop where
  pending : task.status = .pending → task.workerId = none ∧ task.done = false
  assigned : task.status = .assigned → task.workerId.isSome = true ∧ task.done = false
  ended : task.status = .completed ∨ task.status = .failed → task.done = true
  forwarded : task.status = .forwarded → task.rootId ≠ id → task.done = true

structure State.Sound (s : State) (issued : List String) : Prop where
  object : ∀ id task, s.objects.lookup id = some task → id ∈ issued
  rootIssued : ∀ id task, s.objects.lookup id = some task → task.rootId ∈ issued
  life : ∀ id task, s.objects.lookup id = some task → task.Lifecycle id
  own : ∀ id task, s.objects.lookup id = some task →
    ∀ root, s.objects.lookup task.rootId = some root → root.rootId = task.rootId
  ended : ∀ id task, s.objects.lookup id = some task →
    task.status = .completed ∨ task.status = .failed →
    ∀ root, s.get task.rootId = some root → root.done = true

theorem Task.Lifecycle.moved {task task' : Task} {id : String} (h : task.Lifecycle id)
    (hmoved : task.Moved task') : task'.Lifecycle id := by
  rcases hmoved.status with ⟨hstatus, hworker⟩ | ⟨hpending, hassigned, hworker⟩ |
    ⟨hassigned, hpending, hworker⟩
  · refine ⟨fun hs => ?_, fun hs => ?_, fun hs => ?_, fun hs hne => ?_⟩
    · rw [hworker, hmoved.done]
      exact h.pending (hstatus.symm.trans hs)
    · rw [hworker, hmoved.done]
      exact h.assigned (hstatus.symm.trans hs)
    · rw [hmoved.done]
      rw [hstatus] at hs
      exact h.ended hs
    · rw [hmoved.done]
      rw [hmoved.rootId] at hne
      exact h.forwarded (hstatus.symm.trans hs) hne
  · have hdone := (h.pending hpending).2
    refine ⟨fun hs => ?_, fun hs => ⟨hworker, hmoved.done.trans hdone⟩, fun hs => ?_,
      fun hs _ => ?_⟩ <;> rw [hassigned] at hs
    · cases hs
    · rcases hs with hs | hs <;> cases hs
    · cases hs
  · have hdone := (h.assigned hassigned).2
    refine ⟨fun hs => ⟨hworker, hmoved.done.trans hdone⟩, fun hs => ?_, fun hs => ?_,
      fun hs _ => ?_⟩ <;> rw [hpending] at hs
    · cases hs
    · rcases hs with hs | hs <;> cases hs
    · cases hs

theorem Task.Moved.ended {task task' : Task} (h : task.Moved task')
    (hended : task'.status = .completed ∨ task'.status = .failed) :
    task.status = .completed ∨ task.status = .failed := by
  rcases h.status with ⟨hstatus, _⟩ | ⟨_, hs, _⟩ | ⟨_, hs, _⟩
  · rwa [hstatus] at hended
  · rw [hs] at hended
    rcases hended with h | h <;> cases h
  · rw [hs] at hended
    rcases hended with h | h <;> cases h

/-- Concluding a target keeps its identity, and leaves it done. -/
theorem conclude_spec (status : Status) (result : Bytes) (now : Instant) (task : Task) :
    (conclude status result now task).rootId = task.rootId ∧
      (conclude status result now task).done = true ∧
      (conclude status result now task = task ∨ task.done = false ∧
        (conclude status result now task).status = status) := by
  unfold conclude
  split
  · rename_i hdone
    exact ⟨rfl, hdone, .inl rfl⟩
  · rename_i hdone
    exact ⟨rfl, rfl, .inr ⟨Bool.not_eq_true _ ▸ hdone, rfl⟩⟩

/-- Finishing a task touches the task objects only. -/
theorem finish_frame (s : State) (id : String) (status : Status) (result : Bytes)
    (now : Instant) : ∃ objects, finish s id status result now = { s with objects := objects } := by
  unfold finish
  split
  · exact ⟨_, rfl⟩
  · dsimp only
    split <;> split <;> exact ⟨_, rfl⟩

/-- The object is one of the targets of finishing the task. -/
def State.Target (s : State) (id : String) (task : Task) (x : String) : Prop :=
  x = id ∧ task.rootId ≠ id ∨ x = task.rootId ∧ x ∈ s.tasks

instance (s : State) (id : String) (task : Task) (x : String) : Decidable (s.Target id task x) :=
  inferInstanceAs (Decidable (_ ∨ _))

/-- Finishing a task concludes its targets and nothing else. -/
theorem finish_of_lookup {s : State} {id : String} {task : Task} (status : Status)
    (result : Bytes) (now : Instant) (htask : s.objects.lookup id = some task) :
    (finish s id status result now).tasks = s.tasks ∧
      ∀ x, (finish s id status result now).objects.lookup x =
        if s.Target id task x then (s.objects.lookup x).map (conclude status result now)
        else s.objects.lookup x := by
  set s₁ := if task.rootId = id then s else s.setTask id (conclude status result now) with hs₁
  have htasks : s₁.tasks = s.tasks := by
    rw [hs₁]
    split <;> rfl
  have hlookup : ∀ x, s₁.objects.lookup x = if x = id ∧ task.rootId ≠ id then
      (s.objects.lookup x).map (conclude status result now) else s.objects.lookup x := by
    intro x
    rw [hs₁]
    by_cases hroot : task.rootId = id
    · rw [if_pos hroot, if_neg (fun h => h.2 hroot)]
    · rw [if_neg hroot, setTask, AList.lookup_modify]
      simp only [ne_eq, hroot, not_false_eq_true, and_true]
  cases hget : s₁.get task.rootId with
  | none =>
      have hfinish : finish s id status result now = s₁ := by
        simp only [finish, htask, ← hs₁, hget]
      rw [hfinish]
      refine ⟨htasks, fun x => (hlookup x).trans ?_⟩
      by_cases hx : x = id ∧ task.rootId ≠ id
      · rw [if_pos hx, if_pos (.inl hx)]
      · rw [if_neg hx]
        split
        · rename_i htarget
          obtain ⟨hxr, hmem⟩ := htarget.resolve_left hx
          have hnone : s₁.objects.lookup x = none := by
            rw [State.get, htasks, ← hxr, if_pos hmem] at hget
            exact hget
          rw [hlookup, if_neg hx] at hnone
          rw [hnone, Option.map_none]
        · rfl
  | some root =>
      have hfinish : finish s id status result now =
          s₁.setTask task.rootId (conclude status result now) := by
        simp only [finish, htask, ← hs₁, hget]
      rw [hfinish]
      obtain ⟨hmem, _⟩ := get_eq_some.mp hget
      rw [htasks] at hmem
      refine ⟨htasks, fun x => ?_⟩
      rw [setTask, AList.lookup_modify, hlookup]
      by_cases hxr : x = task.rootId
      · rw [if_pos hxr, if_pos (show s.Target id task x from .inr ⟨hxr, hxr ▸ hmem⟩)]
        rw [if_neg (fun h => h.2 (hxr.symm.trans h.1))]
      · rw [if_neg hxr]
        by_cases hx : x = id ∧ task.rootId ≠ id
        · rw [if_pos hx, if_pos (.inl hx)]
        · rw [if_neg hx, if_neg]
          rintro (h | h)
          · exact hx h
          · exact hxr h.1

variable {issued : List String}

theorem sound_finished {s : State} (hs : s.Sound issued) {id : String} {task : Task}
    {status : Status} {result : Bytes} (htask : s.objects.lookup id = some task)
    (hstatus : status = .completed ∨ status = .failed) :
    (finish s id status result now).Sound issued := by
  obtain ⟨htasks, hlookup⟩ := finish_of_lookup status result now htask
  set s' := finish s id status result now
  have hback : ∀ x t', s'.objects.lookup x = some t' → ∃ t, s.objects.lookup x = some t ∧
      t'.rootId = t.rootId ∧ (t.done = true → t'.done = true) ∧
      (t' = t ∨ s.Target id task x ∧ t'.done = true ∧ t'.status = status) := by
    intro x t' ht'
    rw [hlookup] at ht'
    split at ht'
    · rename_i htarget
      obtain ⟨t, ht, rfl⟩ := Option.map_eq_some_iff.mp ht'
      obtain ⟨hroot, hdone, hsame | ⟨_, hnew⟩⟩ := conclude_spec status result now t
      · exact ⟨t, ht, hroot, fun _ => hdone, .inl hsame⟩
      · exact ⟨t, ht, hroot, fun _ => hdone, .inr ⟨htarget, hdone, hnew⟩⟩
    · exact ⟨t', ht', rfl, fun h => h, .inl rfl⟩
  have hdead : status ≠ .pending ∧ status ≠ .assigned ∧ status ≠ .forwarded := by
    rcases hstatus with rfl | rfl <;> decide
  refine ⟨fun x t' ht' => ?_, fun x t' ht' => ?_, fun x t' ht' => ?_, fun x t' ht' r hr => ?_,
    fun x t' ht' hended r hr => ?_⟩ <;> obtain ⟨t, ht, hroot, hkeep, hcase⟩ := hback x t' ht'
  · exact hs.object x t ht
  · rw [hroot]
    exact hs.rootIssued x t ht
  · rcases hcase with rfl | ⟨_, hdone, hst⟩
    · exact hs.life x t' ht
    · refine ⟨fun h => ?_, fun h => ?_, fun _ => hdone, fun _ _ => hdone⟩
      · exact absurd (hst.symm.trans h) hdead.1
      · exact absurd (hst.symm.trans h) hdead.2.1
  · rw [hroot] at hr ⊢
    obtain ⟨r', hr', hroot', _⟩ := hback _ r hr
    exact hroot'.trans (hs.own x t ht r' hr')
  · obtain ⟨hmem, hr⟩ := get_eq_some.mp hr
    rw [htasks] at hmem
    obtain ⟨r', hr', _, hkeep', _⟩ := hback _ r hr
    rw [hroot] at hmem hr hr'
    rcases hcase with rfl | ⟨htarget, _, _⟩
    · exact hkeep' (hs.ended x t' ht hended r' (get_eq_some.mpr ⟨hmem, hr'⟩))
    · -- a concluded target has the same root as the task, which is concluded with it
      have hsame : t.rootId = task.rootId := by
        rcases htarget with ⟨rfl, _⟩ | ⟨hx, _⟩
        · cases ht.symm.trans htask
          rfl
        · rw [hx] at ht
          exact hs.own id task htask t ht
      rw [hlookup, if_pos (show s.Target id task t.rootId from .inr ⟨hsame, hmem⟩)] at hr
      obtain ⟨r'', _, rfl⟩ := Option.map_eq_some_iff.mp hr
      exact (conclude_spec status result now r'').2.1

theorem sound_moved {s s' : State} (hs : s.Sound issued)
    (hobjects : ∀ x, Option.Rel Task.Moved (s.objects.lookup x) (s'.objects.lookup x))
    (htasks : s'.tasks ⊆ s.tasks) : s'.Sound issued := by
  have hback : ∀ x t', s'.objects.lookup x = some t' →
      ∃ t, s.objects.lookup x = some t ∧ t.Moved t' := by
    intro x t' ht'
    have hx := hobjects x
    rw [ht'] at hx
    generalize s.objects.lookup x = o at hx ⊢
    cases hx with
    | some h => exact ⟨_, rfl, h⟩
  refine ⟨fun x t' ht' => ?_, fun x t' ht' => ?_, fun x t' ht' => ?_, fun x t' ht' r hr => ?_,
    fun x t' ht' hended r hr => ?_⟩ <;> obtain ⟨t, ht, hmoved⟩ := hback x t' ht'
  · exact hs.object x t ht
  · rw [hmoved.rootId]
    exact hs.rootIssued x t ht
  · exact (hs.life x t ht).moved hmoved
  · rw [hmoved.rootId] at hr ⊢
    obtain ⟨r', hr', hrmoved⟩ := hback _ r hr
    exact hrmoved.rootId.trans (hs.own x t ht r' hr')
  · rw [hmoved.rootId] at hr
    obtain ⟨hmem, hr⟩ := get_eq_some.mp hr
    obtain ⟨r', hr', hrmoved⟩ := hback _ r hr
    rw [hrmoved.done]
    exact hs.ended x t ht (hmoved.ended hended) r' (get_eq_some.mpr ⟨htasks hmem, hr'⟩)

theorem sound_created {s s' : State} (hs : s.Sound issued) {id : String} {task : Task}
    (hid : id ∈ issued) (hfresh : s.Fresh id) (hpending : task.status = .pending)
    (hworker : task.workerId = none) (hdone : task.done = false)
    (hroot : task.rootId = id ∨ ∃ x t, s.objects.lookup x = some t ∧ task.rootId = t.rootId)
    (hobjects : ∀ x, s'.objects.lookup x = if x = id then some task else s.objects.lookup x)
    (htasks : ∀ x ∈ s'.tasks, x = id ∨ x ∈ s.tasks) : s'.Sound issued := by
  have hat : ∀ x t, s'.objects.lookup x = some t →
      x = id ∧ t = task ∨ x ≠ id ∧ s.objects.lookup x = some t := by
    intro x t ht
    rw [hobjects] at ht
    split at ht
    · rename_i hx
      exact .inl ⟨hx, (Option.some.inj ht).symm⟩
    · rename_i hx
      exact .inr ⟨hx, ht⟩
  refine ⟨fun x t ht => ?_, fun x t ht => ?_, fun x t ht => ?_, fun x t ht r hr => ?_,
    fun x t ht hended r hr => ?_⟩ <;> rcases hat x t ht with ⟨rfl, rfl⟩ | ⟨hx, ht⟩
  · exact hid
  · exact hs.object x t ht
  · rcases hroot with hroot | ⟨y, ty, hy, hroot⟩
    · rwa [hroot]
    · rw [hroot]
      exact hs.rootIssued y ty hy
  · exact hs.rootIssued x t ht
  · refine ⟨fun _ => ⟨hworker, hdone⟩, fun h => ?_, fun h => ?_, fun h => ?_⟩ <;>
      rw [hpending] at h
    · cases h
    · rcases h with h | h <;> cases h
    · cases h
  · exact hs.life x t ht
  · rcases hat _ r hr with ⟨_, rfl⟩ | ⟨hne, hr⟩
    · rfl
    · obtain ⟨y, ty, hy, hroot⟩ := hroot.resolve_left hne
      rw [hroot] at hr ⊢
      exact hs.own y ty hy r hr
  · rcases hat _ r hr with ⟨hroot, _⟩ | ⟨_, hr⟩
    · exact absurd hroot (hfresh.root x t ht)
    · exact hs.own x t ht r hr
  · rw [hpending] at hended
    rcases hended with h | h <;> cases h
  · obtain ⟨hmem, hr⟩ := get_eq_some.mp hr
    have hne := hfresh.root x t ht
    obtain ⟨_, hr⟩ := (hat _ r hr).resolve_left fun h => hne h.1
    exact hs.ended x t ht hended r (get_eq_some.mpr ⟨(htasks _ hmem).resolve_left hne, hr⟩)

theorem sound_forwarded {s : State} (hs : s.Sound issued) {id : String} {task : Task}
    (htask : s.get id = some task) :
    (s.setTask id (markForwarded id now)).Sound issued := by
  have hobject := (get_eq_some.mp htask).2
  set s' := s.setTask id (markForwarded id now) with hs'
  have hback : ∀ x t', s'.objects.lookup x = some t' → ∃ t, s.objects.lookup x = some t ∧
      t'.rootId = t.rootId ∧ (t.done = true → t'.done = true) ∧
      (t' = t ∨ x = id ∧ t' = markForwarded id now t) := by
    intro x t' ht'
    rw [hs', setTask, AList.lookup_modify] at ht'
    split at ht'
    · rename_i hx
      obtain ⟨t, ht, rfl⟩ := Option.map_eq_some_iff.mp ht'
      refine ⟨t, ht, rfl, fun hdone => ?_, .inr ⟨hx, rfl⟩⟩
      show (if id ≠ t.rootId then true else t.done) = true
      rw [hdone, ite_self]
    · exact ⟨t', ht', rfl, fun h => h, .inl rfl⟩
  refine ⟨fun x t' ht' => ?_, fun x t' ht' => ?_, fun x t' ht' => ?_, fun x t' ht' r hr => ?_,
    fun x t' ht' hended r hr => ?_⟩ <;> obtain ⟨t, ht, hroot, _, hcase⟩ := hback x t' ht'
  · exact hs.object x t ht
  · rw [hroot]
    exact hs.rootIssued x t ht
  · rcases hcase with rfl | ⟨rfl, rfl⟩
    · exact hs.life x t' ht
    · refine ⟨nofun, nofun, fun h => ?_, fun _ hne => ?_⟩
      · rcases h with h | h <;> cases h
      · show (if x ≠ t.rootId then true else t.done) = true
        rw [if_pos fun h => hne h.symm]
  · rw [hroot] at hr ⊢
    obtain ⟨r', hr', hroot', _⟩ := hback _ r hr
    exact hroot'.trans (hs.own x t ht r' hr')
  · rcases hcase with rfl | ⟨rfl, rfl⟩
    · obtain ⟨hmem, hr⟩ := get_eq_some.mp hr
      obtain ⟨r', hr', _, hkeep, _⟩ := hback _ r hr
      exact hkeep (hs.ended x t' ht hended r' (get_eq_some.mpr ⟨hmem, hr'⟩))
    · rcases hended with h | h <;> cases h

theorem sound_change {s s' : State} (hsub : drawn ⊆ issued) (h : Change drawn s s')
    (hs : s.Sound issued) : s'.Sound issued := by
  cases h with
  | moved hobjects htasks => exact sound_moved hs hobjects htasks
  | created task hid hfresh hpending hworker hdone hroot hobjects htasks =>
      exact sound_created hs (hsub hid) hfresh hpending hworker hdone hroot hobjects htasks
  | forwarded htask hlive => exact sound_forwarded hs htask
  | finished htask hstatus => exact sound_finished hs htask hstatus

/-- Objects are never forgotten. -/
theorem object_change {s s' : State} (h : Change drawn s s') {x : String}
    (hx : (s.objects.lookup x).isSome = true) : (s'.objects.lookup x).isSome = true := by
  cases h with
  | moved hobjects htasks =>
      have hrel := hobjects x
      generalize s.objects.lookup x = o at hx hrel
      generalize s'.objects.lookup x = o' at hrel ⊢
      cases hrel with
      | none => cases hx
      | some _ => rfl
  | created task hid hfresh hpending hworker hdone hroot hobjects htasks =>
      rw [hobjects]
      split
      · rfl
      · exact hx
  | forwarded htask hlive =>
      rw [setTask, AList.lookup_modify]
      split
      · rwa [Option.isSome_map]
      · exact hx
  | finished htask hstatus =>
      rw [(finish_of_lookup _ _ _ htask).2]
      split
      · rwa [Option.isSome_map]
      · exact hx

/-! ### Runs -/

/-- What every reachable relay satisfies; a waiting report holds on to its task object. -/
structure World.Sound (w : World) : Prop where
  state : w.state.Sound w.issued
  reports : ∀ report ∈ w.reports, (w.state.objects.lookup report.taskId).isSome = true

theorem State.Sound.fresh {s : State} (hs : s.Sound issued) {id : String} (hid : id ∉ issued) :
    s.Fresh id where
  object := by
    cases htask : s.objects.lookup id with
    | none => rfl
    | some task => exact absurd (hs.object id task htask) hid
  root := fun x task htask heq => hid (heq ▸ hs.rootIssued x task htask)

theorem State.Sound.mono {s : State} (hs : s.Sound issued) {issued' : List String}
    (hsub : issued ⊆ issued') : s.Sound issued' :=
  { hs with
    object := fun id task ht => hsub (hs.object id task ht)
    rootIssued := fun id task ht => hsub (hs.rootIssued id task ht) }

theorem sound_start : World.start.Sound where
  state :=
    { object := fun _ _ h => nomatch h
      rootIssued := fun _ _ h => nomatch h
      life := fun _ _ h => nomatch h
      own := fun _ _ h => nomatch h
      ended := fun _ _ h => nomatch h }
  reports := nofun

theorem sound_changes {s s' : State} (hsub : drawn ⊆ issued) (h : Changes drawn s s')
    (hs : s.Sound issued) : s'.Sound issued ∧
      ∀ x, (s.objects.lookup x).isSome = true → (s'.objects.lookup x).isSome = true := by
  induction h with
  | refl => exact ⟨hs, fun _ hx => hx⟩
  | tail _ hchange ih =>
      exact ⟨sound_change hsub hchange ih.1, fun x hx => object_change hchange (ih.2 x hx)⟩

/-- The first part of `/fail` only makes a report wait whose task is stored. -/
theorem mem_waiting {w : World} {report report' : FailReport} (h : report' ∈ waiting w report) :
    report' ∈ w.reports ∨ report' = report ∧ (w.state.get report.taskId).isSome = true := by
  unfold waiting at h
  cases htask : w.state.get report.taskId with
  | none =>
      simp only [postFailure, htask] at h
      exact .inl h
  | some task =>
      split at h
      · rename_i waits hwaits
        rcases List.mem_cons.mp h with rfl | hold
        · refine .inr ⟨?_, rfl⟩
          simp only [postFailure, htask] at hwaits
          cases hfinished : task.status.finished with
          | true =>
              rw [hfinished] at hwaits
              cases hwaits
          | false =>
              rw [hfinished] at hwaits
              cases hcheck : checkWorker task report.workerId with
              | error e =>
                  rw [hcheck] at hwaits
                  cases hwaits
              | ok _ =>
                  rw [hcheck] at hwaits
                  cases hwaits
                  rfl
        · exact .inl hold
      · exact .inl h
      · exact .inl h

theorem sound_step {w w' : World} {event : Event} (h : Step timeouts unpackb w event w')
    (hw : w.Sound) : w'.Sound := by
  cases h with
  | call hfresh =>
      rename_i op now
      have hchanges : Changes op.drawn w.state (exec timeouts unpackb op now w.state) :=
        exec_changes timeouts unpackb op w.state fun id hid => hw.state.fresh (hfresh id hid)
      obtain ⟨hsound, hobjects⟩ := sound_changes (List.subset_append_left op.drawn w.issued)
        hchanges (hw.state.mono (List.subset_append_right _ _))
      exact ⟨hsound, fun report hreport => hobjects _ (hw.reports report hreport)⟩
  | fail =>
      refine ⟨hw.state, fun report' hreport' => ?_⟩
      rcases mem_waiting hreport' with hold | ⟨rfl, hsome⟩
      · exact hw.reports report' hold
      · obtain ⟨task, htask⟩ := Option.isSome_iff_exists.mp hsome
        exact Option.isSome_iff_exists.mpr ⟨task, (get_eq_some.mp htask).2⟩
  | failBody hwaits =>
      rename_i report body now
      obtain ⟨task, htask⟩ := Option.isSome_iff_exists.mp (hw.reports report hwaits)
      have hchange : Change [] w.state (postFailureBody w.state report body now) :=
        .finished htask (.inr rfl)
      exact ⟨sound_change (List.nil_subset _) hchange hw.state, fun other hother =>
        object_change hchange (hw.reports other (List.mem_of_mem_erase hother))⟩

theorem sound_run {events : List Event} {w : World} (hrun : RunFrom timeouts unpackb events w) :
    w.Sound :=
  hrun.invariant (sound_step timeouts unpackb) sound_start

/-! ### Entitled reports -/

/-- What the checks of `/fail` demand: the task is not finished, and it is unassigned or assigned
to the worker that reports. -/
def FailReport.Entitled (s : State) (report : FailReport) : Prop :=
  ∀ task, s.objects.lookup report.taskId = some task →
    task.status.finished = false ∧ (task.workerId = none ∨ task.workerId = report.workerId)

/-- While the body was on its way, the task was not handed to another worker (unless it is a root
that was dropped since), and it was not forwarded in a chain whose root is stored and not done. -/
def FailReport.InTime (s : State) (report : FailReport) : Prop :=
  ∀ task, s.objects.lookup report.taskId = some task →
    (task.status = .assigned → task.workerId = report.workerId ∨
      task.rootId = report.taskId ∧ report.taskId ∉ s.tasks) ∧
    (task.status = .forwarded → ∀ root, s.get task.rootId = some root → root.done = true)

/-- A report has an effect exactly when one of its targets is not done. -/
theorem postFailureBody_ne_iff {s : State} {report : FailReport} {task : Task}
    (htask : s.objects.lookup report.taskId = some task) (body : String) (now : Instant) :
    postFailureBody s report body now ≠ s ↔
      ∃ x target, s.Target report.taskId task x ∧ s.objects.lookup x = some target ∧
        target.done = false := by
  constructor
  · intro hne
    by_contra hnone
    push Not at hnone
    have hkeep : ∀ {s₁ : State}, s₁ = s → ∀ x, s.Target report.taskId task x →
        s₁.setTask x (conclude .failed (cutError (failureMessage report body)) now) = s := by
      rintro s₁ rfl x hx
      rw [setTask, AList.modify_eq_self]
      intro target htarget
      rw [conclude, if_pos (Bool.not_eq_false _ ▸ hnone x target hx htarget)]
    apply hne
    simp only [postFailureBody, finish, htask]
    have hfirst : (if task.rootId = report.taskId then s
        else s.setTask report.taskId
          (conclude .failed (cutError (failureMessage report body)) now)) = s := by
      split
      · rfl
      · rename_i hroot
        exact hkeep rfl _ (.inl ⟨rfl, hroot⟩)
    rw [hfirst]
    split
    · rename_i root hroot
      exact hkeep rfl _ (.inr ⟨rfl, (get_eq_some.mp hroot).1⟩)
    · rfl
  · rintro ⟨x, target, htarget, hx, hdone⟩ heq
    have hlookup := (finish_of_lookup .failed (cutError (failureMessage report body)) now htask).2 x
    have hsame : (finish s report.taskId .failed (cutError (failureMessage report body)) now) = s :=
      heq
    rw [hsame, if_pos htarget, hx, Option.map_some] at hlookup
    have hdone' := (conclude_spec .failed (cutError (failureMessage report body)) now target).2.1
    rw [← Option.some.inj hlookup, hdone] at hdone'
    cases hdone'

/-- In a reachable relay an effect of a report is entitled exactly when it comes in time. -/
theorem entitled_iff_inTime {w : World} (hw : w.Sound) {report : FailReport}
    (hwaits : report ∈ w.reports) (body : String) (now : Instant) :
    (postFailureBody w.state report body now ≠ w.state → report.Entitled w.state) ↔
      report.InTime w.state := by
  obtain ⟨task, htask⟩ := Option.isSome_iff_exists.mp (hw.reports report hwaits)
  have hlife := hw.state.life _ task htask
  rw [postFailureBody_ne_iff htask]
  constructor
  · intro himp t ht
    cases htask.symm.trans ht
    refine ⟨fun hassigned => ?_, fun hforwarded root hroot => ?_⟩
    · obtain ⟨hworker, hdone⟩ := hlife.assigned hassigned
      by_contra hother
      obtain ⟨hne, hstored⟩ := not_or.mp hother
      have htarget : w.state.Target report.taskId task report.taskId := by
        by_cases hroot : task.rootId = report.taskId
        · refine .inr ⟨hroot.symm, ?_⟩
          by_contra hmem
          exact hstored ⟨hroot, hmem⟩
        · exact .inl ⟨rfl, hroot⟩
      rcases (himp ⟨_, task, htarget, htask, hdone⟩ task htask).2 with hnone | hsame
      · rw [hnone] at hworker
        cases hworker
      · exact hne hsame
    · by_contra hdone
      obtain ⟨hmem, hobject⟩ := get_eq_some.mp hroot
      have heffect := himp ⟨_, root, .inr ⟨rfl, hmem⟩, hobject, Bool.not_eq_true _ ▸ hdone⟩ task
        htask
      rw [hforwarded] at heffect
      cases heffect.1
  · rintro hintime ⟨x, target, htarget, hx, hdone⟩ t ht
    cases htask.symm.trans ht
    obtain ⟨hassigned, hforwarded⟩ := hintime task htask
    cases hstatus : task.status with
    | pending => exact ⟨rfl, .inl (hlife.pending hstatus).1⟩
    | assigned =>
        refine ⟨rfl, (hassigned hstatus).elim .inr fun ⟨hroot, hmem⟩ => ?_⟩
        -- a dropped root has no target left
        rcases htarget with ⟨_, hne⟩ | ⟨rfl, hstored⟩
        · exact absurd hroot hne
        · exact absurd (hroot ▸ hstored) hmem
    | forwarded =>
        rcases htarget with ⟨rfl, hne⟩ | ⟨rfl, hstored⟩
        · cases htask.symm.trans hx
          rw [hlife.forwarded hstatus hne] at hdone
          cases hdone
        · rw [hforwarded hstatus target (get_eq_some.mpr ⟨hstored, hx⟩)] at hdone
          cases hdone
    | completed =>
        rcases htarget with ⟨rfl, hne⟩ | ⟨rfl, hstored⟩
        · cases htask.symm.trans hx
          rw [hlife.ended (.inl hstatus)] at hdone
          cases hdone
        · rw [hw.state.ended _ task htask (.inl hstatus) target (get_eq_some.mpr ⟨hstored, hx⟩)]
            at hdone
          cases hdone
    | failed =>
        rcases htarget with ⟨rfl, hne⟩ | ⟨rfl, hstored⟩
        · cases htask.symm.trans hx
          rw [hlife.ended (.inr hstatus)] at hdone
          cases hdone
        · rw [hw.state.ended _ task htask (.inr hstatus) target (get_eq_some.mpr ⟨hstored, hx⟩)]
            at hdone
          cases hdone

/-- The property holds at every step of the run in which the body of a failure report arrives. -/
def AtEachFailure (P : World → World → FailReport → Prop) (events : List Event) (w : World) :
    Prop :=
  ∀ front report body now rest u u', events = front ++ .failBody report body now :: rest →
    RunFrom timeouts unpackb front u → Step timeouts unpackb u (.failBody report body now) u' →
    Run (Step timeouts unpackb) u' rest w → P u u' report

/-- **Failure reports are entitled exactly when they come in time.** In a run of the relay, every
effect of a failure report is one its checks would allow at that moment, if and only if at each
arrival of a body the task was neither handed to another worker nor forwarded meanwhile. -/
theorem failures_entitled_iff_inTime (events : List Event) (w : World) :
    AtEachFailure timeouts unpackb
      (fun u u' report => u'.state ≠ u.state → report.Entitled u.state) events w ↔
    AtEachFailure timeouts unpackb (fun u _ report => report.InTime u.state) events w := by
  constructor
  · intro h front report body now rest u u' hsplit hfront hstep hrest
    have hentitled := h front report body now rest u u' hsplit hfront hstep hrest
    cases hstep with
    | failBody hwaits =>
        exact (entitled_iff_inTime (sound_run timeouts unpackb hfront) hwaits body now).mp
          hentitled
  · intro h front report body now rest u u' hsplit hfront hstep hrest
    have hintime := h front report body now rest u u' hsplit hfront hstep hrest
    cases hstep with
    | failBody hwaits =>
        exact (entitled_iff_inTime (sound_run timeouts unpackb hfront) hwaits body now).mpr
          hintime

/-- The worker reports a failure and then posts a result, which is forwarded before the body of
the report arrives: the report turns the forwarded root into a failed one. -/
theorem forwarded_root_failed_late :
    ∃ u u' root root', RunFrom ⟨fromSecs 30, fromSecs 30⟩ (fun _ => none)
        [.call (.submit "t" "a" "client" "b" "" []) 1, .call (.poll "a" "w" 1) 2,
          .fail ⟨"t", some "w", none⟩, .call (.result "t" (some "w") false [7] "u") 3] u ∧
      Step ⟨fromSecs 30, fromSecs 30⟩ (fun _ => none) u
        (.failBody ⟨"t", some "w", none⟩ "boom" 4) u' ∧
      u.state.get "t" = some root ∧ root.status = .forwarded ∧
      u'.state.get "t" = some root' ∧ root'.status = .failed ∧
      u'.state ≠ u.state ∧ ¬FailReport.Entitled u.state ⟨"t", some "w", none⟩ := by
  refine ⟨_, _, _, _, .cons (.call (by decide)) (.cons (.call (by decide)) (.cons .fail
    (.cons (.call (by decide)) (.refl _)))), .failBody (by decide), rfl, rfl, rfl, rfl,
    fun h => ?_, fun h => ?_⟩
  · have hsame := congrArg (fun s => (s.get "t").map Task.status) h
    exact absurd hsame (by decide)
  · exact absurd (h _ rfl).1 (by decide)

end Distllm.PyRelay
