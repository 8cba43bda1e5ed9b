import Distllm.RelayLedger
import Distllm.RelayLockstep

/-! What clients are told. The Python relay keeps the text of a failure as the bytes of a result, the
Rust relay keeps it apart. An answer is written when a task is finished and never changed after
that; so as long as both relays finish the same tasks with the same words, `/get_result` says the
same at both. -/

namespace Distllm

namespace Relay

/-- The task has an answer for its client. -/
def Status.Answered (status : Status) : Prop := status = .completed ∨ status = .failed

/-- Every answer was there before. -/
def KeepsAnswers (s s' : Ledger) : Prop :=
  ∀ x task', s' x = some task' → task'.status.Answered → ∃ task, s x = some task ∧
    task.status = task'.status ∧ task.result = task'.result ∧ task.error = task'.error

namespace KeepsAnswers

variable {s s' s'' : Ledger} {drawn : List String} {now : Instant} {posted : Task → Report → Prop}

theorem refl (s : Ledger) : KeepsAnswers s s :=
  fun _ task' htask' _ => ⟨task', htask', rfl, rfl, rfl⟩

theorem trans (h : KeepsAnswers s s') (h' : KeepsAnswers s' s'') : KeepsAnswers s s'' := by
  intro x task'' htask'' hanswered
  obtain ⟨task', htask', hstatus', hresult', herror'⟩ := h' x task'' htask'' hanswered
  obtain ⟨task, htask, hstatus, hresult, herror⟩ := h x task' htask' (hstatus' ▸ hanswered)
  exact ⟨task, htask, hstatus.trans hstatus', hresult.trans hresult', herror.trans herror'⟩

/-- A record that is not answered is put in its place. -/
theorem update (s : Ledger) (id : String) {task : Task} (h : ¬task.status.Answered) :
    KeepsAnswers s (Function.update s id (some task)) := by
  intro x task' htask' hanswered
  rw [Function.update_apply] at htask'
  split at htask'
  · obtain rfl := Option.some.inj htask'
    exact absurd hanswered h
  · exact ⟨task', htask', rfl, rfl, rfl⟩

theorem change (h : Change drawn now posted s s') (hnone : ∀ task report, ¬posted task report) :
    KeepsAnswers s s' := by
  cases h with
  | moved h =>
      intro x task' htask' hanswered
      have hrel := h x
      rw [htask'] at hrel
      obtain ⟨task, htask, hmoved⟩ := exists_of_relMoved hrel
      have hdead : ¬task.Live := by
        intro hlive
        have hlive' : task'.status.finished = false := hmoved.live_iff.mpr hlive
        rcases hanswered with hs | hs
        · rw [hs] at hlive'
          cases hlive'
        · rw [hs] at hlive'
          cases hlive'
      exact ⟨task, htask, (hmoved.status_eq hdead).symm, hmoved.result.symm, hmoved.error.symm⟩
  | submitted hid hnew hroot htask =>
      apply update
      rw [htask.pending]
      rintro (hs | hs) <;> cases hs
  | forwarded body hnext hnew hroot htask hlive hroute hposted => exact absurd hposted (hnone _ _)
  | finished htask hlive hposted hends => exact absurd hposted (hnone _ _)
  | cleaned =>
      intro x task' htask' _
      exact ⟨task', (Option.filter_eq_some_iff.mp htask').1, rfl, rfl, rfl⟩

theorem changes (h : Changes drawn now posted s s') (hnone : ∀ task report, ¬posted task report) :
    KeepsAnswers s s' := by
  induction h with
  | refl => exact refl s
  | tail _ hchange ih => exact ih.trans (change hchange hnone)

/-- An operation that is no post answers nothing. -/
theorem exec (settings : Settings) (readValue : Bytes → Option Value) (op : Op) (now : Instant)
    {g : Inner}
    (htimely : op.Timely now) (hfresh : ∀ id ∈ op.drawn, g.Fresh id)
    (hpost : ∀ answer, (Event.call op answer now).post = none) :
    KeepsAnswers g.ledger (exec settings readValue op now g).2.ledger := by
  refine changes (atoms_changes (exec_atoms settings readValue op g htimely hfresh)) ?_
  rintro task report ⟨id, post, hevent, -⟩
  rw [hpost] at hevent
  cases hevent

theorem dealt {g g' : Inner} {worker : String} {ids : List String} (h : g.Dealt worker now ids g') :
    KeepsAnswers g.ledger g'.ledger := by
  intro x task' htask' hanswered
  rw [Inner.ledger, h.tasks] at htask'
  split at htask'
  · obtain ⟨task, -, rfl⟩ := Option.map_eq_some_iff.mp htask'
    rcases hanswered with hs | hs <;> cases hs
  · exact ⟨task', htask', rfl, rfl, rfl⟩

end KeepsAnswers
end Relay

namespace PyRelay

open State
open Relay (Bytes Instant Status ResultView)

/-- `bytes.decode("utf-8")` -/
def decodeUtf8 (bytes : Bytes) : Option String := String.fromUTF8? ⟨bytes.toArray⟩

/-- The end of `/get_result`; `none` where decoding the text of a failure raises. -/
def getResult (s : State) (taskId : String) : Option ResultView :=
  match s.get taskId with
  | none => some .notFound
  | some task =>
    match task.status with
    | .completed => some (.completed (task.result.getD []))
    | .failed => (task.result.bind decodeUtf8).map .failed
    | status => some (.pending status.asStr)

theorem toList_loop (bytes : ByteArray) (i : Nat) (front : List UInt8) :
    ByteArray.toList.loop bytes i front = front.reverse ++ bytes.data.toList.drop i := by
  fun_induction ByteArray.toList.loop bytes i front with
  | case1 i front hlt ih =>
      have hi : i < bytes.data.toList.length := hlt
      have hget : bytes.get! i = bytes.data.toList[i] := by
        rw [ByteArray.get!, Array.getElem_toList]
        exact getElem!_pos bytes.data i hlt
      rw [ih, List.reverse_cons, List.append_assoc, List.singleton_append, hget,
        List.getElem_cons_drop]
  | case2 i front hge =>
      have hlength : bytes.data.toList.length ≤ i := Nat.le_of_not_lt hge
      rw [List.drop_eq_nil_of_le hlength, List.append_nil]

theorem decodeUtf8_toUTF8 (text : String) : decodeUtf8 text.toUTF8.toList = some text := by
  have hbytes : (⟨text.toUTF8.toList.toArray⟩ : ByteArray) = text.toByteArray := by
    rw [ByteArray.toList, toList_loop, List.reverse_nil, List.nil_append, List.drop_zero]
    rfl
  rw [decodeUtf8, hbytes]
  exact dif_pos text.isValidUTF8

/-! ### Answers of the Python relay -/

variable {s s' s'' : State} {g g' : Relay.Inner} {id worker role : String} {task : Task}
  {now : Instant}

/-- Every answer was there before. -/
def KeepsAnswers (s s' : State) : Prop :=
  ∀ x task', s'.objects.lookup x = some task' → task'.status.Answered →
    ∃ task, s.objects.lookup x = some task ∧ task.status = task'.status ∧ task.result = task'.result

namespace KeepsAnswers

theorem of_objects (h : s'.objects = s.objects) : KeepsAnswers s s' :=
  fun _ task' htask' _ => ⟨task', h ▸ htask', rfl, rfl⟩

theorem refl (s : State) : KeepsAnswers s s := of_objects rfl

theorem trans (h : KeepsAnswers s s') (h' : KeepsAnswers s' s'') : KeepsAnswers s s'' := by
  intro x task'' htask'' hanswered
  obtain ⟨task', htask', hstatus', hresult'⟩ := h' x task'' htask'' hanswered
  obtain ⟨task, htask, hstatus, hresult⟩ := h x task' htask' (hstatus' ▸ hanswered)
  exact ⟨task, htask, hstatus.trans hstatus', hresult.trans hresult'⟩

theorem foldl {α : Type} {f : State → α → State} (h : ∀ s x, KeepsAnswers s (f s x))
    (items : List α) (s : State) : KeepsAnswers s (items.foldl f s) := by
  induction items generalizing s with
  | nil => exact refl s
  | cons item rest ih => exact (h s item).trans (ih _)

/-- A task object is put into a state without an answer. -/
theorem setTask (s : State) (id : String) {f : Task → Task}
    (hf : ∀ task, ¬(f task).status.Answered) : KeepsAnswers s (s.setTask id f) := by
  intro x task' htask' hanswered
  rw [State.setTask, AList.lookup_modify] at htask'
  split at htask'
  · obtain ⟨task, -, rfl⟩ := Option.map_eq_some_iff.mp htask'
    exact absurd hanswered (hf task)
  · exact ⟨task', htask', rfl, rfl⟩

theorem enqueue (s : State) (id : String) (hpending : task.status = .pending) :
    KeepsAnswers s (s.enqueue id task) := by
  intro x task' htask' hanswered
  rw [(enqueue_frame s id task).1, AList.lookup_put] at htask'
  split at htask'
  · obtain rfl := Option.some.inj htask'
    rw [hpending] at hanswered
    rcases hanswered with hs | hs <;> cases hs
  · exact ⟨task', htask', rfl, rfl⟩

theorem requeue (s : State) (id : String) : KeepsAnswers s (s.requeue id) := by
  cases htask : s.objects.lookup id with
  | none =>
      rw [State.requeue, htask]
      exact refl s
  | some task =>
      obtain ⟨affinity, queues, h⟩ := requeue_of_lookup htask
      have hreleased : KeepsAnswers s (s.setTask id fun task =>
          { task with status := .pending, workerId := none, assignedAt := none }) := by
        refine setTask s id fun task => ?_
        rintro (hs | hs) <;> cases hs
      rw [h]
      exact hreleased.trans (of_objects rfl)

theorem requeueHeld (worker : String) (s : State) (id : String) :
    KeepsAnswers s (s.requeueHeld worker id) := by
  unfold State.requeueHeld
  split
  · split
    · exact requeue s id
    · exact refl s
  · exact refl s

theorem requeueStuck (timeouts : Timeouts) (s : State) (id : String) :
    KeepsAnswers s (s.requeueStuck timeouts now id) := by
  unfold State.requeueStuck
  split
  · split
    · exact requeue s id
    · exact refl s
  · exact refl s

theorem moveToRole (s : State) (id : String) : KeepsAnswers s (s.moveToRole id) := by
  unfold State.moveToRole
  split
  · split
    · exact of_objects rfl
    · exact refl s
  · exact refl s

theorem forgetWorker (s : State) (worker : String) : KeepsAnswers s (s.forgetWorker worker) := by
  set held := s.tasks.foldl (State.requeueHeld worker) s with hheld
  have herased : KeepsAnswers held { held with workerQueues := held.workerQueues.erase worker } :=
    of_objects rfl
  have hmoved := herased.trans (foldl moveToRole (held.workerQueues.queue worker) _)
  have hunbound : KeepsAnswers _ (s.forgetWorker worker) := hmoved.trans (of_objects rfl)
  exact (foldl (requeueHeld worker) s.tasks s).trans hunbound

theorem dropNode (s : State) (nodeId : String) : KeepsAnswers s (s.dropNode nodeId) := by
  unfold State.dropNode
  split
  · have herased : KeepsAnswers s { s with nodes := s.nodes.erase nodeId } := of_objects rfl
    exact herased.trans (forgetWorker _ nodeId)
  · exact refl s

theorem relayJanitor (timeouts : Timeouts) (s : State) (stuckNow oldNow : Instant) :
    KeepsAnswers s (s.relayJanitor timeouts now stuckNow oldNow) := by
  set dropped := (s.nodes.keysWhere fun _ node =>
    decide (now - node.lastHeartbeat > timeouts.nodeTimeout)).foldl State.dropNode s with hdropped
  have hstuck : KeepsAnswers dropped (dropped.cleanupStuckTasks timeouts stuckNow) :=
    foldl (requeueStuck timeouts) _ dropped
  have hcleaned : KeepsAnswers dropped (s.relayJanitor timeouts now stuckNow oldNow) :=
    hstuck.trans (of_objects rfl)
  exact (foldl dropNode _ s).trans hcleaned

theorem take (s : State) (id worker : String) : KeepsAnswers s (take s id worker now).2 := by
  unfold PyRelay.take
  split
  · exact refl s
  · rename_i task htask
    split
    · have htaken : KeepsAnswers s (s.setTask id fun task => { task with
          status := .assigned, workerId := some worker, assignedAt := some now }) := by
        refine setTask s id fun task => ?_
        rintro (hs | hs) <;> cases hs
      cases task.session with
      | none => exact htaken
      | some session => exact htaken.trans (of_objects rfl)
    · exact refl s

theorem queueGetFirst (h : queueGetFirst s worker role = some (id, s')) : KeepsAnswers s s' := by
  unfold PyRelay.queueGetFirst at h
  split at h
  · cases h
    exact of_objects rfl
  split at h
  · cases h
    exact of_objects rfl
  · cases h

theorem takeMore (worker role : String) (fuel wanted : Nat) (s : State) :
    KeepsAnswers s (takeMore worker role now fuel wanted s).2 := by
  induction fuel generalizing wanted s with
  | zero =>
      unfold PyRelay.takeMore
      exact refl s
  | succ fuel ih =>
      cases wanted with
      | zero =>
          unfold PyRelay.takeMore
          exact refl s
      | succ wanted =>
          rw [PyRelay.takeMore]
          cases hget : PyRelay.queueGetFirst s worker role with
          | none => exact refl s
          | some found =>
              obtain ⟨id, s'⟩ := found
              have htake : KeepsAnswers s' (PyRelay.take s' id worker now).2 := take s' id worker
              refine (queueGetFirst hget).trans ?_
              dsimp only
              generalize PyRelay.take s' id worker now = taken at htake
              obtain ⟨taken, s''⟩ := taken
              cases taken with
              | true => exact htake.trans (ih wanted s'')
              | false => exact htake.trans (ih (wanted + 1) s'')

theorem pollTask (s : State) (role worker : String) (maxTasks : Nat) :
    KeepsAnswers s (pollTask s role worker maxTasks now).2 := by
  unfold PyRelay.pollTask
  cases hget : PyRelay.queueGetFirst s worker role with
  | none => exact refl s
  | some found =>
      obtain ⟨id, s'⟩ := found
      have htake : KeepsAnswers s' (PyRelay.take s' id worker now).2 := take s' id worker
      refine (queueGetFirst hget).trans ?_
      dsimp only
      generalize PyRelay.take s' id worker now = taken at htake
      obtain ⟨taken, s''⟩ := taken
      cases taken with
      | true => exact htake.trans (takeMore worker role _ _ s'')
      | false => exact htake

theorem register (s : State) (nodeId role : String) (sessions : List String) :
    KeepsAnswers s (register s nodeId role sessions now) := by
  have hnodes : KeepsAnswers s { s with nodes := s.nodes.put nodeId ⟨role, now⟩ } := of_objects rfl
  refine hnodes.trans (foldl (fun s session => ?_) _ _)
  unfold claim
  dsimp only
  split
  · exact refl s
  · exact of_objects rfl

/-- An operation that is no post answers nothing. -/
theorem exec (timeouts : Timeouts) (unpackb : Bytes → Option Relay.Value) {op : Op} (s : State)
    (hop : ∀ taskId workerId stopChain body next, op ≠ .result taskId workerId stopChain body next) :
    KeepsAnswers s (exec timeouts unpackb op now s) := by
  cases op with
  | submit => exact enqueue s _ rfl
  | poll role worker maxTasks => exact pollTask s role worker maxTasks
  | result => exact absurd rfl (hop _ _ _ _ _)
  | register nodeId role sessions => exact register s nodeId role sessions
  | deregister nodeId => exact dropNode s nodeId
  | heartbeat nodeId =>
      unfold PyRelay.exec
      dsimp only
      unfold heartbeat
      cases s.nodes.lookup nodeId with
      | none => exact refl s
      | some node => exact of_objects rfl
  | janitor stuckNow oldNow => exact relayJanitor timeouts s stuckNow oldNow

end KeepsAnswers

/-! ### The same answers at both relays -/

variable {t t' : Relay.Ledger}

/-- The records of the Rust relay are those of the Python relay, up to the answers. -/
def Twins (s : State) (t : Relay.Ledger) : Prop :=
  ∀ x, (t x).map Relay.Task.unanswered = (s.get x).map Task.twin

theorem Twins.task_of {x : String} {twin : Relay.Task} (h : Twins s t) (htwin : t x = some twin) :
    ∃ task, s.get x = some task ∧ task.twin = twin.unanswered := by
  have hx := h x
  rw [htwin, Option.map_some] at hx
  exact Option.map_eq_some_iff.mp hx.symm

/-- What the relays keep for a client with this status: `result` in Python, `result'` or `error` in
Rust. -/
def Fits (status : Status) (result result' : Option Bytes) (error : Option String) : Prop :=
  (status = .completed → ∃ body, result = some body ∧ result' = some body) ∧
    (status = .failed → ∃ message, error = some message ∧ result = some message.toUTF8.toList)

theorem fits_of_not_answered {status : Status} {result result' : Option Bytes}
    {error : Option String} (h : ¬status.Answered) : Fits status result result' error :=
  ⟨fun hs => absurd (.inl hs) h, fun hs => absurd (.inr hs) h⟩

/-- Tasks that both relays store have the same answers. -/
def SameAnswers (s : State) (t : Relay.Ledger) : Prop :=
  ∀ x task twin, s.get x = some task → t x = some twin →
    Fits twin.status task.result twin.result twin.error

/-- Neither relay has a new answer. -/
theorem SameAnswers.kept (h : SameAnswers s t) (htwins : Twins s t) (htwins' : Twins s' t')
    (hs : KeepsAnswers s s') (ht : Relay.KeepsAnswers t t') : SameAnswers s' t' := by
  intro x task' twin' htask' htwin'
  by_cases hanswered : twin'.status.Answered
  · obtain ⟨found, hfound, hsame⟩ := htwins'.task_of htwin'
    obtain rfl := Option.some.inj (htask'.symm.trans hfound)
    have hstatus : task'.status = twin'.status := congrArg Relay.Task.status hsame
    obtain ⟨twin, htwin, hstatusTwin, hresultTwin, herror⟩ := ht x twin' htwin' hanswered
    obtain ⟨object, hobject, -, hresult⟩ :=
      hs x task' (get_eq_some.mp htask').2 (hstatus ▸ hanswered)
    obtain ⟨task, htask, -⟩ := htwins.task_of htwin
    obtain rfl := Option.some.inj ((get_eq_some.mp htask).2.symm.trans hobject)
    have hfits := h x task twin htask htwin
    rwa [hstatusTwin, hresultTwin, herror, hresult] at hfits
  · exact fits_of_not_answered hanswered

/-- Finishing a stored task concludes its record and its root's. -/
theorem get_finish (htask : s.get id = some task) (status : Status) (result : Bytes) (now : Instant)
    (x : String) : (finish s id status result now).get x =
      if x = id ∨ x = task.rootId then (s.get x).map (conclude status result now)
      else s.get x := by
  obtain ⟨hid, hobject⟩ := get_eq_some.mp htask
  obtain ⟨htasks, hobjects⟩ := finish_of_lookup status result now hobject
  rw [State.get, State.get, htasks, hobjects]
  by_cases hmem : x ∈ s.tasks
  · have htarget : s.Target id task x ↔ x = id ∨ x = task.rootId := by
      rw [State.Target, and_iff_left hmem]
      by_cases hx : x = id
      · by_cases hown : task.rootId = id
        · simp [hx, hown]
        · simp [hx, hown]
      · simp [hx]
    simp only [if_pos hmem, htarget]
  · simp only [if_neg hmem, Option.map_none, ite_self]

/-- Both relays finish the same task, with data that fit. -/
theorem SameAnswers.finish {twin : Relay.Task} {status : Status} {result : Bytes}
    {result' : Option Bytes} {error : Option String} (h : SameAnswers s g.ledger)
    (htwins : Twins s g.ledger) (htask : s.get id = some task)
    (htwin : g.tasks.lookup id = some twin) (hfits : Fits status (some result) result' error) :
    SameAnswers (finish s id status result now) (g.finish id status result' error now).ledger := by
  intro x task' twin' htask' htwin'
  obtain ⟨found, hfound, hsame⟩ := htwins.task_of (x := id) htwin
  obtain rfl := Option.some.inj (htask.symm.trans hfound)
  have hroot : task.rootId = twin.rootId := congrArg Relay.Task.rootId hsame
  obtain ⟨before, hbefore, hcases⟩ := Relay.lookup_finish g htwin htwin'
  rw [get_finish htask] at htask'
  split at htask'
  · rename_i htarget
    obtain ⟨earlier, hearlier, rfl⟩ := Option.map_eq_some_iff.mp htask'
    obtain ⟨found, hfound, hsame'⟩ := htwins.task_of (x := x) hbefore
    obtain rfl := Option.some.inj (hearlier.symm.trans hfound)
    have hdone : earlier.done = before.done := congrArg Relay.Task.done hsame'
    rcases hcases with ⟨rfl, ⟨hid, hother⟩ | htrue⟩ | ⟨hfalse, -, rfl⟩
    · exact absurd htarget (not_or.mpr ⟨hid, hroot ▸ hother⟩)
    · rw [conclude, if_pos (hdone.trans htrue)]
      exact h x earlier _ hearlier hbefore
    · rw [conclude, if_neg (by rw [hdone, hfalse]; exact Bool.false_ne_true)]
      exact hfits
  · rename_i htarget
    rcases hcases with ⟨rfl, -⟩ | ⟨-, hx, -⟩
    · exact h x task' _ htask' hbefore
    · exact absurd (hroot ▸ hx) htarget

/-- Both relays read the same result. -/
theorem SameAnswers.postResult {unpackb readValue : Bytes → Option Relay.Value}
    {taskId next : String} {workerId : Option String} {stopChain : Bool} {body : Bytes}
    {r : Relay.Inner} (timeouts : Timeouts) (h : SameAnswers s r.ledger) (hmirrors : Mirrors s g)
    (hagree : g.Agree r) (htwins : Twins s r.ledger)
    (hpass : s.PassesOn unpackb readValue taskId workerId stopChain body)
    (htwins' : Twins (exec timeouts unpackb (.result taskId workerId stopChain body next) now s)
      (Relay.postResult readValue r taskId workerId stopChain body next now).2.ledger) :
    SameAnswers (exec timeouts unpackb (.result taskId workerId stopChain body next) now s)
      (Relay.postResult readValue r taskId workerId stopChain body next now).2.ledger := by
  rcases hmirrors.post_cases taskId workerId with ⟨htask, htwin⟩ |
    ⟨task, twin, htask, htwin, hsame, ⟨hlive, hlive'⟩ | ⟨hlive, hlive', ⟨⟨e, hcheck⟩, hcheck'⟩ |
      ⟨hcheck, hcheck'⟩⟩⟩
  · rw [← hagree.tasks] at htwin
    simp only [exec, PyRelay.postResult, htask, Relay.postResult, htwin]
    exact h
  · rw [← hagree.tasks] at htwin
    simp only [exec, PyRelay.postResult, htask, hlive, Relay.postResult, htwin, hlive', if_true]
    exact h
  · rw [← hagree.tasks] at htwin
    simp only [exec, PyRelay.postResult, htask, hlive, hcheck, Relay.postResult, htwin, hlive',
      hcheck']
    exact h
  rw [← hagree.tasks] at htwin
  have hcompleted : Fits .completed (some body) (some body) none :=
    ⟨fun _ => ⟨body, rfl, rfl⟩, fun hs => (by cases hs)⟩
  have hroute : task.route = twin.route := congrArg Relay.Task.route hsame
  cases hnext : task.route with
  | nil =>
      have hnext' : twin.route = [] := hroute ▸ hnext
      simp only [exec, PyRelay.postResult, htask, hlive, hcheck, hnext, Relay.postResult, htwin,
        hlive', hcheck', hnext']
      exact h.finish htwins htask htwin hcompleted
  | cons nextRole tail =>
      have hnext' : twin.route = nextRole :: tail := hroute ▸ hnext
      obtain ⟨hstops, -⟩ := hpass task nextRole tail htask hlive hcheck hnext
      cases hstop : PyRelay.stopsChain unpackb body stopChain with
      | true =>
          have hstop' := hstops.symm.trans hstop
          simp only [exec, PyRelay.postResult, htask, hlive, hcheck, hnext, hstop,
            Relay.postResult, htwin, hlive', hcheck', hnext', hstop']
          exact h.finish htwins htask htwin hcompleted
      | false =>
          have hstop' := hstops.symm.trans hstop
          refine h.kept htwins htwins' ?_ ?_
          · simp only [exec, PyRelay.postResult, htask, hlive, hcheck, hnext, hstop]
            refine (KeepsAnswers.setTask s taskId fun task => ?_).trans (.enqueue _ next rfl)
            rintro (hs | hs) <;> cases hs
          · simp only [Relay.postResult, htwin, hlive', hcheck', hnext', hstop']
            change Relay.KeepsAnswers _ (Relay.Inner.ledger (Relay.Inner.enqueue _ _ _))
            rw [Relay.ledger_enqueue, Relay.ledger_modify r _ htwin]
            refine (Relay.KeepsAnswers.update _ _ ?_).trans (.update _ _ ?_)
            · rintro (hs | hs) <;> cases hs
            · rintro (hs | hs) <;> cases hs

/-- Both relays are told the same about a failure. -/
theorem SameAnswers.failAtOnce {r : Relay.Inner} {report : FailReport} {text message : String}
    (h : SameAnswers s r.ledger) (hmirrors : Mirrors s g) (hagree : g.Agree r)
    (htwins : Twins s r.ledger) (hmessage : failureMessage report text = message) :
    SameAnswers (failAtOnce s report text now)
      (Relay.postFailure r report.taskId report.workerId message now).2.ledger := by
  unfold PyRelay.failAtOnce
  rcases hmirrors.post_cases report.taskId report.workerId with ⟨htask, htwin⟩ |
    ⟨task, twin, htask, htwin, -, ⟨hlive, hlive'⟩ | ⟨hlive, hlive', ⟨⟨e, hcheck⟩, hcheck'⟩ |
      ⟨hcheck, hcheck'⟩⟩⟩
  · rw [← hagree.tasks] at htwin
    simp only [PyRelay.postFailure, htask, Relay.postFailure, htwin]
    exact h
  · rw [← hagree.tasks] at htwin
    simp only [PyRelay.postFailure, htask, hlive, Relay.postFailure, htwin, hlive', if_true]
    exact h
  · rw [← hagree.tasks] at htwin
    simp only [PyRelay.postFailure, htask, hlive, hcheck, Relay.postFailure, htwin, hlive', hcheck']
    exact h
  · rw [← hagree.tasks] at htwin
    simp only [PyRelay.postFailure, htask, hlive, hcheck, Relay.postFailure, htwin, hlive', hcheck']
    refine h.finish htwins htask htwin ⟨fun hs => (by cases hs), fun _ => ?_⟩
    exact ⟨Relay.cutError message, rfl, by rw [hmessage]; rfl⟩

end PyRelay

namespace Lockstep

open Relay (Bytes Instant Settings Inner)
open PyRelay (FailReport SameAnswers Twins KeepsAnswers)

/-! ### Along a run -/

/-- A report of a failure has some text, or no `error_msg` that is empty: of two empty texts one
relay makes "unknown error". -/
def Request.Spoken : Request → Prop
  | .fail report text => text ≠ "" ∨ report.errorMsg ≠ some ""
  | .call _ => True

def Event.Spoken : Event → Prop
  | .request asked _ => asked.Spoken
  | .rehash => True

theorem message_eq {report : FailReport} {text : String} (h : (Request.fail report text).Spoken) :
    PyRelay.failureMessage report text = Request.message report text := by
  unfold PyRelay.failureMessage Request.message
  by_cases htext : text = ""
  · rw [if_neg (not_not_intro htext), if_neg (not_not_intro htext)]
    cases hmsg : report.errorMsg with
    | none => rfl
    | some message =>
        have hmessage : message ≠ "" := fun hempty =>
          h.resolve_left (not_not_intro htext) (hempty ▸ hmsg)
        exact if_pos hmessage
  · rw [if_pos htext, if_pos htext]

variable {settings : Settings} {unpackb readValue : Bytes → Option Relay.Value} {g g' : Inner}
  {w w' : Relays} {now : Instant}

theorem Aligned.twins (h : Aligned w g) : Twins w.python w.rust.ledger := by
  intro x
  rw [Inner.ledger, h.agree.tasks]
  exact h.mirrors.tasks x

/-- A request that meets no difference of the relays leaves the same answers. -/
theorem sameAnswers_request {request : Request} (h : Aligned w g)
    (h' : Aligned (next settings unpackb readValue request now w) g')
    (htimely : request.Timely now) (hfresh : ∀ id ∈ request.drawn, id ∉ w.issued)
    (hkeeps : Keeps settings unpackb readValue w (.request request now))
    (hspoken : request.Spoken) (hsame : SameAnswers w.python w.rust.ledger) :
    SameAnswers (next settings unpackb readValue request now w).python
      (next settings unpackb readValue request now w).rust.ledger := by
  have hunknown : ∀ id ∈ request.drawn, w.rust.Fresh id :=
    fun id hid => h.rustKnown.fresh (hfresh id hid)
  cases request with
  | fail report text => exact hsame.failAtOnce h.mirrors h.agree h.twins (message_eq hspoken)
  | call op =>
      cases op with
      | result taskId workerId stopChain body next =>
          exact hsame.postResult ⟨settings.taskTimeout, settings.nodeTimeout⟩ h.mirrors h.agree
            h.twins hkeeps h'.twins
      | submit taskId targetRole senderId route session body =>
          refine hsame.kept h.twins h'.twins (KeepsAnswers.exec _ unpackb _ fun _ _ _ _ _ heq => ?_)
            (Relay.KeepsAnswers.exec settings readValue
              (.submit taskId targetRole body (Relay.routeRoles route) (PyRelay.sessionOf session) now)
              now (le_refl now) hunknown fun _ => rfl)
          cases heq
      | poll role worker maxTasks =>
          obtain ⟨-, hdealt⟩ := rustPoll_dealt h.rustExact role worker maxTasks now
          refine hsame.kept h.twins h'.twins (KeepsAnswers.exec _ unpackb _ fun _ _ _ _ _ heq => ?_)
            (.dealt hdealt)
          cases heq
      | register nodeId role sessions =>
          refine hsame.kept h.twins h'.twins (KeepsAnswers.exec _ unpackb _ fun _ _ _ _ _ heq => ?_)
            (Relay.KeepsAnswers.exec settings readValue
              (.register nodeId role (sessions.filter (· ≠ ""))) now trivial hunknown fun _ => rfl)
          cases heq
      | deregister nodeId =>
          refine hsame.kept h.twins h'.twins (KeepsAnswers.exec _ unpackb _ fun _ _ _ _ _ heq => ?_)
            (Relay.KeepsAnswers.exec settings readValue (.deregister nodeId) now trivial hunknown
              fun _ => rfl)
          cases heq
      | heartbeat nodeId =>
          refine hsame.kept h.twins h'.twins (KeepsAnswers.exec _ unpackb _ fun _ _ _ _ _ heq => ?_)
            (Relay.KeepsAnswers.exec settings readValue (.heartbeat nodeId) now trivial hunknown
              fun _ => rfl)
          cases heq
      | janitor stuckNow oldNow =>
          refine hsame.kept h.twins h'.twins (KeepsAnswers.exec _ unpackb _ fun _ _ _ _ _ heq => ?_)
            (Relay.KeepsAnswers.exec settings readValue .sweep now trivial hunknown fun _ => rfl)
          cases heq

/-- What holds along a run: the same tasks in the same queues, and the same answers. -/
theorem sameAnswers_step {event : Event} (hstep : Step settings unpackb readValue w event w')
    (hkeeps : Keeps settings unpackb readValue w event) (hspoken : event.Spoken)
    (haligned : ∃ g, Aligned w g) (hsame : SameAnswers w.python w.rust.ledger) :
    SameAnswers w'.python w'.rust.ledger := by
  obtain ⟨g, h⟩ := haligned
  obtain ⟨g', h'⟩ := aligned_step hstep hkeeps ⟨g, h⟩
  cases hstep with
  | request hclock htimely hfresh =>
      exact sameAnswers_request h h' htimely hfresh hkeeps hspoken hsame
  | rehash hrehashed =>
      intro x task twin htask htwin
      exact hsame x task twin htask ((hrehashed.lookup_tasks x).symm.trans htwin)

theorem sameAnswers_run {events : List Event} (hrun : SteadyRun settings unpackb readValue events w)
    (hspoken : ∀ event ∈ events, event.Spoken) :
    (∃ g, Aligned w g) ∧ SameAnswers w.python w.rust.ledger := by
  refine hrun.invariant_labels (P := fun events w => (∀ event ∈ events, event.Spoken) →
    (∃ g, Aligned w g) ∧ SameAnswers w.python w.rust.ledger)
    (fun {events w event w'} hstep hw hspoken => ?_) (fun _ => ⟨⟨_, aligned_start⟩, ?_⟩) hspoken
  · obtain ⟨haligned, hsame⟩ := hw fun earlier hmem => hspoken earlier (List.mem_append_left _ hmem)
    exact ⟨aligned_step hstep.1 hstep.2 haligned,
      sameAnswers_step hstep.1 hstep.2 (hspoken event (by simp)) haligned hsame⟩
  · intro x task twin htask _
    cases htask

/-- **Both relays tell a client the same.** After a run that meets no other difference of the
relays, and in which every failure has some text, `/get_result` gives the same at both, for every
task; the Python relay never fails to read the text of a failure. -/
theorem results_alike {events : List Event} (hrun : SteadyRun settings unpackb readValue events w)
    (hspoken : ∀ event ∈ events, event.Spoken) (taskId : String) :
    PyRelay.getResult w.python taskId = some (Relay.getResult w.rust taskId) := by
  obtain ⟨⟨g, h⟩, hsame⟩ := sameAnswers_run hrun hspoken
  have htwins := h.twins taskId
  unfold PyRelay.getResult Relay.getResult
  cases htask : w.python.get taskId with
  | none =>
      rw [htask, Option.map_none, Option.map_eq_none_iff, Inner.ledger] at htwins
      rw [htwins]
  | some task =>
      rw [htask, Option.map_some] at htwins
      obtain ⟨twin, htwin, heq⟩ := Option.map_eq_some_iff.mp htwins
      have hstatus : twin.status = task.status := congrArg Relay.Task.status heq
      obtain ⟨hcompleted, hfailed⟩ := hsame taskId task twin htask htwin
      rw [Inner.ledger] at htwin
      rw [htwin]
      dsimp only
      cases hs : task.status with
      | completed =>
          obtain ⟨body, hresult, hresult'⟩ := hcompleted (hstatus.trans hs)
          rw [hstatus, hs, hresult, hresult']
      | failed =>
          obtain ⟨message, herror, hresult⟩ := hfailed (hstatus.trans hs)
          rw [hstatus, hs, herror, hresult, Option.bind_some, PyRelay.decodeUtf8_toUTF8]
          rfl
      | pending => rw [hstatus, hs]
      | assigned => rw [hstatus, hs]
      | forwarded => rw [hstatus, hs]

/-- The first stage of `t` is passed on to `u`, and the second one fails. -/
def secondFails : List Event :=
  [.request (.call (.submit "t" "head" "client" " tail" "" [1])) 1,
    .request (.call (.result "t" none false [2] "u")) 2,
    .request (.fail ⟨"u", none, none⟩ "out of memory") 3]

theorem results_alike_failed : ∃ w : Relays,
    SteadyRun ⟨600, 60⟩ (fun _ => none) (fun _ => none) secondFails w ∧
    PyRelay.getResult w.python "t" = some (Relay.getResult w.rust "t") ∧
    Relay.getResult w.rust "t" = .failed "out of memory" := by
  have hrun : SteadyRun ⟨600, 60⟩ (fun _ => none) (fun _ => none) secondFails _ :=
    .cons ⟨.request (by decide) trivial (by decide), by decide, nofun⟩ <|
    .cons ⟨.request (by decide) trivial (by decide), fun _ _ _ htask _ _ hroute => by
      cases htask
      cases hroute
      exact ⟨rfl, fun _ => nofun⟩⟩ <|
    .single ⟨.request (by decide) trivial (by decide), trivial⟩
  refine ⟨_, hrun, results_alike hrun (fun event hevent => ?_) "t", by decide +kernel⟩
  rcases List.mem_cons.mp hevent with rfl | hevent
  · trivial
  · rcases List.mem_cons.mp hevent with rfl | hevent
    · trivial
    · cases List.mem_singleton.mp hevent
      exact .inl (by decide)

end Lockstep
end Distllm
