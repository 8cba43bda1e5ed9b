import Distllm.Run
import Distllm.PyRelayPolls

/-! The Python relay and the Rust relay under the same requests, one at a time, with the same task
identifiers and the same clock. As long as no poll is answered for a first queued id that is no
longer pending, and no step meets one of the other differences of the two programs, the same tasks
wait in the same order in both. A poll then hands out the first of them at both relays, if and only
if the first id queued at the Python relay still waits or none does. -/

namespace Distllm

namespace PyRelay

open State
open Relay (Instant Settings)

/-! ### What the janitor gives back -/

/-- The task has this target role. -/
def State.hasRole (s : State) (role id : String) : Bool :=
  (s.get id).any fun task => task.targetRole == role

/-- The pending ids of a worker's own queue. -/
def State.ofWorker (s : State) (worker : String) : List String :=
  (s.workerQueues.queue worker).filter (s.IsPending ·)

/-- The task is assigned to one of the workers. -/
def Task.heldBy (workers : List String) (task : Task) : Bool :=
  task.status == .assigned && workers.any fun worker => task.workerId == some worker

/-- What the workers leave to a role queue when they are dropped one after the other. -/
def State.leftBy (s : State) (workers : List String) (role : String) : List String :=
  (workers.flatMap fun worker => s.held worker ++ s.ofWorker worker).filter (s.hasRole role)

/-- What the janitor gives back to a role queue, in order, of the tasks it keeps. -/
def State.givenBack (timeouts : Timeouts) (s : State) (now : Instant) (role : String) :
    List String :=
  (s.leftBy (s.silent timeouts now) role ++ (s.stuck timeouts now).filter fun x =>
      s.hasRole role x && !(s.get x).any (Task.heldBy (s.silent timeouts now))).filter
    fun x => (s.get x).any (keepTask now)

variable {s : State} {g : Relay.Inner} {now : Instant} {settings : Settings}

theorem Mirrors.hasRole (h : Mirrors s g) (role : String) : s.hasRole role = g.hasRole role := by
  funext x
  apply h.any_eq
  intro task twin _ _ hsame
  have hrole : task.targetRole = twin.targetRole := congrArg Relay.Task.targetRole hsame
  rw [hrole]

theorem Mirrors.ofWorker (h : Mirrors s g) (worker : String) :
    s.ofWorker worker = g.ofWorker worker := by
  rw [State.ofWorker, Relay.Inner.ofWorker, Relay.Inner.pendingOf, h.own]
  exact List.filter_congr fun x _ => decide_eq_decide.mpr (h.isPending x)

theorem InOrder.givenBack_eq (horder : InOrder s g) (h : Mirrors s g)
    (hnodes : g.nodes = s.nodes) (htimed : Timed g) (role : String) :
    s.givenBack ⟨settings.taskTimeout, settings.nodeTimeout⟩ now role =
      g.givenBack settings now role := by
  have hheld : ∀ (workers : List String) (x : String), (s.get x).any (Task.heldBy workers) =
      (g.tasks.lookup x).any (Relay.Inner.heldBy workers) := fun workers x =>
    h.any_eq fun task twin _ _ hsame => by
      have hstatus : task.status = twin.status := congrArg Relay.Task.status hsame
      have hassignee : task.workerId = twin.workerId := congrArg Relay.Task.workerId hsame
      rw [Task.heldBy, Relay.Inner.heldBy, hstatus, hassignee]
  have hkept : ∀ x, (s.get x).any (keepTask now) =
      (g.tasks.lookup x).any (Relay.keepTask now) := fun x =>
    h.any_eq fun task twin _ htwin hsame => keepTask_eq hsame (htimed x twin htwin).2
  rw [State.givenBack, Relay.Inner.givenBack, State.leftBy, Relay.Inner.leftBy,
    Relay.Inner.leftStuck, silent_eq hnodes, horder.stuck_eq h htimed, h.hasRole]
  simp only [horder.held_eq h, h.ofWorker, hheld, hkept]

/-! ### Recorded times -/

theorem recorded (hnow : 0 < now) : some now ≠ some (0 : Instant) :=
  fun heq => Nat.ne_of_gt hnow (Option.some.inj heq)

theorem Timed.of_map {g' : Relay.Inner} {f : Relay.Task → Relay.Task} {P : String → Prop}
    [DecidablePred P] (h : Timed g)
    (htasks : ∀ x, g'.tasks.lookup x =
      if P x then (g.tasks.lookup x).map f else g.tasks.lookup x)
    (hf : ∀ task, task.assignedAt ≠ some 0 ∧ task.completedAt ≠ some 0 →
      (f task).assignedAt ≠ some 0 ∧ (f task).completedAt ≠ some 0) : Timed g' := by
  intro x twin htwin
  rw [htasks] at htwin
  split at htwin
  · obtain ⟨before, hbefore, rfl⟩ := Option.map_eq_some_iff.mp htwin
    exact hf before (h x before hbefore)
  · exact h x twin htwin

theorem Timed.enqueue {id : String} {task : Relay.Task} (h : Timed g)
    (hassigned : task.assignedAt = none) (hcompleted : task.completedAt = none) :
    Timed (g.enqueue id task) := by
  intro x twin htwin
  rw [Relay.Inner.enqueue_tasks, AList.lookup_insert_eq] at htwin
  split at htwin
  · cases htwin
    rw [hassigned, hcompleted]
    exact ⟨nofun, nofun⟩
  · exact h x twin htwin

theorem Timed.finish {id : String} {task : Relay.Task} {status : Relay.Status}
    {result : Option Relay.Bytes} {error : Option String} (h : Timed g) (hnow : 0 < now)
    (htask : g.tasks.lookup id = some task) : Timed (g.finish id status result error now) := by
  intro x twin htwin
  obtain ⟨before, hbefore, ⟨rfl, _⟩ | ⟨_, _, rfl⟩⟩ := Relay.lookup_finish g htask htwin
  · exact h x twin hbefore
  · exact ⟨(h x before hbefore).1, recorded hnow⟩

theorem Timed.dealt {g' : Relay.Inner} {worker : String} {ids : List String} (h : Timed g)
    (hnow : 0 < now) (hdealt : g.Dealt worker now ids g') : Timed g' :=
  h.of_map hdealt.tasks fun _ ht => ⟨recorded hnow, ht.2⟩

theorem Timed.postResult (readValue : Relay.Bytes → Option Relay.Value) (h : Timed g)
    (hnow : 0 < now) (taskId : String) (workerId : Option String) (stopChain : Bool)
    (body : Relay.Bytes) (next : String) :
    Timed (Relay.postResult readValue g taskId workerId stopChain body next now).2 := by
  rcases Relay.postResult_cases readValue g taskId workerId stopChain body next now with
    ⟨_, _, hpost⟩ | ⟨task, htask, _, _, _, hpost⟩ |
      ⟨task, nextRole, tail, htask, _, _, _, _, hpost⟩
  · rw [hpost]
    exact h
  · rw [hpost]
    exact h.finish hnow htask
  · rw [hpost]
    refine Timed.enqueue (h.of_map (fun x => AList.lookup_modify ..) fun t ht => ?_) rfl rfl
    exact ⟨ht.1, recorded hnow⟩

theorem Timed.postFailure (h : Timed g) (hnow : 0 < now) (taskId : String)
    (workerId : Option String) (message : String) :
    Timed (Relay.postFailure g taskId workerId message now).2 := by
  rcases Relay.postFailure_cases g taskId workerId message now with
    ⟨_, _, hpost⟩ | ⟨task, htask, _, _, hpost⟩
  · rw [hpost]
    exact h
  · rw [hpost]
    exact h.finish hnow htask

theorem Timed.register (h : Timed g) (nodeId role : String) (sessions : List String)
    (now : Instant) : Timed (Relay.register g nodeId role sessions now) := by
  intro x twin htwin
  rw [(g.register_registered nodeId role sessions now).tasks] at htwin
  exact h x twin htwin

theorem Timed.heartbeat (h : Timed g) (nodeId : String) (now : Instant) :
    Timed (Relay.heartbeat g nodeId now).2 := by
  unfold Relay.heartbeat
  cases g.nodes.lookup nodeId with
  | none => exact h
  | some node => exact h

theorem Timed.dropNode (h : Timed g) (hg : g.QueuesExact) (nodeId : String) :
    Timed (Relay.dropNode g nodeId) := by
  cases hnode : g.nodes.lookup nodeId with
  | none =>
      rw [Relay.Inner.dropNode_of_none g hnode]
      exact h
  | some node => exact h.released (Relay.Inner.dropNode_dropped hg hnode).tasks_heldBy

theorem Timed.sweep (h : Timed g) (hg : g.QueuesExact) (settings : Settings) (now : Instant) :
    Timed (Relay.sweep settings g now) := by
  intro x twin htwin
  have hswept : g.Swept settings now _ := Relay.Inner.sweep_swept hg
  rw [hswept.tasks, Option.filter_eq_some_iff] at htwin
  obtain ⟨before, hbefore, rfl⟩ := Option.map_eq_some_iff.mp htwin.1
  obtain ⟨hassigned, hcompleted⟩ := h x before hbefore
  split
  · exact ⟨by simp [Relay.released], hcompleted⟩
  · exact ⟨hassigned, hcompleted⟩

end PyRelay

namespace Lockstep

open Relay (Bytes Instant Settings Inner fromSecs routeRoles)
open PyRelay (State FailReport Timeouts Mirrors InOrder Timed Deals answer nextRoles)

/-! ### Both relays -/

/-- The two relays and the identifiers drawn so far. -/
structure Relays where
  python : State
  rust : Inner
  issued : List String

def Relays.start : Relays := ⟨.empty, .empty, []⟩

/-- A request, or a pass of the janitor. A submission comes with the text of its route, and a report
of a failure with its own text. -/
inductive Request where
  | call (op : PyRelay.Op)
  | fail (report : FailReport) (text : String)

namespace Request

def drawn : Request → List String
  | call op => op.drawn
  | fail .. => []

/-- The clock stands still during a pass of the janitor. -/
def Timely (now : Instant) : Request → Prop
  | call (.janitor stuckNow oldNow) => stuckNow = now ∧ oldNow = now
  | _ => True

/-- The text, or else the `error_msg` parameter. -/
def message (report : FailReport) (text : String) : String :=
  if text ≠ "" then text else report.errorMsg.getD "unknown error"

/-- The operation of the Rust relay for the request. -/
def rustOp (now : Instant) : Request → Relay.Op
  | call (.submit taskId targetRole _ route session body) =>
    .submit taskId targetRole body (routeRoles route) (PyRelay.sessionOf session) now
  | call (.poll role worker maxTasks) => .poll role worker maxTasks
  | call (.result taskId workerId stopChain body next) =>
    .postResult taskId workerId stopChain body next
  | call (.register nodeId role sessions) => .register nodeId role (sessions.filter (· ≠ ""))
  | call (.deregister nodeId) => .deregister nodeId
  | call (.heartbeat nodeId) => .heartbeat nodeId
  | call (.janitor _ _) => .sweep
  | fail report text => .postFailure report.taskId report.workerId (message report text)

end Request

def pollTimeout : Relay.Duration := fromSecs 5

/-- A whole poll of the Rust relay while nothing else happens: if the first look finds nothing,
there is another at the deadline. -/
def rustPoll (g : Inner) (role worker : String) (maxTasks : Nat) (now : Instant) :
    List (String × Bytes) × Inner :=
  match Relay.poll g role worker maxTasks now with
  | ([], g) => Relay.pollDeadline g role worker (now + pollTimeout)
  | taken => taken

variable (settings : Settings) (unpackb readValue : Bytes → Option Relay.Value)

/-- The Python relay after a request. -/
def python (request : Request) (now : Instant) (s : State) : State :=
  match request with
  | .call op => PyRelay.exec ⟨settings.taskTimeout, settings.nodeTimeout⟩ unpackb op now s
  | .fail report text => PyRelay.failAtOnce s report text now

/-- The Rust relay after a request. -/
def rust (request : Request) (now : Instant) (g : Inner) : Inner :=
  match request with
  | .call (.poll role worker maxTasks) => (rustPoll g role worker maxTasks now).2
  | request => (Relay.exec settings readValue (request.rustOp now) now g).2

/-- Both relays after a request. -/
def next (request : Request) (now : Instant) (w : Relays) : Relays :=
  ⟨python settings unpackb request now w.python, rust settings readValue request now w.rust,
    request.drawn ++ w.issued⟩

inductive Event where
  | request (request : Request) (now : Instant)
  | rehash

/-- One request at both relays, some time after the epoch, or a new order of the hash maps. -/
inductive Step : Relays → Event → Relays → Prop where
  | request {w : Relays} {request : Request} {now : Instant} (hclock : 0 < now)
      (htimely : request.Timely now) (hfresh : ∀ id ∈ request.drawn, id ∉ w.issued) :
      Step w (.request request now) (next settings unpackb readValue request now w)
  | rehash {w : Relays} {g : Inner} (h : w.rust.Rehashed g) : Step w .rehash { w with rust := g }

/-- The step meets no difference of the two relays. Both read the same roles from a route; a poll
finds a waiting task first or none at all; tasks that are given back are listed by both in the same
order, role by role; both read the same from a result that may be passed on; a session of a new task
is not bound to the empty name; and a node that is not registered claims no session bound to it since
earlier. -/
def Keeps (w : Relays) : Event → Prop
  | .request (.call (.submit _ targetRole _ route session _)) _ =>
    nextRoles route = routeRoles route ∧ w.python.Named targetRole (PyRelay.sessionOf session)
  | .request (.call (.poll role worker _)) _ => w.python.FirstWaits worker role
  | .request (.call (.result taskId workerId stopChain body _)) _ =>
    w.python.PassesOn unpackb readValue taskId workerId stopChain body
  | .request (.call (.register nodeId role sessions)) now =>
    w.python.NewClaims nodeId role sessions now
  | .request (.call (.deregister nodeId)) _ => ∀ role,
    (w.python.held nodeId).filter (w.python.hasRole role) =
      (w.rust.assignedTo nodeId).filter (w.rust.hasRole role)
  | .request (.call (.janitor _ _)) now => ∀ role,
    w.python.givenBack ⟨settings.taskTimeout, settings.nodeTimeout⟩ now role =
      w.rust.givenBack settings now role
  | .request (.call (.heartbeat _)) _ | .request (.fail _ _) _ | .rehash => True

/-- Both relays answer the poll alike, with the first tasks that wait for it at either, and with
204 only when none waits. -/
structure PollsAlike (w : Relays) (role worker : String) (maxTasks : Nat) (now : Instant) :
    Prop where
  python : (PyRelay.pollTask w.python role worker maxTasks now).1 =
    answer (PyRelay.withPayloads w.python (w.python.batch worker role maxTasks))
  rust : answer (rustPoll w.rust role worker maxTasks now).1 =
    answer (Relay.withPayloads w.rust (w.rust.batch worker role maxTasks))
  same : (PyRelay.pollTask w.python role worker maxTasks now).1 =
    answer (rustPoll w.rust role worker maxTasks now).1
  noTask : (PyRelay.pollTask w.python role worker maxTasks now).1 = none →
    w.python.waiting worker role = [] ∧ w.rust.waiting worker role = []

/-! ### Polls of the Rust relay -/

variable {g : Inner} {now : Instant} {issued : List String} {settings readValue unpackb}

theorem batch_eq_nil {role worker : String} {maxTasks : Nat}
    (h : Relay.withPayloads g (g.batch worker role maxTasks) = []) :
    g.batch worker role maxTasks = [] := by
  apply List.eq_nil_iff_forall_not_mem.mpr
  intro x hx
  obtain ⟨⟨task, htask, _⟩, _⟩ := Relay.Inner.batch_cases hx
  have hpayload : Option.map (fun task : Relay.Task => (x, task.payload)) (g.tasks.lookup x) =
      none := List.filterMap_eq_nil_iff.mp h x hx
  rw [htask] at hpayload
  cases hpayload

theorem rustPoll_dealt (hg : g.QueuesExact) (role worker : String) (maxTasks : Nat)
    (now : Instant) : (rustPoll g role worker maxTasks now).1 =
        Relay.withPayloads g (g.batch worker role maxTasks) ∧
      g.Dealt worker now (g.batch worker role maxTasks)
        (rustPoll g role worker maxTasks now).2 := by
  obtain ⟨htaken, hdealt⟩ := Relay.Inner.poll_dealt hg role worker maxTasks now
  unfold rustPoll
  split
  · rename_i g₁ hpoll
    rw [hpoll] at htaken hdealt
    have hnone := batch_eq_nil htaken.symm
    rw [hnone] at hdealt ⊢
    obtain ⟨hlast, hdealt'⟩ := Relay.Inner.pollDeadline_dealt (g := g₁) role worker (now + pollTimeout)
    have hwaiting : g₁.waiting worker role = [] := by
      have hleft := hdealt.waiting worker role
      rw [List.filter_eq_self.mpr fun _ _ => by simp] at hleft
      rw [hleft]
      exact (List.take_eq_nil_iff.mp hnone).resolve_left (by omega)
    have hbatch : g₁.batch worker role 1 = [] := by
      rw [Relay.Inner.batch, hwaiting, List.take_nil]
    rw [hbatch] at hlast hdealt'
    have hnothing : Relay.Inner.Dealt g₁ worker now [] _ :=
      ⟨hdealt'.nodes, hdealt'.tasks, hdealt'.role, hdealt'.own, hdealt'.affinity⟩
    exact ⟨hlast, hdealt.trans hnothing⟩
  · exact ⟨htaken, hdealt⟩

theorem rustPoll_queuesInv (hg : g.QueuesExact) (hknown : g.Known issued) (role worker : String)
    (maxTasks : Nat) (now : Instant) : (rustPoll g role worker maxTasks now).2.Known issued ∧
      (rustPoll g role worker maxTasks now).2.QueuesExact := by
  have hpolled : Relay.Atoms [] now (fun _ _ => False) g
      (Relay.poll g role worker maxTasks now).2 := Relay.poll_atoms g role worker maxTasks
  have hfirst := Relay.atoms_queuesInv (List.nil_subset issued) hpolled hknown hg
  unfold rustPoll
  split
  · rename_i g₁ hpoll
    rw [hpoll] at hfirst
    have hlast : Relay.Atoms [] (now + pollTimeout) (fun _ _ => False) g₁
        (Relay.pollDeadline g₁ role worker (now + pollTimeout)).2 :=
      Relay.pollDeadline_atoms g₁ role worker
    exact Relay.atoms_queuesInv (List.nil_subset issued) hlast hfirst.1 hfirst.2
  · exact hfirst

/-! ### The same tasks in the same queues -/

/-- The state is the Python relay's as the Rust relay would keep it, and in it the same tasks wait
in the same order as in the Rust relay. -/
structure Aligned (w : Relays) (g : Inner) : Prop where
  mirrors : Mirrors w.python g
  agree : g.Agree w.rust
  exact : g.QueuesExact
  known : g.Known w.issued
  rustExact : w.rust.QueuesExact
  rustKnown : w.rust.Known w.issued
  timed : Timed g

theorem aligned_start : Aligned Relays.start .empty := by
  obtain ⟨hknown, hexact⟩ := Relay.queuesInv_start 0
  refine ⟨⟨List.nodup_nil, fun _ => rfl, fun _ => rfl, fun _ => rfl, fun _ => rfl, fun _ => rfl⟩,
    .refl _, hexact, hknown, hexact, hknown, fun x twin htwin => ?_⟩
  rw [show Inner.empty.tasks.lookup x = none from rfl] at htwin
  cases htwin

namespace Aligned

variable {w : Relays} {s : State}

theorem exec (settings : Settings) (readValue : Bytes → Option Relay.Value) (op : Relay.Op)
    (h : Aligned w g) (htimely : op.Timely now) (hfresh : ∀ id ∈ op.drawn, id ∉ w.issued)
    (hmirrors : Mirrors s (Relay.exec settings readValue op now g).2)
    (hagree : (Relay.exec settings readValue op now g).2.Agree
      (Relay.exec settings readValue op now w.rust).2)
    (htimed : Timed (Relay.exec settings readValue op now g).2) :
    Aligned ⟨s, (Relay.exec settings readValue op now w.rust).2, op.drawn ++ w.issued⟩
      (Relay.exec settings readValue op now g).2 := by
  have hsub := List.subset_append_left op.drawn w.issued
  have hsub' := List.subset_append_right op.drawn w.issued
  obtain ⟨hknown, hexact⟩ := Relay.atoms_queuesInv hsub
    (Relay.exec_atoms settings readValue op g htimely fun id hid => h.known.fresh (hfresh id hid))
    (h.known.mono hsub') h.exact
  obtain ⟨hknown', hexact'⟩ := Relay.atoms_queuesInv hsub
    (Relay.exec_atoms settings readValue op w.rust htimely fun id hid =>
      h.rustKnown.fresh (hfresh id hid))
    (h.rustKnown.mono hsub') h.rustExact
  exact ⟨hmirrors, hagree, hexact, hknown, hexact', hknown', htimed⟩

/-- The mirror may list its tasks in another order. -/
theorem rehashed {g' : Inner} (h : Aligned w g) (hg : g.Rehashed g')
    (hmirrors : Mirrors w.python g') : Aligned w g' := by
  have hatom : Relay.Atom [] 0 (fun _ _ => False) g g' := .rehashed hg
  exact ⟨hmirrors, hg.agree.symm.trans h.agree, hg.queuesExact h.exact,
    Relay.known_atom (List.nil_subset _) hatom h.known, h.rustExact, h.rustKnown,
    fun x twin htwin => h.timed x twin ((hg.lookup_tasks x).symm.trans htwin)⟩

/-- A mirror in the order of the dicts. -/
theorem exists_inOrder (h : Aligned w g) :
    ∃ g', Aligned w g' ∧ InOrder w.python g' ∧ g'.nodes = w.python.nodes := by
  obtain ⟨g', hrehashed, hmirrors, horder, hnodes⟩ := h.mirrors.exists_inOrder
  exact ⟨g', h.rehashed hrehashed hmirrors, horder, hnodes⟩

theorem poll {role worker : String} {maxTasks : Nat} (h : Aligned w g) (hnow : 0 < now)
    (hfirst : w.python.FirstWaits worker role) : ∃ g', Aligned
      ⟨(PyRelay.pollTask w.python role worker maxTasks now).2,
        (rustPoll w.rust role worker maxTasks now).2, w.issued⟩ g' := by
  obtain ⟨_, g', hmirrors, hexact, hknown, hdealt⟩ :=
    (h.mirrors.pollTask h.exact h.known role worker maxTasks now).1 hfirst
  obtain ⟨_, hdealt'⟩ := rustPoll_dealt h.rustExact role worker maxTasks now
  obtain ⟨hknown', hexact'⟩ :=
    rustPoll_queuesInv h.rustExact h.rustKnown role worker maxTasks now
  rw [h.agree.batch] at hdealt'
  exact ⟨g', hmirrors, h.agree.dealt hdealt hdealt', hexact, hknown, hexact', hknown',
    h.timed.dealt hnow hdealt⟩

end Aligned

/-- A request that meets no difference of the relays leaves the same tasks in the same queues. -/
theorem aligned_request {w : Relays} {request : Request} (h : Aligned w g) (hclock : 0 < now)
    (htimely : request.Timely now) (hfresh : ∀ id ∈ request.drawn, id ∉ w.issued)
    (hkeeps : Keeps settings unpackb readValue w (.request request now)) :
    ∃ g', Aligned (next settings unpackb readValue request now w) g' := by
  cases request with
  | fail report text =>
      exact ⟨_, h.exec settings readValue (.postFailure report.taskId report.workerId _) trivial
        hfresh (h.mirrors.failAtOnce report text _)
        (h.agree.postFailure report.workerId _)
        (h.timed.postFailure hclock report.taskId report.workerId _)⟩
  | call op =>
      cases op with
      | submit taskId targetRole senderId route session body =>
          obtain ⟨hroute, hnamed⟩ := hkeeps
          have hnew : taskId ∉ w.issued := hfresh taskId List.mem_cons_self
          have hmirrors : Mirrors
              (PyRelay.submitTask w.python taskId targetRole senderId route session body now)
              (Relay.submit g taskId targetRole body (routeRoles route)
                (PyRelay.sessionOf session) now) := by
            rw [← hroute]
            exact h.mirrors.enqueue hnamed rfl
          exact ⟨_, h.exec settings readValue
            (.submit taskId targetRole body (routeRoles route) (PyRelay.sessionOf session) now)
            (le_refl now) hfresh hmirrors
            (h.agree.enqueue (h.known.fresh hnew).queue (h.rustKnown.fresh hnew).queue rfl)
            (h.timed.enqueue rfl rfl)⟩
      | poll role worker maxTasks => exact h.poll hclock hkeeps
      | result taskId workerId stopChain body next =>
          have hnew : next ∉ w.issued := hfresh next List.mem_cons_self
          exact ⟨_, h.exec settings readValue
            (.postResult taskId workerId stopChain body next) trivial hfresh
            (h.mirrors.postResult ⟨settings.taskTimeout, settings.nodeTimeout⟩ hkeeps)
            (h.agree.postResult readValue (h.known.fresh hnew).queue (h.rustKnown.fresh hnew).queue
              workerId stopChain body)
            (h.timed.postResult readValue hclock taskId workerId stopChain body next)⟩
      | register nodeId role sessions =>
          exact ⟨_, h.exec settings readValue
            (.register nodeId role (sessions.filter (· ≠ ""))) trivial hfresh
            (h.mirrors.register hkeeps)
            (h.agree.registered (g.register_registered nodeId role _ now)
              (w.rust.register_registered nodeId role _ now))
            (h.timed.register nodeId role _ now)⟩
      | deregister nodeId =>
          obtain ⟨g', h', horder, _⟩ := h.exists_inOrder
          have hheld := horder.held_eq h'.mirrors nodeId
          refine ⟨_, h'.exec settings readValue (.deregister nodeId) trivial hfresh
            (h'.mirrors.dropNode hheld) (h'.agree.dropNode h'.exact h'.rustExact fun r => ?_)
            (h'.timed.dropNode h'.exact nodeId)⟩
          rw [← hheld, ← h'.mirrors.hasRole]
          exact (hkeeps r).symm
      | heartbeat nodeId =>
          exact ⟨_, h.exec settings readValue (.heartbeat nodeId) trivial hfresh
            (h.mirrors.heartbeat nodeId now) (h.agree.heartbeat nodeId now)
            (h.timed.heartbeat nodeId now)⟩
      | janitor stuckNow oldNow =>
          obtain ⟨rfl, rfl⟩ := htimely
          obtain ⟨g', h', horder, hnodes⟩ := h.exists_inOrder
          refine ⟨_, h'.exec settings readValue .sweep trivial hfresh
            (h'.mirrors.relayJanitor horder hnodes h'.exact h'.timed)
            (h'.agree.sweep h'.exact h'.rustExact fun r => ?_)
            (h'.timed.sweep h'.exact settings _)⟩
          rw [← horder.givenBack_eq h'.mirrors hnodes h'.timed]
          exact (hkeeps r).symm

theorem aligned_step {w w' : Relays} {event : Event}
    (hstep : Step settings unpackb readValue w event w')
    (hkeeps : Keeps settings unpackb readValue w event) (h : ∃ g, Aligned w g) :
    ∃ g, Aligned w' g := by
  obtain ⟨g, h⟩ := h
  cases hstep with
  | request hclock htimely hfresh => exact aligned_request h hclock htimely hfresh hkeeps
  | rehash hrehashed =>
      have hatom : Relay.Atom [] 0 (fun _ _ => False) w.rust _ := .rehashed hrehashed
      exact ⟨g, h.mirrors, h.agree.trans hrehashed.agree, h.exact, h.known,
        hrehashed.queuesExact h.rustExact,
        Relay.known_atom (List.nil_subset _) hatom h.rustKnown, h.timed⟩

/-- Runs whose steps meet no difference of the two relays. -/
abbrev SteadyRun (settings : Settings) (unpackb readValue : Bytes → Option Relay.Value) :
    List Event → Relays → Prop :=
  Run (fun w event w' =>
    Step settings unpackb readValue w event w' ∧ Keeps settings unpackb readValue w event)
    Relays.start

theorem aligned_run {events : List Event} {w : Relays}
    (hrun : SteadyRun settings unpackb readValue events w) : ∃ g, Aligned w g :=
  hrun.invariant (P := fun w => ∃ g, Aligned w g) (fun hstep => aligned_step hstep.1 hstep.2)
    ⟨_, aligned_start⟩

theorem answer_eq_none {taken : List (String × Bytes)} : answer taken = none ↔ taken = [] := by
  unfold answer
  split <;> simp_all

theorem Aligned.pollsAlike {w : Relays} {role worker : String} (h : Aligned w g)
    (hfirst : w.python.FirstWaits worker role) (maxTasks : Nat) (now : Instant) :
    PollsAlike w role worker maxTasks now := by
  obtain ⟨hpython, _⟩ := (h.mirrors.pollTask h.exact h.known role worker maxTasks now).1 hfirst
  obtain ⟨hrust, _⟩ := rustPoll_dealt h.rustExact role worker maxTasks now
  have hsame : Relay.withPayloads w.rust (w.rust.batch worker role maxTasks) =
      Relay.withPayloads g (g.batch worker role maxTasks) := by
    rw [h.agree.batch, h.agree.withPayloads]
  refine ⟨?_, by rw [hrust], ?_, fun hnone => ?_⟩
  · rw [hpython, h.mirrors.batch, h.mirrors.withPayloads fun x => Relay.Inner.batch_stored]
  · rw [hpython, hrust, hsame]
  · have hbatch := batch_eq_nil (answer_eq_none.mp (hpython.symm.trans hnone))
    have hwaiting : g.waiting worker role = [] :=
      (List.take_eq_nil_iff.mp hbatch).resolve_left (by omega)
    exact ⟨(h.mirrors.waiting worker role).trans hwaiting,
      (h.agree.waiting worker role).trans hwaiting⟩

/-- **A poll finds what waits.** After a run without another difference of the relays, both answer
a poll alike, with the first waiting tasks, if and only if the first id queued for it at the
Python relay names a waiting task or none waits. -/
theorem polls_alike_iff {events : List Event} {w : Relays}
    (hrun : SteadyRun settings unpackb readValue events w) (role worker : String)
    (maxTasks : Nat) (now : Instant) :
    PollsAlike w role worker maxTasks now ↔ w.python.FirstWaits worker role := by
  obtain ⟨g, h⟩ := aligned_run hrun
  refine ⟨fun halike => ?_, fun hfirst => h.pollsAlike hfirst maxTasks now⟩
  by_contra hstale
  obtain ⟨hnone, _⟩ := (h.mirrors.pollTask h.exact h.known role worker maxTasks now).2 hstale
  exact hstale fun id _ => .inr (halike.noTask hnone).1

/-- `t` is polled by `w`, `v` is answered before anyone takes it, and `w` leaves, so that `u`, the
stale id of `v`, `x` and `t` are queued. -/
def staleBetween : List Event :=
  [.request (.call (.register "w" "head" [])) 1,
    .request (.call (.submit "t" "head" "client" "mid, tail" "s" [1])) 1,
    .request (.call (.poll "head" "w" 1)) 2,
    .request (.call (.submit "u" "head" "client" "" "" [2])) 2,
    .request (.call (.submit "v" "head" "client" "" "" [3])) 2,
    .request (.call (.submit "x" "head" "client" "" "" [4])) 2,
    .request (.call (.result "v" none false [9] "y")) 3,
    .request (.call (.deregister "w")) 4]

/-- The next poll passes over the stale id and hands out the task that was given back. -/
theorem polls_alike_iff_submitted : ∃ w : Relays,
    SteadyRun ⟨600, 60⟩ (fun _ => none) (fun _ => none) staleBetween w ∧
    PollsAlike w "head" "node" 4 5 ∧
    (rustPoll w.rust "head" "node" 4 5).1 = [("u", [2]), ("x", [4]), ("t", [1])] := by
  have hrun : SteadyRun ⟨600, 60⟩ (fun _ => none) (fun _ => none) staleBetween _ :=
    .cons ⟨.request (by decide) trivial (by decide), fun _ _ hin => by cases hin⟩ <|
    .cons ⟨.request (by decide) trivial (by decide), by decide, fun _ _ _ => nofun⟩ <|
    .cons ⟨.request (by decide) trivial (by decide), fun _ hid => .inl (by cases hid; decide)⟩ <|
    .cons ⟨.request (by decide) trivial (by decide), rfl, nofun⟩ <|
    .cons ⟨.request (by decide) trivial (by decide), rfl, nofun⟩ <|
    .cons ⟨.request (by decide) trivial (by decide), rfl, nofun⟩ <|
    .cons ⟨.request (by decide) trivial (by decide), fun _ _ _ htask _ _ hroute => by
      cases htask
      cases hroute⟩ <|
    .single ⟨.request (by decide) trivial (by decide), fun _ => rfl⟩
  refine ⟨_, hrun, (polls_alike_iff hrun "head" "node" 4 5).mpr fun id hid => .inl ?_, by decide⟩
  cases hid
  decide

/-- The task `a` is completed before a worker takes it; its id stays queued and hides `b`. -/
theorem stale_id_hides_task : ¬∀ (settings : Settings)
    (unpackb readValue : Bytes → Option Relay.Value) (events : List Event) (w : Relays),
    Run (Step settings unpackb readValue) Relays.start events w →
    ∀ (role worker : String) (maxTasks : Nat) (now : Instant),
      PollsAlike w role worker maxTasks now := by
  intro halike
  set after := next ⟨600, 60⟩ (fun _ => none) (fun _ => none) with hafter
  have hfirst : Step ⟨600, 60⟩ (fun _ => none) (fun _ => none) Relays.start
      (.request (.call (.submit "a" "head" "client" "" "" [1])) 1) _ :=
    .request (by decide) trivial (by decide)
  have hsecond : Step ⟨600, 60⟩ (fun _ => none) (fun _ => none)
      (after (.call (.submit "a" "head" "client" "" "" [1])) 1 Relays.start)
      (.request (.call (.submit "b" "head" "client" "" "" [2])) 1) _ :=
    .request (by decide) trivial (by decide)
  have hresult : Step ⟨600, 60⟩ (fun _ => none) (fun _ => none)
      (after (.call (.submit "b" "head" "client" "" "" [2])) 1
        (after (.call (.submit "a" "head" "client" "" "" [1])) 1 Relays.start))
      (.request (.call (.result "a" none false [3] "c")) 2) _ :=
    .request (by decide) ⟨⟩ (by decide)
  have hsame := (halike _ _ _ _ _ (((Run.single hfirst).snoc hsecond).snoc hresult)
    "head" "node" 1 3).same
  revert hsame
  decide

end Lockstep
end Distllm
