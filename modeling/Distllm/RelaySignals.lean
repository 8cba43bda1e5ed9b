import Distllm.RelayViews

/-! The notifications of the Rust relay. `push_role` and `push_worker` notify the handle of the queue
they push to, and `forget_worker` drops the handle of the worker it forgets; here is the list of
these for each operation, in order. An operation lets no task wait in a queue where none waited
before without notifying its handle. -/

namespace Distllm.Relay

open Relay.Inner

/-- The names of the handles: "role:<name>" and "worker:<id>". -/
inductive Key where
  | role (name : String)
  | worker (id : String)
  deriving DecidableEq

inductive Signal where
  | push (key : Key)
  | forget (worker : String)
  deriving DecidableEq

/-- The notifications of a loop. -/
def signalsAlong {α : Type} (f : Inner → α → Inner) (signals : Inner → α → List Signal) :
    List α → Inner → List Signal
  | [], _ => []
  | a :: rest, g => signals g a ++ signalsAlong f signals rest (f g a)

namespace Inner

def enqueueSignals (g : Inner) (role : String) (session : Option String) : List Signal :=
  match (g.boundWorker role session).1 with
  | some worker => [.push (.worker worker)]
  | none => [.push (.role role)]

def requeueSignals (g : Inner) (taskId : String) : List Signal :=
  match g.tasks.lookup taskId with
  | none => []
  | some task => [.push (.role task.targetRole)]

def moveToRoleSignals (g : Inner) (taskId : String) : List Signal :=
  match g.tasks.lookup taskId with
  | some task => if task.status = .pending then [.push (.role task.targetRole)] else []
  | none => []

def forgetWorkerSignals (g : Inner) (worker : String) : List Signal :=
  let requeued := signalsAlong requeue requeueSignals (g.assignedTo worker) g
  let g := (g.assignedTo worker).foldl requeue g
  let queue := g.workerQueues.queue worker
  let g := { g with workerQueues := g.workerQueues.erase worker }
  requeued ++ signalsAlong moveToRole moveToRoleSignals queue g ++ [.forget worker]

end Inner

def dropNodeSignals (g : Inner) (nodeId : String) : List Signal :=
  match g.nodes.lookup nodeId with
  | some _ => { g with nodes := g.nodes.erase nodeId }.forgetWorkerSignals nodeId
  | none => []

def postResultSignals (readValue : Bytes → Option Value) (g : Inner) (taskId : String)
    (workerId : Option String) (stopChain : Bool) (body : Bytes) (now : Instant) : List Signal :=
  match g.tasks.lookup taskId with
  | none => []
  | some task =>
    if task.status.finished then []
    else if !checkWorker task workerId then []
    else match task.route with
      | nextRole :: _ =>
        if stopsChain readValue body stopChain then []
        else
          let g := { g with tasks := g.tasks.modify taskId (markForwarded taskId now) }
          g.enqueueSignals nextRole task.session
      | [] => []

def sweepSignals (settings : Settings) (g : Inner) (now : Instant) : List Signal :=
  let dropped := (deadNodes settings g now).foldl dropNode g
  signalsAlong dropNode dropNodeSignals (deadNodes settings g now) g ++
    signalsAlong requeue requeueSignals (stuckTasks settings dropped now) dropped

/-- The notifications of an operation. -/
def signals (settings : Settings) (readValue : Bytes → Option Value) (op : Op) (now : Instant)
    (g : Inner) : List Signal :=
  match op with
  | .submit _ targetRole _ _ session _ => g.enqueueSignals targetRole session
  | .postResult taskId workerId stopChain body _ =>
    postResultSignals readValue g taskId workerId stopChain body now
  | .deregister nodeId => dropNodeSignals g nodeId
  | .sweep => sweepSignals settings g now
  | .poll .. | .pollDeadline .. | .postFailure .. | .register .. | .heartbeat .. => []

/-! ### What the notifications cover -/

/-- The pending ids of the queue that the handle belongs to. -/
def Inner.queuedAt (g : Inner) : Key → List String
  | .role name => g.ofRole name
  | .worker id => g.ofWorker id

/-- No task waits in a queue where none waited before, unless its handle is notified. -/
def Inner.Rings (g : Inner) (signals : List Signal) (g' : Inner) : Prop :=
  ∀ key, g.queuedAt key = [] → .push key ∉ signals → g'.queuedAt key = []

variable {g g' g'' : Inner} {rung rung' : List Signal} {id worker : String} {task : Task}
  {now : Instant} {settings : Settings} {readValue : Bytes → Option Value}

namespace Inner

namespace Rings

theorem of_subset (h : ∀ key, g'.queuedAt key ⊆ g.queuedAt key) : g.Rings rung g' :=
  fun key hnone _ => List.subset_nil.mp (hnone ▸ h key)

theorem refl (g : Inner) : g.Rings rung g := of_subset fun _ => List.Subset.refl _

theorem trans (h : g.Rings rung g') (h' : g'.Rings rung' g'') : g.Rings (rung ++ rung') g'' := by
  intro key hnone hsilent
  rw [List.mem_append, not_or] at hsilent
  exact h' key (h key hnone hsilent.1) hsilent.2

theorem mono (h : g.Rings rung g') (hsub : rung ⊆ rung') : g.Rings rung' g' :=
  fun key hnone hsilent => h key hnone fun hmem => hsilent (hsub hmem)

/-- Every id that waits anew belongs to a handle that is notified. -/
theorem of_new (h : ∀ key, ∀ x ∈ g'.queuedAt key, x ∈ g.queuedAt key ∨ .push key ∈ rung) :
    g.Rings rung g' := by
  intro key hnone hsilent
  refine List.eq_nil_iff_forall_not_mem.mpr fun x hx => ?_
  rcases h key x hx with hmem | hmem
  · rw [hnone] at hmem
    cases hmem
  · exact hsilent hmem

end Rings

theorem boundWorker_of {role session worker : String} (hserves : g.Serves worker role)
    (hbound : g.boundTo (role, session) = some worker) :
    (g.boundWorker role (some session)).1 = some worker := by
  obtain ⟨node, hnode, hrole⟩ := hserves
  obtain ⟨used, hbound⟩ := g.boundTo_eq_some.mp hbound
  simp only [boundWorker, hbound, hnode, hrole, if_true]

theorem enqueue_rings (task : Task) (hfresh : g.occurrences id = 0)
    (hpending : task.status = .pending) :
    g.Rings (g.enqueueSignals task.targetRole task.session) (g.enqueue id task) := by
  obtain ⟨_, _, hplace⟩ := enqueue_queued hfresh hpending
  unfold enqueueSignals
  rcases hplace with ⟨worker, s, hserves, hsession, hbound, hown, hshared, _⟩ |
    ⟨hfree, hown, hshared, _⟩
  · rw [hsession, boundWorker_of hserves hbound]
    refine .of_new fun key x hx => ?_
    cases key with
    | role name =>
        left
        rw [queuedAt, hshared] at hx
        exact hx
    | worker w =>
        rw [queuedAt, hown] at hx
        split at hx
        · rename_i hw
          exact .inr (hw ▸ List.mem_singleton_self _)
        · exact .inl hx
  · cases hworker : (g.boundWorker task.targetRole task.session).1 with
    | some worker =>
        obtain ⟨_, hserves, s, used, hsession, hbound⟩ := g.boundWorker_some hworker
        exact absurd (g.boundTo_eq_some.mpr ⟨used, hbound⟩) (hfree worker s hserves hsession)
    | none =>
        refine .of_new fun key x hx => ?_
        cases key with
        | role name =>
            rw [queuedAt, hshared] at hx
            split at hx
            · rename_i hname
              exact .inr (hname ▸ List.mem_singleton_self _)
            · exact .inl hx
        | worker w =>
            left
            rw [queuedAt, hown] at hx
            exact hx

/-! ### Re-queued tasks and gone workers -/

theorem requeue_targetRole (htask : g.tasks.lookup id = some task) (x : String) :
    ∃ task', (g.requeue x).tasks.lookup id = some task' ∧ task'.targetRole = task.targetRole := by
  cases hx : g.tasks.lookup x with
  | none =>
      refine ⟨task, ?_, rfl⟩
      rw [requeue, hx]
      exact htask
  | some stored =>
      obtain ⟨affinity, hrequeue⟩ := g.requeue_of_lookup hx
      rw [hrequeue]
      dsimp only
      rw [AList.lookup_modify, htask]
      split
      · exact ⟨released task, rfl, rfl⟩
      · exact ⟨task, rfl, rfl⟩

theorem mem_requeueSignals {ids : List String} (hid : id ∈ ids)
    (htask : g.tasks.lookup id = some task) :
    .push (.role task.targetRole) ∈ signalsAlong requeue requeueSignals ids g := by
  induction ids generalizing g task with
  | nil => cases hid
  | cons first rest ih =>
      rw [signalsAlong]
      rcases List.mem_cons.mp hid with rfl | hid
      · apply List.mem_append_left
        rw [requeueSignals, htask]
        exact List.mem_singleton_self _
      · apply List.mem_append_right
        obtain ⟨task', htask', hrole⟩ := requeue_targetRole htask first
        rw [← hrole]
        exact ih hid htask'

theorem mem_moveToRoleSignals {queue : List String} (hid : id ∈ queue)
    (htask : g.tasks.lookup id = some task) (hpending : task.status = .pending) :
    .push (.role task.targetRole) ∈ signalsAlong moveToRole moveToRoleSignals queue g := by
  induction queue generalizing g with
  | nil => cases hid
  | cons first rest ih =>
      rw [signalsAlong]
      rcases List.mem_cons.mp hid with rfl | hid
      · apply List.mem_append_left
        rw [moveToRoleSignals, htask]
        dsimp only
        rw [if_pos hpending]
        exact List.mem_singleton_self _
      · apply List.mem_append_right
        apply ih hid
        rcases g.moveToRole_cases first with ⟨t, _, _, hmove⟩ | ⟨_, hmove⟩
        · rw [hmove]
          exact htask
        · rw [hmove]
          exact htask

/-- What a gone worker held or had queued is notified to its roles. -/
theorem mem_dropNodeSignals {node : Node} (hnode : g.nodes.lookup worker = some node)
    (hid : id ∈ g.assignedTo worker ++ g.ofWorker worker) (htask : g.tasks.lookup id = some task) :
    .push (.role task.targetRole) ∈ dropNodeSignals g worker := by
  rw [dropNodeSignals, hnode]
  dsimp only
  rw [forgetWorkerSignals]
  apply List.mem_append_left
  rcases List.mem_append.mp hid with hid | hid
  · apply List.mem_append_left
    exact mem_requeueSignals hid htask
  · apply List.mem_append_right
    obtain ⟨hqueue, stored, hstored, hpending⟩ := mem_ofWorker.mp hid
    obtain rfl := Option.some.inj (hstored.symm.trans htask)
    have hreturned := { g with nodes := g.nodes.erase worker }.returned_assignedTo worker
    have hstays : id ∉ g.assignedTo worker := by
      intro hassigned
      obtain ⟨t, ht, hstatus, _⟩ := g.mem_assignedTo.mp hassigned
      obtain rfl := Option.some.inj (ht.symm.trans htask)
      rw [hpending] at hstatus
      cases hstatus
    have hsame := (hreturned.tasks id).trans ((if_neg hstays).trans htask)
    rw [hreturned.workerQueues]
    exact mem_moveToRoleSignals hqueue hsame hpending

theorem dropNode_rings (hg : g.QueuesExact) (worker : String) :
    g.Rings (dropNodeSignals g worker) (Relay.dropNode g worker) := by
  cases hnode : g.nodes.lookup worker with
  | none =>
      rw [dropNode_of_none g hnode]
      exact .refl g
  | some node =>
      have hdropped := dropNode_dropped hg hnode
      refine .of_new fun key x hx => ?_
      cases key with
      | role name =>
          rw [queuedAt, hdropped.ofRole hg] at hx
          rcases List.mem_append.mp hx with hx | hx
          · exact .inl hx
          · obtain ⟨hmem, hrole⟩ := List.mem_filter.mp hx
            obtain ⟨task, htask, hname⟩ := (Option.any_eq_true _ _).mp hrole
            rw [beq_iff_eq] at hname
            exact .inr (hname ▸ mem_dropNodeSignals hnode hmem htask)
      | worker w => exact .inl (hdropped.of_mem_ofWorker hg hx).2

theorem foldl_dropNode_rings (hg : g.QueuesExact) (workers : List String) :
    g.Rings (signalsAlong Relay.dropNode dropNodeSignals workers g)
      (workers.foldl Relay.dropNode g) := by
  induction workers generalizing g with
  | nil => exact .refl g
  | cons first rest ih => exact (dropNode_rings hg first).trans (ih (hg.dropNode first))

theorem stuckTasks_rings (hg : g.QueuesExact) (settings : Settings) (now : Instant) :
    g.Rings (signalsAlong requeue requeueSignals (stuckTasks settings g now) g)
      ((stuckTasks settings g now).foldl requeue g) := by
  have hreturned := g.returned_stuckTasks settings now
  refine .of_new fun key x hx => ?_
  cases key with
  | role name =>
      rw [queuedAt, hreturned.ofRole hg fun id hid => assigned_of_mem_stuckTasks hid] at hx
      rcases List.mem_append.mp hx with hx | hx
      · exact .inl hx
      · obtain ⟨hmem, hrole⟩ := List.mem_filter.mp hx
        obtain ⟨task, htask, hname⟩ := (Option.any_eq_true _ _).mp hrole
        rw [beq_iff_eq] at hname
        exact .inr (hname ▸ mem_requeueSignals hmem htask)
  | worker w =>
      left
      rw [queuedAt, hreturned.ofWorker hg fun id hid => assigned_of_mem_stuckTasks hid] at hx
      exact hx

theorem sweep_rings (hg : g.QueuesExact) :
    g.Rings (sweepSignals settings g now) (sweep settings g now) := by
  have hdead := hg.foldl_dropNode (deadNodes settings g now)
  have hboth := (foldl_dropNode_rings hg (deadNodes settings g now)).trans
    (stuckTasks_rings hdead settings now)
  have hclean : ∀ (g : Inner) affinity, g.Rings [] { g with
      tasks := g.tasks.retain fun _ task => keepTask now task, affinity := affinity } := by
    intro g affinity
    refine .of_subset fun key x hx => ?_
    cases key with
    | role name =>
        rw [queuedAt, ofRole, pendingOf_cleaned] at hx
        exact List.mem_of_mem_filter hx
    | worker w =>
        rw [queuedAt, ofWorker, pendingOf_cleaned] at hx
        exact List.mem_of_mem_filter hx
  have hall : g.Rings (sweepSignals settings g now ++ []) (sweep settings g now) :=
    hboth.trans (hclean _ _)
  rwa [List.append_nil] at hall

/-! ### The other operations -/

theorem Settled.rings (h : g.Settled g') : g.Rings [] g' := by
  refine .of_subset fun key => ?_
  cases key with
  | role name =>
      rw [queuedAt, ofRole, h.roleQueues]
      exact pendingOf_subset fun x _ => h.isPending
  | worker w => exact h.ofWorker w

theorem Dealt.rings {batch : List String} (h : g.Dealt worker now batch g') : g.Rings [] g' := by
  refine .of_subset fun key x hx => ?_
  cases key with
  | role name =>
      rw [queuedAt, ofRole, h.role] at hx
      exact List.mem_of_mem_filter hx
  | worker w =>
      rw [queuedAt, ofWorker, h.own] at hx
      exact List.mem_of_mem_filter hx

theorem Alike.queuedAt (h : g.Alike g') (key : Key) : g'.queuedAt key = g.queuedAt key := by
  cases key with
  | role name => exact h.ofRole name
  | worker w => exact h.ofWorker w

/-- Every operation notifies the handles of the queues where it lets tasks wait anew. -/
theorem exec_rings (op : Op) (hg : g.QueuesExact) (hfresh : ∀ id ∈ op.drawn, g.Fresh id) :
    g.Rings (signals settings readValue op now g) (exec settings readValue op now g).2 := by
  cases op with
  | submit taskId targetRole body route session createdAt =>
      exact enqueue_rings ⟨targetRole, body, route, taskId, session, .pending, none, none, none, none,
        createdAt, none, false⟩ (hfresh taskId List.mem_cons_self).queue rfl
  | poll role worker maxTasks => exact (poll_dealt hg role worker maxTasks now).2.rings
  | pollDeadline role worker => exact (pollDeadline_dealt role worker now).2.rings
  | postResult taskId workerId stopChain body next =>
      rcases postResult_cases readValue g taskId workerId stopChain body next now with
        ⟨_, _, h⟩ | ⟨task, htask, hlive, _, hends, h⟩ |
          ⟨task, nextRole, tail, htask, hlive, hworker, hroute, hstops, h⟩
      · simp only [exec, h]
        exact .refl g
      · simp only [exec, h]
        exact (finish_settled htask rfl).rings.mono (List.nil_subset _)
      · have hnew := hfresh next List.mem_cons_self
        have hsignals : signals settings readValue (.postResult taskId workerId stopChain body next)
            now g = enqueueSignals { g with tasks := g.tasks.modify taskId (markForwarded taskId now) }
              nextRole task.session := by
          rw [signals, postResultSignals, htask]
          dsimp only
          rw [if_neg (by rw [hlive]; exact Bool.false_ne_true), hworker, hroute]
          dsimp only
          rw [if_neg (by decide), if_neg (by rw [hstops]; exact Bool.false_ne_true)]
        have hqueue : occurrences { g with
            tasks := g.tasks.modify taskId (markForwarded taskId now) } next = 0 := hnew.queue
        rw [hsignals]
        simp only [exec, h]
        exact (markForwarded_settled g taskId now).rings.trans
          (enqueue_rings (successor task nextRole tail body now) hqueue rfl)
  | postFailure taskId workerId message =>
      rcases postFailure_cases g taskId workerId message now with
        ⟨_, _, h⟩ | ⟨task, htask, hlive, _, h⟩
      · simp only [exec, h]
        exact .refl g
      · simp only [exec, h]
        exact (finish_settled htask rfl).rings
  | register nodeId role sessions =>
      have hregistered := register_registered g nodeId role sessions now
      refine .of_subset fun key => ?_
      cases key with
      | role name =>
          rw [exec, Inner.queuedAt, hregistered.shared]
          exact List.Subset.refl _
      | worker w =>
          rw [exec, Inner.queuedAt, hregistered.own]
          exact List.Subset.refl _
  | deregister nodeId => exact dropNode_rings hg nodeId
  | heartbeat nodeId =>
      refine .of_subset fun key => ?_
      rw [exec, (heartbeat_alike g nodeId now).queuedAt]
      exact List.Subset.refl _
  | sweep => exact sweep_rings hg

end Inner
end Distllm.Relay
