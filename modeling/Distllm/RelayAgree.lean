import Distllm.RelayViews

/-! Two states of the Rust relay with the same nodes, tasks and bindings, in which the same
pending tasks wait in the same queues. Their tables may be listed in different orders, and
different ids that are no longer pending may be left in their queues. An operation takes such
states to such states; one that gives tasks back to their role queues does so when both states
list these tasks in the same order, role by role. -/

namespace Distllm.Relay

open Relay.Inner

namespace Inner

structure Agree (g twin : Inner) : Prop where
  nodes : ∀ w, twin.nodes.lookup w = g.nodes.lookup w
  tasks : ∀ x, twin.tasks.lookup x = g.tasks.lookup x
  own : ∀ w, twin.ofWorker w = g.ofWorker w
  shared : ∀ r, twin.ofRole r = g.ofRole r
  affinity : ∀ key, twin.affinity.lookup key = g.affinity.lookup key

variable {g g' twin twin' : Inner} {now : Instant} {x worker role : String}
  {key : String × String} {settings : Settings}

theorem Rehashed.agree (h : g.Rehashed g') : g.Agree g' where
  nodes := h.lookup_nodes
  tasks := h.lookup_tasks
  own := h.alike.ofWorker
  shared := h.alike.ofRole
  affinity := h.alike.affinity

theorem Rehashed.queuesExact (h : g.Rehashed g') (hg : g.QueuesExact) : g'.QueuesExact := by
  have hatom : Atom [] 0 (fun _ _ => False) g g' := .rehashed h
  exact queuesExact_atom hatom hg

namespace Agree

theorem refl (g : Inner) : g.Agree g :=
  ⟨fun _ => rfl, fun _ => rfl, fun _ => rfl, fun _ => rfl, fun _ => rfl⟩

theorem symm (h : g.Agree twin) : twin.Agree g where
  nodes w := (h.nodes w).symm
  tasks x := (h.tasks x).symm
  own w := (h.own w).symm
  shared r := (h.shared r).symm
  affinity key := (h.affinity key).symm

theorem trans (h : g.Agree g') (h' : g'.Agree twin) : g.Agree twin where
  nodes w := (h'.nodes w).trans (h.nodes w)
  tasks x := (h'.tasks x).trans (h.tasks x)
  own w := (h'.own w).trans (h.own w)
  shared r := (h'.shared r).trans (h.shared r)
  affinity key := (h'.affinity key).trans (h.affinity key)

theorem keyOf (h : g.Agree twin) (x : String) : twin.keyOf x = g.keyOf x :=
  keyOf_congr (h.tasks x)

theorem workerOf (h : g.Agree twin) (x : String) : twin.workerOf x = g.workerOf x := by
  rw [Inner.workerOf, Inner.workerOf, h.tasks]

theorem hasRole (h : g.Agree twin) (r : String) : twin.hasRole r = g.hasRole r := by
  funext x
  rw [Inner.hasRole, Inner.hasRole, h.tasks]

theorem serves (h : g.Agree twin) : twin.Serves worker role ↔ g.Serves worker role := by
  rw [Serves, Serves, h.nodes]

theorem boundTo (h : g.Agree twin) (key : String × String) : twin.boundTo key = g.boundTo key := by
  rw [Inner.boundTo, Inner.boundTo, h.affinity]

theorem claimed (h : g.Agree twin) (key : String × String) : twin.claimed key = g.claimed key := by
  rw [Inner.claimed, Inner.claimed, h.affinity]
  congr 1
  funext bound
  rw [h.nodes]

theorem waiting (h : g.Agree twin) (worker role : String) :
    twin.waiting worker role = g.waiting worker role := by
  rw [waiting_eq, waiting_eq, h.own, h.shared]

theorem batch (h : g.Agree twin) (worker role : String) (maxTasks : Nat) :
    twin.batch worker role maxTasks = g.batch worker role maxTasks := by
  rw [Inner.batch, Inner.batch, h.waiting]

theorem withPayloads (h : g.Agree twin) (ids : List String) :
    Relay.withPayloads twin ids = Relay.withPayloads g ids :=
  List.filterMap_congr fun id _ => by rw [h.tasks]

/-! ### Operations that give nothing back -/

/-- The same new task is queued at the same place. -/
theorem queued {id : String} {task : Task} (h : g.Agree twin) (hq : g.Queued id task g')
    (hq' : twin.Queued id task twin') : g'.Agree twin' := by
  have hnodes : ∀ w, twin'.nodes.lookup w = g'.nodes.lookup w := fun w => by
    rw [hq.nodes, hq'.nodes, h.nodes]
  have htasks : ∀ x, twin'.tasks.lookup x = g'.tasks.lookup x := fun x => by
    rw [hq.tasks, hq'.tasks, h.tasks]
  rcases hq.place with
    ⟨worker, s, hserves, hsession, hbound, hown, hshared, haffinity⟩ |
    ⟨hfree, hown, hshared, haffinity⟩ <;>
  rcases hq'.place with
    ⟨worker', s', hserves', hsession', hbound', hown', hshared', haffinity'⟩ |
    ⟨hfree', hown', hshared', haffinity'⟩
  · obtain rfl : s' = s := Option.some.inj (hsession'.symm.trans hsession)
    rw [h.boundTo] at hbound'
    obtain rfl : worker' = worker := Option.some.inj (hbound'.symm.trans hbound)
    refine ⟨hnodes, htasks, fun w => ?_, fun r => ?_, fun key => ?_⟩
    · rw [hown', hown, h.own]
    · rw [hshared', hshared, h.shared]
    · rw [haffinity', haffinity, h.affinity]
  · exact absurd ((h.boundTo _).trans hbound) (hfree' worker s (h.serves.mpr hserves) hsession)
  · exact absurd ((h.boundTo _).symm.trans hbound')
      (hfree worker' s' (h.serves.mp hserves') hsession')
  · refine ⟨hnodes, htasks, fun w => ?_, fun r => ?_, fun key => ?_⟩
    · rw [hown', hown, h.own]
    · rw [hshared', hshared, h.shared]
    · rw [haffinity', haffinity, h.affinity]

/-- The same tasks are handed to the same worker. -/
theorem dealt {ids : List String} (h : g.Agree twin) (hd : g.Dealt worker now ids g')
    (hd' : twin.Dealt worker now ids twin') : g'.Agree twin' where
  nodes w := by rw [hd.nodes, hd'.nodes, h.nodes]
  tasks x := by rw [hd.tasks, hd'.tasks, h.tasks]
  own w := by
      rw [ofWorker, ofWorker, hd.own, hd'.own]
      exact congrArg _ (h.own w)
  shared r := by
      rw [ofRole, ofRole, hd.role, hd'.role]
      exact congrArg _ (h.shared r)
  affinity key := by
      have hkeys : ids.map twin.keyOf = ids.map g.keyOf :=
        List.map_congr_left fun x _ => h.keyOf x
      rw [hd.affinity, hd'.affinity, h.affinity, hkeys]

/-- What is still pending in a queue after tasks are finished or dropped. -/
theorem pendingOf_settled (hs : g.Settled g') (queue : List String) :
    g'.pendingOf queue = (g.pendingOf queue).filter (g'.IsPending ·) := by
  rw [Inner.pendingOf, Inner.pendingOf, List.filter_filter]
  apply List.filter_congr
  intro x _
  rw [← Bool.decide_and, decide_eq_decide]
  exact ⟨fun hx => ⟨hx, hs.isPending hx⟩, fun hx => hx.1⟩

/-- The same tasks are finished or dropped. -/
theorem settled (h : g.Agree twin) (hs : g.Settled g') (hs' : twin.Settled twin')
    (htasks : ∀ x, twin'.tasks.lookup x = g'.tasks.lookup x) : g'.Agree twin' := by
  have hpending : ∀ queue : List String, queue.filter (twin'.IsPending ·) =
      queue.filter (g'.IsPending ·) := fun queue =>
    List.filter_congr fun x _ => decide_eq_decide.mpr (isPending_congr (htasks x))
  refine ⟨fun w => ?_, htasks, fun w => ?_, fun r => ?_, fun key => ?_⟩
  · rw [hs.nodes, hs'.nodes, h.nodes]
  · rw [ofWorker, ofWorker, hs.workerQueues, hs'.workerQueues, pendingOf_settled hs,
      pendingOf_settled hs', hpending]
    exact congrArg _ (h.own w)
  · rw [ofRole, ofRole, hs.roleQueues, hs'.roleQueues, pendingOf_settled hs,
      pendingOf_settled hs', hpending]
    exact congrArg _ (h.shared r)
  · rw [hs.affinity, hs'.affinity, h.affinity]

theorem finish {id : String} {task : Task} {status : Status} {result : Option Bytes}
    {error : Option String} (h : g.Agree twin) (htask : g.tasks.lookup id = some task)
    (hfinished : status.finished = true) :
    (g.finish id status result error now).Agree (twin.finish id status result error now) := by
  have htask' : twin.tasks.lookup id = some task := (h.tasks id).trans htask
  obtain ⟨tasks, hfinish, hlookup⟩ := g.finish_of_lookup status result error now htask
  obtain ⟨tasks', hfinish', hlookup'⟩ := twin.finish_of_lookup status result error now htask'
  apply h.settled (finish_settled htask hfinished) (finish_settled htask' hfinished)
  intro x
  rw [hfinish, hfinish']
  dsimp only
  rw [hlookup, hlookup', h.tasks]

theorem markForwarded (h : g.Agree twin) (id : String) (now : Instant) :
    Agree { g with tasks := g.tasks.modify id (Relay.markForwarded id now) }
      { twin with tasks := twin.tasks.modify id (Relay.markForwarded id now) } := by
  apply h.settled (markForwarded_settled g id now) (markForwarded_settled twin id now)
  intro x
  dsimp only
  rw [AList.lookup_modify, AList.lookup_modify, h.tasks]

theorem registered {nodeId : String} {sessions : List String} (h : g.Agree twin)
    (hr : g.Registered nodeId role sessions now g')
    (hr' : twin.Registered nodeId role sessions now twin') : g'.Agree twin' where
  nodes w := by rw [hr.nodes, hr'.nodes, h.nodes]
  tasks x := by rw [hr.tasks, hr'.tasks, h.tasks]
  own w := by rw [hr.own, hr'.own, h.own]
  shared r := by rw [hr.shared, hr'.shared, h.shared]
  affinity key := by rw [hr.affinity, hr'.affinity, h.affinity, h.claimed]

theorem heartbeat (h : g.Agree twin) (nodeId : String) (now : Instant) :
    (Relay.heartbeat g nodeId now).2.Agree (Relay.heartbeat twin nodeId now).2 := by
  have hnode := h.nodes nodeId
  cases hlookup : g.nodes.lookup nodeId with
  | none =>
      rw [hlookup] at hnode
      simp only [Relay.heartbeat, hlookup, hnode]
      exact h
  | some node =>
      rw [hlookup] at hnode
      simp only [Relay.heartbeat, hlookup, hnode]
      refine ⟨fun w => ?_, h.tasks, h.own, h.shared, h.affinity⟩
      dsimp only
      rw [AList.lookup_modify, AList.lookup_modify, h.nodes]

end Agree

/-! ### Tasks that are given back -/

theorem assignedTo_eq (g : Inner) (worker : String) : g.assignedTo worker =
    g.tasks.keys.filter fun x => (g.tasks.lookup x).any fun task =>
      task.status == .assigned && task.workerId == some worker :=
  AList.keysWhere_eq_filter ..

theorem stuckTasks_eq (settings : Settings) (g : Inner) (now : Instant) :
    stuckTasks settings g now = g.tasks.keys.filter fun x => (g.tasks.lookup x).any fun task =>
      task.status == .assigned && Task.stuck settings now task :=
  AList.keysWhere_eq_filter ..

/-- Re-queueing a task leaves the tasks in their order. -/
theorem keys_requeue (g : Inner) (id : String) : (g.requeue id).tasks.keys = g.tasks.keys := by
  cases htask : g.tasks.lookup id with
  | none => rw [requeue, htask]
  | some task =>
      obtain ⟨affinity, h⟩ := g.requeue_of_lookup htask
      rw [h]
      exact AList.keys_modify ..

theorem keys_foldl_requeue (g : Inner) (ids : List String) :
    (ids.foldl requeue g).tasks.keys = g.tasks.keys := by
  induction ids generalizing g with
  | nil => rfl
  | cons id rest ih => rw [List.foldl_cons, ih, keys_requeue]

theorem keys_dropNode (g : Inner) (worker : String) :
    (Relay.dropNode g worker).tasks.keys = g.tasks.keys := by
  cases hnode : g.nodes.lookup worker with
  | none => rw [dropNode_of_none g hnode]
  | some node =>
      obtain ⟨roleQueues, affinity, h, _⟩ :=
        ((g.assignedTo worker).foldl requeue g).drain_cases worker
      rw [dropNode_of_registered g hnode, h]
      exact keys_foldl_requeue g _

theorem keys_foldl_dropNode (g : Inner) (workers : List String) :
    (workers.foldl Relay.dropNode g).tasks.keys = g.tasks.keys := by
  induction workers generalizing g with
  | nil => rfl
  | cons worker rest ih => rw [List.foldl_cons, ih, keys_dropNode]

/-- What the workers leave to a role queue when they are dropped one after the other: the tasks
they hold and then what waits for them. -/
def leftBy (g : Inner) (workers : List String) (role : String) : List String :=
  (workers.flatMap fun worker => g.assignedTo worker ++ g.ofWorker worker).filter (g.hasRole role)

/-- The stuck tasks of the role that are held by a node the janitor does not drop. -/
def leftStuck (settings : Settings) (g : Inner) (now : Instant) (role : String) : List String :=
  (stuckTasks settings g now).filter fun x => g.hasRole role x &&
    !(g.tasks.lookup x).any (heldBy (deadNodes settings g now))

/-- What the janitor gives back to a role queue, in order, of the tasks it keeps. -/
def givenBack (settings : Settings) (g : Inner) (now : Instant) (role : String) : List String :=
  (g.leftBy (deadNodes settings g now) role ++ g.leftStuck settings now role).filter fun x =>
    (g.tasks.lookup x).any (keepTask now)

theorem Dropped.assignedTo {other : String} (h : g.Dropped worker g')
    (hkeys : g'.tasks.keys = g.tasks.keys) (hne : other ≠ worker) :
    g'.assignedTo other = g.assignedTo other := by
  rw [assignedTo_eq, assignedTo_eq, hkeys]
  apply List.filter_congr
  intro x _
  rw [h.tasks_heldBy]
  cases g.tasks.lookup x with
  | none => rfl
  | some task =>
      rw [Option.map_some, Option.any_some, Option.any_some]
      split
      · rename_i hheld
        obtain ⟨_, w, hw, hname⟩ := heldBy_eq_true.mp hheld
        obtain rfl := List.mem_singleton.mp hw
        rw [hname]
        simp [released, Ne.symm hne]
      · rfl

theorem hasRole_of_tasks {p : Task → Bool} (h : ∀ x, g'.tasks.lookup x =
    (g.tasks.lookup x).map fun task => if p task then released task else task) (r : String) :
    g'.hasRole r = g.hasRole r := by
  funext x
  rw [Inner.hasRole, Inner.hasRole, h]
  cases g.tasks.lookup x with
  | none => rfl
  | some task =>
      rw [Option.map_some, Option.any_some, Option.any_some]
      split <;> rfl

theorem ofRole_foldl_dropNode {workers : List String} (hg : g.QueuesExact)
    (hnodup : workers.Nodup) (hregistered : ∀ w ∈ workers, (g.nodes.lookup w).isSome = true)
    (r : String) : (workers.foldl Relay.dropNode g).ofRole r = g.ofRole r ++ g.leftBy workers r := by
  induction workers generalizing g with
  | nil => exact (List.append_nil _).symm
  | cons worker rest ih =>
      obtain ⟨hnew, hrest⟩ := List.nodup_cons.mp hnodup
      obtain ⟨node, hnode⟩ := Option.isSome_iff_exists.mp (hregistered worker List.mem_cons_self)
      have hfirst := dropNode_dropped hg hnode
      have hothers : ∀ w ∈ rest, w ≠ worker := fun w hw h => hnew (h ▸ hw)
      have hleft : (Relay.dropNode g worker).leftBy rest r = g.leftBy rest r := by
        rw [leftBy, leftBy, hasRole_of_tasks hfirst.tasks_heldBy]
        congr 1
        apply List.flatMap_congr
        intro w hw
        rw [hfirst.assignedTo (keys_dropNode g worker) (hothers w hw), hfirst.ofWorker hg,
          if_neg (hothers w hw)]
      rw [List.foldl_cons, ih (hg.dropNode worker) hrest fun w hw => by
        rw [hfirst.nodes, AList.lookup_erase_eq, if_neg (hothers w hw)]
        exact hregistered w (List.mem_cons_of_mem _ hw)]
      rw [hleft, hfirst.ofRole hg, List.append_assoc, leftBy, leftBy, List.flatMap_cons,
        ← List.filter_append]

theorem stuckTasks_droppedAll (hdropped : g.DroppedAll (deadNodes settings g now) g')
    (hkeys : g'.tasks.keys = g.tasks.keys) (r : String) :
    (stuckTasks settings g' now).filter (g'.hasRole r) = g.leftStuck settings now r := by
  rw [leftStuck, stuckTasks_eq, stuckTasks_eq, hkeys, List.filter_filter, List.filter_filter,
    hasRole_of_tasks hdropped.tasks]
  apply List.filter_congr
  intro x _
  rw [hdropped.tasks]
  cases g.tasks.lookup x with
  | none => simp
  | some task =>
      rw [Option.map_some, Option.any_some, Option.any_some, Option.any_some]
      cases heldBy (deadNodes settings g now) task <;> simp [released]

/-- The role queues after the janitor: what waited, what is given back, and of these the tasks
that are kept. -/
theorem ofRole_sweep (hg : g.QueuesExact) (r : String) : (sweep settings g now).ofRole r =
    ((g.ofRole r).filter fun x => (g.tasks.lookup x).any (keepTask now)) ++
      g.givenBack settings now r := by
  set dead := deadNodes settings g now with hdead
  have hdropped := droppedAll_deadNodes hg settings now
  have hexact := hg.foldl_dropNode dead
  have hkeys := g.keys_foldl_dropNode dead
  have hrole : (dead.foldl Relay.dropNode g).ofRole r = g.ofRole r ++ g.leftBy dead r :=
    ofRole_foldl_dropNode hg (AList.keysWhere_nodup _ _) (fun w hw => by
      obtain ⟨node, hnode, _⟩ := mem_deadNodes.mp hw
      rw [hnode]
      rfl) r
  rw [← hdead] at hdropped
  set g₁ := dead.foldl Relay.dropNode g with hg₁
  have hreturned := g₁.returned_stuckTasks settings now
  set g₂ := (stuckTasks settings g₁ now).foldl requeue g₁ with hg₂
  have htasks := hdropped.tasks_returned rfl hreturned
  have hsweep : sweep settings g now = { g₂ with
      tasks := g₂.tasks.retain fun _ task => keepTask now task
      affinity := g₂.affinity.retain fun _ bound =>
        decide (now - bound.2 ≤ sessionAffinityTtl) } := rfl
  have hshared : g₂.ofRole r = g.ofRole r ++ (g.leftBy dead r ++ g.leftStuck settings now r) := by
    rw [hreturned.ofRole hexact fun id hid => assigned_of_mem_stuckTasks hid, hrole,
      stuckTasks_droppedAll hdropped hkeys, List.append_assoc]
  rw [hsweep, ofRole, pendingOf_cleaned]
  dsimp only
  rw [← ofRole, hshared, List.filter_append, givenBack, ← hdead]
  have hkept : ∀ ids : List String, (ids.filter fun x => (g₂.tasks.lookup x).any (keepTask now)) =
      ids.filter fun x => (g.tasks.lookup x).any (keepTask now) := fun ids =>
    List.filter_congr fun x _ => by rw [htasks, any_keepTask_released]
  rw [hkept, hkept]

namespace Agree

theorem mem_deadNodes (h : g.Agree twin) (w : String) :
    w ∈ deadNodes settings twin now ↔ w ∈ deadNodes settings g now := by
  rw [Inner.mem_deadNodes, Inner.mem_deadNodes, h.nodes]

theorem losesWorker (h : g.Agree twin) (task : Task) :
    Inner.losesWorker settings twin now task = Inner.losesWorker settings g now task := by
  have hheld : heldBy (deadNodes settings twin now) task =
      heldBy (deadNodes settings g now) task := by
    rw [Bool.eq_iff_iff, heldBy_eq_true, heldBy_eq_true]
    simp only [h.mem_deadNodes]
  rw [Inner.losesWorker, Inner.losesWorker, hheld]

theorem givesUp (h : g.Agree twin) (key : String × String) (worker : String) :
    twin.givesUp (stuckTasks settings twin now) key worker =
      g.givesUp (stuckTasks settings g now) key worker := by
  rw [Bool.eq_iff_iff, givesUp_eq_true, givesUp_eq_true]
  apply exists_congr
  intro x
  rw [mem_stuckTasks, mem_stuckTasks, h.tasks, h.keyOf, h.workerOf]

/-- The same node is dropped, and both list the tasks it holds in the same order. -/
theorem dropped (h : g.Agree twin) (hg : g.QueuesExact) (hg' : twin.QueuesExact)
    (hd : g.Dropped worker g') (hd' : twin.Dropped worker twin')
    (horder : ∀ r, (twin.assignedTo worker).filter (twin.hasRole r) =
      (g.assignedTo worker).filter (g.hasRole r)) : g'.Agree twin' where
  nodes w := by rw [hd.nodes, hd'.nodes, AList.lookup_erase_eq, AList.lookup_erase_eq, h.nodes]
  tasks x := by rw [hd.tasks_heldBy, hd'.tasks_heldBy, h.tasks]
  own w := by rw [hd.ofWorker hg, hd'.ofWorker hg', h.own]
  shared r := by
      rw [hd.ofRole hg, hd'.ofRole hg', h.shared, List.filter_append, List.filter_append, horder,
        h.own, h.hasRole]
  affinity key := by rw [hd.affinity, hd'.affinity, h.affinity]

/-- The janitor gives the same tasks back in the same order. -/
theorem sweep (h : g.Agree twin) (hg : g.QueuesExact) (hg' : twin.QueuesExact)
    (horder : ∀ r, twin.givenBack settings now r = g.givenBack settings now r) :
    (Relay.sweep settings g now).Agree (Relay.sweep settings twin now) := by
  have hs : g.Swept settings now _ := sweep_swept hg
  have hs' : twin.Swept settings now _ := sweep_swept hg'
  refine ⟨fun w => ?_, fun x => ?_, fun w => ?_, fun r => ?_, fun key => ?_⟩
  · rw [hs.nodes, hs'.nodes, h.nodes]
    simp only [h.mem_deadNodes]
  · rw [hs.tasks, hs'.tasks, h.tasks]
    simp only [h.losesWorker]
  · rw [hs.own, hs'.own, h.own]
    simp only [h.mem_deadNodes, h.tasks]
  · rw [ofRole_sweep hg, ofRole_sweep hg', h.shared, horder]
    simp only [h.tasks]
  · rw [hs.affinity, hs'.affinity, h.affinity]
    simp only [h.mem_deadNodes, h.givesUp]

/-! ### Requests -/

theorem enqueue {id : String} {task : Task} (h : g.Agree twin) (hg : g.occurrences id = 0)
    (htwin : twin.occurrences id = 0) (hpending : task.status = .pending) :
    (g.enqueue id task).Agree (twin.enqueue id task) :=
  h.queued (enqueue_queued hg hpending) (enqueue_queued htwin hpending)

theorem postResult (readValue : Bytes → Option Value) {taskId next : String}
    (h : g.Agree twin) (hg : g.occurrences next = 0) (htwin : twin.occurrences next = 0)
    (workerId : Option String) (stopChain : Bool) (body : Bytes) :
    (Relay.postResult readValue g taskId workerId stopChain body next now).2.Agree
      (Relay.postResult readValue twin taskId workerId stopChain body next now).2 := by
  unfold Relay.postResult
  rw [h.tasks]
  cases htask : g.tasks.lookup taskId with
  | none => exact h
  | some task =>
      dsimp only
      by_cases hfinished : task.status.finished = true
      · rw [if_pos hfinished, if_pos hfinished]
        exact h
      rw [if_neg hfinished, if_neg hfinished]
      by_cases hworker : (!checkWorker task workerId) = true
      · rw [if_pos hworker, if_pos hworker]
        exact h
      rw [if_neg hworker, if_neg hworker]
      cases task.route with
      | nil => exact h.finish htask rfl
      | cons nextRole tail =>
          dsimp only
          by_cases hstops : stopsChain readValue body stopChain = true
          · rw [if_pos hstops, if_pos hstops]
            exact h.finish htask rfl
          · rw [if_neg hstops, if_neg hstops]
            exact (h.markForwarded taskId now).enqueue hg htwin rfl

theorem postFailure {taskId : String} (h : g.Agree twin) (workerId : Option String)
    (message : String) : (Relay.postFailure g taskId workerId message now).2.Agree
      (Relay.postFailure twin taskId workerId message now).2 := by
  unfold Relay.postFailure
  rw [h.tasks]
  cases htask : g.tasks.lookup taskId with
  | none => exact h
  | some task =>
      dsimp only
      by_cases hfinished : task.status.finished = true
      · rw [if_pos hfinished, if_pos hfinished]
        exact h
      rw [if_neg hfinished, if_neg hfinished]
      by_cases hworker : (!checkWorker task workerId) = true
      · rw [if_pos hworker, if_pos hworker]
        exact h
      rw [if_neg hworker, if_neg hworker]
      exact h.finish htask rfl

theorem dropNode (h : g.Agree twin) (hg : g.QueuesExact) (htwin : twin.QueuesExact)
    (horder : ∀ r, (twin.assignedTo worker).filter (twin.hasRole r) =
      (g.assignedTo worker).filter (g.hasRole r)) :
    (Relay.dropNode g worker).Agree (Relay.dropNode twin worker) := by
  have hlookup := h.nodes worker
  cases hnode : g.nodes.lookup worker with
  | none =>
      rw [hnode] at hlookup
      rw [dropNode_of_none g hnode, dropNode_of_none twin hlookup]
      exact h
  | some node =>
      rw [hnode] at hlookup
      exact h.dropped hg htwin (dropNode_dropped hg hnode) (dropNode_dropped htwin hlookup) horder

end Agree
end Inner
end Distllm.Relay
