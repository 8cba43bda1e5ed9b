import Distllm.RelayViews

/-! The time limits of the Rust relay. The janitor enforces them, and between two of its passes
nothing gets older than the time since the last one allows: tasks in work, silent nodes, finished
and unfinished tasks, and bindings of sessions. -/

namespace Distllm.Relay

open Relay.Inner

variable {settings : Settings} {readValue : Bytes → Option Value} {last now : Instant}
  {task : Task} {g g' : Inner}

/-- How often the janitor makes its pass. -/
def janitorInterval (settings : Settings) : Duration :=
  min (min (fromSecs 5) (settings.taskTimeout / 3)) (settings.nodeTimeout / 3)

/-- No limit of the task had passed at `last`. -/
structure Task.Young (settings : Settings) (last : Instant) (task : Task) : Prop where
  assigned : task.status = .assigned → ∀ since, task.assignedAt = some since →
    last ≤ since + settings.taskTimeout
  finished : task.done = true → ∀ since, task.completedAt = some since → last ≤ since + finishedTtl
  dangling : task.done = false → last ≤ task.createdAt + danglingTtl

/-- No limit of anything stored had passed at `last`. -/
structure Inner.Young (settings : Settings) (last : Instant) (g : Inner) : Prop where
  nodes : ∀ w node, g.nodes.lookup w = some node → last ≤ node.lastHeartbeat + settings.nodeTimeout
  tasks : ∀ x task, g.tasks.lookup x = some task → task.Young settings last
  bindings : ∀ key bound, g.affinity.lookup key = some bound → last ≤ bound.2 + sessionAffinityTtl

namespace Task.Young

theorem released (h : task.Young settings last) : (released task).Young settings last :=
  ⟨nofun, h.finished, h.dangling⟩

theorem handedTo (h : task.Young settings last) (hlast : last ≤ now) (worker : String) :
    (handedTo worker now task).Young settings last := by
  refine ⟨fun _ since hsince => ?_, h.finished, h.dangling⟩
  obtain rfl := Option.some.inj hsince
  exact Nat.le_trans hlast (Nat.le_add_right ..)

theorem markForwarded (h : task.Young settings last) (hlast : last ≤ now) (id : String) :
    (markForwarded id now task).Young settings last := by
  refine ⟨nofun, fun _ since hsince => ?_, fun hdone => h.dangling ?_⟩
  · obtain rfl := Option.some.inj hsince
    exact Nat.le_trans hlast (Nat.le_add_right ..)
  · dsimp only [Relay.markForwarded] at hdone
    split at hdone
    · cases hdone
    · exact hdone

/-- A new task is as young as the reading of its clock. -/
theorem fresh (hpending : task.status = .pending) (hdone : task.done = false)
    (hcreated : last ≤ task.createdAt + danglingTtl) : task.Young settings last where
  assigned := fun h => by rw [hpending] at h; cases h
  finished := fun h => by rw [hdone] at h; cases h
  dangling := fun _ => hcreated

end Task.Young

namespace Inner.Young

theorem finish {id : String} {status : Status} {result : Option Bytes} {error : Option String}
    (h : g.Young settings last) (hlast : last ≤ now) (htask : g.tasks.lookup id = some task)
    (hfinished : status.finished = true) :
    (g.finish id status result error now).Young settings last := by
  obtain ⟨hnodes, -, -⟩ := finish_frame g status result error now htask
  have hsettled : g.Settled (g.finish id status result error now) := finish_settled htask hfinished
  refine ⟨fun w node => by rw [hnodes]; exact h.nodes w node, fun x t' ht' => ?_,
    fun key bound => by rw [hsettled.affinity]; exact h.bindings key bound⟩
  obtain ⟨t, ht, ⟨rfl, _⟩ | ⟨_, _, rfl⟩⟩ := lookup_finish g htask ht'
  · exact h.tasks x t' ht
  · refine ⟨fun hstatus => ?_, fun _ since hsince => ?_, nofun⟩
    · dsimp only at hstatus
      rw [hstatus] at hfinished
      cases hfinished
    · obtain rfl := Option.some.inj hsince
      exact Nat.le_trans hlast (Nat.le_add_right ..)

theorem enqueue {id : String} (h : g.Young settings last) (htask : task.Young settings last) :
    (g.enqueue id task).Young settings last := by
  have hframe : ∀ key bound, (g.enqueue id task).affinity.lookup key = some bound →
      g.affinity.lookup key = some bound := by
    intro key bound hbound
    rcases g.enqueue_spec id task with ⟨_, _, _, hspec⟩ | ⟨_, affinity, hspec, haffinity⟩
    · rwa [hspec] at hbound
    · rw [hspec] at hbound
      dsimp only at hbound
      rw [haffinity] at hbound
      split at hbound
      · cases hbound
      · exact hbound
  refine ⟨fun w node => by rw [enqueue_nodes]; exact h.nodes w node, fun x t ht => ?_,
    fun key bound hbound => h.bindings key bound (hframe key bound hbound)⟩
  rw [enqueue_tasks, AList.lookup_insert_eq] at ht
  split at ht
  · obtain rfl := Option.some.inj ht
    exact htask
  · exact h.tasks x t ht

theorem dealt {worker : String} {batch : List String} (h : g.Young settings last)
    (hlast : last ≤ now) (hdealt : g.Dealt worker now batch g') : g'.Young settings last := by
  refine ⟨fun w node => by rw [hdealt.nodes]; exact h.nodes w node, fun x t ht => ?_,
    fun key bound hbound => ?_⟩
  · rw [hdealt.tasks] at ht
    split at ht
    · obtain ⟨before, hbefore, rfl⟩ := Option.map_eq_some_iff.mp ht
      exact (h.tasks x before hbefore).handedTo hlast worker
    · exact h.tasks x t ht
  · rw [hdealt.affinity] at hbound
    split at hbound
    · obtain rfl := Option.some.inj hbound
      exact Nat.le_trans hlast (Nat.le_add_right ..)
    · exact h.bindings key bound hbound

theorem dropped {worker : String} (h : g.Young settings last) (hdropped : g.Dropped worker g') :
    g'.Young settings last := by
  refine ⟨fun w node hnode => ?_, fun x t ht => ?_, fun key bound hbound => ?_⟩
  · rw [hdropped.nodes, AList.lookup_erase_eq] at hnode
    split at hnode
    · cases hnode
    · exact h.nodes w node hnode
  · rw [hdropped.tasks] at ht
    split at ht
    · obtain ⟨before, hbefore, rfl⟩ := Option.map_eq_some_iff.mp ht
      exact (h.tasks x before hbefore).released
    · exact h.tasks x t ht
  · rw [hdropped.affinity] at hbound
    exact h.bindings key bound (Option.filter_eq_some_iff.mp hbound).1

theorem registered {nodeId role : String} {sessions : List String} (h : g.Young settings last)
    (hlast : last ≤ now) (hregistered : g.Registered nodeId role sessions now g') :
    g'.Young settings last := by
  refine ⟨fun w node hnode => ?_, fun x t => by rw [hregistered.tasks]; exact h.tasks x t,
    fun key bound hbound => ?_⟩
  · rw [hregistered.nodes] at hnode
    split at hnode
    · obtain rfl := Option.some.inj hnode
      exact Nat.le_trans hlast (Nat.le_add_right ..)
    · exact h.nodes w node hnode
  · rw [hregistered.affinity] at hbound
    split at hbound
    · obtain rfl := Option.some.inj hbound
      exact Nat.le_trans hlast (Nat.le_add_right ..)
    · exact h.bindings key bound hbound

theorem heartbeat (h : g.Young settings last) (hlast : last ≤ now) (nodeId : String) :
    (heartbeat g nodeId now).2.Young settings last := by
  unfold Relay.heartbeat
  split
  · refine ⟨fun w node hnode => ?_, h.tasks, h.bindings⟩
    dsimp only at hnode
    rw [AList.lookup_modify] at hnode
    split at hnode
    · obtain ⟨before, _, rfl⟩ := Option.map_eq_some_iff.mp hnode
      exact Nat.le_trans hlast (Nat.le_add_right ..)
    · exact h.nodes w node hnode
  · exact h

/-- A pass of the janitor leaves nothing whose limit has passed. -/
theorem swept (h : g.Swept settings now g') : g'.Young settings now := by
  refine ⟨fun w node hnode => ?_, fun x t ht => ?_, fun key bound hbound => ?_⟩
  · rw [h.nodes] at hnode
    split at hnode
    · cases hnode
    · rename_i hdead
      have hheard : ¬now - node.lastHeartbeat > settings.nodeTimeout := fun hold =>
        hdead (mem_deadNodes.mpr ⟨node, hnode, hold⟩)
      exact Nat.sub_le_iff_le_add'.mp (Nat.not_lt.mp hheard)
  · rw [h.tasks] at ht
    obtain ⟨ht, hkept⟩ := Option.filter_eq_some_iff.mp ht
    obtain ⟨before, _, hsame⟩ := Option.map_eq_some_iff.mp ht
    refine ⟨fun hassigned since hsince => ?_, fun hdone since hsince => ?_, fun hdone => ?_⟩
    · split at hsame
      · rw [← hsame] at hassigned
        cases hassigned
      · rename_i hloses
        subst hsame
        have hstuck : ¬Task.stuck settings now before = true := by
          intro hstuck
          apply hloses
          simp only [losesWorker, hassigned, hstuck, beq_self_eq_true, Bool.and_self, Bool.or_true]
        simp only [Task.stuck, hsince, Option.map_some, Option.getD_some, decide_eq_true_iff] at hstuck
        exact Nat.sub_le_iff_le_add'.mp (Nat.not_lt.mp hstuck)
    · simp only [keepTask, hdone, hsince, if_true, Option.map_some, Option.getD_some,
        decide_eq_true_iff] at hkept
      exact Nat.sub_le_iff_le_add'.mp hkept
    · simp only [keepTask, hdone, Bool.false_eq_true, if_false, decide_eq_true_iff] at hkept
      exact Nat.sub_le_iff_le_add'.mp hkept
  · rw [h.affinity] at hbound
    have hused := (Option.filter_eq_some_iff.mp hbound).2
    simp only [Bool.and_eq_true, decide_eq_true_iff] at hused
    exact Nat.sub_le_iff_le_add'.mp hused.2.2

end Inner.Young

/-! ### Runs -/

/-- A submission takes the lock before its task is old. -/
def Op.Prompt (now : Instant) : Op → Prop
  | submit _ _ _ _ _ createdAt => now ≤ createdAt + danglingTtl
  | _ => True

def Event.Prompt : Event → Prop
  | .call op _ now => op.Prompt now
  | .rehash => True

instance (now : Instant) (op : Op) : Decidable (op.Prompt now) :=
  match op with
  | .submit _ _ _ _ _ createdAt => inferInstanceAs (Decidable (now ≤ createdAt + danglingTtl))
  | .poll .. | .pollDeadline .. | .postResult .. | .postFailure .. | .register .. | .deregister ..
  | .heartbeat .. | .sweep => inferInstanceAs (Decidable True)

instance (event : Event) : Decidable event.Prompt :=
  match event with
  | .call op _ now => inferInstanceAs (Decidable (op.Prompt now))
  | .rehash => inferInstanceAs (Decidable True)

/-- When the janitor made its last pass, if the event is the next. -/
def Event.swept (last : Instant) : Event → Instant
  | .call .sweep _ now => now
  | _ => last

/-- When the janitor made its last pass. -/
def lastSweep (start : Instant) (events : List Event) : Instant := events.foldl Event.swept start

theorem young_exec (op : Op) (hg : g.QueuesExact) (hfresh : ∀ id ∈ op.drawn, g.Fresh id)
    (h : g.Young settings last) (hlast : last ≤ now) (hprompt : op.Prompt now) :
    (exec settings readValue op now g).2.Young settings
      (Event.swept last (.call op (exec settings readValue op now g).1 now)) := by
  cases op with
  | submit taskId targetRole body route session createdAt =>
      exact h.enqueue (.fresh rfl rfl (Nat.le_trans hlast hprompt))
  | poll role worker maxTasks => exact h.dealt hlast (poll_dealt hg role worker maxTasks now).2
  | pollDeadline role worker => exact h.dealt hlast (pollDeadline_dealt role worker now).2
  | postResult taskId workerId stopChain body next =>
      rcases postResult_cases readValue g taskId workerId stopChain body next now with
        ⟨_, _, hpost⟩ | ⟨task, htask, _, _, _, hpost⟩ | ⟨task, nextRole, tail, htask, _, _, _, _, hpost⟩
      · simp only [exec, hpost]
        exact h
      · simp only [exec, hpost]
        exact h.finish hlast htask rfl
      · simp only [exec, hpost]
        refine Inner.Young.enqueue ⟨h.nodes, fun x t ht => ?_, h.bindings⟩
          (.fresh rfl rfl (Nat.le_trans hlast (Nat.le_add_right ..)))
        dsimp only at ht
        rw [AList.lookup_modify] at ht
        split at ht
        · obtain ⟨before, hbefore, rfl⟩ := Option.map_eq_some_iff.mp ht
          exact (h.tasks x before hbefore).markForwarded hlast taskId
        · exact h.tasks x t ht
  | postFailure taskId workerId message =>
      rcases postFailure_cases g taskId workerId message now with
        ⟨_, _, hpost⟩ | ⟨task, htask, _, _, hpost⟩
      · simp only [exec, hpost]
        exact h
      · simp only [exec, hpost]
        exact h.finish hlast htask rfl
  | register nodeId role sessions => exact h.registered hlast (register_registered ..)
  | deregister nodeId =>
      cases hnode : g.nodes.lookup nodeId with
      | none =>
          rw [exec, deregister, dropNode_of_none g hnode]
          exact h
      | some node => exact h.dropped (dropNode_dropped hg hnode)
  | heartbeat nodeId => exact h.heartbeat hlast nodeId
  | sweep => exact .swept (sweep_swept hg)

/-- What every reachable relay satisfies about its times. -/
structure World.AgesInv (settings : Settings) (last : Instant) (w : World) : Prop where
  queues : w.QueuesInv
  past : last ≤ w.clock
  young : w.inner.Young settings last

theorem agesInv_step {w w' : World} {event : Event} (h : Step settings readValue w event w')
    (hprompt : event.Prompt) (hw : w.AgesInv settings last) :
    w'.AgesInv settings (event.swept last) := by
  have hqueues := queuesInv_step h hw.queues
  cases h with
  | @call op now hclock htimely hfresh =>
      have hlast := Nat.le_trans hw.past hclock
      refine ⟨hqueues, ?_, young_exec op hw.queues.exact
        (fun id hid => hw.queues.known.fresh (hfresh id hid)) hw.young hlast hprompt⟩
      unfold Event.swept
      split
      · rename_i heq
        cases heq
        exact Nat.le_refl _
      · exact hlast
  | rehash hrehashed =>
      refine ⟨hqueues, hw.past, fun w node hnode => ?_, fun x t ht => ?_, fun key bound hbound => ?_⟩
      · exact hw.young.nodes w node ((hrehashed.lookup_nodes w).symm.trans hnode)
      · exact hw.young.tasks x t ((hrehashed.lookup_tasks x).symm.trans ht)
      · exact hw.young.bindings key bound ((AList.perm_lookup hrehashed.affinity).trans hbound)

theorem agesInv_run {clock : Instant} {events : List Event} {w : World}
    (hrun : RunFrom settings readValue clock events w) (hprompt : ∀ event ∈ events, event.Prompt) :
    w.AgesInv settings (lastSweep clock events) := by
  refine hrun.invariant_labels (P := fun events w => (∀ event ∈ events, event.Prompt) →
    w.AgesInv settings (lastSweep clock events)) (fun {events w event w'} hstep hw hprompt => ?_)
    (fun _ => ⟨queuesInv_start clock, Nat.le_refl _, nofun, nofun, nofun⟩) hprompt
  rw [lastSweep, List.foldl_append]
  exact agesInv_step hstep (hprompt event (by simp))
    (hw fun event hmem => hprompt event (List.mem_append_left _ hmem))

/-- As long as the janitor keeps to its interval, no task stays with a worker, no silent node stays
registered, and nothing else stays stored for longer than its limit and one interval. -/
theorem nothing_outlives_its_limit {clock : Instant} {events : List Event} {w : World}
    (hrun : RunFrom settings readValue clock events w) (hprompt : ∀ event ∈ events, event.Prompt)
    {now : Instant} (hnow : now ≤ lastSweep clock events + janitorInterval settings) :
    (∀ x task, w.inner.tasks.lookup x = some task → task.status = .assigned →
      ∃ since, task.assignedAt = some since ∧
        now ≤ since + settings.taskTimeout + settings.taskTimeout / 3) ∧
    (∀ id node, w.inner.nodes.lookup id = some node →
      now ≤ node.lastHeartbeat + settings.nodeTimeout + settings.nodeTimeout / 3) ∧
    (∀ x task since, w.inner.tasks.lookup x = some task → task.done = true →
      task.completedAt = some since → now ≤ since + finishedTtl + fromSecs 5) ∧
    (∀ x task, w.inner.tasks.lookup x = some task → task.done = false →
      now ≤ task.createdAt + danglingTtl + fromSecs 5) ∧
    ∀ key bound, w.inner.affinity.lookup key = some bound →
      now ≤ bound.2 + sessionAffinityTtl + fromSecs 5 := by
  obtain ⟨⟨-, hexact⟩, -, hnodes, htasks, hbindings⟩ := agesInv_run hrun hprompt
  have hseconds : janitorInterval settings ≤ fromSecs 5 :=
    Nat.le_trans (Nat.min_le_left ..) (Nat.min_le_left ..)
  have htask : janitorInterval settings ≤ settings.taskTimeout / 3 :=
    Nat.le_trans (Nat.min_le_left ..) (Nat.min_le_right ..)
  have hnode : janitorInterval settings ≤ settings.nodeTimeout / 3 := Nat.min_le_right ..
  refine ⟨fun x task h hassigned => ?_, fun id node h => ?_,
    fun x task since h hdone hsince => ?_, fun x task h hdone => ?_, fun key bound h => ?_⟩
  · obtain ⟨since, hsince⟩ := Option.isSome_iff_exists.mp (hexact.held x task h hassigned).2
    exact ⟨since, hsince, Nat.le_trans hnow
      (Nat.add_le_add ((htasks x task h).assigned hassigned since hsince) htask)⟩
  · exact Nat.le_trans hnow (Nat.add_le_add (hnodes id node h) hnode)
  · exact Nat.le_trans hnow
      (Nat.add_le_add ((htasks x task h).finished hdone since hsince) hseconds)
  · exact Nat.le_trans hnow (Nat.add_le_add ((htasks x task h).dangling hdone) hseconds)
  · exact Nat.le_trans hnow (Nat.add_le_add (hbindings key bound h) hseconds)

/-- A task is taken after a second; after two passes of the janitor it is still with its worker. -/
theorem nothing_outlives_its_limit_taken : ∃ events w task since,
    RunFrom ⟨fromSecs 120, fromSecs 15⟩ (fun _ => none) 0 events w ∧
      w.inner.tasks.lookup "t" = some task ∧ task.status = .assigned ∧
      task.assignedAt = some since ∧ fromSecs 15 ≤ since + fromSecs 120 + fromSecs 120 / 3 := by
  have hrun := run_execAll ⟨fromSecs 120, fromSecs 15⟩ (fun _ => none) (World.start 0)
    [(.register "w" "r" [], 0), (.submit "t" "r" [] [] none 0, 0), (.poll "r" "w" 1, fromSecs 1),
      (.sweep, fromSecs 5), (.heartbeat "w", fromSecs 9), (.sweep, fromSecs 10)] (by decide)
  have hnow : fromSecs 15 ≤ fromSecs 10 + janitorInterval ⟨fromSecs 120, fromSecs 15⟩ := by decide
  obtain ⟨since, hsince, hle⟩ := (nothing_outlives_its_limit hrun (by decide) hnow).1 "t" _ rfl rfl
  exact ⟨_, _, _, since, hrun, rfl, rfl, hsince, hle⟩

end Distllm.Relay
