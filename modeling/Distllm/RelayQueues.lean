import Distllm.RelayRun

/-! Every pending task is queued exactly once, where its role's workers or the registered worker
of its session will find it, and an assigned task is queued nowhere. The invariant is kept by
every elementary change; identifiers that were never drawn are mentioned nowhere. -/

namespace Distllm.Relay

open Relay.Inner

variable {drawn issued : List String} {now : Instant} {posted : Task → Report → Prop}

/-! ### Drawn identifiers -/

/-- Everything the relay mentions was drawn before. -/
structure Inner.Known (g : Inner) (issued : List String) : Prop where
  task : ∀ id task, g.tasks.lookup id = some task → id ∈ issued
  queue : ∀ id, g.occurrences id ≠ 0 → id ∈ issued
  root : ∀ id task, g.tasks.lookup id = some task → task.rootId ∈ issued

theorem Inner.Known.fresh {g : Inner} (h : g.Known issued) {id : String} (hid : id ∉ issued) :
    g.Fresh id where
  task := by
    cases htask : g.tasks.lookup id with
    | none => rfl
    | some task => exact absurd (h.task id task htask) hid
  queue := by_contra fun hne => hid (h.queue id hne)
  root := fun x task htask heq => hid (heq ▸ h.root x task htask)

theorem Inner.Known.mono {g : Inner} (h : g.Known issued) {issued' : List String}
    (hsub : issued ⊆ issued') : g.Known issued' :=
  ⟨fun id task ht => hsub (h.task id task ht), fun id hid => hsub (h.queue id hid),
    fun id task ht => hsub (h.root id task ht)⟩

/-- Changes that store no new task, keep the roots and queue no new id keep `Known`. -/
theorem Inner.Known.of_le {g g' : Inner} (h : g.Known issued)
    (htasks : ∀ id task', g'.tasks.lookup id = some task' →
      ∃ task, g.tasks.lookup id = some task ∧ task'.rootId = task.rootId)
    (hqueue : ∀ id, g'.occurrences id ≠ 0 → g.occurrences id ≠ 0 ∨ id ∈ issued) :
    g'.Known issued where
  task id task' ht := by
    obtain ⟨task, ht, _⟩ := htasks id task' ht
    exact h.task id task ht
  queue id hid := (hqueue id hid).elim (h.queue id) fun hmem => hmem
  root id task' ht := by
    obtain ⟨task, ht, hroot⟩ := htasks id task' ht
    exact hroot ▸ h.root id task ht

/-- The root of a task is kept when its record is found under the same id, changed or not. -/
theorem root_of_ite {tasks : AList fun _ : String => Task} {f : Task → Task} {P : Prop}
    [Decidable P] {id : String} {task' : Task}
    (h : (if P then (tasks.lookup id).map f else tasks.lookup id) = some task')
    (hf : ∀ t, (f t).rootId = t.rootId) :
    ∃ task, tasks.lookup id = some task ∧ task'.rootId = task.rootId := by
  split at h
  · obtain ⟨task, htask, rfl⟩ := Option.map_eq_some_iff.mp h
    exact ⟨task, htask, hf task⟩
  · exact ⟨task', h, rfl⟩

/-! ### What a look at the queues takes out of them -/

/-- The effect of one look: the taken task is assigned, other pending ids stay where they are. -/
structure Took (g : Inner) (worker : String) (now : Instant) (taken : Option String)
    (g' : Inner) : Prop where
  nodes : g'.nodes = g.nodes
  pending : ∀ id, taken = some id → g.IsPending id
  tasks : ∀ x, g'.tasks.lookup x =
    if taken = some x then (g.tasks.lookup x).map (handedTo worker now) else g.tasks.lookup x
  le : ∀ x, g'.occurrences x ≤ g.occurrences x
  count : ∀ x, g.IsPending x → g'.occurrences x + (if taken = some x then 1 else 0) = g.occurrences x
  role : ∀ x r, g.IsPending x → taken ≠ some x →
    x ∈ g.roleQueues.queue r → x ∈ g'.roleQueues.queue r
  worker : ∀ x w, g.IsPending x → taken ≠ some x →
    x ∈ g.workerQueues.queue w → x ∈ g'.workerQueues.queue w

theorem count_stale {g : Inner} {stale : List String} (hstale : ∀ x ∈ stale, ¬g.IsPending x)
    {x : String} (hx : g.IsPending x) : stale.count x = 0 :=
  List.count_eq_zero.mpr fun hmem => hstale x hmem hx

/-- What is popped of a queue is one pending task and no other. -/
theorem count_popped {g : Inner} {stale : List String} {id : String} (hstale : ∀ x ∈ stale, ¬g.IsPending x)
    {x : String} (hx : g.IsPending x) : (stale ++ [id]).count x = if some id = some x then 1 else 0 := by
  rw [List.count_append, count_stale hstale hx, Nat.zero_add, List.count_singleton]
  simp only [beq_iff_eq, Option.some.injEq]

theorem notMem_popped {g : Inner} {stale : List String} {id : String} (hstale : ∀ x ∈ stale, ¬g.IsPending x)
    {x : String} (hx : g.IsPending x) (hne : some id ≠ some x) : x ∉ stale ++ [id] := by
  rw [← List.count_eq_zero, count_popped hstale hx, if_neg hne]

theorem assign_lookup (g : Inner) {id : String} (worker : String) (now : Instant)
    (hid : g.IsPending id) (x : String) : (g.assign id worker now).tasks.lookup x =
      if some id = some x then (g.tasks.lookup x).map (handedTo worker now)
      else g.tasks.lookup x := by
  obtain ⟨task, htask, _⟩ := hid
  obtain ⟨affinity, hassign⟩ := g.assign_of_lookup worker now htask
  rw [hassign, AList.lookup_modify]
  by_cases h : x = id
  · rw [if_pos h, if_pos (by rw [h])]
  · rw [if_neg h, if_neg fun heq => h (Option.some.inj heq).symm]

theorem assign_frame (g : Inner) (id worker : String) (now : Instant) :
    (g.assign id worker now).nodes = g.nodes ∧
      (g.assign id worker now).roleQueues = g.roleQueues ∧
      (g.assign id worker now).workerQueues = g.workerQueues := by
  cases htask : g.tasks.lookup id with
  | none => simp only [assign, htask, and_self]
  | some task =>
      obtain ⟨affinity, hassign⟩ := g.assign_of_lookup worker now htask
      rw [hassign]
      exact ⟨rfl, rfl, rfl⟩

theorem took_takeNext (g : Inner) (worker role : String) (now : Instant) :
    Took g worker now (g.takeNext worker role now).1 (g.takeNext worker role now).2 := by
  rcases g.takeNext_cases worker role now with
    ⟨stale, id, rest, hown, hstale, hid, htake⟩ |
    ⟨stale, id, rest, hown, hshared, hstale, hid, htake⟩ | ⟨hown, hshared, htake⟩
  · rw [htake]
    set popped : Inner := { g with workerQueues := g.workerQueues.modify worker fun _ => rest }
    obtain ⟨hnodes, hrole, hworker⟩ := assign_frame popped id worker now
    have hfront : g.workerQueues.queue worker = (stale ++ [id]) ++ rest := by simp [hown]
    have hcount : ∀ x, popped.workerQueues.pooled.count x + (stale ++ [id]).count x =
        g.workerQueues.pooled.count x := g.workerQueues.count_pooled_dropFront hfront
    refine ⟨hnodes, fun x hx => Option.some.inj hx ▸ hid,
      fun x => assign_lookup popped worker now hid x, fun x => ?_, fun x hx => ?_,
      fun x r _ _ hmem => ?_, fun x w hx hne hmem => ?_⟩
    · simp only [occurrences, hrole, hworker]
      have := hcount x
      rw [show popped.roleQueues = g.roleQueues from rfl]
      omega
    · have hx' := hcount x
      rw [count_popped hstale hx] at hx'
      simp only [occurrences, hrole, hworker]
      rw [show popped.roleQueues = g.roleQueues from rfl]
      omega
    · rw [hrole]
      exact hmem
    · rw [hworker]
      exact (g.workerQueues.mem_queue_dropFront hfront (notMem_popped hstale hx hne)).mpr hmem
  · rw [htake]
    set popped : Inner := { g with
      workerQueues := g.workerQueues.modify worker fun _ => []
      roleQueues := g.roleQueues.modify role fun _ => rest }
    obtain ⟨hnodes, hrole, hworker⟩ := assign_frame popped id worker now
    have hfront : g.roleQueues.queue role = (stale ++ [id]) ++ rest := by simp [hshared]
    have hcount : ∀ x, popped.roleQueues.pooled.count x + (stale ++ [id]).count x =
        g.roleQueues.pooled.count x := g.roleQueues.count_pooled_dropFront hfront
    have hown' : ∀ x, popped.workerQueues.pooled.count x +
        (g.workerQueues.queue worker).count x = g.workerQueues.pooled.count x :=
      g.workerQueues.count_pooled_dropFront (List.append_nil _).symm
    refine ⟨hnodes, fun x hx => Option.some.inj hx ▸ hid,
      fun x => assign_lookup popped worker now hid x, fun x => ?_, fun x hx => ?_,
      fun x r hx hne hmem => ?_, fun x w hx _ hmem => ?_⟩
    · simp only [occurrences, hrole, hworker]
      have := hcount x
      have := hown' x
      omega
    · have hx' := hcount x
      have hx'' := hown' x
      rw [count_popped hstale hx] at hx'
      rw [count_stale hown hx] at hx''
      simp only [occurrences, hrole, hworker]
      omega
    · rw [hrole]
      exact (g.roleQueues.mem_queue_dropFront hfront (notMem_popped hstale hx hne)).mpr hmem
    · rw [hworker]
      exact (g.workerQueues.mem_queue_dropFront (List.append_nil _).symm
        fun h => hown x h hx).mpr hmem
  · rw [htake]
    have hall : g.roleQueues.queue role = g.roleQueues.queue role ++ [] := by simp
    have hall' : g.workerQueues.queue worker = g.workerQueues.queue worker ++ [] := by simp
    have hshared' := g.roleQueues.count_pooled_dropFront hall
    have hown' := g.workerQueues.count_pooled_dropFront hall'
    refine ⟨rfl, fun x hx => (by cases hx), fun x => by rw [if_neg (by simp)], fun x => ?_,
      fun x hx => ?_, fun x r hx _ hmem => ?_, fun x w hx _ hmem => ?_⟩
    · have := hshared' x
      have := hown' x
      simp only [occurrences]
      omega
    · have h := hshared' x
      have h' := hown' x
      rw [count_stale hshared hx] at h
      rw [count_stale hown hx] at h'
      rw [if_neg (by simp)]
      simp only [occurrences]
      omega
    · exact (g.roleQueues.mem_queue_dropFront hall fun h => hshared x h hx).mpr hmem
    · exact (g.workerQueues.mem_queue_dropFront hall' fun h => hown x h hx).mpr hmem

/-! ### Occurrences under the other changes -/

theorem occurrences_enqueue (g : Inner) (id : String) (task : Task) (x : String) :
    (g.enqueue id task).occurrences x = g.occurrences x + if id = x then 1 else 0 := by
  rcases g.enqueue_cases id task with ⟨worker, _, _, _, h⟩ | ⟨_, h⟩
  · rw [h]
    simp only [occurrences, AList.count_pooled_enqueue]
    omega
  · rw [h]
    simp only [occurrences, AList.count_pooled_enqueue]
    omega

theorem occurrences_requeue (g : Inner) {id : String} {task : Task}
    (htask : g.tasks.lookup id = some task) (x : String) :
    (g.requeue id).occurrences x = g.occurrences x + if id = x then 1 else 0 := by
  obtain ⟨affinity, h⟩ := g.requeue_of_lookup htask
  rw [h]
  simp only [occurrences, AList.count_pooled_enqueue]
  omega

theorem occurrences_drain (g : Inner) (worker x : String) :
    (g.IsPending x → (g.drain worker).occurrences x = g.occurrences x) ∧
      (g.drain worker).occurrences x ≤ g.occurrences x := by
  obtain ⟨roleQueues, affinity, h, _, hcount⟩ := g.drain_cases worker
  have herase := g.workerQueues.count_pooled_erase worker x
  rw [h]
  simp only [occurrences]
  by_cases hx : g.IsPending x
  · have := (hcount x).1 hx
    exact ⟨fun _ => by omega, by omega⟩
  · have := (hcount x).2 hx
    exact ⟨fun h => absurd h hx, by omega⟩

theorem occurrences_orDefault (g : Inner) (roleKey workerKey x : String) :
    (orDefault g.roleQueues roleKey).pooled.count x +
      (orDefault g.workerQueues workerKey).pooled.count x = g.occurrences x := by
  rw [count_orDefault, count_orDefault]
  rfl

namespace Inner.Rehashed

variable {g g' : Inner} (h : g.Rehashed g')

include h

theorem lookup_tasks (id : String) : g'.tasks.lookup id = g.tasks.lookup id :=
  (AList.perm_lookup h.tasks).symm

theorem lookup_nodes (id : String) : g'.nodes.lookup id = g.nodes.lookup id :=
  (AList.perm_lookup h.nodes).symm

theorem queue_role (role : String) : g'.roleQueues.queue role = g.roleQueues.queue role :=
  congrArg (Option.getD · []) (AList.perm_lookup h.roleQueues).symm

theorem queue_worker (worker : String) :
    g'.workerQueues.queue worker = g.workerQueues.queue worker :=
  congrArg (Option.getD · []) (AList.perm_lookup h.workerQueues).symm

theorem occurrences (id : String) : g'.occurrences id = g.occurrences id :=
  congrArg₂ (· + ·) ((h.roleQueues.flatMap_right _).count_eq id).symm
    ((h.workerQueues.flatMap_right _).count_eq id).symm

end Inner.Rehashed

theorem lookup_finish (g : Inner) {id : String} {task : Task} {status : Status}
    {result : Option Bytes} {error : Option String} (htask : g.tasks.lookup id = some task)
    {x : String} {t' : Task} (ht' : (g.finish id status result error now).tasks.lookup x = some t') :
    ∃ t, g.tasks.lookup x = some t ∧ (t' = t ∧ (x ≠ id ∧ x ≠ task.rootId ∨ t.done = true) ∨
      t.done = false ∧ (x = id ∨ x = task.rootId) ∧ t' = { t with
        status := status, result := result, error := error, completedAt := some now,
        done := true }) := by
  obtain ⟨tasks, hfinish, hlookup⟩ := g.finish_of_lookup status result error now htask
  rw [hfinish, hlookup] at ht'
  split at ht'
  · rename_i hx
    obtain ⟨t, ht, rfl⟩ := Option.map_eq_some_iff.mp ht'
    refine ⟨t, ht, ?_⟩
    unfold concluded
    cases hdone : t.done with
    | true => exact .inl ⟨by rw [if_pos rfl], .inr rfl⟩
    | false => exact .inr ⟨rfl, hx, by rw [if_neg (by decide)]⟩
  · rename_i hx
    exact ⟨t', ht', .inl ⟨rfl, .inl (not_or.mp hx)⟩⟩

theorem finish_frame (g : Inner) {id : String} {task : Task} (status : Status)
    (result : Option Bytes) (error : Option String) (now : Instant) (htask : g.tasks.lookup id = some task) :
    (g.finish id status result error now).nodes = g.nodes ∧
      (g.finish id status result error now).roleQueues = g.roleQueues ∧
      (g.finish id status result error now).workerQueues = g.workerQueues := by
  obtain ⟨tasks, hfinish, _⟩ := g.finish_of_lookup status result error now htask
  rw [hfinish]
  exact ⟨rfl, rfl, rfl⟩

/-! ### The two invariants -/

/-- A queued task mentions its own id and its root. -/
theorem Inner.Known.enqueue {g : Inner} (hg : g.Known issued) {id : String} {task : Task}
    (hid : id ∈ issued) (hroot : task.rootId ∈ issued) : (g.enqueue id task).Known issued where
  task x t ht := by
      rw [enqueue_tasks, AList.lookup_insert_eq] at ht
      split at ht
      · rename_i heq
        exact heq ▸ hid
      · exact hg.task x t ht
  queue x hx := by
      rw [occurrences_enqueue] at hx
      split at hx
      · rename_i heq
        exact heq ▸ hid
      · exact hg.queue x hx
  root x t ht := by
      rw [enqueue_tasks, AList.lookup_insert_eq] at ht
      split at ht
      · cases ht
        exact hroot
      · exact hg.root x t ht

theorem Took.known {g g' : Inner} {worker : String} {taken : Option String}
    (htook : Took g worker now taken g') (hg : g.Known issued) : g'.Known issued := by
  refine hg.of_le (fun id t ht => ?_) fun id hid => .inl ?_
  · rw [htook.tasks] at ht
    exact root_of_ite ht fun _ => rfl
  · have := htook.le id
    omega

theorem known_atom {g g' : Inner} (hsub : drawn ⊆ issued) (h : Atom drawn now posted g g')
    (hg : g.Known issued) : g'.Known issued := by
  cases h with
  | rehashed h =>
      refine hg.of_le (fun id t ht => ⟨t, by rwa [← h.lookup_tasks], rfl⟩) fun id hid => .inl ?_
      rwa [← h.occurrences]
  | opened role worker =>
      refine hg.of_le (fun id t ht => ⟨t, ht, rfl⟩) fun id hid => .inl ?_
      rwa [← occurrences_orDefault g role worker]
  | looked worker role => exact (took_takeNext g worker role now).known hg
  | submitted hid hfresh htask => exact hg.enqueue (hsub hid) (htask.root ▸ hsub hid)
  | forwarded body hnext hfresh htask hlive hroute hposted =>
      rename_i forwardedId next nextRole tail task
      have hmarked : Inner.Known
          { g with tasks := g.tasks.modify forwardedId (markForwarded forwardedId now) } issued := by
        refine hg.of_le (fun id t ht => ?_) fun id hid => .inl hid
        rw [AList.lookup_modify] at ht
        exact root_of_ite ht fun _ => rfl
      exact hmarked.enqueue (hsub hnext) (hg.root _ task htask)
  | finished htask hlive hposted hends =>
      rename_i finishedId task status result error report
      obtain ⟨_, hrole, hworker⟩ := finish_frame g status result error now htask
      refine hg.of_le (fun id t ht => ?_) fun id hid => .inl ?_
      · obtain ⟨t', ht', ⟨rfl, _⟩ | ⟨_, _, rfl⟩⟩ := lookup_finish g htask ht
        · exact ⟨t, ht', rfl⟩
        · exact ⟨t', ht', rfl⟩
      · simpa only [occurrences, hrole, hworker] using hid
  | registered nodeId role sessions =>
      obtain ⟨affinity, h⟩ := register_frame g nodeId role sessions now
      rw [h]
      refine hg.of_le (fun id t ht => ⟨t, ht, rfl⟩) fun id hid => .inl ?_
      rwa [← occurrences_orDefault g role nodeId]
  | beat nodeId => exact hg.of_le (fun id t ht => ⟨t, ht, rfl⟩) fun id hid => .inl hid
  | requeued htask hassigned =>
      rename_i requeuedId task
      obtain ⟨affinity, h⟩ := g.requeue_of_lookup htask
      refine hg.of_le (fun id t ht => ?_) fun id hid => ?_
      · rw [h, AList.lookup_modify] at ht
        exact root_of_ite ht fun _ => rfl
      · rw [occurrences_requeue g htask] at hid
        split at hid
        · rename_i heq
          exact .inr (heq ▸ hg.task _ task htask)
        · exact .inl hid
  | drained worker =>
      obtain ⟨roleQueues, affinity, h, _, _⟩ := g.drain_cases worker
      refine hg.of_le (fun id t ht => ?_) fun id hid => .inl ?_
      · rw [h] at ht
        exact ⟨t, ht, rfl⟩
      · have := (occurrences_drain g worker id).2
        omega
  | cleaned =>
      exact hg.of_le (fun id t ht => ⟨t, (AList.lookup_retain_eq_some.mp ht).1, rfl⟩)
        fun id hid => .inl hid

/-- The id is in the role's queue or in the own queue of a registered worker. -/
def Inner.PlacedAt (g : Inner) (id role : String) : Prop :=
  id ∈ g.roleQueues.queue role ∨
    ∃ worker, (g.nodes.lookup worker).isSome = true ∧ id ∈ g.workerQueues.queue worker

/-- Pending tasks are queued exactly once and where they are looked for, assigned ones nowhere. -/
structure Inner.QueuesExact (g : Inner) : Prop where
  once : ∀ id task, g.tasks.lookup id = some task → task.status = .pending → g.occurrences id = 1
  placed : ∀ id task, g.tasks.lookup id = some task → task.status = .pending →
    g.PlacedAt id task.targetRole
  absent : ∀ id task, g.tasks.lookup id = some task → task.status = .assigned →
    g.occurrences id = 0
  held : ∀ id task, g.tasks.lookup id = some task → task.status = .assigned →
    task.workerId.isSome = true ∧ task.assignedAt.isSome = true

/-- Queues that only grow and nodes that stay registered keep an id where it is. -/
theorem Inner.PlacedAt.mono {g g' : Inner} {id role : String} (h : g.PlacedAt id role)
    (hrole : id ∈ g.roleQueues.queue role → id ∈ g'.roleQueues.queue role)
    (hworker : ∀ w, id ∈ g.workerQueues.queue w → id ∈ g'.workerQueues.queue w)
    (hnodes : ∀ w, (g.nodes.lookup w).isSome = true → (g'.nodes.lookup w).isSome = true) :
    g'.PlacedAt id role :=
  h.elim (fun h => .inl (hrole h)) fun ⟨w, hw, h⟩ => .inr ⟨w, hnodes w hw, hworker w h⟩

/-- Changes that leave the queues alone and make no task pending or assigned. -/
theorem Inner.QueuesExact.of_tasks {g g' : Inner} (hg : g.QueuesExact)
    (htasks : ∀ id t', g'.tasks.lookup id = some t' → t'.status = .pending ∨ t'.status = .assigned →
      g.tasks.lookup id = some t')
    (hcount : ∀ id, g'.occurrences id = g.occurrences id)
    (hplaced : ∀ id role, g.PlacedAt id role → g'.PlacedAt id role) : g'.QueuesExact where
  once id t ht hs := by rw [hcount, hg.once id t (htasks id t ht (.inl hs)) hs]
  placed id t ht hs := hplaced id _ (hg.placed id t (htasks id t ht (.inl hs)) hs)
  absent id t ht hs := by rw [hcount, hg.absent id t (htasks id t ht (.inr hs)) hs]
  held id t ht hs := hg.held id t (htasks id t ht (.inr hs)) hs

theorem placed_enqueue (g : Inner) (id : String) (task : Task) :
    (g.enqueue id task).PlacedAt id task.targetRole ∧
      ∀ x role, g.PlacedAt x role → (g.enqueue id task).PlacedAt x role := by
  rcases g.enqueue_cases id task with ⟨worker, node, hnode, _, h⟩ | ⟨affinity, h⟩
  · rw [h]
    exact ⟨.inr ⟨worker, by rw [hnode]; rfl, AList.mem_queue_enqueue_self _ _ _⟩,
      fun x role hx => hx.mono (fun hx => hx)
        (fun w hw => AList.mem_queue_enqueue_of_mem hw _ _) fun w hw => hw⟩
  · rw [h]
    exact ⟨.inl (AList.mem_queue_enqueue_self _ _ _),
      fun x role hx => hx.mono (fun hx => AList.mem_queue_enqueue_of_mem hx _ _)
        (fun w hw => hw) fun w hw => hw⟩

/-- A fresh pending task is queued once, whatever happened to the other tasks' records. -/
theorem queuesExact_enqueue {g : Inner} (hg : g.QueuesExact) {id : String} {task : Task}
    (hfresh : g.occurrences id = 0) (hpending : task.status = .pending) :
    (g.enqueue id task).QueuesExact := by
  obtain ⟨hnew, hold⟩ := placed_enqueue g id task
  have hcount : ∀ x, x ≠ id → (g.enqueue id task).occurrences x = g.occurrences x := by
    intro x hx
    rw [occurrences_enqueue, if_neg (fun h => hx h.symm), Nat.add_zero]
  refine ⟨fun x t ht hs => ?_, fun x t ht hs => ?_, fun x t ht hs => ?_, fun x t ht hs => ?_⟩ <;>
    rw [enqueue_tasks, AList.lookup_insert_eq] at ht <;> split at ht
  · rename_i hx
    rw [hx, occurrences_enqueue, hfresh, if_pos rfl]
  · rename_i hx
    rw [hcount x hx, hg.once x t ht hs]
  · rename_i hx
    cases ht
    rw [hx]
    exact hnew
  · exact hold x _ (hg.placed x t ht hs)
  · cases ht
    rw [hpending] at hs
    cases hs
  · rename_i hx
    rw [hcount x hx, hg.absent x t ht hs]
  · cases ht
    rw [hpending] at hs
    cases hs
  · exact hg.held x t ht hs

theorem Took.queuesExact {g g' : Inner} {worker : String} {taken : Option String}
    (htook : Took g worker now taken g') (hg : g.QueuesExact) : g'.QueuesExact := by
  have hold : ∀ x t, g'.tasks.lookup x = some t → t.status = .pending →
      taken ≠ some x ∧ g.tasks.lookup x = some t := by
    intro x t ht hs
    rw [htook.tasks] at ht
    split at ht
    · obtain ⟨t', _, rfl⟩ := Option.map_eq_some_iff.mp ht
      cases hs
    · rename_i hne
      exact ⟨hne, ht⟩
  refine ⟨fun x t ht hs => ?_, fun x t ht hs => ?_, fun x t ht hs => ?_, fun x t ht hs => ?_⟩
  · obtain ⟨hne, ht⟩ := hold x t ht hs
    have hcount := htook.count x ⟨t, ht, hs⟩
    rw [if_neg hne, hg.once x t ht hs] at hcount
    omega
  · obtain ⟨hne, ht⟩ := hold x t ht hs
    exact (hg.placed x t ht hs).mono (htook.role x _ ⟨t, ht, hs⟩ hne)
      (fun w => htook.worker x w ⟨t, ht, hs⟩ hne) fun w hw => by rwa [htook.nodes]
  · rw [htook.tasks] at ht
    split at ht
    · rename_i htaken
      obtain ⟨t', ht', hpending⟩ := htook.pending x htaken
      have hcount := htook.count x ⟨t', ht', hpending⟩
      rw [if_pos htaken, hg.once x t' ht' hpending] at hcount
      omega
    · have := htook.le x
      have := hg.absent x t ht hs
      omega
  · rw [htook.tasks] at ht
    split at ht
    · obtain ⟨t', _, rfl⟩ := Option.map_eq_some_iff.mp ht
      exact ⟨rfl, rfl⟩
    · exact hg.held x t ht hs

theorem queuesExact_requeued {g : Inner} (hg : g.QueuesExact) {id : String} {task : Task}
    (htask : g.tasks.lookup id = some task) (hassigned : task.status = .assigned) :
    (g.requeue id).QueuesExact := by
  have hcount := occurrences_requeue g htask
  obtain ⟨affinity, h⟩ := g.requeue_of_lookup htask
  have htasks : ∀ x, (g.requeue id).tasks.lookup x =
      if x = id then (g.tasks.lookup x).map released else g.tasks.lookup x := by
    intro x
    rw [h, AList.lookup_modify]
  have hplaced : ∀ x role, g.PlacedAt x role → (g.requeue id).PlacedAt x role := by
    intro x role hx
    rw [h]
    exact hx.mono (fun hx => AList.mem_queue_enqueue_of_mem hx _ _) (fun w hw => hw) fun w hw => hw
  refine ⟨fun x t ht hs => ?_, fun x t ht hs => ?_, fun x t ht hs => ?_, fun x t ht hs => ?_⟩ <;>
    rw [htasks] at ht <;> split at ht
  · rename_i hx
    rw [hx, hcount, hg.absent id task htask hassigned, if_pos rfl]
  · rename_i hx
    rw [hcount, if_neg (fun h => hx h.symm), hg.once x t ht hs]
  · rename_i hx
    rw [hx, htask, Option.map_some] at ht
    cases ht
    rw [hx, h]
    exact .inl (AList.mem_queue_enqueue_self _ _ _)
  · exact hplaced x _ (hg.placed x t ht hs)
  · obtain ⟨t', _, rfl⟩ := Option.map_eq_some_iff.mp ht
    cases hs
  · rename_i hx
    rw [hcount, if_neg (fun h => hx h.symm), hg.absent x t ht hs]
  · obtain ⟨t', _, rfl⟩ := Option.map_eq_some_iff.mp ht
    cases hs
  · exact hg.held x t ht hs

theorem queuesExact_drained {g : Inner} (hg : g.QueuesExact) (worker : String) :
    (g.drain worker).QueuesExact := by
  have hcount := occurrences_drain g worker
  obtain ⟨roleQueues, affinity, h, hqueue, _⟩ := g.drain_cases worker
  rw [h] at hcount ⊢
  refine ⟨fun x t ht hs => ?_, fun x t ht hs => ?_, fun x t ht hs => ?_, hg.held⟩
  · rw [(hcount x).1 ⟨t, ht, hs⟩, hg.once x t ht hs]
  · show x ∈ roleQueues.queue t.targetRole ∨ _
    rw [hqueue]
    rcases hg.placed x t ht hs with hrole | ⟨w, hw, hmem⟩
    · exact .inl (List.mem_append_left _ hrole)
    · by_cases hworker : w = worker
      · -- the removed worker's own queue: its pending ids are appended to their role queues
        refine .inl (List.mem_append_right _ (List.mem_filter.mpr ⟨hworker ▸ hmem, ?_⟩))
        have ht' : g.tasks.lookup x = some t := ht
        simp [ht', hs]
      · refine .inr ⟨w, ?_, ?_⟩
        · show ((g.nodes.erase worker).lookup w).isSome = true
          rwa [AList.lookup_erase_ne hworker]
        · show x ∈ (g.workerQueues.erase worker).queue w
          rwa [AList.queue_erase, if_neg hworker]
  · have := (hcount x).2
    have := hg.absent x t ht hs
    omega

theorem queuesExact_atom {g g' : Inner} (h : Atom drawn now posted g g') (hg : g.QueuesExact) :
    g'.QueuesExact := by
  cases h with
  | rehashed h =>
      refine hg.of_tasks (fun id t ht _ => by rwa [← h.lookup_tasks]) h.occurrences
        fun id role hid => hid.mono ?_ (fun w => ?_) fun w => ?_
      · rw [h.queue_role]; exact fun hx => hx
      · rw [h.queue_worker]; exact fun hx => hx
      · rw [h.lookup_nodes]; exact fun hx => hx
  | opened role worker =>
      refine hg.of_tasks (fun id t ht _ => ht) (occurrences_orDefault g role worker)
        fun id r hid => hid.mono ?_ (fun w => ?_) fun w hw => hw
      · exact fun hx => (queue_orDefault _ _ _).symm ▸ hx
      · exact fun hx => (queue_orDefault _ _ _).symm ▸ hx
  | looked worker role => exact (took_takeNext g worker role now).queuesExact hg
  | submitted hid hfresh htask => exact queuesExact_enqueue hg hfresh.queue htask.pending
  | forwarded body hnext hfresh htask hlive hroute hposted =>
      rename_i id next nextRole tail task
      have hmarked : Inner.QueuesExact
          { g with tasks := g.tasks.modify id (markForwarded id now) } := by
        refine hg.of_tasks (fun x t ht hs => ?_) (fun _ => rfl) fun _ _ hx => hx
        rw [AList.lookup_modify] at ht
        split at ht
        · obtain ⟨t', _, rfl⟩ := Option.map_eq_some_iff.mp ht
          rcases hs with hs | hs <;> cases hs
        · exact ht
      exact queuesExact_enqueue hmarked hfresh.queue rfl
  | finished htask hlive hposted hends =>
      rename_i id task status result error report
      obtain ⟨hnodes, hrole, hworker⟩ := finish_frame g status result error now htask
      refine hg.of_tasks (fun x t ht hs => ?_) (fun x => by simp only [occurrences, hrole, hworker])
        fun x role hx => hx.mono (fun h => hrole ▸ h) (fun w h => hworker ▸ h) fun w h => hnodes ▸ h
      obtain ⟨t', ht', ⟨rfl, _⟩ | ⟨_, _, rfl⟩⟩ := lookup_finish g htask ht
      · exact ht'
      · cases hends <;> rcases hs with hs | hs <;> cases hs
  | registered nodeId role sessions =>
      obtain ⟨affinity, h⟩ := register_frame g nodeId role sessions now
      rw [h]
      refine hg.of_tasks (fun id t ht _ => ht) (occurrences_orDefault g role nodeId)
        fun id r hid => hid.mono ?_ (fun w => ?_) fun w hw => ?_
      · exact fun hx => (queue_orDefault _ _ _).symm ▸ hx
      · exact fun hx => (queue_orDefault _ _ _).symm ▸ hx
      · show ((g.nodes.insert nodeId ⟨role, now⟩).lookup w).isSome = true
        rw [AList.lookup_insert_eq]
        split
        · rfl
        · exact hw
  | beat nodeId =>
      refine hg.of_tasks (fun id t ht _ => ht) (fun _ => rfl)
        fun id r hid => hid.mono (fun hx => hx) (fun w hx => hx) fun w hw => ?_
      show ((g.nodes.modify nodeId _).lookup w).isSome = true
      rw [AList.lookup_modify]
      split
      · rwa [Option.isSome_map]
      · exact hw
  | requeued htask hassigned => exact queuesExact_requeued hg htask hassigned
  | drained worker => exact queuesExact_drained hg worker
  | cleaned =>
      exact hg.of_tasks (fun id t ht _ => (AList.lookup_retain_eq_some.mp ht).1) (fun _ => rfl)
        fun _ _ hid => hid

/-! ### Runs -/

/-- What every reachable relay satisfies about its queues and identifiers. -/
structure World.QueuesInv (w : World) : Prop where
  known : w.inner.Known w.issued
  exact : w.inner.QueuesExact

theorem start_lookup {clock : Instant} {id : String} {task : Task}
    (h : (World.start clock).inner.tasks.lookup id = some task) : False := by
  rw [show (World.start clock).inner.tasks.lookup id = none from rfl] at h
  cases h

theorem queuesInv_start (clock : Instant) : (World.start clock).QueuesInv where
  known :=
    { task := fun _ _ h => (start_lookup h).elim
      queue := fun _ h => absurd rfl h
      root := fun _ _ h => (start_lookup h).elim }
  exact :=
    { once := fun _ _ h => (start_lookup h).elim
      placed := fun _ _ h => (start_lookup h).elim
      absent := fun _ _ h => (start_lookup h).elim
      held := fun _ _ h => (start_lookup h).elim }

variable {settings : Settings} {readValue : Bytes → Option Value}

theorem atoms_queuesInv {g g' : Inner} (hsub : drawn ⊆ issued) (h : Atoms drawn now posted g g')
    (hknown : g.Known issued) (hexact : g.QueuesExact) : g'.Known issued ∧ g'.QueuesExact := by
  induction h with
  | refl => exact ⟨hknown, hexact⟩
  | tail _ hatom ih => exact ⟨known_atom hsub hatom ih.1, queuesExact_atom hatom ih.2⟩

theorem queuesInv_step {w w' : World} {event : Event} (h : Step settings readValue w event w')
    (hw : w.QueuesInv) : w'.QueuesInv := by
  cases h with
  | call hclock htimely hfresh =>
      rename_i op now
      have hatoms := exec_atoms settings readValue op w.inner htimely fun id hid =>
        hw.known.fresh (hfresh id hid)
      obtain ⟨hknown, hexact⟩ := atoms_queuesInv (List.subset_append_left op.drawn w.issued) hatoms
        (hw.known.mono (List.subset_append_right _ _)) hw.exact
      exact ⟨hknown, hexact⟩
  | rehash h =>
      have hatom : Atom [] w.clock (fun _ _ => False) w.inner _ := .rehashed h
      exact ⟨known_atom (List.nil_subset _) hatom hw.known, queuesExact_atom hatom hw.exact⟩

theorem queuesInv_run {clock : Instant} {events : List Event} {w : World}
    (hrun : RunFrom settings readValue clock events w) : w.QueuesInv :=
  hrun.invariant queuesInv_step (queuesInv_start clock)

/-- **No task is lost or queued twice.** In every reachable relay a pending task's id occurs
exactly once over all queues, in its role queue or in the own queue of a registered node; an
assigned task's id occurs in no queue, and its worker and assignment time are recorded. -/
theorem no_task_lost_or_queued_twice {clock : Instant} {events : List Event} {w : World}
    (hrun : RunFrom settings readValue clock events w) {id : String} {task : Task}
    (htask : w.inner.tasks.lookup id = some task) :
    (task.status = .pending → w.inner.occurrences id = 1 ∧
      (id ∈ w.inner.roleQueues.queue task.targetRole ∨
        ∃ worker, (w.inner.nodes.lookup worker).isSome = true ∧
          id ∈ w.inner.workerQueues.queue worker)) ∧
    (task.status = .assigned → w.inner.occurrences id = 0 ∧
      task.workerId.isSome = true ∧ task.assignedAt.isSome = true) := by
  have hexact := (queuesInv_run hrun).exact
  exact ⟨fun hs => ⟨hexact.once id task htask hs, hexact.placed id task htask hs⟩,
    fun hs => ⟨hexact.absent id task htask hs, hexact.held id task htask hs⟩⟩

/-- A task that timed out is queued again for its role, the next one of its session waits in its
worker's own queue, and a third task is with another worker. -/
theorem no_task_lost_or_queued_twice_requeued :
    ∃ events w t u x, RunFrom ⟨fromSecs 120, fromSecs 15⟩ (fun _ => none) 0 events w ∧
      w.inner.tasks.lookup "t" = some t ∧ w.inner.tasks.lookup "u" = some u ∧
      w.inner.tasks.lookup "x" = some x ∧
      w.inner.roleQueues.queue "a" = ["t"] ∧ w.inner.occurrences "t" = 1 ∧
      w.inner.workerQueues.queue "w" = ["u"] ∧ w.inner.occurrences "u" = 1 ∧
      x.workerId = some "v" ∧ w.inner.occurrences "x" = 0 := by
  have hrun := run_execAll ⟨fromSecs 120, fromSecs 15⟩ (fun _ => none) (World.start 0)
    [(.register "w" "a" [], 0), (.register "v" "a" [], 0),
      (.submit "t" "a" [1] [] (some "s") 0, 0), (.poll "a" "w" 1, 0),
      (.submit "u" "a" [2] [] (some "s") 0, 0), (.submit "x" "a" [3] [] none 0, 0),
      (.poll "a" "v" 1, fromSecs 60), (.heartbeat "w", fromSecs 120), (.heartbeat "v", fromSecs 120),
      (.sweep, fromSecs 125)] (by decide)
  have ht := (@no_task_lost_or_queued_twice _ _ _ _ _ hrun "t" _ rfl).1 rfl
  have hu := (@no_task_lost_or_queued_twice _ _ _ _ _ hrun "u" _ rfl).1 rfl
  have hx := (@no_task_lost_or_queued_twice _ _ _ _ _ hrun "x" _ rfl).2 rfl
  exact ⟨_, _, _, _, _, hrun, rfl, rfl, rfl, rfl, ht.1, rfl, hu.1, rfl, hx.1⟩

end Distllm.Relay
