import Distllm.RelayQueues

/-! What a poll hands out: the first pending ids of the worker's own queue and then of the role
queue, in order. Ids that are no longer pending are passed over, wherever they stand. -/

namespace Distllm.Relay

open Relay.Inner

/-- The role and session under which the task's worker is bound. -/
def Task.key (task : Task) : Option (String × String) :=
  task.session.map fun session => (task.targetRole, session)

namespace Inner

instance (g : Inner) : DecidablePred g.IsPending := fun id =>
  decidable_of_iff ((g.tasks.lookup id).any (fun task => task.status == .pending) = true) (by
    simp only [Option.any_eq_true, beq_iff_eq, IsPending])

/-- The ids of a queue that name pending tasks. -/
def pendingOf (g : Inner) (queue : List String) : List String := queue.filter (g.IsPending ·)

/-- What a poll of the worker for the role may find: its own queue, and then the role queue. -/
def waiting (g : Inner) (worker role : String) : List String :=
  g.pendingOf (g.workerQueues.queue worker ++ g.roleQueues.queue role)

/-- What the next poll hands out. -/
def batch (g : Inner) (worker role : String) (maxTasks : Nat) : List String :=
  (g.waiting worker role).take (max 1 maxTasks)

def keyOf (g : Inner) (id : String) : Option (String × String) :=
  (g.tasks.lookup id).bind Task.key

variable (g : Inner) {now : Instant}

theorem mem_pendingOf {queue : List String} {id : String} :
    id ∈ g.pendingOf queue ↔ id ∈ queue ∧ g.IsPending id := by
  rw [pendingOf, List.mem_filter, decide_eq_true_iff]

theorem pendingOf_append (queue queue' : List String) :
    g.pendingOf (queue ++ queue') = g.pendingOf queue ++ g.pendingOf queue' :=
  List.filter_append ..

theorem pendingOf_eq_nil {queue : List String} (h : ∀ x ∈ queue, ¬g.IsPending x) :
    g.pendingOf queue = [] :=
  List.filter_eq_nil_iff.mpr fun x hx => by simpa using h x hx

/-- Dropping the front up to a pending id. -/
theorem pendingOf_split {stale rest : List String} {id : String}
    (hstale : ∀ x ∈ stale, ¬g.IsPending x) (hid : g.IsPending id) :
    g.pendingOf (stale ++ id :: rest) = id :: g.pendingOf rest := by
  rw [pendingOf_append, g.pendingOf_eq_nil hstale, List.nil_append, pendingOf,
    List.filter_cons_of_pos (by simpa using hid)]
  rfl

/-- Pending ids are queued once, so a poll finds no id twice. -/
theorem QueuesExact.nodup_waiting {g : Inner} (hg : g.QueuesExact) (worker role : String) :
    (g.waiting worker role).Nodup := by
  rw [List.nodup_iff_count_le_one]
  intro id
  by_cases hid : id ∈ g.waiting worker role
  · obtain ⟨_, task, htask, hpending⟩ := g.mem_pendingOf.mp hid
    have honce := hg.once id task htask hpending
    have hfilter := (List.filter_sublist (p := (g.IsPending ·))
      (l := g.workerQueues.queue worker ++ g.roleQueues.queue role)).count_le id
    rw [List.count_append] at hfilter
    have hown := AList.count_pooled_erase g.workerQueues worker id
    have hshared := AList.count_pooled_erase g.roleQueues role id
    rw [occurrences] at honce
    rw [waiting, pendingOf]
    omega
  · rw [List.count_eq_zero_of_not_mem hid]
    exact Nat.zero_le 1

/-! ### Handing out a batch -/

/-- The effect of handing tasks to a worker: they are assigned to it and leave the queues, and
their sessions are bound to it. -/
structure Dealt (g : Inner) (worker : String) (now : Instant) (batch : List String)
    (g' : Inner) : Prop where
  nodes : g'.nodes = g.nodes
  tasks : ∀ x, g'.tasks.lookup x =
    if x ∈ batch then (g.tasks.lookup x).map (handedTo worker now) else g.tasks.lookup x
  role : ∀ r, g'.pendingOf (g'.roleQueues.queue r) =
    (g.pendingOf (g.roleQueues.queue r)).filter (· ∉ batch)
  own : ∀ w, g'.pendingOf (g'.workerQueues.queue w) =
    (g.pendingOf (g.workerQueues.queue w)).filter (· ∉ batch)
  affinity : ∀ key, g'.affinity.lookup key =
    if some key ∈ batch.map g.keyOf then some (worker, now) else g.affinity.lookup key

namespace Dealt

variable {g : Inner} {g' g'' : Inner} {worker : String} {batch batch' : List String}

theorem isPending (h : g.Dealt worker now batch g') (x : String) :
    g'.IsPending x ↔ g.IsPending x ∧ x ∉ batch := by
  unfold IsPending
  rw [h.tasks]
  split
  · rename_i hx
    refine ⟨?_, fun hboth => absurd hx hboth.2⟩
    rintro ⟨task, htask, hpending⟩
    obtain ⟨_, _, rfl⟩ := Option.map_eq_some_iff.mp htask
    cases hpending
  · rename_i hx
    exact ⟨fun h => ⟨h, hx⟩, fun h => h.1⟩

theorem keyOf (h : g.Dealt worker now batch g') (x : String) : g'.keyOf x = g.keyOf x := by
  unfold Inner.keyOf
  rw [h.tasks]
  split
  · cases g.tasks.lookup x <;> rfl
  · rfl

theorem waiting (h : g.Dealt worker now batch g') (w r : String) :
    g'.waiting w r = (g.waiting w r).filter (· ∉ batch) := by
  rw [Inner.waiting, Inner.waiting, pendingOf_append, pendingOf_append, h.own, h.role,
    List.filter_append]

/-- With the first waiting task handed out, the others wait. -/
theorem waiting_rest {id role : String} {rest : List String} (h : g.Dealt worker now [id] g')
    (hwaiting : g.waiting worker role = id :: rest) (hnodup : (g.waiting worker role).Nodup) :
    g'.waiting worker role = rest := by
  rw [hwaiting] at hnodup
  rw [h.waiting, hwaiting, List.filter_cons_of_neg (by simp)]
  apply List.filter_eq_self.mpr
  intro x hx
  simpa using fun heq : x = id => (List.nodup_cons.mp hnodup).1 (heq ▸ hx)

theorem refl (g : Inner) (worker : String) (now : Instant) : g.Dealt worker now [] g where
  nodes := rfl
  tasks x := by rw [if_neg List.not_mem_nil]
  role r := (List.filter_eq_self.mpr fun _ _ => by simp).symm
  own w := (List.filter_eq_self.mpr fun _ _ => by simp).symm
  affinity key := by rw [if_neg (by simp)]

theorem trans (h : g.Dealt worker now batch g') (h' : g'.Dealt worker now batch' g'') :
    g.Dealt worker now (batch ++ batch') g'' where
  nodes := h'.nodes.trans h.nodes
  tasks x := by
      rw [h'.tasks, h.tasks]
      by_cases hx : x ∈ batch <;> by_cases hx' : x ∈ batch'
      · rw [if_pos hx', if_pos hx, if_pos (List.mem_append_left _ hx), Option.map_map]
        rfl
      · rw [if_neg hx', if_pos hx, if_pos (List.mem_append_left _ hx)]
      · rw [if_pos hx', if_neg hx, if_pos (List.mem_append_right _ hx')]
      · rw [if_neg hx', if_neg hx, if_neg fun hmem => (List.mem_append.mp hmem).elim hx hx']
  role r := by
      rw [h'.role, h.role, List.filter_filter]
      exact List.filter_congr fun x _ => by simp [Bool.and_comm]
  own w := by
      rw [h'.own, h.own, List.filter_filter]
      exact List.filter_congr fun x _ => by simp [Bool.and_comm]
  affinity key := by
      have hkeys : batch'.map g'.keyOf = batch'.map g.keyOf :=
        List.map_congr_left fun x _ => h.keyOf x
      rw [h'.affinity, h.affinity, hkeys, List.map_append]
      by_cases hk : some key ∈ batch.map g.keyOf <;> by_cases hk' : some key ∈ batch'.map g.keyOf
      · rw [if_pos hk', if_pos (List.mem_append_left _ hk)]
      · rw [if_neg hk', if_pos hk, if_pos (List.mem_append_left _ hk)]
      · rw [if_pos hk', if_pos (List.mem_append_right _ hk')]
      · rw [if_neg hk', if_neg hk, if_neg fun hmem => (List.mem_append.mp hmem).elim hk hk']

end Dealt

/-- Assigning a stored task, with the queues left as they are. -/
theorem assign_spec {id : String} {task : Task} (worker : String) (now : Instant)
    (h : g.tasks.lookup id = some task) :
    ∃ affinity, g.assign id worker now = { g with
        tasks := g.tasks.modify id (handedTo worker now), affinity := affinity } ∧
      ∀ key, affinity.lookup key =
        if g.keyOf id = some key then some (worker, now) else g.affinity.lookup key := by
  simp only [assign, h, keyOf, Task.key, Option.bind_some]
  cases task.session with
  | none => exact ⟨_, rfl, fun key => by rw [if_neg (by simp)]⟩
  | some session =>
      refine ⟨_, rfl, fun key => ?_⟩
      rw [AList.lookup_insert_eq]
      simp only [Option.map_some, Option.some.injEq, eq_comm]

/-- Popping from the front of queues and assigning what was found deals one task. -/
theorem dealt_assign {id worker : String} {popped : Inner} (hid : g.IsPending id)
    (hnodes : popped.nodes = g.nodes) (htasks : popped.tasks = g.tasks)
    (haffinity : popped.affinity = g.affinity)
    (hrole : ∀ r, (g.pendingOf (popped.roleQueues.queue r)).filter (· ∉ [id]) =
      (g.pendingOf (g.roleQueues.queue r)).filter (· ∉ [id]))
    (hown : ∀ w, (g.pendingOf (popped.workerQueues.queue w)).filter (· ∉ [id]) =
      (g.pendingOf (g.workerQueues.queue w)).filter (· ∉ [id])) :
    g.Dealt worker now [id] (popped.assign id worker now) := by
  obtain ⟨task, htask, hpending⟩ := hid
  obtain ⟨affinity, hassign, hbound⟩ := popped.assign_spec worker now (htasks ▸ htask)
  have hlookup : ∀ x, (popped.assign id worker now).tasks.lookup x =
      if x ∈ [id] then (g.tasks.lookup x).map (handedTo worker now) else g.tasks.lookup x := by
    intro x
    rw [hassign, AList.lookup_modify, htasks]
    simp only [List.mem_singleton]
  have hnow : ∀ queue, (popped.assign id worker now).pendingOf queue =
      (g.pendingOf queue).filter (· ∉ [id]) := by
    intro queue
    rw [pendingOf, pendingOf, List.filter_filter]
    apply List.filter_congr
    intro x _
    rw [← Bool.decide_and, decide_eq_decide]
    unfold IsPending
    rw [hlookup]
    split
    · rename_i hx
      refine ⟨?_, fun hboth => absurd hx hboth.1⟩
      rintro ⟨t, ht, hs⟩
      obtain ⟨_, _, rfl⟩ := Option.map_eq_some_iff.mp ht
      cases hs
    · rename_i hx
      exact ⟨fun h => ⟨hx, h⟩, fun h => h.2⟩
  refine ⟨by rw [hassign, ← hnodes], hlookup, fun r => ?_, fun w => ?_, fun key => ?_⟩
  · rw [hnow, ← hrole, hassign]
  · rw [hnow, ← hown, hassign]
  · rw [hassign]
    dsimp only
    have hkey : popped.keyOf id = g.keyOf id := by
      unfold keyOf
      rw [htasks]
    rw [hbound, haffinity, hkey]
    simp only [List.map_singleton, List.mem_singleton, eq_comm]

/-- A look takes the first waiting id, or drops what is stale. -/
theorem takeNext_dealt (worker role : String) (now : Instant) :
    (g.takeNext worker role now).1 = (g.waiting worker role).head? ∧
      g.Dealt worker now (g.takeNext worker role now).1.toList (g.takeNext worker role now).2 := by
  rcases g.takeNext_cases worker role now with
    ⟨stale, id, rest, hown, hstale, hid, htake⟩ |
    ⟨stale, id, rest, hown, hshared, hstale, hid, htake⟩ | ⟨hown, hshared, htake⟩
  · rw [htake]
    refine ⟨?_, g.dealt_assign hid rfl rfl rfl (fun _ => rfl) fun w => ?_⟩
    · rw [waiting, hown, List.append_assoc, List.cons_append, g.pendingOf_split hstale hid]
      rfl
    · dsimp only
      rw [AList.queue_modify _ _ _ _ fun h => by rw [hown] at h; simp at h]
      split
      · rename_i hw
        rw [hw, hown, g.pendingOf_split hstale hid, List.filter_cons_of_neg (by simp)]
      · rfl
  · rw [htake]
    refine ⟨?_, g.dealt_assign hid rfl rfl rfl (fun r => ?_) fun w => ?_⟩
    · rw [waiting, pendingOf_append, g.pendingOf_eq_nil hown, hshared,
        g.pendingOf_split hstale hid]
      rfl
    · dsimp only
      rw [AList.queue_modify _ _ _ _ fun h => by rw [hshared] at h; simp at h]
      split
      · rename_i hr
        rw [hr, hshared, g.pendingOf_split hstale hid, List.filter_cons_of_neg (by simp)]
      · rfl
    · dsimp only
      rw [AList.queue_modify _ _ _ _ fun _ => rfl]
      split
      · rename_i hw
        rw [hw, g.pendingOf_eq_nil hown]
        rfl
      · rfl
  · rw [htake]
    have hnone : g.waiting worker role = [] := by
      rw [waiting, pendingOf_append, g.pendingOf_eq_nil hown, g.pendingOf_eq_nil hshared]
      rfl
    have hdrop : ∀ (q : AList fun _ : String => List String) (a b : String),
        (∀ x ∈ q.queue a, ¬g.IsPending x) → g.pendingOf ((q.modify a fun _ => []).queue b) =
          (g.pendingOf (q.queue b)).filter (· ∉ ([] : List String)) := by
      intro q a b hstale
      rw [List.filter_eq_self.mpr fun _ _ => by simp, AList.queue_modify _ _ _ _ fun _ => rfl]
      split
      · rename_i hb
        rw [hb, g.pendingOf_eq_nil hstale]
        rfl
      · rfl
    exact ⟨by rw [hnone]; rfl, rfl, fun x => by rw [Option.toList_none, if_neg List.not_mem_nil],
      fun r => hdrop _ _ _ hshared, fun w => hdrop _ _ _ hown, fun key => by simp⟩

/-- Taking further tasks hands out the first ones that wait. -/
theorem takeMore_dealt {g : Inner} (worker role : String) (now : Instant) (n : Nat)
    (hnodup : (g.waiting worker role).Nodup) :
    (takeMore worker role now n g).1 = (g.waiting worker role).take n ∧
      g.Dealt worker now (takeMore worker role now n g).1 (takeMore worker role now n g).2 := by
  induction n generalizing g with
  | zero => exact ⟨(List.take_zero ..).symm, .refl g worker now⟩
  | succ n ih =>
      obtain ⟨hfirst, hdealt⟩ := g.takeNext_dealt worker role now
      rw [takeMore]
      generalize g.takeNext worker role now = taken at hfirst hdealt
      obtain ⟨taken, g'⟩ := taken
      obtain rfl : taken = (g.waiting worker role).head? := hfirst
      cases hwaiting : g.waiting worker role with
      | nil =>
          rw [hwaiting] at hdealt
          exact ⟨rfl, hdealt⟩
      | cons id rest =>
          rw [hwaiting, List.head?_cons, Option.toList_some] at hdealt
          have hleft : g'.waiting worker role = rest := hdealt.waiting_rest hwaiting hnodup
          rw [hwaiting] at hnodup
          obtain ⟨htaken, hmore⟩ := ih (hleft ▸ (List.nodup_cons.mp hnodup).2)
          rw [List.head?_cons]
          dsimp only
          exact ⟨by rw [htaken, hleft, List.take_succ_cons], hdealt.trans hmore⟩

theorem withPayloads_dealt {g g' : Inner} {worker : String} {ids : List String}
    (h : g.Dealt worker now ids g') (taken : List String) :
    withPayloads g' taken = withPayloads g taken := by
  apply List.filterMap_congr
  intro id _
  rw [h.tasks]
  split
  · cases g.tasks.lookup id <;> rfl
  · rfl

/-- A poll hands out the first waiting tasks, at most `maxTasks` but one at least. -/
theorem poll_dealt {g : Inner} (hg : g.QueuesExact) (role worker : String) (maxTasks : Nat)
    (now : Instant) :
    (poll g role worker maxTasks now).1 = withPayloads g (g.batch worker role maxTasks) ∧
      g.Dealt worker now (g.batch worker role maxTasks) (poll g role worker maxTasks now).2 := by
  set opened : Inner := { g with
    roleQueues := orDefault g.roleQueues role
    workerQueues := orDefault g.workerQueues worker } with hopened
  have hqueues : opened.waiting worker role = g.waiting worker role := by
    rw [waiting, waiting, hopened]
    dsimp only
    rw [queue_orDefault, queue_orDefault]
    rfl
  have hopen : g.Dealt worker now [] opened := by
    refine ⟨rfl, fun x => by rw [if_neg List.not_mem_nil], fun r => ?_, fun w => ?_,
      fun key => by rw [if_neg (by simp)]⟩
    · rw [List.filter_eq_self.mpr fun _ _ => by simp, hopened]
      dsimp only
      rw [queue_orDefault]
      rfl
    · rw [List.filter_eq_self.mpr fun _ _ => by simp, hopened]
      dsimp only
      rw [queue_orDefault]
      rfl
  have hmore := takeMore_dealt worker role now (maxTasks - 1 + 1)
    (hqueues ▸ hg.nodup_waiting worker role)
  have hcount : maxTasks - 1 + 1 = max 1 maxTasks := by omega
  rw [hqueues, hcount] at hmore
  obtain ⟨htaken, hdealt⟩ := hmore
  rw [htaken] at hdealt
  have hpoll : poll g role worker maxTasks now =
      (withPayloads (takeMore worker role now (maxTasks - 1 + 1) opened).2
        (takeMore worker role now (maxTasks - 1 + 1) opened).1,
        (takeMore worker role now (maxTasks - 1 + 1) opened).2) := by
    rw [poll, ← hopened, takeMore]
    cases opened.takeNext worker role now with
    | mk taken g' => cases taken <;> rfl
  rw [hpoll, hcount, htaken]
  dsimp only
  have hall := hopen.trans hdealt
  rw [List.nil_append] at hall
  exact ⟨withPayloads_dealt hall _, hall⟩

/-- The last look of a poll hands out the first waiting task. -/
theorem pollDeadline_dealt {g : Inner} (role worker : String) (now : Instant) :
    (pollDeadline g role worker now).1 = withPayloads g (g.batch worker role 1) ∧
      g.Dealt worker now (g.batch worker role 1) (pollDeadline g role worker now).2 := by
  obtain ⟨hfirst, hdealt⟩ := g.takeNext_dealt worker role now
  have hbatch : g.batch worker role 1 = (g.waiting worker role).head?.toList := by
    rw [batch]
    cases g.waiting worker role <;> rfl
  rw [pollDeadline, hbatch]
  generalize g.takeNext worker role now = taken at hfirst hdealt
  obtain ⟨taken, g'⟩ := taken
  obtain rfl : taken = (g.waiting worker role).head? := hfirst
  cases hhead : (g.waiting worker role).head? with
  | none =>
      rw [hhead] at hdealt
      exact ⟨rfl, hdealt⟩
  | some id =>
      rw [hhead] at hdealt
      exact ⟨withPayloads_dealt hdealt _, hdealt⟩

/-! ### Skipping one stale id -/

/-- Queues that lost nothing pending. -/
theorem skipped {g : Inner} {roleQueues workerQueues : AList fun _ : String => List String}
    (worker : String) (now : Instant)
    (hrole : ∀ r, g.pendingOf (roleQueues.queue r) = g.pendingOf (g.roleQueues.queue r))
    (hworker : ∀ w, g.pendingOf (workerQueues.queue w) = g.pendingOf (g.workerQueues.queue w))
    (hle : ∀ x, roleQueues.pooled.count x + workerQueues.pooled.count x ≤ g.occurrences x)
    (hcount : ∀ x, g.IsPending x →
      roleQueues.pooled.count x + workerQueues.pooled.count x = g.occurrences x) :
    Took g worker now none { g with roleQueues := roleQueues, workerQueues := workerQueues } ∧
      g.Dealt worker now [] { g with roleQueues := roleQueues, workerQueues := workerQueues } := by
  have hmem : ∀ {queue queue' : List String} {x : String}, g.IsPending x →
      g.pendingOf queue' = g.pendingOf queue → x ∈ queue → x ∈ queue' := fun hx heq hin =>
    (g.mem_pendingOf.mp (heq ▸ g.mem_pendingOf.mpr ⟨hin, hx⟩)).1
  constructor
  · exact ⟨rfl, fun x hx => (by cases hx), fun x => by rw [if_neg (by simp)], hle,
      fun x hx => by rw [if_neg (by simp), Nat.add_zero]; exact hcount x hx,
      fun x r hx _ => hmem hx (hrole r), fun x w hx _ => hmem hx (hworker w)⟩
  · refine ⟨rfl, fun x => by rw [if_neg List.not_mem_nil], fun r => ?_, fun w => ?_,
      fun key => by rw [if_neg (by simp)]⟩
    · exact (hrole r).trans (List.filter_eq_self.mpr fun _ _ => by simp).symm
    · exact (hworker w).trans (List.filter_eq_self.mpr fun _ _ => by simp).symm

variable {g : Inner} {id : String} {rest : List String}

theorem pendingOf_dropFirst {q : AList fun _ : String => List String} {a : String}
    (hqueue : q.queue a = id :: rest) (hid : ¬g.IsPending id) (b : String) :
    g.pendingOf ((q.modify a fun _ => rest).queue b) = g.pendingOf (q.queue b) := by
  rw [AList.queue_modify _ _ _ _ fun h => by rw [hqueue] at h; cases h]
  split
  · rename_i hb
    rw [hb, hqueue, pendingOf, pendingOf, List.filter_cons_of_neg (by simpa using hid)]
  · rfl

theorem count_dropFirst {q : AList fun _ : String => List String} {a : String}
    (hqueue : q.queue a = id :: rest) (hid : ¬g.IsPending id) (x : String) :
    (q.modify a fun _ => rest).pooled.count x ≤ q.pooled.count x ∧
      (g.IsPending x → (q.modify a fun _ => rest).pooled.count x = q.pooled.count x) := by
  have hfront : q.queue a = [id] ++ rest := hqueue
  have hcount := q.count_pooled_dropFront hfront x
  refine ⟨by omega, fun hx => ?_⟩
  have hstale : [id].count x = 0 := count_stale (List.forall_mem_singleton.mpr hid) hx
  omega

theorem skipped_own {worker : String} (hown : g.workerQueues.queue worker = id :: rest)
    (hid : ¬g.IsPending id) (now : Instant) :
    Took g worker now none
        { g with workerQueues := g.workerQueues.modify worker fun _ => rest } ∧
      g.Dealt worker now []
        { g with workerQueues := g.workerQueues.modify worker fun _ => rest } := by
  have hcount := count_dropFirst hown hid
  exact skipped worker now (fun _ => rfl) (pendingOf_dropFirst hown hid)
    (fun x => Nat.add_le_add_left (hcount x).1 _) fun x hx => congrArg _ ((hcount x).2 hx)

theorem skipped_shared {role : String} (hshared : g.roleQueues.queue role = id :: rest)
    (hid : ¬g.IsPending id) (worker : String) (now : Instant) :
    Took g worker now none { g with roleQueues := g.roleQueues.modify role fun _ => rest } ∧
      g.Dealt worker now [] { g with roleQueues := g.roleQueues.modify role fun _ => rest } := by
  have hcount := count_dropFirst hshared hid
  exact skipped worker now (pendingOf_dropFirst hshared hid) (fun _ => rfl)
    (fun x => Nat.add_le_add_right (hcount x).1 _) fun x hx =>
      congrArg (· + g.workerQueues.pooled.count x) ((hcount x).2 hx)

/-! ### Taking the first queued id -/

theorem takeNext_own {worker role : String} (hown : g.workerQueues.queue worker = id :: rest) (hid : g.IsPending id) :
    g.takeNext worker role now = (some id,
      { g with workerQueues := g.workerQueues.modify worker fun _ => rest }.assign
        id worker now) := by
  obtain ⟨task, htask, hpending⟩ := hid
  have hpop : g.popPending (id :: rest) = (some id, rest) := by
    simp only [popPending, htask, hpending, if_true]
  simp only [takeNext, hown, hpop]

theorem takeNext_shared {worker role : String} (hown : g.workerQueues.queue worker = [])
    (hshared : g.roleQueues.queue role = id :: rest) (hid : g.IsPending id) :
    g.takeNext worker role now = (some id,
      { g with
        workerQueues := g.workerQueues.modify worker fun _ => []
        roleQueues := g.roleQueues.modify role fun _ => rest }.assign id worker now) := by
  obtain ⟨task, htask, hpending⟩ := hid
  simp only [takeNext, hown, hshared, popPending, htask, hpending, if_true]

end Inner
end Distllm.Relay
