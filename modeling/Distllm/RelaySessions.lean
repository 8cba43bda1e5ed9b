import Distllm.RelayAffinity

/-! Whether a session stays on the replica that took it. A binding is looked up when a task is
queued and written when one is taken, so a task of the session that was queued before the binding
was made still goes to whoever polls first. From a state in which every live task of the session
is with its worker, the session stays there as long as the worker keeps it. -/

namespace Distllm.Relay

open Relay.Inner

variable {settings : Settings} {readValue : Bytes → Option Value} {g g' : Inner} {now : Instant}
  {worker : String} {key : String × String}

/-- From one state to the next the pending task is assigned to the worker. -/
def Assigns (g g' : Inner) (id worker : String) : Prop :=
  g.IsPending id ∧ ∃ task, g'.tasks.lookup id = some task ∧ task.status = .assigned ∧
    task.workerId = some worker

/-- The ids that an operation takes from the queues. -/
def Event.taken (g : Inner) : Event → List String
  | .call (.poll role worker maxTasks) _ _ => g.batch worker role maxTasks
  | .call (.pollDeadline role worker) _ _ => g.batch worker role 1
  | _ => []

namespace Inner

/-- Every live task of the session is taken now, waits for the worker or is assigned to it. -/
def Gathered (g : Inner) (worker : String) (key : String × String) (taken : List String) : Prop :=
  ∀ x task, g.tasks.lookup x = some task → task.key = some key →
    (task.status = .pending → x ∈ taken ∨ x ∈ g.ofWorker worker) ∧
    (task.status = .assigned → task.workerId = some worker)

/-- The worker serves the role and holds the session with all its live tasks. -/
structure Pinned (g : Inner) (worker : String) (key : String × String) : Prop where
  serves : g.Serves worker key.1
  bound : g.boundTo key = some worker
  gathered : g.Gathered worker key []

theorem Pinned.waits (h : g.Pinned worker key) {x : String} (hpending : g.IsPending x)
    (hkey : g.keyOf x = some key) : x ∈ g.ofWorker worker := by
  obtain ⟨task, htask, hstatus⟩ := hpending
  rw [keyOf, htask, Option.bind_some] at hkey
  exact ((h.gathered x task htask hkey).1 hstatus).resolve_left List.not_mem_nil

theorem Pinned.holds (h : g.Pinned worker key) {x : String} {task : Task}
    (htask : g.tasks.lookup x = some task) (hkey : task.key = some key)
    (hassigned : task.status = .assigned) : task.workerId = some worker :=
  (h.gathered x task htask hkey).2 hassigned

/-- The tasks of the session are as they were or wait for the worker. -/
theorem Gathered.of_same (h : g.Gathered worker key [])
    (htasks : ∀ x task, g'.tasks.lookup x = some task → task.key = some key →
      task.status.finished = false → g.tasks.lookup x = some task ∨
        task.status = .pending ∧ x ∈ g'.ofWorker worker)
    (hown : ∀ x task, g'.tasks.lookup x = some task → g.tasks.lookup x = some task →
      x ∈ g.ofWorker worker → x ∈ g'.ofWorker worker) : g'.Gathered worker key [] := by
  intro x task htask hkey
  refine ⟨fun hpending => .inr ?_, fun hassigned => ?_⟩
  · rcases htasks x task htask hkey (by rw [hpending]; rfl) with hbefore | ⟨_, hwaits⟩
    · exact hown x task htask hbefore
        (((h x task hbefore hkey).1 hpending).resolve_left List.not_mem_nil)
    · exact hwaits
  · rcases htasks x task htask hkey (by rw [hassigned]; rfl) with hbefore | ⟨hpending, _⟩
    · exact (h x task hbefore hkey).2 hassigned
    · cases hassigned.symm.trans hpending

theorem Pinned.alike (hg : g.Pinned worker key) (h : g.Alike g') : g'.Pinned worker key where
  serves := hg.serves.of_nodes (h.nodes worker)
  bound := (boundTo_congr (h.affinity key)).trans hg.bound
  gathered := hg.gathered.of_same (fun x task htask _ _ => .inl (h.tasks x ▸ htask))
    fun x _ _ _ hx => by rwa [h.ofWorker]

theorem Pinned.settled (hg : g.Pinned worker key) (h : g.Settled g') : g'.Pinned worker key where
  serves := hg.serves.of_nodes (by rw [h.nodes])
  bound := (boundTo_congr (by rw [h.affinity])).trans hg.bound
  gathered := by
      intro x task htask hkey
      have hbefore := fun hlive => h.tasks x task htask hlive
      refine ⟨fun hpending => .inr ?_, fun hassigned =>
        hg.holds (hbefore (by rw [hassigned]; rfl)) hkey hassigned⟩
      have hlookup := hbefore (by rw [hpending]; rfl)
      have hwaits := hg.waits ⟨task, hlookup, hpending⟩ (by rw [keyOf, hlookup]; exact hkey)
      rw [mem_ofWorker, h.workerQueues]
      exact ⟨(mem_ofWorker.mp hwaits).1, task, htask, hpending⟩

/-- A new task of the session waits for its worker. -/
theorem Pinned.queued {id : String} {task : Task} (hg : g.Pinned worker key)
    (hpending : task.status = .pending) (h : g.Queued id task g') : g'.Pinned worker key := by
  have hsame : ∀ s, task.session = some s → task.key = some key → (task.targetRole, s) = key := by
    intro s hs hkey
    rw [Task.key, hs] at hkey
    exact Option.some.inj hkey
  have hserves : g'.Serves worker key.1 := hg.serves.of_nodes (by rw [h.nodes])
  rcases h.place with ⟨w, s, _, hsession, hto, hown, _, haffinity⟩ | ⟨hfree, hown, _, haffinity⟩
  · refine ⟨hserves, (boundTo_congr (haffinity key)).trans hg.bound,
      hg.gathered.of_same (fun x t ht hkey _ => ?_) fun x t ht hbefore hx => ?_⟩
    · rw [h.tasks] at ht
      split at ht
      · rename_i hx
        obtain rfl := Option.some.inj ht
        have hw : w = worker := by
          rw [hsame s hsession hkey, hg.bound] at hto
          exact (Option.some.inj hto).symm
        refine .inr ⟨hpending, ?_⟩
        rw [hown, if_pos hw.symm, hx]
        exact List.mem_append_right _ List.mem_cons_self
      · exact .inl ht
    · rw [hown]
      split
      · exact List.mem_append_left _ hx
      · exact hx
  · -- had the task the session's key, its worker would have been found
    have hother : task.key ≠ some key := by
      intro hkey
      obtain ⟨s, hs, hsession⟩ := Option.map_eq_some_iff.mp hkey
      refine hfree worker s ?_ hs (hsession.symm ▸ hg.bound)
      rw [← hsession] at hg
      exact hg.serves
    refine ⟨hserves, ?_, hg.gathered.of_same (fun x t ht hkey _ => ?_) fun x _ _ _ hx => ?_⟩
    · rw [boundTo_congr ((haffinity key).trans (if_neg hother)), hg.bound]
    · rw [h.tasks] at ht
      split at ht
      · obtain rfl := Option.some.inj ht
        exact absurd hkey hother
      · exact .inl ht
    · rwa [hown]

theorem Dealt.task_of {taker : String} {batch : List String} (h : g.Dealt taker now batch g')
    {x : String} {task : Task} (htask : g'.tasks.lookup x = some task) :
    (x ∉ batch ∧ g.tasks.lookup x = some task) ∨
      x ∈ batch ∧ ∃ before, g.tasks.lookup x = some before ∧ task = handedTo taker now before := by
  rw [h.tasks] at htask
  split at htask
  · rename_i hx
    obtain ⟨before, hbefore, rfl⟩ := Option.map_eq_some_iff.mp htask
    exact .inr ⟨hx, before, hbefore, rfl⟩
  · rename_i hx
    exact .inl ⟨hx, htask⟩

theorem Dealt.mem_ofWorker {taker : String} {batch : List String} (h : g.Dealt taker now batch g')
    {w x : String} : x ∈ g'.ofWorker w ↔ x ∈ g.ofWorker w ∧ x ∉ batch := by
  rw [ofWorker, h.own, List.mem_filter, decide_eq_true_iff, ofWorker]

/-- Taking a task of the session gathers it, if its other live tasks are with the worker. -/
theorem Gathered.dealt {batch : List String} (hgathered : g.Gathered worker key batch)
    (h : g.Dealt worker now batch g') : g'.Gathered worker key [] := by
  intro x task htask hkey
  rcases h.task_of htask with ⟨hx, hbefore⟩ | ⟨_, before, _, rfl⟩
  · obtain ⟨hwaits, hholds⟩ := hgathered x task hbefore hkey
    refine ⟨fun hpending => .inr (h.mem_ofWorker.mpr ⟨?_, hx⟩), hholds⟩
    exact (hwaits hpending).resolve_left hx
  · exact ⟨fun hpending => (nomatch hpending), fun _ => rfl⟩

/-- Another worker finds no task of the session. -/
theorem Pinned.taker_eq {taker role x : String} {n : Nat} (hexact : g.QueuesExact)
    (hg : g.Pinned worker key) (hx : x ∈ g.batch taker role n) (hkey : g.keyOf x = some key) :
    taker = worker := by
  obtain ⟨hpending, hplace⟩ := batch_cases hx
  have hwaits := hg.waits hpending hkey
  rcases hplace with hown | hshared
  · exact hexact.worker_unique hwaits hown
  · exact absurd hshared (hexact.not_ofRole_of_ofWorker hwaits)

theorem Pinned.dealt {taker role : String} {n : Nat} (hexact : g.QueuesExact)
    (hg : g.Pinned worker key) (h : g.Dealt taker now (g.batch taker role n) g') :
    g'.Pinned worker key := by
  refine ⟨hg.serves.of_nodes (by rw [h.nodes]), ?_, ?_⟩
  · rw [boundTo, h.affinity]
    split
    · rename_i hbatch
      obtain ⟨x, hx, hkey⟩ := List.mem_map.mp hbatch
      rw [hg.taker_eq hexact hx hkey]
      rfl
    · exact hg.bound
  · by_cases htaker : taker = worker
    · rw [htaker] at h
      exact Gathered.dealt (fun x task htask hkey =>
        ⟨fun hpending => .inr (hg.waits ⟨task, htask, hpending⟩ (by rw [keyOf, htask]; exact hkey)),
          hg.holds htask hkey⟩) h
    · intro x task htask hkey
      rcases h.task_of htask with ⟨hx, hbefore⟩ | ⟨hx, before, hbefore, rfl⟩
      · obtain ⟨hwaits, hholds⟩ := hg.gathered x task hbefore hkey
        exact ⟨fun hpending => .inr (h.mem_ofWorker.mpr
          ⟨(hwaits hpending).resolve_left List.not_mem_nil, hx⟩), hholds⟩
      · exact absurd (hg.taker_eq hexact hx (by rw [keyOf, hbefore]; exact hkey)) htaker

theorem Pinned.registered {nodeId role : String} {sessions : List String}
    (hg : g.Pinned worker key) (hserves : g'.Serves worker key.1)
    (h : g.Registered nodeId role sessions now g') : g'.Pinned worker key := by
  refine ⟨hserves, ?_, hg.gathered.of_same (fun x task htask _ _ => .inl (h.tasks ▸ htask))
    fun x _ _ _ hx => by rwa [h.own]⟩
  obtain ⟨used, hlookup⟩ := g.boundTo_eq_some.mp hg.bound
  have hclaimed : g.claimed key = true := by
    obtain ⟨node, hnode, _⟩ := hg.serves
    rw [claimed, hlookup, Option.any_some, hnode]
    rfl
  refine (boundTo_congr ((h.affinity key).trans (if_neg ?_))).trans hg.bound
  rw [hclaimed]
  rintro ⟨_, hfalse⟩
  cases hfalse

theorem Pinned.dropped {nodeId : String} (hexact : g.QueuesExact) (hg : g.Pinned worker key)
    (hserves : g'.Serves worker key.1) (h : g.Dropped nodeId g') : g'.Pinned worker key := by
  have hne : worker ≠ nodeId := by
    rintro rfl
    obtain ⟨node, hnode, _⟩ := hserves
    rw [h.nodes, AList.lookup_erase] at hnode
    cases hnode
  refine ⟨hserves, ?_, hg.gathered.of_same (fun x task htask hkey _ => ?_) fun x _ _ _ hx => ?_⟩
  · obtain ⟨used, hlookup⟩ := g.boundTo_eq_some.mp hg.bound
    refine g'.boundTo_eq_some.mpr ⟨used, ?_⟩
    rw [h.affinity, hlookup, Option.filter_some, if_pos (bne_iff_ne.mpr hne)]
  · rw [h.tasks] at htask
    split at htask
    · rename_i hheld
      obtain ⟨before, hbefore, rfl⟩ := Option.map_eq_some_iff.mp htask
      obtain ⟨before', hbefore', hassigned, hname⟩ := g.mem_assignedTo.mp hheld
      obtain rfl := Option.some.inj (hbefore.symm.trans hbefore')
      exact absurd (Option.some.inj ((hg.holds hbefore hkey hassigned).symm.trans hname)) hne
    · exact .inl htask
  · rwa [h.ofWorker hexact, if_neg hne]

/-- The janitor leaves the session with its worker if it neither takes one of its tasks away nor
lets the binding expire. -/
theorem Pinned.swept (hg : g.Pinned worker key) (hserves : g'.Serves worker key.1)
    (hstuck : g.givesUp (stuckTasks settings g now) key worker = false)
    (hused : ∀ bound ∈ g.affinity.lookup key, now - bound.2 ≤ sessionAffinityTtl)
    (h : g.Swept settings now g') : g'.Pinned worker key := by
  have hlive : worker ∉ deadNodes settings g now := by
    intro hdead
    obtain ⟨node, hnode, _⟩ := hserves
    rw [h.nodes, if_pos hdead] at hnode
    cases hnode
  refine ⟨hserves, ?_, hg.gathered.of_same (fun x task htask hkey hunfinished => ?_)
    fun x task htask hbefore hx => ?_⟩
  · obtain ⟨used, hlookup⟩ := g.boundTo_eq_some.mp hg.bound
    refine g'.boundTo_eq_some.mpr ⟨used, ?_⟩
    rw [h.affinity, hlookup, Option.filter_some, if_pos]
    rw [hstuck, decide_eq_true hlive, decide_eq_true (hused _ hlookup)]
    rfl
  · rw [h.tasks, Option.filter_eq_some_iff, Option.map_eq_some_iff] at htask
    obtain ⟨⟨before, hbefore, hsame⟩, _⟩ := htask
    cases hloses : losesWorker settings g now before with
    | false =>
        rw [hloses, if_neg Bool.false_ne_true] at hsame
        exact .inl (hsame ▸ hbefore)
    | true =>
        -- a task that the janitor takes away was assigned to the session's worker
        rw [hloses, if_pos rfl] at hsame
        have hkey' : before.key = some key := by
          rw [← hkey, ← hsame]
          rfl
        exfalso
        rw [losesWorker, Bool.or_eq_true, heldBy_eq_true, Bool.and_eq_true, beq_iff_eq] at hloses
        rcases hloses with ⟨hassigned, w, hw, hname⟩ | ⟨hassigned, hlong⟩
        · have hholder := hg.holds hbefore hkey' hassigned
          rw [hname] at hholder
          exact hlive (Option.some.inj hholder ▸ hw)
        · have hgives : g.givesUp (stuckTasks settings g now) key worker = true :=
            g.givesUp_eq_true.mpr ⟨x, mem_stuckTasks.mpr ⟨before, hbefore, hassigned, hlong⟩,
              by rw [keyOf, hbefore]; exact hkey', by
                rw [workerOf, hbefore]; exact hg.holds hbefore hkey' hassigned⟩
          exact Bool.false_ne_true (hstuck.symm.trans hgives)
  · rw [h.own, if_neg hlive]
    refine List.mem_filter.mpr ⟨hx, ?_⟩
    rw [h.tasks, hbefore, Option.map_some, Option.filter_eq_some_iff] at htask
    rw [hbefore, Option.any_some]
    obtain ⟨hsame, hkept⟩ := htask
    have hkept' : keepTask now (if losesWorker settings g now task then released task else task) =
        keepTask now task := by split <;> rfl
    rw [← hkept', Option.some.inj hsame]
    exact hkept

end Inner

/-- While the operation is carried out, the worker stays registered for the role of the session,
none of its tasks of the session times out, and the binding does not expire. -/
def Event.Undisturbed (settings : Settings) (worker : String) (key : String × String) (g : Inner)
    (event : Event) (g' : Inner) : Prop :=
  g'.Serves worker key.1 ∧
    match event with
    | .call .sweep _ now => g.givesUp (stuckTasks settings g now) key worker = false ∧
        ∀ bound ∈ g.affinity.lookup key, now - bound.2 ≤ sessionAffinityTtl
    | _ => True

theorem pinned_effect {op : Op} {answer : Answer} (hexact : g.QueuesExact)
    (hg : g.Pinned worker key)
    (hperiod : Event.Undisturbed settings worker key g (.call op answer now) g')
    (h : Effect settings readValue now g op g') : g'.Pinned worker key := by
  cases h with
  | nothing => exact hg
  | queued _ _ _ hpending h => exact hg.queued hpending h
  | dealt h => exact hg.dealt hexact h
  | dealtLast h => exact hg.dealt hexact h
  | settled h => exact hg.settled h
  | forwarded _ _ _ _ _ _ hsettled _ h => exact (hg.settled hsettled).queued rfl h
  | registered h => exact hg.registered hperiod.1 h
  | dropped _ h => exact hg.dropped hexact hperiod.1 h
  | beaten h => exact hg.alike h
  | swept h => exact hg.swept hperiod.1 hperiod.2.1 hperiod.2.2 h

/-- Only polls assign tasks. -/
theorem assigns_effect {op : Op} {answer : Answer} {id : String}
    (h : Effect settings readValue now g op g') (hassigns : Assigns g g' id worker) :
    ∃ role n, g.Dealt worker now (g.batch worker role n) g' ∧ id ∈ g.batch worker role n ∧
      Event.taken g (.call op answer now) = g.batch worker role n := by
  obtain ⟨⟨before, hbefore, hpending⟩, task, htask, hassigned, hname⟩ := hassigns
  have hsame : g'.tasks.lookup id ≠ g.tasks.lookup id := by
    rw [htask, hbefore]
    rintro heq
    obtain rfl := Option.some.inj heq
    cases hassigned.symm.trans hpending
  have hdealt : ∀ {taker role : String} {n : Nat},
      g.Dealt taker now (g.batch taker role n) g' → id ∈ g.batch taker role n ∧ taker = worker := by
    intro taker role n h
    rcases h.task_of htask with ⟨_, hsame'⟩ | ⟨hid, _, _, rfl⟩
    · exact absurd (htask.trans hsame'.symm) hsame
    · exact ⟨hid, Option.some.inj hname⟩
  have hsettled : ∀ {g₁ : Inner}, g.Settled g₁ → g₁.tasks.lookup id ≠ some task := by
    intro g₁ h h₁
    exact hsame (htask.trans (h.tasks id task h₁ (by rw [hassigned]; rfl)).symm)
  cases h with
  | nothing => exact absurd rfl hsame
  | queued hfresh _ _ _ h =>
      refine absurd ((h.tasks id).trans (if_neg fun heq => ?_)) hsame
      cases (heq ▸ hfresh.task).symm.trans hbefore
  | @dealt role _ n _ h =>
      obtain ⟨hid, rfl⟩ := hdealt h
      exact ⟨role, n, h, hid, rfl⟩
  | @dealtLast role _ _ h =>
      obtain ⟨hid, rfl⟩ := hdealt h
      exact ⟨role, 1, h, hid, rfl⟩
  | settled h => exact absurd htask (hsettled h)
  | forwarded hfresh _ _ _ _ _ hs _ h =>
      rw [h.tasks] at htask
      split at htask
      · rename_i heq
        cases (heq ▸ hfresh.task).symm.trans hbefore
      · exact absurd htask (hsettled hs)
  | registered h => exact absurd (by rw [h.tasks]) hsame
  | dropped _ h =>
      rw [h.tasks, hbefore] at htask
      split at htask
      · obtain rfl := Option.some.inj htask
        cases hassigned
      · obtain rfl := Option.some.inj htask
        cases hassigned.symm.trans hpending
  | beaten h => exact absurd (h.tasks id) hsame
  | swept h =>
      rw [h.tasks, hbefore, Option.map_some, Option.filter_eq_some_iff] at htask
      obtain ⟨htask, _⟩ := htask
      split at htask
      · obtain rfl := Option.some.inj htask
        cases hassigned
      · obtain rfl := Option.some.inj htask
        cases hassigned.symm.trans hpending

theorem assigns_step {u v : World} {event : Event} {id : String} (hinv : u.QueuesInv)
    (hstep : Step settings readValue u event v) (hassigns : Assigns u.inner v.inner id worker) :
    ∃ now role n, u.inner.Dealt worker now (u.inner.batch worker role n) v.inner ∧
      id ∈ u.inner.batch worker role n ∧ event.taken u.inner = u.inner.batch worker role n := by
  cases hstep with
  | @call op now _ _ hfresh =>
      exact ⟨now, assigns_effect (exec_effect settings readValue op now hinv.exact fun id hid =>
        hinv.known.fresh (hfresh id hid)) hassigns⟩
  | rehash h =>
      obtain ⟨⟨before, hbefore, hpending⟩, task, htask, hassigned, _⟩ := hassigns
      obtain rfl := Option.some.inj ((h.lookup_tasks id ▸ htask).symm.trans hbefore)
      cases hassigned.symm.trans hpending

/-- **A session stays on the replica that took it** as long as the replica keeps it, if every other
live task of the session was taken in the same poll, waited for the replica already or was
assigned to it. -/
theorem session_stays_on_replica {clock : Instant} {events later : List Event} {u u' v v' : World}
    {take e : Event} {id id' worker worker' role session : String}
    (hbefore : RunFrom settings readValue clock events u)
    (htake : Step settings readValue u take u') (hassigns : Assigns u.inner u'.inner id worker)
    (hkey : u.inner.keyOf id = some (role, session)) (hserves : u.inner.Serves worker role)
    (hgathered : u.inner.Gathered worker (role, session) (take.taken u.inner))
    (hperiod : Run (fun s e t => Step settings readValue s e t ∧
      e.Undisturbed settings worker (role, session) s.inner t.inner) u' later v)
    (hstep : Step settings readValue v e v') (hassigns' : Assigns v.inner v'.inner id' worker')
    (hkey' : v.inner.keyOf id' = some (role, session)) : worker' = worker := by
  have hinv := queuesInv_run hbefore
  obtain ⟨now, r, n, hdealt, hid, htaken⟩ := assigns_step hinv htake hassigns
  have hpinned : u'.inner.Pinned worker (role, session) := by
    refine ⟨hserves.of_nodes (by rw [hdealt.nodes]), ?_, (htaken ▸ hgathered).dealt hdealt⟩
    rw [boundTo, hdealt.affinity, if_pos (List.mem_map.mpr ⟨id, hid, hkey⟩)]
    rfl
  have hlast : v.QueuesInv ∧ v.inner.Pinned worker (role, session) := by
    refine hperiod.invariant (P := fun v => v.QueuesInv ∧ v.inner.Pinned worker (role, session)) ?_
      ⟨queuesInv_step htake hinv, hpinned⟩
    rintro s e t ⟨hstep, hundisturbed⟩ ⟨hinv, hpinned⟩
    refine ⟨queuesInv_step hstep hinv, ?_⟩
    cases hstep with
    | call _ _ hfresh =>
        exact pinned_effect hinv.exact hpinned hundisturbed
          (exec_effect settings readValue _ _ hinv.exact fun id hid =>
            hinv.known.fresh (hfresh id hid))
    | rehash h => exact hpinned.alike h.alike
  obtain ⟨_, _, _, _, hid', _⟩ := assigns_step hlast.1 hstep hassigns'
  exact hlast.2.taker_eq hlast.1.exact hid' hkey'

/-- The replica that took the first task of a session takes the second one. -/
theorem session_stays_on_replica_second :
    let settings : Settings := ⟨fromSecs 120, fromSecs 15⟩
    let readValue : Bytes → Option Value := fun _ => none
    let u := (execAll settings readValue (World.start 0)
      [(.register "w" "a" [], 0), (.submit "t" "a" [] [] (some "s") 0, 0)]).2
    let u' := (execAll settings readValue u [(.poll "a" "w" 1, 0)]).2
    let v := (execAll settings readValue u' [(.submit "n" "a" [] [] (some "s") 0, 0)]).2
    let v' := (execAll settings readValue v [(.poll "a" "w" 1, 0)]).2
    Assigns v.inner v'.inner "n" "w" ∧
      ∀ worker, Assigns v.inner v'.inner "n" worker → worker = "w" := by
  intro settings readValue u u' v v'
  have hbefore := run_execAll settings readValue (World.start 0)
    [(.register "w" "a" [], 0), (.submit "t" "a" [] [] (some "s") 0, 0)] (by decide)
  have htake : Step settings readValue u
      (.call (.poll "a" "w" 1) (exec settings readValue (.poll "a" "w" 1) 0 u.inner).1 0) u' :=
    .call (le_refl _) trivial (by decide)
  have hsubmit : Step settings readValue u' (.call (.submit "n" "a" [] [] (some "s") 0)
      (exec settings readValue (.submit "n" "a" [] [] (some "s") 0) 0 u'.inner).1 0) v :=
    .call (le_refl _) (le_refl _) (by decide)
  have hstep : Step settings readValue v
      (.call (.poll "a" "w" 1) (exec settings readValue (.poll "a" "w" 1) 0 v.inner).1 0) v' :=
    .call (le_refl _) trivial (by decide)
  have hgathered : u.inner.Gathered "w" ("a", "s") ["t"] := by
    intro x task htask _
    rw [← AList.mem_entries_iff] at htask
    cases List.mem_singleton.mp htask
    exact ⟨fun _ => .inl List.mem_cons_self, fun h => nomatch h⟩
  refine ⟨⟨⟨_, rfl, rfl⟩, _, rfl, rfl, rfl⟩, fun worker hassigns => ?_⟩
  have hfirst : Assigns u.inner u'.inner "t" "w" := ⟨⟨_, rfl, rfl⟩, _, rfl, rfl, rfl⟩
  exact session_stays_on_replica hbefore htake hfirst rfl ⟨_, rfl, rfl⟩ hgathered (.single ⟨hsubmit, ⟨_, rfl, rfl⟩, trivial⟩) hstep hassigns rfl

/-- Two tasks of a session wait in the role queue. One replica takes the first, and at once another
one takes the second. -/
theorem session_split_between_replicas :
    ∃ events u u' v take e, RunFrom ⟨fromSecs 120, fromSecs 15⟩ (fun _ => none) 0 events u ∧
      Step ⟨fromSecs 120, fromSecs 15⟩ (fun _ => none) u take u' ∧
      Assigns u.inner u'.inner "t" "w" ∧ u.inner.keyOf "t" = some ("a", "s") ∧
      u.inner.Serves "w" "a" ∧
      Step ⟨fromSecs 120, fromSecs 15⟩ (fun _ => none) u' e v ∧
      Assigns u'.inner v.inner "n" "v" ∧ u'.inner.keyOf "n" = some ("a", "s") ∧
      v.inner.Serves "w" "a" :=
  ⟨_, _, _, _, .call (.poll "a" "w" 1) (.tasks [("t", [])]) 0,
    .call (.poll "a" "v" 1) (.tasks [("n", [])]) 0,
    run_execAll _ _ (World.start 0) [(.register "w" "a" [], 0), (.register "v" "a" [], 0),
      (.submit "t" "a" [] [] (some "s") 0, 0), (.submit "n" "a" [] [] (some "s") 0, 0)]
      (by decide),
    .call (le_refl _) trivial (by decide), ⟨⟨_, rfl, rfl⟩, _, rfl, rfl, rfl⟩, rfl, ⟨_, rfl, rfl⟩,
    .call (le_refl _) trivial (by decide), ⟨⟨_, rfl, rfl⟩, _, rfl, rfl, rfl⟩, rfl, ⟨_, rfl, rfl⟩⟩

end Distllm.Relay
