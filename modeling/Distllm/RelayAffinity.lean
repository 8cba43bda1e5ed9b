import Distllm.RelayRoles

/-! Whether queued session tasks follow the binding of their session. A task is put into a
worker's own queue because its session is bound to the worker, but the binding can be given up,
dropped, rewritten or expire while the task waits there, and only the tasks of a node that goes
away are moved. -/

namespace Distllm.Relay

open Relay.Inner

variable {settings : Settings} {readValue : Bytes → Option Value} {g g' : Inner} {now : Instant}

namespace Inner

/-- What waits in a worker's own queue belongs to a session that is bound to the worker. -/
def FollowsBinding (g : Inner) : Prop :=
  ∀ worker, ∀ x ∈ g.ofWorker worker, ∃ key, g.keyOf x = some key ∧ g.boundTo key = some worker

theorem boundTo_congr {key : String × String}
    (h : g'.affinity.lookup key = g.affinity.lookup key) : g'.boundTo key = g.boundTo key := by
  rw [boundTo, boundTo, h]

/-- Fewer ids in the own queues, and their bindings stay. -/
theorem FollowsBinding.of_le (hg : g.FollowsBinding)
    (hown : ∀ w, ∀ x ∈ g'.ofWorker w, x ∈ g.ofWorker w ∧ g'.keyOf x = g.keyOf x)
    (hbound : ∀ w, ∀ x ∈ g'.ofWorker w, ∀ key, g.keyOf x = some key → g.boundTo key = some w →
      g'.boundTo key = some w) : g'.FollowsBinding := by
  intro w x hx
  obtain ⟨hmem, hkeyOf⟩ := hown w x hx
  obtain ⟨key, hkey, hto⟩ := hg w x hmem
  exact ⟨key, hkeyOf.trans hkey, hbound w x hx key hkey hto⟩

theorem FollowsBinding.alike (hg : g.FollowsBinding) (h : g.Alike g') : g'.FollowsBinding :=
  hg.of_le (fun w x hx => ⟨h.ofWorker w ▸ hx, keyOf_congr (h.tasks x)⟩)
    fun _ _ _ key _ hto => (boundTo_congr (h.affinity key)).trans hto

theorem FollowsBinding.settled (hg : g.FollowsBinding) (h : g.Settled g') : g'.FollowsBinding :=
  hg.of_le (fun w x hx => ⟨h.ofWorker w hx, h.keyOf (mem_ofWorker.mp hx).2⟩)
    fun _ _ _ _ _ hto => (boundTo_congr (by rw [h.affinity])).trans hto

/-- A new task drops the binding of its session only where the bound worker does not serve the
role; then no task of the session may wait for that worker. -/
theorem FollowsBinding.queued {id : String} {task : Task} (hg : g.FollowsBinding)
    (hfresh : g.tasks.lookup id = none)
    (hkeeps : ∀ s w, task.session = some s → g.boundTo (task.targetRole, s) = some w →
      ¬g.Serves w task.targetRole → ∀ x ∈ g.ofWorker w, g.keyOf x ≠ some (task.targetRole, s))
    (h : g.Queued id task g') : g'.FollowsBinding := by
  have hkeyOf : ∀ w, ∀ x ∈ g.ofWorker w, g'.keyOf x = g.keyOf x := by
    intro w x hx
    refine keyOf_congr ((h.tasks x).trans (if_neg fun heq => ?_))
    obtain ⟨t, ht, _⟩ := (mem_ofWorker.mp hx).2
    cases (heq ▸ hfresh).symm.trans ht
  rcases h.place with ⟨worker, s, hserves, hsession, hto, hown, _, haffinity⟩ |
    ⟨hfree, hown, _, haffinity⟩
  · have hold : ∀ w, ∀ x ∈ g.ofWorker w, ∃ key, g'.keyOf x = some key ∧
        g'.boundTo key = some w := by
      intro w x hx
      obtain ⟨key, hkey, hbound⟩ := hg w x hx
      exact ⟨key, (hkeyOf w x hx).trans hkey, (boundTo_congr (haffinity key)).trans hbound⟩
    intro w x hx
    rw [hown] at hx
    split at hx
    · rename_i hw
      rcases List.mem_append.mp hx with hx | hx
      · exact hold w x hx
      · refine ⟨(task.targetRole, s), ?_, ?_⟩
        · exact keyOf_eq_some.mpr ⟨task, by rw [h.tasks, if_pos (List.mem_singleton.mp hx)], rfl,
            hsession⟩
        · rw [boundTo_congr (haffinity _), hto, hw]
    · exact hold w x hx
  · refine hg.of_le (fun w x hx => ?_) fun w x hx key hkey hto => ?_
    · rw [hown] at hx
      exact ⟨hx, hkeyOf w x hx⟩
    · rw [hown] at hx
      refine (boundTo_congr ((haffinity key).trans (if_neg fun hsame => ?_))).trans hto
      obtain ⟨s, hsession, rfl⟩ := Option.map_eq_some_iff.mp hsame
      exact hkeeps s w hsession hto (fun hserves => hfree w s hserves hsession hto) x hx hkey

/-- Taking a task of a session from the role queue binds the session anew: then no task of the
session may wait for the worker it was bound to. -/
theorem FollowsBinding.dealt {worker role : String} {n : Nat}
    (hg : g.FollowsBinding)
    (hkeeps : ∀ id ∈ g.batch worker role n, ∀ key ∈ g.keyOf id, ∀ w ∈ g.boundTo key,
      w ≠ worker → ∀ x ∈ g.ofWorker w, g.keyOf x ≠ some key)
    (h : g.Dealt worker now (g.batch worker role n) g') : g'.FollowsBinding := by
  refine hg.of_le (fun w x hx => ?_) fun w x hx key hkey hto => ?_
  · rw [ofWorker, h.own, List.mem_filter] at hx
    exact ⟨hx.1, h.keyOf x⟩
  · rw [ofWorker, h.own, List.mem_filter] at hx
    by_cases hbatch : some key ∈ (g.batch worker role n).map g.keyOf
    · obtain ⟨id, hid, hkeyOf⟩ := List.mem_map.mp hbatch
      by_cases hw : w = worker
      · rw [boundTo, h.affinity, if_pos hbatch, hw]
        rfl
      · exact absurd hkey (hkeeps id hid key hkeyOf w hto hw x hx.1)
    · rw [boundTo, h.affinity, if_neg hbatch]
      exact hto

theorem FollowsBinding.dropped {worker : String} (hexact : g.QueuesExact) (hg : g.FollowsBinding)
    (h : g.Dropped worker g') : g'.FollowsBinding := by
  refine hg.of_le (fun w x hx => ⟨(h.of_mem_ofWorker hexact hx).2, ?_⟩)
    fun w x hx key _ hto => ?_
  · rw [keyOf, keyOf, h.tasks]
    split
    · cases g.tasks.lookup x <;> rfl
    · rfl
  · obtain ⟨used, hlookup⟩ := g.boundTo_eq_some.mp hto
    refine g'.boundTo_eq_some.mpr ⟨used, ?_⟩
    rw [h.affinity, hlookup, Option.filter_some,
      if_pos (bne_iff_ne.mpr (h.of_mem_ofWorker hexact hx).1)]

/-- A claim never takes a session from a registered worker, and only registered workers have
tasks waiting for them. -/
theorem FollowsBinding.registered {nodeId role : String} {sessions : List String}
    (hexact : g.QueuesExact) (hg : g.FollowsBinding)
    (h : g.Registered nodeId role sessions now g') : g'.FollowsBinding := by
  refine hg.of_le (fun w x hx => ?_) fun w x hx key _ hto => ?_
  · rw [h.own] at hx
    exact ⟨hx, keyOf_congr (by rw [h.tasks])⟩
  · rw [h.own] at hx
    obtain ⟨used, hlookup⟩ := g.boundTo_eq_some.mp hto
    have hclaimed : g.claimed key = true := by
      rw [claimed, hlookup, Option.any_some]
      exact hexact.registered_of_ofWorker hx
    refine (boundTo_congr ((h.affinity key).trans (if_neg ?_))).trans hto
    rw [hclaimed]
    rintro ⟨_, hfalse⟩
    cases hfalse

/-- The janitor gives up the binding of a timed-out task and drops idle bindings: then no task of
the session that it keeps may wait for the worker. -/
theorem FollowsBinding.swept (hg : g.FollowsBinding)
    (hkeeps : ∀ key, ∀ bound ∈ g.affinity.lookup key, bound.1 ∉ deadNodes settings g now →
      g.givesUp (stuckTasks settings g now) key bound.1 = true ∨
        now - bound.2 > sessionAffinityTtl →
      ∀ x ∈ g.ofWorker bound.1, g.keyOf x = some key →
        (g.tasks.lookup x).any (keepTask now) = false)
    (h : g.Swept settings now g') : g'.FollowsBinding := by
  refine hg.of_le (fun w x hx => ⟨(h.of_mem_ofWorker hx).2.1, ?_⟩) fun w x hx key hkey hto => ?_
  · obtain ⟨_, _, task, htask, _, hafter⟩ := h.of_mem_ofWorker hx
    rw [keyOf, keyOf, hafter, htask, Option.bind_some, Option.bind_some]
    split <;> rfl
  · obtain ⟨hw, hown, task, htask, hkept, _⟩ := h.of_mem_ofWorker hx
    obtain ⟨used, hlookup⟩ := g.boundTo_eq_some.mp hto
    refine g'.boundTo_eq_some.mpr ⟨used, ?_⟩
    rw [h.affinity, hlookup, Option.filter_some, if_pos]
    by_contra hlost
    have hgone := hkeeps key (w, used) hlookup hw (by
      by_contra hnot
      rw [not_or, Bool.not_eq_true, Nat.not_lt] at hnot
      apply hlost
      rw [hnot.1, decide_eq_true hw, decide_eq_true hnot.2]
      rfl) x hown hkey
    rw [htask, Option.any_some, hkept] at hgone
    cases hgone

instance (g : Inner) (worker role : String) : Decidable (g.Serves worker role) :=
  decidable_of_iff ((g.nodes.lookup worker).any (fun node => node.role == role) = true) (by
    simp only [Option.any_eq_true, beq_iff_eq, Serves])

end Inner

/-- The operation drops or rewrites no binding of a session that a worker has a task waiting for:
a submission or a forwarded result finds the bound worker serving the role, or without pending
tasks of the session; a poll takes no task of a session of which one waits for another worker; and
the janitor gives up or expires no binding to a live worker for which a task of the session that it
keeps is waiting. -/
def Event.KeepsBinding (settings : Settings) (readValue : Bytes → Option Value) (g : Inner) :
    Event → Prop
  | .call (.submit _ role _ _ session _) _ _ => ∀ s ∈ session, ∀ w ∈ g.boundTo (role, s),
      ¬g.Serves w role → ∀ x ∈ g.ofWorker w, g.keyOf x ≠ some (role, s)
  | .call (.postResult taskId workerId stopChain body _) _ _ =>
      ∀ task ∈ g.tasks.lookup taskId, task.status.finished = false →
        checkWorker task workerId = true → stopsChain readValue body stopChain = false →
        ∀ nextRole ∈ task.route.head?, ∀ s ∈ task.session, ∀ w ∈ g.boundTo (nextRole, s),
          ¬g.Serves w nextRole → ∀ x ∈ g.ofWorker w, g.keyOf x = some (nextRole, s) → x = taskId
  | .call (.poll role worker maxTasks) _ _ => ∀ id ∈ g.batch worker role maxTasks,
      ∀ key ∈ g.keyOf id, ∀ w ∈ g.boundTo key, w ≠ worker → ∀ x ∈ g.ofWorker w, g.keyOf x ≠ some key
  | .call (.pollDeadline role worker) _ _ => ∀ id ∈ g.batch worker role 1,
      ∀ key ∈ g.keyOf id, ∀ w ∈ g.boundTo key, w ≠ worker → ∀ x ∈ g.ofWorker w, g.keyOf x ≠ some key
  | .call .sweep _ now => ∀ key, ∀ bound ∈ g.affinity.lookup key,
      bound.1 ∉ deadNodes settings g now →
      g.givesUp (stuckTasks settings g now) key bound.1 = true ∨
        now - bound.2 > sessionAffinityTtl →
      ∀ x ∈ g.ofWorker bound.1, g.keyOf x = some key →
        (g.tasks.lookup x).any (keepTask now) = false
  | _ => True

theorem followsBinding_effect {op : Op} {answer : Answer} (hexact : g.QueuesExact)
    (hg : g.FollowsBinding)
    (hkeeps : Event.KeepsBinding settings readValue g (.call op answer now))
    (h : Effect settings readValue now g op g') : g'.FollowsBinding := by
  cases h with
  | nothing => exact hg
  | queued hfresh hrole hsession _ h =>
      refine hg.queued hfresh.task (fun s w hs hto hserves => ?_) h
      rw [hrole] at hto hserves ⊢
      exact hkeeps s (hsession ▸ hs) w hto hserves
  | dealt h => exact hg.dealt hkeeps h
  | dealtLast h => exact hg.dealt hkeeps h
  | settled h => exact hg.settled h
  | @forwarded taskId _ _ _ _ nextRole _ task g₁ _ hfresh htask hlive hworker hroute hstops
      hsettled hdone h =>
      refine (hg.settled hsettled).queued (hsettled.absent _ hfresh.task)
        (fun s w hs hto hserves x hx hkey => ?_) h
      have hpending := (mem_ofWorker.mp hx).2
      -- the forwarded task itself is pending no longer
      have hsame : x = taskId := by
        refine hkeeps task htask hlive hworker hstops nextRole (by rw [hroute]; rfl) s hs w ?_
          (fun hs => hserves ?_) x (hsettled.ofWorker w hx) ?_
        · exact (boundTo_congr (by rw [hsettled.affinity])).symm.trans hto
        · exact hs.of_nodes (by rw [hsettled.nodes])
        · exact (hsettled.keyOf hpending).symm.trans hkey
      exact hdone (hsame ▸ hpending)
  | registered h => exact hg.registered hexact h
  | dropped _ h => exact hg.dropped hexact h
  | beaten h => exact hg.alike h
  | swept h => exact hg.swept hkeeps h

/-- **Queued session tasks follow their binding**, in every run whose operations drop or rewrite no
binding of a session that a worker has a task waiting for. -/
theorem queued_tasks_follow_binding {clock : Instant} {events : List Event} {w : World}
    (hrun : Run (fun u e v => Step settings readValue u e v ∧
      e.KeepsBinding settings readValue u.inner) (World.start clock) events w)
    {worker id : String} {task : Task} (hqueued : id ∈ w.inner.workerQueues.queue worker)
    (htask : w.inner.tasks.lookup id = some task) (hpending : task.status = .pending) :
    ∃ session used, task.session = some session ∧
      w.inner.affinity.lookup (task.targetRole, session) = some (worker, used) := by
  have hboth : w.QueuesInv ∧ w.inner.FollowsBinding := by
    refine hrun.invariant (P := fun w => w.QueuesInv ∧ w.inner.FollowsBinding) ?_
      ⟨queuesInv_start clock, fun worker x hx => nomatch hx⟩
    rintro u e v ⟨hstep, hkeeps⟩ ⟨hinv, hfollows⟩
    refine ⟨queuesInv_step hstep hinv, ?_⟩
    cases hstep with
    | call _ _ hfresh =>
        exact followsBinding_effect hinv.exact hfollows hkeeps
          (exec_effect settings readValue _ _ hinv.exact fun id hid =>
            hinv.known.fresh (hfresh id hid))
    | rehash h => exact hfollows.alike h.alike
  obtain ⟨key, hkey, hto⟩ := hboth.2 worker id (mem_ofWorker.mpr ⟨hqueued, task, htask, hpending⟩)
  obtain ⟨task', htask', hrole, hsession⟩ := keyOf_eq_some.mp hkey
  obtain rfl := Option.some.inj (htask.symm.trans htask')
  obtain ⟨used, hbound⟩ := w.inner.boundTo_eq_some.mp hto
  exact ⟨key.2, used, hsession, by rw [hrole]; exact hbound⟩

/-- The second task of a session waits for the worker that took the first. -/
theorem queued_tasks_follow_binding_session :
    let settings : Settings := ⟨fromSecs 120, fromSecs 15⟩
    let w := (execAll settings (fun _ => none) (World.start 0) [(.register "w" "a" [], 0),
      (.submit "t" "a" [] [] (some "s") 0, 0), (.poll "a" "w" 1, 0),
      (.submit "u" "a" [] [] (some "s") 0, 0)]).2
    "u" ∈ w.inner.workerQueues.queue "w" ∧
      ∃ used, w.inner.affinity.lookup ("a", "s") = some ("w", used) := by
  intro settings w
  have hkeeps : Along settings (fun _ => none)
      (fun g e => e.KeepsBinding settings (fun _ => none) g) (World.start 0)
      [(.register "w" "a" [], 0), (.submit "t" "a" [] [] (some "s") 0, 0), (.poll "a" "w" 1, 0),
        (.submit "u" "a" [] [] (some "s") 0, 0)] := by
    refine ⟨trivial, ?_, ?_, ?_, trivial⟩ <;> (simp only [Event.KeepsBinding]; decide)
  have hrun := run_along (by decide) hkeeps
  have hqueued : "u" ∈ w.inner.workerQueues.queue "w" := by decide
  obtain ⟨s, used, hs, hbound⟩ := queued_tasks_follow_binding hrun hqueued rfl rfl
  obtain rfl := Option.some.inj hs
  exact ⟨hqueued, used, hbound⟩

/-- A pending task waits for a worker that its session is not bound to. -/
def Inner.StaysBehind (g : Inner) (worker id : String) : Prop :=
  id ∈ g.ofWorker worker ∧ ∀ key ∈ g.keyOf id, g.boundTo key ≠ some worker

/-- A task of the session stays behind when another one times out; when the binding expires; when
another replica takes a task of the session from the role queue; and when the worker has registered
for another role. -/
theorem tasks_stay_behind :
    (∃ events w, RunFrom ⟨fromSecs 120, fromSecs 15⟩ (fun _ => none) 0 events w ∧
      w.inner.StaysBehind "w" "u" ∧ w.inner.boundTo ("a", "s") = none) ∧
    (∃ events w, RunFrom ⟨fromSecs 120, fromSecs 15⟩ (fun _ => none) 0 events w ∧
      w.inner.StaysBehind "w" "u" ∧ w.inner.boundTo ("a", "s") = none) ∧
    (∃ events w, RunFrom ⟨fromSecs 120, fromSecs 15⟩ (fun _ => none) 0 events w ∧
      w.inner.StaysBehind "w" "u" ∧ w.inner.boundTo ("a", "s") = some "v") ∧
    ∃ events w, RunFrom ⟨fromSecs 120, fromSecs 15⟩ (fun _ => none) 0 events w ∧
      w.inner.StaysBehind "w" "u" ∧ w.inner.boundTo ("a", "s") = none := by
  refine ⟨?_, ?_, ?_, ?_⟩
  · exact ⟨_, _, run_execAll _ _ (World.start 0) [(.register "w" "a" [], 0),
      (.submit "t" "a" [] [] (some "s") 0, 0), (.poll "a" "w" 1, 0),
      (.submit "u" "a" [] [] (some "s") 0, 0), (.heartbeat "w", fromSecs 121),
      (.sweep, fromSecs 121)] (by decide), by unfold Inner.StaysBehind; decide, by decide⟩
  · exact ⟨_, _, run_execAll _ _ (World.start 0) [(.register "w" "a" [], 0),
      (.submit "t" "a" [] [] (some "s") 0, 0), (.poll "a" "w" 1, 0),
      (.postResult "t" (some "w") false [] "x", 0), (.submit "u" "a" [] [] (some "s") 0, 0),
      (.heartbeat "w", fromSecs 901), (.sweep, fromSecs 901)] (by decide),
      by unfold Inner.StaysBehind; decide, by decide⟩
  · exact ⟨_, _, run_execAll _ _ (World.start 0) [(.register "w" "a" [], 0),
      (.register "v" "a" [], 0), (.submit "t" "a" [] [] (some "s") 0, 0),
      (.submit "t2" "a" [] [] (some "s") 0, 0), (.poll "a" "w" 1, 0),
      (.submit "u" "a" [] [] (some "s") 0, 0), (.poll "a" "v" 1, 0)] (by decide),
      by unfold Inner.StaysBehind; decide, by decide⟩
  · exact ⟨_, _, run_execAll _ _ (World.start 0) [(.register "w" "a" [], 0),
      (.submit "t" "a" [] [] (some "s") 0, 0), (.poll "a" "w" 1, 0),
      (.submit "u" "a" [] [] (some "s") 0, 0), (.register "w" "b" [], 0),
      (.submit "x" "a" [] [] (some "s") 0, 0)] (by decide),
      by unfold Inner.StaysBehind; decide, by decide⟩

end Distllm.Relay
