import Distllm.Line
import Distllm.RelayAgree
import Distllm.RelayRoles

/-! First come, first served. A role queue is a line: polls take from its front, tasks that are new
or given back come to its end, and finished or forgotten ones leave it. -/

namespace Distllm.Relay

open Relay.Inner Line

/-- The tasks that the relay hands out. -/
def Event.handed : Event → List String
  | .call _ (.tasks handed) _ => handed.map Prod.fst
  | _ => []

/-- Those of them that waited in the queue of the role. -/
def Event.takenFrom (role : String) (g : Inner) (event : Event) : List String :=
  event.handed.filter (· ∈ g.ofRole role)

/-- A poll for the role asks for more tasks than wait for the worker itself. -/
def Event.Reaches (role : String) (g : Inner) : Event → Prop
  | .call (.poll asked worker maxTasks) _ _ =>
    asked = role ∧ (g.ofWorker worker).length < max 1 maxTasks
  | .call (.pollDeadline asked worker) _ _ => asked = role ∧ (g.ofWorker worker).length < 1
  | _ => False

namespace Inner

variable {g g' : Inner} {now : Instant} {worker role asked x : String} {settings : Settings}
  {readValue : Bytes → Option Value}

theorem QueuesExact.nodup_ofRole (hg : g.QueuesExact) (role : String) : (g.ofRole role).Nodup := by
  have hwaiting := hg.nodup_waiting "" role
  rw [waiting_eq] at hwaiting
  exact (List.nodup_append.mp hwaiting).2.1

/-- Tasks in work do not wait. -/
theorem not_ofRole_of_assigned {task : Task} (htask : g.tasks.lookup x = some task)
    (hassigned : task.status = .assigned) : x ∉ g.ofRole role := by
  intro hx
  obtain ⟨_, htask', hpending⟩ := (mem_ofRole.mp hx).2
  obtain rfl := Option.some.inj (htask.symm.trans htask')
  cases hassigned.symm.trans hpending

/-! ### What a poll takes from the queue -/

theorem map_fst_withPayloads {ids : List String} (h : ∀ id ∈ ids, (g.tasks.lookup id).isSome = true) :
    (withPayloads g ids).map Prod.fst = ids := by
  induction ids with
  | nil => rfl
  | cons id rest ih =>
      obtain ⟨task, htask⟩ := Option.isSome_iff_exists.mp (h id List.mem_cons_self)
      have hrest := ih fun other hmem => h other (List.mem_cons_of_mem id hmem)
      rw [withPayloads] at hrest ⊢
      rw [List.filterMap_cons_some (by rw [htask, Option.map_some]), List.map_cons, hrest]

theorem map_fst_batch (g : Inner) (worker role : String) (n : Nat) :
    (withPayloads g (g.batch worker role n)).map Prod.fst = g.batch worker role n :=
  map_fst_withPayloads fun _ hx => batch_stored hx

/-- From the queue of its role a poll takes the first tasks, if it asks for more than the worker's
own. -/
theorem filter_batch (hg : g.QueuesExact) (worker role : String) (n : Nat) :
    (g.batch worker role n).filter (· ∈ g.ofRole role) =
      (g.ofRole role).take (max 1 n - (g.ofWorker worker).length) := by
  have hown : ((g.ofWorker worker).take (max 1 n)).filter (· ∈ g.ofRole role) = [] := by
    rw [List.filter_eq_nil_iff]
    intro x hx
    simpa using hg.not_ofRole_of_ofWorker (List.mem_of_mem_take hx)
  rw [batch, waiting_eq, List.take_append, List.filter_append, hown, List.nil_append,
    List.filter_eq_self]
  exact fun x hx => by simpa using List.mem_of_mem_take hx

/-- From the queue of another role it takes nothing. -/
theorem filter_batch_other (hg : g.QueuesExact) (worker : String) (n : Nat) (hne : asked ≠ role) :
    (g.batch worker asked n).filter (· ∈ g.ofRole role) = [] := by
  rw [List.filter_eq_nil_iff]
  intro x hx
  rw [decide_eq_true_iff]
  intro hrole
  rcases (batch_cases hx).2 with hown | hshared
  · exact hg.not_ofRole_of_ofWorker hown hrole
  · obtain ⟨task, htask, -⟩ := (mem_ofRole.mp hrole).2
    exact hne ((hg.role_of_ofRole hshared htask).symm.trans (hg.role_of_ofRole hrole htask))

theorem Dealt.moves (hg : g.QueuesExact) {n : Nat} (h : g.Dealt worker now (g.batch worker asked n) g')
    (role : String) : Moves (g.ofRole role) ((g.batch worker asked n).filter (· ∈ g.ofRole role))
      (g'.ofRole role) := by
  refine ⟨(g.ofRole role).filter (· ∉ g.batch worker asked n), [], ?_, ?_, nofun⟩
  · rw [List.append_nil]
    exact h.role role
  by_cases hrole : asked = role
  · subst hrole
    have htaken := filter_batch hg worker asked n
    generalize hcount : max 1 n - (g.ofWorker worker).length = k at htaken
    have hfront : ((g.ofRole asked).take k).filter (· ∉ g.batch worker asked n) = [] := by
      rw [List.filter_eq_nil_iff]
      intro x hx
      rw [← htaken] at hx
      simpa using List.mem_of_mem_filter hx
    have hrest : (g.ofRole asked).filter (· ∉ g.batch worker asked n) =
        ((g.ofRole asked).drop k).filter (· ∉ g.batch worker asked n) := by
      conv_lhs => rw [← List.take_append_drop k (g.ofRole asked), List.filter_append, hfront]
      exact List.nil_append _
    rw [htaken, hrest]
    conv_rhs => rw [← List.take_append_drop k (g.ofRole asked)]
    exact List.filter_sublist.append_left _
  · rw [filter_batch_other hg worker n hrole, List.nil_append]
    exact List.filter_sublist

/-! ### What the other operations do to the queue -/

theorem Settled.moves (h : g.Settled g') (role : String) :
    Moves (g.ofRole role) [] (g'.ofRole role) := by
  rw [ofRole, ofRole, h.roleQueues, Agree.pendingOf_settled h]
  exact .filter _ _

/-- A new task comes to the end of a line, or to none. -/
theorem Queued.ofRole {id : String} {task : Task} (h : g.Queued id task g') (role : String) :
    ∃ added, g'.ofRole role = g.ofRole role ++ added ∧ ∀ x ∈ added, x = id := by
  have hnone : ∃ added, g.ofRole role = g.ofRole role ++ added ∧ ∀ x ∈ added, x = id :=
    ⟨[], (List.append_nil _).symm, nofun⟩
  rcases h.place with ⟨_, _, _, _, _, _, hshared, _⟩ | ⟨_, _, hshared, _⟩
  · rw [hshared]
    exact hnone
  · rw [hshared]
    split
    · exact ⟨[id], rfl, fun x hx => List.mem_singleton.mp hx⟩
    · exact hnone

theorem Dropped.moves (hg : g.QueuesExact) (h : g.Dropped worker g') (role : String) :
    Moves (g.ofRole role) [] (g'.ofRole role) := by
  rw [h.ofRole hg]
  refine (Moves.refl _).append fun x hx => ?_
  rcases List.mem_append.mp (List.mem_of_mem_filter hx) with hheld | hown
  · obtain ⟨task, htask, hassigned, -⟩ := g.mem_assignedTo.mp hheld
    exact not_ofRole_of_assigned htask hassigned
  · exact hg.not_ofRole_of_ofWorker hown

/-- What the janitor gives back did not wait in the queue. -/
theorem sweep_moves (hg : g.QueuesExact) (role : String) :
    Moves (g.ofRole role) [] ((sweep settings g now).ofRole role) := by
  rw [ofRole_sweep hg]
  refine (Moves.filter _ _).append fun x hx => ?_
  rcases List.mem_append.mp (List.mem_of_mem_filter hx) with hleft | hstuck
  · obtain ⟨w, -, hw⟩ := List.mem_flatMap.mp (List.mem_of_mem_filter hleft)
    rcases List.mem_append.mp hw with hheld | hown
    · obtain ⟨task, htask, hassigned, -⟩ := g.mem_assignedTo.mp hheld
      exact not_ofRole_of_assigned htask hassigned
    · exact hg.not_ofRole_of_ofWorker hown
  · obtain ⟨task, htask, hassigned, -⟩ := mem_stuckTasks.mp (List.mem_of_mem_filter hstuck)
    exact not_ofRole_of_assigned htask hassigned

theorem Fresh.not_ofRole (h : g.Fresh x) : x ∉ g.ofRole role := by
  intro hx
  obtain ⟨task, htask, -⟩ := (mem_ofRole.mp hx).2
  cases h.task.symm.trans htask

/-- An operation that hands out nothing takes nothing from the queue. -/
theorem effect_moves {op : Op} (hg : g.QueuesExact) (h : Effect settings readValue now g op g')
    (hpoll : ∀ asked worker n, op ≠ .poll asked worker n)
    (hdeadline : ∀ asked worker, op ≠ .pollDeadline asked worker) (hsweep : op ≠ .sweep)
    (role : String) : Moves (g.ofRole role) [] (g'.ofRole role) := by
  cases h with
  | nothing => exact .refl _
  | queued hfresh _ _ _ h =>
      obtain ⟨added, hadded, hnew⟩ := h.ofRole role
      rw [hadded]
      exact (Moves.refl _).append fun x hx => hnew x hx ▸ hfresh.not_ofRole
  | dealt => exact absurd rfl (hpoll _ _ _)
  | dealtLast => exact absurd rfl (hdeadline _ _)
  | settled h => exact h.moves role
  | forwarded hfresh _ _ _ _ _ hsettled _ h =>
      obtain ⟨added, hadded, hnew⟩ := h.ofRole role
      rw [hadded]
      exact (hsettled.moves role).append fun x hx => hnew x hx ▸ hfresh.not_ofRole
  | registered h =>
      rw [h.shared]
      exact .refl _
  | dropped _ h => exact h.moves hg role
  | beaten h =>
      rw [h.ofRole]
      exact .refl _
  | swept => exact absurd rfl hsweep

/-- What an operation hands out of the queue is taken from its front. -/
theorem exec_moves (settings : Settings) (readValue : Bytes → Option Value) (op : Op) (now : Instant)
    (hg : g.QueuesExact) (hfresh : ∀ id ∈ op.drawn, g.Fresh id) (role : String) :
    Moves (g.ofRole role)
      ((Event.call op (exec settings readValue op now g).1 now).takenFrom role g)
      ((exec settings readValue op now g).2.ofRole role) := by
  have heffect := exec_effect settings readValue op now hg hfresh
  cases op with
  | poll asked worker maxTasks =>
      obtain ⟨hanswer, hdealt⟩ := poll_dealt hg asked worker maxTasks now
      have hmoves := hdealt.moves hg role
      rwa [← map_fst_batch, ← hanswer] at hmoves
  | pollDeadline asked worker =>
      obtain ⟨hanswer, hdealt⟩ := pollDeadline_dealt (g := g) asked worker now
      have hmoves := hdealt.moves hg role
      rwa [← map_fst_batch, ← hanswer] at hmoves
  | sweep => exact sweep_moves hg role
  | submit => exact effect_moves hg heffect nofun nofun nofun role
  | postResult => exact effect_moves hg heffect nofun nofun nofun role
  | postFailure => exact effect_moves hg heffect nofun nofun nofun role
  | register => exact effect_moves hg heffect nofun nofun nofun role
  | deregister => exact effect_moves hg heffect nofun nofun nofun role
  | heartbeat => exact effect_moves hg heffect nofun nofun nofun role

/-- A poll that reaches a queue with waiting tasks hands out the first of them. -/
theorem head_takenFrom {op : Op} (hg : g.QueuesExact)
    (hreaches : (Event.call op (exec settings readValue op now g).1 now).Reaches role g) :
    ((Event.call op (exec settings readValue op now g).1 now).takenFrom role g).head? =
      (g.ofRole role).head? := by
  have hfirst : ∀ {worker : String} {n : Nat}, (g.ofWorker worker).length < max 1 n →
      ((g.batch worker role n).filter (· ∈ g.ofRole role)).head? = (g.ofRole role).head? := by
    intro worker n hroom
    rw [filter_batch hg]
    cases g.ofRole role with
    | nil => rw [List.take_nil]
    | cons x rest =>
        obtain ⟨k, hk⟩ := Nat.exists_eq_succ_of_ne_zero (Nat.sub_ne_zero_of_lt hroom)
        rw [hk, List.take_succ_cons, List.head?_cons, List.head?_cons]
  cases op with
  | poll asked worker maxTasks =>
      obtain ⟨rfl, hroom⟩ := hreaches
      have hhead := hfirst hroom
      rwa [← map_fst_batch, ← (poll_dealt hg asked worker maxTasks now).1] at hhead
  | pollDeadline asked worker =>
      obtain ⟨rfl, hroom⟩ := hreaches
      have hhead := hfirst (n := 1) hroom
      rwa [← map_fst_batch, ← (pollDeadline_dealt asked worker now).1] at hhead
  | submit | postResult | postFailure | register | deregister | heartbeat | sweep =>
      exact hreaches.elim

end Inner

variable {settings : Settings} {readValue : Bytes → Option Value} {role x : String}

/-- A step after which the task still waits in the queue, with what is handed out of the queue. -/
def Waits (settings : Settings) (readValue : Bytes → Option Value) (role x : String) (u : World)
    (label : Event × List String) (v : World) : Prop :=
  Step settings readValue u label.1 v ∧ label.2 = label.1.takenFrom role u.inner ∧
    x ∈ v.inner.ofRole role

theorem step_moves {u v : World} {event : Event} (hinv : u.QueuesInv)
    (hstep : Step settings readValue u event v) (role : String) :
    Moves (u.inner.ofRole role) (event.takenFrom role u.inner) (v.inner.ofRole role) := by
  cases hstep with
  | @call op now _ _ hfresh =>
      exact exec_moves settings readValue op now hinv.exact
        (fun id hid => hinv.known.fresh (hfresh id hid)) role
  | rehash h =>
      have hsame : _ = u.inner.ofRole role := h.alike.ofRole role
      rw [hsame]
      exact .refl _

/-- **First come, first served.** While a task waits in its role's queue, all that is handed out of
this queue, in order and each task once, was ahead of it from the beginning; so at most as many
answers go by as tasks were ahead of it. The next poll that reaches the queue hands out the first
of those that are left, or the task itself. -/
theorem first_come_first_served {clock : Instant} {events : List Event} {u v : World}
    {later : List (Event × List String)} {ahead behind : List String}
    (hrun : RunFrom settings readValue clock events u)
    (hline : u.inner.ofRole role = ahead ++ x :: behind)
    (hlater : Run (Waits settings readValue role x) u later v) :
    ∃ ahead' behind', v.inner.ofRole role = ahead' ++ x :: behind' ∧
      (later.flatMap Prod.snd ++ ahead').Sublist ahead ∧
      later.countP (fun label => !label.2.isEmpty) + ahead'.length ≤ ahead.length ∧
      ∀ event w, Step settings readValue v event w → event.Reaches role v.inner →
        (event.takenFrom role v.inner).head? = (ahead' ++ [x]).head? := by
  obtain ⟨hinv, ahead', behind', hplace, hsub⟩ := ahead_run World.QueuesInv hlater
    (fun hstep => queuesInv_step hstep.1) (fun hinv => hinv.exact.nodup_ofRole role)
    (fun hstep hinv => ⟨hstep.2.1 ▸ step_moves hinv hstep.1 role, hstep.2.2⟩) (queuesInv_run hrun) hline
  refine ⟨ahead', behind', hplace, hsub, ?_, fun event w hstep hreaches => ?_⟩
  · have hcount := countP_taken_le later
    have hlength := hsub.length_le
    rw [List.length_append] at hlength
    omega
  · have hfirst : (v.inner.ofRole role).head? = (ahead' ++ [x]).head? := by
      rw [hplace]
      cases ahead' <;> rfl
    rw [← hfirst]
    cases hstep with
    | call => exact head_takenFrom hinv.exact hreaches
    | rehash => exact hreaches.elim

/-- Of two tasks the first is handed out; the second is next. -/
theorem first_come_first_served_second :
    let settings : Settings := ⟨fromSecs 120, fromSecs 15⟩
    let u := (execAll settings (fun _ => none) (World.start 0)
      [(.submit "a" "head" [] [] none 0, 0), (.submit "b" "head" [] [] none 0, 0)]).2
    let v := (execAll settings (fun _ => none) u [(.poll "head" "w" 1, 0)]).2
    Waits settings (fun _ => none) "head" "b" u (.call (.poll "head" "w" 1) (.tasks [("a", [])]) 0, ["a"]) v ∧
      ∀ event w, Step settings (fun _ => none) v event w → event.Reaches "head" v.inner →
        (event.takenFrom "head" v.inner).head? = some "b" := by
  intro settings u v
  have hrun : RunFrom settings (fun _ => none) 0 _ u := run_execAll _ _ (World.start 0)
    [(.submit "a" "head" [] [] none 0, 0), (.submit "b" "head" [] [] none 0, 0)] (by decide)
  have hpolled : Waits settings (fun _ => none) "head" "b" u
      (.call (.poll "head" "w" 1) (.tasks [("a", [])]) 0, ["a"]) v :=
    ⟨.call (by decide) (by decide) (by decide), by decide, by decide⟩
  have hline : u.inner.ofRole "head" = ["a"] ++ "b" :: [] := by decide
  obtain ⟨ahead', behind', -, hsub, -, hnext⟩ :=
    first_come_first_served hrun hline (.single hpolled)
  refine ⟨hpolled, fun event w hstep hreaches => ?_⟩
  have hnobody : ahead' = [] := by
    have hlength := hsub.length_le
    simp only [List.flatMap_singleton, List.length_append, List.length_singleton] at hlength
    exact List.eq_nil_of_length_eq_zero (by omega)
  rw [hnext event w hstep hreaches, hnobody]
  rfl

end Distllm.Relay
