import Distllm.RelayChains
import Distllm.RelaySessions

/-! A task is lent to the worker that took it. Until its time is up nobody else is given the task, and
what the worker uploads for it is accepted, whatever else the relay does meanwhile. -/

namespace Distllm.Relay

open Relay.Inner

variable {settings : Settings} {readValue : Bytes → Option Value} {g g' : Inner} {now since : Instant}
  {id worker : String} {task : Task} {op : Op} {answer : Answer}

/-- The worker has had the task since then. -/
structure Inner.Leased (g : Inner) (id worker : String) (since : Instant) (task : Task) : Prop where
  stored : g.tasks.lookup id = some task
  assigned : task.status = .assigned
  holder : task.workerId = some worker
  taken : task.assignedAt = some since

/-- What the worker uploads for the task. -/
inductive UploadsFor (id worker : String) : Op → Prop where
  | result (stopChain : Bool) (body : Bytes) (next : String) :
      UploadsFor id worker (.postResult id (some worker) stopChain body next)
  | failure (message : String) : UploadsFor id worker (.postFailure id (some worker) message)

/-- The operation does not end the lease: it is no upload of the worker, the worker does not leave,
and whenever the janitor looks, the worker has been heard from, and neither the lease nor the task
has lasted too long. -/
def Op.KeepsLease (settings : Settings) (id worker : String) (since now : Instant) (g : Inner) :
    Op → Prop
  | .postResult taskId workerId _ _ _ => taskId = id → workerId ≠ some worker
  | .postFailure taskId workerId _ => taskId = id → workerId ≠ some worker
  | .deregister nodeId => nodeId ≠ worker
  | .sweep => now - since ≤ settings.taskTimeout ∧ worker ∉ deadNodes settings g now ∧
      ∀ task, g.tasks.lookup id = some task → now - task.createdAt ≤ danglingTtl
  | _ => True

def Event.KeepsLease (settings : Settings) (id worker : String) (since : Instant) (g : Inner) :
    Event → Prop
  | .call op _ now => op.KeepsLease settings id worker since now g
  | .rehash => True

/-- What the relay answers to an upload that it accepts. -/
def Task.answerTo (readValue : Bytes → Option Value) (task : Task) : Op → String
  | .postResult _ _ stopChain body _ =>
    if task.route = [] ∨ stopsChain readValue body stopChain = true then "ok" else "forwarded"
  | _ => "ok"

/-- What the client of the chain is told when an upload has ended it. -/
def Op.verdict : Op → ResultView
  | .postResult _ _ _ body _ => .completed body
  | .postFailure _ _ message => .failed (cutError message)
  | _ => .notFound

namespace Inner.Leased

theorem live (h : g.Leased id worker since task) : task.status.finished = false := by
  rw [h.assigned]
  rfl

theorem checkWorker_iff (h : g.Leased id worker since task) (workerId : Option String) :
    checkWorker task workerId = true ↔ workerId = some worker := by
  rw [checkWorker, h.holder]
  exact beq_iff_eq

theorem of_lookup (h : g.Leased id worker since task)
    (hsame : g'.tasks.lookup id = g.tasks.lookup id) : g'.Leased id worker since task :=
  ⟨hsame.trans h.stored, h.assigned, h.holder, h.taken⟩

/-- Finishing another live task does not reach this one: their chains have one live step each. -/
theorem finish (h : g.Leased id worker since task) {clock : Instant}
    (hchains : g.ledger.ChainsInv clock) {taskId : String} {other : Task}
    (hother : g.tasks.lookup taskId = some other) (hlive : other.status.finished = false)
    (hne : taskId ≠ id) (status : Status) (result : Option Bytes) (error : Option String) :
    (g.finish taskId status result error now).Leased id worker since task := by
  obtain ⟨tasks, hfinish, hlookup⟩ := g.finish_of_lookup status result error now hother
  apply h.of_lookup
  rw [hfinish, hlookup, if_neg]
  rintro (heq | hroot)
  · exact hne heq.symm
  · have hstored : g.ledger other.rootId = some task := hroot ▸ h.stored
    have hsame := (hchains.root taskId other hother task hstored).1
    exact hne (hchains.unique other.rootId id taskId ⟨task, h.stored, hsame, h.live⟩
      ⟨other, hother, rfl, hlive⟩)

/-- Polls hand out what waits. -/
theorem dealt (h : g.Leased id worker since task) {taker role : String} {n : Nat}
    (hdealt : g.Dealt taker now (g.batch taker role n) g') : g'.Leased id worker since task := by
  apply h.of_lookup
  rw [hdealt.tasks, if_neg]
  intro hid
  obtain ⟨other, hother, hpending⟩ := (batch_cases hid).1
  obtain rfl := Option.some.inj (h.stored.symm.trans hother)
  cases h.assigned.symm.trans hpending

/-- A new task is not this one. -/
theorem enqueue (h : g.Leased id worker since task) {next : String} (hne : next ≠ id)
    (new : Task) : (g.enqueue next new).Leased id worker since task := by
  apply h.of_lookup
  rw [enqueue_tasks, AList.lookup_insert_ne hne.symm]

theorem ne_of_fresh (h : g.Leased id worker since task) {next : String} (hfresh : g.Fresh next) :
    next ≠ id := by
  rintro rfl
  cases hfresh.task.symm.trans h.stored

/-- A lease goes on through every operation that does not end it. -/
theorem exec (h : g.Leased id worker since task) (hexact : g.QueuesExact) {clock : Instant}
    (hchains : g.ledger.ChainsInv clock) (hfresh : ∀ next ∈ op.drawn, g.Fresh next)
    (hkeeps : op.KeepsLease settings id worker since now g) :
    (Relay.exec settings readValue op now g).2.Leased id worker since task := by
  cases op with
  | submit taskId targetRole body route session createdAt =>
      exact h.enqueue (h.ne_of_fresh (hfresh taskId List.mem_cons_self)) _
  | poll role taker maxTasks => exact h.dealt (poll_dealt hexact role taker maxTasks now).2
  | pollDeadline role taker => exact h.dealt (pollDeadline_dealt role taker now).2
  | postResult taskId workerId stopChain body next =>
      have hother : ∀ {other : Task}, g.tasks.lookup taskId = some other →
          checkWorker other workerId = true → taskId ≠ id := by
        rintro other hstored hcheck rfl
        obtain rfl := Option.some.inj (h.stored.symm.trans hstored)
        exact hkeeps rfl ((h.checkWorker_iff workerId).mp hcheck)
      rcases postResult_cases readValue g taskId workerId stopChain body next now with
        ⟨_, _, hpost⟩ | ⟨other, hstored, hlive, hcheck, _, hpost⟩ |
          ⟨other, nextRole, tail, hstored, hlive, hcheck, _, _, hpost⟩
      · simp only [Relay.exec, hpost]
        exact h
      · simp only [Relay.exec, hpost]
        exact h.finish hchains hstored hlive (hother hstored hcheck) _ _ _
      · simp only [Relay.exec, hpost]
        have hmarked : Inner.Leased { g with
            tasks := g.tasks.modify taskId (markForwarded taskId now) } id worker since task := by
          apply h.of_lookup
          exact AList.lookup_modify_ne (hother hstored hcheck).symm _ _
        exact hmarked.enqueue (h.ne_of_fresh (hfresh next List.mem_cons_self)) _
  | postFailure taskId workerId message =>
      rcases postFailure_cases g taskId workerId message now with
        ⟨_, _, hpost⟩ | ⟨other, hstored, hlive, hcheck, hpost⟩
      · simp only [Relay.exec, hpost]
        exact h
      · simp only [Relay.exec, hpost]
        refine h.finish hchains hstored hlive ?_ _ _ _
        rintro rfl
        obtain rfl := Option.some.inj (h.stored.symm.trans hstored)
        exact hkeeps rfl ((h.checkWorker_iff workerId).mp hcheck)
  | register nodeId role sessions =>
      apply h.of_lookup
      rw [Relay.exec, (g.register_registered nodeId role sessions now).tasks]
  | deregister nodeId =>
      apply h.of_lookup
      cases hnode : g.nodes.lookup nodeId with
      | none => rw [Relay.exec, deregister, dropNode_of_none g hnode]
      | some node =>
          rw [Relay.exec, deregister, (dropNode_dropped hexact hnode).tasks, if_neg]
          intro hheld
          obtain ⟨other, hother, _, hname⟩ := g.mem_assignedTo.mp hheld
          obtain rfl := Option.some.inj (h.stored.symm.trans hother)
          exact hkeeps (Option.some.inj (hname.symm.trans h.holder))
  | heartbeat nodeId => exact h.of_lookup ((heartbeat_alike g nodeId now).tasks id)
  | sweep =>
      obtain ⟨hlease, halive, hyoung⟩ := hkeeps
      apply h.of_lookup
      have hswept : g.Swept settings now _ := sweep_swept hexact
      have hloses : losesWorker settings g now task = false := by
        rw [losesWorker, Bool.or_eq_false_iff]
        constructor
        · rw [← Bool.not_eq_true, heldBy_eq_true]
          rintro ⟨_, w, hw, hname⟩
          exact halive (Option.some.inj (hname.symm.trans h.holder) ▸ hw)
        · rw [Task.stuck, h.taken, Option.map_some, Option.getD_some,
            decide_eq_false (Nat.not_lt.mpr hlease), Bool.and_false]
      have hkept : keepTask now task = true := by
        have hdone := (hchains.life id task h.stored).live h.live
        rw [keepTask, hdone]
        exact decide_eq_true (hyoung task h.stored)
      rw [Relay.exec, hswept.tasks, h.stored, Option.map_some, hloses, Option.filter_some]
      exact if_pos hkept

end Inner.Leased

theorem leased_step {u v : World} {event : Event} (hinv : u.ChainsInv)
    (hstep : Step settings readValue u event v)
    (hkeeps : event.KeepsLease settings id worker since u.inner)
    (h : u.inner.Leased id worker since task) : v.inner.Leased id worker since task := by
  cases hstep with
  | call _ _ hfresh =>
      exact h.exec hinv.queues.exact hinv.chains
        (fun next hnext => hinv.queues.known.fresh (hfresh next hnext)) hkeeps
  | rehash hrehashed => exact h.of_lookup (hrehashed.lookup_tasks id)

/-- The poll that assigns a task lends it. -/
theorem leased_of_assigns {u v : World} (hinv : u.QueuesInv)
    (hstep : Step settings readValue u (.call op answer since) v)
    (hassigns : Assigns u.inner v.inner id worker) :
    ∃ task, v.inner.Leased id worker since task := by
  cases hstep with
  | call _ _ hfresh =>
      have heffect := exec_effect settings readValue op since hinv.exact fun next hnext =>
        hinv.known.fresh (hfresh next hnext)
      obtain ⟨role, n, hdealt, hid, -⟩ := @assigns_effect settings readValue _ _ _ worker op .done id heffect hassigns
      obtain ⟨⟨before, hbefore, -⟩, -⟩ := hassigns
      refine ⟨handedTo worker since before, ?_, rfl, rfl, rfl⟩
      rw [hdealt.tasks, if_pos hid, hbefore, Option.map_some]

/-- Ending a live chain concludes its root, if this is still stored. -/
theorem root_finish {clock : Instant} (hchains : g.ledger.ChainsInv clock)
    (hstored : g.tasks.lookup id = some task) (hlive : task.status.finished = false)
    (status : Status) (result : Option Bytes) (error : Option String) :
    (g.finish id status result error now).tasks.lookup task.rootId =
      (g.tasks.lookup task.rootId).map fun root => { root with
        status := status, result := result, error := error, completedAt := some now, done := true } := by
  obtain ⟨tasks, hfinish, hlookup⟩ := g.finish_of_lookup status result error now hstored
  rw [hfinish]
  refine (hlookup _).trans ?_
  rw [if_pos (.inr rfl)]
  refine Option.map_congr fun root hroot => ?_
  have hsame := (hchains.root id task hstored root hroot).1
  have hdone : root.done = false := Bool.eq_false_iff.mpr fun hdone =>
    hchains.none task.rootId root hroot hsame hdone id ⟨task, hstored, rfl, hlive⟩
  rw [concluded, hdone]
  rfl

theorem told_completed {clock : Instant} (hchains : g.ledger.ChainsInv clock)
    (hstored : g.tasks.lookup id = some task) (hlive : task.status.finished = false) (body : Bytes) :
    getResult (g.finish id .completed (some body) none now) task.rootId =
      if (g.tasks.lookup task.rootId).isSome then .completed body else .notFound := by
  rw [getResult, root_finish hchains hstored hlive]
  cases g.tasks.lookup task.rootId with
  | none => rfl
  | some root => rfl

theorem told_failed {clock : Instant} (hchains : g.ledger.ChainsInv clock)
    (hstored : g.tasks.lookup id = some task) (hlive : task.status.finished = false) (error : String) :
    getResult (g.finish id .failed none (some error) now) task.rootId =
      if (g.tasks.lookup task.rootId).isSome then .failed error else .notFound := by
  rw [getResult, root_finish hchains hstored hlive]
  cases g.tasks.lookup task.rootId with
  | none => rfl
  | some root => rfl

/-- The upload of a worker for a task it has been lent is accepted, and where it ends the chain
clients are told so, as long as the relay stores the task that they ask for. -/
theorem upload_accepted {clock : Instant} (hchains : g.ledger.ChainsInv clock)
    (h : g.Leased id worker since task) (hupload : UploadsFor id worker op) :
    (exec settings readValue op now g).1 = .outcome (.status (task.answerTo readValue op)) ∧
      (task.answerTo readValue op = "ok" →
        getResult (exec settings readValue op now g).2 task.rootId =
          if (g.tasks.lookup task.rootId).isSome then op.verdict else .notFound) := by
  have hcheck : checkWorker task (some worker) = true := (h.checkWorker_iff _).mpr rfl
  cases hupload with
  | failure message =>
      simp only [exec, postFailure, h.stored, h.live, hcheck]
      exact ⟨rfl, fun _ => told_failed hchains h.stored h.live _⟩
  | result stopChain body next =>
      cases hroute : task.route with
      | nil =>
          simp only [exec, postResult, h.stored, h.live, hcheck, hroute, Task.answerTo, true_or, if_true]
          exact ⟨rfl, fun _ => told_completed hchains h.stored h.live body⟩
      | cons nextRole tail =>
          cases hstop : stopsChain readValue body stopChain with
          | true =>
              simp only [exec, postResult, h.stored, h.live, hcheck, hroute, hstop, Task.answerTo,
                or_true, if_true]
              exact ⟨rfl, fun _ => told_completed hchains h.stored h.live body⟩
          | false =>
              simp only [exec, postResult, h.stored, h.live, hcheck, hroute, hstop, Task.answerTo]
              exact ⟨rfl, fun hok => by simp at hok⟩

/-- **Work done in time is not wasted.** A worker that has taken a task keeps it, the same record, as
long as it stays, its time is not up and it has not uploaded anything for the task, whatever else
happens; and its upload is then accepted. Where this ends the chain, clients are told so at once, if
the relay still stores the first task. -/
theorem timely_upload_accepted {clock : Instant} {events later : List Event} {u u' v w : World}
    {op' : Op} {answer' : Answer} {now' : Instant}
    (hbefore : RunFrom settings readValue clock events u)
    (htake : Step settings readValue u (.call op answer since) u')
    (hassigns : Assigns u.inner u'.inner id worker)
    (hperiod : Run (fun s e t => Step settings readValue s e t ∧
      e.KeepsLease settings id worker since s.inner) u' later v)
    (hstep : Step settings readValue v (.call op' answer' now') w)
    (hupload : UploadsFor id worker op') :
    ∃ task, u'.inner.Leased id worker since task ∧ v.inner.Leased id worker since task ∧
      answer' = .outcome (.status (task.answerTo readValue op')) ∧
      (task.answerTo readValue op' = "ok" → getResult w.inner task.rootId =
        if (v.inner.tasks.lookup task.rootId).isSome then op'.verdict else .notFound) := by
  have hinv := chainsInv_run hbefore
  obtain ⟨task, hleased⟩ := leased_of_assigns hinv.queues htake hassigns
  have hlast : v.ChainsInv ∧ v.inner.Leased id worker since task :=
    hperiod.invariant (P := fun v => v.ChainsInv ∧ v.inner.Leased id worker since task)
      (fun hstep h => ⟨chainsInv_step hstep.1 h.1, leased_step h.1 hstep.1 hstep.2 h.2⟩)
      ⟨chainsInv_step htake hinv, hleased⟩
  refine ⟨task, hleased, hlast.2, ?_⟩
  cases hstep with
  | call => exact upload_accepted hlast.1.chains hlast.2 hupload

/-- The second step of a chain: another worker reports a failure of it, the janitor makes a pass, and
the upload ends the chain. -/
theorem timely_upload_accepted_contested :
    let settings : Settings := ⟨fromSecs 120, fromSecs 15⟩
    let readValue : Bytes → Option Value := fun _ => none
    let after : Op → Instant → World → World := fun op now w =>
      ⟨(exec settings readValue op now w.inner).2, now, op.drawn ++ w.issued⟩
    let u := after (.postResult "t" (some "x") false [1, 1] "n") 2 (after (.poll "a" "x" 1) 1
      (after (.submit "t" "a" [1] ["b"] none 0) 0 (after (.register "w" "b" []) 0 (World.start 0))))
    let u' := after (.poll "b" "w" 1) 3 u
    let v := after .sweep 5 (after (.postFailure "n" (some "v") "no") 4 u')
    let w := after (.postResult "n" (some "w") false [2] "m") 6 v
    (∃ task, v.inner.Leased "n" "w" 3 task) ∧ getResult v.inner "t" = .pending "FORWARDED" ∧
      getResult w.inner "t" = .completed [2] := by
  intro settings readValue after u u' v w
  have hcall : ∀ {w : World} (op : Op) (now : Instant), w.clock ≤ now → op.Timely now →
      (∀ id ∈ op.drawn, id ∉ w.issued) → Step settings readValue w
        (.call op (exec settings readValue op now w.inner).1 now) (after op now w) :=
    fun _ _ hclock htimely hfresh => .call hclock htimely hfresh
  have hbefore : RunFrom settings readValue 0 _ u :=
    .snoc (.snoc (.snoc (.single (hcall (.register "w" "b" []) 0 (by decide) trivial (by decide)))
      (hcall (.submit "t" "a" [1] ["b"] none 0) 0 (by decide) (by decide) (by decide)))
      (hcall (.poll "a" "x" 1) 1 (by decide) trivial (by decide)))
      (hcall (.postResult "t" (some "x") false [1, 1] "n") 2 (by decide) trivial (by decide +kernel))
  have htake := hcall (w := u) (.poll "b" "w" 1) 3 (by decide) trivial (by decide)
  have hfailure := hcall (w := u') (.postFailure "n" (some "v") "no") 4 (by decide) trivial (by decide)
  have hsweep := hcall (w := after (.postFailure "n" (some "v") "no") 4 u') .sweep 5 (by decide) trivial
    (by decide)
  have hstep := hcall (w := v) (.postResult "n" (some "w") false [2] "m") 6 (by decide) trivial
    (by decide +kernel)
  have hassigns : Assigns u.inner u'.inner "n" "w" := ⟨⟨_, rfl, rfl⟩, _, rfl, rfl, rfl⟩
  have hyoung : ∀ task, (after (.postFailure "n" (some "v") "no") 4 u').inner.tasks.lookup "n" = some task →
      5 - task.createdAt ≤ danglingTtl := by
    intro task htask
    have hall : ((after (.postFailure "n" (some "v") "no") 4 u').inner.tasks.lookup "n").all
        (fun task => decide (5 - task.createdAt ≤ danglingTtl)) = true := by
      decide +kernel
    rw [htask, Option.all_some] at hall
    exact of_decide_eq_true hall
  have hperiod : Run (fun s e t => Step settings readValue s e t ∧
      e.KeepsLease settings "n" "w" 3 s.inner) u' _ v :=
    .snoc (.single ⟨hfailure, fun _ => by decide⟩) ⟨hsweep, by decide, by decide +kernel, hyoung⟩
  obtain ⟨task, -, hleased, -, htold⟩ :=
    timely_upload_accepted hbefore htake hassigns hperiod hstep (.result false [2] "m")
  have hroot : (v.inner.tasks.lookup "n").map (fun task => (task.rootId, task.route)) = some ("t", []) := by
    decide +kernel
  rw [hleased.stored, Option.map_some, Option.some.injEq, Prod.mk.injEq] at hroot
  refine ⟨⟨task, hleased⟩, by decide +kernel, ?_⟩
  have hstored : (v.inner.tasks.lookup "t").isSome = true := by decide +kernel
  rw [hroot.1, if_pos hstored, Task.answerTo, if_pos (.inl hroot.2)] at htold
  exact htold rfl

end Distllm.Relay
