import Distllm.RelaySessions

/-! A relay restart with live replicas of one role. The relay comes back empty; the replicas keep
polling, and each registers again, with the sessions it tracks, once a heartbeat is answered 404.
A claim decides where tasks of a session are queued from then on. The resubmitted step of a session
is taken by the first replica that may take it: the one that had claimed the session before the
resubmission, and any replica when none had. -/

namespace Distllm.Restart

open Relay Relay.Inner

def maxClaimedSessions : Nat := 64
def sessionClaimTtl : Duration := fromSecs 900

/-! ### The sessions a worker tracks -/

/-- Forget the oldest sessions as long as there are too many or the oldest is too old. -/
def evict (now : Instant) : List (String × Instant) → List (String × Instant)
  | [] => []
  | oldest :: rest =>
    if rest.length + 1 > maxClaimedSessions ∨ now - oldest.2 > sessionClaimTtl then evict now rest
    else oldest :: rest

/-- Note the use of a session; a closed one is forgotten. -/
def noteUse (now : Instant) (entries : List (String × Instant)) (task : String × Bool) :
    List (String × Instant) :=
  let others := entries.filter fun entry => entry.1 ≠ task.1
  if task.2 then others else others ++ [(task.1, now)]

/-- The sessions a worker served recently with their last use, the least recent one first. -/
structure Tracked where
  entries : List (String × Instant)
  nodup : (entries.map Prod.fst).Nodup
  few : entries.length ≤ maxClaimedSessions

theorem evict_sublist (now : Instant) (entries : List (String × Instant)) :
    List.Sublist (evict now entries) entries := by
  induction entries with
  | nil => exact .slnil
  | cons oldest rest ih =>
      rw [evict]
      split
      · exact ih.cons oldest
      · exact .refl _

theorem length_evict (now : Instant) (entries : List (String × Instant)) :
    (evict now entries).length ≤ maxClaimedSessions := by
  induction entries with
  | nil => exact Nat.zero_le _
  | cons oldest rest ih =>
      rw [evict]
      split
      · exact ih
      · rename_i h
        rw [not_or] at h
        exact Nat.not_lt.mp h.1

theorem nodup_noteUse (now : Instant) {entries : List (String × Instant)} (task : String × Bool)
    (h : (entries.map Prod.fst).Nodup) : ((noteUse now entries task).map Prod.fst).Nodup := by
  have hothers := (List.filter_sublist (p := fun entry => entry.1 ≠ task.1)
    (l := entries)).map Prod.fst |>.nodup h
  rw [noteUse]
  split
  · exact hothers
  · rw [List.map_append]
    refine List.nodup_append.mpr ⟨hothers, List.nodup_singleton _, ?_⟩
    rintro x hx y hy rfl
    obtain rfl : x = task.1 := List.mem_singleton.mp hy
    obtain ⟨entry, hentry, hsame⟩ := List.mem_map.mp hx
    have hne := (List.mem_filter.mp hentry).2
    rw [decide_eq_true_iff] at hne
    exact hne hsame

/-- The tasks of a poll: their sessions are the most recent ones. -/
def Tracked.track (t : Tracked) (now : Instant) (tasks : List (String × Bool)) : Tracked where
  entries := evict now (tasks.foldl (noteUse now) t.entries)
  nodup := by
    apply ((evict_sublist now _).map Prod.fst).nodup
    induction tasks using List.reverseRecOn with
    | nil => exact t.nodup
    | append_singleton front task ih =>
        rw [List.foldl_append]
        exact nodup_noteUse now task ih
  few := length_evict now _

def Tracked.names (t : Tracked) : List String := t.entries.map Prod.fst

/-- The sessions of a registration: the worker joins its names with commas, the relay splits. -/
def claimedNames (names : List String) : List String :=
  (((List.intercalate [','] (names.map String.toList)).splitOn ',').map String.ofList).filter
    (· ≠ "")

/-- Plain names are claimed as they are tracked. -/
theorem claimedNames_of_plain {names : List String}
    (h : ∀ name ∈ names, name ≠ "" ∧ ',' ∉ name.toList) : claimedNames names = names := by
  cases names with
  | nil => decide
  | cons first rest =>
      rw [claimedNames, List.splitOn_intercalate _ (fun chars hchars => ?_) (by simp),
        List.map_map]
      · have hid : String.ofList ∘ String.toList = id := funext fun s => String.ofList_toList
        rw [hid, List.map_id]
        apply List.filter_eq_self.mpr
        intro name hname
        simpa using (h name hname).1
      · obtain ⟨name, hname, rfl⟩ := List.mem_map.mp hchars
        exact (h name hname).2

/-! ### Replicas and their moves -/

structure Replica where
  sessions : Tracked
  /-- Its heartbeat was answered 404 and it registers again. -/
  unknown : Bool

structure System where
  relay : World
  replicas : AList fun _ : String => Replica

/-- What a replica does. An answer to a registration may be lost; then it registers once more. -/
inductive Move where
  | poll (worker : String) (maxTasks : Nat)
  | pollDeadline (worker : String)
  | heartbeat (worker : String)
  | register (worker : String) (answered : Bool)

def Move.worker : Move → String
  | poll worker _ | pollDeadline worker | heartbeat worker | register worker _ => worker

def System.namesOf (s : System) (worker : String) : List String :=
  ((s.replicas.lookup worker).map fun replica => replica.sessions.names).getD []

def Move.op (role : String) (s : System) : Move → Op
  | poll worker maxTasks => .poll role worker maxTasks
  | pollDeadline worker => .pollDeadline role worker
  | heartbeat worker => .heartbeat worker
  | register worker _ => .register worker role (claimedNames (s.namesOf worker))

def Move.Enabled (s : System) (move : Move) : Prop :=
  ∃ replica, s.replicas.lookup move.worker = some replica ∧
    match move with
    | heartbeat _ => replica.unknown = false
    | register .. => replica.unknown = true
    | poll .. | pollDeadline _ => True

/-- `readTask` reads the session of a payload and whether the payload closes it. -/
def Replica.after (readTask : Bytes → Option (String × Bool)) (move : Move) (answer : Answer)
    (now : Instant) (replica : Replica) : Replica :=
  match move, answer with
  | .poll .., .tasks (first :: rest) | .pollDeadline _, .tasks (first :: rest) =>
    let served := (first :: rest).filterMap fun task => readTask task.2
    { replica with sessions := replica.sessions.track now served }
  | .heartbeat _, .alive false => { replica with unknown := true }
  | .register _ true, _ => { replica with unknown := false }
  | _, _ => replica

variable (settings : Settings) (readValue : Bytes → Option Value) (role : String)
  (readTask : Bytes → Option (String × Bool))

/-- The world after an operation of the relay. -/
def after (w : World) (op : Op) (now : Instant) : World :=
  ⟨(exec settings readValue op now w.inner).2, now, op.drawn ++ w.issued⟩

def System.perform (s : System) (move : Move) (now : Instant) : System where
  relay := after settings readValue s.relay (move.op role s) now
  replicas := s.replicas.modify move.worker (Replica.after readTask move
    (exec settings readValue (move.op role s) now s.relay.inner).1 now)

/-- The client sends the lost step of a session to the role again. -/
def System.resubmit (s : System) (taskId : String) (body : Bytes) (route : List String)
    (session : String) (createdAt now : Instant) : System where
  relay := after settings readValue s.relay
    (.submit taskId role body route (some session) createdAt) now
  replicas := s.replicas

/-- One move of a replica. -/
def Moves (s : System) (move : Move) (t : System) : Prop :=
  move.Enabled s ∧ ∃ now, s.relay.clock ≤ now ∧
    t = s.perform settings readValue role readTask move now

/-- Any replicas around a relay that has just been restarted. -/
def System.restarted (clock : Instant) (replicas : AList fun _ : String => Replica) : System :=
  ⟨World.start clock, replicas⟩

/-! ### Claims and takers -/

/-- The move is a registration that claims the session. -/
def Move.claims (s : System) (session : String) : Move → Option String
  | register worker _ =>
    if session ∈ (claimedNames (s.namesOf worker)).take maxReportedSessions then some worker
    else none
  | _ => none

/-- The first replica that claims the session. -/
def claimant (s : System) (session : String) (moves : List Move) : Option String :=
  moves.findSome? (Move.claims s session)

/-- The move is a poll of a replica that may take the task: of the one that has claimed its
session, or of any replica. -/
def Move.mayTake (claimed : Option String) : Move → Option String
  | poll worker _ | pollDeadline worker => if claimed.all (· == worker) then some worker else none
  | _ => none

/-- The first replica that polls and may take the task. -/
def taker (claimed : Option String) (moves : List Move) : Option String :=
  moves.findSome? (Move.mayTake claimed)

variable {settings readValue role readTask}

/-- Where one replica alone names the session, the claimant is that replica, once it has
registered. -/
theorem claimant_of_unique (s : System) (session worker : String)
    (hown : session ∈ (claimedNames (s.namesOf worker)).take maxReportedSessions)
    (hothers : ∀ v, v ≠ worker →
      session ∉ (claimedNames (s.namesOf v)).take maxReportedSessions) (moves : List Move) :
    claimant s session moves = some worker ∧ (∃ answered, .register worker answered ∈ moves) ∨
      claimant s session moves = none ∧ ∀ answered, .register worker answered ∉ moves := by
  induction moves with
  | nil => exact .inr ⟨rfl, fun _ h => nomatch h⟩
  | cons move rest ih =>
      rw [claimant, List.findSome?_cons]
      cases hclaims : Move.claims s session move with
      | some v =>
          left
          cases move with
          | register v' answered =>
              rw [Move.claims] at hclaims
              split at hclaims
              · rename_i hnamed
                have hv : v' = worker := by_contra fun hne => hothers v' hne hnamed
                rw [← Option.some.inj hclaims, hv]
                exact ⟨rfl, answered, List.mem_cons_self⟩
              · cases hclaims
          | poll => cases hclaims
          | pollDeadline => cases hclaims
          | heartbeat => cases hclaims
      | none =>
          rcases ih with ⟨hfirst, answered, hmem⟩ | ⟨hfirst, hnot⟩
          · exact .inl ⟨hfirst, answered, List.mem_cons_of_mem _ hmem⟩
          · refine .inr ⟨hfirst, fun answered hmem => ?_⟩
            rcases List.mem_cons.mp hmem with rfl | hmem
            · rw [Move.claims, if_pos hown] at hclaims
              cases hclaims
            · exact hnot answered hmem

/-! ### Before the resubmission -/

theorem Moves.step {s t : System} {move : Move}
    (h : Moves settings readValue role readTask s move t) :
    ∃ answer now, Relay.Step settings readValue s.relay (.call (move.op role s) answer now) t.relay ∧
      answer = (exec settings readValue (move.op role s) now s.relay.inner).1 ∧
      t = s.perform settings readValue role readTask move now := by
  obtain ⟨_, now, hclock, rfl⟩ := h
  refine ⟨_, now, .call hclock ?_ ?_, rfl, rfl⟩
  · cases move <;> exact trivial
  · cases move <;> exact fun id hid => nomatch hid

theorem Moves.issued {s t : System} {move : Move}
    (h : Moves settings readValue role readTask s move t) : t.relay.issued = s.relay.issued := by
  obtain ⟨_, now, _, rfl⟩ := h
  cases move <;> rfl

/-- Before any task is submitted the replicas only claim. -/
structure Before (role : String) (start : System) (session : String) (moves : List Move)
    (s : System) : Prop where
  inv : s.relay.QueuesInv
  issued : s.relay.issued = []
  names : ∀ w, s.namesOf w = start.namesOf w
  bound : s.relay.inner.boundTo (role, session) = claimant start session moves
  serves : ∀ w, s.relay.inner.boundTo (role, session) = some w → s.relay.inner.Serves w role

theorem Before.no_task {start s : System} {session : String} {moves : List Move}
    (h : Before role start session moves s) (x : String) : s.relay.inner.tasks.lookup x = none := by
  cases htask : s.relay.inner.tasks.lookup x with
  | none => rfl
  | some task =>
      have hissued := h.inv.known.task x task htask
      rw [h.issued] at hissued
      cases hissued

theorem Before.batch_nil {start s : System} {session : String} {moves : List Move}
    (h : Before role start session moves s) (worker : String) (n : Nat) :
    s.relay.inner.batch worker role n = [] := by
  apply List.eq_nil_iff_forall_not_mem.mpr
  intro x hx
  obtain ⟨task, htask, _⟩ := (batch_cases hx).1
  cases (h.no_task x).symm.trans htask

/-- A replica that learns nothing but whether it is known keeps its names. -/
theorem namesOf_perform {s : System} {move : Move} {now : Instant}
    (h : ∀ replica : Replica, (replica.after readTask move
      (exec settings readValue (move.op role s) now s.relay.inner).1 now).sessions =
        replica.sessions) (w : String) :
    (s.perform settings readValue role readTask move now).namesOf w = s.namesOf w := by
  rw [System.namesOf, System.namesOf, System.perform]
  dsimp only
  rw [AList.lookup_modify]
  split
  · rw [Option.map_map]
    congr 1
    refine congrArg (Option.map · _) (funext fun replica => ?_)
    rw [Function.comp_apply, h]
  · rfl

/-- The first to claim a session keeps it, and serves the role. -/
theorem bound_registered {g g' : Inner} {nodeId session : String} {sessions : List String}
    {now : Instant} (hserves : ∀ w, g.boundTo (role, session) = some w → g.Serves w role)
    (h : g.Registered nodeId role sessions now g') :
    g'.boundTo (role, session) = (g.boundTo (role, session)).or
        (if session ∈ sessions.take maxReportedSessions then some nodeId else none) ∧
      ∀ w, g'.boundTo (role, session) = some w → g'.Serves w role := by
  have hkeep : ∀ w, g.Serves w role → g'.Serves w role := by
    intro w hw
    obtain ⟨node, hnode, hrole⟩ := hw
    rw [Inner.Serves, h.nodes]
    split
    · exact ⟨_, rfl, rfl⟩
    · exact ⟨node, hnode, hrole⟩
  have hmem : (role, session) ∈ (sessions.take maxReportedSessions).map (role, ·) ↔
      session ∈ sessions.take maxReportedSessions := by
    simp only [List.mem_map, Prod.mk.injEq, true_and, exists_eq_right]
  have hlookup := h.affinity (role, session)
  cases hbound : g.boundTo (role, session) with
  | some w =>
      have hlive := hserves w hbound
      have hclaimed : g.claimed (role, session) = true := by
        obtain ⟨used, hused⟩ := g.boundTo_eq_some.mp hbound
        obtain ⟨node, hnode, _⟩ := hlive
        rw [claimed, hused, Option.any_some, hnode]
        rfl
      have hnot : ¬((role, session) ∈ (sessions.take maxReportedSessions).map (role, ·) ∧
          g.claimed (role, session) = false) := fun h => by
        cases hclaimed.symm.trans h.2
      rw [if_neg hnot] at hlookup
      rw [boundTo_congr hlookup, hbound]
      refine ⟨rfl, fun v hv => ?_⟩
      obtain rfl := Option.some.inj hv
      exact hkeep _ hlive
  | none =>
      have hfree : g.affinity.lookup (role, session) = none := by
        rwa [boundTo, Option.map_eq_none_iff] at hbound
      have hclaimed : g.claimed (role, session) = false := by
        rw [claimed, hfree]
        rfl
      simp only [hclaimed, hmem, hfree, and_true] at hlookup
      rw [boundTo, hlookup, Option.none_or]
      by_cases hnamed : session ∈ sessions.take maxReportedSessions
      · rw [if_pos hnamed, if_pos hnamed]
        refine ⟨rfl, fun v hv => ?_⟩
        obtain rfl := Option.some.inj hv
        exact ⟨_, by rw [h.nodes, if_pos rfl], rfl⟩
      · rw [if_neg hnamed, if_neg hnamed]
        refine ⟨rfl, fun v hv => ?_⟩
        cases hv

theorem before_move {start s t : System} {session : String} {moves : List Move} {move : Move}
    (hmove : Moves settings readValue role readTask s move t)
    (h : Before role start session moves s) :
    Before role start session (moves ++ [move]) t := by
  obtain ⟨_, now, hstep, rfl, hperform⟩ := hmove.step
  have hclaimant : claimant start session (moves ++ [move]) =
      (claimant start session moves).or (Move.claims start session move) := by
    rw [claimant, List.findSome?_append, List.findSome?_singleton]
    rfl
  have hrelay : t.relay.inner =
      (exec settings readValue (move.op role s) now s.relay.inner).2 := by
    rw [hperform]
    rfl
  have hsame : (∀ w, (t.relay.inner.nodes.lookup w).map Node.role =
        (s.relay.inner.nodes.lookup w).map Node.role) →
      (∀ key, t.relay.inner.affinity.lookup key = s.relay.inner.affinity.lookup key) →
      Move.claims start session move = none → (∀ w, t.namesOf w = s.namesOf w) →
      Before role start session (moves ++ [move]) t := by
    intro hnodes haffinity hclaims hnames
    refine ⟨queuesInv_step hstep h.inv, hmove.issued.trans h.issued,
      fun w => (hnames w).trans (h.names w), ?_, fun w hw => ?_⟩
    · rw [boundTo_congr (haffinity _), h.bound, hclaimant, hclaims, Option.or_none]
    · rw [boundTo_congr (haffinity _)] at hw
      exact (h.serves w hw).of_nodes (hnodes w)
  cases move with
  | poll worker n =>
      obtain ⟨hnothing, hdealt⟩ := poll_dealt h.inv.exact role worker n now
      rw [h.batch_nil] at hnothing hdealt
      refine hsame (fun w => ?_) (fun key => ?_) rfl fun w => ?_
      · rw [hrelay, Move.op, exec, hdealt.nodes]
      · rw [hrelay, Move.op, exec, hdealt.affinity, if_neg (by simp)]
      · rw [hperform]
        refine namesOf_perform (fun replica => ?_) w
        change (Replica.after readTask (.poll worker n)
          (.tasks (poll s.relay.inner role worker n now).1) now replica).sessions = _
        rw [hnothing]
        rfl
  | pollDeadline worker =>
      obtain ⟨hnothing, hdealt⟩ := pollDeadline_dealt (g := s.relay.inner) role worker now
      rw [h.batch_nil] at hnothing hdealt
      refine hsame (fun w => ?_) (fun key => ?_) rfl fun w => ?_
      · rw [hrelay, Move.op, exec, hdealt.nodes]
      · rw [hrelay, Move.op, exec, hdealt.affinity, if_neg (by simp)]
      · rw [hperform]
        refine namesOf_perform (fun replica => ?_) w
        change (Replica.after readTask (.pollDeadline worker)
          (.tasks (pollDeadline s.relay.inner role worker now).1) now replica).sessions = _
        rw [hnothing]
        rfl
  | heartbeat worker =>
      have halike : s.relay.inner.Alike t.relay.inner := by
        rw [hrelay]
        exact heartbeat_alike s.relay.inner worker now
      apply hsame halike.nodes halike.affinity rfl
      intro w
      rw [hperform]
      refine namesOf_perform (fun replica => ?_) w
      change (Replica.after readTask (.heartbeat worker)
        (.alive (heartbeat s.relay.inner worker now).1) now replica).sessions = _
      cases (heartbeat s.relay.inner worker now).1 <;> rfl
  | register worker answered =>
      have hregistered := register_registered s.relay.inner worker role
        (claimedNames (s.namesOf worker)) now
      obtain ⟨hbound, hserves⟩ := bound_registered h.serves hregistered
      refine ⟨queuesInv_step hstep h.inv, hmove.issued.trans h.issued, fun w => ?_, ?_, ?_⟩
      · rw [hperform, ← h.names]
        refine namesOf_perform (fun replica => ?_) w
        cases answered <;> rfl
      · rw [hrelay, hclaimant, Move.claims, ← h.names, ← h.bound]
        exact hbound
      · rw [hrelay]
        exact hserves

/-! ### After the resubmission -/

/-- The resubmitted task waits where the first replica that may take it finds it, or has been
taken. -/
def Held (role : String) (g : Inner) (taskId : String) (claimed : Option String) :
    Option String → Prop
  | none => g.workerOf taskId = none ∧ (∀ x, g.IsPending x → x = taskId) ∧
      ∀ v, g.waiting v role = if claimed.all (· == v) then [taskId] else []
  | some v => g.workerOf taskId = some v ∧ ∀ x, ¬g.IsPending x

theorem held_of_same {g g' : Inner} {taskId : String} {claimed held : Option String}
    (h : Held role g taskId claimed held) (htasks : ∀ x, g'.tasks.lookup x = g.tasks.lookup x)
    (hown : ∀ w, g'.ofWorker w = g.ofWorker w) (hshared : ∀ r, g'.ofRole r = g.ofRole r) :
    Held role g' taskId claimed held := by
  have hworker : g'.workerOf taskId = g.workerOf taskId := by
    rw [workerOf, workerOf, htasks]
  cases held with
  | none =>
      obtain ⟨hfree, honly, hwaiting⟩ := h
      refine ⟨hworker.trans hfree, fun x hx => honly x ((isPending_congr (htasks x)).mp hx),
        fun v => ?_⟩
      rw [waiting_eq, hown, hshared, ← waiting_eq, hwaiting]
  | some v =>
      exact ⟨hworker.trans h.1, fun x hx => h.2 x ((isPending_congr (htasks x)).mp hx)⟩

/-- The first poll of a replica that may take the task takes it; no other poll changes anything. -/
theorem held_dealt {g g' : Inner} {taskId worker : String} {claimed held : Option String} {n : Nat}
    {now : Instant} (h : Held role g taskId claimed held)
    (hdealt : g.Dealt worker now (g.batch worker role n) g') :
    Held role g' taskId claimed
      (held.or (if claimed.all (· == worker) then some worker else none)) := by
  have hsame : g.batch worker role n = [] → Held role g' taskId claimed held := by
    intro hnil
    rw [hnil] at hdealt
    refine held_of_same h (fun x => by rw [hdealt.tasks, if_neg List.not_mem_nil])
      (fun w => ?_) fun r => ?_
    · rw [ofWorker, hdealt.own]
      exact List.filter_eq_self.mpr fun _ _ => by simp
    · rw [ofRole, hdealt.role]
      exact List.filter_eq_self.mpr fun _ _ => by simp
  cases held with
  | some v =>
      refine hsame (List.eq_nil_iff_forall_not_mem.mpr fun x hx => ?_)
      exact h.2 x (batch_cases hx).1
  | none =>
      rw [Option.none_or]
      obtain ⟨hfree, honly, hwaiting⟩ := h
      by_cases hmay : claimed.all (· == worker) = true
      · have hbatch : g.batch worker role n = [taskId] := by
          rw [batch, hwaiting, if_pos hmay]
          exact List.take_of_length_le (by rw [List.length_singleton]; omega)
        rw [if_pos hmay]
        rw [hbatch] at hdealt
        obtain ⟨task, htask, _⟩ := (batch_cases (hbatch ▸ List.mem_cons_self)).1
        refine ⟨?_, fun x hx => ?_⟩
        · rw [workerOf, hdealt.tasks, if_pos List.mem_cons_self, htask]
          rfl
        · obtain ⟨hpending, hother⟩ := (hdealt.isPending x).mp hx
          exact hother (honly x hpending ▸ List.mem_cons_self)
      · rw [if_neg hmay]
        apply hsame
        rw [batch, hwaiting, if_neg hmay, List.take_nil]

/-- The resubmission puts the task where the claim says. -/
theorem held_resubmitted {start u : System} {session taskId : String} {moves : List Move}
    {body : Bytes} {route : List String} {createdAt now : Instant}
    (h : Before role start session moves u) :
    Held role (u.resubmit settings readValue role taskId body route session createdAt now).relay.inner
      taskId (claimant start session moves) none := by
  have hfresh : u.relay.inner.Fresh taskId :=
    h.inv.known.fresh (by rw [h.issued]; exact List.not_mem_nil)
  have hqueued : u.relay.inner.Queued taskId _ (u.relay.inner.enqueue taskId
      ⟨role, body, route, taskId, some session, .pending, none, none, none, none, createdAt, none,
        false⟩) := enqueue_queued hfresh.queue rfl
  have hnone : ∀ queue : List String, u.relay.inner.pendingOf queue = [] := fun queue =>
    pendingOf_eq_nil _ fun x _ hx => by
      obtain ⟨task, htask, _⟩ := hx
      cases (h.no_task x).symm.trans htask
  have hown : ∀ w, u.relay.inner.ofWorker w = [] := fun w => hnone _
  have hshared : ∀ r, u.relay.inner.ofRole r = [] := fun r => hnone _
  refine ⟨?_, fun x hx => ?_, fun v => ?_⟩
  · change (u.relay.inner.enqueue taskId _).workerOf taskId = none
    rw [workerOf, hqueued.tasks, if_pos rfl]
    rfl
  · by_contra hne
    obtain ⟨task, htask, _⟩ := hx
    have hlookup := (hqueued.tasks x).symm.trans htask
    rw [if_neg hne, h.no_task] at hlookup
    cases hlookup
  · change (u.relay.inner.enqueue taskId _).waiting v role = _
    rw [waiting_eq, ← h.bound]
    rcases hqueued.place with ⟨worker, s, _, hsession, hto, hplace, hrest, _⟩ |
      ⟨hfree, hplace, hrest, _⟩
    · obtain rfl := Option.some.inj hsession
      rw [hplace, hrest, hshared, hown, hto, List.append_nil, Option.all_some]
      by_cases hv : v = worker
      · rw [if_pos hv, if_pos (beq_iff_eq.mpr hv.symm), List.nil_append]
      · rw [if_neg hv, if_neg fun heq => hv (beq_iff_eq.mp heq).symm]
    · have hunbound : u.relay.inner.boundTo (role, session) = none := by
        by_contra hbound
        obtain ⟨w, hw⟩ := Option.ne_none_iff_exists'.mp hbound
        exact hfree w session (h.serves w hw) rfl hw
      rw [hplace, hrest, hshared, hown, hunbound, if_pos rfl]
      rfl

theorem held_move {s t : System} {taskId : String} {claimed : Option String} {moves : List Move}
    {move : Move} (hmove : Moves settings readValue role readTask s move t)
    (hinv : s.relay.QueuesInv) (h : Held role s.relay.inner taskId claimed (taker claimed moves)) :
    t.relay.QueuesInv ∧ Held role t.relay.inner taskId claimed (taker claimed (moves ++ [move])) := by
  obtain ⟨_, now, hstep, rfl, hperform⟩ := hmove.step
  refine ⟨queuesInv_step hstep hinv, ?_⟩
  have htaker : taker claimed (moves ++ [move]) =
      (taker claimed moves).or (Move.mayTake claimed move) := by
    rw [taker, List.findSome?_append, List.findSome?_singleton]
    rfl
  have hrelay : t.relay.inner =
      (exec settings readValue (move.op role s) now s.relay.inner).2 := by
    rw [hperform]
    rfl
  rw [htaker, hrelay]
  cases move with
  | poll worker n => exact held_dealt h (poll_dealt hinv.exact role worker n now).2
  | pollDeadline worker => exact held_dealt h (pollDeadline_dealt role worker now).2
  | heartbeat worker =>
      have halike := heartbeat_alike s.relay.inner worker now
      rw [show Move.mayTake claimed (.heartbeat worker) = none from rfl, Option.or_none]
      exact held_of_same h halike.tasks halike.ofWorker halike.ofRole
  | register worker answered =>
      have hregistered := register_registered s.relay.inner worker role
        (claimedNames (s.namesOf worker)) now
      rw [show Move.mayTake claimed (.register worker answered) = none from rfl, Option.or_none]
      exact held_of_same h (fun x => by rw [Move.op, exec, hregistered.tasks]) hregistered.own
        hregistered.shared

/-- The resubmitted task is assigned to the first replica that polls and may take it. -/
theorem workerOf_resubmitted {clock createdAt now : Instant}
    {replicas : AList fun _ : String => Replica} {before after : List Move} {u z : System}
    {taskId session : String} {body : Bytes} {route : List String}
    (hbefore : Run (Moves settings readValue role readTask) (System.restarted clock replicas)
      before u)
    (hclock : u.relay.clock ≤ now) (hcreated : createdAt ≤ now)
    (hafter : Run (Moves settings readValue role readTask)
      (u.resubmit settings readValue role taskId body route session createdAt now) after z) :
    z.relay.inner.workerOf taskId =
      taker (claimant (System.restarted clock replicas) session before) after := by
  have hstart : Before role (System.restarted clock replicas) session before u := by
    refine hbefore.invariant_labels
      (P := Before role (System.restarted clock replicas) session) before_move ?_
    exact ⟨queuesInv_start clock, rfl, fun _ => rfl, rfl, fun w hw => nomatch hw⟩
  set claimed := claimant (System.restarted clock replicas) session before
  have hheld : z.relay.QueuesInv ∧ Held role z.relay.inner taskId claimed (taker claimed after) := by
    refine hafter.invariant_labels (P := fun moves s =>
      s.relay.QueuesInv ∧ Held role s.relay.inner taskId claimed (taker claimed moves))
      (fun hmove h => held_move hmove h.1 h.2) ⟨?_, held_resubmitted hstart⟩
    have hsubmit : Relay.Step settings readValue u.relay _
        (u.resubmit settings readValue role taskId body route session createdAt now).relay :=
      .call hclock hcreated fun id _ => by rw [hstart.issued]; exact List.not_mem_nil
    exact queuesInv_step hsubmit hstart.inv
  cases htaker : taker claimed after with
  | none => exact (htaker ▸ hheld.2).1
  | some v => exact (htaker ▸ hheld.2).1

/-- A replica that has claimed the session is the only one that may take its task. -/
theorem taker_claimed {worker v : String} {moves : List Move}
    (h : taker (some worker) moves = some v) : v = worker := by
  obtain ⟨move, _, hmove⟩ := List.exists_of_findSome?_eq_some h
  have hpoll : ∀ w, (if (some worker).all (· == w) then some w else none) = some v →
      v = worker := by
    intro w hw
    rw [Option.all_some] at hw
    split at hw
    · rename_i heq
      exact (Option.some.inj hw).symm.trans (beq_iff_eq.mp heq).symm
    · cases hw
  cases move with
  | poll w n => exact hpoll w hmove
  | pollDeadline w => exact hpoll w hmove
  | heartbeat => cases hmove
  | register => cases hmove

theorem claimed_of_plain {s : System} {v : String}
    (h : ∀ name ∈ s.namesOf v, name ≠ "" ∧ ',' ∉ name.toList) :
    (claimedNames (s.namesOf v)).take maxReportedSessions = s.namesOf v := by
  rw [claimedNames_of_plain h]
  apply List.take_of_length_le
  rw [System.namesOf]
  cases s.replicas.lookup v with
  | none => exact Nat.zero_le _
  | some replica =>
      have hfew := replica.sessions.few
      rw [Option.map_some, Option.getD_some, Tracked.names, List.length_map]
      exact Nat.le_trans hfew (by decide)

/-- **The resubmitted task is never assigned to another replica** if and only if the first replica
to claim the session before the resubmission is the one that holds its cache, or the first poll of
a replica that may take the task is its own. Where one replica alone tracks the session, under a
name without commas, this is so if and only if it has registered before the resubmission or is the
first one to poll after it. The runs are of polls, heartbeats and registrations: no pass of the
janitor falls between the restart and the end of the run. -/
theorem resubmission_stays_iff {clock createdAt now : Instant}
    {replicas : AList fun _ : String => Replica} {before after : List Move} {u z : System}
    {taskId session worker : String} {body : Bytes} {route : List String}
    (hbefore : Run (Moves settings readValue role readTask) (System.restarted clock replicas)
      before u)
    (hclock : u.relay.clock ≤ now) (hcreated : createdAt ≤ now)
    (hafter : Run (Moves settings readValue role readTask)
      (u.resubmit settings readValue role taskId body route session createdAt now) after z) :
    let start := System.restarted clock replicas
    ((∀ v, z.relay.inner.workerOf taskId = some v → v = worker) ↔
      claimant start session before = some worker ∨
        ∀ v, taker (claimant start session before) after = some v → v = worker) ∧
    ((∀ v, ∀ name ∈ start.namesOf v, name ≠ "" ∧ ',' ∉ name.toList) →
      session ∈ start.namesOf worker → (∀ v, v ≠ worker → session ∉ start.namesOf v) →
      ((∀ v, z.relay.inner.workerOf taskId = some v → v = worker) ↔
        (∃ answered, .register worker answered ∈ before) ∨
          ∀ v, taker none after = some v → v = worker)) := by
  intro start
  rw [workerOf_resubmitted hbefore hclock hcreated hafter]
  constructor
  · constructor
    · exact .inr
    · rintro (hclaimed | h)
      · rw [hclaimed]
        exact fun v hv => taker_claimed hv
      · exact h
  · intro hplain hown hothers
    rcases claimant_of_unique start session worker (by rwa [claimed_of_plain (hplain worker)])
      (fun v hv => by rw [claimed_of_plain (hplain v)]; exact hothers v hv) before with
      ⟨hclaimed, hregistered⟩ | ⟨hclaimed, hnot⟩
    · rw [hclaimed]
      exact ⟨fun _ => .inl hregistered, fun _ v hv => taker_claimed hv⟩
    · rw [hclaimed]
      refine ⟨.inr, fun h => h.resolve_left ?_⟩
      rintro ⟨answered, hmem⟩
      exact hnot answered hmem

def tracking (session : String) : Tracked := ⟨[(session, 0)], by simp, by simp [maxClaimedSessions]⟩

/-- A replica that tracks session `s`, and one that tracks nothing. -/
def twoReplicas : AList fun _ : String => Replica :=
  (∅ : AList fun _ : String => Replica).insert "v" ⟨⟨[], by simp, by simp⟩, false⟩
    |>.insert "w" ⟨tracking "s", false⟩

theorem twoReplicas_tracked (v : String) :
    (System.restarted 0 twoReplicas).namesOf v = if v = "w" then ["s"] else [] := by
  rw [System.namesOf, System.restarted, twoReplicas]
  dsimp only
  rw [AList.lookup_insert_eq, AList.lookup_insert_eq]
  split
  · rfl
  · split <;> rfl

/-- The replica registers before the resubmission and keeps the session, though the other one
polls first. -/
theorem resubmission_stays_iff_registered :
    let settings : Settings := ⟨fromSecs 120, fromSecs 15⟩
    let perform := System.perform settings (fun _ => none) "r" fun _ => none
    let u := perform (perform (System.restarted 0 twoReplicas) (.heartbeat "w") 0)
      (.register "w" true) 0
    let sent := u.resubmit settings (fun _ => none) "r" "t" [] [] "s" 0 0
    let z := perform (perform sent (.poll "v" 1) 0) (.poll "w" 1) 0
    z.relay.inner.workerOf "t" = some "w" ∧
      ∀ v, z.relay.inner.workerOf "t" = some v → v = "w" := by
  intro settings perform u sent z
  have hbefore : Run (Moves settings (fun _ => none) "r" fun _ => none)
      (System.restarted 0 twoReplicas) [.heartbeat "w", .register "w" true] u :=
    .cons ⟨⟨_, rfl, rfl⟩, 0, le_refl _, rfl⟩ <| .single ⟨⟨_, rfl, rfl⟩, 0, le_refl _, rfl⟩
  have hafter : Run (Moves settings (fun _ => none) "r" fun _ => none) sent
      [.poll "v" 1, .poll "w" 1] z :=
    .cons ⟨⟨_, rfl, trivial⟩, 0, le_refl _, rfl⟩ <|
      .single ⟨⟨_, rfl, trivial⟩, 0, le_refl _, rfl⟩
  have hclaimed : claimant (System.restarted 0 twoReplicas) "s"
      [.heartbeat "w", .register "w" true] = some "w" := by decide +kernel
  have hiff : (∀ v, z.relay.inner.workerOf "t" = some v → v = "w") ↔ _ :=
    (resubmission_stays_iff hbefore (le_refl _) (le_refl _) hafter).1
  exact ⟨by decide +kernel, hiff.mpr (.inl hclaimed)⟩

/-- The resubmission reaches the relay before the replica that holds the cache has registered, and
the other replica polls first. -/
theorem resubmission_taken_by_other :
    ∃ after z, Run (Moves ⟨fromSecs 120, fromSecs 15⟩ (fun _ => none) "r" fun _ => none)
        ((System.restarted 0 twoReplicas).resubmit ⟨fromSecs 120, fromSecs 15⟩ (fun _ => none) "r"
          "t" [] [] "s" 0 0) after z ∧
      "s" ∈ (System.restarted 0 twoReplicas).namesOf "w" ∧
      (∀ v, v ≠ "w" → "s" ∉ (System.restarted 0 twoReplicas).namesOf v) ∧
      z.relay.inner.workerOf "t" = some "v" := by
  refine ⟨[.poll "v" 1, .heartbeat "w", .register "w" true], _,
    .cons ⟨⟨_, rfl, trivial⟩, 0, le_refl _, rfl⟩ <|
    .cons ⟨⟨_, rfl, rfl⟩, 0, le_refl _, rfl⟩ <|
    .single ⟨⟨_, rfl, rfl⟩, 0, le_refl _, rfl⟩, ?_, fun v hv => ?_, rfl⟩
  · rw [twoReplicas_tracked]
    decide
  · rw [twoReplicas_tracked, if_neg hv]
    exact List.not_mem_nil

end Distllm.Restart
