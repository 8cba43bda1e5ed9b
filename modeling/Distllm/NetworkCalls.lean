import Distllm.NetworkSpec
import Distllm.SealedCalls

/-! What a call over the network comes to. Whatever is lost, repeated or late on the way, and however
often the relay or a worker starts again, every accepted upload is an answer of the workers of its
task's role. A call may have several tasks in the relay, all of the same submission; it returns what
one of them comes to. -/

namespace Distllm.Payload.Network

open Relay (Bytes Instant Op Answer Post ResultView Settings World Event getResult HonestStep
  routeRoles)
open Stages
open Payload.Cluster (Phase Reply firstDelay)

variable {ω : Type} {T : Transport ω} {funcs : String → Func ω} {cipher : Option Aead}
  {roleOf : String → String} {pollInterval : Option Relay.Duration} {settings : Settings}
  {readValue : Bytes → Option Relay.Value} {s s' : State ω} {move : Move ω} {w w' : World}

/-! ### Workers are honest -/

theorem exists_of_mem_process {nonce : String → Nonce} {func : Func ω}
    {tasks : List (String × Bytes)} {id : String} {post : Option Post}
    (h : (id, post) ∈ Worker.process T cipher nonce func
      (tasks.map fun task => (task.1, Worker.decode T cipher task.2))) :
    ∃ data, (id, data) ∈ tasks := by
  rcases List.mem_append.mp h with h | h
  · obtain ⟨task, htask, heq⟩ := List.mem_map.mp h
    obtain ⟨hmem, -⟩ := List.mem_filter.mp htask
    obtain ⟨source, hsource, rfl⟩ := List.mem_map.mp hmem
    obtain ⟨rfl, -⟩ := Prod.ext_iff.mp heq
    exact ⟨source.2, hsource⟩
  · obtain ⟨outcome, houtcome, heq⟩ := List.mem_map.mp h
    obtain ⟨hgood, -⟩ := List.of_mem_zip houtcome
    obtain ⟨task, hmem, hpayload⟩ := List.mem_filterMap.mp hgood
    obtain ⟨source, hsource, rfl⟩ := List.mem_map.mp hmem
    obtain ⟨payload, -, hsame⟩ := Option.map_eq_some_iff.mp hpayload
    obtain ⟨rfl, -⟩ := Prod.ext_iff.mp heq
    rw [← hsame]
    exact ⟨source.2, hsource⟩

theorem mem_processed {nonce : String → Nonce} {worker role : String}
    {tasks : List (String × Bytes)} {upload : String × String × Post} :
    upload ∈ processed T funcs cipher nonce worker role tasks ↔ upload.1 = worker ∧
      (upload.2.1, some upload.2.2) ∈ Worker.process T cipher nonce (funcs role)
        (tasks.map fun task => (task.1, Worker.decode T cipher task.2)) := by
  obtain ⟨name, id, post⟩ := upload
  simp only [processed, List.mem_filterMap, Option.map_eq_some_iff, Prod.mk.injEq]
  constructor
  · rintro ⟨⟨id', report⟩, hmem, post', hreport, rfl, rfl, rfl⟩
    dsimp only at hreport ⊢
    rw [← hreport]
    exact ⟨rfl, hmem⟩
  · rintro ⟨rfl, hmem⟩
    exact ⟨_, hmem, post, rfl, rfl, rfl, rfl⟩

/-- What everybody keeps to: `G` is what may be asked of a role, with a route to go on along, and `W`
what a worker of the role may report. Workers hold and upload what belongs to the tasks that they
were handed. -/
structure Honest (W : String → Bytes → Relay.Report → Prop)
    (G : String → Bytes → List String → Prop) (roleOf : String → String)
    (readValue : Bytes → Option Relay.Value) (s : State ω) : Prop where
  proper : s.relay.Proper roleOf
  stored : s.relay.inner.ledger.Stores G
  holding : ∀ worker tasks, s.holding.lookup worker = some tasks →
    (tasks.map Prod.fst).Nodup ∧ ∀ task ∈ tasks,
      s.relay.Handed task.1 (roleOf worker) task.2 ∧ ∃ route, G (roleOf worker) task.2 route
  uploads : ∀ upload ∈ s.uploads, ∃ role data, s.relay.Handed upload.2.1 role data ∧
    W role data (verdict (relaySniff readValue) upload.2.2)

/-- The move asks for nothing but what `G` allows, and what is made of tasks is what `W` allows. -/
def Move.Keeps (T : Transport ω) (funcs : String → Func ω) (cipher : Option Aead)
    (W : String → Bytes → Relay.Report → Prop) (G : String → Bytes → List String → Prop)
    (roleOf : String → String) (readValue : Bytes → Option Relay.Value) (s : State ω) :
    Move ω → Prop
  | .outside (.call (.submit _ role body route _ _) _ _) => G role body route
  | .work worker nonce => ∀ tasks, s.holding.lookup worker = some tasks →
      ∀ upload ∈ processed T funcs cipher nonce worker (roleOf worker) tasks, ∃ data,
        (upload.2.1, data) ∈ tasks ∧
          W (roleOf worker) data (verdict (relaySniff readValue) upload.2.2)
  | .call _ nonce rid role payload route _ _ => ∀ sub,
      Cluster.submit T cipher nonce rid.text role payload route = .ok sub →
        G sub.targetRole sub.body (routeRoles sub.route)
  | _ => True

variable {W : String → Bytes → Relay.Report → Prop} {G : String → Bytes → List String → Prop}

/-- What a stage hands on may be asked of the next one. -/
def HandsOn (W : String → Bytes → Relay.Report → Prop)
    (G : String → Bytes → List String → Prop) : Prop :=
  ∀ role data next tail body, G role data (next :: tail) → W role data (.result body false) →
    G next body tail

theorem honest_of_post_none {event : Event} (h : Relay.Step settings readValue w event w')
    (hpost : event.post = none) : HonestStep settings readValue W w event w' := by
  refine ⟨h, fun id post hsome => ?_⟩
  rw [hpost] at hsome
  cases hsome

theorem post_outside {op : Op} {answer : Answer} {now : Instant} (hop : Outside roleOf op) :
    (Event.call op answer now).post = none := by
  cases op with
  | postResult => exact hop.elim
  | postFailure => exact hop.elim
  | submit => rfl
  | poll => rfl
  | pollDeadline => rfl
  | register => rfl
  | deregister => rfl
  | heartbeat => rfl
  | sweep => rfl

theorem registers_outside {op : Op} (hop : Outside roleOf op) : op.Registers roleOf := by
  cases op with
  | register => exact hop
  | postResult => trivial
  | postFailure => trivial
  | submit => trivial
  | poll => trivial
  | pollDeadline => trivial
  | deregister => trivial
  | heartbeat => trivial
  | sweep => trivial

theorem post_upload {worker taskId next : String} {post : Post} {answer : Answer} {now : Instant}
    {id : String} {post' : Post}
    (h : (Event.call (uploadOp worker taskId next post) answer now).post = some (id, post')) :
    id = taskId ∧ post' = post := by
  cases post with
  | body bytes stopChain =>
      cases answer with
      | outcome outcome =>
          simp only [uploadOp, Event.post, Option.ite_none_right_eq_some, Option.some.injEq,
            Prod.mk.injEq] at h
          exact ⟨h.2.1.symm, h.2.2.symm⟩
      | taskId => cases h
      | tasks => cases h
      | alive => cases h
      | done => cases h
  | failure message =>
      cases answer with
      | outcome outcome =>
          simp only [uploadOp, Event.post, Option.ite_none_right_eq_some, Option.some.injEq,
            Prod.mk.injEq] at h
          exact ⟨h.2.1.symm, h.2.2.symm⟩
      | taskId => cases h
      | tasks => cases h
      | alive => cases h
      | done => cases h

/-- An upload that the relay accepts is an answer that the role of its task may give. -/
theorem honest_upload (hs : Honest W G roleOf readValue s) {worker taskId next : String}
    {post : Post} {answer : Answer} {now : Instant}
    (hupload : (worker, taskId, post) ∈ s.uploads)
    (h : Relay.Step settings readValue s.relay
      (.call (uploadOp worker taskId next post) answer now) w) :
    HonestStep settings readValue W s.relay
      (.call (uploadOp worker taskId next post) answer now) w := by
  refine ⟨h, fun id post' hpost task htask => ?_⟩
  obtain ⟨rfl, rfl⟩ := post_upload hpost
  obtain ⟨role, data, hhanded, hworks⟩ := hs.uploads _ hupload
  obtain ⟨hrole, hpayload⟩ := hhanded.2 task htask
  rw [hrole, hpayload, report_verdict]
  exact hworks

theorem registers_upload {worker taskId next : String} {post : Post} :
    (uploadOp worker taskId next post).Registers roleOf := by
  cases post with
  | body => trivial
  | failure => trivial

/-- The steps of the relay on the way of a move, and what they submit. -/
theorem relay_step {op : Op} {answer : Answer} {now : Instant}
    (h : HonestStep settings readValue W s.relay (.call op answer now) w)
    (hs : Honest W G roleOf readValue s) (hop : op.Registers roleOf) (hnext : HandsOn W G)
    (hsubmit : ∀ id role body route session createdAt,
      op = .submit id role body route session createdAt → G role body route) :
    s.relay.Carries W w ∧ w.Proper roleOf ∧ w.inner.ledger.Stores G := by
  refine ⟨Relay.carries_step h hs.proper.chains, ?_, ?_⟩
  · refine Relay.proper_step h.1 (fun op' answer' now' heq => ?_) hs.proper
    obtain ⟨rfl, -, -⟩ := Event.call.inj heq
    exact hop
  · refine Relay.stores_step h (fun id role body route session createdAt answer' now' heq => ?_)
      hnext hs.stored
    obtain ⟨rfl, -, -⟩ := Event.call.inj heq
    exact hsubmit _ _ _ _ _ _ rfl

/-- Every call asks for something that `G` allows. -/
def Decent (G : String → Bytes → List String → Prop) (s : State ω) : Prop :=
  ∀ key c sub, s.calls.lookup key = some c → c.submission = .ok sub →
    G sub.targetRole sub.body (routeRoles sub.route)

/-- What every move means for the relay. -/
theorem relay_move
    (h : Step T funcs cipher roleOf pollInterval settings readValue s move s')
    (hs : Honest W G roleOf readValue s) (hcalls : Decent G s) (hnext : HandsOn W G)
    (hkeeps : move.Keeps T funcs cipher W G roleOf readValue s) :
    s.relay.Carries W s'.relay ∧ s'.relay.Proper roleOf ∧ s'.relay.inner.ledger.Stores G := by
  have hsame : s.relay.Carries W s.relay ∧ s.relay.Proper roleOf ∧
      s.relay.inner.ledger.Stores G := ⟨.refl _, hs.proper, hs.stored⟩
  cases h with
  | rehashed h =>
      have hhonest := honest_of_post_none (W := W) h rfl
      exact ⟨Relay.carries_step hhonest hs.proper.chains,
        Relay.proper_step h (fun _ _ _ heq => by cases heq) hs.proper,
        Relay.stores_step hhonest (fun _ _ _ _ _ _ _ _ heq => by cases heq) hnext hs.stored⟩
  | outside hop h =>
      refine relay_step (honest_of_post_none h (post_outside hop)) hs (registers_outside hop) hnext
        fun id role body route session createdAt heq => ?_
      subst heq
      exact hkeeps
  | restarted => exact ⟨Relay.carries_restarted _ _, Relay.proper_restarted _ _, nofun⟩
  | polled _ hop h =>
      cases hop with
      | poll => exact relay_step (honest_of_post_none h rfl) hs trivial hnext nofun
      | pollDeadline => exact relay_step (honest_of_post_none h rfl) hs trivial hnext nofun
  | @uploaded _ _ _ post _ _ _ hupload h =>
      refine relay_step (honest_upload hs hupload h) hs registers_upload hnext
        fun _ _ _ _ _ _ heq => ?_
      cases post with
      | body => cases heq
      | failure => cases heq
  | arrived hcall hsub _ h =>
      refine relay_step (honest_of_post_none h rfl) hs trivial hnext
        fun _ _ _ _ _ _ heq => ?_
      obtain ⟨rfl, rfl, rfl, rfl, -, -⟩ := Op.submit.inj heq
      exact hcalls _ _ _ hcall hsub
  | worked => exact hsame
  | stopped => exact hsame
  | called => exact hsame
  | posted => exact hsame
  | heardSubmit => exact hsame
  | asked => exact hsame
  | answered => exact hsame
  | heardView => exact hsame

/-- What a worker hears of its poll are tasks that it was handed. -/
theorem polled_handed {worker : String} {op : Op} {taken : List (String × Bytes)} {now : Instant}
    (hw : w.Proper roleOf) (hop : Polls roleOf worker op)
    (h : Relay.Step settings readValue w (.call op (.tasks taken) now) w') :
    (taken.map Prod.fst).Nodup ∧ ∀ task ∈ taken, w.Handed task.1 (roleOf worker) task.2 ∧
      ∃ record, w.inner.ledger task.1 = some record ∧ record.targetRole = roleOf worker ∧
        record.payload = task.2 := by
  have htaken : ∃ n, taken =
      Relay.withPayloads w.inner (w.inner.batch worker (roleOf worker) n) := by
    generalize hevent : Event.call op (.tasks taken) now = event at h
    cases h with
    | rehash h => cases hevent
    | call _ _ _ =>
        cases hop with
        | poll maxTasks =>
            obtain ⟨rfl, htasks, rfl⟩ := Event.call.inj hevent
            exact ⟨maxTasks, (Answer.tasks.inj htasks).trans
              (Relay.Inner.poll_dealt hw.chains.queues.exact (roleOf worker) worker maxTasks now).1⟩
        | pollDeadline =>
            obtain ⟨rfl, htasks, rfl⟩ := Event.call.inj hevent
            exact ⟨1, (Answer.tasks.inj htasks).trans
              (Relay.Inner.pollDeadline_dealt (roleOf worker) worker now).1⟩
  obtain ⟨n, rfl⟩ := htaken
  exact hw.batch_handed worker n

theorem honest_step
    (h : Step T funcs cipher roleOf pollInterval settings readValue s move s')
    (hs : Honest W G roleOf readValue s) (hcalls : Decent G s) (hnext : HandsOn W G)
    (hkeeps : move.Keeps T funcs cipher W G roleOf readValue s) :
    Honest W G roleOf readValue s' := by
  obtain ⟨hcarries, hproper, hstored⟩ := relay_move h hs hcalls hnext hkeeps
  have hholding : ∀ worker tasks, s.holding.lookup worker = some tasks →
      (tasks.map Prod.fst).Nodup ∧ ∀ task ∈ tasks,
        s'.relay.Handed task.1 (roleOf worker) task.2 ∧ ∃ route, G (roleOf worker) task.2 route :=
    fun worker tasks hheld => (hs.holding worker tasks hheld).imp_right
      fun hall task htask => (hall task htask).imp_left (hcarries.handed _ _ _)
  have huploads : ∀ upload ∈ s.uploads, ∃ role data, s'.relay.Handed upload.2.1 role data ∧
      W role data (verdict (relaySniff readValue) upload.2.2) := by
    intro upload hupload
    obtain ⟨role, data, hhanded, hworks⟩ := hs.uploads upload hupload
    exact ⟨role, data, hcarries.handed _ _ _ hhanded, hworks⟩
  have herased : ∀ worker worker' tasks, (s.holding.erase worker).lookup worker' = some tasks →
      s.holding.lookup worker' = some tasks := by
    intro worker worker' tasks hheld
    by_cases heq : worker' = worker
    · rw [heq, AList.lookup_erase] at hheld
      cases hheld
    · rwa [AList.lookup_erase_ne heq] at hheld
  cases h with
  | @polled worker op taken now w hidle hop h =>
      refine ⟨hproper, hstored, fun worker' tasks hheld => ?_, huploads⟩
      rw [AList.lookup_insert_eq] at hheld
      split at hheld
      · rename_i heq
        obtain rfl := Option.some.inj hheld
        obtain ⟨hnodup, hall⟩ := polled_handed hs.proper hop h
        rw [heq]
        refine ⟨hnodup, fun task htask => ?_⟩
        obtain ⟨hhanded, record, hrecord, hrole, hpayload⟩ := hall task htask
        refine ⟨hcarries.handed _ _ _ hhanded, record.route, ?_⟩
        rw [← hrole, ← hpayload]
        exact hs.stored _ _ hrecord
      · exact hholding worker' tasks hheld
  | @worked worker tasks nonce hheld =>
      refine ⟨hproper, hstored, fun worker' tasks' h => hholding worker' tasks' (herased _ _ _ h),
        fun upload hupload => ?_⟩
      rcases List.mem_append.mp hupload with hnew | hold
      · obtain ⟨data, hdata, hworks⟩ := hkeeps tasks hheld upload hnew
        exact ⟨roleOf worker, data, ((hholding worker tasks hheld).2 _ hdata).1, hworks⟩
      · exact huploads upload hold
  | stopped worker =>
      exact ⟨hproper, hstored, fun worker' tasks' h => hholding worker' tasks' (herased _ _ _ h),
        huploads⟩
  | rehashed => exact ⟨hproper, hstored, hholding, huploads⟩
  | outside => exact ⟨hproper, hstored, hholding, huploads⟩
  | restarted => exact ⟨hproper, hstored, hholding, huploads⟩
  | uploaded => exact ⟨hproper, hstored, hholding, huploads⟩
  | called => exact ⟨hproper, hstored, hholding, huploads⟩
  | posted => exact ⟨hproper, hstored, hholding, huploads⟩
  | arrived => exact ⟨hproper, hstored, hholding, huploads⟩
  | heardSubmit => exact ⟨hproper, hstored, hholding, huploads⟩
  | asked => exact ⟨hproper, hstored, hholding, huploads⟩
  | answered => exact ⟨hproper, hstored, hholding, huploads⟩
  | heardView => exact ⟨hproper, hstored, hholding, huploads⟩

theorem honest_start (clock : Instant) :
    Honest W G roleOf readValue (State.start clock : State ω) where
  proper :=
    { chains := Relay.chainsInv_start clock
      own := fun worker x hx => by cases hx
      roles := fun worker node hnode => by cases hnode }
  stored := nofun
  holding := fun worker tasks hheld => by cases hheld
  uploads := fun upload hupload => by cases hupload

/-! ### What a client hears -/

/-- The task that a call waits for. -/
def awaited : Phase ω → Option String
  | .resting taskId _ _ => some taskId
  | .asking taskId _ => some taskId
  | _ => none

/-- The relay may answer so about a task of this submission. -/
def Answered (W : String → Bytes → Relay.Report → Prop) (sub : Submission) (view : ResultView) :
    Prop :=
  (∀ content, view = .completed content →
    Comes W sub.targetRole sub.body (routeRoles sub.route) (.ok content)) ∧
  ∀ error, view = .failed error → ∃ message, error = Relay.cutError message ∧
    Comes W sub.targetRole sub.body (routeRoles sub.route) (.error message)

/-- A task of the call in the relay, and what it may come to. -/
def OwnTask (W : String → Bytes → Relay.Report → Prop) (w : World) (sub : Submission)
    (id : String) : Prop :=
  id ∈ w.issued ∧ w.inner.ledger.MayCome W id
    (Comes W sub.targetRole sub.body (routeRoles sub.route))

theorem answered_getResult {sub : Submission} {id : String} (hw : w.ChainsInv)
    (h : OwnTask W w sub id) : Answered W sub (getResult w.inner id) := by
  rcases h.2 with hnone | ⟨p, hshow, hmay⟩
  · obtain ⟨hcompleted, hfailed⟩ := Relay.getResult_absent hnone
    exact ⟨fun content h => absurd h (hcompleted content), fun error h => absurd h (hfailed error)⟩
  · obtain ⟨hcompleted, hfailed⟩ := Relay.getResult_shows hw hshow
    refine ⟨fun content h => ?_, fun error h => ?_⟩
    · obtain rfl := hcompleted content h
      exact hmay _ rfl
    · obtain ⟨message, rfl, herror⟩ := hfailed error h
      exact ⟨message, herror, hmay _ rfl⟩

/-- The phase after a request to `/submit` waits for the task that was named, if for any, and is
not the end of a call that came to something. -/
theorem afterSubmit_spec {timeout delay : Relay.Duration} {now deadline : Instant}
    {reply : Reply String} {phase : Phase ω}
    (h : Cluster.afterSubmit timeout now deadline delay reply = phase) :
    (∀ id, awaited phase = some id → reply = .relayed id) ∧
      ∀ outcome, phase ≠ .ended (.returned outcome) := by
  have htry : ∀ ending : Cluster.Ending ω, (∀ outcome, ending ≠ .returned outcome) →
      awaited (Cluster.tryAgain now deadline delay ending) = none ∧ ∀ outcome,
        Cluster.tryAgain now deadline delay ending ≠ .ended (.returned outcome) := by
    intro ending hending
    unfold Cluster.tryAgain
    split
    · exact ⟨rfl, fun outcome heq => hending outcome (Phase.ended.inj heq)⟩
    · exact ⟨rfl, fun outcome heq => by cases heq⟩
  have hother : awaited phase = none → ∀ id, awaited phase = some id → reply = .relayed id := by
    intro hnone id hsome
    rw [hnone] at hsome
    cases hsome
  subst h
  cases reply with
  | lost =>
      obtain ⟨hnone, hnot⟩ := htry .unreachable fun outcome heq => by cases heq
      exact ⟨hother hnone, hnot⟩
  | refused status =>
      unfold Cluster.afterSubmit at hother ⊢
      dsimp only at hother ⊢
      split at hother
      · rename_i hstatus
        rw [if_pos hstatus]
        obtain ⟨hnone, hnot⟩ := htry (.rejected status) fun outcome heq => by cases heq
        exact ⟨hother hnone, hnot⟩
      · rename_i hstatus
        rw [if_neg hstatus]
        refine ⟨?_, ?_⟩
        · apply hother
          split
          · rfl
          · split <;> rfl
        · intro outcome heq
          split at heq
          · cases heq
          · split at heq <;> cases heq
  | relayed id => exact ⟨fun id' h => congrArg _ (Option.some.inj h), fun outcome heq => by cases heq⟩

/-- The phase after a question waits for the same task, or is the end that the relay told. -/
theorem afterView_spec {rid : Option String} {taskId : String} {now deadline : Instant}
    {reply : Reply ResultView} {phase : Phase ω}
    (h : Cluster.afterView T cipher pollInterval rid taskId now deadline reply = phase) :
    (∀ id, awaited phase = some id → id = taskId) ∧
      ∀ outcome, phase = .ended (.returned outcome) →
        (∃ content, reply = .relayed (.completed content) ∧
          outcome = Cluster.waitFor T cipher taskId rid (.ok content)) ∨
        ∃ error, reply = .relayed (.failed error) ∧
          outcome = Cluster.waitFor T cipher taskId rid (.error error) := by
  subst h
  cases reply with
  | lost => exact ⟨fun id h => (Option.some.inj h).symm, fun outcome heq => by cases heq⟩
  | refused status =>
      unfold Cluster.afterView
      dsimp only
      split
      · exact ⟨fun id h => (by cases h), fun outcome heq => by cases heq⟩
      · split
        · exact ⟨fun id h => (by cases h), fun outcome heq => by cases heq⟩
        · split
          · exact ⟨fun id h => (Option.some.inj h).symm, fun outcome heq => by cases heq⟩
          · exact ⟨fun id h => (Option.some.inj h).symm, fun outcome heq => by cases heq⟩
  | relayed view =>
      cases view with
      | notFound => exact ⟨fun id h => (by cases h), fun outcome heq => by cases heq⟩
      | completed content =>
          refine ⟨fun id h => (by cases h), fun outcome heq => .inl ⟨content, rfl, ?_⟩⟩
          exact (Cluster.Ending.returned.inj (Phase.ended.inj heq)).symm
      | failed error =>
          refine ⟨fun id h => (by cases h), fun outcome heq => .inr ⟨error, rfl, ?_⟩⟩
          exact (Cluster.Ending.returned.inj (Phase.ended.inj heq)).symm
      | pending status =>
          exact ⟨fun id h => (Option.some.inj h).symm, fun outcome heq => by cases heq⟩

/-! ### Calls -/

/-- The value or the exception of a call is what cannot be submitted, or what a task of its
submission came to. -/
def Resolved (T : Transport ω) (cipher : Option Aead) (W : String → Bytes → Relay.Report → Prop)
    (c : Cluster.Call ω) (outcome : Except Exc (Value ω)) : Prop :=
  (∃ e, c.submission = .error e ∧ outcome = .error e) ∨
    ∃ sub taskId out, c.submission = .ok sub ∧
      Comes W sub.targetRole sub.body (routeRoles sub.route) out ∧
        outcome = Cluster.waitFor T cipher taskId sub.rid (out.mapError Relay.cutError)

/-- What is known about a call at any time. -/
structure CallInv (T : Transport ω) (cipher : Option Aead)
    (W : String → Bytes → Relay.Report → Prop) (G : String → Bytes → List String → Prop)
    (w : World) (c : Cluster.Call ω) : Prop where
  submitted : ∃ (nonce : Nonce) (rid : Rid),
    c.submission = Cluster.submit T cipher nonce rid.text c.role c.payload c.route
  decent : ∀ sub, c.submission = .ok sub → G sub.targetRole sub.body (routeRoles sub.route)
  arrived : ∀ sub, c.submission = .ok sub → ∀ id ∈ c.arrived, OwnTask W w sub id
  awaits : ∀ id, awaited c.phase = some id → id ∈ c.arrived
  view : ∀ sub, c.submission = .ok sub → ∀ view, c.view = some view → Answered W sub view
  ended : ∀ outcome, c.phase = .ended (.returned outcome) → Resolved T cipher W c outcome

theorem CallInv.carried {c : Cluster.Call ω} (h : CallInv T cipher W G w c)
    (hcarries : w.Carries W w') : CallInv T cipher W G w' c := by
  refine ⟨h.submitted, h.decent, fun sub hsub id hid => ?_, h.awaits, h.view, h.ended⟩
  obtain ⟨hissued, hmay⟩ := h.arrived sub hsub id hid
  exact ⟨hcarries.issued hissued, hcarries.mayCome _ _ hissued hmay⟩

theorem callInv_start (nonce : Nonce) (rid : Rid) {role : String} {payload : Value ω}
    {route : List String} (hdecent : ∀ sub,
      Cluster.submit T cipher nonce rid.text role payload route = .ok sub →
        G sub.targetRole sub.body (routeRoles sub.route)) (timeout : Relay.Duration)
    (now : Instant) :
    CallInv T cipher W G w (.start T cipher nonce rid.text role payload route timeout now) := by
  refine ⟨⟨nonce, rid, rfl⟩, hdecent, fun _ _ id hid => (by cases hid), fun id hid => ?_,
    fun _ _ view hview => (by cases hview), fun outcome hended => ?_⟩
  · dsimp only [Cluster.Call.start] at hid
    split at hid
    · cases hid
    · cases hid
  · dsimp only [Cluster.Call.start] at hended
    split at hended
    · rename_i e hsub
      obtain rfl := Cluster.Ending.returned.inj (Phase.ended.inj hended)
      exact .inl ⟨e, hsub, rfl⟩
    · cases hended

/-- A request that arrives makes a task of the call. -/
theorem ownTask_arrived {sub : Submission} {taskId : String} {createdAt now : Instant}
    {answer : Answer}
    (h : Relay.Step settings readValue w (.call (submitOp taskId sub createdAt) answer now) w') :
    OwnTask W w' sub taskId := by
  generalize hevent : Event.call (submitOp taskId sub createdAt) answer now = event at h
  cases h with
  | rehash h => cases hevent
  | call _ _ _ =>
      obtain ⟨rfl, -, -⟩ := Event.call.inj hevent
      exact ⟨List.mem_cons_self, .inr ⟨_, Relay.submit_shows w.inner taskId sub.targetRole sub.body
        (routeRoles sub.route) sub.session createdAt, fun outcome houtcome => houtcome⟩⟩

/-- Every call in the state. -/
def CallsInv (T : Transport ω) (cipher : Option Aead)
    (W : String → Bytes → Relay.Report → Prop) (G : String → Bytes → List String → Prop)
    (s : State ω) : Prop :=
  ∀ key c, s.calls.lookup key = some c → CallInv T cipher W G s.relay c

theorem CallsInv.decent (h : CallsInv T cipher W G s) : Decent G s :=
  fun key c sub hcall hsub => (h key c hcall).decent sub hsub

theorem CallsInv.setCall {key : Nat} {c : Cluster.Call ω} (h : CallsInv T cipher W G s)
    (hc : CallInv T cipher W G s.relay c) : CallsInv T cipher W G (s.setCall key c) := by
  intro key' c' hlookup
  rw [State.setCall, AList.lookup_insert_eq] at hlookup
  split at hlookup
  · obtain rfl := Option.some.inj hlookup
    exact hc
  · exact h key' c' hlookup

theorem callsInv_step
    (h : Step T funcs cipher roleOf pollInterval settings readValue s move s')
    (hs : Honest W G roleOf readValue s) (hcalls : CallsInv T cipher W G s) (hnext : HandsOn W G)
    (hkeeps : move.Keeps T funcs cipher W G roleOf readValue s) : CallsInv T cipher W G s' := by
  have hcarries := (relay_move h hs hcalls.decent hnext hkeeps).1
  have hold : ∀ key c, s.calls.lookup key = some c → CallInv T cipher W G s'.relay c :=
    fun key c hlookup => (hcalls key c hlookup).carried hcarries
  cases h with
  | rehashed => exact hold
  | outside => exact hold
  | restarted => exact hold
  | polled => exact hold
  | worked => exact hold
  | stopped => exact hold
  | uploaded => exact hold
  | called nonce rid role payload route timeout now =>
      exact hcalls.setCall (callInv_start nonce rid hkeeps timeout now)
  | posted hcall =>
      have hc := hcalls _ _ hcall
      exact hcalls.setCall ⟨hc.submitted, hc.decent, hc.arrived, fun id hid => (by cases hid),
        hc.view, fun outcome hended => by cases hended⟩
  | @arrived key c sub taskId createdAt now answer w hcall hsub _ h =>
      have hc := hold _ _ hcall
      refine CallsInv.setCall hold ⟨hc.submitted, hc.decent, fun sub' hsub' id hid => ?_,
        fun id hid => List.mem_cons_of_mem _ (hc.awaits id hid), hc.view, hc.ended⟩
      rcases List.mem_cons.mp hid with rfl | hid
      · obtain rfl := Except.ok.inj (hsub.symm.trans hsub')
        exact ownTask_arrived h
      · exact hc.arrived sub' hsub' id hid
  | heardSubmit hcall _ _ hreply =>
      have hc := hcalls _ _ hcall
      obtain ⟨hawaits, hnot⟩ := afterSubmit_spec rfl
      exact hcalls.setCall ⟨hc.submitted, hc.decent, hc.arrived,
        fun id hid => hreply id (hawaits id hid), hc.view,
        fun outcome hended => absurd hended (hnot outcome)⟩
  | @asked key c taskId due deadline now hcall hphase _ _ =>
      have hc := hcalls _ _ hcall
      refine hcalls.setCall ⟨hc.submitted, hc.decent, hc.arrived, fun id hid => ?_,
        fun _ _ view hview => (by cases hview), fun outcome hended => ?_⟩
      · dsimp only [Cluster.look] at hid
        split at hid
        · obtain rfl := Option.some.inj hid
          exact hc.awaits taskId (by rw [hphase]; rfl)
        · cases hid
      · dsimp only [Cluster.look] at hended
        split at hended
        · cases hended
        · cases hended
  | @answered key c taskId deadline hcall hphase =>
      have hc := hcalls _ _ hcall
      refine hcalls.setCall ⟨hc.submitted, hc.decent, hc.arrived, hc.awaits,
        fun sub hsub view hview => ?_, hc.ended⟩
      obtain rfl := Option.some.inj hview
      exact answered_getResult hs.proper.chains
        (hc.arrived sub hsub taskId (hc.awaits taskId (by rw [hphase]; rfl)))
  | @heardView key c sub taskId deadline now reply hcall hsub hphase _ hreply =>
      have hc := hcalls _ _ hcall
      obtain ⟨hawaits, hends⟩ := afterView_spec rfl
      refine hcalls.setCall ⟨hc.submitted, hc.decent, hc.arrived, fun id hid => ?_, hc.view,
        fun outcome hended => ?_⟩
      · rw [hawaits id hid]
        exact hc.awaits taskId (by rw [hphase]; rfl)
      · rcases hends outcome hended with ⟨content, hrelayed, rfl⟩ | ⟨error, hrelayed, rfl⟩
        · have hview := hc.view sub hsub _ (hreply _ hrelayed)
          exact .inr ⟨sub, taskId, .ok content, hsub, hview.1 content rfl, rfl⟩
        · have hview := hc.view sub hsub _ (hreply _ hrelayed)
          obtain ⟨message, rfl, hcomes⟩ := hview.2 error rfl
          exact .inr ⟨sub, taskId, .error message, hsub, hcomes, rfl⟩

def someNonce : Nonce := ⟨List.replicate nonceSize 0, List.length_replicate⟩

/-- A number with the request id, sealed. -/
def sealedNumber (n : Fin 128) : Bytes :=
  zeroTag.sealData someNonce (130 :: numberEntry n ++ ridEntry Rid.zeros.text)

def submitted : Submission := ⟨"a", "", none, sealedNumber five, some Rid.zeros.text⟩

end Distllm.Payload.Network
