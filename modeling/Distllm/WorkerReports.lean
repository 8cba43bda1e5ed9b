import Mathlib.Data.List.Perm.Basic
import Distllm.WorkerState

/-! What a worker posts for the tasks that it has polled (`Worker._process`), with everything that
may go wrong on the way: the truth value of an entry that is no plain value, a call of the function
that gives no outcome, an exception whose text cannot be encoded. The uploads themselves are left
out: a report is what is posted, again and again if need be. -/

namespace Distllm.Payload

open Relay (Bytes)

variable {ω : Type}

/-- An exception: its text in the body of a `/fail`, unless forming or encoding the text raises. -/
structure Fault where
  text : Option Bytes

def Exc.fault (e : Exc) : Fault := ⟨some e.text.toUTF8.toList⟩

/-- A worker's function as `_call` runs it, with one payload or, with `batched=True`, with a list of
them. It gives a value, or raises or returns an exception. `none` means that `_call` gives no outcome:
it is left by something that is no `Exception`, such as `KeyboardInterrupt`, or it never ends, since a
`StopIteration` of a function that runs in a thread cannot be handed over by `asyncio.to_thread`. -/
inductive Function (ω : Type) where
  | each (f : Value ω → Option (Except Fault (Value ω)))
  | batch (g : List (Value ω) → Option (Except Fault (List (Except Fault (Value ω)))))

/-- A function that always gives an outcome, and only exceptions whose texts can be encoded. -/
def Func.function : Func ω → Function ω
  | .each f => .each fun payload => some ((f payload).mapError Exc.fault)
  | .batch g => .batch fun payloads =>
    some (((g payloads).map (List.map (Except.mapError Exc.fault))).mapError Exc.fault)

/-- What is posted for a task. -/
inductive Report where
  | result (body : Bytes) (stopChain : Bool)
  | fail (text : Bytes)
  deriving DecidableEq

def Report.ofPost : Relay.Post → Report
  | .body body stopChain => .result body stopChain
  | .failure message => .fail message.toUTF8.toList

/-- `encrypt` of a cipher with its key; it raises for too much data. -/
abbrev Encryption := Nonce → Bytes → Except Exc Bytes

/-- The cipher of small data. -/
def Aead.encryption (cipher : Aead) : Encryption :=
  fun nonce data => .ok (cipher.encrypt nonce.bytes data)

/-- A task id with its payload, or with what made the payload unusable. -/
abbrev Polled (ω : Type) := String × Except Fault (Value ω)

/-- The sessions that were served recently, the one unused for longest first. -/
abbrev Sessions := List (String × Nat)

namespace Worker

def closeKey : Key := .str "close"

/-- `MAX_CLAIMED_SESSIONS` -/
def maxClaimedSessions : Nat := 64

/-- `SESSION_CLAIM_TTL`, in nanoseconds. -/
def sessionClaimTtl : Nat := 900000000000

/-- `batch function returned ... results for ... tasks` -/
def lengthFault (results tasks : Nat) : Fault :=
  Exc.fault ⟨"RuntimeError", "batch function returned " ++ toString results ++
    " results for " ++ toString tasks ++ " tasks"⟩

/-- `_run_func`: one result or exception for each payload. -/
def runFunction : Function ω → List (Value ω) → Option (List (Except Fault (Value ω)))
  | .each f, payloads => payloads.mapM f
  | .batch g, payloads => (g payloads).map fun
    | .error e => List.replicate payloads.length (.error e)
    | .ok results =>
      if results.length = payloads.length then results
      else List.replicate payloads.length (.error (lengthFault results.length payloads.length))

/-- The last loop of `_track_sessions`. -/
def evict (now : Nat) : Sessions → Sessions
  | [] => []
  | (session, used) :: rest =>
    if maxClaimedSessions < rest.length + 1 ∨ sessionClaimTtl < now - used then evict now rest
    else (session, used) :: rest

variable (T : Transport ω) (cipher : Option Encryption) (nonce : String → Nonce) (now : Nat)

/-- `bool(payload.get("close"))` -/
def closeFlag : Value ω → Except Exc Bool
  | .dict d =>
    match d.lookup closeKey with
    | none | some .none => .ok false
    | some (.str s) => .ok (decide (s ≠ ""))
    | some (.other x) => T.truth x
  | .item _ => .ok false

/-- `_track_sessions`, and whether it comes to its end. -/
def trackSessions : List (Value ω) → Sessions → Bool × Sessions
  | [], sessions => (true, evict now sessions)
  | payload :: rest, sessions =>
    match Cluster.sessionOf payload with
    | none => trackSessions rest sessions
    | some session =>
      let sessions := sessions.filter fun entry => entry.1 != session
      match closeFlag T payload with
      | .error _ => (false, sessions)
      | .ok true => trackSessions rest sessions
      | .ok false => trackSessions rest (sessions ++ [(session, now)])

/-- The body of a result: packed and, with a cipher, sealed. -/
def resultBody (nonce : Nonce) (value : Value ω) : Except Exc Bytes :=
  match T.pack value, cipher with
  | .error e, _ => .error e
  | .ok packed, none => .ok packed
  | .ok packed, some encrypt =>
    (encrypt nonce packed).map fun data => magic ++ nonce.bytes ++ data

/-- `_report`; nothing is posted when the text of an exception or the stop flag raises. -/
def reportOutcome (nonce : Nonce) (result : Except Fault (Value ω)) (rid : Item ω) :
    Option Report :=
  match result with
  | .error e => e.text.map .fail
  | .ok value =>
    match resultBody T cipher nonce (attachRid rid value) with
    | .error e => e.fault.text.map .fail
    | .ok body =>
      match stopFlag T (attachRid rid value) with
      | .error _ => none
      | .ok flag => some (.result body flag)

/-- The tasks whose payloads were decoded. -/
def goodTasks (tasks : List (Polled ω)) : List (String × Value ω) :=
  tasks.filterMap fun task => task.2.toOption.map fun payload => (task.1, payload)

def badTasks (tasks : List (Polled ω)) : List (String × Fault) :=
  tasks.filterMap fun
    | (id, .error e) => some (id, e)
    | (_, .ok _) => none

/-- The payloads as the function gets them: without their request ids. -/
def payloadsOf (good : List (String × Value ω)) : List (Value ω) :=
  good.map fun task => (popRid task.2).2

/-- The reports of undecodable payloads. -/
def reportBad (bad : List (String × Fault)) : List (String × Option Report) :=
  bad.map fun task =>
    (task.1, reportOutcome T cipher (nonce task.1) (.error task.2) .none)

/-- The reports of the others: task, outcome and request id are joined by position. -/
def reportGood (good : List (String × Value ω)) (results : List (Except Fault (Value ω))) :
    List (String × Option Report) :=
  (good.zip results).map fun outcome =>
    (outcome.1.1, reportOutcome T cipher (nonce outcome.1.1) outcome.2 (popRid outcome.1.2).1)

/-- What is posted by reports of which some may raise. -/
def posted (reports : List (String × Option Report)) : List (String × Report) :=
  reports.filterMap fun report => report.2.map fun post => (report.1, post)

/-- `_process`: what is posted, and the sessions afterwards. -/
def processTasks (func : Function ω) (tasks : List (Polled ω)) (sessions : Sessions) :
    List (String × Report) × Sessions :=
  let bad := reportBad T cipher nonce (badTasks tasks)
  match goodTasks tasks with
  | [] => (posted bad, sessions)
  | good@(_ :: _) =>
    match trackSessions T now (good.map Prod.snd) sessions with
    | (false, sessions) => ([], sessions)
    | (true, sessions) =>
      match runFunction func (payloadsOf good) with
      | none => ([], sessions)
      | some results => (posted (bad ++ reportGood T cipher nonce good results), sessions)

/-! ### What a function makes of a payload -/

/-- The function's outcome for one payload among those it gets in one call. -/
def outcomeOf : Function ω → List (Value ω) → Value ω → List (Value ω) →
    Option (Except Fault (Value ω))
  | .each f, _, payload, _ => f payload
  | .batch g, before, payload, after => (g (before ++ payload :: after)).bind fun
    | .error e => some (.error e)
    | .ok results =>
      if results.length = (before ++ payload :: after).length then results[before.length]?
      else some (.error (lengthFault results.length (before ++ payload :: after).length))

/-- One outcome for each payload, in its place. -/
def Aligned (func : Function ω) (payloads : List (Value ω))
    (results : List (Except Fault (Value ω))) : Prop :=
  results.length = payloads.length ∧ ∀ before payload after,
    payloads = before ++ payload :: after →
      outcomeOf func before payload after = results[before.length]?

theorem mapM_aligned {f : Value ω → Option (Except Fault (Value ω))} {payloads : List (Value ω)}
    {results : List (Except Fault (Value ω))} (h : payloads.mapM f = some results) :
    Aligned (.each f) payloads results := by
  induction payloads generalizing results with
  | nil =>
      rw [List.mapM_nil] at h
      obtain rfl := Option.some.inj h
      exact ⟨rfl, fun before payload after hsplit => absurd hsplit (by simp)⟩
  | cons first rest ih =>
      rw [List.mapM_cons, Option.bind_eq_bind, Option.bind_eq_some_iff] at h
      obtain ⟨result, hfirst, h⟩ := h
      rw [Option.bind_eq_bind, Option.bind_eq_some_iff] at h
      obtain ⟨others, hrest, h⟩ := h
      obtain rfl : result :: others = results := Option.some.inj h
      obtain ⟨hlength, hothers⟩ := ih hrest
      refine ⟨congrArg Nat.succ hlength, fun before payload after hsplit => ?_⟩
      cases before with
      | nil =>
          obtain ⟨rfl, rfl⟩ := List.cons.inj hsplit
          exact hfirst
      | cons _ before =>
          rw [List.cons_append] at hsplit
          obtain ⟨-, htail⟩ := List.cons.inj hsplit
          exact hothers before payload after htail

theorem runFunction_aligned {func : Function ω} {payloads : List (Value ω)}
    {results : List (Except Fault (Value ω))} (h : runFunction func payloads = some results) :
    Aligned func payloads results := by
  cases func with
  | each f => exact mapM_aligned h
  | batch g =>
      obtain ⟨outcome, hcall, rfl⟩ := Option.map_eq_some_iff.mp h
      cases outcome with
      | error e =>
          refine ⟨List.length_replicate, ?_⟩
          rintro before payload after rfl
          rw [outcomeOf, hcall, List.getElem?_replicate, if_pos (by simp)]
          rfl
      | ok results =>
          dsimp only
          by_cases hlength : results.length = payloads.length
          · rw [if_pos hlength]
            refine ⟨hlength, ?_⟩
            rintro before payload after rfl
            rw [outcomeOf, hcall, Option.bind_some]
            exact if_pos hlength
          · rw [if_neg hlength]
            refine ⟨List.length_replicate, ?_⟩
            rintro before payload after rfl
            rw [outcomeOf, hcall, Option.bind_some, List.getElem?_replicate, if_pos (by simp)]
            exact if_neg hlength

/-- A call without an outcome has none for one of its payloads. -/
theorem runFunction_none {func : Function ω} {payloads : List (Value ω)} (hne : payloads ≠ [])
    (h : runFunction func payloads = none) : ∃ before payload after,
      payloads = before ++ payload :: after ∧ outcomeOf func before payload after = none := by
  cases func with
  | each f =>
      have hmap : payloads.mapM f = none := h
      clear h hne
      induction payloads with
      | nil => cases hmap
      | cons first rest ih =>
          rw [List.mapM_cons, Option.bind_eq_bind] at hmap
          cases hfirst : f first with
          | none => exact ⟨[], first, rest, rfl, hfirst⟩
          | some result =>
              rw [hfirst, Option.bind_some, Option.bind_eq_bind] at hmap
              cases hrest : rest.mapM f with
              | some others =>
                  rw [hrest] at hmap
                  cases hmap
              | none =>
                  obtain ⟨before, payload, after, rfl, hnone⟩ := ih hrest
                  exact ⟨first :: before, payload, after, rfl, hnone⟩
  | batch g =>
      have hcall : g payloads = none := Option.map_eq_none_iff.mp h
      obtain ⟨first, rest, rfl⟩ := List.exists_cons_of_ne_nil hne
      refine ⟨[], first, rest, rfl, ?_⟩
      rw [outcomeOf, List.nil_append, hcall]
      rfl

/-! ### Sessions and reports that come to their end -/

theorem trackSessions_ends {payloads : List (Value ω)} {sessions : Sessions} :
    (trackSessions T now payloads sessions).1 = true ↔ ∀ payload ∈ payloads,
      Cluster.sessionOf payload ≠ none → ∃ flag, closeFlag T payload = .ok flag := by
  induction payloads generalizing sessions with
  | nil => exact iff_of_true rfl fun payload hmem => nomatch hmem
  | cons payload rest ih =>
      rw [trackSessions, List.forall_mem_cons]
      cases hsession : Cluster.sessionOf payload with
      | none =>
          rw [ih]
          exact (and_iff_right fun hne => absurd rfl hne).symm
      | some session =>
          dsimp only
          cases hclose : closeFlag T payload with
          | error e =>
              apply iff_of_false Bool.false_ne_true
              intro hall
              obtain ⟨flag, hflag⟩ := hall.1 (Option.some_ne_none session)
              cases hflag
          | ok flag =>
              rw [and_iff_right fun _ => ⟨flag, rfl⟩]
              cases flag with
              | true => exact ih
              | false => exact ih

/-- The outcome has a text to report, or its stop flag is readable if it packs. -/
def Postable (nonce : Nonce) (result : Except Fault (Value ω)) (rid : Item ω) : Prop :=
  (∀ e, result = .error e → e.text.isSome = true) ∧
    ∀ value body, result = .ok value → resultBody T cipher nonce (attachRid rid value) = .ok body →
      ∃ flag, stopFlag T (attachRid rid value) = .ok flag

theorem reportOutcome_isSome {result : Except Fault (Value ω)} {rid : Item ω} {nonce : Nonce} :
    (reportOutcome T cipher nonce result rid).isSome = true ↔
      Postable T cipher nonce result rid := by
  unfold reportOutcome
  cases result with
  | error e =>
      dsimp only
      rw [Option.isSome_map]
      refine ⟨fun htext => ⟨fun e' he => ?_, fun _ _ hok => by cases hok⟩, fun h => h.1 e rfl⟩
      cases he
      exact htext
  | ok value =>
      dsimp only
      cases hpack : resultBody T cipher nonce (attachRid rid value) with
      | error e =>
          refine iff_of_true rfl ⟨fun _ he => absurd he (by simp), fun value' body hok hbody => ?_⟩
          cases hok
          rw [hpack] at hbody
          cases hbody
      | ok body =>
          dsimp only
          cases hflag : stopFlag T (attachRid rid value) with
          | error e =>
              apply iff_of_false Bool.false_ne_true
              intro h
              obtain ⟨flag, hok⟩ := h.2 value body rfl hpack
              rw [hflag] at hok
              cases hok
          | ok flag =>
              refine iff_of_true rfl ⟨fun _ he => absurd he (by simp), fun value' body hok _ => ?_⟩
              cases hok
              exact ⟨flag, hflag⟩

/-- A posted result is an outcome that packs. -/
theorem reportOutcome_result {result : Except Fault (Value ω)} {rid : Item ω} {nonce : Nonce}
    {body : Bytes} {flag : Bool}
    (h : reportOutcome T cipher nonce result rid = some (.result body flag)) :
    ∃ value, result = .ok value ∧ resultBody T cipher nonce (attachRid rid value) = .ok body := by
  unfold reportOutcome at h
  cases result with
  | error e =>
      obtain ⟨_, _, hfail⟩ := Option.map_eq_some_iff.mp h
      cases hfail
  | ok value =>
      dsimp only at h
      cases hpack : resultBody T cipher nonce (attachRid rid value) with
      | error e =>
          rw [hpack] at h
          obtain ⟨_, _, hfail⟩ := Option.map_eq_some_iff.mp h
          cases hfail
      | ok packed =>
          rw [hpack] at h
          dsimp only at h
          cases hflag : stopFlag T (attachRid rid value) with
          | error e =>
              rw [hflag] at h
              cases h
          | ok flag =>
              rw [hflag] at h
              cases h
              exact ⟨value, rfl, hpack⟩

/-! ### Every task with its own outcome -/

/-- What is posted for a task when the function gets its payload among the other decoded ones. -/
def ownReport (func : Function ω) (before : List (Polled ω)) (task : Polled ω)
    (after : List (Polled ω)) : Option Report :=
  match task.2 with
  | .error e => reportOutcome T cipher (nonce task.1) (.error e) .none
  | .ok payload =>
    (outcomeOf func (payloadsOf (goodTasks before)) (popRid payload).2
      (payloadsOf (goodTasks after))).bind fun result =>
        reportOutcome T cipher (nonce task.1) result (popRid payload).1

/-- The tasks behind the ones in `before`, each with its own report. -/
def ownReports (func : Function ω) :
    List (Polled ω) → List (Polled ω) → List (String × Option Report)
  | _, [] => []
  | before, task :: after =>
    (task.1, ownReport T cipher nonce func before task after) ::
      ownReports func (before ++ [task]) after

@[simp] theorem goodTasks_append (tasks more : List (Polled ω)) :
    goodTasks (tasks ++ more) = goodTasks tasks ++ goodTasks more := List.filterMap_append

@[simp] theorem goodTasks_error (id : String) (e : Fault) (tasks : List (Polled ω)) :
    goodTasks ((id, .error e) :: tasks) = goodTasks tasks := rfl

@[simp] theorem goodTasks_ok (id : String) (payload : Value ω) (tasks : List (Polled ω)) :
    goodTasks ((id, .ok payload) :: tasks) = (id, payload) :: goodTasks tasks := rfl

@[simp] theorem payloadsOf_append (good more : List (String × Value ω)) :
    payloadsOf (good ++ more) = payloadsOf good ++ payloadsOf more := List.map_append

@[simp] theorem payloadsOf_cons (id : String) (payload : Value ω)
    (good : List (String × Value ω)) :
    payloadsOf ((id, payload) :: good) = (popRid payload).2 :: payloadsOf good := rfl

@[simp] theorem length_payloadsOf (good : List (String × Value ω)) :
    (payloadsOf good).length = good.length := List.length_map _

theorem ownReports_length {func : Function ω} (before tasks : List (Polled ω)) :
    (ownReports T cipher nonce func before tasks).length = tasks.length := by
  induction tasks generalizing before with
  | nil => rfl
  | cons task after ih => exact congrArg Nat.succ (ih _)

theorem ownReports_ids {func : Function ω} (before tasks : List (Polled ω)) :
    (ownReports T cipher nonce func before tasks).map Prod.fst = tasks.map Prod.fst := by
  induction tasks generalizing before with
  | nil => rfl
  | cons task after ih => exact congrArg (List.cons task.1) (ih _)

theorem ownReports_getElem? (func : Function ω) (done before : List (Polled ω)) (task : Polled ω)
    (after : List (Polled ω)) :
    (ownReports T cipher nonce func done (before ++ task :: after))[before.length]? =
      some (task.1, ownReport T cipher nonce func (done ++ before) task after) := by
  induction before generalizing done with
  | nil => rw [List.append_nil]; rfl
  | cons first rest ih =>
      rw [List.cons_append, ownReports, List.length_cons, List.getElem?_cons_succ, ih,
        List.append_assoc, List.singleton_append]

/-- The reports joined by position are every task's own: the undecodable ones first. -/
theorem reports_perm_ownReports {func : Function ω} {results : List (Except Fault (Value ω))}
    {tasks : List (Polled ω)} (h : Aligned func (payloadsOf (goodTasks tasks)) results) :
    (reportBad T cipher nonce (badTasks tasks) ++
      reportGood T cipher nonce (goodTasks tasks) results).Perm
        (ownReports T cipher nonce func [] tasks) := by
  obtain ⟨hlength, houtcome⟩ := h
  suffices hsuffix : ∀ before after, tasks = before ++ after →
      (reportBad T cipher nonce (badTasks after) ++ reportGood T cipher nonce (goodTasks after)
        (results.drop (goodTasks before).length)).Perm
          (ownReports T cipher nonce func before after) from hsuffix [] tasks rfl
  intro before after
  induction after generalizing before with
  | nil => exact fun _ => .nil
  | cons task rest ih =>
      intro hsplit
      have hrest := ih (before ++ [task]) (by rw [hsplit, List.append_assoc]; rfl)
      obtain ⟨id, decoded⟩ := task
      cases decoded with
      | error e =>
          rw [goodTasks_append, goodTasks_error, List.length_append] at hrest
          exact hrest.cons _
      | ok payload =>
          rw [goodTasks_append, goodTasks_ok, List.length_append] at hrest
          have hpayloads : payloadsOf (goodTasks tasks) = payloadsOf (goodTasks before) ++
              (popRid payload).2 :: payloadsOf (goodTasks rest) := by simp [hsplit]
          have hbound : (goodTasks before).length < results.length := by
            rw [hlength, hpayloads, List.length_append, length_payloadsOf, List.length_cons]
            omega
          have hown : outcomeOf func (payloadsOf (goodTasks before)) (popRid payload).2
              (payloadsOf (goodTasks rest)) = some results[(goodTasks before).length] := by
            rw [houtcome _ _ _ hpayloads, length_payloadsOf, List.getElem?_eq_getElem hbound]
          have hreport : ownReport T cipher nonce func before (id, .ok payload) rest =
              reportOutcome T cipher (nonce id) results[(goodTasks before).length]
                (popRid payload).1 := congrArg (Option.bind · _) hown
          rw [List.drop_eq_getElem_cons hbound, ownReports, hreport]
          exact List.perm_middle.trans (hrest.cons _)

theorem mem_goodTasks {tasks : List (Polled ω)} {id : String} {payload : Value ω} :
    (id, payload) ∈ goodTasks tasks ↔ (id, .ok payload) ∈ tasks := by
  induction tasks with
  | nil => exact iff_of_false List.not_mem_nil List.not_mem_nil
  | cons task rest ih =>
      obtain ⟨other, decoded⟩ := task
      cases decoded with
      | error e => simp [ih]
      | ok value => simp [ih]

/-- The decoded payloads around one come from the tasks around its task. -/
theorem payloadsOf_split {tasks : List (Polled ω)} {before after : List (Value ω)}
    {payload : Value ω} (h : payloadsOf (goodTasks tasks) = before ++ payload :: after) :
    ∃ earlier id value later, tasks = earlier ++ (id, .ok value) :: later ∧
      payloadsOf (goodTasks earlier) = before ∧ (popRid value).2 = payload ∧
        payloadsOf (goodTasks later) = after := by
  induction tasks generalizing before with
  | nil => exact absurd h (by simp [goodTasks, payloadsOf])
  | cons task rest ih =>
      obtain ⟨id, decoded⟩ := task
      cases decoded with
      | error e =>
          obtain ⟨earlier, id', value, later, rfl, hbefore, hpayload, hafter⟩ := ih h
          exact ⟨(id, .error e) :: earlier, id', value, later, rfl, hbefore, hpayload, hafter⟩
      | ok value =>
          rw [goodTasks_ok, payloadsOf_cons] at h
          cases before with
          | nil =>
              obtain ⟨hpayload, hafter⟩ := List.cons.inj h
              exact ⟨[], id, value, rest, rfl, rfl, hpayload, hafter⟩
          | cons first before =>
              rw [List.cons_append] at h
              obtain ⟨rfl, htail⟩ := List.cons.inj h
              obtain ⟨earlier, id', value', later, rfl, hbefore, hpayload, hafter⟩ := ih htail
              refine ⟨(id, .ok value) :: earlier, id', value', later, rfl, ?_, hpayload, hafter⟩
              rw [goodTasks_ok, payloadsOf_cons, hbefore]

/-- The flags that `_track_sessions` reads can be read. -/
def ClosesReadable (tasks : List (Polled ω)) : Prop :=
  ∀ id payload, (id, .ok payload) ∈ tasks → Cluster.sessionOf payload ≠ none →
    ∃ flag, closeFlag T payload = .ok flag

/-- What `_process` may do: post what can be posted, or nothing at all. -/
theorem processTasks_cases (func : Function ω) (tasks : List (Polled ω)) (sessions : Sessions) :
    (ClosesReadable T tasks ∧ ∃ results, Aligned func (payloadsOf (goodTasks tasks)) results ∧
      (processTasks T cipher nonce now func tasks sessions).1 =
        posted (reportBad T cipher nonce (badTasks tasks) ++
          reportGood T cipher nonce (goodTasks tasks) results)) ∨
    ((processTasks T cipher nonce now func tasks sessions).1 = [] ∧ tasks ≠ [] ∧
      (¬ ClosesReadable T tasks ∨ ∃ before id payload after,
        tasks = before ++ (id, .ok payload) :: after ∧
          outcomeOf func (payloadsOf (goodTasks before)) (popRid payload).2
            (payloadsOf (goodTasks after)) = none)) := by
  unfold processTasks
  cases hgood : goodTasks tasks with
  | nil =>
      refine .inl ⟨fun id payload hmem => ?_, [], ⟨rfl, fun before payload after hsplit => ?_⟩, ?_⟩
      · rw [← mem_goodTasks, hgood] at hmem
        cases hmem
      · exact absurd hsplit (by simp [payloadsOf])
      · rw [reportGood, List.zip_nil_left, List.map_nil, List.append_nil]
  | cons first rest =>
      have hne : tasks ≠ [] := fun hnil => by rw [hnil] at hgood; cases hgood
      have hreadable : (trackSessions T now ((first :: rest).map Prod.snd) sessions).1 = true ↔
          ClosesReadable T tasks := by
        rw [trackSessions_ends, ← hgood]
        refine ⟨fun h id payload hmem => ?_, fun h payload hmem => ?_⟩
        · exact h payload (List.mem_map.mpr ⟨(id, payload), mem_goodTasks.mpr hmem, rfl⟩)
        · obtain ⟨⟨id, _⟩, hgood', rfl⟩ := List.mem_map.mp hmem
          exact h id _ (mem_goodTasks.mp hgood')
      dsimp only
      rcases htrack : trackSessions T now ((first :: rest).map Prod.snd) sessions with
        ⟨_ | _, tracked⟩
      · rw [htrack] at hreadable
        exact .inr ⟨rfl, hne, .inl fun h => Bool.false_ne_true (hreadable.mpr h)⟩
      · rw [htrack] at hreadable
        dsimp only
        cases hrun : runFunction func (payloadsOf (first :: rest)) with
        | some results =>
            exact .inl ⟨hreadable.mp rfl, results, runFunction_aligned hrun, rfl⟩
        | none =>
            obtain ⟨before, payload, after, hsplit, hnone⟩ :=
              runFunction_none (List.cons_ne_nil _ _) hrun
            have hsplit' : payloadsOf (goodTasks tasks) = before ++ payload :: after := by
              rw [hgood]
              exact hsplit
            obtain ⟨earlier, id, value, later, htasks, rfl, rfl, rfl⟩ := payloadsOf_split hsplit'
            exact .inr ⟨rfl, hne, .inr ⟨earlier, id, value, later, htasks, hnone⟩⟩

variable {T cipher nonce now}

/-- Each report that does not raise, under its own id. -/
theorem posted_zip {reports : List (String × Option Report)}
    (h : ∀ report ∈ reports, report.2.isSome = true) : ∃ posts : List Report,
      posts.length = reports.length ∧ posted reports = (reports.map Prod.fst).zip posts ∧
        reports.map Prod.snd = posts.map some := by
  induction reports with
  | nil => exact ⟨[], rfl, rfl, rfl⟩
  | cons report rest ih =>
      obtain ⟨id, post⟩ := report
      rw [List.forall_mem_cons] at h
      obtain ⟨post, rfl⟩ := Option.isSome_iff_exists.mp h.1
      obtain ⟨posts, hlength, hzip, hsome⟩ := ih h.2
      refine ⟨post :: posts, congrArg Nat.succ hlength, congrArg (List.cons (id, post)) hzip, ?_⟩
      rw [List.map_cons, List.map_cons, hsome]

/-- What the report of a task needs: a text, or an outcome that can be posted. -/
theorem ownReport_isSome {func : Function ω} {before : List (Polled ω)} {task : Polled ω}
    {after : List (Polled ω)} :
    (ownReport T cipher nonce func before task after).isSome = true ↔
      (∀ e, task.2 = .error e → e.text.isSome = true) ∧
        ∀ payload, task.2 = .ok payload → ∃ result,
          outcomeOf func (payloadsOf (goodTasks before)) (popRid payload).2
            (payloadsOf (goodTasks after)) = some result ∧
          Postable T cipher (nonce task.1) result (popRid payload).1 := by
  obtain ⟨id, decoded⟩ := task
  cases decoded with
  | error e =>
      have hreport : ownReport T cipher nonce func before (id, .error e) after =
          e.text.map .fail := rfl
      rw [hreport, Option.isSome_map]
      refine ⟨fun htext => ⟨fun e' he => ?_, fun payload hok => absurd hok (by simp)⟩,
        fun h => h.1 e rfl⟩
      cases he
      exact htext
  | ok payload =>
      have hreport : ownReport T cipher nonce func before (id, .ok payload) after =
          (outcomeOf func (payloadsOf (goodTasks before)) (popRid payload).2
            (payloadsOf (goodTasks after))).bind fun result =>
              reportOutcome T cipher (nonce id) result (popRid payload).1 := rfl
      rw [hreport]
      refine ⟨fun h => ⟨fun e he => absurd he (by simp), fun payload' hok => ?_⟩, fun h => ?_⟩
      · cases hok
        cases houtcome : outcomeOf func (payloadsOf (goodTasks before)) (popRid payload).2
          (payloadsOf (goodTasks after)) with
        | none => rw [houtcome] at h; cases h
        | some result =>
            rw [houtcome] at h
            exact ⟨result, rfl, (reportOutcome_isSome T cipher).mp h⟩
      · obtain ⟨result, houtcome, hpostable⟩ := h.2 payload rfl
        rw [houtcome]
        exact (reportOutcome_isSome T cipher).mpr hpostable

/-! ### The reports of a list of tasks -/

variable (T cipher nonce now)

/-- Every task is reported once, with its own outcome; a result comes from a decoded payload and an
outcome that packs; the others fare as if undecodable payloads had not been polled. -/
structure Reported (func : Function ω) (tasks : List (Polled ω)) (sessions : Sessions) : Prop where
  once : ∃ reports : List Report, reports.length = tasks.length ∧
    (processTasks T cipher nonce now func tasks sessions).1.Perm
      ((tasks.map Prod.fst).zip reports) ∧
    ∀ before task after, tasks = before ++ task :: after →
      ownReport T cipher nonce func before task after = reports[before.length]?
  result : ∀ id body flag,
    (id, .result body flag) ∈ (processTasks T cipher nonce now func tasks sessions).1 →
      ∃ before payload after value, tasks = before ++ (id, .ok payload) :: after ∧
        outcomeOf func (payloadsOf (goodTasks before)) (popRid payload).2
          (payloadsOf (goodTasks after)) = some (.ok value) ∧
        resultBody T cipher (nonce id) (attachRid (popRid payload).1 value) = .ok body
  undecodable : (processTasks T cipher nonce now func tasks sessions).1 =
    ((badTasks tasks).filterMap fun task => task.2.text.map fun text => (task.1, .fail text)) ++
      (processTasks T cipher nonce now func (tasks.filter fun task => task.2.isOk) sessions).1

/-- Nothing raises outside the places where `_process` expects it. -/
structure Reportable (func : Function ω) (tasks : List (Polled ω)) : Prop where
  closes : ClosesReadable T tasks
  text : ∀ id e, (id, .error e) ∈ tasks → e.text.isSome = true
  outcome : ∀ before id payload after, tasks = before ++ (id, .ok payload) :: after → ∃ result,
    outcomeOf func (payloadsOf (goodTasks before)) (popRid payload).2
      (payloadsOf (goodTasks after)) = some result ∧
    Postable T cipher (nonce id) result (popRid payload).1

variable {T cipher nonce now}

theorem Reportable.ownReport_isSome {func : Function ω} {tasks : List (Polled ω)}
    (h : Reportable T cipher nonce func tasks) {before : List (Polled ω)} {task : Polled ω}
    {after : List (Polled ω)} (hsplit : tasks = before ++ task :: after) :
    (ownReport T cipher nonce func before task after).isSome = true := by
  refine Worker.ownReport_isSome.mpr ⟨fun e he => h.text task.1 e ?_, fun payload hok => ?_⟩
  · rw [hsplit, ← he]
    exact List.mem_append_right _ List.mem_cons_self
  · apply h.outcome before task.1 payload after
    rw [hsplit, ← hok]

theorem ownReports_isSome {func : Function ω} {tasks : List (Polled ω)}
    (h : ∀ before task after, tasks = before ++ task :: after →
      (ownReport T cipher nonce func before task after).isSome = true) :
    ∀ report ∈ ownReports T cipher nonce func [] tasks, report.2.isSome = true := by
  suffices hsuffix : ∀ before after, tasks = before ++ after →
      ∀ report ∈ ownReports T cipher nonce func before after, report.2.isSome = true from
    hsuffix [] tasks rfl
  intro before after
  induction after generalizing before with
  | nil => exact fun _ _ hmem => nomatch hmem
  | cons task rest ih =>
      intro hsplit
      rw [ownReports, List.forall_mem_cons]
      exact ⟨h before task rest hsplit, ih _ (by rw [hsplit, List.append_assoc]; rfl)⟩

theorem posted_reportBad (bad : List (String × Fault)) :
    posted (reportBad T cipher nonce bad) =
      bad.filterMap fun task => task.2.text.map fun text => (task.1, .fail text) := by
  rw [posted, reportBad, List.filterMap_map]
  apply List.filterMap_congr
  intro task _
  exact Option.map_map _ _ _

theorem goodTasks_filter (tasks : List (Polled ω)) :
    goodTasks (tasks.filter fun task => task.2.isOk) = goodTasks tasks := by
  induction tasks with
  | nil => rfl
  | cons task rest ih =>
      obtain ⟨id, decoded⟩ := task
      cases decoded with
      | error e => exact ih
      | ok payload => exact congrArg (List.cons (id, payload)) ih

theorem badTasks_filter (tasks : List (Polled ω)) :
    badTasks (tasks.filter fun task => task.2.isOk) = [] := by
  induction tasks with
  | nil => rfl
  | cons task rest ih =>
      obtain ⟨id, decoded⟩ := task
      cases decoded with
      | error e => exact ih
      | ok payload => exact ih

variable (T cipher nonce now) in
/-- The function and its bookkeeping see the same with and without the undecodable payloads. -/
theorem processTasks_filter (func : Function ω) (tasks : List (Polled ω)) (sessions : Sessions) :
    (processTasks T cipher nonce now func tasks sessions).1 =
      posted (reportBad T cipher nonce (badTasks tasks)) ++
        (processTasks T cipher nonce now func
          (tasks.filter fun task => task.2.isOk) sessions).1 ∨
    ((processTasks T cipher nonce now func tasks sessions).1 = [] ∧ tasks ≠ []) := by
  unfold processTasks
  rw [goodTasks_filter, badTasks_filter]
  cases hgood : goodTasks tasks with
  | nil => exact .inl (List.append_nil _).symm
  | cons first rest =>
      have hne : tasks ≠ [] := fun hnil => by rw [hnil] at hgood; cases hgood
      dsimp only
      rcases trackSessions T now ((first :: rest).map Prod.snd) sessions with ⟨_ | _, tracked⟩
      · exact .inr ⟨rfl, hne⟩
      · dsimp only
        cases runFunction func (payloadsOf (first :: rest)) with
        | none => exact .inr ⟨rfl, hne⟩
        | some results => exact .inl List.filterMap_append

theorem Reportable.once {func : Function ω} {tasks : List (Polled ω)}
    (h : Reportable T cipher nonce func tasks) (now : Nat) (sessions : Sessions) : ∃ reports : List Report,
      reports.length = tasks.length ∧
      (processTasks T cipher nonce now func tasks sessions).1.Perm
        ((tasks.map Prod.fst).zip reports) ∧
      ∀ before task after, tasks = before ++ task :: after →
        ownReport T cipher nonce func before task after = reports[before.length]? := by
  rcases processTasks_cases T cipher nonce now func tasks sessions with
    ⟨-, results, haligned, hposts⟩ | ⟨-, -, hcloses | ⟨before, id, payload, after, hsplit, hnone⟩⟩
  · have hperm := reports_perm_ownReports T cipher nonce haligned
    obtain ⟨reports, hlength, hzip, hsome⟩ :=
      posted_zip (ownReports_isSome fun _ _ _ hsplit => h.ownReport_isSome hsplit)
    refine ⟨reports, hlength.trans (ownReports_length T cipher nonce [] tasks), ?_, ?_⟩
    · rw [hposts, ← ownReports_ids T cipher nonce [] tasks, ← hzip]
      exact hperm.filterMap _
    · intro before task after hsplit
      have hat := ownReports_getElem? T cipher nonce func [] before task after
      rw [← hsplit, List.nil_append] at hat
      have hown : ((ownReports T cipher nonce func [] tasks).map Prod.snd)[before.length]? =
          some (ownReport T cipher nonce func before task after) := by
        rw [List.getElem?_map, hat]
        rfl
      rw [hsome, List.getElem?_map, Option.map_eq_some_iff] at hown
      obtain ⟨report, hreport, hown⟩ := hown
      rw [hreport, hown]
  · exact absurd h.closes hcloses
  · obtain ⟨result, hresult, -⟩ := h.outcome before id payload after hsplit
    rw [hnone] at hresult
    cases hresult

/-- A posted result is the packed outcome of its own task. -/
theorem result_own {func : Function ω} {tasks : List (Polled ω)} {reports : List Report}
    (hown : ∀ before task after, tasks = before ++ task :: after →
      ownReport T cipher nonce func before task after = reports[before.length]?)
    {id : String} {body : Bytes} {flag : Bool}
    (hmem : (id, .result body flag) ∈ (tasks.map Prod.fst).zip reports) :
    ∃ before payload after value, tasks = before ++ (id, .ok payload) :: after ∧
      outcomeOf func (payloadsOf (goodTasks before)) (popRid payload).2
        (payloadsOf (goodTasks after)) = some (.ok value) ∧
      resultBody T cipher (nonce id) (attachRid (popRid payload).1 value) = .ok body := by
  obtain ⟨k, hk⟩ := List.getElem?_of_mem hmem
  obtain ⟨hid, hreport⟩ := List.getElem?_zip_eq_some.mp hk
  rw [List.getElem?_map] at hid
  obtain ⟨⟨_, decoded⟩, htask, rfl⟩ := Option.map_eq_some_iff.mp hid
  obtain ⟨hlt, htask⟩ := List.getElem?_eq_some_iff.mp htask
  have hsplit : tasks = tasks.take k ++ tasks[k] :: tasks.drop (k + 1) := by
    rw [← List.drop_eq_getElem_cons hlt, List.take_append_drop]
  rw [htask] at hsplit
  have hreported := hown _ _ _ hsplit
  rw [List.length_take, Nat.min_eq_left hlt.le, hreport] at hreported
  cases decoded with
  | error e =>
      obtain ⟨_, _, hfail⟩ := Option.map_eq_some_iff.mp hreported
      cases hfail
  | ok payload =>
      obtain ⟨result, houtcome, hreported⟩ := Option.bind_eq_some_iff.mp hreported
      obtain ⟨value, rfl, hbody⟩ := reportOutcome_result T cipher hreported
      exact ⟨_, payload, _, value, hsplit, houtcome, hbody⟩

theorem Reportable.reported {func : Function ω} {tasks : List (Polled ω)} {sessions : Sessions}
    (h : Reportable T cipher nonce func tasks) :
    Reported T cipher nonce now func tasks sessions := by
  obtain ⟨reports, hlength, hperm, hown⟩ := h.once now sessions
  refine ⟨⟨reports, hlength, hperm, hown⟩, fun id body flag hmem => ?_, ?_⟩
  · exact result_own hown (hperm.mem_iff.mp hmem)
  · rcases processTasks_filter T cipher nonce now func tasks sessions with hposts | ⟨hnil, hne⟩
    · rw [hposts, posted_reportBad]
    · have hposts := hperm.length_eq
      rw [hnil, List.length_zip, List.length_map, hlength, Nat.min_self] at hposts
      exact absurd (List.length_eq_zero_iff.mp hposts.symm) hne

theorem runFunction_function (func : Func ω) (payloads : List (Value ω)) :
    runFunction func.function payloads =
      some ((runFunc func payloads).map (Except.mapError Exc.fault)) := by
  cases func with
  | each f =>
      rw [runFunc, List.map_map]
      induction payloads with
      | nil => rfl
      | cons payload rest ih =>
          have hrest : rest.mapM (fun payload => some ((f payload).mapError Exc.fault)) =
              some (rest.map (Except.mapError Exc.fault ∘ f)) := ih
          rw [Func.function, runFunction, List.mapM_cons, hrest]
          rfl
  | batch g =>
      rw [runFunc, Func.function, runFunction, Option.map_some]
      cases g payloads with
      | error e =>
          dsimp only [Except.map, Except.mapError]
          rw [List.map_replicate]
          rfl
      | ok results =>
          simp only [Except.map, Except.mapError, List.length_map]
          split
          · rfl
          · rw [List.map_replicate]
            rfl

theorem resultBody_seal (cipher : Option Aead) (nonce : Nonce) (value : Value ω) :
    resultBody T (cipher.map Aead.encryption) nonce value =
      (T.pack value).map (sealWith cipher nonce) := by
  unfold resultBody
  cases T.pack value with
  | error e => rfl
  | ok packed => cases cipher <;> rfl

theorem reportOutcome_report (cipher : Option Aead) (nonce : Nonce)
    (result : Except Exc (Value ω)) (rid : Item ω) :
    reportOutcome T (cipher.map Aead.encryption) nonce (result.mapError Exc.fault) rid =
      (report T cipher nonce result rid).map Report.ofPost := by
  cases result with
  | error e => rfl
  | ok value =>
      unfold reportOutcome report
      dsimp only [Except.mapError]
      rw [resultBody_seal]
      cases T.pack (attachRid rid value) with
      | error e => rfl
      | ok body =>
          dsimp only [Except.map]
          cases stopFlag T (attachRid rid value) <;> rfl

theorem Aligned.unique {func : Function ω} {payloads : List (Value ω)}
    {results results' : List (Except Fault (Value ω))} (h : Aligned func payloads results)
    (h' : Aligned func payloads results') : results = results' := by
  apply List.ext_getElem?
  intro k
  by_cases hk : k < payloads.length
  · have hsplit : payloads = payloads.take k ++ payloads[k] :: payloads.drop (k + 1) := by
      rw [← List.drop_eq_getElem_cons hk, List.take_append_drop]
    have hat := (h.2 _ _ _ hsplit).symm.trans (h'.2 _ _ _ hsplit)
    rwa [List.length_take, Nat.min_eq_left hk.le] at hat
  · rw [List.getElem?_eq_none (by rw [h.1]; omega), List.getElem?_eq_none (by rw [h'.1]; omega)]

/-- What is polled, with the text of every exception. -/
def polled (tasks : List (String × Except Exc (Value ω))) : List (Polled ω) :=
  tasks.map fun task => (task.1, task.2.mapError Exc.fault)

theorem process_reports (cipher : Option Aead) (func : Func ω)
    (tasks : List (String × Except Exc (Value ω))) :
    (process T cipher nonce func tasks).map (fun report =>
        (report.1, report.2.map Report.ofPost)) =
      reportBad T (cipher.map Aead.encryption) nonce (badTasks (polled tasks)) ++
        reportGood T (cipher.map Aead.encryption) nonce (goodTasks (polled tasks))
          ((runFunc func (payloadsOf (goodTasks (polled tasks)))).map
            (Except.mapError Exc.fault)) := by
  have hgood : (tasks.filterMap fun task =>
      task.2.toOption.map fun payload => (task.1, popRid payload)) =
      (goodTasks (polled tasks)).map fun task => (task.1, popRid task.2) := by
    rw [goodTasks, polled, List.filterMap_map, List.map_filterMap]
    apply List.filterMap_congr
    rintro ⟨id, decoded⟩ _
    cases decoded <;> rfl
  have hbad : ((tasks.filter fun task => !task.2.isOk).map fun task =>
      (task.1, (report T cipher (nonce task.1) task.2 .none).map Report.ofPost)) =
      reportBad T (cipher.map Aead.encryption) nonce (badTasks (polled tasks)) := by
    clear hgood
    induction tasks with
    | nil => rfl
    | cons task rest ih =>
        obtain ⟨id, decoded⟩ := task
        cases decoded with
        | ok payload => exact ih
        | error e => exact congrArg (List.cons _) ih
  rw [process, hgood, List.map_append, List.map_map, List.map_map]
  refine congr_arg₂ (· ++ ·) hbad ?_
  rw [reportGood, payloadsOf, List.map_map, List.zip_map_left, List.zip_map_right, List.map_map, List.map_map]
  apply List.map_congr_left
  rintro ⟨⟨id, payload⟩, result⟩ _
  exact congrArg (Prod.mk id) (reportOutcome_report cipher (nonce id) result _).symm

/-- A worker that can track its sessions posts what `process` says. -/
theorem processTasks_process (cipher : Option Aead) (func : Func ω)
    (tasks : List (String × Except Exc (Value ω))) (sessions : Sessions)
    (hcloses : ClosesReadable T (polled tasks)) :
    (processTasks T (cipher.map Aead.encryption) nonce now func.function (polled tasks) sessions).1 =
      posted ((process T cipher nonce func tasks).map fun report =>
        (report.1, report.2.map Report.ofPost)) := by
  have haligned := runFunction_aligned
    (runFunction_function func (payloadsOf (goodTasks (polled tasks))))
  rcases processTasks_cases T (cipher.map Aead.encryption) nonce now func.function (polled tasks)
    sessions with ⟨-, results, h, hposts⟩ |
      ⟨-, -, hnot | ⟨before, id, payload, after, hsplit, hnone⟩⟩
  · rw [hposts, process_reports, h.unique haligned]
  · exact absurd hcloses hnot
  · have hpayloads : payloadsOf (goodTasks (polled tasks)) = payloadsOf (goodTasks before) ++
        (popRid payload).2 :: payloadsOf (goodTasks after) := by simp [hsplit]
    have hat := haligned.2 _ _ _ hpayloads
    rw [hnone, eq_comm, List.getElem?_eq_none_iff, haligned.1, hpayloads, List.length_append,
      List.length_cons] at hat
    omega

end Worker
end Distllm.Payload
