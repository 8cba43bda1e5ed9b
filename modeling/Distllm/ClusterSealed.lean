import Distllm.ClusterState

/-! What a client that encrypts its payloads accepts from a malicious relay. A value is an answer
to a submission when a worker sealed it as the result of a payload that the submission's route
hands on. The check of the request id alone does not ensure that: the id also travels in the
sealed request and in every result made along the way and beyond, and it is forgotten at the
first use. -/

namespace Distllm.Cluster

variable {β : Type} {log log' : List (Sealed β)} {s s' t : State β} {sub : Submission}
  {rid : Rid} {n m k : Nat} {taskId : TaskId} {role : String} {x : Returned β} {e : Event β}
  {events : List (Event β)}

/-- The request id that a sealed message carries. -/
def ridAt (log : List (Sealed β)) (n : Nat) : Option Rid :=
  log[n]?.bind fun message => message.value.rid

/-- The role and the input of a result. -/
def madeFrom (log : List (Sealed β)) (n : Nat) : Option (String × Nat) :=
  log[n]?.bind fun message =>
    match message.origin with
    | .request => none
    | .result role input => some (role, input)

/-- The payload that the route hands to the role at place `k`: the request, or the result that
the role before has made of the payload it was handed. -/
def Handed (log : List (Sealed β)) (sub : Submission) : Nat → Nat → Prop
  | 0, n => n = sub.request
  | k + 1, n => ∃ made ∈ madeFrom log n, sub.roles[k]? = some made.1 ∧ Handed log sub k made.2

instance Handed.decidable (log : List (Sealed β)) (sub : Submission) :
    ∀ k n, Decidable (Handed log sub k n)
  | 0, n => inferInstanceAs (Decidable (n = sub.request))
  | k + 1, n =>
    have := Handed.decidable log sub k
    inferInstanceAs (Decidable (∃ made ∈ madeFrom log n,
      sub.roles[k]? = some made.1 ∧ Handed log sub k made.2))

def OnRoute (log : List (Sealed β)) (sub : Submission) (n : Nat) : Prop :=
  ∃ k < sub.roles.length, Handed log sub k n

/-- A worker has sealed the message as the result of a payload of the submission. -/
def Answer (log : List (Sealed β)) (sub : Submission) (n : Nat) : Prop :=
  ∃ made ∈ madeFrom log n, OnRoute log sub made.2

/-- The value was read from a result of the submission that has the task id. -/
def Answered (s : State β) (x : Returned β) : Prop :=
  (∃ sub ∈ s.submissions, sub.taskId = x.taskId) ∧
    (∀ sub ∈ s.submissions, sub.taskId = x.taskId → Answer s.log sub x.message) ∧
    (s.log[x.message]?).map (fun message => message.value.plain) = some x.value.plain

/-- What a relay does that is not after the gaps of the check: every submission gets a task id of
its own; a payload that carries the request id of a submission is handed to workers along its
route; and a client that waits still expects a request id and does not get its own request. -/
def Event.Proper (s : State β) : Event β → Prop
  | .submit taskId _ _ _ => ∀ sub ∈ s.submissions, sub.taskId ≠ taskId
  | .submitOther _ => True
  | .work _ message _ => ∀ sub ∈ s.submissions, ∀ rid ∈ ridAt s.log sub.request,
      ridAt s.log message = some rid → OnRoute s.log sub message
  | .waitFor taskId message => message < s.log.length →
      s.rids.lookup taskId ≠ none ∧
        ∀ sub ∈ s.submissions, sub.taskId = taskId → message ≠ sub.request

instance (log : List (Sealed β)) (sub : Submission) (n : Nat) : Decidable (OnRoute log sub n) :=
  inferInstanceAs (Decidable (∃ k < sub.roles.length, Handed log sub k n))

instance (log : List (Sealed β)) (sub : Submission) (n : Nat) : Decidable (Answer log sub n) :=
  inferInstanceAs (Decidable (∃ made ∈ madeFrom log n, OnRoute log sub made.2))

instance [DecidableEq β] (s : State β) (x : Returned β) : Decidable (Answered s x) :=
  inferInstanceAs (Decidable (_ ∧ _ ∧ _))

instance (s : State β) (e : Event β) : Decidable (e.Proper s) :=
  match e with
  | .submit taskId _ _ _ => inferInstanceAs (Decidable (∀ sub ∈ s.submissions, sub.taskId ≠ taskId))
  | .submitOther _ => inferInstanceAs (Decidable True)
  | .work _ message _ => inferInstanceAs (Decidable (∀ sub ∈ s.submissions,
      ∀ rid ∈ ridAt s.log sub.request, ridAt s.log message = some rid → OnRoute s.log sub message))
  | .waitFor taskId message => inferInstanceAs (Decidable (message < s.log.length →
      s.rids.lookup taskId ≠ none ∧
        ∀ sub ∈ s.submissions, sub.taskId = taskId → message ≠ sub.request))

theorem ridAt_append (tail : List (Sealed β)) (h : n < log.length) :
    ridAt (log ++ tail) n = ridAt log n := by
  rw [ridAt, List.getElem?_append_left h, ridAt]

theorem ridAt_push {message : Sealed β} (h : ridAt (log ++ [message]) n = some rid) :
    ridAt log n = some rid ∨ n = log.length ∧ message.value.rid = some rid := by
  rcases lt_trichotomy n log.length with hn | hn | hn
  · exact .inl (ridAt_append [message] hn ▸ h)
  · rw [hn, ridAt, List.getElem?_concat_length] at h
    exact .inr ⟨hn, h⟩
  · rw [ridAt, List.getElem?_eq_none (by rw [List.length_append]; exact hn)] at h
    cases h

/-- What has been sealed stays where it is. -/
theorem getElem?_append_of_some {message : Sealed β} (tail : List (Sealed β))
    (h : log[n]? = some message) : (log ++ tail)[n]? = some message := by
  rw [List.getElem?_append_left (List.getElem?_eq_some_iff.1 h).1, h]

theorem madeFrom_append {made : String × Nat} (tail : List (Sealed β))
    (h : made ∈ madeFrom log n) : made ∈ madeFrom (log ++ tail) n := by
  obtain ⟨message, hmessage, hmade⟩ := Option.bind_eq_some_iff.1 h
  exact Option.bind_eq_some_iff.2 ⟨message, getElem?_append_of_some tail hmessage, hmade⟩

theorem Handed.append (tail : List (Sealed β)) :
    ∀ {k n : Nat}, Handed log sub k n → Handed (log ++ tail) sub k n
  | 0, _, h => h
  | _ + 1, _, ⟨made, hmade, hrole, h⟩ => ⟨made, madeFrom_append tail hmade, hrole, h.append tail⟩

theorem OnRoute.append (tail : List (Sealed β)) (h : OnRoute log sub n) :
    OnRoute (log ++ tail) sub n := by
  obtain ⟨k, hk, h⟩ := h
  exact ⟨k, hk, h.append tail⟩

theorem Answer.append (tail : List (Sealed β)) (h : Answer log sub n) :
    Answer (log ++ tail) sub n := by
  obtain ⟨made, hmade, h⟩ := h
  exact ⟨made, madeFrom_append tail hmade, h.append tail⟩

/-- A worker's result is an answer when the worker was handed a payload of the submission. -/
theorem answer_push {value : Value β} (h : OnRoute log sub n) :
    Answer (log ++ [⟨.result role n, value⟩]) sub log.length :=
  ⟨(role, n), by simp [madeFrom], h.append _⟩

/-- The request ids are drawn once and only answers echo them; the client expects the ids of its
own requests, and every value it has returned is an answer. -/
structure Sound (s : State β) : Prop where
  drawn : ∀ n rid, ridAt s.log n = some rid → rid < s.nextRid
  made : ∀ sub ∈ s.submissions, sub.request < s.log.length
  traced : ∀ sub ∈ s.submissions, ∀ n rid, ridAt s.log sub.request = some rid →
    ridAt s.log n = some rid → n = sub.request ∨ Answer s.log sub n
  distinct : ∀ a ∈ s.submissions, ∀ b ∈ s.submissions, a.taskId = b.taskId → a = b
  expected : ∀ taskId rid, s.rids.lookup taskId = some rid →
    ∃ sub ∈ s.submissions, sub.taskId = taskId ∧ ridAt s.log sub.request = some rid
  answered : ∀ x ∈ s.returned, Answered s x

theorem sound_init : Sound (State.init : State β) where
  drawn := by simp [State.init, ridAt]
  made := by simp [State.init]
  traced := by simp [State.init]
  distinct := by simp [State.init]
  expected := by simp [State.init]
  answered := by simp [State.init]

/-- One more sealed message. It may carry the id of a request only if it is an answer to it. -/
theorem Sound.push (hs : Sound s) {next : Rid} {message : Sealed β} (hnext : s.nextRid ≤ next)
    (hdrawn : ∀ rid, message.value.rid = some rid → rid < next)
    (htraced : ∀ sub ∈ s.submissions, ∀ rid, ridAt s.log sub.request = some rid →
      message.value.rid = some rid → Answer (s.log ++ [message]) sub s.log.length) :
    Sound { s with log := s.log ++ [message], nextRid := next } where
  drawn n rid h := by
      rcases ridAt_push h with hold | ⟨-, hnew⟩
      · exact lt_of_lt_of_le (hs.drawn n rid hold) hnext
      · exact hdrawn rid hnew
  made sub hsub := by
      rw [List.length_append]
      exact Nat.lt_add_right _ (hs.made sub hsub)
  traced sub hsub n rid hrequest hn := by
      rw [ridAt_append _ (hs.made sub hsub)] at hrequest
      rcases ridAt_push hn with hold | ⟨rfl, hnew⟩
      · exact (hs.traced sub hsub n rid hrequest hold).imp_right (.append _)
      · exact .inr (htraced sub hsub rid hrequest hnew)
  distinct := hs.distinct
  expected taskId rid h := by
      obtain ⟨sub, hsub, htask, hrid⟩ := hs.expected taskId rid h
      exact ⟨sub, hsub, htask, (ridAt_append _ (hs.made sub hsub)).trans hrid⟩
  answered x hx := by
      obtain ⟨hknown, hanswer, hvalue⟩ := hs.answered x hx
      obtain ⟨message, hmessage, hplain⟩ := Option.map_eq_some_iff.1 hvalue
      exact ⟨hknown, fun sub hsub htask => (hanswer sub hsub htask).append _,
        Option.map_eq_some_iff.2 ⟨message, getElem?_append_of_some _ hmessage, hplain⟩⟩

/-- The id of a new request is carried by no other message. -/
theorem Sound.seal (hs : Sound s) (payload : Plain β) : Sound (sealRequest s payload).2 := by
  cases payload with
  | dict body =>
      refine hs.push (Nat.le_succ _) ?_ ?_
      · intro rid hrid
        cases hrid
        exact Nat.lt_succ_self _
      · intro sub _ rid hrequest hrid
        cases hrid
        exact absurd (hs.drawn _ _ hrequest) (lt_irrefl _)
  | other body =>
      refine hs.push le_rfl ?_ ?_
      · intro rid hrid
        cases hrid
      · intro sub _ rid _ hrid
        cases hrid

/-- The client notes a submission whose request alone carries its id, under a new task id. -/
theorem Sound.add (hs : Sound s) (sub : Submission) (hmade : sub.request < s.log.length)
    (hfresh : ∀ a ∈ s.submissions, a.taskId ≠ sub.taskId)
    (honly : ∀ n rid, ridAt s.log sub.request = some rid → ridAt s.log n = some rid →
      n = sub.request) :
    Sound { s with
      rids := (ridAt s.log sub.request).elim s.rids fun rid => s.rids.insert sub.taskId rid
      submissions := s.submissions ++ [sub] } where
  drawn := hs.drawn
  made a ha := by
      rcases List.mem_append.1 ha with ha | ha
      · exact hs.made a ha
      · rwa [List.mem_singleton.1 ha]
  traced a ha n rid hrequest hn := by
      rcases List.mem_append.1 ha with ha | ha
      · exact hs.traced a ha n rid hrequest hn
      · rw [List.mem_singleton.1 ha] at hrequest ⊢
        exact .inl (honly n rid hrequest hn)
  distinct a ha b hb htask := by
      rcases List.mem_append.1 ha with ha | ha <;> rcases List.mem_append.1 hb with hb | hb
      · exact hs.distinct a ha b hb htask
      · rw [List.mem_singleton.1 hb] at htask
        exact absurd htask (hfresh a ha)
      · rw [List.mem_singleton.1 ha] at htask
        exact absurd htask.symm (hfresh b hb)
      · rw [List.mem_singleton.1 ha, List.mem_singleton.1 hb]
  expected taskId rid h := by
      have hold : s.rids.lookup taskId = some rid → ∃ a ∈ s.submissions ++ [sub],
          a.taskId = taskId ∧ ridAt s.log a.request = some rid := by
        intro h
        obtain ⟨a, ha, hfound⟩ := hs.expected taskId rid h
        exact ⟨a, List.mem_append_left _ ha, hfound⟩
      change AList.lookup taskId ((ridAt s.log sub.request).elim s.rids _) = some rid at h
      cases hrequest : ridAt s.log sub.request with
      | none => exact hold (by rwa [hrequest] at h)
      | some own =>
          rw [hrequest] at h
          by_cases htask : taskId = sub.taskId
          · rw [htask, Option.elim_some, AList.lookup_insert] at h
            exact ⟨sub, by simp, htask.symm, hrequest.trans h⟩
          · rw [Option.elim_some, AList.lookup_insert_ne htask] at h
            exact hold h
  answered x hx := by
      obtain ⟨⟨a, ha, htask⟩, hanswer, hvalue⟩ := hs.answered x hx
      refine ⟨⟨a, List.mem_append_left _ ha, htask⟩, ?_, hvalue⟩
      intro b hb hb'
      rcases List.mem_append.1 hb with hb | hb
      · exact hanswer b hb hb'
      · rw [List.mem_singleton.1 hb] at hb'
        exact absurd (htask.trans hb'.symm) (hfresh a ha)

/-- The new request is the last message, and its id is the one that was drawn for it. -/
theorem sealRequest_spec (s : State β) (payload : Plain β) :
    (sealRequest s payload).2.submissions = s.submissions ∧
    (sealRequest s payload).2.rids = s.rids ∧
    ∃ message : Sealed β, (sealRequest s payload).2.log = s.log ++ [message] ∧
      message.value.rid = (sealRequest s payload).1 ∧
      ∀ rid, message.value.rid = some rid → rid = s.nextRid := by
  cases payload with
  | dict body => exact ⟨rfl, rfl, _, rfl, rfl, fun rid hrid => (Option.some.inj hrid).symm⟩
  | other body => exact ⟨rfl, rfl, _, rfl, rfl, fun rid hrid => nomatch hrid⟩

theorem Sound.submit (hs : Sound s) {route : List String} {payload : Plain β}
    (hfresh : ∀ sub ∈ s.submissions, sub.taskId ≠ taskId) :
    Sound (submit s taskId role route payload) := by
  obtain ⟨hsubs, hrids, message, hlog, hrid, honly⟩ := sealRequest_spec s payload
  have hlast : ridAt (sealRequest s payload).2.log s.log.length = (sealRequest s payload).1 := by
    rw [hlog, ridAt, List.getElem?_concat_length]
    exact hrid
  have hadd := (hs.seal payload).add ⟨taskId, role :: route, s.log.length⟩
    (by rw [hlog, List.length_append]; exact Nat.lt_succ_self _) (hsubs ▸ hfresh) ?_
  · rw [hlast] at hadd
    exact hadd
  · intro n rid hown hn
    rw [hlast, ← hrid] at hown
    rw [hlog] at hn
    rcases ridAt_push hn with hold | ⟨hn, -⟩
    · rw [honly rid hown] at hold
      exact absurd (hs.drawn n _ hold) (lt_irrefl _)
    · exact hn

/-- A worker that is handed a payload of the submission makes an answer. -/
theorem Sound.process (hs : Sound s) {output : Plain β} (hproper : (Event.work role n output).Proper s) :
    Sound (process s role n output) := by
  unfold Cluster.process
  cases hn : s.log[n]? with
  | none => exact hs
  | some input =>
      have hinput : ridAt s.log n = input.value.rid := by rw [ridAt, hn, Option.bind_some]
      refine hs.push le_rfl ?_ ?_
      · intro rid hrid
        exact hs.drawn n rid (hinput.trans (eq_some_of_rid_withRid hrid))
      · intro sub hsub rid hrequest hrid
        exact answer_push (hproper sub hsub rid hrequest
          (hinput.trans (eq_some_of_rid_withRid hrid)))

/-- What a client returns carries the id it expects, so it is an answer or the request itself. -/
theorem Sound.result (hs : Sound s) (hproper : (Event.waitFor taskId n).Proper s) :
    Sound (result s taskId n) := by
  unfold Cluster.result
  cases hn : s.log[n]? with
  | none => exact hs
  | some content =>
      obtain ⟨hexpected, hown⟩ := hproper (List.getElem?_eq_some_iff.1 hn).1
      have hforget : ∀ a rid, (s.rids.erase taskId).lookup a = some rid →
          ∃ sub ∈ s.submissions, sub.taskId = a ∧ ridAt s.log sub.request = some rid := by
        intro a rid h
        by_cases ha : a = taskId
        · rw [ha, AList.lookup_erase] at h
          cases h
        · rw [AList.lookup_erase_ne ha] at h
          exact hs.expected a rid h
      cases hlookup : s.rids.lookup taskId with
      | none => exact absurd hlookup hexpected
      | some expected =>
          simp only
          split
          next hrid =>
            obtain ⟨sub, hsub, htask, hrequest⟩ := hs.expected taskId expected hlookup
            have hcarried : ridAt s.log n = some expected := by rw [ridAt, hn, Option.bind_some, hrid]
            have hanswer : Answer s.log sub n :=
              (hs.traced sub hsub n expected hrequest hcarried).resolve_left (hown sub hsub htask)
            refine { hs with expected := hforget, answered := ?_ }
            intro x hx
            rcases List.mem_append.1 hx with hx | hx
            · exact hs.answered x hx
            · rw [List.mem_singleton.1 hx]
              refine ⟨⟨sub, hsub, htask⟩, ?_, by simp [hn]⟩
              intro a ha hsame
              rwa [hs.distinct a ha sub hsub (hsame.trans htask.symm)]
          next => exact { hs with expected := hforget }

theorem Sound.exec (hs : Sound s) (h : e.Proper s) : Sound (exec s e) := by
  cases e with
  | submit taskId role route payload => exact hs.submit h
  | submitOther payload => exact hs.seal payload
  | work role message output => exact hs.process h
  | waitFor taskId message => exact hs.result h

/-- As long as the relay keeps out of the gaps of the check, whatever the client returns is an
answer to the submission that has the task id. -/
theorem answered_of_proper
    (hrun : Run (fun s e t => Event.Proper s e ∧ Step s e t) State.init events s)
    (hx : x ∈ s.returned) : Answered s x := by
  have hsound : Sound s := by
    refine hrun.invariant ?_ sound_init
    rintro s e t ⟨hproper, rfl⟩ hs
    exact hs.exec hproper
  exact hsound.answered x hx

/-- Two submissions, one of them along a route; the relay reorders them. -/
theorem answered_of_proper_reordered :
    let events : List (Event String) := [.submit "t" "embed" ["head"] (.dict "x"),
      .submit "u" "embed" [] (.dict "y"), .work "embed" 1 (.dict "Y"), .work "embed" 0 (.dict "X"),
      .work "head" 3 (.dict "XX"), .waitFor "u" 2, .waitFor "t" 4]
    let s := events.foldl exec State.init
    s.returned = [⟨"u", 2, .dict none "Y"⟩, ⟨"t", 4, .dict none "XX"⟩] ∧
      ∀ x ∈ s.returned, Answered s x := by
  intro events s
  refine ⟨by decide, ?_⟩
  have hrun : Run (fun s e t => Event.Proper s e ∧ Step s e t) State.init events s :=
    .cons ⟨by decide, rfl⟩ <| .cons ⟨by decide, rfl⟩ <| .cons ⟨by decide, rfl⟩ <|
      .cons ⟨by decide, rfl⟩ <| .cons ⟨by decide, rfl⟩ <| .cons ⟨by decide, rfl⟩ <|
        .cons ⟨by decide, rfl⟩ <| .refl _
  exact fun x hx => answered_of_proper hrun hx

/-- In the run the client accepts a value that is not an answer. -/
def Breach (events : List (Event β)) : Prop :=
  ∃ s, Run Step State.init events s ∧ ∃ x ∈ s.returned, ¬Answered s x

theorem breach_of_exec
    (h : ∃ x ∈ (events.foldl exec State.init).returned, ¬Answered (events.foldl exec .init) x) :
    Breach events :=
  ⟨events.foldl exec State.init, Run.foldl exec State.init events, h⟩

/-- The relay reflects a request; it answers a second wait with the result of another client's
request; it lets a worker run on the result of a finished route. The client accepts all three. -/
theorem unanswered_values_returned :
    Breach ([.submit "t" "embed" [] (.dict "x"), .waitFor "t" 0] : List (Event String)) ∧
    Breach ([.submit "t" "embed" [] (.dict "x"), .work "embed" 0 (.dict "X"), .waitFor "t" 1,
      .submitOther (.dict "y"), .work "embed" 2 (.dict "Y"), .waitFor "t" 3] :
        List (Event String)) ∧
    Breach ([.submit "t" "embed" [] (.dict "x"), .work "embed" 0 (.dict "X"),
      .work "embed" 1 (.dict "XX"), .waitFor "t" 2] : List (Event String)) :=
  ⟨breach_of_exec (by decide), breach_of_exec (by decide), breach_of_exec (by decide)⟩

end Distllm.Cluster
