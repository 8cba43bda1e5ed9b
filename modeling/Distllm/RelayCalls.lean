import Distllm.RelayRefinement
import Distllm.RouteCalls

/-! Calls over the relay. Workers that may answer a payload in several ways, as sealing workers do,
leave open what a chain comes to; in every run of the relay in which the accepted posts are answers
of such workers, a final answer is one of the outcomes that the submission may come to. So what a
client reads from it is something that its call returns. -/

namespace Distllm.Relay

open Relay.Inner Ledger Stages

variable {settings : Settings} {readValue : Bytes → Option Value}
  {W : String → Bytes → Report → Prop} {drawn : List String} {now : Instant}
  {posted : Task → Report → Prop} {s s' : Ledger} {r : String}
  {outcomes : Except String Bytes → Prop}

/-- A step of the relay in which an accepted post is an answer that its task's stage may give. -/
def HonestStep (settings : Settings) (readValue : Bytes → Option Value)
    (W : String → Bytes → Report → Prop) (w : World) (event : Event) (w' : World) : Prop :=
  Step settings readValue w event w' ∧ ∀ id post, event.post = some (id, post) →
    ∀ task, w.inner.tasks.lookup id = some task →
      W task.targetRole task.payload (post.report readValue)

/-- The chain of `r`, if its root is still stored, comes to one of these outcomes only. -/
def Ledger.MayCome (W : String → Bytes → Report → Prop) (s : Ledger) (r : String)
    (outcomes : Except String Bytes → Prop) : Prop :=
  s r = none ∨ ∃ p, s.Shows r p ∧ ∀ outcome, p.MayCome W outcome → outcomes outcome

/-- A change of the records by a report that the posted task's stage may give. -/
theorem mayCome_change (h : Change drawn now posted s s') (hs : s.ChainsInv now)
    {report : Report} (hposted : ∀ task report', posted task report' →
      report' = report ∧ W task.targetRole task.payload report)
    (hr : r ∉ drawn) (hmay : s.MayCome W r outcomes) : s'.MayCome W r outcomes := by
  rcases hmay with hnone | ⟨p, hshow, hmay⟩
  · exact .inl (absent_change h hr hnone)
  let V : String → Bytes → Report := fun _ _ => report
  have hconst : ∀ task report', posted task report' → V task.targetRole task.payload = report' :=
    fun task report' h => (hposted task report' h).1.symm
  rcases shows_change V h hs hconst hshow with hnone | ⟨p', hp', hshow'⟩
  · exact .inl hnone
  refine .inr ⟨p', hshow', fun outcome houtcome => hmay outcome ?_⟩
  rcases hp' with rfl | ⟨task, report', hpost, rfl, rfl⟩
  · exact houtcome
  · exact Progress.mayCome_of_advance V (hposted task report' hpost).2 houtcome

theorem mayCome_changes (h : Changes drawn now posted s s') (hs : s.ChainsInv now)
    {report : Report} (hposted : ∀ task report', posted task report' →
      report' = report ∧ W task.targetRole task.payload report)
    (hr : r ∉ drawn) (hmay : s.MayCome W r outcomes) : s'.MayCome W r outcomes := by
  induction h with
  | refl => exact hmay
  | tail hfront hchange ih =>
      exact mayCome_change hchange (chainsInv_changes hfront hs) hposted hr ih

/-- All reports that one event posts are the same one, and its task's stage may give it. -/
theorem honest_posts {w w' : World} {event : Event} (h : HonestStep settings readValue W w event w') :
    ∃ report, ∀ task report', event.Posts readValue w.inner task report' →
      report' = report ∧ W task.targetRole task.payload report := by
  cases hpost : event.post with
  | none =>
      refine ⟨.failure "", ?_⟩
      rintro task report' ⟨id, post, hevent, _⟩
      cases hpost.symm.trans hevent
  | some p =>
      obtain ⟨id, post⟩ := p
      refine ⟨post.report readValue, ?_⟩
      rintro task report' ⟨id', post', hevent, htask, rfl⟩
      obtain ⟨rfl, rfl⟩ := Prod.mk.inj (Option.some.inj (hpost.symm.trans hevent))
      exact ⟨rfl, h.2 id post hpost task htask⟩

/-- Every submitted chain, as long as its root is stored, comes to what its submission may come to. -/
def ChainsMayCome (W : String → Bytes → Report → Prop) (events : List Event) (w : World) : Prop :=
  w.ChainsInv ∧ ∀ id role body route session createdAt answer now,
    Event.call (.submit id role body route session createdAt) answer now ∈ events →
    id ∈ w.issued ∧ w.inner.ledger.MayCome W id (Comes W role body route)

theorem chainsMayCome_step {events : List Event} {w w' : World} {event : Event}
    (h : HonestStep settings readValue W w event w') (hw : ChainsMayCome W events w) :
    ChainsMayCome W (events ++ [event]) w' := by
  obtain ⟨hinv, hmay⟩ := hw
  obtain ⟨hclock, drawn, hdrawn, hissued, hchanges⟩ := step_changes h.1 hinv.queues
  obtain ⟨report, hposted⟩ := honest_posts h
  refine ⟨chainsInv_step h.1 hinv, fun id role body route session createdAt answer now hmem => ?_⟩
  rcases List.mem_append.mp hmem with hold | hnew
  · obtain ⟨hid, hmay⟩ := hmay id role body route session createdAt answer now hold
    rw [hissued]
    exact ⟨List.mem_append_right _ hid, mayCome_changes hchanges (hinv.chains.mono hclock) hposted
      (fun hd => hdrawn id hd hid) hmay⟩
  · obtain rfl := List.mem_singleton.mp hnew
    generalize hevent : Event.call (.submit id role body route session createdAt) answer now =
      event at h
    cases h.1 with
    | rehash h => cases hevent
    | call _ _ hfresh =>
        obtain ⟨rfl, _, _⟩ := Event.call.inj hevent
        exact ⟨List.mem_cons_self, .inr ⟨_, submit_shows w.inner id role body route session
          createdAt, fun outcome houtcome => houtcome⟩⟩

theorem chainsMayCome_run {clock : Instant} {events : List Event} {w : World}
    (hrun : Run (HonestStep settings readValue W) (World.start clock) events w) :
    ChainsMayCome W events w :=
  hrun.invariant_labels chainsMayCome_step ⟨chainsInv_start clock, nofun⟩

/-- A final answer about a submitted root is an outcome that its body may come to along its route. -/
theorem chain_mayCome {clock : Instant} {events : List Event} {w : World}
    (hrun : Run (HonestStep settings readValue W) (World.start clock) events w)
    {id role : String} {body : Bytes} {route : List String} {session : Option String}
    {createdAt : Instant} {answer : Answer} {now : Instant}
    (hsubmit : Event.call (.submit id role body route session createdAt) answer now ∈ events) :
    (∀ result, getResult w.inner id = .completed result → Comes W role body route (.ok result)) ∧
    ∀ error, getResult w.inner id = .failed error →
      ∃ message, Comes W role body route (.error message) ∧ error = cutError message := by
  obtain ⟨hinv, hmay⟩ := chainsMayCome_run hrun
  rcases (hmay id role body route session createdAt answer now hsubmit).2 with
    hnone | ⟨p, hshow, hmay⟩
  · obtain ⟨hcompleted, hfailed⟩ := getResult_absent hnone
    exact ⟨fun result h => absurd h (hcompleted result), fun error h => absurd h (hfailed error)⟩
  · obtain ⟨hcompleted, hfailed⟩ := getResult_shows hinv hshow
    refine ⟨fun result h => ?_, fun error h => ?_⟩
    · obtain rfl := hcompleted result h
      exact hmay _ rfl
    · obtain ⟨message, rfl, herror⟩ := hfailed error h
      exact ⟨message, hmay _ rfl, herror⟩

end Distllm.Relay

namespace Distllm.Payload

open Relay (Bytes Post World Event Answer Settings getResult stopsChain routeRoles)

variable {ω : Type} {T : Transport ω} {funcs : String → Func ω} {readValue : Bytes → Option Relay.Value}

/-- What the Rust relay finds in a body by itself. -/
def relaySniff (readValue : Bytes → Option Relay.Value) (body : Bytes) : Bool :=
  stopsChain readValue body false

/-- What a post reports is the verdict that calls go by. -/
theorem report_verdict (post : Post) :
    post.report readValue = verdict (relaySniff readValue) post := by
  cases post with
  | failure message => rfl
  | body bytes stopChain => cases stopChain <;> rfl

/-- Over the relay, a call whose workers are honest returns nothing but what it may return. -/
theorem relayed_call {settings : Settings} {cipher : Option Aead} {clock : Relay.Instant}
    {events : List Event} {w : World}
    (hrun : Run (Relay.HonestStep settings readValue (Works T (relaySniff readValue) funcs cipher))
      (World.start clock) events w)
    {nonce : Nonce} {rid : Rid} {role : String} {payload : Value ω} {route : List String}
    {sub : Submission} (hsub : Cluster.submit T cipher nonce rid.text role payload route = .ok sub)
    {taskId : String} {createdAt : Relay.Instant} {answer : Answer} {now : Relay.Instant}
    (hsubmit : Event.call (.submit taskId sub.targetRole sub.body (routeRoles sub.route) sub.session
      createdAt) answer now ∈ events) :
    (∀ content, getResult w.inner taskId = .completed content →
      Returns T (relaySniff readValue) funcs cipher role payload route
        (Cluster.waitFor T cipher taskId sub.rid (.ok content))) ∧
    ∀ error, getResult w.inner taskId = .failed error →
      Returns T (relaySniff readValue) funcs cipher role payload route
        (Cluster.waitFor T cipher taskId sub.rid (.error error)) := by
  obtain ⟨hcompleted, hfailed⟩ := Relay.chain_mayCome hrun hsubmit
  refine ⟨fun content h => .answered hsub (hcompleted content h), fun error h => ?_⟩
  obtain ⟨message, hcomes, rfl⟩ := hfailed error h
  exact .answered hsub hcomes

end Distllm.Payload
