import Distllm.ServingWire

/-! All generations at once. Clients ask for what the stages of their roles should be asked for, and
hear what the full model has; every worker's table holds caches of prefixes of the sequences. No step
of the relay, the network, a worker, a client or a stranger changes that. -/

namespace Distllm.Serving

open Stage (Sessions)
open Payload (Nonce Rid Key Item Dict Value Exc Func Submission Worker.decode Wire carry
  relaySniff open_sealWith)
open Payload.Cluster (Ending Call)
open Payload.Network (Honest CallsInv CallInv)
open Pipeline (Lawful Outcome GenerationResult)
open Decoding (decode)
open Relay (Bytes routeRoles)
open Stages

variable {τ η ℓ κ σ ω : Type} {S : Setup τ η ℓ κ ω} {L : Lawful S.pipeline}
  {jobs : String → Option (Job τ ℓ σ)} {rid : Rid} {nonce : Nonce} {sub : Submission} {ask : Ask ω}

/-! ### Calls -/

/-- A call of a generation: a request to a stage, alone or with the way through all the others, or
the end of a session. -/
inductive Asks (S : Setup τ η ℓ κ ω) (L : Lawful S.pipeline) (jobs : String → Option (Job τ ℓ σ))
    (ask : Ask ω) : Prop where
  | request {i : Nat} {hi : i < S.pipeline.size} {p : Stage.Payload τ η} {ys : List τ} {a : Nat}
      (hrole : S.roles[i]? = some ask.role) (h : Requests S L jobs i hi ask.payload p ys a)
      (hroute : ask.route = [] ∨ i = 0 ∧ ask.route = S.roles.tail) : Asks S L jobs ask
  | closing (h : Closes S jobs ask.payload) (hroute : ask.route = []) : Asks S L jobs ask

/-- A request hears of the sequence that it carries, and from the next stage on when it asks one
stage only. -/
def Hears (S : Setup τ η ℓ κ ω) (L : Lawful S.pipeline) (jobs : String → Option (Job τ ℓ σ))
    (ask : Ask ω) (ending : Ending ω) : Prop :=
  ∀ response, heard ending = .response response → ∀ i hi p ys a, S.roles[i]? = some ask.role →
    Requests S L jobs i hi ask.payload p ys a → p.argmax = false →
      ∃ j, Reply S L jobs ys a j response ∧ (ask.route = [] → j = i + 1)

/-- What is submitted for a dictionary. -/
theorem submit_spec {role : String} {d : Dict ω} {route : List String}
    (h : Payload.Cluster.submit S.transport S.cipher nonce rid.text role (.dict d) route = .ok sub) :
    Wire S.transport S.cipher rid d sub.body ∧ sub.targetRole = role ∧
      sub.route = ",".intercalate route ∧
        sub.rid = if S.cipher.isSome then some rid.text else none := by
  have hrid : Payload.Cluster.withRid S.cipher rid.text (.dict d) =
      (.dict (carry S.cipher rid d), if S.cipher.isSome then some rid.text else none) := by
    unfold Payload.Cluster.withRid carry
    dsimp only
    split
    · rfl
    · rfl
  unfold Payload.Cluster.submit at h
  rw [hrid] at h
  dsimp only at h
  split at h
  · cases h
  · rename_i body hpack
    obtain rfl := Except.ok.inj h
    exact ⟨⟨nonce, body, hpack, rfl⟩, rfl, rfl, rfl⟩

theorem routeRoles_nil : routeRoles (",".intercalate []) = [] := by decide

theorem Asks.asked (hS : S.Sound jobs) (hask : Asks S L jobs ask)
    (h : Payload.Cluster.submit S.transport S.cipher nonce rid.text ask.role (.dict ask.payload)
      ask.route = .ok sub) :
    Asked S L jobs sub.targetRole sub.body (routeRoles sub.route) := by
  obtain ⟨hwire, htarget, hsub, -⟩ := submit_spec h
  rw [htarget, hsub]
  cases hask with
  | @request i hi p ys a hrole hreq hroute =>
      rcases hroute with hnil | ⟨rfl, htail⟩
      · rw [hnil, routeRoles_nil]
        exact .request hrole hwire hreq (.inl rfl)
      · rw [htail, hS.read]
        exact .request hrole hwire hreq (.inr (List.drop_one ..).symm)
  | closing hcloses hroute =>
      rw [hroute, routeRoles_nil]
      exact .closing hwire hcloses

/-- Whoever submits a dictionary of no generation, the relay gets bytes of no generation. -/
theorem foreign_submit (hS : S.Sound jobs) {role : String} {payload : Value ω} {route : List String}
    (hpayload : ∀ d, payload = .dict d → ¬S.Names jobs d)
    (h : Payload.Cluster.submit S.transport S.cipher nonce rid.text role payload route = .ok sub) :
    S.Foreign jobs sub.body := by
  cases payload with
  | dict d =>
      obtain ⟨hwire, -⟩ := submit_spec h
      intro e he
      have hdecode := Payload.decode_wire hS.lossless hS.correct hwire
      obtain rfl := Value.dict.inj (Except.ok.inj (hdecode.symm.trans he))
      exact fun hnames => hpayload d rfl ((names_carry S.cipher).mp hnames)
  | item x =>
      unfold Payload.Cluster.submit at h
      split at h
      · cases h
      · rename_i body hpack
        obtain rfl := Except.ok.inj h
        intro e he
        dsimp only at he
        rw [Worker.decode, open_sealWith hS.correct (hS.lossless.not_sealed _ _ hpack)] at he
        dsimp only at he
        rw [hS.lossless.unpack_pack _ _ hpack] at he
        cases he

/-- What a call of a generation comes to is what it should hear. -/
theorem hears (hS : S.Sound jobs) (hask : Asks S L jobs ask) {w : Relay.World} {c : Call ω}
    (hc : CallInv S.transport S.cipher (Reports S L jobs) (Asked S L jobs) w c)
    (hrole : c.role = ask.role) (hpayload : c.payload = .dict ask.payload)
    (hroute : c.route = ask.route) {ending : Ending ω} (hended : c.phase = .ended ending) :
    Hears S L jobs ask ending := by
  intro response hresponse i hi p ys a hstage hreq hargmax
  obtain ⟨outcome, rfl, rfl⟩ : ∃ outcome, ending = .returned outcome ∧
      outcome = .ok (.dict response) := by
    unfold heard at hresponse
    split at hresponse
    · obtain rfl := Heard.response.inj hresponse
      exact ⟨_, rfl, rfl⟩
    · cases hresponse
    · cases hresponse
  obtain ⟨nonce, rid, hsubmitted⟩ := hc.submitted
  rw [hrole, hpayload, hroute] at hsubmitted
  rcases hc.ended _ hended with ⟨e, -, hraised⟩ | ⟨sub, taskId, out, hsub, hcomes, houtcome⟩
  · cases hraised
  · have hsubmit := hsubmitted.symm.trans hsub
    obtain ⟨hwire, htarget, hsubRoute, hsubRid⟩ := submit_spec hsubmit
    have hway : routeRoles sub.route = [] ∨ routeRoles sub.route = S.roles.drop (i + 1) := by
      rw [hsubRoute]
      cases hask with
      | request hrole' _ hroute' =>
          obtain rfl := role_unique hS hstage hrole'
          rcases hroute' with hnil | ⟨rfl, htail⟩
          · rw [hnil]
            exact .inl routeRoles_nil
          · rw [htail, hS.read]
            exact .inr (List.drop_one ..).symm
      | closing hcloses _ => exact absurd hcloses hreq.not_closes
    rw [htarget] at hcomes
    cases out with
    | error message => cases houtcome
    | ok body =>
        obtain ⟨found, j, hfound, hplain, hreply, hj⟩ :=
          comes_reply hS hcomes hstage hwire hreq hargmax hway rfl
        have hshown : Payload.Shown S.transport S.cipher rid (.ok found) (.ok body) :=
          ⟨hplain, hfound⟩
        rw [hsubRid, Payload.waitFor_shown hS.lossless hS.correct hshown] at houtcome
        obtain rfl := Value.dict.inj (Except.ok.inj houtcome)
        refine ⟨j, hreply, fun hnil => hj ?_⟩
        rw [hsubRoute, hnil]
        exact routeRoles_nil

end Distllm.Serving
