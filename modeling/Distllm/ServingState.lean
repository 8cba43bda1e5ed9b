import Distllm.Script
import Distllm.PipelineSpec
import Distllm.StageRequests
import Distllm.NetworkCalls

/-! Generation over the relay (`hf.py`, `worker.py`). The workers of a role run a stage on the
dictionaries that they poll, one by one or in batches, each on a table of sessions of its own; a
client generates by calls to the roles, or by calls that the relay routes through them. Relay,
workers, clients and other users of the relay act in any order over the unreliable network, and any
number of generations go on at once. A session id is drawn for one generation. -/

namespace Distllm.Serving

open Stage (Config Model Pass Raw Sessions Response Result Tensor Entry truthOf handleRaw
  handleBatchRaw)
open Payload (Key Item Dict Value Transport Aead Nonce Rid Func Exc Worker.decode Worker.popRid
  sessionKey stopChainKey)
open Payload.Cluster (Ending)
open Pipeline (Outcome GenerationResult)
open Relay (Bytes)

variable {τ η ℓ κ σ ω : Type}

/-! ### Dictionaries -/

def startKey : Key := .str "start_pos"
def closeKey : Key := .str "close"
def rewindKey : Key := .str "rewind"
def outputKey : Key := .str "output"
def idsKey : Key := .str "input_ids"
def hiddenKey : Key := .str "hidden_states"
def missKey : Key := .str "cache_miss"
def cachedKey : Key := .str "cached"
def closedKey : Key := .str "closed"
def argmaxKey : Key := .str "argmax"
def logitsKey : Key := .str "logits"

/-- `CONTROL_KEYS` -/
def controlKeys : List Key := [sessionKey, startKey, rewindKey, outputKey]

/-- What stages and clients read from the values of a dictionary, and the values they put into one:
`True`, numbers and tensors. `raised` is what is reported of an exception. -/
structure Codec (τ η ℓ ω : Type) where
  look : Item ω → Stage.Value
  ids : Item ω → Entry τ
  hidden : Item ω → Entry η
  rows : Item ω → Option (List ℓ)
  flag : ω
  number : Int → ω
  ofIds : Tensor τ → ω
  ofHidden : Tensor η → ω
  ofRows : List ℓ → ω
  ofTokens : List τ → ω
  raised : Stage.Exc → Exc

def entryOf {α : Type} (read : Item ω → Entry α) : Option (Item ω) → Entry α
  | none => .missing
  | some item => read item

namespace Codec

variable (C : Codec τ η ℓ ω)

/-- A payload as a stage reads it. -/
def raw (d : Dict ω) : Raw τ η where
  sessionId := (d.lookup sessionKey).map C.look
  close := (d.lookup closeKey).map C.look
  startPos := (d.lookup startKey).map C.look
  rewind := (d.lookup rewindKey).map C.look
  output := (d.lookup outputKey).map C.look
  inputIds := entryOf C.ids (d.lookup idsKey)
  hiddenStates := entryOf C.hidden (d.lookup hiddenKey)

/-- `{k: payload[k] for k in CONTROL_KEYS if k in payload}` -/
def control (d : Dict ω) : Dict ω :=
  controlKeys.foldl (fun r key => (d.lookup key).elim r fun item => r.put key item) ∅

/-- The dictionary that a stage returns for a payload. -/
def respond (d : Dict ω) : Response τ η ℓ → Dict ω
  | .closed => AList.put closedKey (.other C.flag) ∅
  | .cacheMiss cached => ((AList.put missKey (.other C.flag) ∅).put cachedKey
      (.other (C.number cached))).put stopChainKey (.other C.flag)
  | .argmax tokens => AList.put argmaxKey (.other (C.ofTokens tokens)) ∅
  | .logits rows => AList.put logitsKey (.other (C.ofRows rows)) ∅
  | .hidden p =>
    match p.hiddenStates with
    | .tensor t => (control d).put hiddenKey (.other (C.ofHidden t))
    | _ => control d

def outcome (d : Dict ω) : Result τ η ℓ → Except Exc (Value ω)
  | .ok response => .ok (.dict (C.respond d response))
  | .error e => .error (C.raised e)

end Codec

/-! ### A stage at work -/

section Stage

variable (C : Codec τ η ℓ ω) (cfg : Config) (M : Model τ η ℓ κ) (pass : Pass τ η κ) (zero : κ)

/-- `handle`; anything but a dictionary has no `get`. -/
def handlePayload (now : Stage.Instant) (s : Sessions κ) :
    Value ω → Except Exc (Value ω) × Sessions κ
  | .item _ => (.error (C.raised .attributeError), s)
  | .dict d =>
    let (result, s) := handleRaw cfg M now s (C.raw d)
    (C.outcome d result, s)

/-- One payload after the other, each at its own time. -/
def handleEach (time : Nat → Stage.Instant) :
    Nat → List (Value ω) → Sessions κ → List (Except Exc (Value ω)) × Sessions κ
  | _, [], s => ([], s)
  | n, payload :: rest, s =>
    let (result, s) := handlePayload C cfg M (time n) s payload
    let (results, s) := handleEach time (n + 1) rest s
    (result :: results, s)

def asDict : Value ω → Option (Dict ω)
  | .dict d => some d
  | .item _ => none

def entry (d : Dict ω) : Option (Result τ η ℓ) → Except Exc (Value ω)
  | some result => C.outcome d result
  | none => .ok (.item .none)

/-- `str(p.get("session_id") or "")` -/
def readId : Value ω → Except Stage.Exc String
  | .item _ => .error .attributeError
  | .dict d => (C.raw d).id

/-- What the selection raises when not all payloads are dictionaries. -/
def selectError (payloads : List (Value ω)) : Stage.Exc :=
  match payloads.mapM (readId C) with
  | .error e => e
  | .ok _ => .attributeError

/-- `handle_batch` -/
def handleTogether (now : Stage.Instant) (s : Sessions κ) (payloads : List (Value ω)) :
    Except Exc (List (Except Exc (Value ω))) × Sessions κ :=
  match payloads.mapM asDict with
  | none => (.error (C.raised (selectError C payloads)), s)
  | some ds =>
    match handleBatchRaw cfg M pass zero now s (ds.map C.raw) with
    | (.error e, s) => (.error (C.raised e), s)
    | (.ok results, s) => (.ok (List.zipWith (entry C) ds results), s)

/-- What a worker's function returns for the payloads of its tasks, and the table it leaves. -/
def serve (batched : Bool) (time : Nat → Stage.Instant) (s : Sessions κ)
    (payloads : List (Value ω)) : Except Exc (List (Except Exc (Value ω))) × Sessions κ :=
  if batched then handleTogether C cfg M pass zero (time 0) s payloads
  else
    let (results, s) := handleEach C cfg M time 0 payloads s
    (.ok results, s)

end Stage

/-- The payloads that a worker's function is called with. -/
def payloadsOf (T : Transport ω) (cipher : Option Aead) (tasks : List (String × Bytes)) :
    List (Value ω) :=
  tasks.filterMap fun task =>
    (Worker.decode T cipher task.2).toOption.map fun payload => (Worker.popRid payload).2

/-! ### The client -/

/-- `call(role, payload)`, or with further roles `route_call`. -/
structure Ask (ω : Type) where
  role : String
  payload : Dict ω
  route : List String

abbrev Asking (ω α : Type) := Script (Ask ω) (Ending ω) α

/-- A response, a `TaskLostError`, or any other exception. -/
inductive Heard (ω : Type) where
  | lost
  | failed
  | response (d : Dict ω)

def heard : Ending ω → Heard ω
  | .returned (.ok (.dict response)) => .response response
  | .taskLost => .lost
  | _ => .failed

/-- The settings of a `PipelineGenerator` and the arguments of `generate`. -/
structure Job (τ ℓ σ : Type) where
  inputIds : List τ
  maxNewTokens : Nat
  maxRecoveries : Nat
  useKvCache : Bool
  routed : Bool
  eos : τ → Bool
  pick : ℓ → σ → τ × σ
  rng : σ

section Client

variable (C : Codec τ η ℓ ω) (roles : List String) (routed : Bool)

/-- Role after role, as long as the responses are hidden states for the next one. -/
def throughRoles : List String → Dict ω → Asking ω (Heard ω)
  | [], payload => pure (.response payload)
  | role :: rest, payload => do
    match heard (← Script.ask ⟨role, payload, []⟩) with
    | .response response =>
      if hiddenKey ∈ response then throughRoles rest response else pure (.response response)
    | other => pure other

/-- `_through` -/
def through (payload : Dict ω) : Asking ω (Heard ω) :=
  match routed, roles with
  | true, role :: route => do return heard (← Script.ask ⟨role, payload, route⟩)
  | _, roles => throughRoles roles payload

/-- `None` on a cache miss; without the key an exception is raised. -/
def readKey (key : Key) (response : Dict ω) : Outcome (Item ω) :=
  match truthOf ((response.lookup missKey).map C.look) with
  | .error _ => .failed
  | .ok true => .miss
  | .ok false => (response.lookup key).elim .failed .value

def attempt (key : Key) : List (Dict ω) → Asking ω (Outcome (Item ω))
  | [] => pure .miss
  | payload :: rest => do
    match ← through roles routed payload with
    | .lost => attempt key rest
    | .failed => pure .failed
    | .response response => pure (readKey C key response)

/-- `_step` -/
def step (key : Key) (payload : Dict ω) : Asking ω (Outcome (Item ω)) :=
  attempt C roles routed key [payload, payload.put rewindKey (.other C.flag)]

def tokensPayload (sessionId : String) (startPos : Nat) (inputIds : List τ) : Dict ω :=
  ((AList.put sessionKey (.str sessionId) ∅).put startKey (.other (C.number startPos))).put idsKey
    (.other (C.ofIds (.row [] inputIds)))

/-- `logits[0]` -/
def firstRow (item : Item ω) : Outcome ℓ :=
  match C.rows item with
  | some (row :: _) => .value row
  | _ => .failed

/-- `_forward`, and the row that a token is drawn from. -/
def forward (sessionId : String) (startPos : Nat) (inputIds : List τ) : Asking ω (Outcome ℓ) := do
  match ← step C roles routed logitsKey (tokensPayload C sessionId startPos inputIds) with
  | .value item => pure (firstRow C item)
  | .miss => pure .miss
  | .failed => pure .failed

/-- Replay the prefix on a miss, so many times at most, and count the replays. -/
def recover {α : Type} (again : Asking ω (Outcome α)) :
    Nat → Outcome α → Asking ω (Outcome α × Nat)
  | n, .miss =>
    match n with
    | 0 => pure (.failed, 0)
    | n + 1 => do
      let (outcome, runs) ← recover again n (← again)
      return (outcome, runs + 1)
  | _, outcome => pure (outcome, 0)

def closePayload (sessionId : String) : Dict ω :=
  (AList.put sessionKey (.str sessionId) ∅).put closeKey (.other C.flag)

/-- `_close`: whatever the calls come to. -/
def closeAll (sessionId : String) : List String → Asking ω Unit
  | [] => pure ()
  | role :: rest => do
    let _ ← Script.ask ⟨role, closePayload C sessionId, []⟩
    closeAll sessionId rest

variable (sessionId : String) (job : Job τ ℓ σ)

/-- The loop over the steps; `cached` positions are already held by the stages. Without the cache a
miss is an exception. -/
def generateLoop : Nat → List τ → Nat → σ → GenerationResult τ →
    Asking ω (Option (GenerationResult τ))
  | 0, _, _, _, result => pure (some result)
  | n + 1, sequence, cached, rng, result => do
    let start := if job.useKvCache then cached else 0
    let first ← forward C roles job.routed sessionId start (sequence.drop start)
    let (outcome, recoveries) ← recover (forward C roles job.routed sessionId 0 sequence)
      (if job.useKvCache then job.maxRecoveries else 0) first
    match outcome with
    | .value row =>
      let (token, rng) := job.pick row rng
      let result : GenerationResult τ :=
        ⟨result.tokenIds ++ [token], result.cacheRecoveries + recoveries, 0⟩
      if job.eos token then pure (some result)
      else generateLoop n (sequence ++ [token]) sequence.length rng result
    | _ => pure none

/-- `generate`: `none` when an exception is raised; the session is closed in any case. -/
def generate : Asking ω (Option (GenerationResult τ)) := do
  let result ← generateLoop C roles sessionId job job.maxNewTokens job.inputIds 0 job.rng ⟨[], 0, 0⟩
  closeAll C sessionId roles
  return result

end Client

/-! ### All together -/

/-- The deployment: the stage of every role and how each worker is started, the network, and what
the relay is given. The replicas of a role are its workers by their names. -/
structure Setup (τ η ℓ κ ω : Type) where
  pipeline : Pipeline.Deployment τ η ℓ κ String
  roles : List String
  roleOf : String → String
  batched : String → Bool
  pass : Nat → Pass τ η κ
  zero : κ
  codec : Codec τ η ℓ ω
  transport : Transport ω
  cipher : Option Aead
  pollInterval : Option Relay.Duration
  settings : Relay.Settings
  readValue : Bytes → Option Relay.Value

/-- A generation that has come so far, and the call that it waits for. -/
structure Generation (τ ω : Type) where
  script : Asking ω (Option (GenerationResult τ))
  waiting : Option Nat

structure State (τ κ ω : Type) where
  net : Payload.Network.State ω
  tables : String → Sessions κ
  generations : AList fun _ : String => Generation τ ω

def State.start (clock : Relay.Instant) : State τ κ ω := ⟨.start clock, fun _ => ∅, ∅⟩

inductive Move (ω : Type) where
  | network (move : Payload.Network.Move ω)
  | serve (worker : String)
  | forget (worker : String)
  | begin (sessionId : String)
  | ask (sessionId : String) (key : Nat)
  | hear (sessionId : String)

section System

variable (S : Setup τ η ℓ κ ω) (jobs : String → Option (Job τ ℓ σ))

namespace Setup

/-- The dictionary names the session of a generation. -/
def Names (d : Dict ω) : Prop :=
  ∃ sessionId job, jobs sessionId = some job ∧ (S.codec.raw d).id = .ok sessionId

/-- The bytes are no payload of a generation. -/
def Foreign (data : Bytes) : Prop :=
  ∀ d, Worker.decode S.transport S.cipher data = .ok (.dict d) → ¬S.Names jobs d

abbrev NetStep (funcs : String → Func ω) :=
  Payload.Network.Step S.transport funcs S.cipher S.roleOf S.pollInterval S.settings S.readValue

/-- The stage of role `i` at a worker. -/
def stage (i : Nat) (worker : String) (time : Nat → Stage.Instant) (s : Sessions κ)
    (payloads : List (Value ω)) : Except Exc (List (Except Exc (Value ω))) × Sessions κ :=
  serve S.codec (S.pipeline.config i worker) (S.pipeline.model i) (S.pass i) S.zero
    (S.batched worker) time s payloads

/-- What other users of the relay do, and what happens to the calls that have been made. -/
def Elsewhere : Payload.Network.Move ω → Prop
  | .outside (.call (.submit _ _ body _ _ _) _ _) => S.Foreign jobs body
  | .call _ _ _ _ payload _ _ _ => ∀ d, payload = .dict d → ¬S.Names jobs d
  | .work .. => False
  | _ => True

end Setup

inductive Step : State τ κ ω → Move ω → State τ κ ω → Prop where
  | network {s : State τ κ ω} {move : Payload.Network.Move ω} {funcs : String → Func ω}
      {net : Payload.Network.State ω} (hmove : S.Elsewhere jobs move)
      (h : S.NetStep funcs s.net move net) : Step s (.network move) { s with net := net }
  | served {s : State τ κ ω} {worker : String} {i : Nat} {tasks : List (String × Bytes)}
      {net : Payload.Network.State ω} (nonce : String → Nonce) (time : Nat → Stage.Instant)
      (hrole : S.roles[i]? = some (S.roleOf worker))
      (hheld : s.net.holding.lookup worker = some tasks)
      (h : S.NetStep (fun _ => .batch fun payloads =>
        (S.stage i worker time (s.tables worker) payloads).1) s.net (.work worker nonce) net) :
      Step s (.serve worker) { s with
        net := net
        tables := Function.update s.tables worker (S.stage i worker time (s.tables worker)
          (payloadsOf S.transport S.cipher tasks)).2 }
  | worked {s : State τ κ ω} {worker : String} {tasks : List (String × Bytes)}
      {funcs : String → Func ω} {net : Payload.Network.State ω} (nonce : String → Nonce)
      (hrole : S.roleOf worker ∉ S.roles) (hheld : s.net.holding.lookup worker = some tasks)
      (h : S.NetStep funcs s.net (.work worker nonce) net)
      (hforeign : ∀ upload ∈ Payload.Network.processed S.transport funcs S.cipher nonce worker
        (S.roleOf worker) tasks, ∀ body stopChain, upload.2.2 = .body body stopChain →
          S.Foreign jobs body) :
      Step s (.serve worker) { s with net := net }
  | forgot {s : State τ κ ω} {worker : String} {table : Sessions κ}
      (h : ∀ sessionId sess, table.lookup sessionId = some sess →
        (s.tables worker).lookup sessionId = some sess) :
      Step s (.forget worker) { s with tables := Function.update s.tables worker table }
  | began {s : State τ κ ω} {sessionId : String} {job : Job τ ℓ σ}
      (hjob : jobs sessionId = some job) (hnew : s.generations.lookup sessionId = none) :
      Step s (.begin sessionId) { s with
        generations := s.generations.insert sessionId
          ⟨generate S.codec S.roles sessionId job, none⟩ }
  | asked {s : State τ κ ω} {sessionId : String} {ask : Ask ω}
      {next : Ending ω → Asking ω (Option (GenerationResult τ))} {key : Nat}
      {funcs : String → Func ω} {net : Payload.Network.State ω} (nonce : Nonce) (rid : Rid)
      (timeout : Relay.Duration) (now : Relay.Instant)
      (hgen : s.generations.lookup sessionId = some ⟨.call ask next, none⟩)
      (h : S.NetStep funcs s.net
        (.call key nonce rid ask.role (.dict ask.payload) ask.route timeout now) net) :
      Step s (.ask sessionId key) { s with
        net := net
        generations := s.generations.insert sessionId ⟨.call ask next, some key⟩ }
  | heard {s : State τ κ ω} {sessionId : String} {ask : Ask ω}
      {next : Ending ω → Asking ω (Option (GenerationResult τ))} {key : Nat}
      {c : Payload.Cluster.Call ω} {ending : Ending ω}
      (hgen : s.generations.lookup sessionId = some ⟨.call ask next, some key⟩)
      (hcall : s.net.calls.lookup key = some c) (hended : c.phase = .ended ending) :
      Step s (.hear sessionId) { s with
        generations := s.generations.insert sessionId ⟨next ending, none⟩ }

end System
end Distllm.Serving
