import Distllm.ServingClient

/-! Generation over the network is exact. Whatever the relay, the network and the workers do,
whoever stops, starts again, repeats or loses something, and however many generations go on at once,
alone or in batches with others: a generation that comes to a result has the tokens of the full
model. -/

namespace Distllm.Serving

open Stage (Sessions)
open Payload (Key Item Nonce Rid Dict Value Func Worker.decode)
open Payload.Cluster (Ending Reply)
open Payload.Network (uploadOp submitOp someNonce Honest CallsInv honest_step honest_start
  callsInv_step mem_processed)
open Pipeline (Lawful GenerationResult)
open Decoding (decode)
open Relay (Bytes)

variable {τ η ℓ κ σ ω : Type} {S : Setup τ η ℓ κ ω} {L : Lawful S.pipeline}
  {jobs : String → Option (Job τ ℓ σ)} {s s' : State τ κ ω} {move : Move ω}

/-! ### The network -/

/-- A call keeps what it was made with. -/
theorem call_kept {funcs : String → Func ω} {net net' : Payload.Network.State ω}
    {move : Payload.Network.Move ω} (h : S.NetStep funcs net move net') {key : Nat}
    {c : Payload.Cluster.Call ω} (hcall : net.calls.lookup key = some c) :
    ∃ c', net'.calls.lookup key = some c' ∧ c'.role = c.role ∧ c'.payload = c.payload ∧
      c'.route = c.route := by
  have hsame : ∃ c', net.calls.lookup key = some c' ∧ c'.role = c.role ∧ c'.payload = c.payload ∧
      c'.route = c.route := ⟨c, hcall, rfl, rfl, rfl⟩
  have hset : ∀ key' old new, net.calls.lookup key' = some old → new.role = old.role →
      new.payload = old.payload → new.route = old.route →
      ∃ c', (net.calls.insert key' new).lookup key = some c' ∧ c'.role = c.role ∧
        c'.payload = c.payload ∧ c'.route = c.route := by
    intro key' old new hold hrole hpayload hroute
    rw [AList.lookup_insert_eq]
    split
    · rename_i heq
      subst heq
      obtain rfl := Option.some.inj (hcall.symm.trans hold)
      exact ⟨new, rfl, hrole, hpayload, hroute⟩
    · exact hsame
  cases h with
  | rehashed => exact hsame
  | outside => exact hsame
  | restarted => exact hsame
  | polled => exact hsame
  | worked => exact hsame
  | stopped => exact hsame
  | uploaded => exact hsame
  | @called key' nonce rid role payload route timeout now hnew =>
      have hne : key ≠ key' := by
        rintro rfl
        rw [hnew] at hcall
        cases hcall
      exact ⟨c, (AList.lookup_insert_ne hne).trans hcall, rfl, rfl, rfl⟩
  | posted h => exact hset _ _ _ h rfl rfl rfl
  | arrived h => exact hset _ _ _ h rfl rfl rfl
  | heardSubmit h => exact hset _ _ _ h rfl rfl rfl
  | asked h => exact hset _ _ _ h rfl rfl rfl
  | answered h => exact hset _ _ _ h rfl rfl rfl
  | heardView h => exact hset _ _ _ h rfl rfl rfl

/-- What others do asks for nothing of a generation. -/
theorem keeps_elsewhere (hS : S.Sound jobs) {funcs : String → Func ω}
    {net : Payload.Network.State ω} {move : Payload.Network.Move ω} (h : S.Elsewhere jobs move) :
    move.Keeps S.transport funcs S.cipher (Reports S L jobs) (Asked S L jobs) S.roleOf S.readValue
      net := by
  cases move with
  | outside event =>
      cases event with
      | rehash => trivial
      | call op answer now =>
          cases op with
          | submit => exact .foreign _ h
          | poll => trivial
          | pollDeadline => trivial
          | postResult => trivial
          | postFailure => trivial
          | register => trivial
          | deregister => trivial
          | heartbeat => trivial
          | sweep => trivial
  | call => exact fun sub hsub => .foreign _ (foreign_submit hS h hsub)
  | work => exact h.elim
  | restart => trivial
  | poll => trivial
  | stop => trivial
  | upload => trivial
  | post => trivial
  | arrive => trivial
  | hearSubmit => trivial
  | ask => trivial
  | answer => trivial
  | hearView => trivial

/-! ### The invariant -/

/-- The call that a generation waits for is the one that it has made. -/
def Generation.Waits (net : Payload.Network.State ω) (gen : Generation τ ω) : Prop :=
  ∀ key, gen.waiting = some key → ∃ ask next c, gen.script = .call ask next ∧
    net.calls.lookup key = some c ∧ c.role = ask.role ∧ c.payload = .dict ask.payload ∧
      c.route = ask.route

structure Inv (S : Setup τ η ℓ κ ω) (L : Lawful S.pipeline) (jobs : String → Option (Job τ ℓ σ))
    (s : State τ κ ω) : Prop where
  honest : Honest (Reports S L jobs) (Asked S L jobs) S.roleOf S.readValue s.net
  calls : CallsInv S.transport S.cipher (Reports S L jobs) (Asked S L jobs) s.net
  tables : ∀ worker i (hi : i < S.pipeline.size), S.roles[i]? = some (S.roleOf worker) →
    Kept S L jobs i hi worker (s.tables worker)
  generations : ∀ sessionId gen, s.generations.lookup sessionId = some gen → ∃ job,
    jobs sessionId = some job ∧
      gen.script.Meets (Asks S L jobs) (Hears S L jobs) (Good L job) ∧ gen.Waits s.net

theorem inv_start (clock : Relay.Instant) : Inv S L jobs (State.start clock) where
  honest := honest_start clock
  calls := fun key c hcall => by cases hcall
  tables := fun worker i hi _ => kept_empty
  generations := fun sessionId gen hgen => by cases hgen

/-- A step of the network, whoever takes it. -/
theorem inv_network (hS : S.Sound jobs) (hs : Inv S L jobs s) {funcs : String → Func ω}
    {net : Payload.Network.State ω} {move : Payload.Network.Move ω}
    (h : S.NetStep funcs s.net move net)
    (hkeeps : move.Keeps S.transport funcs S.cipher (Reports S L jobs) (Asked S L jobs) S.roleOf
      S.readValue s.net) : Inv S L jobs { s with net := net } where
  honest := honest_step h hs.honest hs.calls.decent (handsOn hS) hkeeps
  calls := callsInv_step h hs.honest hs.calls (handsOn hS) hkeeps
  tables := hs.tables
  generations := by
    intro sessionId gen hgen
    obtain ⟨job, hjob, hmeets, hwaits⟩ := hs.generations sessionId gen hgen
    refine ⟨job, hjob, hmeets, fun key hkey => ?_⟩
    obtain ⟨ask, next, c, hscript, hcall, hrole, hpayload, hroute⟩ := hwaits key hkey
    obtain ⟨c', hcall', hrole', hpayload', hroute'⟩ := call_kept h hcall
    exact ⟨ask, next, c', hscript, hcall', hrole'.trans hrole, hpayload'.trans hpayload,
      hroute'.trans hroute⟩

theorem inv_table (hs : Inv S L jobs s) {worker : String} {table : Sessions κ}
    (h : ∀ i (hi : i < S.pipeline.size), S.roles[i]? = some (S.roleOf worker) →
      Kept S L jobs i hi worker table) :
    Inv S L jobs { s with tables := Function.update s.tables worker table } where
  honest := hs.honest
  calls := hs.calls
  tables := by
    intro other i hi hrole
    dsimp only
    by_cases heq : other = worker
    · subst heq
      rw [Function.update_self]
      exact h i hi hrole
    · rw [Function.update_of_ne heq]
      exact hs.tables other i hi hrole
  generations := hs.generations

theorem inv_generation (hs : Inv S L jobs s) {sessionId : String} {gen : Generation τ ω}
    {job : Job τ ℓ σ} (hjob : jobs sessionId = some job)
    (hmeets : gen.script.Meets (Asks S L jobs) (Hears S L jobs) (Good L job))
    (hwaits : gen.Waits s.net) :
    Inv S L jobs { s with generations := s.generations.insert sessionId gen } where
  honest := hs.honest
  calls := hs.calls
  tables := hs.tables
  generations := by
    intro other found hfound
    dsimp only at hfound
    rw [AList.lookup_insert_eq] at hfound
    split at hfound
    · rename_i heq
      obtain rfl := Option.some.inj hfound
      subst heq
      exact ⟨job, hjob, hmeets, hwaits⟩
    · exact hs.generations other found hfound

/-! ### Steps -/

theorem inv_step (hS : S.Sound jobs) (hs : Inv S L jobs s) (h : Step S jobs s move s') :
    Inv S L jobs s' := by
  cases h with
  | network hmove h => exact inv_network hS hs h (keeps_elsewhere hS hmove)
  | @served worker i tasks net nonce time hrole hheld h =>
      have hi : i < S.pipeline.size := hS.all ▸ (List.getElem?_eq_some_iff.mp hrole).1
      have hasked : ∀ task ∈ tasks, ∃ route, Asked S L jobs (S.roleOf worker) task.2 route :=
        fun task htask => ((hs.honest.holding worker tasks hheld).2 task htask).2
      obtain ⟨htable, hreports⟩ :=
        served_reports hS hrole hasked (hs.tables worker i hi hrole) time
      have hnet : Inv S L jobs { s with net := net } := by
        refine inv_network hS hs h fun tasks' hheld' upload hupload => ?_
        obtain rfl := Option.some.inj (hheld.symm.trans hheld')
        exact hreports nonce _ _ _ (mem_processed.mp hupload).2
      refine inv_table hnet fun j hj hrole' => ?_
      obtain rfl := role_unique hS hrole hrole'
      exact htable
  | @worked worker tasks funcs net nonce hrole hheld h hforeign =>
      refine inv_network hS hs h fun tasks' hheld' upload hupload => ?_
      obtain rfl := Option.some.inj (hheld.symm.trans hheld')
      obtain ⟨-, hpost⟩ := mem_processed.mp hupload
      obtain ⟨data, hdata⟩ := Payload.Network.exists_of_mem_process hpost
      refine ⟨data, hdata, fun body stops hbody => ?_⟩
      have hother : S.Foreign jobs body := by
        cases hupload' : upload.2.2 with
        | failure message =>
            rw [hupload'] at hbody
            cases hbody
        | body bytes stopChain =>
            rw [hupload'] at hbody
            obtain ⟨rfl, -⟩ := Stages.Verdict.result.inj hbody
            exact hforeign upload hupload bytes stopChain hupload'
      refine ⟨fun _ => hother, fun _ _ _ _ => hother, fun rid i hi d p ys a hstage => ?_⟩
      exact absurd (List.mem_of_getElem? hstage) hrole
  | @forgot worker table h =>
      exact inv_table hs fun i hi hrole => (hs.tables worker i hi hrole).forget h
  | @began sessionId job hjob hnew =>
      exact inv_generation hs hjob (generate_meets hS hjob) fun key hkey => by cases hkey
  | @asked sessionId ask next key funcs net nonce rid timeout now hgen h =>
      obtain ⟨job, hjob, hmeets, -⟩ := hs.generations sessionId _ hgen
      have hnet : Inv S L jobs { s with net := net } :=
        inv_network hS hs h fun sub hsub => hmeets.1.asked hS hsub
      refine inv_generation hnet hjob hmeets fun key' hkey => ?_
      obtain rfl := Option.some.inj hkey
      cases h with
      | called => exact ⟨ask, next, _, rfl, AList.lookup_insert _, rfl, rfl, rfl⟩
  | @heard sessionId ask next key c ending hgen hcall hended =>
      obtain ⟨job, hjob, hmeets, hwaits⟩ := hs.generations sessionId _ hgen
      obtain ⟨ask', next', c', hscript, hcall', hrole, hpayload, hroute⟩ := hwaits key rfl
      obtain ⟨rfl, rfl⟩ := Script.call.inj hscript
      obtain rfl := Option.some.inj (hcall.symm.trans hcall')
      refine inv_generation hs hjob (hmeets.answer ?_) fun key' hkey => by cases hkey
      exact hears hS hmeets.1 (hs.calls key c hcall) hrole hpayload hroute hended

theorem inv_run (hS : S.Sound jobs) {clock : Relay.Instant} {moves : List (Move ω)}
    (hrun : Run (Step S jobs) (State.start clock) moves s) : Inv S L jobs s :=
  hrun.invariant (fun hstep hs => inv_step hS hs hstep) (inv_start clock)

/-- **Generation over the network is exact.** -/
theorem generation_exact (L : Lawful S.pipeline) (hS : S.Sound jobs) {clock : Relay.Instant}
    {moves : List (Move ω)} (hrun : Run (Step S jobs) (State.start clock) moves s)
    {sessionId : String} {job : Job τ ℓ σ} (hjob : jobs sessionId = some job)
    {result : GenerationResult τ} {waiting : Option Nat}
    (hgen : s.generations.lookup sessionId = some ⟨.done (some result), waiting⟩) :
    result.tokenIds = decode L.logits job.pick job.eos job.maxNewTokens job.inputIds job.rng := by
  obtain ⟨job', hjob', hmeets, -⟩ := (inv_run (L := L) hS hrun).generations sessionId _ hgen
  obtain rfl := Option.some.inj (hjob.symm.trans hjob')
  exact hmeets result rfl

/-- Every cache that a worker keeps for a generation is that of the full model on a prefix of its
sequence. -/
theorem caches_faithful (L : Lawful S.pipeline) (hS : S.Sound jobs) {clock : Relay.Instant}
    {moves : List (Move ω)} (hrun : Run (Step S jobs) (State.start clock) moves s)
    {worker : String} {i : Nat} (hi : i < S.pipeline.size)
    (hrole : S.roles[i]? = some (S.roleOf worker)) {sessionId : String} {job : Job τ ℓ σ}
    (hjob : jobs sessionId = some job) {sess : Stage.Session κ}
    (hsess : (s.tables worker).lookup sessionId = some sess) :
    ∃ ys, ys <+: job.sequence L ∧ L.HoldsAt i hi sess ys :=
  ((inv_run hS hrun).tables worker i hi hrole).faithful sessionId job sess hjob hsess

/-! ### A generation of two tokens -/

/-- What is in the dictionaries of a generation over numbers. -/
inductive Leaf where
  | flag
  | number (n : Int)
  | ids (shape items : List Nat)
  | hidden (shape items : List Nat)
  | rows (rows : List Nat)
  | tokens (tokens : List Nat)
  deriving DecidableEq

/-- A tensor, unless its size is wrong. -/
def readTensor (shape items : List Nat) : Stage.Entry Nat :=
  if shape.take 2 = [1, 1] ∧ items.length ≠ 1 then .other else .tensor ⟨shape, items⟩

def leafCodec : Codec Nat Nat Nat Leaf where
  look
    | .str text => .word text
    | .other .flag => ⟨.ok true, .ok 1, "True", fun _ => .ok false⟩
    | .other (.number n) => .int n
    | _ => ⟨.ok true, .error .typeError, "", fun _ => .ok false⟩
  ids
    | .other (.ids shape items) => readTensor shape items
    | _ => .other
  hidden
    | .other (.hidden shape items) => readTensor shape items
    | _ => .other
  rows
    | .other (.rows rows) => some rows
    | _ => none
  flag := .flag
  number := .number
  ofIds t := .ids t.shape t.items
  ofHidden t := .hidden t.shape t.items
  ofRows := .rows
  ofTokens := .tokens
  raised _ := ⟨"Exception", ""⟩

/-- The keys in the dictionaries of a generation; on the wire a key is its place here. -/
def wireKeys : List Key :=
  [Payload.sessionKey, startKey, idsKey, hiddenKey, rewindKey, logitsKey, closeKey, closedKey, missKey,
    cachedKey, Payload.stopChainKey]

def packItem : Item Leaf → List Nat
  | .none => [0]
  | .str text => 1 :: text.toList.map Char.toNat
  | .other .flag => [2]
  | .other (.number n) => [3, n.toNat]
  | .other (.ids shape items) => 4 :: shape.length :: (shape ++ items)
  | .other (.hidden shape items) => 5 :: shape.length :: (shape ++ items)
  | .other (.rows rows) => 6 :: rows
  | .other (.tokens tokens) => 7 :: tokens

def unpackItem : List Nat → Option (Item Leaf)
  | [0] => some .none
  | 1 :: text => some (.str (String.ofList (text.map Char.ofNat)))
  | [2] => some (.other .flag)
  | [3, n] => some (.other (.number n))
  | 4 :: n :: rest => some (.other (.ids (rest.take n) (rest.drop n)))
  | 5 :: n :: rest => some (.other (.hidden (rest.take n) (rest.drop n)))
  | 6 :: rows => some (.other (.rows rows))
  | 7 :: tokens => some (.other (.tokens tokens))
  | _ => none

/-- Every entry as its key, the length of its value and the value. -/
def packEntries (entries : List (Sigma fun _ : Key => Item Leaf)) : Bytes :=
  (entries.flatMap fun entry => wireKeys.idxOf entry.1 :: (packItem entry.2).length :: packItem entry.2).map
    UInt8.ofNat

def unpackEntries : Nat → List Nat → Option (List (Sigma fun _ : Key => Item Leaf))
  | _, [] => some []
  | fuel + 1, key :: n :: rest => do
    let key ← wireKeys[key]?
    let item ← unpackItem (rest.take n)
    let entries ← unpackEntries fuel (rest.drop n)
    return ⟨key, item⟩ :: entries
  | _, _ => none

def readBack (body : Bytes) : Option (List (Sigma fun _ : Key => Item Leaf)) :=
  unpackEntries body.length (body.map UInt8.toNat)

/-- A transport for dictionaries that can be read back. -/
def wireTransport : Payload.Transport Leaf where
  pack
    | .item _ => .error ⟨"TypeError", "can not serialize"⟩
    | .dict d =>
      let body := packEntries d.entries
      if readBack body = some d.entries ∧ Payload.isSealed body = false then .ok body
      else .error ⟨"TypeError", "can not serialize"⟩
  unpack data :=
    match readBack data with
    | some entries =>
      if h : (entries.map Sigma.fst).Nodup then .ok (.dict ⟨entries, h⟩)
      else .error ⟨"ValueError", "unpack failed"⟩
    | none => .error ⟨"ValueError", "unpack failed"⟩
  truth _ := .ok true

theorem wireTransport_pack {value : Value Leaf} {body : Bytes} (h : wireTransport.pack value = .ok body) :
    ∃ d, value = .dict d ∧ readBack body = some d.entries ∧ Payload.isSealed body = false := by
  cases value with
  | item => cases h
  | dict d =>
      simp only [wireTransport] at h
      split at h
      · rename_i hread
        obtain rfl := Except.ok.inj h
        exact ⟨d, rfl, hread⟩
      · cases h

theorem wireTransport_lossless : wireTransport.Lossless where
  unpack_pack value body h := by
    obtain ⟨d, rfl, hread, -⟩ := wireTransport_pack h
    simp only [wireTransport, hread]
    exact dif_pos d.nodupKeys
  not_sealed value body h := by
    obtain ⟨-, -, -, hplain⟩ := wireTransport_pack h
    exact hplain

theorem readTensor_sized {t : Stage.Tensor Nat} (h : t.Sized) :
    readTensor t.shape t.items = .tensor t := by
  refine if_neg fun hwrong => hwrong.2 ?_
  cases hshape : t.shape with
  | nil => rw [hshape] at hwrong; cases hwrong.1
  | cons rows dims =>
      cases dims with
      | nil => rw [hshape] at hwrong; cases hwrong.1
      | cons n rest =>
          rw [hshape] at hwrong
          obtain ⟨rfl, hrest⟩ := List.cons.inj hwrong.1
          obtain ⟨rfl, -⟩ := List.cons.inj hrest
          exact h rest hshape

theorem sized_readTensor {shape items : List Nat} {t : Stage.Tensor Nat}
    (h : readTensor shape items = .tensor t) : t.Sized := by
  unfold readTensor at h
  split at h
  · cases h
  · rename_i hright
    obtain rfl := Stage.Entry.tensor.inj h
    intro rest hshape
    dsimp only at hshape
    by_contra hne
    exact hright ⟨by rw [hshape]; rfl, hne⟩

theorem leafCodec_sound : leafCodec.Sound wireTransport where
  text _ := rfl
  textTruth _ := rfl
  flag := rfl
  flagStops := rfl
  number _ := rfl
  ids _ ht := readTensor_sized ht
  hidden _ ht := readTensor_sized ht
  rows _ := rfl
  idsSized item t h := by
    cases item with
    | none => cases h
    | str => cases h
    | other x =>
        cases x with
        | ids shape items => exact sized_readTensor h
        | flag => cases h
        | number => cases h
        | hidden => cases h
        | rows => cases h
        | tokens => cases h
  hiddenSized item t h := by
    cases item with
    | none => cases h
    | str => cases h
    | other x =>
        cases x with
        | hidden shape items => exact sized_readTensor h
        | flag => cases h
        | number => cases h
        | ids => cases h
        | rows => cases h
        | tokens => cases h

/-- Two stages of prefix sums. -/
def pairStages : Pipeline.Deployment Nat Nat Nat Nat String where
  size := 2
  model := fun _ => Stage.prefixSum
  config := fun i _ => ⟨decide (i = 0), decide (i + 1 = 2), 4, 600, 4⟩
  pos := Nat.two_pos
  isFirst := fun _ _ => rfl
  isLast := fun _ _ => rfl

def pairLaw : Lawful pairStages where
  dims := []
  first := Stage.prefixSumOfIds
  later := fun _ _ => Stage.prefixSumOfEmbeds

/-- The worker of the second stage takes batches. -/
def pairSetup : Setup Nat Nat Nat Nat Leaf where
  pipeline := pairStages
  roles := ["a", "b"]
  roleOf := fun worker => if worker = "w" then "a" else "b"
  batched := fun worker => worker == "v"
  pass := fun _ => Stage.rowPass Stage.sumRow []
  zero := 0
  codec := leafCodec
  transport := wireTransport
  cipher := none
  pollInterval := none
  settings := ⟨Relay.fromSecs 120, Relay.fromSecs 15⟩
  readValue := fun _ => none

/-- Two tokens, routed through the relay. -/
def pairJob : Job Nat Nat Unit :=
  ⟨[1, 2], 2, 2, true, true, (· == 0), fun row _ => (row % 5, ()), ()⟩

def pairJobs (sessionId : String) : Option (Job Nat Nat Unit) :=
  if sessionId = "s" then some pairJob else none

theorem pairSetup_sound : pairSetup.Sound pairJobs where
  lossless := wireTransport_lossless
  correct := fun _ h => by cases h
  codec := leafCodec_sound
  rowwise := fun _ _ => ⟨Stage.sumRow, [], Stage.sumRow_rowwise⟩
  distinct := by decide
  all := rfl
  read := by decide
  named := by decide
  prompted := fun sessionId job hjob => by
    unfold pairJobs at hjob
    split at hjob
    · obtain rfl := Option.some.inj hjob
      decide
    · cases hjob

abbrev PairStep : State Nat Nat Leaf → Move Leaf → State Nat Nat Leaf → Prop :=
  Step pairSetup pairJobs

def prompt : Dict Leaf := tokensPayload leafCodec "s" 0 [1, 2]

def token : Dict Leaf := tokensPayload leafCodec "s" 2 [4]

def hiddenOf (payload : Dict Leaf) (hidden : List Nat) : Dict Leaf :=
  (Codec.control payload).put hiddenKey (.other (.hidden [1, hidden.length] hidden))

def rowOf (row : Nat) : Dict Leaf := AList.put logitsKey (.other (.rows [row])) ∅

/-- The relay gets a task of the generation. -/
abbrev arrives (key : Nat) (task : String) (payload : Dict Leaf) : Move Leaf :=
  .network (.arrive key (.call
    (submitOp task ⟨"a", "b", some "s", packEntries payload.entries, none⟩ 0) (.taskId task) 0))

abbrev polls (worker role task : String) (payload : Dict Leaf) : Move Leaf :=
  .network (.poll worker (.call (.poll role worker 1) (.tasks [(task, packEntries payload.entries)]) 0))

abbrev uploads (worker task next : String) (result : Dict Leaf) (answer : Relay.Outcome) : Move Leaf :=
  .network (.upload worker task (.body (packEntries result.entries) false) (.call
    (uploadOp worker task next (.body (packEntries result.entries) false)) (.outcome answer) 0))

def again : Dict Leaf := token.put rewindKey (.other .flag)

/-- The prompt goes through both stages. The relay restarts when the first stage has run the next step,
so that the step is lost and sent again, with a rewind. The session is not closed, as the relay does not
accept the client any more. -/
def pairMoves : List (Move Leaf) :=
  [.begin "s",
    .ask "s" 0, .network (.post 0 0), arrives 0 "t" prompt, .network (.hearSubmit 0 (.relayed "t") 0),
    polls "w" "a" "t" prompt, .serve "w", uploads "w" "t" "t'" (hiddenOf prompt [1, 3]) (.status "forwarded"),
    polls "v" "b" "t'" (hiddenOf prompt [1, 3]), .serve "v", uploads "v" "t'" "-" (rowOf 4) (.status "ok"),
    .network (.ask 0 0), .network (.answer 0),
    .network (.hearView 0 (.relayed (.completed (packEntries (rowOf 4).entries))) 0), .hear "s",
    .ask "s" 1, .network (.post 1 0), arrives 1 "u" token, .network (.hearSubmit 1 (.relayed "u") 0),
    polls "w" "a" "u" token, .serve "w", .network (.restart 0),
    uploads "w" "u" "u'" (hiddenOf token [7]) .notFound,
    .network (.ask 1 0), .network (.answer 1), .network (.hearView 1 (.relayed .notFound) 0), .hear "s",
    .ask "s" 2, .network (.post 2 0), arrives 2 "x" again, .network (.hearSubmit 2 (.relayed "x") 0),
    polls "w" "a" "x" again, .serve "w", uploads "w" "x" "x'" (hiddenOf again [7]) (.status "forwarded"),
    polls "v" "b" "x'" (hiddenOf again [7]), .serve "v", uploads "v" "x'" "--" (rowOf 11) (.status "ok"),
    .network (.ask 2 0), .network (.answer 2),
    .network (.hearView 2 (.relayed (.completed (packEntries (rowOf 11).entries))) 0), .hear "s",
    .ask "s" 3, .network (.post 3 0), .network (.hearSubmit 3 (.refused 401) 0), .hear "s",
    .ask "s" 4, .network (.post 4 0), .network (.hearSubmit 4 (.refused 401) 0), .hear "s"]

theorem pair_net {s : State Nat Nat Leaf} {move : Payload.Network.Move Leaf}
    {net : Payload.Network.State Leaf} (hmove : pairSetup.Elsewhere pairJobs move)
    (h : pairSetup.NetStep (fun _ => .batch fun _ => .ok []) s.net move net) :
    PairStep s (.network move) { s with net := net } :=
  .network hmove h

theorem pair_ask {s : State Nat Nat Leaf} {sessionId : String} {ask : Ask Leaf}
    {next : Ending Leaf → Asking Leaf (Option (GenerationResult Nat))}
    {net : Payload.Network.State Leaf} (key : Nat)
    (hgen : s.generations.lookup sessionId = some ⟨.call ask next, none⟩)
    (h : pairSetup.NetStep (fun _ => .batch fun _ => .ok []) s.net
      (.call key someNonce Rid.zeros ask.role (.dict ask.payload) ask.route (Relay.fromSecs 60) 0)
      net) :
    PairStep s (.ask sessionId key) { s with
      net := net
      generations := s.generations.insert sessionId ⟨.call ask next, some key⟩ } :=
  .asked _ _ _ _ hgen h

theorem pair_run : ∃ s, Run PairStep (State.start 0) pairMoves s ∧
    s.generations.lookup "s" = some ⟨.done (some ⟨[4, 1], 0, 0⟩), none⟩ ∧
      (∃ sess, (s.tables "w").lookup "s" = some sess ∧ sess.length = 3) := by
  have hrun : Run PairStep (State.start 0) pairMoves _ :=
    .cons (.began rfl rfl) <|
    .cons (pair_ask _ rfl (.called _ _ _ _ _ _ _ rfl)) <|
    .cons (pair_net trivial (.posted rfl rfl (by decide) (by decide))) <|
    .cons (pair_net trivial
      (.arrived rfl rfl (by decide) (.call (by decide) (by decide) (by decide)))) <|
    .cons (pair_net trivial (.heardSubmit rfl rfl (by decide)
      (fun _ h => Reply.relayed.inj h ▸ List.mem_cons_self))) <|
    .cons (pair_net trivial (.polled rfl (.poll 1) (.call (by decide) trivial (by decide)))) <|
    .cons (.served (i := 0) (fun _ => someNonce) (fun _ => 0) rfl rfl (.worked _ rfl)) <|
    .cons (pair_net trivial (.uploaded (by decide) (.call (by decide) trivial (by decide)))) <|
    .cons (pair_net trivial (.polled rfl (.poll 1) (.call (by decide) trivial (by decide)))) <|
    .cons (.served (i := 1) (fun _ => someNonce) (fun _ => 0) rfl rfl (.worked _ rfl)) <|
    .cons (pair_net trivial (.uploaded (by decide) (.call (by decide) trivial (by decide)))) <|
    .cons (pair_net trivial (.asked rfl rfl (by decide) (by decide))) <|
    .cons (pair_net trivial (.answered rfl rfl)) <|
    .cons (pair_net trivial (.heardView rfl rfl rfl (by decide)
      (fun _ h => Reply.relayed.inj h ▸ rfl))) <|
    .cons (.heard rfl rfl rfl) <|
    .cons (pair_ask _ rfl (.called _ _ _ _ _ _ _ rfl)) <|
    .cons (pair_net trivial (.posted rfl rfl (by decide) (by decide))) <|
    .cons (pair_net trivial
      (.arrived rfl rfl (by decide) (.call (by decide) (by decide) (by decide)))) <|
    .cons (pair_net trivial (.heardSubmit rfl rfl (by decide)
      (fun _ h => Reply.relayed.inj h ▸ List.mem_cons_self))) <|
    .cons (pair_net trivial (.polled rfl (.poll 1) (.call (by decide) trivial (by decide)))) <|
    .cons (.served (i := 0) (fun _ => someNonce) (fun _ => 0) rfl rfl (.worked _ rfl)) <|
    .cons (pair_net trivial (.restarted (by decide))) <|
    .cons (pair_net trivial (.uploaded (by decide) (.call (by decide) trivial (by decide)))) <|
    .cons (pair_net trivial (.asked rfl rfl (by decide) (by decide))) <|
    .cons (pair_net trivial (.answered rfl rfl)) <|
    .cons (pair_net trivial (.heardView rfl rfl rfl (by decide)
      (fun _ h => Reply.relayed.inj h ▸ rfl))) <|
    .cons (.heard rfl rfl rfl) <|
    .cons (pair_ask _ rfl (.called _ _ _ _ _ _ _ rfl)) <|
    .cons (pair_net trivial (.posted rfl rfl (by decide) (by decide))) <|
    .cons (pair_net trivial
      (.arrived rfl rfl (by decide) (.call (by decide) (by decide) (by decide)))) <|
    .cons (pair_net trivial (.heardSubmit rfl rfl (by decide)
      (fun _ h => Reply.relayed.inj h ▸ List.mem_cons_self))) <|
    .cons (pair_net trivial (.polled rfl (.poll 1) (.call (by decide) trivial (by decide)))) <|
    .cons (.served (i := 0) (fun _ => someNonce) (fun _ => 0) rfl rfl (.worked _ rfl)) <|
    .cons (pair_net trivial (.uploaded (by decide) (.call (by decide) trivial (by decide)))) <|
    .cons (pair_net trivial (.polled rfl (.poll 1) (.call (by decide) trivial (by decide)))) <|
    .cons (.served (i := 1) (fun _ => someNonce) (fun _ => 0) rfl rfl (.worked _ rfl)) <|
    .cons (pair_net trivial (.uploaded (by decide) (.call (by decide) trivial (by decide)))) <|
    .cons (pair_net trivial (.asked rfl rfl (by decide) (by decide))) <|
    .cons (pair_net trivial (.answered rfl rfl)) <|
    .cons (pair_net trivial (.heardView rfl rfl rfl (by decide)
      (fun _ h => Reply.relayed.inj h ▸ rfl))) <|
    .cons (.heard rfl rfl rfl) <|
    .cons (pair_ask _ rfl (.called _ _ _ _ _ _ _ rfl)) <|
    .cons (pair_net trivial (.posted rfl rfl (by decide) (by decide))) <|
    .cons (pair_net trivial (.heardSubmit rfl rfl (by decide) (fun _ h => by cases h))) <|
    .cons (.heard rfl rfl rfl) <|
    .cons (pair_ask _ rfl (.called _ _ _ _ _ _ _ rfl)) <|
    .cons (pair_net trivial (.posted rfl rfl (by decide) (by decide))) <|
    .cons (pair_net trivial (.heardSubmit rfl rfl (by decide) (fun _ h => by cases h))) <|
    .single (.heard rfl rfl rfl)
  exact ⟨_, hrun, rfl, _, rfl, rfl⟩

theorem generation_exact_pair : ∃ s, Run PairStep (State.start 0) pairMoves s ∧
    s.generations.lookup "s" = some ⟨.done (some ⟨[4, 1], 0, 0⟩), none⟩ ∧
      [4, 1] = decode pairLaw.logits pairJob.pick pairJob.eos 2 [1, 2] () := by
  obtain ⟨s, hrun, hgen, -⟩ := pair_run
  exact ⟨s, hrun, hgen, generation_exact pairLaw pairSetup_sound hrun rfl hgen⟩

/-- The first worker keeps the cache of the prompt with the first token. -/
theorem caches_faithful_pair : ∃ s sess ys, Run PairStep (State.start 0) pairMoves s ∧
    (s.tables "w").lookup "s" = some sess ∧ sess.length = 3 ∧ ys <+: pairJob.sequence pairLaw ∧
      pairLaw.HoldsAt 0 Nat.two_pos sess ys := by
  obtain ⟨s, hrun, -, sess, hsess, hlength⟩ := pair_run
  obtain ⟨ys, hys, hholds⟩ := caches_faithful pairLaw pairSetup_sound hrun Nat.two_pos rfl rfl hsess
  exact ⟨s, sess, ys, hrun, hsess, hlength, hys, hholds⟩

end Distllm.Serving
