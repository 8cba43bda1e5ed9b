import Distllm.ServingBatch

/-! What travels of a generation: which bytes may be asked of which role, with which route to go on
along, and what a worker of the role may report of them. What a stage hands on may be asked of the
next one; so whatever comes back along a route is a miss, hidden states that a stage further on takes,
or the row of the full model. -/

namespace Distllm.Serving

open Stage (Response Sessions Rowwise truthOf)
open Payload (Aead Nonce Rid Key Item Dict Value Exc Transport Func Worker.decode Worker.popRid
  Worker.attachRid Worker.stopFlag Worker.report Worker.process Worker.runFunc Wire carry ridItem
  ridKey sessionKey stopChainKey decode_wire popRid_carry attachRid_ridItem stopFlag_carry verdict
  relaySniff sealWith open_sealWith)
open Pipeline (Lawful)
open Relay (Bytes Post Report routeRoles)
open Stages

variable {τ η ℓ κ σ ω : Type} {S : Setup τ η ℓ κ ω} {L : Lawful S.pipeline}
  {jobs : String → Option (Job τ ℓ σ)} {data body : Bytes} {role : String} {d e r : Dict ω}
  {rid : Rid} {i : Nat} {hi : i < S.pipeline.size} {p : Stage.Payload τ η} {ys : List τ} {a : Nat}

/-- Payloads are read as they were written, a batch computes its rows one by one, every stage has a
role of its own, in order, whose name the relay reads as it is, and a generation has a session id and
a prompt. -/
structure Setup.Sound (S : Setup τ η ℓ κ ω) (jobs : String → Option (Job τ ℓ σ)) : Prop where
  lossless : S.transport.Lossless
  correct : ∀ c ∈ S.cipher, c.Correct
  codec : S.codec.Sound S.transport
  rowwise : ∀ i, i < S.pipeline.size → ∃ row dims, Rowwise (S.pipeline.model i) (S.pass i) row dims
  distinct : S.roles.Nodup
  all : S.roles.length = S.pipeline.size
  read : routeRoles (",".intercalate S.roles.tail) = S.roles.tail
  named : jobs "" = none
  prompted : ∀ sessionId job, jobs sessionId = some job → job.inputIds ≠ []

/-! ### Names -/

theorem names_congr (h : d.lookup sessionKey = e.lookup sessionKey) :
    S.Names jobs d ↔ S.Names jobs e := by
  rw [Setup.Names, Setup.Names, id_congr h]

theorem names_erase : S.Names jobs (d.erase ridKey) ↔ S.Names jobs d :=
  names_congr (AList.lookup_erase_ne (by decide))

theorem names_put (x : Item ω) : S.Names jobs (d.put ridKey x) ↔ S.Names jobs d :=
  names_congr (Payload.lookup_put_ne (by decide) x)

theorem names_carry (cipher : Option Aead) : S.Names jobs (carry cipher rid d) ↔ S.Names jobs d := by
  unfold carry
  split
  · exact names_put _
  · exact Iff.rfl

/-- A response names what the payload names, or nothing. -/
theorem names_respond (hnames : jobs "" = none) {response : Response τ η ℓ}
    (h : S.Names jobs (S.codec.respond d response)) : S.Names jobs d := by
  obtain ⟨sessionId, job, hjob, hid⟩ := h
  rcases id_respond S.codec d response with hempty | hsame
  · obtain rfl := Except.ok.inj (hempty.symm.trans hid)
    rw [hnames] at hjob
    cases hjob
  · exact ⟨sessionId, job, hjob, hsame.symm.trans hid⟩

theorem not_names_closed (hnames : jobs "" = none) :
    ¬S.Names jobs (S.codec.respond d .closed) := by
  rintro ⟨sessionId, job, hjob, hid⟩
  have hnone : (S.codec.respond d .closed).lookup sessionKey = none := by
    simp only [Codec.respond, AList.lookup_put]
    rfl
  simp only [Codec.raw, Stage.Raw.id, hnone, Option.map_none] at hid
  obtain rfl := Except.ok.inj hid
  rw [hnames] at hjob
  cases hjob

/-! ### Bytes -/

/-- What is asked of a role. -/
inductive Asked (S : Setup τ η ℓ κ ω) (L : Lawful S.pipeline) (jobs : String → Option (Job τ ℓ σ))
    (role : String) (data : Bytes) : List String → Prop where
  | foreign (route : List String) (h : S.Foreign jobs data) : Asked S L jobs role data route
  | request {rid : Rid} {i : Nat} {hi : i < S.pipeline.size} {d : Dict ω} {p : Stage.Payload τ η}
      {ys : List τ} {a : Nat} {route : List String} (hrole : S.roles[i]? = some role)
      (hwire : Wire S.transport S.cipher rid d data) (h : Requests S L jobs i hi d p ys a)
      (hroute : route = [] ∨ route = S.roles.drop (i + 1)) : Asked S L jobs role data route
  | closing {rid : Rid} {d : Dict ω} (hwire : Wire S.transport S.cipher rid d data)
      (h : Closes S jobs d) : Asked S L jobs role data []

/-- The miss that ends a route, or the answer of the full model. -/
def Served (L : Lawful S.pipeline) (i : Nat) (hi : i < S.pipeline.size) (p : Stage.Payload τ η)
    (ys : List τ) (a : Nat) (stops : Bool) (response : Response τ η ℓ) : Prop :=
  (∃ cached, response = .cacheMiss cached) ∧ stops = true ∨ response = L.answerAt i hi p ys a

/-- What a worker of a role may report: nothing of a generation for what is not of a generation, and
for a request what the full model has there. -/
def Reports (S : Setup τ η ℓ κ ω) (L : Lawful S.pipeline) (jobs : String → Option (Job τ ℓ σ))
    (role : String) (data : Bytes) (report : Report) : Prop :=
  ∀ body stops, report = .result body stops → (S.Foreign jobs data → S.Foreign jobs body) ∧
    (∀ rid d, Wire S.transport S.cipher rid d data → Closes S jobs d → S.Foreign jobs body) ∧
    ∀ rid i hi d p ys a, S.roles[i]? = some role → Wire S.transport S.cipher rid d data →
      Requests S L jobs i hi d p ys a → ∃ response, Served L i hi p ys a stops response ∧
        Wire S.transport S.cipher rid (S.codec.respond d response) body

/-- A role is that of one stage. -/
theorem role_unique (hS : S.Sound jobs) {j : Nat} (h : S.roles[i]? = some role)
    (h' : S.roles[j]? = some role) : i = j := by
  obtain ⟨hi, hrole⟩ := List.getElem?_eq_some_iff.mp h
  obtain ⟨hj, hrole'⟩ := List.getElem?_eq_some_iff.mp h'
  exact (List.Nodup.getElem_inj_iff hS.distinct).mp (hrole.trans hrole'.symm)

/-- Along the route of a stage comes the next one. -/
theorem next_role (hS : S.Sound jobs) {next : String} {tail : List String}
    (h : next :: tail = S.roles.drop (i + 1)) : i + 1 < S.pipeline.size ∧
      S.roles[i + 1]? = some next ∧ tail = S.roles.drop (i + 1 + 1) := by
  have hlt : i + 1 < S.roles.length := by
    rw [← Nat.not_le, ← List.drop_eq_nil_iff, ← h]
    exact List.cons_ne_nil next tail
  rw [List.drop_eq_getElem_cons hlt] at h
  obtain ⟨rfl, rfl⟩ := List.cons.inj h
  exact ⟨hS.all ▸ hlt, List.getElem?_eq_getElem hlt, rfl⟩

/-- What a stage hands on may be asked of the next one. -/
theorem handsOn (hS : S.Sound jobs) :
    Payload.Network.HandsOn (Reports S L jobs) (Asked S L jobs) := by
  intro role data next tail body hasked hreports
  obtain ⟨hforeign, -, hserved⟩ := hreports body false rfl
  cases hasked with
  | foreign _ h => exact .foreign tail (hforeign h)
  | @request rid i hi d p ys a _ hrole hwire h hroute =>
      obtain ⟨response, hserved, hbody⟩ := hserved rid i hi d p ys a hrole hwire h
      obtain rfl : response = L.answerAt i hi p ys a := by
        rcases hserved with ⟨-, hstops⟩ | hanswer
        · cases hstops
        · exact hanswer
      obtain ⟨hnext, hnextRole, hdrop⟩ :=
        next_role hS (hroute.resolve_left (List.cons_ne_nil next tail))
      exact .request hnextRole hbody (h.handOn hS.codec hnext) (.inr hdrop)

/-! ### Reports -/

/-- A dictionary on the wire is read as it was. -/
theorem popRid_wire (hS : S.Sound jobs) (hd : ridKey ∉ d)
    (hwire : Wire S.transport S.cipher rid d data) {payload : Value ω}
    (hdecode : Worker.decode S.transport S.cipher data = .ok payload) :
    Worker.popRid payload = (ridItem S.cipher rid, .dict d) := by
  obtain rfl := Except.ok.inj (hdecode.symm.trans (decode_wire hS.lossless hS.correct hwire))
  exact popRid_carry hd

/-- What is asked of a role is decent, as its workers see it. -/
theorem Asked.decent (hS : S.Sound jobs) {route : List String} (h : Asked S L jobs role data route)
    (hi : i < S.pipeline.size) (hrole : S.roles[i]? = some role) {payload : Value ω}
    (hdecode : Worker.decode S.transport S.cipher data = .ok payload)
    (hpop : (Worker.popRid payload).2 = .dict d) : Decent S L jobs i hi d := by
  cases h with
  | foreign _ h =>
      cases payload with
      | item x => cases hpop
      | dict e =>
          obtain rfl := Value.dict.inj hpop
          exact .inl fun hnames => h e hdecode (names_erase.mp hnames)
  | request hrole' hwire h =>
      obtain rfl := role_unique hS hrole hrole'
      rw [popRid_wire hS h.plain hwire hdecode] at hpop
      obtain rfl := Value.dict.inj hpop
      exact .inr (.inr ⟨_, _, _, h⟩)
  | closing hwire h =>
      rw [popRid_wire hS h.plain hwire hdecode] at hpop
      obtain rfl := Value.dict.inj hpop
      exact .inr (.inl h)

theorem stopFlag_miss (hS : S.Sound jobs) (cached : Int) :
    Worker.stopFlag S.transport (.dict (S.codec.respond d (.cacheMiss cached))) = .ok true := by
  have hlookup : (S.codec.respond d (.cacheMiss cached)).lookup stopChainKey =
      some (.other S.codec.flag) := AList.lookup_put_self ..
  simp only [Worker.stopFlag, hlookup]
  exact hS.codec.flagStops

/-- What a worker posts for what its stage returns. -/
theorem exists_of_report {nonce : Nonce} {x : Item ω} {post : Post} {sniff : Bytes → Bool}
    {stops : Bool} (h : Worker.report S.transport S.cipher nonce (.ok (.dict r)) x = some post)
    (hbody : verdict sniff post = .result body stops) :
    ∃ packed flag, S.transport.pack (Worker.attachRid x (.dict r)) = .ok packed ∧
      Worker.stopFlag S.transport (Worker.attachRid x (.dict r)) = .ok flag ∧
      body = sealWith S.cipher nonce packed ∧ stops = (flag || sniff body) := by
  unfold Worker.report at h
  dsimp only at h
  split at h
  · obtain rfl := Option.some.inj h
    cases hbody
  · rename_i packed hpack
    split at h
    · cases h
    · rename_i flag hflag
      obtain rfl := Option.some.inj h
      obtain ⟨rfl, rfl⟩ := Verdict.result.inj hbody
      exact ⟨packed, flag, hpack, hflag, rfl, rfl⟩

/-- Of what names no generation, a worker reports nothing that does. -/
theorem foreign_attach (hS : S.Sound jobs) {nonce : Nonce} {x : Item ω} {packed : Bytes}
    (hpack : S.transport.pack (Worker.attachRid x (.dict r)) = .ok packed)
    (hr : ¬S.Names jobs r) : S.Foreign jobs (sealWith S.cipher nonce packed) := by
  intro e he
  rw [Worker.decode, open_sealWith hS.correct (hS.lossless.not_sealed _ _ hpack)] at he
  dsimp only at he
  rw [hS.lossless.unpack_pack _ _ hpack] at he
  have hattach := Except.ok.inj he
  cases x with
  | none =>
      obtain rfl := Value.dict.inj hattach
      exact hr
  | str text =>
      obtain rfl := Value.dict.inj hattach
      exact fun hnames => hr ((names_put _).mp hnames)
  | other y =>
      obtain rfl := Value.dict.inj hattach
      exact fun hnames => hr ((names_put _).mp hnames)

/-- A worker reports what it may, when its stage returns what it may. -/
theorem reports_of_answers (hS : S.Sound jobs) (hrole : S.roles[i]? = some role) {nonce : Nonce}
    {payload : Value ω} {result : Except Exc (Value ω)} {post : Post} {sniff : Bytes → Bool}
    (hdecode : Worker.decode S.transport S.cipher data = .ok payload)
    (h : Answers S L jobs i hi (Worker.popRid payload).2 result)
    (hpost : Worker.report S.transport S.cipher nonce result (Worker.popRid payload).1 = some post) :
    Reports S L jobs role data (verdict sniff post) := by
  intro body stops hbody
  generalize hpayload : (Worker.popRid payload).2 = popped at h
  cases h with
  | raised e =>
      obtain rfl := Option.some.inj hpost
      cases hbody
  | @served d response hright =>
      obtain ⟨packed, flag, hpack, hflag, rfl, rfl⟩ := exists_of_report hpost hbody
      refine ⟨fun hforeign => ?_, fun rid e hwire hcloses => ?_,
        fun rid j hj e p ys a hrole' hwire h => ?_⟩
      · refine foreign_attach hS hpack fun hnames => ?_
        cases payload with
        | item x => cases hpayload
        | dict e =>
            obtain rfl := Value.dict.inj hpayload
            exact hforeign e hdecode (names_erase.mp (names_respond hS.named hnames))
      · rw [popRid_wire hS hcloses.plain hwire hdecode] at hpayload
        obtain rfl := Value.dict.inj hpayload
        obtain rfl := hright.closed hcloses response rfl
        exact foreign_attach hS hpack (not_names_closed hS.named)
      · obtain rfl := role_unique hS hrole hrole'
        rw [popRid_wire hS h.plain hwire hdecode] at hpayload hpack hflag
        obtain rfl := Value.dict.inj hpayload
        dsimp only at hpack hflag
        rw [attachRid_ridItem] at hpack hflag
        rw [stopFlag_carry] at hflag
        refine ⟨response, ?_, nonce, packed, hpack, rfl⟩
        rcases hright.served p ys a h response rfl with ⟨cached, rfl⟩ | hanswer
        · obtain rfl := Except.ok.inj ((stopFlag_miss hS cached).symm.trans hflag)
          exact .inl ⟨⟨cached, rfl⟩, rfl⟩
        · exact .inr hanswer

/-! ### Workers -/

/-- A function of batches that fails leaves an exception for every payload. -/
theorem runFunc_batch {R : Value ω → Except Exc (Value ω) → Prop}
    (hraised : ∀ payload e, R payload (.error e))
    {g : List (Value ω) → Except Exc (List (Except Exc (Value ω)))} {payloads : List (Value ω)}
    (h : ∀ results, g payloads = .ok results → List.Forall₂ R payloads results) :
    List.Forall₂ R payloads (Worker.runFunc (.batch g) payloads) := by
  have hall : ∀ e, List.Forall₂ R payloads (List.replicate payloads.length (.error e)) := by
    intro e
    rw [← List.map_const', List.forall₂_map_right_iff]
    exact List.forall₂_same.mpr fun payload _ => hraised payload e
  unfold Worker.runFunc
  dsimp only
  split
  · exact hall _
  · rename_i results hresults
    split
    · exact h results hresults
    · exact hall _

/-- Every post of a worker is about a task of its own: the task could not be read, or it is the report
of what the function returned for it. -/
theorem exists_of_process {T : Transport ω} {cipher : Option Aead}
    {R : Value ω → Except Exc (Value ω) → Prop} {nonce : String → Nonce} {func : Func ω}
    {tasks : List (String × Bytes)}
    (hR : List.Forall₂ R (payloadsOf T cipher tasks)
      (Worker.runFunc func (payloadsOf T cipher tasks))) {id : String} {post : Post}
    (h : (id, some post) ∈ Worker.process T cipher nonce func
      (tasks.map fun task => (task.1, Worker.decode T cipher task.2))) :
    ∃ data, (id, data) ∈ tasks ∧ ((∃ message, post = .failure message) ∨ ∃ payload result,
      Worker.decode T cipher data = .ok payload ∧ R (Worker.popRid payload).2 result ∧
        Worker.report T cipher (nonce id) result (Worker.popRid payload).1 = some post) := by
  rcases List.mem_append.mp h with h | h
  · obtain ⟨task, htask, heq⟩ := List.mem_map.mp h
    obtain ⟨hmem, herror⟩ := List.mem_filter.mp htask
    obtain ⟨⟨id', data⟩, hsource, rfl⟩ := List.mem_map.mp hmem
    obtain ⟨rfl, hreport⟩ := Prod.mk.inj heq
    refine ⟨data, hsource, .inl ?_⟩
    dsimp only at hreport herror
    cases hdecode : Worker.decode T cipher data with
    | ok payload =>
        rw [hdecode] at herror
        cases herror
    | error e =>
        rw [hdecode] at hreport
        exact ⟨_, (Option.some.inj hreport).symm⟩
  · obtain ⟨⟨⟨id', x⟩, result⟩, hzip, heq⟩ := List.mem_map.mp h
    obtain ⟨rfl, hreport⟩ := Prod.mk.inj heq
    set good := (tasks.map fun task => (task.1, Worker.decode T cipher task.2)).filterMap fun task =>
      task.2.toOption.map fun payload => (task.1, Worker.popRid payload) with hgood
    have hpayloads : good.map (fun task => task.2.2) = payloadsOf T cipher tasks := by
      rw [hgood, List.filterMap_map, List.map_filterMap, payloadsOf]
      congr 1
      funext task
      cases hdecode : Worker.decode T cipher task.2 with
      | error e => simp only [Function.comp_apply, hdecode]; rfl
      | ok payload => simp only [Function.comp_apply, hdecode]; rfl
    rw [← hpayloads, List.forall₂_map_left_iff] at hR
    obtain ⟨task, hmem, hx⟩ := List.mem_filterMap.mp (List.of_mem_zip hzip).1
    obtain ⟨⟨id'', data⟩, hsource, rfl⟩ := List.mem_map.mp hmem
    obtain ⟨payload, hpayload, hpair⟩ := Option.map_eq_some_iff.mp hx
    obtain ⟨rfl, rfl⟩ := Prod.mk.inj hpair
    refine ⟨data, hsource, .inr ⟨payload, result, ?_, List.forall₂_zip hR hzip, hreport⟩⟩
    dsimp only at hpayload
    cases hdecode : Worker.decode T cipher data with
    | error e =>
        rw [hdecode] at hpayload
        cases hpayload
    | ok payload' =>
        rw [hdecode] at hpayload
        exact congrArg Except.ok (Option.some.inj hpayload)

theorem mem_payloadsOf {T : Transport ω} {cipher : Option Aead} {tasks : List (String × Bytes)}
    {value : Value ω} (h : value ∈ payloadsOf T cipher tasks) : ∃ task ∈ tasks, ∃ payload,
      Worker.decode T cipher task.2 = .ok payload ∧ (Worker.popRid payload).2 = value := by
  obtain ⟨task, htask, hvalue⟩ := List.mem_filterMap.mp h
  obtain ⟨payload, hpayload, rfl⟩ := Option.map_eq_some_iff.mp hvalue
  refine ⟨task, htask, payload, ?_, rfl⟩
  cases hdecode : Worker.decode T cipher task.2 with
  | error e =>
      rw [hdecode] at hpayload
      cases hpayload
  | ok payload' =>
      rw [hdecode] at hpayload
      exact congrArg Except.ok (Option.some.inj hpayload)

variable {worker : String} {table : Sessions κ} {tasks : List (String × Bytes)}

/-- What a worker of a role makes of the tasks that it holds: its table stays what it should be, and
it reports what it may. -/
theorem served_reports (hS : S.Sound jobs) (hrole : S.roles[i]? = some role)
    (hasked : ∀ task ∈ tasks, ∃ route, Asked S L jobs role task.2 route)
    (htable : Kept S L jobs i hi worker table) (time : Nat → Stage.Instant) :
    Kept S L jobs i hi worker (S.stage i worker time table
        (payloadsOf S.transport S.cipher tasks)).2 ∧
      ∀ nonce id post sniff, (id, some post) ∈ Worker.process S.transport S.cipher nonce
        (.batch fun payloads => (S.stage i worker time table payloads).1)
        (tasks.map fun task => (task.1, Worker.decode S.transport S.cipher task.2)) →
        ∃ data, (id, data) ∈ tasks ∧ Reports S L jobs role data (verdict sniff post) := by
  have hdecent : AllDecent S L jobs i hi (payloadsOf S.transport S.cipher tasks) := by
    intro d hd
    obtain ⟨task, htask, payload, hdecode, hpop⟩ := mem_payloadsOf hd
    obtain ⟨route, hroute⟩ := hasked task htask
    exact hroute.decent hS hi hrole hdecode hpop
  obtain ⟨row, dims, hmask⟩ := hS.rowwise i hi
  obtain ⟨hkept, hanswers⟩ := stage_kept hS.codec hmask hS.named htable hdecent time
  refine ⟨hkept, fun nonce id post sniff h => ?_⟩
  obtain ⟨data, hdata, ⟨message, rfl⟩ | ⟨payload, result, hdecode, hresult, hpost⟩⟩ :=
    exists_of_process (runFunc_batch (fun payload e => .raised payload e) hanswers) h
  · exact ⟨data, hdata, fun body stops hbody => by cases hbody⟩
  · exact ⟨data, hdata, reports_of_answers hS hrole hdecode hresult hpost⟩

/-! ### What comes back -/

/-- A miss; hidden states, which are a request to stage `j`; or the row of the full model. -/
inductive Reply (S : Setup τ η ℓ κ ω) (L : Lawful S.pipeline) (jobs : String → Option (Job τ ℓ σ))
    (ys : List τ) (a : Nat) (j : Nat) (response : Dict ω) : Prop where
  | missed (hhidden : hiddenKey ∉ response)
      (hmiss : truthOf ((response.lookup missKey).map S.codec.look) = .ok true) :
      Reply S L jobs ys a j response
  | halfway {hj : j < S.pipeline.size} {p : Stage.Payload τ η}
      (h : Requests S L jobs j hj response p ys a) (hargmax : p.argmax = false)
      (hhidden : hiddenKey ∈ response) (hrow : response.lookup logitsKey = none) :
      Reply S L jobs ys a j response
  | final {row : ℓ} (hrow : L.logits ys = some row) (hhidden : hiddenKey ∉ response)
      (hlookup : response.lookup logitsKey = some (.other (S.codec.ofRows [row]))) :
      Reply S L jobs ys a j response

/-- The last stage answers with the row of the full model. -/
theorem answerAt_last (hlast : i + 1 = S.pipeline.size) (ha : a < ys.length)
    (hargmax : p.argmax = false) :
    ∃ row, L.logits ys = some row ∧ L.answerAt i hi p ys a = .logits [row] := by
  obtain rfl : i = Lawful.last (P := S.pipeline) := Nat.eq_sub_of_add_eq hlast
  have hne : ¬ys.length ≤ a := Nat.not_le.mpr ha
  have hsome : L.hidden Lawful.last hi ys ≠ [] := by
    rw [← List.length_pos_iff, Causal.length_apply]
    exact Nat.zero_lt_of_lt ha
  have hx := List.getLast?_eq_some_getLast hsome
  refine ⟨_, by rw [Lawful.logits, hx]; rfl, ?_⟩
  unfold Lawful.answerAt
  rw [if_pos hlast, hargmax, if_neg Bool.false_ne_true, List.getLast?_drop, Causal.length_apply,
    if_neg hne, hx]
  rfl

/-- What a stage makes of a request, as it is read by whoever hears it. -/
theorem Served.reply (hS : S.Sound jobs) (h : Requests S L jobs i hi d p ys a)
    (hargmax : p.argmax = false) {response : Response τ η ℓ} {stops : Bool}
    (hserved : Served L i hi p ys a stops response) :
    Reply S L jobs ys a (i + 1) (S.codec.respond d response) := by
  rcases hserved with ⟨⟨cached, rfl⟩, -⟩ | rfl
  · refine .missed ?_ ?_
    · rw [← AList.lookup_eq_none]
      simp only [Codec.respond, AList.lookup_put]
      rfl
    · have hlookup : (S.codec.respond d (.cacheMiss cached)).lookup missKey =
          some (.other S.codec.flag) := by
        simp only [Codec.respond, AList.lookup_put]
        rfl
      rw [hlookup]
      exact hS.codec.flag
  · by_cases hlast : i + 1 = S.pipeline.size
    · obtain ⟨row, hrow, hanswer⟩ := answerAt_last hlast h.carries.nonempty hargmax
      rw [hanswer]
      refine .final hrow ?_ ?_
      · rw [← AList.lookup_eq_none]
        simp only [Codec.respond, AList.lookup_put]
        rfl
      · simp only [Codec.respond, AList.lookup_put]
        rfl
    · have hnext : i + 1 < S.pipeline.size := Nat.lt_of_le_of_ne hi hlast
      refine .halfway (h.handOn hS.codec hnext) hargmax ?_ ?_
      · unfold Lawful.answerAt
        rw [if_neg hlast, ← AList.lookup_isSome]
        simp only [Codec.respond, Stage.handOn, AList.lookup_put]
        rfl
      · unfold Lawful.answerAt
        rw [if_neg hlast, lookup_hidden S.codec d _ (by decide), if_neg (by decide)]

/-- What comes back along a route, on the wire: after one stage when there is no route. -/
theorem comes_reply (hS : S.Sound jobs) {route : List String} {outcome : Except String Bytes}
    (h : Comes (Reports S L jobs) role data route outcome) (hrole : S.roles[i]? = some role)
    (hwire : Wire S.transport S.cipher rid d data) (hreq : Requests S L jobs i hi d p ys a)
    (hargmax : p.argmax = false) (hroute : route = [] ∨ route = S.roles.drop (i + 1))
    (hbody : outcome = .ok body) : ∃ response j, Wire S.transport S.cipher rid response body ∧
      ridKey ∉ response ∧ Reply S L jobs ys a j response ∧ (route = [] → j = i + 1) := by
  induction h generalizing i d p with
  | failure => cases hbody
  | @last role data body' stops route hreports hlast =>
      obtain rfl := Except.ok.inj hbody
      obtain ⟨response, hserved, hsent⟩ :=
        (hreports body' stops rfl).2.2 rid i hi d p ys a hrole hwire hreq
      exact ⟨_, i + 1, hsent, rid_notMem_respond response, hserved.reply hS hreq hargmax,
        fun _ => rfl⟩
  | @next role data body' next tail outcome hreports _ ih =>
      obtain ⟨response, hserved, hsent⟩ :=
        (hreports body' false rfl).2.2 rid i hi d p ys a hrole hwire hreq
      obtain rfl : response = L.answerAt i hi p ys a := by
        rcases hserved with ⟨-, hstops⟩ | hanswer
        · cases hstops
        · exact hanswer
      obtain ⟨hnext, hnextRole, hdrop⟩ := next_role hS (hroute.resolve_left (List.cons_ne_nil _ _))
      obtain ⟨found, j, hfound, hplain, hreply, -⟩ :=
        ih hnextRole hsent (hreq.handOn hS.codec hnext) hargmax (.inr hdrop) hbody
      exact ⟨found, j, hfound, hplain, hreply, fun hnil => absurd hnil (List.cons_ne_nil _ _)⟩

end Distllm.Serving
