import Distllm.WorkerState

/-! What a call may come to, with or without encryption: a worker answers whatever it may answer in a
batch of tasks, the relay composes the answers along the route, and the client reads the last one.
Sealing carries a request id along. Where every result is a dictionary the id is taken out again
before anyone sees it, and the call comes to what the functions make of the dictionaries. -/

namespace Distllm.Payload

open Relay (Bytes Post routeRoles)
open Stages

variable {ω : Type}

/-! ### What a call may come to -/

/-- The function of a worker treats every payload of a batch by itself, by `f`. -/
def Func.Computes (func : Func ω) (f : Value ω → Except Exc (Value ω)) : Prop :=
  func = .each f ∨ ∃ g, func = .batch g ∧ ∀ payloads, g payloads = .ok (payloads.map f)

/-- What a post says to a relay. `sniff` tells the bodies in which the relay itself finds a stop flag. -/
def verdict (sniff : Bytes → Bool) : Post → Verdict Bytes String
  | .body bytes stopChain => .result bytes (stopChain || sniff bytes)
  | .failure message => .failure message

variable (T : Transport ω) (sniff : Bytes → Bool) (funcs : String → Func ω)

/-- A worker of the role may answer the payload with the verdict, in some batch of tasks. -/
def Works (cipher : Option Aead) (role : String) (data : Bytes) (v : Verdict Bytes String) : Prop :=
  ∃ (nonce : String → Nonce) (tasks : List (String × Bytes)) (taskId : String) (post : Post),
    (tasks.map Prod.fst).Nodup ∧ (taskId, data) ∈ tasks ∧
      (taskId, some post) ∈ Worker.process T cipher nonce (funcs role)
        (tasks.map fun task => (task.1, Worker.decode T cipher task.2)) ∧
      verdict sniff post = v

/-- `uuid.uuid4().hex` -/
structure Rid where
  text : String
  length_text : text.toList.length = 32
  hex_text : text.toList.all fun c => c.isDigit || ('a' ≤ c && c ≤ 'f')

def Rid.zeros : Rid := ⟨"00000000000000000000000000000000", by decide, by decide⟩

/-- `submit` and `wait_for`, of a relay that answers with an outcome of the route. -/
inductive Returns (cipher : Option Aead) (role : String) (payload : Value ω) (route : List String) :
    Except Exc (Value ω) → Prop where
  | raised {nonce : Nonce} {rid : Rid} {e : Exc}
      (h : Cluster.submit T cipher nonce rid.text role payload route = .error e) :
      Returns cipher role payload route (.error e)
  | answered {nonce : Nonce} {rid : Rid} {taskId : String} {sub : Submission}
      {outcome : Except String Bytes}
      (hsubmit : Cluster.submit T cipher nonce rid.text role payload route = .ok sub)
      (h : Comes (Works T sniff funcs cipher) sub.targetRole sub.body (routeRoles sub.route) outcome) :
      Returns cipher role payload route
        (Cluster.waitFor T cipher taskId sub.rid (outcome.mapError Relay.cutError))

/-- `Cluster.call` -/
def Call (cipher : Option Aead) (role : String) (payload : Value ω) :
    Except Exc (Value ω) → Prop :=
  Returns T sniff funcs cipher role payload []

/-- `Cluster.call_route` -/
def CallRoute (cipher : Option Aead) (roles : List String) (payload : Value ω)
    (outcome : Except Exc (Value ω)) : Prop :=
  match roles with
  | [] => outcome = .error ⟨"IndexError", "list index out of range"⟩
  | role :: route => Returns T sniff funcs cipher role payload route outcome

/-! ### Results that leave room for the request id -/

/-- A dictionary without the reserved key that can be packed, also with a request id. -/
structure Echoes (d : Dict ω) : Prop where
  notMem : ridKey ∉ d
  packs : ∃ body, T.pack (.dict d) = .ok body
  packsRid : ∀ rid : Rid, ∃ body, T.pack (.dict (d.put ridKey (.str rid.text))) = .ok body

/-- Every result on the way is such a dictionary; of one that is handed on unsealed, because its
worker finds no stop flag in it, the relay finds none either. -/
def Tame (cipher : Option Aead) (f : String → Value ω → Except Exc (Value ω)) :
    List String → String → Dict ω → Prop
  | [], role, payload => ∀ result, f role (.dict payload) = .ok result →
      ∃ d, result = .dict d ∧ Echoes T d
  | next :: tail, role, payload => ∀ result, f role (.dict payload) = .ok result →
      ∃ d, result = .dict d ∧ Echoes T d ∧ (Worker.stopFlag T (.dict d) = .ok false →
        (cipher = none → ∀ body, T.pack (.dict d) = .ok body → sniff body = false) ∧
          Tame cipher f tail next d)

/-! ### One task of a batch -/

variable {T sniff funcs}
variable {f : String → Value ω → Except Exc (Value ω)} {cipher : Option Aead} {rid : Rid}
  {role : String} {d : Dict ω} {data : Bytes}

/-- What a worker posts for a payload that it polls alone. -/
def handle (T : Transport ω) (cipher : Option Aead) (nonce : Nonce)
    (f : Value ω → Except Exc (Value ω)) (data : Bytes) : Option Post :=
  match Worker.decode T cipher data with
  | .error e => Worker.report T cipher nonce (.error e) .none
  | .ok payload =>
    Worker.report T cipher nonce (f (Worker.popRid payload).2) (Worker.popRid payload).1

theorem runFunc_map {func : Func ω} {g : Value ω → Except Exc (Value ω)} (h : func.Computes g)
    (payloads : List (Value ω)) : Worker.runFunc func payloads = payloads.map g := by
  rcases h with rfl | ⟨batch, rfl, hbatch⟩
  · exact rfl
  · simp only [Worker.runFunc, hbatch, List.length_map, if_true]

theorem zip_map_self {α β : Type} (l : List α) (g : α → β) :
    l.zip (l.map g) = l.map fun a => (a, g a) := by
  induction l with
  | nil => rfl
  | cons a l ih => rw [List.map_cons, List.zip_cons_cons, List.map_cons, ih]

/-- A batch changes nothing for its tasks. -/
theorem mem_process {func : Func ω} {g : Value ω → Except Exc (Value ω)} (h : func.Computes g)
    {nonce : String → Nonce} {tasks : List (String × Bytes)} {taskId : String} {post : Option Post} :
    (taskId, post) ∈ Worker.process T cipher nonce func
        (tasks.map fun task => (task.1, Worker.decode T cipher task.2)) ↔
      ∃ data, (taskId, data) ∈ tasks ∧ handle T cipher (nonce taskId) g data = post := by
  simp only [Worker.process, runFunc_map h, List.map_map, zip_map_self, List.mem_append,
    List.mem_map, List.mem_filter, List.mem_filterMap]
  constructor
  · rintro (⟨_, ⟨⟨⟨id, data⟩, hmem, rfl⟩, herror⟩, heq⟩ |
      ⟨_, ⟨_, ⟨⟨id, data⟩, hmem, rfl⟩, hgood⟩, heq⟩)
    · obtain ⟨rfl, rfl⟩ := Prod.ext_iff.mp heq
      refine ⟨data, hmem, ?_⟩
      cases hdecode : Worker.decode T cipher data with
      | ok payload => simp [hdecode, Except.isOk, Except.toBool] at herror
      | error e => simp only [handle, hdecode]
    · cases hdecode : Worker.decode T cipher data with
      | error e => simp [hdecode, Except.toOption] at hgood
      | ok payload =>
          simp only [hdecode, Except.toOption, Option.map_some, Option.some.injEq] at hgood
          subst hgood
          obtain ⟨rfl, rfl⟩ := Prod.ext_iff.mp heq
          refine ⟨data, hmem, ?_⟩
          simp only [handle, hdecode]
          rfl
  · rintro ⟨data, hmem, rfl⟩
    cases hdecode : Worker.decode T cipher data with
    | error e =>
        refine .inl ⟨(taskId, .error e), ⟨⟨_, hmem, by rw [hdecode]⟩, rfl⟩, ?_⟩
        simp only [handle, hdecode]
    | ok payload =>
        refine .inr ⟨(taskId, Worker.popRid payload),
          ⟨(taskId, .ok payload), ⟨(taskId, data), hmem, by rw [hdecode]⟩, rfl⟩, ?_⟩
        simp only [handle, hdecode]
        rfl

theorem works_iff (hfuncs : ∀ role, (funcs role).Computes (f role)) {v : Verdict Bytes String} :
    Works T sniff funcs cipher role data v ↔
      ∃ nonce post, handle T cipher nonce (f role) data = some post ∧ verdict sniff post = v := by
  constructor
  · rintro ⟨nonce, tasks, taskId, post, hnodup, hmem, hpost, rfl⟩
    obtain ⟨data', hmem', hhandle⟩ := (mem_process (hfuncs role)).mp hpost
    obtain rfl : data' = data :=
      congrArg Prod.snd (List.inj_on_of_nodup_map hnodup hmem' hmem rfl)
    exact ⟨_, post, hhandle, rfl⟩
  · rintro ⟨nonce, post, hhandle, rfl⟩
    refine ⟨fun _ => nonce, [("", data)], "", post, List.nodup_singleton _, List.mem_singleton_self _,
      (mem_process (hfuncs role)).mpr ⟨data, List.mem_singleton_self _, hhandle⟩, rfl⟩

/-! ### The request id on its way -/

/-- The dictionary that travels: with the request id when it is to be sealed. -/
def carry (cipher : Option Aead) (rid : Rid) (d : Dict ω) : Dict ω :=
  if cipher.isSome then d.put ridKey (.str rid.text) else d

def ridItem (cipher : Option Aead) (rid : Rid) : Item ω :=
  if cipher.isSome then .str rid.text else .none

/-- The bytes are the dictionary on the wire. -/
def Wire (T : Transport ω) (cipher : Option Aead) (rid : Rid) (d : Dict ω) (data : Bytes) : Prop :=
  ∃ nonce body, T.pack (.dict (carry cipher rid d)) = .ok body ∧ data = sealWith cipher nonce body

theorem Echoes.carried (h : Echoes T d) (cipher : Option Aead) (rid : Rid) :
    ∃ body, T.pack (.dict (carry cipher rid d)) = .ok body := by
  cases cipher with
  | none => exact h.packs
  | some c => exact h.packsRid rid

theorem popRid_carry (h : ridKey ∉ d) :
    Worker.popRid (.dict (carry cipher rid d)) = (ridItem cipher rid, .dict d) := by
  cases cipher with
  | none =>
      have hlookup : d.lookup ridKey = none := AList.lookup_eq_none.mpr h
      simp [carry, ridItem, Worker.popRid, hlookup, erase_of_notMem h]
  | some c => simp [carry, ridItem, Worker.popRid, erase_put h]

theorem attachRid_ridItem :
    Worker.attachRid (ridItem cipher rid) (.dict d) = .dict (carry cipher rid d) := by
  cases cipher <;> rfl

theorem stopFlag_carry :
    Worker.stopFlag T (.dict (carry cipher rid d)) = Worker.stopFlag T (.dict d) := by
  cases cipher with
  | none => rfl
  | some c =>
      have hne : stopChainKey ≠ ridKey := by decide
      have hlookup : (carry (some c) rid d).lookup stopChainKey = d.lookup stopChainKey :=
        lookup_put_ne hne _
      simp only [Worker.stopFlag, hlookup]

theorem decode_wire (hT : T.Lossless) (hcipher : ∀ c ∈ cipher, c.Correct)
    (h : Wire T cipher rid d data) :
    Worker.decode T cipher data = .ok (.dict (carry cipher rid d)) := by
  obtain ⟨nonce, body, hpack, rfl⟩ := h
  rw [Worker.decode, open_sealWith hcipher (hT.not_sealed _ _ hpack)]
  exact hT.unpack_pack _ _ hpack

theorem handle_wire (hT : T.Lossless) (hcipher : ∀ c ∈ cipher, c.Correct) (hd : ridKey ∉ d)
    (h : Wire T cipher rid d data) (nonce : Nonce) (g : Value ω → Except Exc (Value ω)) :
    handle T cipher nonce g data
      = Worker.report T cipher nonce (g (.dict d)) (ridItem cipher rid) := by
  simp only [handle, decode_wire hT hcipher h, popRid_carry hd]

/-! ### One stage -/

/-- What a stage makes of a dictionary, as the workers of its role see it. -/
def stage (T : Transport ω) (f : String → Value ω → Except Exc (Value ω)) (role : String)
    (d : Dict ω) : Verdict (Dict ω) String → Prop
  | .failure message => ∃ e, f role (.dict d) = .error e ∧ message = e.text
  | .result r flag => f role (.dict d) = .ok (.dict r) ∧ Worker.stopFlag T (.dict r) = .ok flag

section
variable (hT : T.Lossless) (hcipher : ∀ c ∈ cipher, c.Correct)
  (hfuncs : ∀ role, (funcs role).Computes (f role))
include hT hcipher hfuncs

theorem works_failure {e : Exc} (hd : ridKey ∉ d) (h : Wire T cipher rid d data)
    (hf : f role (.dict d) = .error e) {v : Verdict Bytes String} :
    Works T sniff funcs cipher role data v ↔ v = .failure e.text := by
  simp only [works_iff hfuncs, handle_wire hT hcipher hd h, hf, Worker.report, Option.some.injEq]
  constructor
  · rintro ⟨nonce, post, rfl, rfl⟩
    rfl
  · rintro rfl
    exact ⟨⟨List.replicate nonceSize 0, List.length_replicate⟩, _, rfl, rfl⟩

theorem works_result {r : Dict ω} (hd : ridKey ∉ d) (h : Wire T cipher rid d data)
    (hf : f role (.dict d) = .ok (.dict r)) (hr : Echoes T r) {v : Verdict Bytes String} :
    Works T sniff funcs cipher role data v ↔
      ∃ flag sent, Worker.stopFlag T (.dict r) = .ok flag ∧ Wire T cipher rid r sent ∧
        v = .result sent (flag || sniff sent) := by
  obtain ⟨body, hpack⟩ := hr.carried cipher rid
  simp only [works_iff hfuncs, handle_wire hT hcipher hd h, hf, Worker.report, attachRid_ridItem,
    stopFlag_carry, hpack]
  constructor
  · rintro ⟨nonce, post, hpost, rfl⟩
    cases hflag : Worker.stopFlag T (.dict r) with
    | error e => simp [hflag] at hpost
    | ok flag =>
        simp only [hflag, Option.some.injEq] at hpost
        subst hpost
        exact ⟨flag, _, rfl, ⟨nonce, body, hpack, rfl⟩, rfl⟩
  · rintro ⟨flag, sent, hflag, ⟨nonce, body', hpack', rfl⟩, rfl⟩
    obtain rfl := Except.ok.inj (hpack.symm.trans hpack')
    exact ⟨nonce, _, by rw [hflag], rfl⟩

/-! ### The whole route -/

/-- The outcome on the wire is the outcome among dictionaries. -/
def Shown (T : Transport ω) (cipher : Option Aead) (rid : Rid) :
    Except String (Dict ω) → Except String Bytes → Prop
  | .ok r, .ok data => ridKey ∉ r ∧ Wire T cipher rid r data
  | .error message, .error message' => message = message'
  | _, _ => False

omit hT hcipher hfuncs in
theorem Tame.result {route : List String} (h : Tame T sniff cipher f route role d)
    {value : Value ω} (hf : f role (.dict d) = .ok value) : ∃ r, value = .dict r ∧ Echoes T r := by
  cases route with
  | nil => exact h value hf
  | cons next tail =>
      obtain ⟨r, hr, hechoes, _⟩ := h value hf
      exact ⟨r, hr, hechoes⟩

omit hT hcipher hfuncs in
theorem Tame.next {next : String} {tail : List String} {r sent : _}
    (h : Tame T sniff cipher f (next :: tail) role d) (hf : f role (.dict d) = .ok (.dict r))
    (hflag : Worker.stopFlag T (.dict r) = .ok false)
    (hunread : ∀ data, isSealed data = true → sniff data = false)
    (hsent : Wire T cipher rid r sent) :
    sniff sent = false ∧ Tame T sniff cipher f tail next r := by
  obtain ⟨r', hr', _, hnext⟩ := h _ hf
  obtain rfl := Value.dict.inj hr'
  obtain ⟨hsniff, htail⟩ := hnext hflag
  refine ⟨?_, htail⟩
  obtain ⟨nonce, body, hpack, rfl⟩ := hsent
  cases cipher with
  | none => exact hsniff rfl body hpack
  | some c => exact hunread _ (isSealed_sealData c nonce body)

/-- Whatever the workers may answer along the route, the stages make of the dictionaries. -/
theorem comes_stage (hunread : ∀ data, isSealed data = true → sniff data = false)
    {route : List String} {outcome : Except String Bytes}
    (h : Comes (Works T sniff funcs cipher) role data route outcome) (hd : ridKey ∉ d)
    (hwire : Wire T cipher rid d data) (htame : Tame T sniff cipher f route role d) :
    ∃ out, Comes (stage T f) role d route out ∧ Shown T cipher rid out outcome := by
  induction h generalizing d with
  | @failure role data message route hworks =>
      cases hf : f role (.dict d) with
      | error e =>
          have hv := (works_failure hT hcipher hfuncs hd hwire hf).mp hworks
          exact ⟨.error e.text, .failure route ⟨e, hf, rfl⟩, (Verdict.failure.inj hv).symm⟩
      | ok value =>
          obtain ⟨r, rfl, hr⟩ := htame.result hf
          obtain ⟨_, _, _, _, hv⟩ := (works_result hT hcipher hfuncs hd hwire hf hr).mp hworks
          cases hv
  | @last role data body stops route hworks hlast =>
      cases hf : f role (.dict d) with
      | error e => cases (works_failure hT hcipher hfuncs hd hwire hf).mp hworks
      | ok value =>
          obtain ⟨r, rfl, hr⟩ := htame.result hf
          obtain ⟨flag, sent, hflag, hsent, hv⟩ :=
            (works_result hT hcipher hfuncs hd hwire hf hr).mp hworks
          obtain ⟨rfl, rfl⟩ := Verdict.result.inj hv
          refine ⟨.ok r, .last ⟨hf, hflag⟩ ?_, hr.notMem, hsent⟩
          cases route with
          | nil => exact .inl rfl
          | cons next tail =>
              cases flag with
              | true => exact .inr rfl
              | false =>
                  have hstops := hlast.resolve_left (List.cons_ne_nil next tail)
                  rw [(htame.next hf hflag hunread hsent).1] at hstops
                  cases hstops
  | @next role data body next tail outcome hworks _ ih =>
      cases hf : f role (.dict d) with
      | error e => cases (works_failure hT hcipher hfuncs hd hwire hf).mp hworks
      | ok value =>
          obtain ⟨r, rfl, hr⟩ := htame.result hf
          obtain ⟨flag, sent, hflag, hsent, hv⟩ :=
            (works_result hT hcipher hfuncs hd hwire hf hr).mp hworks
          obtain ⟨rfl, hstops⟩ := Verdict.result.inj hv
          obtain ⟨rfl, _⟩ := Bool.or_eq_false_iff.mp hstops.symm
          obtain ⟨out, hout, hshown⟩ :=
            ih hr.notMem hsent (htame.next hf hflag hunread hsent).2
          exact ⟨out, .next ⟨hf, hflag⟩ hout, hshown⟩

/-- Whatever the stages make of the dictionaries, the workers may answer along the route. -/
theorem stage_comes (hunread : ∀ data, isSealed data = true → sniff data = false)
    {route : List String} {out : Except String (Dict ω)}
    (h : Comes (stage T f) role d route out) (hd : ridKey ∉ d)
    (hwire : Wire T cipher rid d data) (htame : Tame T sniff cipher f route role d) :
    ∃ outcome, Comes (Works T sniff funcs cipher) role data route outcome ∧
      Shown T cipher rid out outcome := by
  have hsend : ∀ r : Dict ω, Echoes T r → ∃ sent, Wire T cipher rid r sent := by
    intro r hr
    obtain ⟨body, hpack⟩ := hr.carried cipher rid
    exact ⟨_, ⟨List.replicate nonceSize 0, List.length_replicate⟩, body, hpack, rfl⟩
  induction h generalizing data with
  | @failure role d message route hstage =>
      obtain ⟨e, hf, rfl⟩ := hstage
      exact ⟨.error e.text,
        .failure route ((works_failure hT hcipher hfuncs hd hwire hf).mpr rfl), rfl⟩
  | @last role d r flag route hstage hlast =>
      obtain ⟨hf, hflag⟩ := hstage
      obtain ⟨_, hr', hr⟩ := htame.result hf
      obtain rfl := Value.dict.inj hr'
      obtain ⟨sent, hsent⟩ := hsend r hr
      refine ⟨.ok sent, .last ((works_result hT hcipher hfuncs hd hwire hf hr).mpr
        ⟨flag, sent, hflag, hsent, rfl⟩) ?_, hr.notMem, hsent⟩
      exact hlast.imp_right fun htrue => by rw [htrue, Bool.true_or]
  | @next role d r next tail out hstage _ ih =>
      obtain ⟨hf, hflag⟩ := hstage
      obtain ⟨_, hr', hr⟩ := htame.result hf
      obtain rfl := Value.dict.inj hr'
      obtain ⟨sent, hsent⟩ := hsend r hr
      obtain ⟨hsniff, htail⟩ := htame.next hf hflag hunread hsent
      obtain ⟨outcome, hcomes, hshown⟩ := ih hr.notMem hsent htail
      refine ⟨outcome, .next ((works_result hT hcipher hfuncs hd hwire hf hr).mpr
        ⟨false, sent, hflag, hsent, ?_⟩) hcomes, hshown⟩
      rw [hsniff, Bool.or_false]

/-! ### The call -/

/-- What the caller gets to see. -/
def present : Except String (Dict ω) → Except Exc (Value ω)
  | .ok r => .ok (.dict r)
  | .error message =>
    .error ⟨"RuntimeError", "Task failed on worker: " ++ Relay.cutError message⟩

omit hfuncs in
/-- The client takes the request id out of what it has waited for. -/
theorem waitFor_shown {out : Except String (Dict ω)} {outcome : Except String Bytes}
    (h : Shown T cipher rid out outcome) (taskId : String) :
    Cluster.waitFor T cipher taskId (if cipher.isSome then some rid.text else none)
      (outcome.mapError Relay.cutError) = present out := by
  cases out with
  | error message =>
      cases outcome with
      | error message' =>
          obtain rfl : message = message' := h
          rfl
      | ok data => exact h.elim
  | ok r =>
      cases outcome with
      | error message => exact h.elim
      | ok data =>
          obtain ⟨hr, hwire⟩ := h
          have hpop : Worker.popRid (.dict (carry cipher rid r)) = (ridItem cipher rid, .dict r) :=
            popRid_carry hr
          change Cluster.result T cipher taskId _ data = _
          rw [Cluster.result, decode_wire hT hcipher hwire]
          cases cipher with
          | none => rfl
          | some c =>
              simp only [hpop, Option.isSome_some, if_true, ridItem, Item.isText, beq_self_eq_true]
              rfl

omit hT hcipher hfuncs in
theorem submit_dict (hd : Echoes T d) (nonce : Nonce) (rid : Rid) (role : String)
    (route : List String) :
    ∃ data, Wire T cipher rid d data ∧
      Cluster.submit T cipher nonce rid.text role (.dict d) route
        = .ok ⟨role, ",".intercalate route, Cluster.sessionOf (.dict d), data,
            if cipher.isSome then some rid.text else none⟩ := by
  obtain ⟨body, hpack⟩ := hd.carried cipher rid
  refine ⟨_, ⟨nonce, body, hpack, rfl⟩, ?_⟩
  have hrid : Cluster.withRid cipher rid.text (.dict d)
      = (.dict (carry cipher rid d), if cipher.isSome then some rid.text else none) := by
    cases cipher <;> rfl
  simp only [Cluster.submit, hrid, hpack]

/-- A call comes to what the stages make of the payload. -/
theorem returns_iff (hunread : ∀ data, isSealed data = true → sniff data = false)
    {route : List String} (hd : Echoes T d)
    (htame : Tame T sniff cipher f (routeRoles (",".intercalate route)) role d)
    {outcome : Except Exc (Value ω)} :
    Returns T sniff funcs cipher role (.dict d) route outcome ↔
      ∃ out, Comes (stage T f) role d (routeRoles (",".intercalate route)) out ∧
        outcome = present out := by
  constructor
  · intro h
    cases h with
    | @raised nonce rid e h =>
        obtain ⟨data, _, hsubmit⟩ := submit_dict hd nonce rid role route
        cases hsubmit.symm.trans h
    | @answered nonce rid taskId sub outcome hsubmit h =>
        obtain ⟨data, hwire, hsub⟩ := submit_dict hd nonce rid role route
        obtain rfl := Except.ok.inj (hsub.symm.trans hsubmit)
        obtain ⟨out, hout, hshown⟩ := comes_stage hT hcipher hfuncs hunread h hd.notMem hwire htame
        exact ⟨out, hout, waitFor_shown hT hcipher hshown taskId⟩
  · rintro ⟨out, hout, rfl⟩
    let nonce : Nonce := ⟨List.replicate nonceSize 0, List.length_replicate⟩
    obtain ⟨data, hwire, hsub⟩ := submit_dict hd nonce Rid.zeros role route
    obtain ⟨outcome, hcomes, hshown⟩ :=
      stage_comes hT hcipher hfuncs hunread hout hd.notMem hwire htame
    rw [← waitFor_shown hT hcipher hshown ""]
    exact .answered hsub hcomes

end

/-- A sealed call returns dictionaries without the request id, whatever the workers do. -/
theorem sealed_returns_dict {key : Aead} {payload : Dict ω} {route : List String} {value : Value ω}
    (h : Returns T sniff funcs (some key) role (.dict payload) route (.ok value)) :
    ∃ r, value = .dict r ∧ ridKey ∉ r := by
  generalize hvalue : Except.ok value = outcome at h
  cases h with
  | raised h => cases hvalue
  | @answered nonce rid taskId sub outcome hsubmit h =>
      have hrid : sub.rid = some rid.text := by
        simp only [Cluster.submit] at hsubmit
        split at hsubmit
        · cases hsubmit
        · obtain rfl := Except.ok.inj hsubmit
          rfl
      rw [hrid] at hvalue
      cases outcome with
      | error message => cases hvalue
      | ok content =>
          change Except.ok value = Cluster.result T (some key) taskId (some rid.text) content at hvalue
          rw [Cluster.result] at hvalue
          split at hvalue
          · cases hvalue
          · rename_i read _
            cases read with
            | item x => cases hvalue
            | dict r =>
                simp only at hvalue
                split at hvalue
                · obtain rfl := Except.ok.inj hvalue
                  exact ⟨_, rfl, fun hmem => (AList.mem_erase.mp hmem).1 rfl⟩
                · cases hvalue

end Distllm.Payload
