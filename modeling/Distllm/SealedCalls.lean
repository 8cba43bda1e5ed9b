import Distllm.RouteCalls

/-! Encryption does not change what a call returns, as long as the results on the way are dictionaries
without the reserved key and the relay finds no stop flag that their workers did not find. What may
happen otherwise is shown on a few values with their MessagePack bytes. -/

namespace Distllm.Payload

open Relay (Bytes routeRoles)
open Stages

variable {ω : Type} {T : Transport ω} {sniff : Bytes → Bool} {funcs : String → Func ω}
  {f : String → Value ω → Except Exc (Value ω)} {role : String} {d : Dict ω}

/-! ### A few values as MessagePack -/

/-- Small numbers and a tensor of one zero. -/
inductive Leaf where
  | number (n : Fin 128)
  | zeroTensor
  deriving DecidableEq

def numberKey : Key := .str "x"

def ascii (text : String) : Bytes := text.toList.map fun c => UInt8.ofNat c.toNat

def unascii (data : Bytes) : String := String.ofList (data.map fun x => Char.ofNat x.toNat)

def ridHead : Bytes := 172 :: ascii "_distllm_rid" ++ [217, 32]

def ridEntry (text : String) : Bytes := ridHead ++ ascii text

def tensorEntry : Bytes :=
  170 :: ascii "stop_chain" ++ 132 :: 170 :: ascii "__tensor__" ++ 195 :: 165 :: ascii "dtype" ++
    165 :: ascii "int64" ++ 165 :: ascii "shape" ++ 144 :: 164 :: ascii "data" ++
    [196, 8, 0, 0, 0, 0, 0, 0, 0, 0]

def numberEntry (n : Fin 128) : Bytes := 161 :: ascii "x" ++ [UInt8.ofNat n.val]

def packEntry : (Sigma fun _ : Key => Item Leaf) → Option Bytes
  | ⟨key, .str text⟩ =>
    if key = ridKey ∧ text.toList.length = 32 ∧ text.toList.all (fun c => c.toNat < 128) then
      some (ridEntry text)
    else none
  | ⟨key, .other (.number n)⟩ => if key = numberKey then some (numberEntry n) else none
  | ⟨key, .other .zeroTensor⟩ => if key = stopChainKey then some tensorEntry else none
  | _ => none

def unpackEntries : Nat → Bytes → List (Sigma fun _ : Key => Item Leaf)
  | 0, _ => []
  | n + 1, data =>
    if data.head? = some 172 then
      ⟨ridKey, .str (unascii ((data.drop ridHead.length).take 32))⟩ ::
        unpackEntries n (data.drop (ridHead.length + 32))
    else if data.head? = some 161 then
      ⟨numberKey, .other (.number (Fin.ofNat 128 (data.getD 2 0).toNat))⟩ :: unpackEntries n (data.drop 3)
    else ⟨stopChainKey, .other .zeroTensor⟩ :: unpackEntries n (data.drop tensorEntry.length)

/-- What the transport makes of small numbers and of dictionaries with a number, a request id and a
tensor of one zero as stop flag; it knows no other values. -/
def fewValues : Transport Leaf where
  pack
    | .item (.other (.number n)) => .ok [UInt8.ofNat n.val]
    | .dict d =>
      match d.entries.mapM packEntry with
      | some parts =>
        if parts.length < 16 then .ok (UInt8.ofNat (128 + parts.length) :: parts.flatten)
        else .error ⟨"TypeError", "can not serialize"⟩
      | none => .error ⟨"TypeError", "can not serialize"⟩
    | _ => .error ⟨"TypeError", "can not serialize"⟩
  unpack data :=
    if data.length = 1 ∧ (data.headD 0).toNat < 128 then
      .ok (.item (.other (.number (Fin.ofNat 128 (data.headD 0).toNat))))
    else
      let entries := unpackEntries ((data.head?.getD 0).toNat - 128) (data.drop 1)
      if h : (entries.map Sigma.fst).Nodup then .ok (.dict ⟨entries, h⟩)
      else .error ⟨"ValueError", "unpack failed"⟩
  truth x := .ok (x ≠ .zeroTensor ∧ x ≠ .number 0)

theorem unascii_ascii {text : String} (h : text.toList.all (fun c => c.toNat < 128)) :
    unascii (ascii text) = text := by
  have hmap : (ascii text).map (fun x => Char.ofNat x.toNat) = text.toList := by
    rw [ascii, List.map_map]
    conv_rhs => rw [← List.map_id text.toList]
    apply List.map_congr_left
    intro c hc
    have hlt : c.toNat < 128 := of_decide_eq_true (List.all_eq_true.mp h c hc)
    have hbyte : (UInt8.ofNat c.toNat).toNat = c.toNat := by
      rw [UInt8.toNat_ofNat']
      omega
    rw [Function.comp_apply, hbyte, Char.ofNat_toNat, id]
  rw [unascii, hmap, String.ofList_toList]

theorem packEntry_eq_some {e : Sigma fun _ : Key => Item Leaf} {part : Bytes}
    (h : packEntry e = some part) :
    (∃ text : String, e = ⟨ridKey, .str text⟩ ∧ part = ridEntry text ∧ text.toList.length = 32 ∧
      text.toList.all (fun c => c.toNat < 128)) ∨
    (∃ n : Fin 128, e = ⟨numberKey, .other (.number n)⟩ ∧ part = numberEntry n) ∨
    (e = ⟨stopChainKey, .other .zeroTensor⟩ ∧ part = tensorEntry) := by
  unfold packEntry at h
  split at h
  · rename_i key text
    split at h
    · rename_i hkey
      obtain ⟨rfl, hlength, hall⟩ := hkey
      exact .inl ⟨text, rfl, (Option.some.inj h).symm, hlength, hall⟩
    · cases h
  · rename_i key n
    split at h
    · rename_i hkey
      obtain rfl := hkey
      exact .inr (.inl ⟨n, rfl, (Option.some.inj h).symm⟩)
    · cases h
  · rename_i key
    split at h
    · rename_i hkey
      obtain rfl := hkey
      exact .inr (.inr ⟨rfl, (Option.some.inj h).symm⟩)
    · cases h
  · cases h

theorem toNat_number (n : Fin 128) : (UInt8.ofNat n.val).toNat = n.val := by
  have hlt := n.isLt
  rw [UInt8.toNat_ofNat']
  omega

theorem ofNat_number (n : Fin 128) : Fin.ofNat 128 (UInt8.ofNat n.val).toNat = n := by
  rw [toNat_number]
  exact Fin.ext (Nat.mod_eq_of_lt n.isLt)

theorem unpackEntries_pack {entries : List (Sigma fun _ : Key => Item Leaf)} {parts : List Bytes}
    (h : entries.mapM packEntry = some parts) :
    unpackEntries parts.length parts.flatten = entries := by
  induction entries generalizing parts with
  | nil =>
      obtain rfl : [] = parts := Option.some.inj h
      rfl
  | cons e entries ih =>
      rw [List.mapM_cons] at h
      obtain ⟨part, hpart, h⟩ := Option.bind_eq_some_iff.mp h
      obtain ⟨rest, hrest, h⟩ := Option.bind_eq_some_iff.mp h
      obtain rfl : part :: rest = parts := Option.some.inj h
      rw [List.length_cons, List.flatten_cons]
      rcases packEntry_eq_some hpart with
        ⟨text, rfl, rfl, hlength, hall⟩ | ⟨number, rfl, rfl⟩ | ⟨rfl, rfl⟩
      · have hascii : (ascii text).length = 32 := by rw [ascii, List.length_map, hlength]
        have hdrop : (ridEntry text ++ rest.flatten).drop ridHead.length
            = ascii text ++ rest.flatten := by
          rw [ridEntry, List.append_assoc, List.drop_left]
        have hhead : (ridEntry text ++ rest.flatten).head? = some 172 := rfl
        rw [unpackEntries, if_pos hhead, ← List.drop_drop, hdrop, ← hascii, List.take_left,
          List.drop_left, ih hrest, unascii_ascii hall]
      · have hother : (numberEntry number ++ rest.flatten).head? ≠ some 172 := by
          rw [show (numberEntry number ++ rest.flatten).head? = some 161 from rfl]
          decide
        have hhead : (numberEntry number ++ rest.flatten).head? = some 161 := rfl
        have hvalue : (numberEntry number ++ rest.flatten).getD 2 0 = UInt8.ofNat number.val := rfl
        have hdrop : (numberEntry number ++ rest.flatten).drop 3 = rest.flatten := rfl
        rw [unpackEntries, if_neg hother, if_pos hhead, hvalue, ofNat_number, hdrop, ih hrest]
      · have hhead : (tensorEntry ++ rest.flatten).head? = some 170 := by
          rw [show tensorEntry = 170 :: tensorEntry.tail from by decide, List.cons_append,
            List.head?_cons]
        rw [unpackEntries, if_neg (by rw [hhead]; decide), if_neg (by rw [hhead]; decide),
          List.drop_left, ih hrest]

/-- What is packed is a number, or starts with a byte that gives the number of entries. -/
theorem fewValues_pack {value : Value Leaf} {body : Bytes} (h : fewValues.pack value = .ok body) :
    (∃ n : Fin 128, value = .item (.other (.number n)) ∧ body = [UInt8.ofNat n.val]) ∨
    ∃ d parts, value = .dict d ∧ d.entries.mapM packEntry = some parts ∧ parts.length < 16 ∧
      body = UInt8.ofNat (128 + parts.length) :: parts.flatten := by
  simp only [fewValues] at h
  split at h
  · rename_i n
    exact .inl ⟨n, rfl, (Except.ok.inj h).symm⟩
  · rename_i d
    split at h
    · rename_i parts hparts
      split at h
      · rename_i hlength
        exact .inr ⟨d, parts, rfl, hparts, hlength, (Except.ok.inj h).symm⟩
      · cases h
    · cases h
  · cases h

theorem toNat_header {n : Nat} (hn : n < 16) : (UInt8.ofNat (128 + n)).toNat = 128 + n := by
  rw [UInt8.toNat_ofNat']
  omega

theorem fewValues_lossless : fewValues.Lossless where
  unpack_pack value body h := by
    rcases fewValues_pack h with ⟨n, rfl, rfl⟩ | ⟨d, parts, rfl, hparts, hlength, rfl⟩
    · have hsmall : [UInt8.ofNat n.val].length = 1 ∧ ([UInt8.ofNat n.val].headD 0).toNat < 128 :=
        ⟨rfl, (toNat_number n).trans_lt n.isLt⟩
      rw [show fewValues.unpack [UInt8.ofNat n.val] = _ from if_pos hsmall, List.headD_cons,
        ofNat_number]
    · have hlarge : ¬((UInt8.ofNat (128 + parts.length) :: parts.flatten).length = 1 ∧
          ((UInt8.ofNat (128 + parts.length) :: parts.flatten).headD 0).toNat < 128) := by
        rw [List.headD_cons, toNat_header hlength]
        omega
      have hentries : unpackEntries ((UInt8.ofNat (128 + parts.length)).toNat - 128) parts.flatten
          = d.entries := by
        rw [toNat_header hlength, Nat.add_sub_cancel_left, unpackEntries_pack hparts]
      simp only [fewValues, if_neg hlarge, List.head?_cons, Option.getD_some, List.drop_one,
        List.tail_cons, hentries]
      rw [dif_pos (show (d.entries.map Sigma.fst).Nodup from d.nodupKeys)]
  not_sealed value body h := by
    rcases fewValues_pack h with ⟨n, rfl, rfl⟩ | ⟨d, parts, rfl, hparts, hlength, rfl⟩
    · rw [isSealed, beq_eq_false_iff_ne]
      intro heq
      have hlength := congrArg List.length heq
      simp [magic] at hlength
    · rw [isSealed, beq_eq_false_iff_ne]
      intro heq
      have hhead := congrArg UInt8.toNat (List.cons.inj heq).1
      rw [toNat_header hlength, show (68 : UInt8).toNat = 68 from rfl] at hhead
      omega

theorem Rid.ascii_text (rid : Rid) : rid.text.toList.all (fun c => c.toNat < 128) := by
  refine List.all_eq_true.mpr fun c hc => decide_eq_true ?_
  have hhex := List.all_eq_true.mp rid.hex_text c hc
  rw [Bool.or_eq_true, Char.isDigit_iff_toNat, Bool.and_eq_true, decide_eq_true_eq,
    decide_eq_true_eq] at hhex
  rcases hhex with ⟨_, hdigit⟩ | ⟨_, hletter⟩
  · have hnine : c.toNat ≤ 57 := hdigit
    omega
  · have hf : c.toNat ≤ 102 := UInt32.le_iff_toNat_le.mp hletter
    omega

/-- There is room for the request id in a small dictionary. -/
theorem echoes_fewValues {d : Dict Leaf} {parts : List Bytes} (hd : ridKey ∉ d)
    (hparts : d.entries.mapM packEntry = some parts) (hlength : parts.length < 15) :
    Echoes fewValues d where
  notMem := hd
  packs := by
    refine ⟨UInt8.ofNat (128 + parts.length) :: parts.flatten, ?_⟩
    simp only [fewValues, hparts, if_pos (Nat.lt_succ_of_lt hlength)]
  packsRid rid := by
    have hkeys : ridKey ∉ d.entries.keys := hd
    have hentries : (d.put ridKey (.str rid.text)).entries
        = d.entries ++ [⟨ridKey, .str rid.text⟩] := by
      rw [AList.put, dif_neg hkeys]
    have hentry : packEntry ⟨ridKey, .str rid.text⟩ = some (ridEntry rid.text) :=
      if_pos ⟨rfl, rid.length_text, rid.ascii_text⟩
    have hpack : (d.put ridKey (.str rid.text)).entries.mapM packEntry
        = some (parts ++ [ridEntry rid.text]) := by
      rw [hentries, List.mapM_append, hparts, List.mapM_cons, hentry]
      rfl
    refine ⟨UInt8.ofNat (128 + (parts ++ [ridEntry rid.text]).length) ::
      (parts ++ [ridEntry rid.text]).flatten, ?_⟩
    have hroom : (parts ++ [ridEntry rid.text]).length < 16 := by
      rw [List.length_append, List.length_singleton]
      omega
    simp only [fewValues, hpack, if_pos hroom]

/-- A cipher that only adds a tag of sixteen zeros. -/
def zeroTag : Aead where
  encrypt _ data := data ++ List.replicate 16 0
  decrypt _ data :=
    if data.drop (data.length - 16) = List.replicate 16 0 then some (data.take (data.length - 16))
    else none

theorem zeroTag_correct : zeroTag.Correct := by
  intro nonce data
  simp [zeroTag]

/-- Of these values a relay finds a stop flag in a plain dictionary that starts with the tensor: it
does not turn the map that the tensor is packed as into a tensor. -/
def sniffTensor (data : Bytes) : Bool := !isSealed data && tensorEntry.isPrefixOf (data.drop 1)

theorem sniffTensor_sealed (data : Bytes) (h : isSealed data = true) : sniffTensor data = false := by
  rw [sniffTensor, h]
  rfl

/-- A plain call returns what its only running stage has posted. -/
theorem returns_of_works (hT : T.Lossless) {payload value : Value ω} {route : List String}
    {input sent : Bytes} {stops : Bool} (hinput : T.pack payload = .ok input)
    (hworks : Works T sniff funcs none role input (.result sent stops))
    (hlast : routeRoles (",".intercalate route) = [] ∨ stops = true)
    (hsent : T.pack value = .ok sent) :
    Returns T sniff funcs none role payload route (.ok value) := by
  let nonce : Nonce := ⟨List.replicate nonceSize 0, List.length_replicate⟩
  have hrid : Cluster.withRid none Rid.zeros.text payload = (payload, none) := by
    cases payload <;> rfl
  have hsubmit : Cluster.submit T none nonce Rid.zeros.text role payload route
      = .ok ⟨role, ",".intercalate route, Cluster.sessionOf payload, input, none⟩ := by
    simp only [Cluster.submit, hrid, hinput, sealWith]
  have hread : Cluster.waitFor T none "" none ((Except.ok sent).mapError Relay.cutError)
      = .ok value := by
    change Cluster.result T none "" none sent = .ok value
    simp only [Cluster.result, Worker.decode, openWith, hT.not_sealed _ _ hsent,
      Bool.false_eq_true, if_false, hT.unpack_pack _ _ hsent]
  rw [← hread]
  exact .answered hsubmit (.last hworks hlast)

/-- A worker function that always returns the same value. -/
def constant (value : Value Leaf) (_ : Value Leaf) : Except Exc (Value Leaf) := .ok value

/-- The request id that some worker function returns by itself. -/
def ownRid : Dict Leaf := AList.singleton ridKey (.str Rid.zeros.text)

def zeroStop : Dict Leaf := AList.singleton stopChainKey (.other .zeroTensor)

/-- The first stage returns a tensor of one zero as stop flag, the others an empty dictionary. -/
def stopsByZero (role : String) : Value Leaf → Except Exc (Value Leaf) :=
  constant (.dict (if role = "a" then zeroStop else ∅))

theorem stopsByZero_tame {key : Aead} :
    Tame fewValues sniffTensor (some key) stopsByZero ["b"] "a" ∅ := by
  intro result hresult
  obtain rfl : Value.dict zeroStop = result := Except.ok.inj hresult
  refine ⟨zeroStop, rfl, echoes_fewValues (by decide) rfl (by decide), fun _ => ⟨fun h => ?_, ?_⟩⟩
  · cases h
  · intro result hresult
    obtain rfl : Value.dict ∅ = result := Except.ok.inj hresult
    exact ⟨∅, rfl, echoes_fewValues (by decide) rfl (by decide)⟩

/-! ### Sealed and plain calls -/

/-- Sealing asks nothing of the relay's own look at a result. -/
theorem Tame.sealed {key : Aead} {route : List String} (h : Tame T sniff none f route role d) :
    Tame T sniff (some key) f route role d := by
  induction route generalizing role d with
  | nil => exact h
  | cons next tail ih =>
      intro result hresult
      obtain ⟨r, hr, hechoes, hnext⟩ := h result hresult
      refine ⟨r, hr, hechoes, fun hflag => ⟨fun hnone => ?_, ih (hnext hflag).2⟩⟩
      cases hnone

/-- The results on the way of a call along these roles leave room for the request id. -/
def TameRoute (T : Transport ω) (sniff : Bytes → Bool) (f : String → Value ω → Except Exc (Value ω))
    (payload : Dict ω) : List String → Prop
  | [] => True
  | role :: route => Tame T sniff none f (routeRoles (",".intercalate route)) role payload

/-- **Encryption does not change what a call returns**, where results are dictionaries with room for
the request id. -/
theorem callRoute_sealed {key : Aead} (hT : T.Lossless) (hkey : key.Correct)
    (hunread : ∀ data, isSealed data = true → sniff data = false)
    (hfuncs : ∀ role, (funcs role).Computes (f role)) {payload : Dict ω} (hpayload : Echoes T payload)
    {roles : List String} (htame : TameRoute T sniff f payload roles) :
    (∀ outcome, CallRoute T sniff funcs (some key) roles (.dict payload) outcome ↔
      CallRoute T sniff funcs none roles (.dict payload) outcome) ∧
    ∀ role, roles = [role] → ∀ outcome,
      (Call T sniff funcs (some key) role (.dict payload) outcome ↔
        Call T sniff funcs none role (.dict payload) outcome) := by
  have hroute : ∀ outcome, CallRoute T sniff funcs (some key) roles (.dict payload) outcome ↔
      CallRoute T sniff funcs none roles (.dict payload) outcome := by
    intro outcome
    cases roles with
    | nil => exact Iff.rfl
    | cons role route =>
        have hsome : ∀ c ∈ some key, c.Correct := fun c hc => Option.some.inj hc ▸ hkey
        have hnone : ∀ c ∈ (none : Option Aead), c.Correct := fun c hc => (by cases hc)
        calc CallRoute T sniff funcs (some key) (role :: route) (.dict payload) outcome
            ↔ ∃ out, Comes (stage T f) role payload (routeRoles (",".intercalate route)) out ∧
                outcome = present out :=
              returns_iff hT hsome hfuncs hunread hpayload (Tame.sealed htame)
          _ ↔ CallRoute T sniff funcs none (role :: route) (.dict payload) outcome :=
              (returns_iff hT hnone hfuncs hunread hpayload htame).symm
  refine ⟨hroute, ?_⟩
  rintro role rfl outcome
  exact hroute outcome

def numbered (n : Fin 128) : Dict Leaf := AList.singleton numberKey (.other (.number n))

def five : Fin 128 := 5
/-- A worker function that counts the number of a payload up. -/
def increment : Value Leaf → Except Exc (Value Leaf)
  | .dict d =>
    match d.lookup numberKey with
    | some (.other (.number n)) => .ok (.dict (d.put numberKey (.other (.number (n + 1)))))
    | some _ => .error ⟨"TypeError", "unsupported operand"⟩
    | none => .error ⟨"KeyError", "'x'"⟩
  | .item _ => .error ⟨"TypeError", "not subscriptable"⟩

theorem increment_numbered (n : Fin 128) :
    increment (.dict (numbered n)) = .ok (.dict (numbered (n + 1))) := rfl

theorem echoes_numbered (n : Fin 128) : Echoes fewValues (numbered n) := by
  have hparts : (numbered n).entries.mapM packEntry = some [numberEntry n] := rfl
  have hkeys : ridKey ≠ numberKey := by decide
  refine echoes_fewValues (fun hmem => hkeys (List.mem_singleton.mp hmem)) hparts ?_
  rw [List.length_singleton]
  decide

/-- Two stages that count up, with their payloads in batches. -/
theorem callRoute_sealed_increment :
    CallRoute fewValues sniffTensor (fun _ => .batch fun payloads => .ok (payloads.map increment))
      (some zeroTag) ["a", "b"] (.dict (numbered 5)) (.ok (.dict (numbered 7))) := by
  have hfuncs : ∀ _ : String, Func.Computes (.batch fun payloads => .ok (payloads.map increment))
      increment := fun _ => .inr ⟨_, rfl, fun _ => rfl⟩
  have hroute : routeRoles (",".intercalate ["b"]) = ["b"] := by decide
  have htame : Tame fewValues sniffTensor none (fun _ => increment) ["b"] "a" (numbered 5) := by
    intro result hresult
    obtain rfl := Except.ok.inj ((increment_numbered 5).symm.trans hresult)
    refine ⟨_, rfl, echoes_numbered _, fun _ => ⟨fun _ body hbody => ?_, fun result hresult => ?_⟩⟩
    · obtain rfl := Except.ok.inj hbody
      decide
    · obtain rfl := Except.ok.inj ((increment_numbered 6).symm.trans hresult)
      exact ⟨_, rfl, echoes_numbered _⟩
  have htameRoute : TameRoute fewValues sniffTensor (fun _ => increment) (numbered 5) ["a", "b"] := by
    rwa [TameRoute, hroute]
  have hsame := callRoute_sealed fewValues_lossless zeroTag_correct sniffTensor_sealed hfuncs
    (echoes_numbered 5) htameRoute
  refine (hsame.1 _).mpr ((returns_iff fewValues_lossless (fun c hc => (by cases hc)) hfuncs
    sniffTensor_sealed (echoes_numbered 5) (by rwa [hroute])).mpr ⟨.ok (numbered 7), ?_, rfl⟩)
  rw [hroute]
  exact .next ⟨rfl, rfl⟩ (.last ⟨rfl, rfl⟩ (.inl rfl))

/-- Without a cipher a number comes back, a reserved key comes back, and a zero tensor stops the
route; with one the first is an error, the second is taken out, and the route goes on. -/
theorem sealed_calls_differ :
    fewValues.Lossless ∧ zeroTag.Correct ∧
    (∃ outcome, Call fewValues sniffTensor (fun _ => .each (constant (.item (.other (.number 7))))) none
        "a" (.dict ∅) outcome ∧
      ¬ Call fewValues sniffTensor (fun _ => .each (constant (.item (.other (.number 7))))) (some zeroTag)
        "a" (.dict ∅) outcome) ∧
    (∃ outcome, Call fewValues sniffTensor (fun _ => .each (constant (.dict ownRid))) none
        "a" (.dict ∅) outcome ∧
      ¬ Call fewValues sniffTensor (fun _ => .each (constant (.dict ownRid))) (some zeroTag)
        "a" (.dict ∅) outcome) ∧
    ∃ outcome, CallRoute fewValues sniffTensor (fun role => .each (stopsByZero role)) none
        ["a", "b"] (.dict ∅) outcome ∧
      ¬ CallRoute fewValues sniffTensor (fun role => .each (stopsByZero role)) (some zeroTag)
        ["a", "b"] (.dict ∅) outcome := by
  let nonce : Nonce := ⟨List.replicate nonceSize 0, List.length_replicate⟩
  have hnone : ∀ c ∈ (none : Option Aead), c.Correct := fun c hc => (by cases hc)
  have hsome : ∀ c ∈ some zeroTag, c.Correct := fun c hc => Option.some.inj hc ▸ zeroTag_correct
  refine ⟨fewValues_lossless, zeroTag_correct, ⟨.ok (.item (.other (.number 7))), ?_, fun h => ?_⟩,
    ⟨.ok (.dict ownRid), ?_, fun h => ?_⟩, ⟨.ok (.dict zeroStop), ?_, fun h => ?_⟩⟩
  · have hworks : Works fewValues sniffTensor (fun _ => .each (constant (.item (.other (.number 7)))))
        none "a" [128] (.result [7] false) :=
      (works_iff fun _ => .inl rfl).mpr ⟨nonce, .body [7] false, rfl, rfl⟩
    exact returns_of_works fewValues_lossless rfl hworks (.inl (by decide)) rfl
  · obtain ⟨r, hr, _⟩ := sealed_returns_dict h
    cases hr
  · have hworks : Works fewValues sniffTensor (fun _ => .each (constant (.dict ownRid)))
        none "a" [128] (.result (129 :: ridEntry Rid.zeros.text) false) :=
      (works_iff fun _ => .inl rfl).mpr
        ⟨nonce, .body (129 :: ridEntry Rid.zeros.text) false, by decide, by decide⟩
    exact returns_of_works fewValues_lossless rfl hworks (.inl (by decide)) (by decide)
  · obtain ⟨r, hr, hmem⟩ := sealed_returns_dict h
    obtain rfl := Value.dict.inj hr
    exact hmem (by decide)
  · have hworks : Works fewValues sniffTensor (fun role => .each (stopsByZero role))
        none "a" [128] (.result (129 :: tensorEntry) true) :=
      (works_iff fun _ => .inl rfl).mpr
        ⟨nonce, .body (129 :: tensorEntry) false, by decide, by decide⟩
    exact returns_of_works fewValues_lossless rfl hworks (.inr rfl) (by decide)
  · have hroute : routeRoles (",".intercalate ["b"]) = ["b"] := by decide
    obtain ⟨out, hout, hvalue⟩ := (returns_iff fewValues_lossless hsome (fun _ => .inl rfl)
      sniffTensor_sealed (echoes_fewValues (by decide) rfl (by decide))
      (hroute ▸ stopsByZero_tame)).mp h
    rw [hroute] at hout
    cases hout with
    | failure _ hstage =>
        obtain ⟨e, he, _⟩ := hstage
        cases he
    | last hstage hlast =>
        obtain ⟨hr, hflag⟩ := hstage
        obtain rfl : zeroStop = _ := Value.dict.inj (Except.ok.inj hr)
        have hstops := hlast.resolve_left (List.cons_ne_nil _ _)
        rw [hstops] at hflag
        cases hflag
    | next hstage htail =>
        cases htail with
        | failure _ hstage =>
            obtain ⟨e, he, _⟩ := hstage
            cases he
        | last hstage hlast =>
            obtain rfl : ∅ = _ := Value.dict.inj (Except.ok.inj hstage.1)
            have hentries := congrArg AList.entries (Value.dict.inj (Except.ok.inj hvalue))
            cases hentries

end Distllm.Payload
