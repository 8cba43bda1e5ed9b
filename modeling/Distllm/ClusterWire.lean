import Distllm.ClusterSealed
import Distllm.WorkerState

/-! The sealed messages of a cluster on the wire. A value stands for a dictionary with its request id
under the reserved key, or for another item; a message of the log for the bytes that its value is packed
and encrypted as. Clients and workers see the bytes only, and every run of theirs is a run of the log:
what the log says about who gets which result holds of the bytes. -/

namespace Distllm.Cluster

open Payload (Aead Dict Item Nonce Transport ridKey)
open Payload.Worker (attachRid decode popRid report)
open Relay (Bytes Post)

variable {β ω : Type}

/-- What the contents and the request ids stand for. -/
structure Wire (β ω : Type) where
  dict : β → Dict ω
  item : β → Item ω
  name : Rid → String
  room : ∀ body, ridKey ∉ dict body
  name_inj : Function.Injective name

namespace Wire

variable (W : Wire β ω)

def value : Value β → Payload.Value ω
  | .dict none body => .dict (W.dict body)
  | .dict (some rid) body => .dict ((W.dict body).put ridKey (.str (W.name rid)))
  | .other body => .item (W.item body)

def plain (p : Plain β) : Payload.Value ω := W.value (p.withRid none)

/-- What a worker takes out of a payload for its request id. -/
def ridItem (rid : Option Rid) : Item ω := rid.elim .none fun rid => .str (W.name rid)

variable {W}

theorem popRid_value (v : Value β) : popRid (W.value v) = (W.ridItem v.rid, W.plain v.plain) := by
  cases v with
  | other body => rfl
  | dict rid body =>
      have hroom := W.room body
      cases rid with
      | none =>
          have hlookup : (W.dict body).lookup ridKey = none := AList.lookup_eq_none.mpr hroom
          simp only [value, popRid, hlookup, Payload.erase_of_notMem hroom]
          rfl
      | some rid =>
          simp only [value, popRid, AList.lookup_put, if_true, Payload.erase_put hroom]
          rfl

theorem attachRid_plain (rid : Option Rid) (p : Plain β) :
    attachRid (W.ridItem rid) (W.plain p) = W.value (p.withRid rid) := by
  cases rid with
  | none => rfl
  | some rid => cases p <;> rfl

theorem withRid_plain (key : Aead) (rid : Rid) (p : Plain β) :
    Payload.Cluster.withRid (some key) (W.name rid) (W.plain p) =
      (W.value (p.withRid (some rid)), (p.withRid (some rid)).rid.map W.name) := by
  cases p <;> rfl

/-- The check of the request id. -/
theorem isText_ridItem (rid : Option Rid) (expected : Rid) :
    (W.ridItem rid).isText (W.name expected) = true ↔ rid = some expected := by
  cases rid with
  | none => exact ⟨nofun, nofun⟩
  | some rid =>
      refine beq_iff_eq.trans ⟨fun h => congrArg some (W.name_inj h), fun h => ?_⟩
      rw [Option.some.inj h]

end Wire

/-! ### Messages -/

variable {W : Wire β ω} {T : Transport ω} {key : Aead} {s : State β}

/-- The bytes are the value, packed and encrypted. -/
def Carries (W : Wire β ω) (T : Transport ω) (key : Aead) (value : Value β) (data : Bytes) : Prop :=
  ∃ nonce body, T.pack (W.value value) = .ok body ∧ data = key.sealData nonce body

theorem Carries.decode (hT : T.Lossless) (hkey : key.Correct) {value : Value β} {data : Bytes}
    (h : Carries W T key value data) : decode T (some key) data = .ok (W.value value) := by
  obtain ⟨nonce, body, hpack, rfl⟩ := h
  have hopen : Payload.openWith (some key) (key.sealData nonce body) = .ok body :=
    Payload.openData_sealData hkey nonce body
  rw [Payload.Worker.decode, hopen]
  exact hT.unpack_pack _ _ hpack

/-- What is submitted carries the new message of the log, with the request id that is drawn for it. -/
theorem sealRequest_carries {nonce : Nonce} {role : String} {route : List String} {payload : Plain β}
    {sub : Payload.Submission}
    (h : Payload.Cluster.submit T (some key) nonce (W.name s.nextRid) role (W.plain payload) route =
      .ok sub) :
    ∃ message, (sealRequest s payload).2 =
        { s with log := s.log ++ [message], nextRid := s.nextRid + sub.rid.toList.length } ∧
      Carries W T key message.value sub.body ∧ sub.rid = (sealRequest s payload).1.map W.name := by
  rw [Payload.Cluster.submit, Wire.withRid_plain] at h
  split at h
  · cases h
  · rename_i body hpack
    obtain rfl := Except.ok.inj h
    cases payload with
    | dict body => exact ⟨_, rfl, ⟨nonce, _, hpack, rfl⟩, rfl⟩
    | other body => exact ⟨_, rfl, ⟨nonce, _, hpack, rfl⟩, rfl⟩

/-- What a worker posts carries its function's result, with the request id of the message that it was
handed; the function got the message without it. -/
theorem report_carries (hT : T.Lossless) (hkey : key.Correct) {input : Value β} {data : Bytes}
    (hdata : Carries W T key input data) {output : Plain β} {nonce : Nonce} {payload : Payload.Value ω}
    {body : Bytes} {stopChain : Bool} (hdecode : decode T (some key) data = .ok payload)
    (hreport : report T (some key) nonce (.ok (W.plain output)) (popRid payload).1 =
      some (.body body stopChain)) :
    (popRid payload).2 = W.plain input.plain ∧ Carries W T key (output.withRid input.rid) body := by
  obtain rfl := Except.ok.inj ((hdata.decode hT hkey).symm.trans hdecode)
  rw [Wire.popRid_value] at hreport ⊢
  refine ⟨rfl, ?_⟩
  rw [report, Wire.attachRid_plain] at hreport
  split at hreport
  · cases hreport
  · rename_i packed hpack
    split at hreport
    · cases hreport
    · obtain ⟨rfl, -⟩ := Post.body.inj (Option.some.inj hreport)
      exact ⟨nonce, packed, hpack, rfl⟩

/-- The client's check compares the request ids of the log. -/
theorem result_wire (hT : T.Lossless) (hkey : key.Correct) {value : Value β} {data : Bytes}
    (hdata : Carries W T key value data) (taskId : TaskId) (expected : Option Rid) :
    Payload.Cluster.result T (some key) taskId (expected.map W.name) data =
      match expected with
      | none => .ok (W.value value)
      | some expected =>
        if value.rid = some expected then .ok (W.plain value.plain)
        else .error (Payload.decryptionError
          ("Result of task " ++ taskId ++ " belongs to another request (replayed?)")) := by
  have hpop := Wire.popRid_value (W := W) value
  rw [Payload.Cluster.result, hdata.decode hT hkey]
  cases expected with
  | none => rfl
  | some expected =>
      cases value with
      | other body => rfl
      | dict rid body =>
          obtain ⟨d, hd⟩ : ∃ d, W.value (.dict rid body) = .dict d := by
            cases rid with
            | none => exact ⟨_, rfl⟩
            | some rid => exact ⟨_, rfl⟩
          rw [hd] at hpop ⊢
          dsimp only [Option.map_some]
          rw [hpop]
          exact if_congr (Wire.isText_ridItem rid expected) rfl rfl

/-! ### Runs -/

/-- What is on the wire, and what the client has noted: the sealed bodies, how many request ids were
drawn, those of the tasks it waits for, and what it has returned. -/
structure WireState (ω : Type) where
  sent : List Bytes
  drawn : Rid
  rids : AList fun _ : TaskId => String
  returned : List (TaskId × Nat × Payload.Value ω)

def WireState.init : WireState ω := ⟨[], 0, ∅, []⟩

/-- The steps of clients and workers. Bytes that nobody has sealed do not open. -/
inductive WireStep (W : Wire β ω) (T : Transport ω) (key : Aead) :
    WireState ω → Event β → WireState ω → Prop where
  | submit {w : WireState ω} {nonce : Nonce} {taskId : TaskId} {role : String} {route : List String}
      {payload : Plain β} {sub : Payload.Submission}
      (hsubmit : Payload.Cluster.submit T (some key) nonce (W.name w.drawn) role (W.plain payload) route =
        .ok sub) :
      WireStep W T key w (.submit taskId role route payload)
        ⟨w.sent ++ [sub.body], w.drawn + sub.rid.toList.length,
          sub.rid.elim w.rids fun rid => w.rids.insert taskId rid, w.returned⟩
  | submitOther {w : WireState ω} {nonce : Nonce} {role : String} {route : List String}
      {payload : Plain β} {sub : Payload.Submission}
      (hsubmit : Payload.Cluster.submit T (some key) nonce (W.name w.drawn) role (W.plain payload) route =
        .ok sub) :
      WireStep W T key w (.submitOther payload)
        { w with sent := w.sent ++ [sub.body], drawn := w.drawn + sub.rid.toList.length }
  | work {w : WireState ω} {role : String} {n : Nat} {output : Plain β} {nonce : Nonce} {data body : Bytes}
      {payload : Payload.Value ω} {stopChain : Bool} (hdata : w.sent[n]? = some data)
      (hdecode : decode T (some key) data = .ok payload)
      (hreport : report T (some key) nonce (.ok (W.plain output)) (popRid payload).1 =
        some (.body body stopChain)) :
      WireStep W T key w (.work role n output) { w with sent := w.sent ++ [body] }
  | waitFor {w : WireState ω} {taskId : TaskId} {n : Nat} {data : Bytes}
      (hdata : w.sent[n]? = some data) :
      WireStep W T key w (.waitFor taskId n)
        { w with
          rids := w.rids.erase taskId
          returned := w.returned ++
            (Payload.Cluster.result T (some key) taskId (w.rids.lookup taskId) data).toOption.toList.map
              fun value => (taskId, n, value) }
  | workUnopened {w : WireState ω} {role : String} {n : Nat} {output : Plain β}
      (hdata : w.sent[n]? = none) : WireStep W T key w (.work role n output) w
  | waitUnopened {w : WireState ω} {taskId : TaskId} {n : Nat} (hdata : w.sent[n]? = none) :
      WireStep W T key w (.waitFor taskId n) w

/-- The log says what is on the wire. -/
structure Represents (W : Wire β ω) (T : Transport ω) (key : Aead) (s : State β) (w : WireState ω) :
    Prop where
  sent : List.Forall₂ (fun message data => Carries W T key message.value data) s.log w.sent
  drawn : w.drawn = s.nextRid
  rids : ∀ taskId, w.rids.lookup taskId = (s.rids.lookup taskId).map W.name
  returned : w.returned = s.returned.map fun x => (x.taskId, x.message, W.value x.value)

variable {w w' : WireState ω} {e : Event β}

theorem represents_init : Represents W T key (State.init : State β) (WireState.init : WireState ω) :=
  ⟨.nil, rfl, fun _ => rfl, rfl⟩

namespace Represents

theorem getElem? (h : Represents W T key s w) {n : Nat} {data : Bytes} (hdata : w.sent[n]? = some data) :
    ∃ message, s.log[n]? = some message ∧ Carries W T key message.value data := by
  obtain ⟨hn, hget⟩ := List.getElem?_eq_some_iff.mp hdata
  have hlength : n < s.log.length := h.sent.length_eq ▸ hn
  refine ⟨s.log[n], List.getElem?_eq_getElem hlength, ?_⟩
  have hcarries := h.sent.get hlength hn
  rw [List.get_eq_getElem, List.get_eq_getElem] at hcarries
  rwa [hget] at hcarries

theorem getElem?_none (h : Represents W T key s w) {n : Nat} (hdata : w.sent[n]? = none) :
    s.log[n]? = none := by
  rw [List.getElem?_eq_none_iff] at hdata ⊢
  rwa [h.sent.length_eq]

theorem push (h : Represents W T key s w) {message : Sealed β} {data : Bytes}
    (hdata : Carries W T key message.value data) :
    List.Forall₂ (fun message data => Carries W T key message.value data) (s.log ++ [message])
      (w.sent ++ [data]) :=
  List.rel_append h.sent (.cons hdata .nil)

/-- Whoever waits, the expected ids are noted alike. -/
theorem rids_erase (h : Represents W T key s w) (taskId x : TaskId) :
    (w.rids.erase taskId).lookup x = ((s.rids.erase taskId).lookup x).map W.name := by
  by_cases hx : x = taskId
  · rw [hx, AList.lookup_erase, AList.lookup_erase]
    rfl
  · rw [AList.lookup_erase_ne hx, AList.lookup_erase_ne hx, h.rids]

theorem sealed (h : Represents W T key s w) {nonce : Nonce} {role : String} {route : List String}
    {payload : Plain β} {sub : Payload.Submission}
    (hsubmit : Payload.Cluster.submit T (some key) nonce (W.name w.drawn) role (W.plain payload) route =
      .ok sub) :
    Represents W T key (sealRequest s payload).2
        { w with sent := w.sent ++ [sub.body], drawn := w.drawn + sub.rid.toList.length } ∧
      sub.rid = (sealRequest s payload).1.map W.name := by
  rw [h.drawn] at hsubmit
  obtain ⟨message, hseal, hcarries, hrid⟩ := sealRequest_carries hsubmit
  rw [hseal]
  refine ⟨⟨h.push hcarries, ?_, h.rids, h.returned⟩, hrid⟩
  dsimp only
  rw [h.drawn]

theorem submit (h : Represents W T key s w) {nonce : Nonce} {taskId : TaskId} {role : String}
    {route : List String} {payload : Plain β} {sub : Payload.Submission}
    (hsubmit : Payload.Cluster.submit T (some key) nonce (W.name w.drawn) role (W.plain payload) route =
      .ok sub) :
    Represents W T key (Cluster.submit s taskId role route payload)
      ⟨w.sent ++ [sub.body], w.drawn + sub.rid.toList.length,
        sub.rid.elim w.rids fun rid => w.rids.insert taskId rid, w.returned⟩ := by
  obtain ⟨⟨hsent, hdrawn, hrids, hreturned⟩, hrid⟩ := h.sealed hsubmit
  refine ⟨hsent, hdrawn, fun x => ?_, hreturned⟩
  have hx := hrids x
  rw [Cluster.submit, hrid]
  dsimp only at hx ⊢
  cases (sealRequest s payload).1 with
  | none => exact hx
  | some rid =>
      by_cases htask : x = taskId
      · rw [htask, Option.map_some, Option.elim_some, Option.elim_some, AList.lookup_insert,
          AList.lookup_insert, Option.map_some]
      · rw [Option.map_some, Option.elim_some, Option.elim_some, AList.lookup_insert_ne htask,
          AList.lookup_insert_ne htask, hx]

theorem work (hT : T.Lossless) (hkey : key.Correct) (h : Represents W T key s w) {role : String} {n : Nat}
    {output : Plain β} {nonce : Nonce} {data body : Bytes} {payload : Payload.Value ω} {stopChain : Bool}
    (hdata : w.sent[n]? = some data) (hdecode : decode T (some key) data = .ok payload)
    (hreport : report T (some key) nonce (.ok (W.plain output)) (popRid payload).1 =
      some (.body body stopChain)) :
    Represents W T key (process s role n output) { w with sent := w.sent ++ [body] } := by
  obtain ⟨input, hinput, hcarries⟩ := h.getElem? hdata
  rw [process, hinput]
  exact ⟨h.push (report_carries hT hkey hcarries hdecode hreport).2, h.drawn, h.rids, h.returned⟩

theorem waitFor (hT : T.Lossless) (hkey : key.Correct) (h : Represents W T key s w) {taskId : TaskId}
    {n : Nat} {data : Bytes} (hdata : w.sent[n]? = some data) :
    Represents W T key (result s taskId n)
      { w with
        rids := w.rids.erase taskId
        returned := w.returned ++
          (Payload.Cluster.result T (some key) taskId (w.rids.lookup taskId) data).toOption.toList.map
            fun value => (taskId, n, value) } := by
  obtain ⟨content, hcontent, hcarries⟩ := h.getElem? hdata
  have herase := h.rids_erase taskId
  rw [h.rids, result_wire hT hkey hcarries, result, hcontent]
  cases s.rids.lookup taskId with
  | none =>
      refine ⟨h.sent, h.drawn, herase, ?_⟩
      dsimp only
      rw [List.map_append, h.returned]
      rfl
  | some expected =>
      by_cases hsame : content.value.rid = some expected
      · dsimp only
        rw [if_pos hsame, if_pos hsame]
        refine ⟨h.sent, h.drawn, herase, ?_⟩
        dsimp only
        rw [List.map_append, h.returned]
        rfl
      · dsimp only
        rw [if_neg hsame, if_neg hsame]
        refine ⟨h.sent, h.drawn, herase, ?_⟩
        exact (List.append_nil _).trans h.returned

end Represents

theorem represents_step (hT : T.Lossless) (hkey : key.Correct) (hstep : WireStep W T key w e w')
    (h : Represents W T key s w) : Represents W T key (exec s e) w' := by
  cases hstep with
  | submit hsubmit => exact h.submit hsubmit
  | submitOther hsubmit => exact (h.sealed hsubmit).1
  | work hdata hdecode hreport => exact h.work hT hkey hdata hdecode hreport
  | waitFor hdata => exact h.waitFor hT hkey hdata
  | workUnopened hdata =>
      rw [exec, process, h.getElem?_none hdata]
      exact h
  | waitUnopened hdata =>
      rw [exec, result, h.getElem?_none hdata]
      exact h

/-- **The log says what happens on the wire.** Every run of clients and workers with a lossless
transport and a correct cipher is a run of the log, which returns the values that the clients return. -/
theorem wire_run (hT : T.Lossless) (hkey : key.Correct) {events : List (Event β)}
    (hrun : Run (WireStep W T key) WireState.init events w) :
    ∃ s, Run Step State.init events s ∧ Represents W T key s w :=
  hrun.invariant_labels (P := fun events w => ∃ s, Run Step State.init events s ∧ Represents W T key s w)
    (fun hstep ⟨_, hs, h⟩ => ⟨_, hs.snoc rfl, represents_step hT hkey hstep h⟩)
    ⟨_, .refl _, represents_init⟩

/-- As long as the relay keeps out of the gaps of the check, a value that a client returns was read from
a result that the workers along the route of its task have made of its request. -/
theorem wire_answered (hT : T.Lossless) (hkey : key.Correct) {events : List (Event β)}
    (hrun : Run (fun p e q => Event.Proper p.1 e ∧ Step p.1 e q.1 ∧ WireStep W T key p.2 e q.2)
      ((State.init : State β), (WireState.init : WireState ω)) events (s, w))
    {x : TaskId × Nat × Payload.Value ω} (hx : x ∈ w.returned) :
    ∃ y ∈ s.returned, x = (y.taskId, y.message, W.value y.value) ∧ Answered s y := by
  have hboth : Sound s ∧ Represents W T key s w := by
    refine hrun.invariant (P := fun p => Sound p.1 ∧ Represents W T key p.1 p.2) ?_
      ⟨sound_init, represents_init⟩
    rintro ⟨s, w⟩ e ⟨s', w'⟩ ⟨hproper, hstep, hwire⟩ ⟨hsound, h⟩
    obtain rfl : s' = exec s e := hstep
    exact ⟨hsound.exec hproper, represents_step hT hkey hwire h⟩
  obtain ⟨hsound, h⟩ := hboth
  rw [h.returned] at hx
  obtain ⟨y, hy, rfl⟩ := List.mem_map.mp hx
  exact ⟨y, hy, rfl, hsound.answered y hy⟩

end Distllm.Cluster
