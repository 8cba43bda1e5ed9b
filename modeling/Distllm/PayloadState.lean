import Distllm.RelayState

/-! Payloads and their encryption (`crypto.py`). The MessagePack transport and the authenticated
cipher are parameters; a cipher stands for its key. A decoded map is a dictionary with its entries
in order; what an entry holds matters only where it is a text, nothing, or true as a condition. -/

namespace Distllm.Payload

open Relay (Bytes)

variable {ω : Type}

/-- An exception, by the name of its class. -/
structure Exc where
  name : String
  message : String
  deriving DecidableEq

/-- `f"{type(e).__name__}: {e}"` -/
def Exc.text (e : Exc) : String := e.name ++ ": " ++ e.message

def decryptionError (message : String) : Exc := ⟨"PayloadDecryptionError", message⟩

/-! ### Values -/

inductive Key where
  | str (s : String)
  | bytes (b : Bytes)
  deriving DecidableEq

inductive Item (ω : Type) where
  | none
  | str (s : String)
  | other (x : ω)
  deriving DecidableEq

/-- Whether the item is this text. -/
def Item.isText : Item ω → String → Bool
  | .str s, text => s == text
  | _, _ => false

abbrev Dict (ω : Type) := AList fun _ : Key => Item ω

inductive Value (ω : Type) where
  | dict (d : Dict ω)
  | item (x : Item ω)
  deriving DecidableEq

/-- `RID_KEY` -/
def ridKey : Key := .str "_distllm_rid"

def stopChainKey : Key := .str "stop_chain"

def sessionKey : Key := .str "session_id"

/-- `pack_payload`, `unpack_payload`, and `bool(x)` of a value that is neither a text nor nothing,
which raises for an array of several elements. -/
structure Transport (ω : Type) where
  pack : Value ω → Except Exc Bytes
  unpack : Bytes → Except Exc (Value ω)
  truth : ω → Except Exc Bool

/-! ### Encryption -/

/-- `b"DLE1"` -/
def magic : Bytes := [68, 76, 69, 49]

def nonceSize : Nat := 12

structure Nonce where
  bytes : Bytes
  length_bytes : bytes.length = nonceSize

/-- `ChaCha20Poly1305` with a key. -/
structure Aead where
  encrypt : Bytes → Bytes → Bytes
  decrypt : Bytes → Bytes → Option Bytes

def isSealed (data : Bytes) : Bool := data.take magic.length == magic

namespace Aead

/-- `seal`; the nonce is drawn. -/
def sealData (cipher : Aead) (nonce : Nonce) (data : Bytes) : Bytes :=
  magic ++ nonce.bytes ++ cipher.encrypt nonce.bytes data

/-- `open` -/
def openData (cipher : Aead) (data : Bytes) : Except Exc Bytes :=
  if isSealed data then
    let nonce := (data.drop magic.length).take nonceSize
    match cipher.decrypt nonce (data.drop (magic.length + nonceSize)) with
    | some plain => .ok plain
    | none =>
      .error (decryptionError "Payload failed authentication (wrong key or tampered data)")
  else .error (decryptionError "Received an unencrypted payload while encryption is on")

/-- What has been encrypted is decrypted with the same nonce. -/
def Correct (cipher : Aead) : Prop :=
  ∀ (nonce : Nonce) (data : Bytes),
    cipher.decrypt nonce.bytes (cipher.encrypt nonce.bytes data) = some data

end Aead

/-- `_open` -/
def openWith : Option Aead → Bytes → Except Exc Bytes
  | some cipher, data => cipher.openData data
  | none, data =>
    if isSealed data then
      .error (decryptionError "Payload is encrypted: set DISTLLM_PAYLOAD_KEY")
    else .ok data

def sealWith : Option Aead → Nonce → Bytes → Bytes
  | some cipher, nonce, data => cipher.sealData nonce data
  | none, _, data => data

theorem isSealed_sealData (cipher : Aead) (nonce : Nonce) (data : Bytes) :
    isSealed (cipher.sealData nonce data) = true := by
  rw [isSealed, Aead.sealData, List.append_assoc, List.take_left, beq_self_eq_true]

/-- Opening undoes sealing. -/
theorem openData_sealData {cipher : Aead} (hcipher : cipher.Correct) (nonce : Nonce) (data : Bytes) :
    cipher.openData (cipher.sealData nonce data) = .ok data := by
  have hnonce : ((cipher.sealData nonce data).drop magic.length).take nonceSize = nonce.bytes := by
    rw [Aead.sealData, List.append_assoc, List.drop_left, ← nonce.length_bytes, List.take_left]
  have hrest : (cipher.sealData nonce data).drop (magic.length + nonceSize)
      = cipher.encrypt nonce.bytes data := by
    rw [Aead.sealData, ← nonce.length_bytes, ← List.length_append, List.drop_left]
  rw [Aead.openData, if_pos (isSealed_sealData cipher nonce data)]
  simp only [hnonce, hrest, hcipher nonce data]

/-- A transport that reads what it has packed, and packs nothing that looks sealed. -/
structure Transport.Lossless (T : Transport ω) : Prop where
  unpack_pack : ∀ value body, T.pack value = .ok body → T.unpack body = .ok value
  not_sealed : ∀ value body, T.pack value = .ok body → isSealed body = false

theorem open_sealWith {cipher : Option Aead} (hcipher : ∀ c ∈ cipher, c.Correct) {body : Bytes}
    (hbody : isSealed body = false) (nonce : Nonce) :
    openWith cipher (sealWith cipher nonce body) = .ok body := by
  cases cipher with
  | none =>
      rw [sealWith, openWith, hbody]
      rfl
  | some c => exact openData_sealData (hcipher c rfl) nonce body

/-! ### Entries of a dictionary -/

theorem erase_put {d : Dict ω} {key : Key} (h : key ∉ d) (x : Item ω) :
    (d.put key x).erase key = d := by
  have hkeys : key ∉ d.entries.keys := h
  apply AList.ext
  rw [AList.put, dif_neg hkeys]
  change List.kerase key (d.entries ++ [⟨key, x⟩]) = d.entries
  rw [List.kerase_append_right hkeys]
  simp

theorem erase_of_notMem {d : Dict ω} {key : Key} (h : key ∉ d) : d.erase key = d := by
  apply AList.ext
  exact List.kerase_of_notMem_keys h

theorem lookup_put_ne {d : Dict ω} {key other : Key} (h : other ≠ key) (x : Item ω) :
    (d.put key x).lookup other = d.lookup other := by
  rw [AList.lookup_put, if_neg h]

end Distllm.Payload
