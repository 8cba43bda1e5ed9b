import Distllm.PyRelayState

/-! Whether a result ends its chain, as the two relays decide it. Both read the same first
MessagePack value of a small body. Python's `unpackb(raw=False)` also raises when bytes remain, when
a key of a map is neither a text nor bytes and when a text is no UTF-8, and makes dicts, in which
the last of several entries with one key counts. Rust's `read_value` looks at the first value alone
and keeps every entry. -/

namespace Distllm.StopChecks

open Relay (Bytes Value stopChainSniffLimit)

/-! ### Python's decoder -/

def isUtf8 (bytes : Bytes) : Bool := (String.fromUTF8? ⟨bytes.toArray⟩).isSome

def isKey : Value → Bool
  | .string _ | .binary _ => true
  | _ => false

def sameKey : Value → Value → Bool
  | .string a, .string b => a == b
  | .binary a, .binary b => a == b
  | _, _ => false

mutual

/-- Every key is a text or bytes, and every text is UTF-8. -/
def readable : Value → Bool
  | .string bytes => isUtf8 bytes
  | .array items => readableItems items
  | .map entries => readableEntries entries
  | _ => true

def readableItems : List Value → Bool
  | [] => true
  | value :: rest => readable value && readableItems rest

def readableEntries : List (Value × Value) → Bool
  | [] => true
  | entry :: rest => readableEntry entry && readableEntries rest

def readableEntry : Value × Value → Bool
  | (key, value) => isKey key && readable key && readable value

end

/-- A dict of entries; its order is not looked at. -/
def toDict : List (Value × Value) → List (Value × Value)
  | [] => []
  | entry :: rest =>
    if rest.any fun later => sameKey entry.1 later.1 then toDict rest else entry :: toDict rest

mutual

/-- The value with its maps as dicts. -/
def withDicts : Value → Value
  | .array items => .array (itemsWithDicts items)
  | .map entries => .map (toDict (entriesWithDicts entries))
  | value => value

def itemsWithDicts : List Value → List Value
  | [] => []
  | value :: rest => withDicts value :: itemsWithDicts rest

def entriesWithDicts : List (Value × Value) → List (Value × Value)
  | [] => []
  | entry :: rest => entryWithDicts entry :: entriesWithDicts rest

def entryWithDicts : Value × Value → Value × Value
  | (key, value) => (key, withDicts value)

end

/-- The first value of a body, and the bytes after it. -/
abbrev Reader := Bytes → Option (Value × Bytes)

/-- `msgpack.unpackb(body, raw=False)` -/
def unpackb (read : Reader) (body : Bytes) : Option Value :=
  match read body with
  | some (value, []) => if readable value then some (withDicts value) else none
  | _ => none

/-- `rmpv::decode::read_value` -/
def readValue (read : Reader) (body : Bytes) : Option Value := (read body).map Prod.fst

/-! ### Entries under the stop key -/

def isStop (entry : Value × Value) : Bool := entry.1.isStopKey

theorem isStopKey_iff {key : Value} : key.isStopKey = true ↔ key = .string Relay.stopChainKey := by
  constructor
  · intro h
    cases key with
    | string bytes => exact congrArg Value.string (beq_iff_eq.mp h)
    | _ => cases h
  · rintro rfl
    exact beq_self_eq_true _

/-- Two stop keys are the same key. -/
theorem sameKey_of_isStop {entry other : Value × Value} (h : isStop entry = true)
    (hother : isStop other = true) : sameKey entry.1 other.1 = true := by
  rw [isStopKey_iff.mp h, isStopKey_iff.mp hother]
  exact beq_self_eq_true _

theorem isStop_of_sameKey {entry other : Value × Value} (h : isStop entry = true)
    (hsame : sameKey entry.1 other.1 = true) : isStop other = true := by
  rw [isStopKey_iff.mp h] at hsame
  apply isStopKey_iff.mpr
  cases hkey : other.1 with
  | string bytes =>
      rw [hkey] at hsame
      exact congrArg Value.string (beq_iff_eq.mp hsame).symm
  | _ =>
      rw [hkey] at hsame
      cases hsame

/-- A dict holds the last entry under the stop key. -/
theorem find?_toDict (entries : List (Value × Value)) :
    (toDict entries).find? isStop = entries.reverse.find? isStop := by
  induction entries with
  | nil => rfl
  | cons entry rest ih =>
      rw [List.reverse_cons, List.find?_append, toDict]
      split
      · rename_i hsame
        rw [ih]
        cases hstop : isStop entry with
        | false => rw [List.find?_singleton, hstop, if_neg Bool.false_ne_true, Option.or_none]
        | true =>
            obtain ⟨later, hmem, hlater⟩ := List.any_eq_true.mp hsame
            obtain ⟨found, hfound⟩ := Option.isSome_iff_exists.mp
              (List.find?_isSome.mpr ⟨later, List.mem_reverse.mpr hmem,
                isStop_of_sameKey hstop hlater⟩)
            rw [hfound, Option.some_or]
      · rename_i hnew
        cases hstop : isStop entry with
        | false =>
            rw [List.find?_cons_of_neg (by rw [hstop]; exact Bool.false_ne_true), ih,
              List.find?_singleton, hstop, if_neg Bool.false_ne_true, Option.or_none]
        | true =>
            have hnone : rest.reverse.find? isStop = none := by
              refine List.find?_eq_none.mpr fun later hmem hlater => hnew ?_
              exact List.any_eq_true.mpr
                ⟨later, List.mem_reverse.mp hmem, sameKey_of_isStop hstop hlater⟩
            rw [List.find?_cons_of_pos hstop, hnone, Option.none_or, List.find?_singleton, hstop,
              if_pos rfl]

theorem entriesWithDicts_eq_map (entries : List (Value × Value)) :
    entriesWithDicts entries = entries.map entryWithDicts := by
  induction entries with
  | nil => rfl
  | cons entry rest ih => rw [entriesWithDicts, ih, List.map_cons]

theorem itemsWithDicts_eq_map (items : List Value) :
    itemsWithDicts items = items.map withDicts := by
  induction items with
  | nil => rfl
  | cons value rest ih => rw [itemsWithDicts, ih, List.map_cons]

theorem toDict_eq_nil {entries : List (Value × Value)} : toDict entries = [] ↔ entries = [] := by
  constructor
  · intro h
    induction entries with
    | nil => rfl
    | cons entry rest ih =>
        rw [toDict] at h
        split at h
        · rename_i hsame
          rw [ih h] at hsame
          cases hsame
        · cases h
  · rintro rfl
    rfl

/-- Both relays take a value for true alike, with its maps as dicts or not. -/
theorem truthy_withDicts (value : Value) :
    PyRelay.truthy (withDicts value) = value.truthy := by
  cases value with
  | integer i =>
      simp only [withDicts, PyRelay.truthy, Value.truthy, Value.asI64, Value.asU64]
      by_cases hi : i = 0
      · subst hi
        decide
      · simp [hi]
  | array items =>
      simp only [withDicts, PyRelay.truthy, Value.truthy, itemsWithDicts_eq_map, List.isEmpty_map]
  | map entries =>
      have hempty : (toDict (entriesWithDicts entries)).isEmpty = entries.isEmpty := by
        rw [Bool.eq_iff_iff, List.isEmpty_iff, List.isEmpty_iff, toDict_eq_nil,
          entriesWithDicts_eq_map, List.map_eq_nil_iff]
      simp only [withDicts, PyRelay.truthy, Value.truthy, hempty]
  | _ => rfl

theorem entryWithDicts_eq (entry : Value × Value) :
    entryWithDicts entry = (entry.1, withDicts entry.2) := by
  cases entry
  rfl

theorem find?_entriesWithDicts (entries : List (Value × Value)) :
    (entriesWithDicts entries).reverse.find? isStop =
      (entries.reverse.find? isStop).map entryWithDicts := by
  have hkey : isStop ∘ entryWithDicts = isStop := by
    funext entry
    rw [Function.comp_apply, entryWithDicts_eq, isStop, isStop]
  rw [entriesWithDicts_eq_map, ← List.map_reverse, List.find?_map, hkey]

/-! ### The two decisions -/

variable {read : Reader} {body : Bytes} {entries : List (Value × Value)} {rest : Bytes}

/-- A body whose first value stops a chain by one of its entries: nothing follows the value,
Python's decoder reads it, and the last entry under the stop key is true. -/
def StopsPlainly (read : Reader) (body : Bytes) : Prop :=
  ∀ entries rest, read body = some (.map entries, rest) →
    (∃ entry ∈ entries, isStop entry = true ∧ entry.2.truthy = true) →
    rest = [] ∧ readable (.map entries) = true ∧
      ∀ last, entries.reverse.find? isStop = some last → last.2.truthy = true

theorem rust_stopsChain (hshort : ¬body.length > stopChainSniffLimit) :
    Relay.stopsChain (readValue read) body false = match read body with
      | some (.map entries, _) => entries.any fun entry => isStop entry && entry.2.truthy
      | _ => false := by
  rw [Relay.stopsChain, if_neg Bool.false_ne_true, if_neg hshort, readValue]
  cases read body with
  | none => rfl
  | some found =>
      obtain ⟨value, rest⟩ := found
      cases value <;> rfl

/-- Python decides on a map, if it reads it, by the last entry under the stop key. -/
theorem python_stopsChain (hshort : ¬body.length > stopChainSniffLimit) :
    PyRelay.stopsChain (unpackb read) body false = match read body with
      | some (.map entries, rest) => rest.isEmpty && readable (.map entries) &&
        (entries.reverse.find? isStop).any fun last => last.2.truthy
      | _ => false := by
  rw [PyRelay.stopsChain, if_neg Bool.false_ne_true, if_neg hshort, unpackb]
  cases read body with
  | none => rfl
  | some found =>
      obtain ⟨value, rest⟩ := found
      cases rest with
      | cons b rest => cases value <;> rfl
      | nil =>
          dsimp only
          cases hreadable : readable value with
          | false =>
              rw [if_neg Bool.false_ne_true]
              cases value with
              | map entries =>
                  dsimp only
                  rw [hreadable, Bool.and_false, Bool.false_and]
              | _ => rfl
          | true =>
              rw [if_pos rfl]
              cases value with
              | map entries =>
                  have hfind := find?_toDict (entriesWithDicts entries)
                  rw [find?_entriesWithDicts] at hfind
                  rw [withDicts]
                  dsimp only
                  unfold isStop at hfind ⊢
                  rw [hfind, hreadable]
                  cases entries.reverse.find? fun entry => entry.1.isStopKey with
                  | none => rfl
                  | some last =>
                      rw [Option.map_some, entryWithDicts_eq]
                      exact truthy_withDicts last.2
              | _ => rfl

/-- **The stop checks of the relays.** They come to the same decision on a body if and only if it
is flagged, is too long to be looked at, or stops its chain plainly or not at all. -/
theorem stops_chain_agree_iff (read : Reader) (body : Bytes) (flagged : Bool) :
    PyRelay.stopsChain (unpackb read) body flagged =
        Relay.stopsChain (readValue read) body flagged ↔
      flagged = true ∨ stopChainSniffLimit < body.length ∨ StopsPlainly read body := by
  cases flagged with
  | true => exact iff_of_true rfl (.inl rfl)
  | false =>
      rw [or_iff_right Bool.false_ne_true]
      by_cases hlong : body.length > stopChainSniffLimit
      · refine iff_of_true ?_ (.inl hlong)
        rw [PyRelay.stopsChain, Relay.stopsChain, if_pos hlong, if_pos hlong]
      rw [or_iff_right hlong, python_stopsChain hlong, rust_stopsChain hlong]
      constructor
      · rintro hsame entries rest hread ⟨entry, hmem, hstop, htrue⟩
        have hrust : (entries.any fun entry => isStop entry && entry.2.truthy) = true :=
          List.any_eq_true.mpr ⟨entry, hmem, by rw [hstop, htrue]; rfl⟩
        rw [hread] at hsame
        dsimp only at hsame
        rw [hrust, Bool.and_eq_true, Bool.and_eq_true, List.isEmpty_iff] at hsame
        obtain ⟨⟨hrest, hreadable⟩, hlast⟩ := hsame
        refine ⟨hrest, hreadable, fun last hfound => ?_⟩
        rwa [hfound, Option.any_some] at hlast
      · intro hplainly
        cases hread : read body with
        | none => rfl
        | some found =>
            obtain ⟨value, rest⟩ := found
            cases value with
            | map entries =>
                dsimp only
                cases hrust : entries.any fun entry => isStop entry && entry.2.truthy with
                | true =>
                    obtain ⟨entry, hmem, hboth⟩ := List.any_eq_true.mp hrust
                    obtain ⟨hstop, htrue⟩ := (Bool.and_eq_true ..).mp hboth
                    obtain ⟨rfl, hreadable, hlast⟩ :=
                      hplainly entries rest hread ⟨entry, hmem, hstop, htrue⟩
                    obtain ⟨last, hfound⟩ := Option.isSome_iff_exists.mp
                      (List.find?_isSome.mpr ⟨entry, List.mem_reverse.mpr hmem, hstop⟩)
                    rw [hreadable, hfound, Option.any_some, hlast last hfound]
                    rfl
                | false =>
                    -- no entry under the stop key is true, the last one neither
                    have hlast : ((entries.reverse.find? isStop).any fun last =>
                        last.2.truthy) = false := by
                      cases hfound : entries.reverse.find? isStop with
                      | none => rfl
                      | some last =>
                          have hmem := List.mem_reverse.mp (List.mem_of_find?_eq_some hfound)
                          have hstop := List.find?_some hfound
                          have hboth := List.any_eq_false.mp hrust last hmem
                          rw [hstop, Bool.true_and, Bool.not_eq_true] at hboth
                          rw [Option.any_some, hboth]
                    rw [hlast, Bool.and_false]
            | _ => rfl

/-- A result that says `{"stop_chain": true}`, and one more byte. -/
def trailedBody : Bytes := 129 :: 170 :: Relay.stopChainKey ++ [195, 0]

/-- The first value of that body, and what follows it. -/
def readTrailed : Reader := fun body =>
  if body = trailedBody then some (.map [(.string Relay.stopChainKey, .boolean true)], [0]) else none

/-- The byte after the value makes Python forward what Rust takes for the end of the chain. -/
theorem trailing_byte_forwards : ¬∀ (read : Reader) (body : Bytes) (flagged : Bool),
    PyRelay.stopsChain (unpackb read) body flagged =
      Relay.stopsChain (readValue read) body flagged := by
  intro hsame
  exact absurd (hsame readTrailed trailedBody false) (by decide)

end Distllm.StopChecks
