import Distllm.TensorState

/-! MessagePack's short forms: small integers, and texts, buffers, lists and maps that are short.
Anything else is written in unary behind the byte that the format never uses, so that every tree can
be packed. What is packed is unpacked again, whatever follows it. -/

namespace Distllm.Wire.ShortForms

open Relay (Bytes)

def unary (n : Nat) : Bytes := List.replicate n 1 ++ [0]

def readUnary : Bytes → Option (Nat × Bytes)
  | [] => none
  | b :: rest =>
    if b = 0 then some (0, rest)
    else (readUnary rest).map fun (n, rest) => (n + 1, rest)

theorem readUnary_unary (n : Nat) (rest : Bytes) :
    readUnary (unary n ++ rest) = some (n, rest) := by
  induction n with
  | zero => rfl
  | succ n ih =>
      have hcons : unary (n + 1) ++ rest = 1 :: (unary n ++ rest) := rfl
      rw [hcons, readUnary, if_neg (by decide), ih]
      rfl

/-- The head of a value, with the length of what follows. -/
inductive Token where
  | nil
  | bool (b : Bool)
  | nat (n : Nat)
  | negSucc (n : Nat)
  | float (bits : UInt64)
  | str (size : Nat)
  | bin (size : Nat)
  | array (size : Nat)
  | map (size : Nat)

namespace Token

def put : Token → Bytes
  | nil => [0xc0]
  | bool false => [0xc2]
  | bool true => [0xc3]
  | nat n => if n < 128 then [UInt8.ofNat n] else 0xc1 :: 0 :: unary n
  | negSucc n => 0xc1 :: 1 :: unary n
  | float bits => 0xc1 :: 2 :: unary bits.toNat
  | str n => if n < 32 then [UInt8.ofNat (160 + n)] else 0xc1 :: 3 :: unary n
  | bin n => if n < 256 then [0xc4, UInt8.ofNat n] else 0xc1 :: 4 :: unary n
  | array n => if n < 16 then [UInt8.ofNat (144 + n)] else 0xc1 :: 5 :: unary n
  | map n => if n < 16 then [UInt8.ofNat (128 + n)] else 0xc1 :: 6 :: unary n

/-- What stands behind the unused byte. -/
def long (kind n : Nat) : Token :=
  match kind with
  | 0 => nat n
  | 1 => negSucc n
  | 2 => float (UInt64.ofNat n)
  | 3 => str n
  | 4 => bin n
  | 5 => array n
  | _ => map n

/-- What a first byte says on its own. -/
def short (n : Nat) : Option Token :=
  if n < 128 then some (nat n)
  else if n < 144 then some (map (n - 128))
  else if n < 160 then some (array (n - 144))
  else if n < 192 then some (str (n - 160))
  else if n = 192 then some nil
  else if n = 194 then some (bool false)
  else if n = 195 then some (bool true)
  else none

def get : Bytes → Option (Token × Bytes)
  | [] => none
  | b :: rest =>
    match short b.toNat, rest with
    | some token, rest => some (token, rest)
    | none, [] => none
    | none, second :: rest =>
      if b = 0xc4 then some (bin second.toNat, rest)
      else (readUnary rest).map fun (size, rest) => (long second.toNat size, rest)

theorem get_long (kind : UInt8) (n : Nat) (rest : Bytes) :
    get (0xc1 :: kind :: unary n ++ rest) = some (long kind.toNat n, rest) := by
  have hget : get (0xc1 :: kind :: unary n ++ rest) =
      (readUnary (unary n ++ rest)).map fun (size, rest) => (long kind.toNat size, rest) := rfl
  rw [hget, readUnary_unary]
  rfl

theorem get_short {n : Nat} {token : Token} (hn : n < 256) (h : short n = some token)
    (rest : Bytes) : get ([UInt8.ofNat n] ++ rest) = some (token, rest) := by
  have hbyte : (UInt8.ofNat n).toNat = n := by rw [UInt8.toNat_ofNat', Nat.mod_eq_of_lt hn]
  rw [List.singleton_append]
  unfold get
  dsimp only
  rw [hbyte, h]

/-- A head is found again in front of anything. -/
theorem get_put (token : Token) (rest : Bytes) : get (token.put ++ rest) = some (token, rest) := by
  cases token with
  | nil => rfl
  | bool b => cases b <;> rfl
  | negSucc n => exact get_long 1 n rest
  | float bits =>
      have hlong := get_long 2 bits.toNat rest
      rwa [show long (2 : UInt8).toNat bits.toNat = float bits from
        congrArg float UInt64.ofNat_toNat] at hlong
  | nat n =>
      rw [put]
      split
      · rename_i hsmall
        exact get_short (by omega) (if_pos hsmall) rest
      · exact get_long 0 n rest
  | str n =>
      rw [put]
      split
      · refine get_short (by omega) ?_ rest
        rw [short, if_neg (by omega), if_neg (by omega), if_neg (by omega), if_pos (by omega),
          Nat.add_sub_cancel_left]
      · exact get_long 3 n rest
  | bin n =>
      rw [put]
      split
      · rename_i hsmall
        have hget : get ([0xc4, UInt8.ofNat n] ++ rest) = some (bin (UInt8.ofNat n).toNat, rest) :=
          rfl
        rw [hget, UInt8.toNat_ofNat', Nat.mod_eq_of_lt hsmall]
      · exact get_long 4 n rest
  | array n =>
      rw [put]
      split
      · refine get_short (by omega) ?_ rest
        rw [short, if_neg (by omega), if_neg (by omega), if_pos (by omega),
          Nat.add_sub_cancel_left]
      · exact get_long 5 n rest
  | map n =>
      rw [put]
      split
      · refine get_short (by omega) ?_ rest
        rw [short, if_neg (by omega), if_pos (by omega), Nat.add_sub_cancel_left]
      · exact get_long 6 n rest

theorem length_put (token : Token) : 0 < token.put.length := by
  cases token with
  | bool b => cases b <;> exact Nat.zero_lt_one
  | nil => exact Nat.zero_lt_one
  | negSucc n => exact Nat.succ_pos _
  | float bits => exact Nat.succ_pos _
  | nat n => rw [put]; split <;> exact Nat.succ_pos _
  | str n => rw [put]; split <;> exact Nat.succ_pos _
  | bin n => rw [put]; split <;> exact Nat.succ_pos _
  | array n => rw [put]; split <;> exact Nat.succ_pos _
  | map n => rw [put]; split <;> exact Nat.succ_pos _

end Token

/-! ### Trees -/

def textBytes (s : String) : Bytes := s.toByteArray.data.toList

def putText (s : String) : Bytes := (Token.str (textBytes s).length).put ++ textBytes s

def putScalar : Scalar → Bytes
  | .none => Token.nil.put
  | .bool b => (Token.bool b).put
  | .int (.ofNat n) => (Token.nat n).put
  | .int (.negSucc n) => (Token.negSucc n).put
  | .float bits => (Token.float bits).put
  | .str s => putText s
  | .bytes b => (Token.bin b.length).put ++ b

mutual

def pack : Tree Scalar → Bytes
  | .leaf x => putScalar x
  | .list items => (Token.array items.length).put ++ packItems items
  | .map entries => (Token.map entries.length).put ++ packEntries entries

def packItems : List (Tree Scalar) → Bytes
  | [] => []
  | t :: rest => pack t ++ packItems rest

def packEntries : List (String × Tree Scalar) → Bytes
  | [] => []
  | (key, t) :: rest => putText key ++ (pack t ++ packEntries rest)

end

/-- The first bytes of what is left. -/
def takeBytes (size : Nat) (data : Bytes) : Option (Bytes × Bytes) :=
  if size ≤ data.length then some (data.take size, data.drop size) else none

def textOf (size : Nat) (data : Bytes) : Option (String × Bytes) :=
  (takeBytes size data).bind fun (taken, rest) =>
    if h : (ByteArray.mk taken.toArray).IsValidUTF8 then some (.ofByteArray _ h, rest) else none

def getText (data : Bytes) : Option (String × Bytes) :=
  match Token.get data with
  | some (.str size, rest) => textOf size rest
  | _ => none

/-- Read something so many times. -/
def times {α : Type} (read : Bytes → Option (α × Bytes)) : Nat → Bytes → Option (List α × Bytes)
  | 0, data => some ([], data)
  | n + 1, data => (read data).bind fun (x, data) =>
    (times read n data).map fun (xs, data) => (x :: xs, data)

/-- A key and what is read behind it. -/
def entry {α : Type} (read : Bytes → Option (α × Bytes)) (data : Bytes) :
    Option ((String × α) × Bytes) :=
  (getText data).bind fun (key, data) => (read data).map fun (t, data) => ((key, t), data)

def unpack : Nat → Bytes → Option (Tree Scalar × Bytes)
  | 0, _ => none
  | fuel + 1, data => (Token.get data).bind fun
    | (.nil, rest) => some (.leaf .none, rest)
    | (.bool b, rest) => some (.leaf (.bool b), rest)
    | (.nat n, rest) => some (.leaf (.int n), rest)
    | (.negSucc n, rest) => some (.leaf (.int (.negSucc n)), rest)
    | (.float bits, rest) => some (.leaf (.float bits), rest)
    | (.str size, rest) => (textOf size rest).map fun (s, rest) => (.leaf (.str s), rest)
    | (.bin size, rest) => (takeBytes size rest).map fun (b, rest) => (.leaf (.bytes b), rest)
    | (.array size, rest) => (times (unpack fuel) size rest).map fun (items, rest) =>
      (.list items, rest)
    | (.map size, rest) => (times (entry (unpack fuel)) size rest).map fun (entries, rest) =>
      (.map entries, rest)

theorem takeBytes_append (b rest : Bytes) : takeBytes b.length (b ++ rest) = some (b, rest) := by
  rw [takeBytes, if_pos (by simp), List.take_left, List.drop_left]

theorem textOf_textBytes (s : String) (rest : Bytes) :
    textOf (textBytes s).length (textBytes s ++ rest) = some (s, rest) := by
  have hbytes : ByteArray.mk (textBytes s).toArray = s.toByteArray := by
    rw [textBytes, Array.toArray_toList]
  rw [textOf, takeBytes_append, Option.bind_some]
  simp only [hbytes]
  exact dif_pos s.isValidUTF8

theorem getText_putText (s : String) (rest : Bytes) :
    getText (putText s ++ rest) = some (s, rest) := by
  rw [putText, List.append_assoc, getText, Token.get_put]
  exact textOf_textBytes s rest

theorem length_pack (t : Tree Scalar) : 0 < (pack t).length := by
  have hhead {token : Token} {body : Bytes} : 0 < (token.put ++ body).length := by
    rw [List.length_append]
    exact Nat.add_pos_left token.length_put _
  cases t with
  | list items => exact hhead
  | map entries => exact hhead
  | leaf x =>
      cases x with
      | none => exact Token.length_put .nil
      | bool b => exact Token.length_put (.bool b)
      | float bits => exact Token.length_put (.float bits)
      | str s => exact hhead
      | bytes b => exact hhead
      | int n =>
          cases n with
          | ofNat n => exact Token.length_put (.nat n)
          | negSucc n => exact Token.length_put (.negSucc n)

theorem unpack_putScalar (x : Scalar) (fuel : Nat) (rest : Bytes) :
    unpack (fuel + 1) (putScalar x ++ rest) = some (.leaf x, rest) := by
  cases x with
  | none => rfl
  | bool b => cases b <;> rfl
  | float bits =>
      rw [putScalar, unpack, Token.get_put]
      rfl
  | int n =>
      cases n with
      | ofNat n =>
          rw [putScalar, unpack, Token.get_put]
          rfl
      | negSucc n =>
          rw [putScalar, unpack, Token.get_put]
          rfl
  | str s =>
      rw [putScalar, putText, List.append_assoc, unpack, Token.get_put, Option.bind_some]
      dsimp only
      rw [textOf_textBytes]
      rfl
  | bytes b =>
      rw [putScalar, List.append_assoc, unpack, Token.get_put, Option.bind_some]
      dsimp only
      rw [takeBytes_append]
      rfl

mutual

/-- A tree is found again in front of anything. -/
theorem unpack_pack : (t : Tree Scalar) → ∀ fuel rest, (pack t).length ≤ fuel →
    unpack fuel (pack t ++ rest) = some (t, rest)
  | t, 0, rest, h => absurd h (Nat.not_le_of_lt (length_pack t))
  | .leaf x, fuel + 1, rest, _ => unpack_putScalar x fuel rest
  | .list items, fuel + 1, rest, h => by
      have hhead := (Token.array items.length).length_put
      rw [pack, List.length_append] at h
      have hitems := times_packItems items fuel rest (by omega)
      rw [pack, List.append_assoc, unpack, Token.get_put, Option.bind_some]
      dsimp only
      rw [hitems]
      rfl
  | .map entries, fuel + 1, rest, h => by
      have hhead := (Token.map entries.length).length_put
      rw [pack, List.length_append] at h
      have hentries := times_packEntries entries fuel rest (by omega)
      rw [pack, List.append_assoc, unpack, Token.get_put, Option.bind_some]
      dsimp only
      rw [hentries]
      rfl

theorem times_packItems : (items : List (Tree Scalar)) → ∀ fuel rest,
    (packItems items).length ≤ fuel →
      times (unpack fuel) items.length (packItems items ++ rest) = some (items, rest)
  | [], _, _, _ => rfl
  | t :: others, fuel, rest, h => by
      rw [packItems, List.length_append] at h
      have hfirst := unpack_pack t fuel (packItems others ++ rest) (by omega)
      have hothers := times_packItems others fuel rest (by omega)
      rw [packItems, List.append_assoc, List.length_cons, times, hfirst, Option.bind_some]
      dsimp only
      rw [hothers]
      rfl

theorem times_packEntries : (entries : List (String × Tree Scalar)) → ∀ fuel rest,
    (packEntries entries).length ≤ fuel →
      times (entry (unpack fuel)) entries.length (packEntries entries ++ rest) =
        some (entries, rest)
  | [], _, _, _ => rfl
  | (key, t) :: others, fuel, rest, h => by
      rw [packEntries, List.length_append, List.length_append] at h
      have hfirst := unpack_pack t fuel (packEntries others ++ rest) (by omega)
      have hothers := times_packEntries others fuel rest (by omega)
      rw [packEntries, List.append_assoc, List.append_assoc, List.length_cons, times, entry,
        getText_putText, Option.bind_some]
      dsimp only
      rw [hfirst, Option.map_some, Option.bind_some]
      dsimp only
      rw [hothers]
      rfl

end

end Distllm.Wire.ShortForms
