import Distllm.RelayState
import Distllm.TokenState

/-! The token sets of the Rust relay (`auth.rs`). Tokens are compared as bytes; a text is its
characters. What a file comes to when it is opened, read and decoded is as for the Python relay. -/

namespace Distllm.Auth.Rust

open Relay (Bytes)

/-! ### Text -/

/-- `str::as_bytes` -/
def utf8 (text : Text) : Bytes := (String.ofList text).toByteArray.data.toList

theorem utf8_injective {a b : Text} (h : utf8 a = utf8 b) : a = b := by
  have hdata : (String.ofList a).toByteArray.data = (String.ofList b).toByteArray.data :=
    Array.toList_inj.mp h
  have hstring : String.ofList a = String.ofList b :=
    String.toByteArray_inj.mp (ByteArray.ext hdata)
  exact String.ofList_injective hstring

/-- `char::is_whitespace` -/
def isWhitespace (c : Char) : Bool :=
  (9 ≤ c.toNat && c.toNat ≤ 13) || c.toNat == 32 || c.toNat == 133 || c.toNat == 160
    || c.toNat == 5760 || (8192 ≤ c.toNat && c.toNat ≤ 8202) || c.toNat == 8232 || c.toNat == 8233
    || c.toNat == 8239 || c.toNat == 8287 || c.toNat == 12288

/-- `str::trim` -/
def trim (text : Text) : Text :=
  ((text.dropWhile isWhitespace).reverse.dropWhile isWhitespace).reverse

/-- A line that ends in a line feed, without the carriage return before it; the line in reverse. -/
def withoutReturn : Text → Text
  | '\r' :: line => line.reverse
  | line => line.reverse

/-- `str::lines`, with the line read so far in reverse. The text after the last line feed is a line
unless it is empty. -/
def linesAfter : Text → Text → List Text
  | line, [] => if line = [] then [] else [line.reverse]
  | line, c :: rest =>
    if c = '\n' then withoutReturn line :: linesAfter [] rest
    else linesAfter (c :: line) rest

def lines (text : Text) : List Text := linesAfter [] text

/-- The tokens of a setting as texts. -/
def fields (text : Text) : List Text :=
  (((lines text).flatMap fun line => (line.takeWhile (· != '#')).splitOn ',').map trim).filter
    (· ≠ [])

def parseTokens (text : Text) : List Bytes := (fields text).map utf8

/-! ### Token sets -/

/-- `constant_time_eq` -/
def constantTimeEq (a b : Bytes) : Bool :=
  if a.length ≠ b.length then false
  else (a.zip b).foldl (fun acc pair => acc ||| (pair.1 ^^^ pair.2)) 0 == 0

structure TokenSet where
  path : Option Text
  tokens : List Bytes
  mtime : Option Nat
  checked : Option Instant

namespace TokenSet

/-- The answer of `accepts`: every token is looked at. -/
def holds (ts : TokenSet) (given : Bytes) : Bool :=
  ts.tokens.foldl (fun ok token => constantTimeEq given token || ok) false

/-- The part of `accepts` that re-checks a token file. -/
def reload (ts : TokenSet) (files : Files) (now : Instant) : TokenSet :=
  let ts := { ts with checked := some now }
  match ts.path.bind files with
  | none => ts
  | some file =>
    if some file.mtime = ts.mtime then ts
    else match file.content with
      | .text content => { ts with tokens := parseTokens content, mtime := some file.mtime }
      | .unreadable | .undecodable => ts

def due (ts : TokenSet) (now : Instant) : Bool :=
  ts.path.isSome && ts.checked.all fun checked => reloadInterval ≤ now - checked

def accepts (ts : TokenSet) (files : Files) (now : Instant) (given : Bytes) : Bool × TokenSet :=
  let ts := if ts.due now then ts.reload files now else ts
  (ts.holds given, ts)

/-- `TokenSet::new` -/
def new (files : Files) (now : Instant) (spec : Text) : TokenSet :=
  let ts : TokenSet :=
    match spec with
    | '@' :: path => ⟨some path, [], none, none⟩
    | spec => ⟨none, parseTokens spec, none, none⟩
  (ts.accepts files now []).2

end TokenSet

/-! ### Comparing with every token -/

theorem foldl_xor_eq_zero (a b : Bytes) (hlength : a.length = b.length) (acc : UInt8) :
    (a.zip b).foldl (fun acc pair => acc ||| (pair.1 ^^^ pair.2)) acc = 0 ↔ acc = 0 ∧ a = b := by
  induction a generalizing b acc with
  | nil =>
      obtain rfl := List.length_eq_zero_iff.mp hlength.symm
      exact (and_iff_left rfl).symm
  | cons x a ih =>
      obtain ⟨y, b, rfl⟩ := List.exists_cons_of_length_eq_add_one hlength.symm
      rw [List.zip_cons_cons, List.foldl_cons, ih b (Nat.succ.inj hlength), UInt8.or_eq_zero_iff,
        UInt8.xor_eq_zero_iff, List.cons.injEq, and_assoc]

theorem constantTimeEq_iff {a b : Bytes} : constantTimeEq a b = true ↔ a = b := by
  rw [constantTimeEq]
  by_cases hlength : a.length = b.length
  · rw [if_neg (not_not_intro hlength), beq_iff_eq, foldl_xor_eq_zero a b hlength]
    exact and_iff_right rfl
  · rw [if_pos hlength]
    exact iff_of_false Bool.false_ne_true fun h => hlength (congrArg List.length h)

/-- No token is left out, and one that is equal is enough. -/
theorem holds_iff {ts : TokenSet} {given : Bytes} : ts.holds given = true ↔ given ∈ ts.tokens := by
  suffices h : ∀ ok, ts.tokens.foldl (fun ok token => constantTimeEq given token || ok) ok = true ↔
      ok = true ∨ given ∈ ts.tokens from (h false).trans (or_iff_right Bool.false_ne_true)
  induction ts.tokens with
  | nil => exact fun ok => (or_iff_left List.not_mem_nil).symm
  | cons token rest ih =>
      intro ok
      rw [List.foldl_cons, ih, Bool.or_eq_true, constantTimeEq_iff, List.mem_cons, or_assoc,
        or_left_comm]

end Distllm.Auth.Rust
