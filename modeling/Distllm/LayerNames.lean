import Distllm.Url
import Mathlib.Data.List.Basic

/-! Names of tensors, and the pattern `_LAYER_RE` that finds the index of a layer in them:
`(^|\.)layers\.(\d+)\.`. A name put together from a part before, an index and a part behind gives
them back, also where the index has other digits than before. -/

namespace Distllm.LayerNames

/-! ### Decimal digits -/

/-- The zeros among the decimal digits (the Unicode category `Nd`); nine more digits follow each. -/
def zeros : List ℕ :=
  [0x30, 0x660, 0x6F0, 0x7C0, 0x966, 0x9E6, 0xA66, 0xAE6, 0xB66, 0xBE6, 0xC66, 0xCE6, 0xD66, 0xDE6, 0xE50,
    0xED0, 0xF20, 0x1040, 0x1090, 0x17E0, 0x1810, 0x1946, 0x19D0, 0x1A80, 0x1A90, 0x1B50, 0x1BB0, 0x1C40,
    0x1C50, 0xA620, 0xA8D0, 0xA900, 0xA9D0, 0xA9F0, 0xAA50, 0xABF0, 0xFF10, 0x104A0, 0x10D30, 0x11066,
    0x110F0, 0x11136, 0x111D0, 0x112F0, 0x11450, 0x114D0, 0x11650, 0x116C0, 0x11730, 0x118E0, 0x11950,
    0x11C50, 0x11D50, 0x11DA0, 0x16A60, 0x16AC0, 0x16B50, 0x1D7CE, 0x1D7D8, 0x1D7E2, 0x1D7EC, 0x1D7F6,
    0x1E140, 0x1E2F0, 0x1E950, 0x1FBF0]

/-- The zero that a decimal digit counts from. -/
def zeroOf (c : Char) : Option ℕ := zeros.find? fun first => first ≤ c.toNat && c.toNat < first + 10

/-- `\d` -/
def isDecimal (c : Char) : Bool := (zeroOf c).isSome

def decimal (c : Char) : ℕ := (zeroOf c).elim 0 (c.toNat - ·)

/-- `int` of decimal digits -/
def int (digits : Text) : ℕ := digits.foldl (fun n c => 10 * n + decimal c) 0

/-- `str` of an index -/
def str (n : ℕ) : Text := Nat.toDigits 10 n

theorem zeroOf_of_isDigit {c : Char} (h : c.isDigit) : zeroOf c = some 0x30 := by
  have hbounds := Char.isDigit_iff_toNat.mp h
  apply List.find?_cons_of_pos
  rw [Bool.and_eq_true, decide_eq_true_eq, decide_eq_true_eq]
  have hlow : '0'.toNat = 0x30 := by decide
  have hhigh : '9'.toNat = 0x39 := by decide
  omega

theorem isDigit_of_mem_str {n : ℕ} {c : Char} (h : c ∈ str n) : c.isDigit :=
  Nat.isDigit_of_mem_toDigits (by decide) (by decide) h

theorem isDecimal_of_mem_str {n : ℕ} {c : Char} (h : c ∈ str n) : isDecimal c := by
  rw [isDecimal, zeroOf_of_isDigit (isDigit_of_mem_str h)]
  exact rfl

theorem str_ne_nil (n : ℕ) : str n ≠ [] := Nat.toDigits_ne_nil

theorem int_str (n : ℕ) : int (str n) = n := by
  have hvalues : ∀ (m : ℕ) (c : Char), c ∈ str n → 10 * m + decimal c = 10 * m + (c.toNat - '0'.toNat) := by
    intro m c hc
    rw [decimal, zeroOf_of_isDigit (isDigit_of_mem_str hc)]
    rfl
  calc int (str n)
      = (str n).foldl (fun m c => 10 * m + (c.toNat - '0'.toNat)) 0 := List.foldl_ext _ _ 0 hvalues
    _ = Nat.ofDigitChars 10 (str n) 0 := Nat.ofDigitChars_eq_foldl.symm
    _ = n := Nat.ofDigitChars_ten_toDigits

theorem str_inj {m n : ℕ} (h : str m = str n) : m = n := by
  rw [← int_str m, h, int_str]

/-! ### The pattern -/

/-- `layers.`, which stands before the digits. -/
def word : Text := ['l', 'a', 'y', 'e', 'r', 's', '.']

/-- `layers\.(\d+)\.` at the start of a text: the digits, and the text from the dot behind them on. -/
def matchAt (text : Text) : Option (Text × Text) :=
  let rest := text.drop word.length
  let digits := rest.takeWhile isDecimal
  let after := rest.dropWhile isDecimal
  if word.isPrefixOf text && !digits.isEmpty && after.head? == some '.' then some (digits, after) else none

/-- What a search finds: the second group, and the texts before and behind it. -/
structure Match where
  before : Text
  digits : Text
  after : Text
  deriving DecidableEq

/-- The first match that starts with a dot. -/
def searchDots : Text → Option Match
  | [] => none
  | c :: rest =>
      match if c = '.' then matchAt rest else none with
      | some (digits, after) => some ⟨c :: word, digits, after⟩
      | none => (searchDots rest).map fun m => { m with before := c :: m.before }

/-- `_LAYER_RE.search` -/
def search (name : Text) : Option Match :=
  match matchAt name with
  | some (digits, after) => some ⟨word, digits, after⟩
  | none => searchDots name

theorem not_isDecimal_dot : ¬ isDecimal '.' := by decide

theorem matchAt_eq_some_iff {text digits after : Text} :
    matchAt text = some (digits, after) ↔
      text = word ++ digits ++ after ∧ digits ≠ [] ∧ (∀ c ∈ digits, isDecimal c) ∧ ∃ more, after = '.' :: more := by
  constructor
  · intro h
    simp only [matchAt, Option.ite_none_right_eq_some, Option.some.injEq, Prod.mk.injEq, Bool.and_eq_true,
      List.isPrefixOf_iff_prefix, Bool.not_eq_true', List.isEmpty_eq_false_iff, beq_iff_eq] at h
    obtain ⟨⟨⟨⟨rest, rfl⟩, hne⟩, hdot⟩, rfl, rfl⟩ := h
    rw [List.drop_left] at hne hdot ⊢
    refine ⟨?_, hne, fun c hc => List.mem_takeWhile_imp hc, List.head?_eq_some_iff.mp hdot⟩
    rw [List.append_assoc, List.takeWhile_append_dropWhile]
  · rintro ⟨rfl, hne, hdigits, more, rfl⟩
    have hrest : (word ++ digits ++ '.' :: more).drop word.length = digits ++ '.' :: more := by
      rw [List.append_assoc, List.drop_left]
    have htake : (digits ++ '.' :: more).takeWhile isDecimal = digits := by
      rw [List.takeWhile_append_of_pos hdigits, List.takeWhile_cons_of_neg not_isDecimal_dot, List.append_nil]
    have hdrop : (digits ++ '.' :: more).dropWhile isDecimal = '.' :: more := by
      rw [List.dropWhile_append_of_pos hdigits, List.dropWhile_cons_of_neg not_isDecimal_dot]
    have hword : word.isPrefixOf (word ++ digits ++ '.' :: more) = true := by
      rw [List.isPrefixOf_iff_prefix, List.append_assoc]
      exact List.prefix_append word _
    simp only [matchAt, hrest, htake, hdrop, hword]
    simpa using hne

/-- The only dot in a word with digits is the one before the digits. -/
theorem eq_digits_of_dot {digits before rest : Text} (hdigits : ∀ c ∈ digits, isDecimal c)
    (h : word ++ digits = before ++ '.' :: rest) : rest = digits := by
  have hword : word ++ digits = ['l', 'a', 'y', 'e', 'r', 's'] ++ '.' :: digits := rfl
  rw [hword, List.append_cons_inj_of_notMem (by decide) fun hdot => not_isDecimal_dot (hdigits _ hdot)] at h
  exact h.2.2.symm

/-- A match does not start in a text that ends with a dot and end behind it, unless digits follow. -/
theorem matchAt_append_dot {text rest : Text} (hrest : ∀ c ∈ rest.head?, ¬ isDecimal c)
    (h : matchAt (text ++ ['.']) = none) : matchAt (text ++ '.' :: rest) = none := by
  rw [Option.eq_none_iff_forall_ne_some]
  rintro ⟨digits, after⟩ hmatch
  obtain ⟨htext, hne, hdigits, behind, rfl⟩ := matchAt_eq_some_iff.mp hmatch
  -- A match that ends with the dot or before it is one in the text.
  have hinside : ∀ between, text = word ++ digits ++ between → (∃ m, between ++ ['.'] = '.' :: m) → False := by
    rintro between rfl hdot
    have hsome := matchAt_eq_some_iff.mpr ⟨List.append_assoc _ between ['.'], hne, hdigits, hdot⟩
    rw [h] at hsome
    cases hsome
  rcases List.append_eq_append_iff.mp htext with ⟨between, hword, hdot⟩ | ⟨between, htext', hdot⟩
  · cases between with
    | nil => exact hinside [] (by simpa using hword.symm) ⟨[], rfl⟩
    | cons c between =>
        -- The dot would be the one before the digits, and what follows it the first of them.
        obtain ⟨rfl, rfl⟩ := List.cons.inj hdot
        obtain rfl := eq_digits_of_dot hdigits hword
        cases between with
        | nil => exact hne rfl
        | cons d between => exact hrest d rfl (hdigits d List.mem_cons_self)
  · apply hinside between htext'
    cases between with
    | nil => exact ⟨[], rfl⟩
    | cons c between =>
        obtain ⟨rfl, -⟩ := List.cons.inj hdot
        exact ⟨between ++ ['.'], rfl⟩

theorem searchDots_cons_of_none {c : Char} {rest : Text} (h : (if c = '.' then matchAt rest else none) = none) :
    searchDots (c :: rest) = (searchDots rest).map fun m => { m with before := c :: m.before } := by
  rw [searchDots, h]

/-- Behind a text without a match that ends with a dot, the match at the dot is the first. -/
theorem searchDots_append_dot {text rest digits after : Text} (hrest : ∀ c ∈ rest.head?, ¬ isDecimal c)
    (hmatch : matchAt rest = some (digits, after)) (h : searchDots (text ++ ['.']) = none) :
    searchDots (text ++ '.' :: rest) = some ⟨text ++ '.' :: word, digits, after⟩ := by
  induction text with
  | nil => rw [List.nil_append, searchDots, if_pos rfl, hmatch, List.nil_append]
  | cons d text ih =>
      have hhere : (if d = '.' then matchAt (text ++ ['.']) else none) = none := by
        rw [List.cons_append, searchDots] at h
        split at h
        · cases h
        · assumption
      rw [List.cons_append, searchDots_cons_of_none hhere, Option.map_eq_none_iff] at h
      have hhere' : (if d = '.' then matchAt (text ++ '.' :: rest) else none) = none := by
        split at hhere
        · rw [if_pos ‹_›]
          exact matchAt_append_dot hrest hhere
        · rw [if_neg ‹_›]
      rw [List.cons_append, searchDots_cons_of_none hhere', ih h]
      rfl

/-! ### Names of layers -/

/-- A tensor that layers have: what its name has before `layers.` and behind the index. -/
structure LayerTensor where
  pre : Text
  suffix : Text
  ends : pre = [] ∨ ∃ text, pre = text ++ ['.']
  unmatched : search pre = none

namespace LayerTensor

variable (tensor : LayerTensor)

/-- The name of the tensor in a layer. -/
def name (i : ℕ) : Text := tensor.pre ++ word ++ str i ++ '.' :: tensor.suffix

theorem matchAt_index (i : ℕ) : matchAt (word ++ str i ++ '.' :: tensor.suffix) = some (str i, '.' :: tensor.suffix) :=
  matchAt_eq_some_iff.mpr ⟨rfl, str_ne_nil i, fun _ => isDecimal_of_mem_str, tensor.suffix, rfl⟩

/-- The search finds the index and what stands around it. -/
theorem search_name (i : ℕ) :
    search (tensor.name i) = some ⟨tensor.pre ++ word, str i, '.' :: tensor.suffix⟩ := by
  have hindex := tensor.matchAt_index i
  rcases tensor.ends with hpre | ⟨text, hpre⟩
  · rw [search, name, hpre, List.nil_append, hindex]
  · have hnone := tensor.unmatched
    rw [hpre, search] at hnone
    split at hnone
    · cases hnone
    · rename_i hstart
      have hletter : ∀ c ∈ (word ++ str i ++ '.' :: tensor.suffix).head?, ¬ isDecimal c := by
        intro c hc
        obtain rfl : 'l' = c := Option.some.inj hc
        decide
      have hname : tensor.name i = text ++ '.' :: (word ++ str i ++ '.' :: tensor.suffix) := by
        rw [name, hpre]
        simp
      have hbefore : tensor.pre ++ word = text ++ '.' :: word := by
        rw [hpre, List.append_assoc, List.singleton_append]
      rw [search, hname, matchAt_append_dot hletter hstart, hbefore]
      exact searchDots_append_dot hletter hindex hnone

example : search "layers.layers.9.layers.10.weight".toList
    = some ⟨"layers.layers.".toList, "9".toList, ".layers.10.weight".toList⟩ := by decide

theorem name_inj {tensor tensor' : LayerTensor} {i j : ℕ} (h : tensor.name i = tensor'.name j) :
    tensor = tensor' ∧ i = j := by
  have hsearch := tensor.search_name i
  rw [h, tensor'.search_name j, Option.some.injEq, Match.mk.injEq] at hsearch
  obtain ⟨hbefore, hdigits, hafter⟩ := hsearch
  obtain ⟨pre, suffix, hends, hunmatched⟩ := tensor
  obtain ⟨pre', suffix', hends', hunmatched'⟩ := tensor'
  obtain rfl : pre' = pre := List.append_cancel_right hbefore
  obtain rfl : suffix' = suffix := (List.cons.inj hafter).2
  exact ⟨rfl, (str_inj hdigits).symm⟩

end LayerTensor

/-- `f"{name[: match.start(2)]}{int(match.group(2)) + layer_start}{name[match.end(2):]}"` -/
def Match.shifted (found : Match) (start : ℕ) : Text := found.before ++ str (int found.digits + start) ++ found.after

/-- The name with its index moved is the name of the same tensor in another layer, however many
digits the two indices have. -/
theorem LayerTensor.shifted_name (tensor : LayerTensor) (i start : ℕ) :
    (Match.mk (tensor.pre ++ word) (str i) ('.' :: tensor.suffix)).shifted start = tensor.name (start + i) := by
  rw [Match.shifted, int_str, Nat.add_comm, LayerTensor.name]

end Distllm.LayerNames
