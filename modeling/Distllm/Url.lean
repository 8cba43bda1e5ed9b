import Mathlib.Data.List.TakeWhile

/-! The path of a URL as Python's `urlsplit` finds it. The text is first cleaned, the scheme is cut
off, and the rest is cut at the first `/`, `?` or `#` after the two slashes. So of a URL put together
from an authority and a path, an authority that holds one of these three gives the path away. -/

namespace Distllm

abbrev Text := List Char

/-- A word without some character that starts a text continued after this character starts the
text. -/
theorem prefix_of_prefix_append_cons {α : Type} {word text rest : List α} {c : α} (hword : c ∉ word)
    (h : word <+: text ++ c :: rest) : word <+: text := by
  rcases List.prefix_or_prefix_of_prefix h (List.prefix_append text (c :: rest)) with h' | ⟨more, rfl⟩
  · exact h'
  · rw [List.prefix_append_right_inj] at h
    cases more with
    | nil => simp
    | cons d more =>
        obtain ⟨rfl, _⟩ := List.cons_prefix_cons.mp h
        exact absurd (List.mem_append_right text List.mem_cons_self) hword

namespace Url

/-! ### Parsing -/

/-- `_UNSAFE_URL_BYTES_TO_REMOVE` -/
def unsafeChars : List Char := ['\t', '\r', '\n']

/-- The text without tabs and line ends, which the parser removes wherever they stand. -/
def clean (text : Text) : Text := text.filter fun c => !unsafeChars.contains c

/-- What ends the authority. -/
def isDelim (c : Char) : Bool := c == '/' || c == '?' || c == '#'

/-- What the path may hold. -/
def inPath (c : Char) : Bool := c != '?' && c != '#'

def schemeChar (c : Char) : Bool := c.isAlphanum || c == '+' || c == '-' || c == '.'

/-- The URL without its scheme, if it starts with one. -/
def cutScheme (url : Text) : Text :=
  let scheme := url.takeWhile (· != ':')
  if scheme.length < url.length && scheme.head?.any Char.isAlpha && scheme.all schemeChar then
    url.drop (scheme.length + 1)
  else url

/-- `_splitnetloc`, if the text starts with two slashes: the authority, and what follows it. -/
def splitNetloc : Text → Text × Text
  | '/' :: '/' :: rest => (rest.takeWhile (!isDelim ·), rest.dropWhile (!isDelim ·))
  | rest => ([], rest)

/-- `urlsplit(url).path`; `checkNetloc` says which authorities the parser does not refuse. -/
def path (checkNetloc : Text → Bool) (url : Text) : Option Text :=
  let (netloc, rest) := splitNetloc (cutScheme (clean (url.dropWhile (· ≤ ' '))))
  if checkNetloc netloc then some ((rest.takeWhile (· != '#')).takeWhile (· != '?')) else none

/-- The name of a scheme: a letter, and then letters, digits and `+`, `-`, `.`. -/
structure Scheme where
  name : Text
  letter : name.head?.any Char.isAlpha
  chars : ∀ c ∈ name, schemeChar c

def http : Scheme := ⟨"http".toList, by decide, List.all_eq_true.mp (by decide)⟩

/-! ### An authority and what follows it -/

/-- The part of a text that the parser takes for the authority. -/
def authority (text : Text) : Text := (clean text).takeWhile (!isDelim ·)

/-- What the parser takes to follow the authority. -/
def tail (text : Text) : Text := (clean text).dropWhile (!isDelim ·)

theorem clean_append (text rest : Text) : clean (text ++ rest) = clean text ++ clean rest :=
  List.filter_append ..

theorem clean_cons_slash (rest : Text) : clean ('/' :: rest) = '/' :: clean rest := rfl

theorem tail_cons_slash (rest : Text) : tail ('/' :: rest) = '/' :: clean rest := by
  rw [tail, clean_cons_slash, List.dropWhile_cons_of_neg (by decide)]

theorem tail_append_of_nil {text : Text} (h : tail text = []) (rest : Text) :
    tail (text ++ rest) = tail rest := by
  rw [tail, clean_append, List.dropWhile_append_of_pos (List.dropWhile_eq_nil_iff.mp h), tail]

theorem tail_append_of_ne_nil {text : Text} (h : tail text ≠ []) (rest : Text) :
    tail (text ++ rest) = tail text ++ clean rest := by
  rw [tail, clean_append, List.dropWhile_append, if_neg (by simpa [tail] using h), tail]

/-- What stops the first part also stops the whole. -/
theorem takeWhile_append_stop {α : Type} {p : α → Bool} {c : α} (hc : ¬ p c) (text rest : List α) :
    (text ++ c :: rest).takeWhile p = text.takeWhile p := by
  rw [List.takeWhile_append]
  split
  · rename_i hlength
    rw [List.takeWhile_cons_of_neg hc, List.append_nil]
    exact (List.IsPrefix.eq_of_length (List.takeWhile_prefix p) hlength).symm
  · exact rfl

/-- A text that goes on with a slash has the authority that it has by itself. -/
theorem authority_append_slash (text rest : Text) :
    authority (text ++ '/' :: rest) = authority text := by
  rw [authority, clean_append, clean_cons_slash, authority]
  exact takeWhile_append_stop (by decide) _ _

theorem schemeChar_clean {c : Char} (h : schemeChar c) : (!unsafeChars.contains c) = true := by
  rcases Decidable.em (c ∈ unsafeChars) with hc | hc
  · simp only [unsafeChars, List.mem_cons, List.not_mem_nil, or_false] at hc
    rcases hc with rfl | rfl | rfl <;> exact absurd h (by decide)
  · simpa using hc

theorem schemeChar_ne_colon {c : Char} (h : schemeChar c) : (c != ':') = true := by
  rw [bne_iff_ne]
  rintro rfl
  exact absurd h (by decide)

theorem isAlpha_not_le_space {c : Char} (h : c.isAlpha) : ¬ (c ≤ ' ') := by
  have hletter : (decide (65 ≤ c.val ∧ c.val ≤ 90)
      || (decide (97 ≤ c.val) && decide (c.val ≤ 122))) = true := h
  rw [Bool.or_eq_true, Bool.and_eq_true, decide_eq_true_eq, decide_eq_true_eq] at hletter
  have hfrom : 65 ≤ c.val.toNat := by
    rcases hletter with ⟨hupper, _⟩ | ⟨hlower, _⟩
    · exact UInt32.le_iff_toNat_le.mp hupper
    · have h97 : 97 ≤ c.val.toNat := UInt32.le_iff_toNat_le.mp hlower
      omega
  intro hle
  have hto : c.val.toNat ≤ 32 := UInt32.le_iff_toNat_le.mp hle
  omega

namespace Scheme

variable (scheme : Scheme)

theorem clean_name (rest : Text) : clean (scheme.name ++ rest) = scheme.name ++ clean rest := by
  rw [clean_append, clean, List.filter_eq_self.mpr fun c hc => schemeChar_clean (scheme.chars c hc)]

theorem dropWhile_name (rest : Text) :
    (scheme.name ++ rest).dropWhile (· ≤ ' ') = scheme.name ++ rest := by
  obtain ⟨name, hletter, hchars⟩ := scheme
  cases name with
  | nil => cases hletter
  | cons c name => exact List.dropWhile_cons_of_neg (by simpa using isAlpha_not_le_space hletter)

theorem cutScheme_name (rest : Text) : cutScheme (scheme.name ++ ':' :: rest) = rest := by
  have hname : (scheme.name ++ ':' :: rest).takeWhile (· != ':') = scheme.name := by
    rw [List.takeWhile_append_of_pos fun c hc => schemeChar_ne_colon (scheme.chars c hc),
      List.takeWhile_cons_of_neg (by decide), List.append_nil]
  have hall : scheme.name.all schemeChar = true := List.all_eq_true.mpr scheme.chars
  have hlength : scheme.name.length < (scheme.name ++ ':' :: rest).length := by simp
  simp only [cutScheme, hname, hall, scheme.letter, decide_eq_true hlength, Bool.and_self, if_true]
  rw [List.drop_append, List.drop_of_length_le (by omega)]
  simp

end Scheme

/-- The path found in a URL with a scheme and two slashes: it starts at the first delimiter. -/
theorem path_scheme (checkNetloc : Text → Bool) (scheme : Scheme) (text : Text) :
    path checkNetloc (scheme.name ++ "://".toList ++ text)
      = if checkNetloc (authority text) then some ((tail text).takeWhile inPath) else none := by
  have hcut : cutScheme (clean ((scheme.name ++ "://".toList ++ text).dropWhile (· ≤ ' ')))
      = '/' :: '/' :: clean text := by
    calc cutScheme (clean ((scheme.name ++ "://".toList ++ text).dropWhile (· ≤ ' ')))
        = cutScheme (clean (scheme.name ++ ("://".toList ++ text))) := by
          rw [List.append_assoc, scheme.dropWhile_name]
      _ = cutScheme (scheme.name ++ ':' :: '/' :: '/' :: clean text) := by
          rw [scheme.clean_name, clean_append]
          rfl
      _ = '/' :: '/' :: clean text := scheme.cutScheme_name _
  have htwice : ∀ rest : Text, (rest.takeWhile (· != '#')).takeWhile (· != '?')
      = rest.takeWhile inPath := by
    intro rest
    rw [List.takeWhile_takeWhile]
    congr 1
    funext c
    exact (Bool.decide_and (c != '?') (c != '#')).trans (by simp only [Bool.decide_eq_true, inPath])
  rw [path, hcut]
  simp only [splitNetloc, htwice, authority, tail]
  rfl

end Url

end Distllm
