import Distllm.Splits
import Distllm.TokenFiles

/-! What a token setting means to a Python client and to the Rust relay (`auth.py`, `auth.rs`). Both
cut a text into lines, lines into fields and trim the fields, with the library of their language: the
Rust relay ends a line at a line feed only, and Python trims four control characters more. -/

namespace Distllm.Auth

open Relay (Bytes)

/-! ### The token that is sent -/

/-- What `open` makes of the line ends of a text. -/
def universalNewlines : Text → Text
  | '\r' :: '\n' :: rest => '\n' :: universalNewlines rest
  | c :: rest => (if c = '\r' then '\n' else c) :: universalNewlines rest
  | [] => []

/-- `_read_file`; no result when it raises. -/
def readFile (files : Files) (path : Text) : Option (List Text) :=
  ((files path).bind File.read).map fun content => parseTokens (universalNewlines content)

/-- `first_token`; no result when reading the file raises. -/
def firstToken (files : Files) : Option Text → Option (Option Text)
  | none | some [] => some none
  | some ('@' :: path) => (readFile files path).map List.head?
  | some spec => some (parseTokens spec).head?

/-- The text that lists the tokens of a setting: the setting, or the file that it names. -/
def settingText (files : Files) : Text → Option Text
  | '@' :: path => (files path).bind File.read
  | spec => some spec

/-- The same tokens on both sides, and a setting that has this text sends a token that the relay
accepts. -/
structure MeansSame (text : Text) : Prop where
  tokens : Rust.parseTokens text = (parseTokens text).map Rust.utf8
  accepted : ∀ (sent files later : Files) (spec token : Text) (started now : Instant),
    settingText sent spec = some text → settingText files spec = some text →
    settingText later spec = some text → firstToken sent (some spec) = some (some token) →
      ((Rust.TokenSet.new files started spec).accepts later now (Rust.utf8 token)).1 = true

/-! ### Texts that both read alike -/

/-- One line for Python, and nothing for Python to trim. -/
structure Plain (token : Text) : Prop where
  bare : Splits.Bare isSpace token
  oneLine : ∀ c ∈ token, isLineBreak c = false

/-- Apart from the white space around it. -/
def PlainField (field : Text) : Prop :=
  ∃ before token after, field = before ++ token ++ after ∧
    (∀ c ∈ before, Rust.isWhitespace c = true) ∧ (∀ c ∈ after, Rust.isWhitespace c = true) ∧
    Plain token

/-- Where a comment has a line end of Python, no token follows. -/
structure PlainLine (line : Text) : Prop where
  fields : ∀ field ∈ (line.takeWhile (· != '#')).splitOn ',', PlainField field
  comment : ∀ part ∈ ((line.dropWhile (· != '#')).splitOnP isLineBreak).tail,
    ∀ c ∈ part.takeWhile (· != '#'), isSpace c = true ∨ c = ','

/-- The lines are those that end in a line feed. -/
def PlainText (text : Text) : Prop := ∀ line ∈ text.splitOn '\n', PlainLine line

/-! ### Python's tokens, line by line -/

def lineTokens (line : Text) : List Text :=
  Splits.entries isSpace (· == ',') (line.takeWhile (· != '#'))

theorem flatMap_splitLinesAfter (line text : Text) :
    (splitLinesAfter line text).flatMap lineTokens =
      (List.splitOnPPrepend isLineBreak text line).flatMap lineTokens := by
  fun_induction splitLinesAfter line text with
  | case1 => rfl
  | case2 line hline => rfl
  | case3 line rest ih =>
      rw [List.splitOnPPrepend_cons_pos (by decide), Splits.splitOnP_cons_pos (by decide),
        List.flatMap_cons, List.flatMap_cons, List.flatMap_cons, ih]
      rfl
  | case4 line c rest _ hbreak ih =>
      rw [List.splitOnPPrepend_cons_pos hbreak, List.flatMap_cons, List.flatMap_cons, ih]
      rfl
  | case5 line c rest _ hbreak ih =>
      rw [List.splitOnPPrepend_cons_neg (eq_false_of_ne_true hbreak), ih]

/-- A line end of two characters makes no difference, and neither does one at the end. -/
theorem parseTokens_eq (text : Text) :
    parseTokens text = (text.splitOnP isLineBreak).flatMap lineTokens :=
  flatMap_splitLinesAfter [] text

theorem parseTokens_universalNewlines (text : Text) :
    parseTokens (universalNewlines text) = parseTokens text := by
  suffices h : ∀ line, (List.splitOnPPrepend isLineBreak (universalNewlines text) line).flatMap
      lineTokens = (List.splitOnPPrepend isLineBreak text line).flatMap lineTokens by
    rw [parseTokens_eq, parseTokens_eq]
    exact h []
  fun_induction universalNewlines text with
  | case1 rest ih =>
      intro line
      rw [List.splitOnPPrepend_cons_pos (by decide), List.splitOnPPrepend_cons_pos (by decide),
        Splits.splitOnP_cons_pos (by decide), List.flatMap_cons, List.flatMap_cons,
        List.flatMap_cons]
      exact congrArg _ (ih [])
  | case2 c rest _ ih =>
      intro line
      by_cases hc : c = '\r'
      · rw [if_pos hc, hc, List.splitOnPPrepend_cons_pos (by decide),
          List.splitOnPPrepend_cons_pos (by decide), List.flatMap_cons, List.flatMap_cons]
        exact congrArg _ (ih [])
      rw [if_neg hc]
      cases hbreak : isLineBreak c with
      | true =>
          rw [List.splitOnPPrepend_cons_pos hbreak, List.splitOnPPrepend_cons_pos hbreak,
            List.flatMap_cons, List.flatMap_cons]
          exact congrArg _ (ih [])
      | false =>
          rw [List.splitOnPPrepend_cons_neg hbreak, List.splitOnPPrepend_cons_neg hbreak, ih]
  | case3 => exact fun line => rfl

theorem plain_of_mem_parseTokens {token text : Text} (h : token ∈ parseTokens text) :
    Plain token := by
  rw [parseTokens_eq] at h
  obtain ⟨line, hline, htoken⟩ := List.mem_flatMap.mp h
  obtain ⟨-, hbare, hsubset, -⟩ := Splits.mem_entries htoken
  refine ⟨hbare, fun c hc => Splits.eq_false_of_mem_splitOnP hline c ?_⟩
  exact (List.takeWhile_sublist _).subset (hsubset hc)

/-- Before the first comment sign a text has no comment. -/
theorem lineTokens_of_no_sign {part : Text} (h : ∀ c ∈ part, (c != '#') = true) :
    lineTokens part = Splits.entries isSpace (· == ',') part :=
  congrArg _ (List.takeWhile_eq_self_iff.mpr h)

theorem lineTokens_append_comment {part first : Text} (h : ∀ c ∈ part, (c != '#') = true)
    (hfirst : first = [] ∨ ∃ rest, first = '#' :: rest) :
    lineTokens (part ++ first) = Splits.entries isSpace (· == ',') part := by
  have hnil : first.takeWhile (· != '#') = [] := by
    obtain rfl | ⟨rest, rfl⟩ := hfirst
    · rfl
    · exact List.takeWhile_cons_of_neg (by decide)
  rw [lineTokens, List.takeWhile_append_of_pos h, hnil, List.append_nil]

/-- The first part of a comment starts with the sign. -/
theorem exists_comment_parts (line : Text) : ∃ first rest,
    (line.dropWhile (· != '#')).splitOnP isLineBreak = first :: rest ∧
      (first = [] ∨ ∃ comment, first = '#' :: comment) := by
  cases hcomment : line.dropWhile (· != '#') with
  | nil => exact ⟨[], [], rfl, .inl rfl⟩
  | cons c comment =>
      have hsign := List.head?_dropWhile_not (· != '#') line
      rw [hcomment] at hsign
      obtain rfl : c = '#' := by simpa using hsign
      obtain ⟨part, rest, hparts⟩ := Splits.exists_splitOnP_eq_cons isLineBreak comment
      exact ⟨'#' :: part, rest, Splits.splitOnP_cons_neg (by decide) hparts, .inr ⟨part, rfl⟩⟩

/-- What Python finds between two line feeds: the parts of each field before the comment sign, and
what stands on the lines that are in the comment. -/
theorem flatMap_lineTokens (line : Text) :
    (line.splitOnP isLineBreak).flatMap lineTokens =
      ((line.takeWhile (· != '#')).splitOn ',').flatMap (Splits.entries isSpace isLineBreak) ++
        ((line.dropWhile (· != '#')).splitOnP isLineBreak).tail.flatMap lineTokens := by
  have hsigns : ∀ c ∈ line.takeWhile (· != '#'), (c != '#') = true := fun c =>
    List.mem_takeWhile_imp
  obtain ⟨first, rest, hcomment, hfirst⟩ := exists_comment_parts line
  obtain ⟨init, last, first', rest', hbefore, hcomment', hline⟩ :=
    Splits.splitOnP_append isLineBreak (line.takeWhile (· != '#')) (line.dropWhile (· != '#'))
  obtain ⟨rfl, rfl⟩ := List.cons.inj (hcomment.symm.trans hcomment')
  rw [List.takeWhile_append_dropWhile] at hline
  have hparts : ∀ part ∈ init ++ [last], ∀ c ∈ part, (c != '#') = true := by
    intro part hpart c hc
    rw [← hbefore] at hpart
    exact hsigns c (Splits.subset_of_mem_splitOnP hpart hc)
  have hlast := lineTokens_append_comment
    (hparts last (List.mem_append_right _ (List.mem_singleton_self _))) hfirst
  have hinit : init.flatMap lineTokens = init.flatMap (Splits.entries isSpace (· == ',')) :=
    List.flatMap_congr fun part hpart =>
      lineTokens_of_no_sign (hparts part (List.mem_append_left _ hpart))
  calc (line.splitOnP isLineBreak).flatMap lineTokens
      = (init ++ [last]).flatMap (Splits.entries isSpace (· == ',')) ++ rest.flatMap lineTokens := by
        rw [hline, List.flatMap_append, List.flatMap_cons, hlast, hinit, List.flatMap_append,
          List.flatMap_singleton, List.append_assoc]
    _ = _ := by
        rw [← hbefore, Splits.flatMap_entries_comm, hcomment]
        rfl

/-! ### The tokens of the Rust relay, line by line -/

def Rust.lineTokens (line : Text) : List Text :=
  Splits.entries Rust.isWhitespace (· == ',') (line.takeWhile (· != '#'))

theorem Rust.lineTokens_withoutReturn (line : Text) :
    Rust.lineTokens (Rust.withoutReturn line) = Rust.lineTokens line.reverse := by
  unfold Rust.withoutReturn
  split
  · next line =>
      rw [List.reverse_cons, Rust.lineTokens, Rust.lineTokens, List.takeWhile_append]
      split
      · next hlength =>
          have hreturn : ∀ c ∈ ['\r'], Rust.isWhitespace c = true := fun c hc => by
            rw [List.mem_singleton.mp hc]
            rfl
          rw [(List.takeWhile_prefix _).eq_of_length hlength]
          exact (Splits.entries_append_right hreturn _ _).symm
      · rfl
  · rfl

theorem Rust.flatMap_linesAfter (line text : Text) :
    (Rust.linesAfter line text).flatMap Rust.lineTokens =
      (List.splitOnPPrepend (· == '\n') text line).flatMap Rust.lineTokens := by
  fun_induction Rust.linesAfter line text with
  | case1 => rfl
  | case2 line hline => rfl
  | case3 line rest ih =>
      rw [List.splitOnPPrepend_cons_pos (by decide), List.flatMap_cons, List.flatMap_cons, ih,
        Rust.lineTokens_withoutReturn]
      rfl
  | case4 line c rest hc ih =>
      have hbreak : (c == '\n') = false := beq_false_of_ne hc
      rw [List.splitOnPPrepend_cons_neg (p := (· == '\n')) hbreak, ih]

theorem Rust.fields_eq (text : Text) :
    Rust.fields text = (text.splitOn '\n').flatMap Rust.lineTokens := by
  rw [Rust.fields, List.map_flatMap, List.filter_flatMap]
  exact Rust.flatMap_linesAfter [] text

/-! ### The same tokens -/

/-- All that Rust trims, Python trims. -/
theorem isSpace_of_isWhitespace {c : Char} (h : Rust.isWhitespace c = true) :
    isSpace c = true := by
  simp only [Rust.isWhitespace, isSpace, Bool.or_eq_true, Bool.and_eq_true, beq_iff_eq,
    decide_eq_true_iff] at h ⊢
  omega

theorem Plain.trim_eq {token : Text} (h : Plain token) : Rust.trim token = token := by
  refine Splits.trim_of_bare (w := Rust.isWhitespace) ⟨fun c hc => ?_, fun c hc => ?_⟩
  · exact eq_false_of_ne_true fun hwhite =>
      Bool.false_ne_true ((h.bare.head c hc).symm.trans (isSpace_of_isWhitespace hwhite))
  · exact eq_false_of_ne_true fun hwhite =>
      Bool.false_ne_true ((h.bare.last c hc).symm.trans (isSpace_of_isWhitespace hwhite))

/-- Of a field that both read alike, each finds the one token. -/
theorem PlainField.entries_eq {field : Text} (h : PlainField field) :
    Splits.entries isSpace isLineBreak field = [Rust.trim field].filter (· ≠ []) := by
  obtain ⟨before, token, after, rfl, hbefore, hafter, hplain⟩ := h
  have htrim : Rust.trim (before ++ token ++ after) = token := by
    calc Rust.trim (before ++ token ++ after)
        = Rust.trim (before ++ token) := Splits.trim_append_right hafter _
      _ = Rust.trim token := Splits.trim_append_left hbefore _
      _ = token := hplain.trim_eq
  rw [Splits.entries_append_right fun c hc => isSpace_of_isWhitespace (hafter c hc),
    Splits.entries_append_left fun c hc => isSpace_of_isWhitespace (hbefore c hc),
    Splits.entries_of_none hplain.oneLine, Splits.trim_of_bare hplain.bare, htrim]

theorem plainField_of_plain {field : Text} (h : Plain (Rust.trim field)) : PlainField field := by
  obtain ⟨before, after, hfield, hbefore, hafter⟩ := Splits.trim_parts Rust.isWhitespace field
  exact ⟨before, Rust.trim field, after, hfield, hbefore, hafter, h⟩

theorem plain_nil : Plain [] := ⟨⟨nofun, nofun⟩, nofun⟩

/-- No token follows in a comment exactly where Python finds none. -/
theorem comment_plain_iff (line : Text) :
    ((line.dropWhile (· != '#')).splitOnP isLineBreak).tail.flatMap lineTokens = [] ↔
      ∀ part ∈ ((line.dropWhile (· != '#')).splitOnP isLineBreak).tail,
        ∀ c ∈ part.takeWhile (· != '#'), isSpace c = true ∨ c = ',' := by
  rw [List.flatMap_eq_nil_iff]
  refine forall₂_congr fun part _ => Splits.entries_eq_nil_iff.trans ?_
  exact forall₂_congr fun c _ => or_congr_right beq_iff_eq

theorem Rust.lineTokens_eq (line : Text) : Rust.lineTokens line =
    ((line.takeWhile (· != '#')).splitOn ',').flatMap fun field =>
      [Rust.trim field].filter (· ≠ []) := by
  rw [← List.filter_flatMap, ← List.map_eq_flatMap]
  rfl

theorem parseTokens_eq_flatMap (text : Text) :
    parseTokens text = (text.splitOn '\n').flatMap fun line =>
      ((line.takeWhile (· != '#')).splitOn ',').flatMap (Splits.entries isSpace isLineBreak) ++
        ((line.dropWhile (· != '#')).splitOnP isLineBreak).tail.flatMap lineTokens := by
  have hfeed : ∀ c : Char, (c == '\n') = true → isLineBreak c = true := by
    intro c hc
    rw [beq_iff_eq.mp hc]
    rfl
  rw [parseTokens_eq, ← Splits.flatMap_splitOnP_of_imp hfeed, List.flatMap_assoc]
  exact List.flatMap_congr fun line _ => flatMap_lineTokens line

/-- A line in which every field reads alike. -/
theorem lineTokens_of_plain {line : Text}
    (h : ∀ field ∈ (line.takeWhile (· != '#')).splitOn ',', PlainField field) :
    ((line.takeWhile (· != '#')).splitOn ',').flatMap (Splits.entries isSpace isLineBreak) =
      Rust.lineTokens line := by
  rw [Rust.lineTokens_eq]
  exact List.flatMap_congr fun field hfield => (h field hfield).entries_eq

/-- All the tokens that Rust reads are among those that Python reads: then no field has a line end of
Python in its token. -/
theorem plainField_of_subset {text line field : Text}
    (hsubset : Rust.fields text ⊆ parseTokens text) (hline : line ∈ text.splitOn '\n')
    (hfield : field ∈ (line.takeWhile (· != '#')).splitOn ',') : PlainField field := by
  apply plainField_of_plain
  by_cases hnil : Rust.trim field = []
  · rw [hnil]
    exact plain_nil
  refine plain_of_mem_parseTokens (hsubset ?_)
  rw [Rust.fields_eq]
  apply List.mem_flatMap_of_mem hline
  rw [Rust.lineTokens_eq]
  apply List.mem_flatMap_of_mem hfield
  exact List.mem_filter.mpr ⟨List.mem_singleton_self _, decide_eq_true hnil⟩

theorem fields_eq_iff (text : Text) : Rust.fields text = parseTokens text ↔ PlainText text := by
  constructor
  · intro heq line hline
    have hfields (line) (hline : line ∈ text.splitOn '\n') :
        ∀ field ∈ (line.takeWhile (· != '#')).splitOn ',', PlainField field := fun field =>
      plainField_of_subset (fun _ => heq ▸ id) hline
    refine ⟨hfields line hline, (comment_plain_iff line).mp ?_⟩
    -- The fields alone give as many tokens as Rust reads, so the comments give none.
    rw [Rust.fields_eq, parseTokens_eq_flatMap,
      ← List.flatMap_congr fun line hline => lineTokens_of_plain (hfields line hline)] at heq
    exact Splits.flatMap_append_eq heq.symm line hline
  · intro h
    rw [Rust.fields_eq, parseTokens_eq_flatMap]
    apply List.flatMap_congr
    intro line hline
    rw [lineTokens_of_plain (h line hline).fields, (comment_plain_iff line).mpr (h line hline).comment,
      List.append_nil]

/-! ### The token that is sent, at the Rust relay -/

theorem Rust.TokenSet.reload_tokens {ts : Rust.TokenSet} {path text : Text} {files : Files}
    (now : Instant) (hpath : ts.path = some path) (htext : (files path).bind File.read = some text)
    (hkept : ∀ file, files path = some file → some file.mtime = ts.mtime →
      ts.tokens = Rust.parseTokens text) :
    (ts.reload files now).path = some path ∧
      (ts.reload files now).tokens = Rust.parseTokens text := by
  obtain ⟨⟨mtime, content⟩, hfile, hread⟩ := Option.bind_eq_some_iff.mp htext
  obtain rfl : content = .text text := by
    cases content with
    | text content => exact congrArg Content.text (Option.some.inj hread)
    | unreadable => cases hread
    | undecodable => cases hread
  have hsome : ts.path.bind files = some ⟨mtime, .text text⟩ := by rw [hpath]; exact hfile
  unfold Rust.TokenSet.reload
  dsimp only
  rw [hsome]
  dsimp only
  split
  · next htime => exact ⟨hpath, hkept _ hfile htime⟩
  · exact ⟨hpath, rfl⟩

/-- A relay answers from the text of its setting, whether it re-checks a file or not. -/
theorem Rust.TokenSet.new_accepts {files later : Files} {spec text : Text} {started now : Instant}
    {given : Bytes} (hstart : settingText files spec = some text)
    (hlater : settingText later spec = some text) :
    ((Rust.TokenSet.new files started spec).accepts later now given).1 = true ↔
      given ∈ Rust.parseTokens text := by
  unfold settingText at hstart
  split at hstart
  · next path =>
      have hnew : Rust.TokenSet.new files started ('@' :: path) =
          Rust.TokenSet.reload ⟨some path, [], none, none⟩ files started := rfl
      obtain ⟨hpath, htokens⟩ : (Rust.TokenSet.new files started ('@' :: path)).path = some path ∧
          (Rust.TokenSet.new files started ('@' :: path)).tokens = Rust.parseTokens text := by
        rw [hnew]
        exact Rust.TokenSet.reload_tokens started rfl hstart fun _ _ htime => nomatch htime
      rw [Rust.TokenSet.accepts, Rust.holds_iff]
      split
      · rw [(Rust.TokenSet.reload_tokens now hpath hlater fun _ _ _ => htokens).2]
      · rw [htokens]
  · next hspec =>
      obtain rfl := Option.some.inj hstart
      have hnew : Rust.TokenSet.new files started spec =
          ⟨none, Rust.parseTokens spec, none, none⟩ := by
        unfold Rust.TokenSet.new
        split
        · next path => exact absurd rfl (hspec path)
        · rfl
      rw [hnew]
      exact Rust.holds_iff

theorem firstToken_mem {files : Files} {spec text token : Text}
    (htext : settingText files spec = some text)
    (h : firstToken files (some spec) = some (some token)) : token ∈ parseTokens text := by
  unfold settingText at htext
  split at htext
  · next path =>
      obtain ⟨tokens, htokens, hhead⟩ := Option.map_eq_some_iff.mp h
      rw [readFile, htext, Option.map_some, parseTokens_universalNewlines] at htokens
      obtain rfl := Option.some.inj htokens
      exact List.mem_of_head? hhead
  · next hpath =>
      obtain rfl := Option.some.inj htext
      unfold firstToken at h
      split at h
      · cases h
      · cases h
      · next path hspec => exact absurd (Option.some.inj hspec) (hpath path)
      · next spec' _ _ hspec =>
          obtain rfl := Option.some.inj hspec
          exact List.mem_of_head? (Option.some.inj h)

/-- A setting means the same on both sides exactly where its text is read alike. -/
theorem meansSame_iff (text : Text) : MeansSame text ↔ PlainText text := by
  rw [← fields_eq_iff]
  constructor
  · exact fun h => List.map_injective_iff.mpr (fun _ _ => Rust.utf8_injective) h.tokens
  · intro h
    have htokens : Rust.parseTokens text = (parseTokens text).map Rust.utf8 := congrArg _ h
    refine ⟨htokens, fun sent files later spec token started now hsent hstart hlater hfirst => ?_⟩
    rw [Rust.TokenSet.new_accepts hstart hlater, htokens]
    exact List.mem_map_of_mem (firstToken_mem hsent hfirst)

/-- A new token and an old one with a carriage return between them. -/
def returnBetween : Text := ['n', 'e', 'w', '\r', 'o', 'l', 'd']

/-- Python sends the new token, and the relay waits for one of seven characters. -/
theorem return_between_refused : ¬ MeansSame returnBetween ∧
    firstToken (fun _ => none) (some returnBetween) = some (some ['n', 'e', 'w']) ∧
    ((Rust.TokenSet.new (fun _ => none) 0 returnBetween).accepts (fun _ => none) 0
      (Rust.utf8 ['n', 'e', 'w'])).1 = false := by
  have hrefused : ((Rust.TokenSet.new (fun _ => none) 0 returnBetween).accepts (fun _ => none) 0
      (Rust.utf8 ['n', 'e', 'w'])).1 = false := by
    apply eq_false_of_ne_true
    have hanswer := @Rust.TokenSet.new_accepts (fun _ => none) (fun _ => none) returnBetween
      returnBetween 0 0 (Rust.utf8 ['n', 'e', 'w']) rfl rfl
    rw [hanswer]
    have hfields : Rust.fields returnBetween = [returnBetween] := by decide
    rw [Rust.parseTokens, hfields, List.map_singleton, List.mem_singleton]
    exact fun h => absurd (Rust.utf8_injective h) (by decide)
  refine ⟨fun h => ?_, rfl, hrefused⟩
  have haccepted := h.accepted (fun _ => none) (fun _ => none) (fun _ => none) returnBetween
    ['n', 'e', 'w'] 0 0 rfl rfl rfl rfl
  exact Bool.false_ne_true (hrefused.symm.trans haccepted)

end Distllm.Auth
