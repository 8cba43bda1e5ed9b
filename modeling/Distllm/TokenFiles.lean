import Distllm.RustTokens
import Distllm.Watch

/-! Token files over time: what is on the disk when `accepts` is called, in both relays. A relay is
meant to answer from the last content that it could read; the Python relay does unless it finds
bytes that are no UTF-8, for which it has no handler. -/

namespace Distllm.Auth

open Relay (Bytes)

variable {α β : Type}

/-! ### What the answers are meant to be -/

/-- A call of `accepts`, and the files that there are at that time. -/
structure Call (α : Type) where
  files : Files
  now : Instant
  value : α

def Content.read : Content → Option Text
  | .text content => some content
  | _ => none

def File.read (file : File) : Option Text := file.content.read

/-- When the file was checked, and the last content of it that could be read. -/
structure LastGood where
  checked : Instant
  content : Option Text

/-- Whether the file is re-checked at this time. -/
def LastGood.rechecks (last : LastGood) (now : Instant) : Prop := reloadInterval ≤ now - last.checked

instance (last : LastGood) (now : Instant) : Decidable (last.rechecks now) :=
  inferInstanceAs (Decidable (_ ≤ _))

def LastGood.check (path : Text) (files : Files) (now : Instant) (last : LastGood) : LastGood :=
  ⟨now, ((files path).bind File.read).or last.content⟩

/-- Refusal as long as nothing has been read. -/
def LastGood.tokens (tokensOf : Text → List α) (last : LastGood) : List α :=
  (last.content.map tokensOf).getD []

def LastGood.accepts [DecidableEq α] (tokensOf : Text → List α) (last : LastGood) (value : α) :
    Bool :=
  decide (value ∈ last.tokens tokensOf)

theorem LastGood.accepts_iff [DecidableEq α] {tokensOf : Text → List α} {last : LastGood}
    {value : α} : last.accepts tokensOf value = true ↔ value ∈ last.tokens tokensOf :=
  decide_eq_true_iff

def expected [DecidableEq α] (tokensOf : Text → List α) (path : Text) :
    LastGood → List (Call α) → List Bool
  | _, [] => []
  | last, call :: rest =>
    let last := if last.rechecks call.now then last.check path call.files call.now else last
    last.accepts tokensOf call.value :: expected tokensOf path last rest

/-- What is at the path is not a file of bytes that are no UTF-8. -/
def DecodableAt (path : Text) (files : Files) : Prop :=
  ∀ file, files path = some file → file.content ≠ .undecodable

/-- No re-check finds bytes that are no UTF-8. -/
def Decodable (path : Text) : LastGood → List (Call α) → Prop
  | _, [] => True
  | last, call :: rest =>
    if last.rechecks call.now then
      DecodableAt path call.files ∧ Decodable path (last.check path call.files call.now) rest
    else Decodable path last rest

/-- What is found at the path in the course of time. -/
def found (path : Text) (first : Files) (calls : List (Call α)) : List (Option File) :=
  first path :: calls.map fun call => call.files path

/-- A changed content has a changed time, whether the content is UTF-8 or not. -/
def ChangesShow (files : List (Option File)) : Prop :=
  ∀ f g, some f ∈ files → some g ∈ files → f.mtime = g.mtime →
    f.content ≠ .unreadable → g.content ≠ .unreadable → f.content = g.content

theorem ChangesShow.timely {files : List (Option File)} (h : ChangesShow files) :
    Watch.Timely File.mtime File.read files := by
  intro f g hf hg htime a b ha hb
  have hcontent := h f g hf hg htime
  obtain ⟨ftime, fcontent⟩ := f
  obtain ⟨gtime, gcontent⟩ := g
  cases fcontent with
  | unreadable => cases ha
  | undecodable => cases ha
  | text content =>
      have hsame := hcontent (fun h => nomatch h) (fun h => by cases h; cases hb)
      dsimp only at hsame
      subst hsame
      exact Option.some.inj (ha.symm.trans hb)

theorem ChangesShow.of_subset {files more : List (Option File)} (h : ChangesShow more)
    (hsubset : files ⊆ more) : ChangesShow files :=
  fun f g hf hg => h f g (hsubset hf) (hsubset hg)

/-! ### The answers of the two relays -/

def TokenSet.answers (ts : TokenSet) : List (Call Text) → List (Option Bool)
  | [] => []
  | call :: rest =>
    let (answer, ts) := ts.accepts call.files call.now call.value
    answer :: ts.answers rest

/-- The answers of a token set from its making on; none when the constructor raises. -/
def TokenSet.history (first : Files) (start : Instant) (spec : Text) (calls : List (Call Text)) :
    Option (List (Option Bool)) :=
  match TokenSet.init first start (some spec) with
  | (none, _) => none
  | (some (), ts) => some (ts.answers calls)

def Rust.TokenSet.answers (ts : Rust.TokenSet) : List (Call Bytes) → List Bool
  | [] => []
  | call :: rest =>
    let (answer, ts) := ts.accepts call.files call.now call.value
    answer :: ts.answers rest

/-! ### What a token set has to do with the files it has seen -/

/-- The tokens are those of the last content, the time is that of the file it was read from. -/
structure Current (tokensOf : Text → List β) (seen : List (Option File)) (last : LastGood)
    (tokens : List β) (mtime : Option Nat) : Prop where
  watch : Watch.Tracks File.mtime File.read seen ⟨last.content, mtime⟩
  tokens : tokens = last.tokens tokensOf

theorem current_fresh (tokensOf : Text → List β) (now : Instant) :
    Current tokensOf [] ⟨now, none⟩ [] none :=
  ⟨Watch.tracks_fresh, rfl⟩

variable {tokensOf : Text → List β} {seen : List (Option File)} {last : LastGood} {tokens : List β}
  {mtime : Option Nat} {path : Text} {files : Files} {now : Instant}

/-- A re-check that finds no new content: there is no file, or the file that is known, or one that
cannot be read. -/
theorem Current.kept (h : Current tokensOf seen last tokens mtime)
    (hshow : ChangesShow (seen ++ [files path]))
    (hfiles : ∀ file, files path = some file → some file.mtime = mtime ∨ file.read = none) :
    Current tokensOf (seen ++ [files path]) (last.check path files now) tokens mtime := by
  have htracks := h.watch.look hshow.timely
  have hlook : Watch.look File.mtime File.read ⟨last.content, mtime⟩ (files path) =
      ⟨last.content, mtime⟩ := by
    cases hfile : files path with
    | none => rfl
    | some file =>
        unfold Watch.look
        rcases hfiles file hfile with htime | hread
        · exact if_pos htime
        · dsimp only
          rw [hread]
          exact ite_self _
  rw [hlook] at htracks
  have hcontent : last.content = (last.check path files now).content := by
    have hvalue := htracks.value
    rw [Watch.lastRead_append, ← h.watch.value] at hvalue
    exact hvalue
  rw [hcontent] at htracks
  refine ⟨htracks, h.tokens.trans ?_⟩
  rw [LastGood.tokens, hcontent]
  rfl

theorem Current.absent (h : Current tokensOf seen last tokens mtime)
    (hshow : ChangesShow (seen ++ [files path])) (hfile : files path = none) :
    Current tokensOf (seen ++ [files path]) (last.check path files now) tokens mtime := by
  apply h.kept hshow
  intro file hsome
  rw [hfile] at hsome
  cases hsome

theorem Current.known (h : Current tokensOf seen last tokens mtime)
    (hshow : ChangesShow (seen ++ [files path])) {file : File} (hfile : files path = some file)
    (htime : some file.mtime = mtime) :
    Current tokensOf (seen ++ [files path]) (last.check path files now) tokens mtime := by
  apply h.kept hshow
  intro f hf
  obtain rfl := Option.some.inj (hfile.symm.trans hf)
  exact .inl htime

theorem Current.unread (h : Current tokensOf seen last tokens mtime)
    (hshow : ChangesShow (seen ++ [files path])) {file : File} (hfile : files path = some file)
    (hread : file.read = none) :
    Current tokensOf (seen ++ [files path]) (last.check path files now) tokens mtime := by
  apply h.kept hshow
  intro f hf
  obtain rfl := Option.some.inj (hfile.symm.trans hf)
  exact .inr hread

/-- A re-check that finds a file with another time and reads it. -/
theorem Current.replaced (h : Current tokensOf seen last tokens mtime)
    (hshow : ChangesShow (seen ++ [files path])) {file : File} {content : Text}
    (hfile : files path = some file) (htime : some file.mtime ≠ mtime)
    (hcontent : file.content = .text content) :
    Current tokensOf (seen ++ [files path]) (last.check path files now) (tokensOf content)
      (some file.mtime) := by
  have htracks := h.watch.look hshow.timely
  have hread : file.read = some content := by
    rw [File.read, hcontent]
    rfl
  have hcheck : last.check path files now = ⟨now, some content⟩ := by
    rw [LastGood.check, hfile, Option.bind_some, hread, Option.some_or]
  have hlook : Watch.look File.mtime File.read ⟨last.content, mtime⟩ (files path) =
      ⟨some content, some file.mtime⟩ := by
    rw [hfile, Watch.look, if_neg htime, hread]
  rw [hlook] at htracks
  rw [hcheck]
  exact ⟨htracks, rfl⟩

/-- Bytes that are no UTF-8 never have the time of what was read last. -/
theorem Current.undecodable_changed (h : Current tokensOf seen last tokens mtime)
    (hshow : ChangesShow (seen ++ [files path])) {file : File} (hfile : files path = some file)
    (hcontent : file.content = .undecodable) : some file.mtime ≠ mtime := by
  intro htime
  obtain ⟨f, hf, hftime, a, ha, -⟩ := h.watch.seen _ htime.symm
  have hmem : some file ∈ seen ++ [files path] := by
    rw [hfile]
    exact List.mem_append_right _ (List.mem_singleton.mpr rfl)
  have hsame := hshow f file (List.mem_append_left _ hf) hmem hftime
    (fun h => by rw [File.read, h] at ha; cases ha) (fun h => by rw [hcontent] at h; cases h)
  rw [File.read, hsame, hcontent] at ha
  cases ha

/-- A re-check of the Python relay reads as it is meant to, and raises for bytes that are no
UTF-8. -/
theorem TokenSet.reload_current {ts : TokenSet} (hpath : ts.path = some path)
    (h : Current parseTokens seen last ts.tokens ts.mtime)
    (hshow : ChangesShow (seen ++ [files path])) :
    ((ts.reload files now).1 = none ↔
      ∃ file, files path = some file ∧ file.content = .undecodable) ∧
    (ts.reload files now).2.path = some path ∧ (ts.reload files now).2.checked = some now ∧
    Current parseTokens (seen ++ [files path]) (last.check path files now)
      (ts.reload files now).2.tokens (ts.reload files now).2.mtime := by
  have hundecodable := @Current.undecodable_changed _ _ _ _ _ _ _ _ h hshow
  obtain ⟨spec, _, tokens, mtime, checked⟩ := ts
  subst hpath
  dsimp only at h hundecodable
  simp only [TokenSet.reload, Option.bind_some]
  cases hfile : files path with
  | none =>
      dsimp only
      refine ⟨iff_of_false (fun h => nomatch h) (fun ⟨_, hsome, _⟩ => by cases hsome), rfl, rfl, ?_⟩
      rw [← hfile]
      exact h.absent hshow hfile
  | some file =>
      dsimp only
      by_cases htime : some file.mtime = mtime
      · rw [if_pos htime]
        refine ⟨iff_of_false (fun h => nomatch h) fun ⟨_, hsome, hcontent⟩ => ?_, rfl, rfl, ?_⟩
        · obtain rfl := Option.some.inj hsome
          exact hundecodable hfile hcontent htime
        · rw [← hfile]
          exact h.known hshow hfile htime
      · rw [if_neg htime]
        cases hcontent : file.content with
        | text content =>
            refine ⟨iff_of_false (fun h => nomatch h) fun ⟨_, hsome, hno⟩ => ?_, rfl, rfl, ?_⟩
            · obtain rfl := Option.some.inj hsome
              rw [hcontent] at hno
              cases hno
            · rw [← hfile]
              exact h.replaced hshow hfile htime hcontent
        | unreadable =>
            refine ⟨iff_of_false (fun h => nomatch h) fun ⟨_, hsome, hno⟩ => ?_, rfl, rfl, ?_⟩
            · obtain rfl := Option.some.inj hsome
              rw [hcontent] at hno
              cases hno
            · rw [← hfile]
              exact h.unread hshow hfile (by rw [File.read, hcontent]; rfl)
        | undecodable =>
            refine ⟨iff_of_true rfl ⟨file, rfl, hcontent⟩, rfl, rfl, ?_⟩
            rw [← hfile]
            exact h.unread hshow hfile (by rw [File.read, hcontent]; rfl)

/-- A re-check of the Rust relay reads as it is meant to, whatever it finds. -/
theorem Rust.TokenSet.reload_current {ts : Rust.TokenSet} (hpath : ts.path = some path)
    (h : Current Rust.parseTokens seen last ts.tokens ts.mtime)
    (hshow : ChangesShow (seen ++ [files path])) :
    (ts.reload files now).path = some path ∧ (ts.reload files now).checked = some now ∧
    Current Rust.parseTokens (seen ++ [files path]) (last.check path files now)
      (ts.reload files now).tokens (ts.reload files now).mtime := by
  obtain ⟨_, tokens, mtime, checked⟩ := ts
  subst hpath
  dsimp only at h
  simp only [Rust.TokenSet.reload, Option.bind_some]
  cases hfile : files path with
  | none =>
      dsimp only
      refine ⟨rfl, rfl, ?_⟩
      rw [← hfile]
      exact h.absent hshow hfile
  | some file =>
      dsimp only
      by_cases htime : some file.mtime = mtime
      · rw [if_pos htime]
        refine ⟨rfl, rfl, ?_⟩
        rw [← hfile]
        exact h.known hshow hfile htime
      · rw [if_neg htime]
        cases hcontent : file.content with
        | text content =>
            refine ⟨rfl, rfl, ?_⟩
            rw [← hfile]
            exact h.replaced hshow hfile htime hcontent
        | unreadable =>
            refine ⟨rfl, rfl, ?_⟩
            rw [← hfile]
            exact h.unread hshow hfile (by rw [File.read, hcontent]; rfl)
        | undecodable =>
            refine ⟨rfl, rfl, ?_⟩
            rw [← hfile]
            exact h.unread hshow hfile (by rw [File.read, hcontent]; rfl)

/-! ### Histories -/

theorem TokenSet.holds_accepts {ts : TokenSet} (h : ts.tokens = last.tokens parseTokens)
    (value : Text) : ts.holds value = last.accepts parseTokens value := by
  rw [Bool.eq_iff_iff, LastGood.accepts_iff, TokenSet.holds, decide_eq_true_iff, h,
    List.count_pos_iff]

/-- From a token set that is up to date on, the Python relay answers as it is meant to exactly when
no re-check finds bytes that are no UTF-8. -/
theorem TokenSet.answers_iff {ts : TokenSet} (calls : List (Call Text)) (hpath : ts.path = some path)
    (hchecked : ts.checked = some last.checked)
    (h : Current parseTokens seen last ts.tokens ts.mtime)
    (hshow : ChangesShow (seen ++ calls.map fun call => call.files path)) :
    ts.answers calls = (expected parseTokens path last calls).map some ↔
      Decodable path last calls := by
  induction calls generalizing ts last seen with
  | nil => exact iff_of_true rfl trivial
  | cons call rest ih =>
      have hdue : ts.due call.now = decide (last.rechecks call.now) := by
        rw [TokenSet.due, hpath, hchecked]
        rfl
      rw [TokenSet.answers, TokenSet.accepts, expected, Decodable, hdue, List.map_cons]
      by_cases hrecheck : last.rechecks call.now
      · rw [if_pos (decide_eq_true hrecheck), if_pos hrecheck, if_pos hrecheck]
        rw [List.map_cons, List.append_cons] at hshow
        obtain ⟨hraises, hpath', hchecked', hcurrent⟩ := @TokenSet.reload_current _ _ _ _ call.now _
          hpath h (hshow.of_subset (List.subset_append_left _ _))
        generalize ts.reload call.files call.now = reloaded at hraises hpath' hchecked' hcurrent
        obtain ⟨_ | _, ts'⟩ := reloaded
        · -- the re-check has raised
          obtain ⟨file, hfile, hcontent⟩ := hraises.mp rfl
          refine iff_of_false (fun heq => ?_) fun hall => hall.1 file hfile hcontent
          cases (List.cons.inj heq).1
        · have hdecodable : DecodableAt path call.files :=
            fun file hfile hcontent => nomatch hraises.mpr ⟨file, hfile, hcontent⟩
          dsimp only at hpath' hchecked' hcurrent ⊢
          rw [List.cons.injEq, ts'.holds_accepts hcurrent.tokens, and_iff_right rfl,
            ih hpath' hchecked' hcurrent hshow, and_iff_right hdecodable]
      · rw [if_neg fun h => hrecheck (of_decide_eq_true h), if_neg hrecheck, if_neg hrecheck]
        have hrest : ChangesShow (seen ++ rest.map fun call => call.files path) :=
          hshow.of_subset (List.append_subset.mpr ⟨List.subset_append_left _ _,
            List.Subset.trans (List.subset_cons_self _ _) (List.subset_append_right _ _)⟩)
        dsimp only
        rw [List.cons.injEq, ts.holds_accepts h.tokens, and_iff_right rfl,
          ih hpath hchecked h hrest]

theorem Rust.TokenSet.holds_accepts {ts : Rust.TokenSet}
    (h : ts.tokens = last.tokens Rust.parseTokens) (given : Bytes) :
    ts.holds given = last.accepts Rust.parseTokens given := by
  rw [Bool.eq_iff_iff, LastGood.accepts_iff, Rust.holds_iff, h]

/-- The Rust relay answers as it is meant to. -/
theorem Rust.TokenSet.answers_eq {ts : Rust.TokenSet} (calls : List (Call Bytes))
    (hpath : ts.path = some path) (hchecked : ts.checked = some last.checked)
    (h : Current Rust.parseTokens seen last ts.tokens ts.mtime)
    (hshow : ChangesShow (seen ++ calls.map fun call => call.files path)) :
    ts.answers calls = expected Rust.parseTokens path last calls := by
  induction calls generalizing ts last seen with
  | nil => rfl
  | cons call rest ih =>
      have hdue : ts.due call.now = decide (last.rechecks call.now) := by
        rw [Rust.TokenSet.due, hpath, hchecked]
        rfl
      rw [List.map_cons] at hshow
      rw [Rust.TokenSet.answers, Rust.TokenSet.accepts, expected, hdue]
      by_cases hrecheck : last.rechecks call.now
      · rw [if_pos (decide_eq_true hrecheck), if_pos hrecheck]
        rw [List.append_cons] at hshow
        obtain ⟨hpath', hchecked', hcurrent⟩ := @Rust.TokenSet.reload_current _ _ _ _ call.now _
          hpath h (hshow.of_subset (List.subset_append_left _ _))
        dsimp only
        rw [Rust.TokenSet.holds_accepts hcurrent.tokens, ih hpath' hchecked' hcurrent hshow]
      · rw [if_neg fun h => hrecheck (of_decide_eq_true h), if_neg hrecheck]
        have hrest : ChangesShow (seen ++ rest.map fun call => call.files path) :=
          hshow.of_subset (List.append_subset.mpr ⟨List.subset_append_left _ _,
            List.Subset.trans (List.subset_cons_self _ _) (List.subset_append_right _ _)⟩)
        dsimp only
        rw [Rust.TokenSet.holds_accepts h.tokens, ih hpath hchecked h hrest]

/-- What both relays know when the token set has been made. -/
def firstLook (path : Text) (files : Files) (now : Instant) : LastGood :=
  ⟨now, (files path).bind File.read⟩

/-- With a token file, in every history: the constructor of the Python relay's token set does not
raise and every call is answered from the last content that could be read exactly when neither the
first reading nor a re-check finds bytes that are no UTF-8; the Rust relay always answers so. -/
theorem answers_last_good (c : Char) (name : Text) (first : Files) (start : Instant) :
    (∀ calls : List (Call Text), ChangesShow (found (c :: name) first calls) →
      (TokenSet.history first start ('@' :: c :: name) calls =
          some ((expected parseTokens (c :: name) (firstLook (c :: name) first start) calls).map
            some) ↔
        DecodableAt (c :: name) first ∧
          Decodable (c :: name) (firstLook (c :: name) first start) calls)) ∧
    ∀ calls : List (Call Bytes), ChangesShow (found (c :: name) first calls) →
      (Rust.TokenSet.new first start ('@' :: c :: name)).answers calls =
        expected Rust.parseTokens (c :: name) (firstLook (c :: name) first start) calls := by
  have hcheck : LastGood.check (c :: name) first start ⟨start, none⟩ =
      firstLook (c :: name) first start := by
    rw [LastGood.check, Option.or_none]
    rfl
  refine ⟨fun calls hshow => ?_, fun calls hshow => ?_⟩
  · have hfirst := @TokenSet.reload_current [] ⟨start, none⟩ (c :: name) first start
      ⟨some ('@' :: c :: name), some (c :: name), [], none, none⟩ rfl (current_fresh _ _)
      (hshow.of_subset (by rw [found]; simp))
    rw [hcheck] at hfirst
    rw [TokenSet.history, TokenSet.init]
    obtain ⟨hraises, hpath, hchecked, hcurrent⟩ := hfirst
    generalize TokenSet.reload _ first start = made at hraises hpath hchecked hcurrent ⊢
    obtain ⟨_ | _, ts⟩ := made
    · -- the constructor has raised
      obtain ⟨file, hfile, hcontent⟩ := hraises.mp rfl
      exact iff_of_false (fun heq => nomatch heq) fun hall => hall.1 file hfile hcontent
    · have hdecodable : DecodableAt (c :: name) first :=
        fun file hfile hcontent => nomatch hraises.mpr ⟨file, hfile, hcontent⟩
      dsimp only
      rw [Option.some.injEq, and_iff_right hdecodable]
      exact ts.answers_iff calls hpath hchecked hcurrent hshow
  · have hfirst := @Rust.TokenSet.reload_current [] ⟨start, none⟩ (c :: name) first start
      ⟨some (c :: name), [], none, none⟩ rfl (current_fresh _ _)
      (hshow.of_subset (by rw [found]; simp))
    rw [hcheck] at hfirst
    obtain ⟨hpath, hchecked, hcurrent⟩ := hfirst
    exact Rust.TokenSet.answers_eq calls hpath hchecked hcurrent hshow

/-- A disk with one file, under this path. -/
def onlyFile (path : Text) (mtime : Nat) (content : Content) : Files := fun name =>
  if name = path then some ⟨mtime, content⟩ else none

/-- Two states of a file at different times show the change. -/
theorem changesShow_pair {f g : File} (h : f.mtime ≠ g.mtime) :
    ChangesShow [some f, some g] := by
  intro x y hx hy htime _ _
  simp only [List.mem_cons, Option.some.injEq, List.not_mem_nil, or_false] at hx hy
  rcases hx with rfl | rfl <;> rcases hy with rfl | rfl
  · rfl
  · exact absurd htime h
  · exact absurd htime.symm h
  · rfl

/-- The token is replaced in the file, and a second later the new one is used. -/
theorem answers_last_good_rotated :
    let first := onlyFile ['t'] 1 (.text ['a'])
    let later := onlyFile ['t'] 2 (.text ['b'])
    TokenSet.history first 0 ['@', 't'] [⟨first, 0, ['a']⟩, ⟨later, 1000000000, ['b']⟩] =
      some [some true, some true] ∧
    (Rust.TokenSet.new first 0 ['@', 't']).answers
      [⟨first, 0, [97]⟩, ⟨later, 1000000000, [98]⟩] = [true, true] := by
  intro first later
  have hpair : ChangesShow [some ⟨1, .text ['a']⟩, some ⟨2, .text ['b']⟩] :=
    changesShow_pair (by decide)
  have hshow : ChangesShow [some ⟨1, .text ['a']⟩, some ⟨1, .text ['a']⟩, some ⟨2, .text ['b']⟩] :=
    hpair.of_subset (by simp)
  have hfirst : DecodableAt ['t'] first := fun file hfile hcontent => by
    cases hfile
    cases hcontent
  have hlater : DecodableAt ['t'] later := fun file hfile hcontent => by
    cases hfile
    cases hcontent
  obtain ⟨hpython, hrust⟩ := answers_last_good 't' [] first 0
  refine ⟨?_, ?_⟩
  · rw [(hpython [⟨first, 0, ['a']⟩, ⟨later, 1000000000, ['b']⟩] hshow).mpr
      ⟨hfirst, hlater, trivial⟩]
    rfl
  · rw [hrust [⟨first, 0, [97]⟩, ⟨later, 1000000000, [98]⟩] hshow]
    decide

/-- The file is replaced by bytes that are no UTF-8. -/
theorem undecodable_file_raises :
    let first := onlyFile ['t'] 1 (.text ['a'])
    let later := onlyFile ['t'] 2 .undecodable
    ChangesShow (found ['t'] first [⟨later, 1000000000, ['a']⟩]) ∧
      TokenSet.history first 0 ['@', 't'] [⟨later, 1000000000, ['a']⟩] = some [none] :=
  ⟨changesShow_pair (by decide), rfl⟩

end Distllm.Auth
