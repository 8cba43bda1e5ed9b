import Distllm.Url

/-! The tokens that one side of the relay accepts (`auth.py`): one token, several, or a file that is
read again when it has changed. The clock counts nanoseconds. -/

namespace Distllm.Auth

/-! ### Text -/

/-- What `str.isspace` accepts. -/
def isSpace (c : Char) : Bool :=
  (9 ≤ c.toNat && c.toNat ≤ 13) || (28 ≤ c.toNat && c.toNat ≤ 32) || c.toNat == 133
    || c.toNat == 160 || c.toNat == 5760 || (8192 ≤ c.toNat && c.toNat ≤ 8202) || c.toNat == 8232 || c.toNat == 8233
    || c.toNat == 8239 || c.toNat == 8287 || c.toNat == 12288

/-- `str.strip` -/
def strip (text : Text) : Text :=
  ((text.dropWhile isSpace).reverse.dropWhile isSpace).reverse

/-- Where `str.splitlines` ends a line. -/
def isLineBreak (c : Char) : Bool :=
  (10 ≤ c.toNat && c.toNat ≤ 13) || (28 ≤ c.toNat && c.toNat ≤ 30) || c.toNat == 133
    || c.toNat == 8232 || c.toNat == 8233

/-- `str.splitlines`, with the line read so far in reverse. The text after the last line end is a
line unless it is empty. -/
def splitLinesAfter : Text → Text → List Text
  | line, [] => if line = [] then [] else [line.reverse]
  | line, '\r' :: '\n' :: rest => line.reverse :: splitLinesAfter [] rest
  | line, c :: rest =>
    if isLineBreak c then line.reverse :: splitLinesAfter [] rest
    else splitLinesAfter (c :: line) rest

def splitLines (text : Text) : List Text := splitLinesAfter [] text

def parseTokens (text : Text) : List Text :=
  (splitLines text).flatMap fun line =>
    (((line.takeWhile (· != '#')).splitOn ',').map strip).filter (· ≠ [])

/-! ### Token files -/

/-- What opening and reading a file comes to: its text, an `OSError`, or bytes that are no UTF-8. -/
inductive Content where
  | text (content : Text)
  | unreadable
  | undecodable

structure File where
  mtime : Nat
  content : Content

/-- The file at each path, where there is one to be found. -/
abbrev Files := Text → Option File

abbrev Instant := Nat

/-- `RELOAD_INTERVAL`, one second -/
def reloadInterval : Nat := 1000000000

/-! ### Token sets -/

/-- `checked` has no value as long as the file has not been looked at. -/
structure TokenSet where
  spec : Option Text
  path : Option Text
  tokens : List Text
  mtime : Option Nat
  checked : Option Instant

namespace TokenSet

def enabled (ts : TokenSet) : Bool := ts.spec.isSome

/-- `_reload`; no result when reading raises: only an `OSError` is caught. -/
def reload (ts : TokenSet) (files : Files) (now : Instant) : Option Unit × TokenSet :=
  let ts := { ts with checked := some now }
  match ts.path.bind files with
  | none => (some (), ts)
  | some file =>
    if some file.mtime = ts.mtime then (some (), ts)
    else match file.content with
      | .text content =>
        (some (), { ts with tokens := parseTokens content, mtime := some file.mtime })
      | .unreadable => (some (), ts)
      | .undecodable => (none, ts)

/-- `TokenSet(spec)`, made at this time. An empty spec is none, and an empty path is no file. -/
def init (files : Files) (now : Instant) (spec : Option Text) : Option Unit × TokenSet :=
  match spec with
  | none | some [] => (some (), ⟨none, none, [], none, none⟩)
  | some ('@' :: c :: path) =>
    reload ⟨some ('@' :: c :: path), some (c :: path), [], none, none⟩ files now
  | some spec => (some (), ⟨some spec, none, parseTokens spec, none, none⟩)

/-- Whether the file is to be looked at again. -/
def due (ts : TokenSet) (now : Instant) : Bool :=
  ts.path.isSome && ts.checked.all fun checked => reloadInterval ≤ now - checked

/-- The last line of `accepts`: the value is compared with every token. -/
def holds (ts : TokenSet) (value : Text) : Bool := 0 < ts.tokens.count value

def accepts (ts : TokenSet) (files : Files) (now : Instant) (value : Text) :
    Option Bool × TokenSet :=
  if ts.due now then
    match ts.reload files now with
    | (none, ts) => (none, ts)
    | (some (), ts) => (some (ts.holds value), ts)
  else (some (ts.holds value), ts)

end TokenSet

end Distllm.Auth
