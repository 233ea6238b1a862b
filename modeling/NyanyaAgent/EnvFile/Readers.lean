import NyanyaAgent.Text.Dumps
import NyanyaAgent.Text.Strip
import Mathlib.Data.List.Basic

/-!
# Environment files

The four readers of an environment file: `parseEnvText` of the command line, `load_env`,
the token's `_configuration` and the database setting of `configured_paths`.
-/
namespace NyanyaAgent.EnvFile
open NyanyaAgent.Text

local instance lawfulKeys : LawfulBEq (List Char) := inferInstance

abbrev Settings := List Char → Option (List Char)

/-- White space of `String.prototype.trim`. -/
def jsSpace (c : Char) : Bool :=
  c.toNat ∈ [9, 10, 11, 12, 13, 32, 160, 5760, 8232, 8233, 8239, 8287, 12288, 65279] ||
    (8192 ≤ c.toNat && c.toNat ≤ 8202)

/-- `str.isspace`. -/
def pySpace (c : Char) : Bool :=
  c.toNat ∈ [9, 10, 11, 12, 13, 28, 29, 30, 31, 32, 133, 160, 5760, 8232, 8233, 8239, 8287,
    12288] || (8192 ≤ c.toNat && c.toNat ≤ 8202)

/-- The line ends of `str.splitlines`. -/
def pyBreak (c : Char) : Bool := c.toNat ∈ [10, 11, 12, 13, 28, 29, 30, 133, 8232, 8233]

/-- `text.split(/\r?\n/)`, with the line read so far. -/
def tsLinesFrom (line : List Char) : List Char → List (List Char)
  | [] => [line]
  | [c] => if c = '\n' then [line, []] else [line ++ [c]]
  | c :: d :: cs =>
    if c = '\r' ∧ d = '\n' then line :: tsLinesFrom [] cs
    else if c = '\n' then line :: tsLinesFrom [] (d :: cs)
    else tsLinesFrom (line ++ [c]) (d :: cs)

/-- `str.splitlines`, with the line read so far; reading a file as text turns line ends into
ones that split at the same places. -/
def pyLinesFrom (line : List Char) : List Char → List (List Char)
  | [] => if line = [] then [] else [line]
  | [c] => if pyBreak c = true then [line] else [line ++ [c]]
  | c :: d :: cs =>
    if c = '\r' ∧ d = '\n' then line :: pyLinesFrom [] cs
    else if pyBreak c = true then line :: pyLinesFrom [] (d :: cs)
    else pyLinesFrom (line ++ [c]) (d :: cs)

def tsLines (text : List Char) : List (List Char) := tsLinesFrom [] text

def pyLines (text : List Char) : List (List Char) := pyLinesFrom [] text

def doubleQuote : Char := Char.ofNat 34
def singleQuote : Char := Char.ofNat 39

def isDouble (c : Char) : Bool := c = doubleQuote

def isSingle (c : Char) : Bool := c = singleQuote

/-- `unquote`: one pair of quotes around the value goes. -/
def unquote (value : List Char) : List Char :=
  if 2 ≤ value.length ∧ value.head? = value.getLast? ∧
      (value.head? = some doubleQuote ∨ value.head? = some singleQuote) then
    value.tail.dropLast
  else value

/-- `value.strip('"').strip("'")`. -/
def stripQuotes (value : List Char) : List Char := strip isSingle (strip isDouble value)

def keyStart (c : Char) : Bool := c.isAlpha || c = '_'

def keyRest (c : Char) : Bool := c.isAlphanum || c = '_'

/-- `KEY_PATTERN`. -/
def ValidKey : List Char → Prop
  | [] => False
  | c :: cs => keyStart c = true ∧ cs.all keyRest = true

instance decidableValidKey : (key : List Char) → Decidable (ValidKey key)
  | [] => isFalse fun h => h
  | c :: cs => inferInstanceAs (Decidable (keyStart c = true ∧ cs.all keyRest = true))

/-- What `parseEnvText` makes of one line; an entry's value is not unquoted yet. -/
inductive TsLine
  | skip
  | malformed
  | badKey (key : List Char)
  | entry (key value : List Char)
  deriving DecidableEq

def tsLine (raw : List Char) : TsLine :=
  let line := strip jsSpace raw
  if line = [] ∨ line.head? = some '#' then .skip
  else
    match splitFirst '=' line with
    | none => .malformed
    | some (rawKey, rest) =>
      let key := strip jsSpace rawKey
      if ValidKey key then .entry key (strip jsSpace rest) else .badKey key

structure EnvValidation where
  values : Settings
  errors : List String
  warnings : List String

/-- An assignment of text to `__proto__` does not make a property. -/
def recordSet (values : Settings) (key value : List Char) : Settings :=
  if key = "__proto__".toList then values else Function.update values key (some value)

def lineText (index : ℕ) (message : String) : String :=
  "line " ++ toString (index + 1) ++ ": " ++ message

def keyText (key : List Char) : String := if key = [] then "<empty>" else String.ofList key

/-- The lines from one index on, with the keys seen before. -/
def parseLines (index : ℕ) (seen : List (List Char)) (v : EnvValidation) :
    List (List Char) → EnvValidation
  | [] => v
  | raw :: lines =>
    match tsLine raw with
    | .skip => parseLines (index + 1) seen v lines
    | .malformed =>
      parseLines (index + 1) seen
        { v with errors := v.errors ++ [lineText index "expected KEY=VALUE"] } lines
    | .badKey key =>
      parseLines (index + 1) seen
        { v with errors := v.errors ++ [lineText index ("invalid key " ++ keyText key)] } lines
    | .entry key value =>
      let warnings := if key ∈ seen then
        v.warnings ++ [lineText index ("duplicate key " ++ keyText key ++ "; last value wins")]
        else v.warnings
      parseLines (index + 1) (key :: seen)
        { v with values := recordSet v.values key (unquote value), warnings } lines

def parseEnvText (text : List Char) : EnvValidation :=
  parseLines 0 [] ⟨fun _ => none, [], []⟩ (tsLines text)

/-- A key and a value of one line, as `load_env` and `_configuration` split it. -/
def pyEntry (raw : List Char) : Option (List Char × List Char) :=
  let line := strip pySpace raw
  if line = [] ∨ line.head? = some '#' then none
  else (splitFirst '=' line).map fun s => (strip pySpace s.1, strip pySpace s.2)

inductive EnvError
  | value (message : String)
  | os (message : String)
  deriving DecidableEq, Repr

def setDefault (environ : Settings) (key value : List Char) : Except EnvError Settings :=
  if environ key ≠ none then .ok environ
  else if Char.ofNat 0 ∈ key ∨ Char.ofNat 0 ∈ value then .error (.value "embedded null byte")
  else if key = [] then .error (.os "Invalid argument")
  else .ok (Function.update environ key (some value))

def loadEntries (environ : Settings) : List (List Char × List Char) → Except EnvError Settings
  | [] => .ok environ
  | e :: entries => (setDefault environ e.1 (stripQuotes e.2)).bind (loadEntries · entries)

/-- `load_env` on an existing file. -/
def loadEnv (environ : Settings) (text : List Char) : Except EnvError Settings :=
  loadEntries environ ((pyLines text).filterMap pyEntry)

def tokenKeys : List (List Char) :=
  ["NYANYA_DASHBOARD_CONTROL_TOKEN".toList, "NYANYA_DASHBOARD_CONTROL_TOKEN_FILE".toList]

/-- The token settings of the file, the first of each key. -/
def tokenEntries (values : Settings) (entries : List (List Char × List Char)) : Settings :=
  entries.foldl (fun values e =>
    if e.1 ∈ tokenKeys ∧ values e.1 = none then
      Function.update values e.1 (some (stripQuotes e.2))
    else values) values

/-- `_configuration`: the process environment takes precedence. -/
def configuration (environ : Settings) (text : List Char) : Settings :=
  let values := tokenEntries (fun _ => none) ((pyLines text).filterMap pyEntry)
  fun key => if key ∈ tokenKeys then (environ key).or (values key) else none

/-- Where `shlex` stands in a value. -/
inductive ShlexState
  | blank
  | word
  | quoted (mark : Char)
  /-- Behind a backslash; `mark` is the quote it stands in. -/
  | escape (mark : Option Char)
  deriving DecidableEq

def shlexSpace (c : Char) : Bool := c.toNat ∈ [9, 10, 13, 32]

def isQuote (c : Char) : Bool := isDouble c || isSingle c

/-- A finished token; an empty one counts when it was quoted. -/
def emit (token : List Char) (seenQuote : Bool) (rest : List (List Char)) : List (List Char) :=
  if token = [] ∧ seenQuote = false then rest else token :: rest

/-- `shlex.split(value, comments=True)` from one state, with the token read so far and whether
it had a quoted part. -/
def shlexFrom : ShlexState → List Char → Bool → List Char → Except EnvError (List (List Char))
  | .blank, token, seenQuote, [] => .ok (emit token seenQuote [])
  | .word, token, seenQuote, [] => .ok (emit token seenQuote [])
  | .quoted _, _, _, [] => .error (.value "No closing quotation")
  | .escape _, _, _, [] => .error (.value "No escaped character")
  | .blank, token, seenQuote, c :: cs =>
    if shlexSpace c = true then shlexFrom .blank token seenQuote cs
    else if c = '#' then .ok (emit token seenQuote [])
    else if c = backslash then shlexFrom (.escape none) token seenQuote cs
    else if isQuote c = true then shlexFrom (.quoted c) token true cs
    else shlexFrom .word [c] seenQuote cs
  | .word, token, seenQuote, c :: cs =>
    if shlexSpace c = true then
      (shlexFrom .blank [] false cs).map (emit token seenQuote)
    else if c = '#' then .ok (emit token seenQuote [])
    else if isQuote c = true then shlexFrom (.quoted c) token true cs
    else if c = backslash then shlexFrom (.escape none) token seenQuote cs
    else shlexFrom .word (token ++ [c]) seenQuote cs
  | .quoted mark, token, seenQuote, c :: cs =>
    if c = mark then shlexFrom .word token seenQuote cs
    else if c = backslash ∧ mark = doubleQuote then
      shlexFrom (.escape (some mark)) token seenQuote cs
    else shlexFrom (.quoted mark) (token ++ [c]) seenQuote cs
  | .escape none, token, seenQuote, c :: cs => shlexFrom .word (token ++ [c]) seenQuote cs
  | .escape (some mark), token, seenQuote, c :: cs =>
    if c ≠ backslash ∧ c ≠ mark then
      shlexFrom (.quoted mark) (token ++ [backslash, c]) seenQuote cs
    else shlexFrom (.quoted mark) (token ++ [c]) seenQuote cs

theorem shlex_leading {a : List Char} (ha : ∀ c ∈ a, shlexSpace c = true) (cs : List Char) :
    shlexFrom .blank [] false (a ++ cs) = shlexFrom .blank [] false cs := by
  induction a with
  | nil => rfl
  | cons c a ih =>
    rw [List.cons_append, shlexFrom, if_pos (ha c List.mem_cons_self)]
    exact ih fun d hd => ha d (List.mem_cons_of_mem _ hd)

def shlexSplit (value : List Char) : Except EnvError (List (List Char)) :=
  shlexFrom .blank [] false value

def dbKey : List Char := "NYANYA_DASHBOARD_DB_PATH".toList

def exportPrefix : List Char := "export ".toList

/-- The value of a line of `configured_paths` that sets the database. -/
def dbEntry (raw : List Char) : Option (List Char) :=
  let line := if exportPrefix.isPrefixOf raw then raw.drop exportPrefix.length else raw
  match splitFirst '=' line with
  | some (key, value) => if strip pySpace key = dbKey then some value else none
  | none => none

def dbValue (value : List Char) : Except EnvError (Option (List Char)) :=
  match shlexSplit value with
  | .error e => .error e
  | .ok values =>
    if 1 < values.length then .error (.value "Quote a database path containing spaces")
    else .ok values.head?

/-- The last value stands. -/
def dbValues (configured : Option (List Char)) :
    List (List Char) → Except EnvError (Option (List Char))
  | [] => .ok configured
  | value :: rest => (dbValue value).bind (dbValues · rest)

/-- The database setting of `configured_paths` when neither its caller nor the process
environment sets one. -/
def configuredDatabase (text : List Char) : Except EnvError (Option (List Char)) :=
  if 1024 * 1024 < byteLength text then
    .error (.value "Environment file exceeds the configuration limit")
  else dbValues none ((pyLines text).filterMap dbEntry)

end NyanyaAgent.EnvFile
