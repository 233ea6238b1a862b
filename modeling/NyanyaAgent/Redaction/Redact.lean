import NyanyaAgent.EnvFile.Readers
import NyanyaAgent.Text.Regex

/-!
# Redaction

`redact` of `execution_store.py`: values whose key is secret are replaced as a whole, and in
texts what follows a word for a secret.
-/
namespace NyanyaAgent.Redaction
open NyanyaAgent.Text NyanyaAgent.Text.Regex NyanyaAgent.EnvFile

local instance lawfulWords : LawfulBEq (List Char) := inferInstance

/-- What the patterns and `str.lower` know of characters. -/
structure Letters where
  /-- The characters of words: `\w`. -/
  inWord : Char → Bool
  lower : List Char → List Char
  word_ascii : ∀ c : Char, c.toNat < 128 → inWord c = (c.isAlphanum || c = '_')
  word_space : ∀ c, pySpace c = true → inWord c = false
  /-- The letters that a pattern without regard to case takes for ASCII ones. -/
  word_folded : ∀ c : Char, c.toNat ∈ [0x17f, 0x212a, 0x130, 0x131] → inWord c = true

variable (U : Letters)

section Texts

/-- The group of `SECRET_TEXT_RE`; `api[_-]?key` is three words. -/
def secretWords : List String :=
  ["api_key", "api-key", "apikey", "token", "password", "passwd", "secret", "authorization",
    "bearer"]

def isQuote (c : Char) : Bool := c = Char.ofNat 34 || c = Char.ofNat 39

def isSeparator (c : Char) : Bool := c = ':' || c = '=' || c = ' '

/-- The characters of a credential. -/
def isCredential (c : Char) : Bool :=
  ! (isQuote c || pySpace c || c = ',' || c = Char.ofNat 125)

/-- `['\"]?[^'\"\s,}]+` -/
def credentialPart : Regex := seq (opt (char isQuote)) (plus (char isCredential))

/-- `[:= ]\s*` and the credential. -/
def separated : Regex := seq (char isSeparator) (seq (star (char pySpace)) credentialPart)

/-- What follows the group in `SECRET_TEXT_RE`. -/
def behindWord : Regex := seq (boundary U.inWord) (seq (star (char pySpace)) separated)

/-- `SECRET_TEXT_RE.match`: the group, and the place behind the match. -/
def secretMatch (q : Place) : Option (List Char × Place) :=
  (((boundary U.inWord).ends q).flatMap fun q₀ => ((wordsI secretWords).ends q₀).flatMap fun q₁ =>
    ((behindWord U).ends q₁).map fun q₂ => (taken q₀ q₁, q₂)).head?

/-- A part of a text: a character that is left as it is, or a match, of which the word is left. -/
inductive Piece
  | kept (c : Char)
  | hidden (word dropped : List Char)

/-- What `SECRET_TEXT_RE.sub` leaves and what it replaces. -/
def piecesFrom : ℕ → Place → List Piece
  | 0, q => q.2.map .kept
  | _ + 1, (_, []) => []
  | n + 1, (before, c :: cs) =>
    match secretMatch U (before, c :: cs) with
    | some (word, q) =>
      .hidden word ((taken (before, c :: cs) q).drop word.length) :: piecesFrom n q
    | none => .kept c :: piecesFrom n (some c, cs)

def pieces (text : List Char) : List Piece := piecesFrom U text.length (none, text)

def redacted : List Char := "[REDACTED]".toList

/-- A piece as it is written. -/
def Piece.shown : Piece → List Char
  | .kept c => [c]
  | .hidden word _ => word ++ '=' :: redacted

/-- Which characters of a piece are not written. -/
def Piece.mask : Piece → List Bool
  | .kept _ => [false]
  | .hidden word dropped => List.replicate word.length false ++ List.replicate dropped.length true

/-- `SECRET_TEXT_RE.sub`. -/
def redactText (text : List Char) : List Char := (pieces U text).flatMap Piece.shown

end Texts

section Values

/-- A key of a dictionary, with what `str` makes of it when it is no text. -/
inductive Key
  | text (s : List Char)
  | other (shown : List Char)
  deriving DecidableEq

def Key.shown : Key → List Char
  | .text s => s
  | .other s => s

inductive Value
  | text (s : List Char)
  | list (items : List Value)
  | tuple (items : List Value)
  | dict (members : List (Key × Value))
  /-- A number, a Boolean or `None`. -/
  | other (shown : List Char)

/-- The words of `SECRET_KEY_RE`, with three for each of `api[_-]?key` and `private[_-]?key`. -/
def secretKeyWords : List String :=
  ["token", "secret", "password", "passwd", "authorization", "api_key", "api-key", "apikey",
    "private_key", "private-key", "privatekey"]

def nonSecretTokenKeys : List String :=
  ["fence_token", "prompt_tokens", "completion_tokens", "total_tokens"]

def isSecretKey (key : List Char) : Bool :=
  ! nonSecretTokenKeys.any (fun k => k.toList == U.lower key) && (wordsI secretKeyWords).search key

/-- The assignment of a member. -/
def assign (members : List (Key × Value)) (m : Key × Value) : List (Key × Value) :=
  if members.any (fun m' => m'.1 = m.1) = true then
    members.map fun m' => if m'.1 = m.1 then m else m'
  else members ++ [m]

/-- A dictionary of the members of a comprehension. -/
def dictOf (members : List (Key × Value)) : List (Key × Value) := members.foldl assign []

def mask : Value := .text redacted

mutual

def redact (key : List Char) : Value → Value
  | .text s => if isSecretKey U key = true then mask else .text (redactText U s)
  | .list items => if isSecretKey U key = true then mask else .list (redactItems items)
  | .tuple items => if isSecretKey U key = true then mask else .list (redactItems items)
  | .dict members =>
    if isSecretKey U key = true then mask else .dict (dictOf (redactMembers members))
  | .other shown => if isSecretKey U key = true then mask else .other shown

def redactItems : List Value → List Value
  | [] => []
  | v :: items => redact [] v :: redactItems items

def redactMember : Key × Value → Key × Value
  | (k, v) => (.text k.shown, redact k.shown v)

def redactMembers : List (Key × Value) → List (Key × Value)
  | [] => []
  | m :: members => redactMember m :: redactMembers members

end

end Values

end NyanyaAgent.Redaction
