import Mathlib.Data.Nat.Notation
import Mathlib.Data.List.Basic

/-!
# JSON text

Flat JSON objects, how `json.dumps` writes them with compact separators and without
ASCII escapes, and the grammar of JSON text, which every rendering satisfies.
-/
namespace NyanyaAgent.Text

def quote : Char := Char.ofNat 34
def backslash : Char := Char.ofNat 92

/-- The code of a hexadecimal digit. -/
def hexCode (n : ℕ) : ℕ := if n < 10 then 48 + n else 87 + n

/-- The escapes of `json.dumps` without `ensure_ascii`, of a code point. -/
def escapeCode (c : ℕ) : List ℕ :=
  if c = 34 ∨ c = 92 then [92, c]
  else if c = 8 then [92, 98]
  else if c = 9 then [92, 116]
  else if c = 10 then [92, 110]
  else if c = 12 then [92, 102]
  else if c = 13 then [92, 114]
  else if c < 32 then [92, 117, 48, 48, hexCode (c / 16), hexCode (c % 16)]
  else [c]

def escapeChar (c : Char) : List Char := (escapeCode c.toNat).map Char.ofNat

def renderText (s : String) : List Char := quote :: (s.toList.flatMap escapeChar ++ [quote])

inductive Scalar
  | null
  | bool (b : Bool)
  | nat (n : ℕ)
  | text (s : String)
  deriving DecidableEq

def Scalar.render : Scalar → List Char
  | .null => "null".toList
  | .bool true => "true".toList
  | .bool false => "false".toList
  | .nat n => Nat.toDigits 10 n
  | .text s => renderText s

def openBrace : Char := Char.ofNat 123
def closeBrace : Char := Char.ofNat 125

/-- Values between commas. -/
def commaSeparated : List (List Char) → List Char
  | [] => []
  | [x] => x
  | x :: xs => x ++ ',' :: commaSeparated xs

def renderField (name : String) (value : List Char) : List Char := renderText name ++ ':' :: value

def renderObject (fields : List (String × List Char)) : List Char :=
  openBrace :: (commaSeparated (fields.map fun f => renderField f.1 f.2) ++ [closeBrace])

def renderArray (items : List (List Char)) : List Char :=
  '[' :: (commaSeparated items ++ [']'])

/-- The characters of a JSON string. -/
inductive IsText : List Char → Prop
  | nil : IsText []
  | plain {c : Char} {cs : List Char} (hc : 32 ≤ c.toNat) (hq : c ≠ quote) (hb : c ≠ backslash)
      (h : IsText cs) : IsText (c :: cs)
  | escape {c : Char} {cs : List Char}
      (hc : c ∈ [quote, backslash, '/', 'b', 'f', 'n', 'r', 't']) (h : IsText cs) :
      IsText (backslash :: c :: cs)
  | unicode {a b c d : Char} {cs : List Char}
      (hd : ∀ x ∈ [a, b, c, d], x ∈ "0123456789abcdefABCDEF".toList) (h : IsText cs) :
      IsText (backslash :: 'u' :: a :: b :: c :: d :: cs)

/-- A natural number without leading zeros. -/
def IsNumber (cs : List Char) : Prop :=
  (∀ c ∈ cs, c.isDigit = true) ∧ cs ≠ [] ∧ (cs.head? = some '0' → cs = ['0'])

mutual
/-- JSON text without white space. -/
inductive IsValue : List Char → Prop
  | null : IsValue "null".toList
  | true : IsValue "true".toList
  | false : IsValue "false".toList
  | number {cs : List Char} (h : IsNumber cs) : IsValue cs
  | text {cs : List Char} (h : IsText cs) : IsValue (quote :: (cs ++ [quote]))
  | emptyArray : IsValue ['[', ']']
  | array {cs : List Char} (h : IsElements cs) : IsValue ('[' :: (cs ++ [']']))
  | emptyObject : IsValue [openBrace, closeBrace]
  | object {cs : List Char} (h : IsMembers cs) : IsValue (openBrace :: (cs ++ [closeBrace]))

inductive IsElements : List Char → Prop
  | one {cs : List Char} (h : IsValue cs) : IsElements cs
  | more {cs ds : List Char} (h : IsValue cs) (hs : IsElements ds) : IsElements (cs ++ ',' :: ds)

inductive IsMembers : List Char → Prop
  | one {ks cs : List Char} (hk : IsText ks) (h : IsValue cs) :
      IsMembers (quote :: (ks ++ [quote]) ++ ':' :: cs)
  | more {ks cs ds : List Char} (hk : IsText ks) (h : IsValue cs) (hs : IsMembers ds) :
      IsMembers ((quote :: (ks ++ [quote]) ++ ':' :: cs) ++ ',' :: ds)
end

theorem hexCode_mem {n : ℕ} (h : n < 16) :
    Char.ofNat (hexCode n) ∈ "0123456789abcdefABCDEF".toList := by
  revert n
  decide

theorem IsText.escapeChar (c : Char) {cs : List Char} (h : IsText cs) :
    IsText (escapeChar c ++ cs) := by
  unfold Text.escapeChar escapeCode
  split_ifs with hc h8 h9 h10 h12 h13 h32
  · apply IsText.escape _ h
    rcases hc with hc | hc <;> rw [hc] <;> decide
  · exact .escape (by decide) h
  · exact .escape (by decide) h
  · exact .escape (by decide) h
  · exact .escape (by decide) h
  · exact .escape (by decide) h
  · apply IsText.unicode _ h
    intro x hx
    simp only [List.mem_cons, List.not_mem_nil, or_false] at hx
    rcases hx with rfl | rfl | rfl | rfl
    · decide
    · decide
    · exact hexCode_mem (by omega)
    · exact hexCode_mem (by omega)
  · rw [List.map_singleton, Char.ofNat_toNat]
    refine .plain (by omega) (fun heq => hc (.inl ?_)) (fun heq => hc (.inr ?_)) h
    · rw [heq]
      rfl
    · rw [heq]
      rfl

theorem isText_flatMap (cs : List Char) : IsText (cs.flatMap Text.escapeChar) := by
  induction cs with
  | nil => exact .nil
  | cons c cs ih =>
    rw [List.flatMap_cons]
    exact ih.escapeChar c

theorem isValue_text (s : String) : IsValue (renderText s) := .text (isText_flatMap s.toList)

theorem head_toDigits {n : ℕ} (h : 0 < n) : (Nat.toDigits 10 n).head? ≠ some '0' := by
  induction n using Nat.strongRecOn with
  | _ n ih =>
    by_cases hn : n < 10
    · rw [Nat.toDigits_of_lt_base hn]
      clear ih
      revert h
      revert hn
      revert n
      decide
    · rw [Nat.toDigits_of_base_le (by decide) (by omega),
        List.head?_append_of_ne_nil _ Nat.toDigits_ne_nil]
      exact ih (n / 10) (by omega) (by omega)

theorem isNumber_toDigits (n : ℕ) : IsNumber (Nat.toDigits 10 n) := by
  refine ⟨fun c hc => Nat.isDigit_of_mem_toDigits (by decide) (by decide) hc,
    Nat.toDigits_ne_nil, ?_⟩
  intro hzero
  by_cases hn : n = 0
  · rw [hn, Nat.toDigits_zero]
  · exact absurd hzero (head_toDigits (by omega))

theorem Scalar.isValue (v : Scalar) : IsValue v.render := by
  cases v with
  | null => exact .null
  | bool b => cases b with
    | false => exact .false
    | true => exact .true
  | nat n => exact .number (isNumber_toDigits n)
  | text s => exact isValue_text s

theorem isElements_commaSeparated {x : List Char} {xs : List (List Char)}
    (h : ∀ y ∈ x :: xs, IsValue y) : IsElements (commaSeparated (x :: xs)) := by
  induction xs generalizing x with
  | nil => exact .one (h x List.mem_cons_self)
  | cons y ys ih =>
    exact .more (h x List.mem_cons_self) (ih fun z hz => h z (List.mem_cons_of_mem _ hz))

theorem renderArray_isValue {items : List (List Char)} (h : ∀ x ∈ items, IsValue x) :
    IsValue (renderArray items) := by
  cases items with
  | nil => exact .emptyArray
  | cons x xs => exact .array (isElements_commaSeparated h)

theorem isMembers_commaSeparated {f : String × List Char} {fields : List (String × List Char)}
    (h : ∀ g ∈ f :: fields, IsValue g.2) :
    IsMembers (commaSeparated ((f :: fields).map fun g => renderField g.1 g.2)) := by
  induction fields generalizing f with
  | nil => exact .one (isText_flatMap f.1.toList) (h f List.mem_cons_self)
  | cons g fields ih =>
    exact .more (isText_flatMap f.1.toList) (h f List.mem_cons_self)
      (ih fun e he => h e (List.mem_cons_of_mem _ he))

theorem renderObject_isValue {fields : List (String × List Char)}
    (h : ∀ f ∈ fields, IsValue f.2) : IsValue (renderObject fields) := by
  cases fields with
  | nil => exact .emptyObject
  | cons f fields => exact .object (isMembers_commaSeparated h)

end NyanyaAgent.Text
