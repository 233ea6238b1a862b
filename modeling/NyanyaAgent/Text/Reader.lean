import NyanyaAgent.Text.Json
import Mathlib.Data.Int.Notation

/-!
# Reading JSON

Texts as code points, how `json.loads` reads them, and how `json.dumps` writes an object of
texts and integers. What is written is read back.
-/
namespace NyanyaAgent.Text

/-- A text as its code points, lone surrogates included. -/
abbrev Codes := List ℕ

def codes (s : String) : Codes := s.toList.map Char.toNat

/-- A decoded value; a float keeps its literal, and members keep their order and repetitions. -/
inductive Json
  | null
  | bool (b : Bool)
  | int (n : ℤ)
  | float (literal : Codes)
  | text (s : Codes)
  | array (items : List Json)
  | object (members : List (Codes × Json))

section Reading

def isSpace (c : ℕ) : Bool := c == 32 || c == 9 || c == 10 || c == 13

def skipSpace (cs : Codes) : Codes := cs.dropWhile isSpace

def hexValue (c : ℕ) : Option ℕ :=
  if 48 ≤ c ∧ c ≤ 57 then some (c - 48)
  else if 97 ≤ c ∧ c ≤ 102 then some (c - 87)
  else if 65 ≤ c ∧ c ≤ 70 then some (c - 55)
  else none

/-- Four hexadecimal digits. -/
def readHex : Codes → Option (ℕ × Codes)
  | a :: b :: c :: d :: rest =>
    match hexValue a, hexValue b, hexValue c, hexValue d with
    | some a, some b, some c, some d => some (((a * 16 + b) * 16 + c) * 16 + d, rest)
    | _, _, _, _ => none
  | _ => none

def highSurrogate (u : ℕ) : Bool := 55296 ≤ u && u ≤ 56319
def lowSurrogate (u : ℕ) : Bool := 56320 ≤ u && u ≤ 57343

/-- An escaped low surrogate. -/
def readLow : Codes → Option (ℕ × Codes)
  | c :: e :: rest =>
    if c = 92 ∧ e = 117 then (readHex rest).filter fun r => lowSurrogate r.1 else none
  | _ => none

/-- The rest of a `\u` escape, of a pair of them when they are a surrogate pair. -/
def readUnicode (cs : Codes) : Option (ℕ × Codes) :=
  match readHex cs with
  | none => none
  | some (u, rest) =>
    if highSurrogate u = true then
      match readLow rest with
      | some (v, rest') => some (65536 + (u - 55296) * 1024 + (v - 56320), rest')
      | none => some (u, rest)
    else some (u, rest)

def simpleEscape (e : ℕ) : Option ℕ :=
  if e = 34 ∨ e = 92 ∨ e = 47 then some e
  else if e = 98 then some 8
  else if e = 102 then some 12
  else if e = 110 then some 10
  else if e = 114 then some 13
  else if e = 116 then some 9
  else none

/-- One character of a string. -/
def readUnit : Codes → Option (ℕ × Codes)
  | [] => none
  | c :: rest =>
    if c = 92 then
      match rest with
      | [] => none
      | e :: rest =>
        if e = 117 then readUnicode rest else (simpleEscape e).map fun u => (u, rest)
    else if c < 32 then none
    else some (c, rest)

/-- The rest of a string, behind its opening quote. -/
def readText : ℕ → Codes → Option (Codes × Codes)
  | 0, _ => none
  | n + 1, cs =>
    if cs.head? = some 34 then some ([], cs.tail)
    else
      match readUnit cs with
      | none => none
      | some (u, rest) => (readText n rest).map fun r => (u :: r.1, r.2)

def isDigit (c : ℕ) : Bool := 48 ≤ c && c ≤ 57

def digitsValue (ds : Codes) : ℕ := ds.foldl (fun v d => v * 10 + (d - 48)) 0

def readInteger : Codes → Option (Codes × Codes)
  | [] => none
  | c :: rest =>
    if c = 48 then some ([c], rest)
    else if isDigit c = true then some (c :: rest.takeWhile isDigit, rest.dropWhile isDigit)
    else none

/-- `(\.\d+)?`. -/
def readFraction (cs : Codes) : Codes × Codes :=
  let ds := cs.tail.takeWhile isDigit
  if cs.head? = some 46 ∧ ds ≠ [] then (46 :: ds, cs.tail.dropWhile isDigit) else ([], cs)

/-- `([eE][-+]?\d+)?`. -/
def readExponent (cs : Codes) : Codes × Codes :=
  let sign := cs.tail.head?.filter fun c => c = 43 ∨ c = 45
  let body := if sign.isSome = true then cs.tail.tail else cs.tail
  let ds := body.takeWhile isDigit
  if (cs.head? = some 101 ∨ cs.head? = some 69) ∧ ds ≠ [] then
    (cs.head?.toList ++ sign.toList ++ ds, body.dropWhile isDigit)
  else ([], cs)

/-- An integer of more than 4300 digits is an error of `int`. -/
def readNumber (cs : Codes) : Option (Json × Codes) :=
  let sign := cs.head?.filter fun c => c = 45
  match readInteger (if sign.isSome = true then cs.tail else cs) with
  | none => none
  | some (ds, rest) =>
    let fraction := readFraction rest
    let exponent := readExponent fraction.2
    if fraction.1 = [] ∧ exponent.1 = [] then
      if 4300 < ds.length then none
      else some (.int (if sign.isSome = true then -(digitsValue ds : ℤ) else digitsValue ds), rest)
    else some (.float (sign.toList ++ ds ++ fraction.1 ++ exponent.1), exponent.2)

def literals : List (Codes × Json) :=
  [(codes "null", .null), (codes "true", .bool true), (codes "false", .bool false),
   (codes "NaN", .float (codes "NaN")), (codes "Infinity", .float (codes "Infinity")),
   (codes "-Infinity", .float (codes "-Infinity"))]

def readScalar (cs : Codes) : Option (Json × Codes) :=
  match literals.find? fun w => w.1.isPrefixOf cs with
  | some (word, v) => some (v, cs.drop word.length)
  | none => readNumber cs

mutual
/-- A value; the first argument bounds the calls, and the length of the text is enough. -/
def readValue : ℕ → Codes → Option (Json × Codes)
  | 0, _ => none
  | n + 1, cs =>
    if cs.head? = some 34 then (readText n cs.tail).map fun r => (.text r.1, r.2)
    else if cs.head? = some 123 then
      if (skipSpace cs.tail).head? = some 125 then some (.object [], (skipSpace cs.tail).tail)
      else (readMembers n (skipSpace cs.tail)).map fun r => (.object r.1, r.2)
    else if cs.head? = some 91 then
      if (skipSpace cs.tail).head? = some 93 then some (.array [], (skipSpace cs.tail).tail)
      else (readItems n (skipSpace cs.tail)).map fun r => (.array r.1, r.2)
    else readScalar cs

def readMembers : ℕ → Codes → Option (List (Codes × Json) × Codes)
  | 0, _ => none
  | n + 1, cs =>
    if cs.head? = some 34 then
      match readText n cs.tail with
      | none => none
      | some (key, rest) =>
        if (skipSpace rest).head? = some 58 then
          match readValue n (skipSpace (skipSpace rest).tail) with
          | none => none
          | some (v, rest') =>
            if (skipSpace rest').head? = some 125 then some ([(key, v)], (skipSpace rest').tail)
            else if (skipSpace rest').head? = some 44 then
              (readMembers n (skipSpace (skipSpace rest').tail)).map fun r => ((key, v) :: r.1, r.2)
            else none
        else none
    else none

def readItems : ℕ → Codes → Option (List Json × Codes)
  | 0, _ => none
  | n + 1, cs =>
    match readValue n cs with
    | none => none
    | some (v, rest) =>
      if (skipSpace rest).head? = some 93 then some ([v], (skipSpace rest).tail)
      else if (skipSpace rest).head? = some 44 then
        (readItems n (skipSpace (skipSpace rest).tail)).map fun r => (v :: r.1, r.2)
      else none
end

/-- `json.loads` of a text; `none` is its `ValueError`. Nesting too deep for the interpreter's
stack, which raises as well, is not refused here. -/
def readJson (cs : Codes) : Option Json :=
  if cs.head? = some 65279 then none
  else
    match readValue (cs.length + 1) (skipSpace cs) with
    | none => none
    | some (v, rest) => if skipSpace rest = [] then some v else none

end Reading

section Writing

def writeText (escape : ℕ → Codes) (s : Codes) : Codes := 34 :: (s.flatMap escape ++ [34])

def writeDigits (n : ℕ) : Codes := (Nat.toDigits 10 n).map Char.toNat

def writeInt (n : ℤ) : Codes :=
  if n < 0 then 45 :: writeDigits n.natAbs else writeDigits n.natAbs

/-- Members between commas, with the given white space behind commas and colons. -/
def writeMembers (escape : ℕ → Codes) (space : Codes) : List (Codes × Codes) → Codes
  | [] => []
  | [(key, value)] => writeText escape key ++ 58 :: (space ++ value)
  | (key, value) :: members =>
    writeText escape key ++ 58 :: (space ++ (value ++ 44 :: (space ++
      writeMembers escape space members)))

def writeObject (escape : ℕ → Codes) (space : Codes) (members : List (Codes × Codes)) : Codes :=
  123 :: (writeMembers escape space members ++ [125])

end Writing

section Units

/-- What an escape writes for a character is read as that character, and is no closing quote. -/
structure Escapes (escape : ℕ → Codes) (c : ℕ) : Prop where
  unit : ∀ rest, readUnit (escape c ++ rest) = some (c, rest)
  head : ∀ rest, (escape c ++ rest).head? ≠ some 34

theorem hexValue_hexCode {n : ℕ} (h : n < 16) : hexValue (hexCode n) = some n := by
  revert n
  decide

theorem readHex_low {c : ℕ} (h : c < 256) (rest : Codes) :
    readHex (48 :: 48 :: hexCode (c / 16) :: hexCode (c % 16) :: rest) = some (c, rest) := by
  have hhigh := hexValue_hexCode (show c / 16 < 16 by omega)
  have hlow := hexValue_hexCode (show c % 16 < 16 by omega)
  have hzero : hexValue 48 = some 0 := rfl
  simp only [readHex, hzero, hhigh, hlow, Option.some.injEq, Prod.mk.injEq, and_true]
  omega

theorem escapes_escapeCode (c : ℕ) : Escapes escapeCode c := by
  constructor
  · intro rest
    unfold escapeCode
    split_ifs with hc h8 h9 h10 h12 h13 h32
    · rcases hc with rfl | rfl <;> rfl
    · rw [h8]
      rfl
    · rw [h9]
      rfl
    · rw [h10]
      rfl
    · rw [h12]
      rfl
    · rw [h13]
      rfl
    · have hlow : highSurrogate c = false := by
        simp only [highSurrogate, Bool.and_eq_false_iff, decide_eq_false_iff_not]
        omega
      simp [readUnit, readUnicode, readHex_low (show c < 256 by omega) rest, hlow]
    · have hslash : c ≠ 92 := fun h => hc (.inr h)
      simp [readUnit, hslash, h32]
  · intro rest
    unfold escapeCode
    split_ifs with hc <;> simp
    exact fun h => hc (.inl h)

theorem Escapes.ne_nil {escape : ℕ → Codes} {c : ℕ} (h : Escapes escape c) : escape c ≠ [] := by
  intro hnil
  have hunit := h.unit []
  rw [hnil] at hunit
  cases hunit

theorem length_le_flatMap {escape : ℕ → Codes} {s : Codes} (h : ∀ c ∈ s, Escapes escape c) :
    s.length ≤ (s.flatMap escape).length := by
  induction s with
  | nil => exact Nat.le_refl _
  | cons c s ih =>
    have hs := ih fun d hd => h d (List.mem_cons_of_mem _ hd)
    have hc := List.length_pos_iff.mpr (h c List.mem_cons_self).ne_nil
    rw [List.flatMap_cons, List.length_append, List.length_cons]
    omega

theorem readText_write {escape : ℕ → Codes} {s : Codes} (h : ∀ c ∈ s, Escapes escape c) {n : ℕ}
    (hn : s.length < n) (rest : Codes) :
    readText n (s.flatMap escape ++ 34 :: rest) = some (s, rest) := by
  induction s generalizing n with
  | nil =>
    obtain ⟨m, rfl⟩ := Nat.exists_eq_succ_of_ne_zero (Nat.ne_of_gt hn)
    simp [readText]
  | cons c s ih =>
    obtain ⟨m, rfl⟩ := Nat.exists_eq_succ_of_ne_zero (Nat.ne_of_gt (Nat.zero_lt_of_lt hn))
    have hc := h c List.mem_cons_self
    have hs := ih (fun d hd => h d (List.mem_cons_of_mem _ hd)) (Nat.lt_of_succ_lt_succ hn)
    rw [List.flatMap_cons, List.append_assoc, readText, if_neg (hc.head _), hc.unit]
    simp only [hs, Option.map_some]

end Units

section Spaces

theorem skipSpace_start {c : ℕ} {cs : Codes} (h : isSpace c = false) :
    skipSpace (c :: cs) = c :: cs := by
  rw [skipSpace, List.dropWhile_cons, h]
  rfl

theorem skipSpace_append {space cs : Codes} (hspace : ∀ c ∈ space, isSpace c = true)
    (hcs : skipSpace cs = cs) : skipSpace (space ++ cs) = cs := by
  induction space with
  | nil => exact hcs
  | cons c space ih =>
    have hc := hspace c List.mem_cons_self
    rw [List.cons_append, skipSpace, List.dropWhile_cons, hc]
    exact ih fun d hd => hspace d (List.mem_cons_of_mem _ hd)

end Spaces

section Numbers

/-- What may follow a number. -/
def Ends (rest : Codes) : Prop :=
  ∀ c ∈ rest.head?, isDigit c = false ∧ c ≠ 46 ∧ c ≠ 101 ∧ c ≠ 69

theorem isDigit_writeDigits {n c : ℕ} (h : c ∈ writeDigits n) : isDigit c = true := by
  obtain ⟨d, hd, rfl⟩ := List.mem_map.mp h
  have hdigit := Nat.isDigit_of_mem_toDigits (by decide) (by decide) hd
  simp only [Char.isDigit, ge_iff_le, Bool.and_eq_true, decide_eq_true_eq,
    UInt32.le_iff_toNat_le] at hdigit
  simp only [isDigit, Bool.and_eq_true, decide_eq_true_eq]
  exact hdigit

theorem writeDigits_ne_nil (n : ℕ) : writeDigits n ≠ [] := by
  rw [writeDigits, ne_eq, List.map_eq_nil_iff]
  exact Nat.toDigits_ne_nil

theorem digitsValue_append (ds : Codes) (d : ℕ) :
    digitsValue (ds ++ [d]) = digitsValue ds * 10 + (d - 48) := by
  simp [digitsValue]

theorem digit_code {d : ℕ} (h : d < 10) : (Nat.digitChar d).toNat - 48 = d := by
  revert d
  decide

theorem digitsValue_writeDigits (n : ℕ) : digitsValue (writeDigits n) = n := by
  induction n using Nat.strongRecOn with
  | _ n ih =>
    by_cases hn : n < 10
    · rw [writeDigits, Nat.toDigits_of_lt_base hn]
      simpa [digitsValue] using digit_code hn
    · have hdigit := digit_code (show n % 10 < 10 by omega)
      have hprefix := ih (n / 10) (by omega)
      rw [writeDigits] at hprefix ⊢
      rw [Nat.toDigits_of_base_le (by decide) (by omega), List.map_append, List.map_singleton,
        digitsValue_append, hprefix, hdigit]
      omega

theorem readInteger_write (n : ℕ) {rest : Codes} (h : Ends rest) :
    readInteger (writeDigits n ++ rest) = some (writeDigits n, rest) := by
  obtain ⟨c, ds, hds⟩ := List.exists_cons_of_ne_nil (writeDigits_ne_nil n)
  have hall : ∀ d ∈ c :: ds, isDigit d = true := by
    intro d hd
    rw [← hds] at hd
    exact isDigit_writeDigits hd
  have hrest : rest.takeWhile isDigit = [] ∧ rest.dropWhile isDigit = rest := by
    cases rest with
    | nil => exact ⟨rfl, rfl⟩
    | cons d rest =>
      have hd := (h d rfl).1
      simp [hd]
  have htake : (ds ++ rest).takeWhile isDigit = ds ∧ (ds ++ rest).dropWhile isDigit = rest := by
    have hdigits : ∀ d ∈ ds, isDigit d = true := fun d hd => hall d (List.mem_cons_of_mem _ hd)
    rw [List.takeWhile_append_of_pos hdigits, List.dropWhile_append_of_pos hdigits, hrest.1,
      hrest.2, List.append_nil]
    exact ⟨rfl, rfl⟩
  rw [hds, List.cons_append, readInteger]
  by_cases hc : c = 48
  · have hzero : n = 0 := by
      by_contra hn
      have hhead := head_toDigits (Nat.pos_of_ne_zero hn)
      obtain ⟨d, es, hes⟩ := List.exists_cons_of_ne_nil (Nat.toDigits_ne_nil (n := n) (b := 10))
      rw [writeDigits, hes, List.map_cons, List.cons.injEq] at hds
      rw [hes, List.head?_cons, ne_eq, Option.some.injEq] at hhead
      exact hhead (Char.toNat_inj.mp (hds.1.trans hc))
    rw [hzero] at hds
    have hsingle : ds = [] := by
      have := congrArg List.length hds
      simpa [writeDigits] using this.symm
    rw [if_pos hc, hsingle]
    rfl
  · rw [if_neg hc, if_pos (hall c List.mem_cons_self), htake.1, htake.2]

theorem readFraction_end {rest : Codes} (h : Ends rest) : readFraction rest = ([], rest) := by
  have hhead : ¬ (rest.head? = some 46) := fun hc => (h 46 hc).2.1 rfl
  simp [readFraction, hhead]

theorem readExponent_end {rest : Codes} (h : Ends rest) : readExponent rest = ([], rest) := by
  have hlower : ¬ (rest.head? = some 101) := fun hc => (h 101 hc).2.2.1 rfl
  have hupper : ¬ (rest.head? = some 69) := fun hc => (h 69 hc).2.2.2 rfl
  simp [readExponent, hlower, hupper]

theorem readNumber_write {n : ℕ} (hlength : (writeDigits n).length ≤ 4300) {rest : Codes}
    (h : Ends rest) : readNumber (writeDigits n ++ rest) = some (.int n, rest) := by
  obtain ⟨c, ds, hds⟩ := List.exists_cons_of_ne_nil (writeDigits_ne_nil n)
  have hc : isDigit c = true := isDigit_writeDigits (n := n) (by rw [hds]; exact List.mem_cons_self)
  have hsign : ((writeDigits n ++ rest).head?.filter fun c => c = 45) = none := by
    rw [hds, List.cons_append, List.head?_cons, Option.filter_some, if_neg]
    rw [decide_eq_true_eq]
    rintro rfl
    cases hc
  simp only [readNumber, hsign, Option.isSome_none, Bool.false_eq_true, if_false,
    readInteger_write n h, readFraction_end h, readExponent_end h, and_self, if_true,
    digitsValue_writeDigits]
  rw [if_neg (by omega)]

end Numbers

section Values

/-- The text is read as the value, in front of anything that may follow a value. -/
structure Reads (w : Codes) (v : Json) : Prop where
  start : ∃ c cs, w = c :: cs ∧ isSpace c = false ∧ c ≠ 65279
  read : ∀ n rest, w.length ≤ n → Ends rest → readValue n (w ++ rest) = some (v, rest)

theorem Reads.skip {w : Codes} {v : Json} (h : Reads w v) (rest : Codes) :
    skipSpace (w ++ rest) = w ++ rest := by
  obtain ⟨c, cs, rfl, hc, _⟩ := h.start
  exact skipSpace_start hc

theorem reads_text {escape : ℕ → Codes} {s : Codes} (h : ∀ c ∈ s, Escapes escape c) :
    Reads (writeText escape s) (.text s) := by
  constructor
  · exact ⟨34, _, rfl, by decide, by decide⟩
  · intro n rest hn _
    have hs := length_le_flatMap h
    simp only [writeText, List.length_cons, List.length_append, List.length_nil] at hn
    obtain ⟨m, rfl⟩ := Nat.exists_eq_succ_of_ne_zero (show n ≠ 0 by omega)
    have htext := readText_write h (show s.length < m by omega) rest
    simp only [writeText, List.cons_append, List.append_assoc, List.nil_append, readValue,
      List.head?_cons, if_true, List.tail_cons, htext, Option.map_some]

theorem literals_digit {c : ℕ} {cs : Codes} (h : isDigit c = true) :
    (literals.find? fun w => w.1.isPrefixOf (c :: cs)) = none := by
  simp only [isDigit, Bool.and_eq_true, decide_eq_true_eq] at h
  rw [List.find?_eq_none]
  intro w hw
  simp only [literals, List.mem_cons, List.not_mem_nil, or_false] at hw
  rcases hw with rfl | rfl | rfl | rfl | rfl | rfl <;>
    simp [codes, List.isPrefixOf_cons_cons] <;> omega

theorem reads_int {n : ℤ} (hn : 0 ≤ n) (hlength : (writeDigits n.natAbs).length ≤ 4300) :
    Reads (writeInt n) (.int n) := by
  have hwrite : writeInt n = writeDigits n.natAbs := if_neg (by omega)
  obtain ⟨c, ds, hds⟩ := List.exists_cons_of_ne_nil (writeDigits_ne_nil n.natAbs)
  have hc : isDigit c = true :=
    isDigit_writeDigits (n := n.natAbs) (by rw [hds]; exact List.mem_cons_self)
  have hrange : 48 ≤ c ∧ c ≤ 57 := by simpa [isDigit] using hc
  constructor
  · refine ⟨c, ds, hwrite.trans hds, ?_, by omega⟩
    simp only [isSpace, Bool.or_eq_false_iff, beq_eq_false_iff_ne]
    omega
  · intro m rest hm hends
    rw [hwrite] at hm ⊢
    have hnumber := readNumber_write hlength hends
    rw [Int.natAbs_of_nonneg hn] at hnumber
    obtain ⟨k, rfl⟩ := Nat.exists_eq_succ_of_ne_zero (show m ≠ 0 by rw [hds] at hm; simp at hm; omega)
    rw [hds, List.cons_append] at hnumber ⊢
    have h34 : ¬ (some c = some 34) := by rw [Option.some.injEq]; omega
    have h123 : ¬ (some c = some 123) := by rw [Option.some.injEq]; omega
    have h91 : ¬ (some c = some 91) := by rw [Option.some.injEq]; omega
    rw [readValue, List.head?_cons, if_neg h34, if_neg h123, if_neg h91, readScalar,
      literals_digit hc]
    exact hnumber

/-- A member as it is written and read. -/
structure Member where
  key : Codes
  value : Codes
  read : Json

variable {escape : ℕ → Codes} {space : Codes}

theorem ends_comma (rest : Codes) : Ends (44 :: rest) := by
  intro c hc
  cases hc
  decide

theorem ends_brace (rest : Codes) : Ends (125 :: rest) := by
  intro c hc
  cases hc
  decide

theorem readMembers_cons {f : Member} {n : ℕ} {after : Codes}
    (hspace : ∀ c ∈ space, isSpace c = true) (hkey : ∀ c ∈ f.key, Escapes escape c)
    (hread : Reads f.value f.read)
    (hn : (writeText escape f.key).length ≤ n ∧ f.value.length ≤ n) (hafter : Ends after) :
    readMembers (n + 1) (writeText escape f.key ++ 58 :: (space ++ (f.value ++ after))) =
      if (skipSpace after).head? = some 125 then
        some ([(f.key, f.read)], (skipSpace after).tail)
      else if (skipSpace after).head? = some 44 then
        (readMembers n (skipSpace (skipSpace after).tail)).map fun r =>
          ((f.key, f.read) :: r.1, r.2)
      else none := by
  have hlength := length_le_flatMap hkey
  have hkeylength := hn.1
  simp only [writeText, List.length_cons, List.length_append, List.length_nil] at hkeylength
  have htext := readText_write hkey (show f.key.length < n by omega)
    (58 :: (space ++ (f.value ++ after)))
  have hcolon : skipSpace (58 :: (space ++ (f.value ++ after))) =
      58 :: (space ++ (f.value ++ after)) := skipSpace_start (by decide)
  have hvalue := skipSpace_append hspace (hread.skip after)
  rw [readMembers]
  simp only [writeText, List.cons_append, List.append_assoc, List.nil_append, List.head?_cons,
    if_true, List.tail_cons, htext, hcolon, hvalue, hread.read n after hn.2 hafter]

theorem skipSpace_writeMembers (escape : ℕ → Codes) (space : Codes) (f : Member)
    (fields : List Member) (rest : Codes) :
    skipSpace (writeMembers escape space ((f :: fields).map fun f => (f.key, f.value)) ++ rest) =
      writeMembers escape space ((f :: fields).map fun f => (f.key, f.value)) ++ rest := by
  cases fields with
  | nil => exact skipSpace_start (by decide)
  | cons g fields => exact skipSpace_start (by decide)

theorem readMembers_write {fields : List Member} (hne : fields ≠ [])
    (hspace : ∀ c ∈ space, isSpace c = true)
    (hkeys : ∀ f ∈ fields, ∀ c ∈ f.key, Escapes escape c)
    (hreads : ∀ f ∈ fields, Reads f.value f.read) {n : ℕ}
    (hn : (writeMembers escape space (fields.map fun f => (f.key, f.value))).length < n)
    (rest : Codes) :
    readMembers n (writeMembers escape space (fields.map fun f => (f.key, f.value)) ++
      125 :: rest) = some (fields.map fun f => (f.key, f.read), rest) := by
  induction fields generalizing n with
  | nil => exact absurd rfl hne
  | cons f fields ih =>
    obtain ⟨m, rfl⟩ := Nat.exists_eq_succ_of_ne_zero (Nat.ne_of_gt (Nat.zero_lt_of_lt hn))
    have hkey := hkeys f List.mem_cons_self
    have hread := hreads f List.mem_cons_self
    cases fields with
    | nil =>
      simp only [List.map_cons, List.map_nil, writeMembers, List.length_append,
        List.length_cons] at hn
      have hstep := readMembers_cons hspace hkey hread
        (show _ ∧ _ from ⟨show _ ≤ m by omega, by omega⟩) (ends_brace rest)
      rw [skipSpace_start (by decide), List.head?_cons, if_pos rfl] at hstep
      simpa [writeMembers] using hstep
    | cons g fields =>
      simp only [List.map_cons, writeMembers, List.length_append, List.length_cons] at hn
      have htail := ih (List.cons_ne_nil _ _) (fun f hf => hkeys f (List.mem_cons_of_mem _ hf))
        (fun f hf => hreads f (List.mem_cons_of_mem _ hf)) (n := m) (by
          simp only [List.map_cons]
          omega)
      have hstep := readMembers_cons (n := m) hspace hkey hread (by omega)
        (ends_comma (space ++ (writeMembers escape space
          ((g :: fields).map fun f => (f.key, f.value)) ++ 125 :: rest)))
      have hskip := skipSpace_append hspace
        (skipSpace_writeMembers escape space g fields (125 :: rest))
      rw [skipSpace_start (by decide), List.head?_cons, if_neg (by simp), if_pos rfl,
        List.tail_cons, hskip, htail] at hstep
      simpa [writeMembers] using hstep

theorem reads_object {fields : List Member} (hspace : ∀ c ∈ space, isSpace c = true)
    (hkeys : ∀ f ∈ fields, ∀ c ∈ f.key, Escapes escape c)
    (hreads : ∀ f ∈ fields, Reads f.value f.read) :
    Reads (writeObject escape space (fields.map fun f => (f.key, f.value)))
      (.object (fields.map fun f => (f.key, f.read))) := by
  constructor
  · exact ⟨123, _, rfl, by decide, by decide⟩
  · intro n rest hn _
    simp only [writeObject, List.length_cons, List.length_append, List.length_nil] at hn
    obtain ⟨m, rfl⟩ := Nat.exists_eq_succ_of_ne_zero (show n ≠ 0 by omega)
    cases fields with
    | nil =>
      have hclose : skipSpace (125 :: rest) = 125 :: rest := skipSpace_start (by decide)
      simp [writeObject, writeMembers, readValue, hclose]
    | cons f fields =>
      have hmembers := readMembers_write (List.cons_ne_nil f fields) hspace hkeys hreads
        (show _ < m by omega) rest
      have hskip := skipSpace_writeMembers escape space f fields (125 :: rest)
      have hquote : (writeMembers escape space ((f :: fields).map fun f => (f.key, f.value)) ++
          125 :: rest).head? = some 34 := by
        cases fields <;> rfl
      have h123 : ¬ (some 123 = some 34) := by simp
      have h125 : ¬ (some 34 = some 125) := by simp
      simp only [writeObject, List.cons_append, List.append_assoc, List.nil_append, readValue,
        List.head?_cons, if_neg h123, if_true, List.tail_cons, hskip, hquote, if_neg h125, hmembers,
        Option.map_some]

theorem readJson_of_reads {w : Codes} {v : Json} (h : Reads w v) : readJson w = some v := by
  have hread := h.read (w.length + 1) [] (Nat.le_succ _) (fun c hc => by cases hc)
  have hskip := h.skip []
  obtain ⟨c, cs, rfl, _, hmark⟩ := h.start
  have hhead : ¬ (some c = some 65279) := by rwa [Option.some.injEq]
  rw [List.append_nil] at hread hskip
  rw [readJson, List.head?_cons, if_neg hhead, hskip, hread]
  rfl

end Values

end NyanyaAgent.Text
