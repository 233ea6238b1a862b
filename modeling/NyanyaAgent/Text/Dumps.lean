import NyanyaAgent.Text.Json
import Mathlib.Algebra.Ring.Nat

/-!
# Text of a bounded size

The UTF-8 length of text, `json.dumps` with its default separators, and the insertion of
a block at the first occurrence of a marker.
-/
namespace NyanyaAgent.Text

/-- The length of the text's UTF-8 encoding. -/
def byteLength (cs : List Char) : ℕ := (String.ofList cs).utf8ByteSize

@[simp] theorem byteLength_nil : byteLength [] = 0 := rfl

@[simp] theorem byteLength_append (xs ys : List Char) :
    byteLength (xs ++ ys) = byteLength xs + byteLength ys := by
  simp [byteLength, String.ofList_append]

theorem byteLength_cons (c : Char) (cs : List Char) :
    byteLength (c :: cs) = byteLength [c] + byteLength cs :=
  byteLength_append [c] cs

theorem byteLength_toList (s : String) : byteLength s.toList = s.utf8ByteSize := by
  simp [byteLength]

theorem byteLength_eq_sum (cs : List Char) : byteLength cs = (cs.map Char.utf8Size).sum := by
  induction cs with
  | nil => rfl
  | cons c cs ih =>
    rw [byteLength_cons, ih, List.map_cons, List.sum_cons]
    simp [byteLength]

/-- A bound on a literal from its characters, without its encoding. -/
theorem utf8ByteSize_le {s : String} {n : ℕ} (cs : List Char) (hs : s = String.ofList cs)
    (h : (cs.map Char.utf8Size).sum ≤ n) : s.utf8ByteSize ≤ n := by
  rw [← byteLength_eq_sum] at h
  rw [hs]
  exact h

theorem isDigit_byteLength {c : Char} (h : c.isDigit = true) : byteLength [c] = 1 := by
  have hlt : c.val ≤ 57 := by
    simp only [Char.isDigit, ge_iff_le, Bool.and_eq_true, decide_eq_true_eq] at h
    exact h.2
  have hsize : c.utf8Size = 1 := by
    have hle : c.val ≤ 127 := UInt32.le_trans hlt (by decide)
    simp [Char.utf8Size, hle]
  simp [byteLength, hsize]

theorem digits_byteLength {cs : List Char} (h : ∀ c ∈ cs, c.isDigit = true) :
    byteLength cs = cs.length := by
  induction cs with
  | nil => rfl
  | cons c cs ih =>
    have hc := isDigit_byteLength (h c List.mem_cons_self)
    have hcs := ih fun d hd => h d (List.mem_cons_of_mem _ hd)
    rw [byteLength_cons, hc, hcs, List.length_cons, Nat.add_comm]

theorem toDigits_byteLength (n : ℕ) :
    byteLength (Nat.toDigits 10 n) = (Nat.toDigits 10 n).length :=
  digits_byteLength fun _ hc => Nat.isDigit_of_mem_toDigits (by decide) (by decide) hc

/-- A smaller number is not written with more digits. -/
theorem toDigits_byteLength_mono {m n : ℕ} (h : m ≤ n) :
    byteLength (Nat.toDigits 10 m) ≤ byteLength (Nat.toDigits 10 n) := by
  rw [toDigits_byteLength, toDigits_byteLength,
    Nat.length_toDigits_le_iff (by decide) Nat.length_toDigits_pos]
  exact Nat.lt_of_le_of_lt h
    ((Nat.length_toDigits_le_iff (by decide) Nat.length_toDigits_pos).mp (Nat.le_refl _))

theorem toDigits_byteLength_le {n k : ℕ} (hk : 0 < k) (h : n < 10 ^ k) :
    byteLength (Nat.toDigits 10 n) ≤ k := by
  rw [toDigits_byteLength]
  exact (Nat.length_toDigits_le_iff (by decide) hk).mpr h

/-- Values between the separators `", "`. -/
def spaced : List (List Char) → List Char
  | [] => []
  | [x] => x
  | x :: xs => x ++ ',' :: ' ' :: spaced xs

theorem spaced_cons (x y : List Char) (ys : List (List Char)) :
    spaced (x :: y :: ys) = x ++ ([',', ' '] ++ spaced (y :: ys)) := rfl

def dumpsField (field : String × List Char) : List Char :=
  renderText field.1 ++ ':' :: ' ' :: field.2

def dumpsObject (fields : List (String × List Char)) : List Char :=
  openBrace :: (spaced (fields.map dumpsField) ++ [closeBrace])

def dumpsArray (items : List (List Char)) : List Char := '[' :: (spaced items ++ [']'])

/-- The length of a joined text depends on the lengths of its parts. -/
theorem spaced_byteLength {xs ys : List (List Char)} (h : xs.map byteLength = ys.map byteLength) :
    byteLength (spaced xs) = byteLength (spaced ys) := by
  induction xs generalizing ys with
  | nil =>
    cases ys with
    | nil => rfl
    | cons y ys => cases h
  | cons x xs ih =>
    cases ys with
    | nil => cases h
    | cons y ys =>
      obtain ⟨hxy, hrest⟩ := List.cons.inj h
      cases xs with
      | nil =>
        cases ys with
        | nil => exact hxy
        | cons z ys => cases hrest
      | cons w xs =>
        cases ys with
        | nil => cases hrest
        | cons z ys =>
          have hspaced := ih hrest
          simp only [spaced_cons, byteLength_append, hxy, hspaced]

theorem dumpsField_byteLength {name : String} {x y : List Char} (h : byteLength x = byteLength y) :
    byteLength (dumpsField (name, x)) = byteLength (dumpsField (name, y)) := by
  rw [dumpsField, dumpsField, byteLength_append, byteLength_append, byteLength_cons,
    byteLength_cons ' ', h, ← byteLength_cons ' ', ← byteLength_cons]

theorem dumpsObject_byteLength {fs gs : List (String × List Char)}
    (h : (fs.map dumpsField).map byteLength = (gs.map dumpsField).map byteLength) :
    byteLength (dumpsObject fs) = byteLength (dumpsObject gs) := by
  rw [dumpsObject, dumpsObject, byteLength_cons, byteLength_append, spaced_byteLength h,
    ← byteLength_append, ← byteLength_cons]

theorem infix_spaced {x : List Char} {xs : List (List Char)} (h : x ∈ xs) : x <:+: spaced xs := by
  induction xs with
  | nil => exact absurd h List.not_mem_nil
  | cons y ys ih =>
    cases ys with
    | nil =>
      rw [List.mem_singleton.mp h]
      exact List.infix_rfl
    | cons z zs =>
      rw [spaced_cons]
      rcases List.mem_cons.mp h with rfl | htail
      · exact (List.prefix_append x _).isInfix
      · have hsuffix : spaced (z :: zs) <:+ y ++ ([',', ' '] ++ spaced (z :: zs)) :=
          ⟨y ++ [',', ' '], by simp⟩
        exact (ih htail).trans hsuffix.isInfix

/-- Every field of an object stands in its text whole. -/
theorem infix_dumpsObject {f : String × List Char} {fields : List (String × List Char)}
    (h : f ∈ fields) : dumpsField f <:+: dumpsObject fields := by
  have hinfix := infix_spaced (List.mem_map_of_mem (f := dumpsField) h)
  exact hinfix.trans ⟨[openBrace], [closeBrace], by simp [dumpsObject]⟩

/-- `text.replace(marker, block + marker, 1)` for a marker that is not empty. -/
def insertBefore (marker block : List Char) : List Char → List Char
  | [] => []
  | c :: cs =>
    if marker.isPrefixOf (c :: cs) then block ++ c :: cs else c :: insertBefore marker block cs

/-- The block goes in no later than at a given occurrence of the marker; what follows stays. -/
theorem insertBefore_append {marker : List Char} (hmarker : marker ≠ [])
    (block before rest : List Char) :
    ∃ early late, before = early ++ late ∧
      insertBefore marker block (before ++ (marker ++ rest)) =
        early ++ block ++ late ++ (marker ++ rest) := by
  induction before with
  | nil =>
    obtain ⟨c, cs, rfl⟩ := List.exists_cons_of_ne_nil hmarker
    refine ⟨[], [], rfl, ?_⟩
    have hprefix : (c :: cs).isPrefixOf (c :: (cs ++ rest)) = true := by
      rw [List.isPrefixOf_iff_prefix]
      exact ⟨rest, rfl⟩
    simp [insertBefore, hprefix]
  | cons b bs ih =>
    rw [List.cons_append, insertBefore]
    split_ifs with hprefix
    · exact ⟨[], b :: bs, rfl, by simp⟩
    · obtain ⟨early, late, hsplit, hinsert⟩ := ih
      exact ⟨b :: early, late, by rw [hsplit]; rfl, by rw [hinsert]; simp⟩

end NyanyaAgent.Text
