import Mathlib.Data.List.Basic
import Mathlib.Data.List.Forall2

/-!
# Backtracking patterns

Patterns as a backtracking matcher tries them: all ways to match, the first of them first.
-/
namespace NyanyaAgent.Text

/-- A place in a text: the character before it and what stands behind it. -/
abbrev Place := Option Char × List Char

inductive Regex
  | char (p : Char → Bool)
  /-- A condition on a place. -/
  | look (p : Option Char → List Char → Bool)
  | seq (a b : Regex)
  | alt (a b : Regex)
  /-- As often as possible. -/
  | star (a : Regex)

namespace Regex

variable {r a b : Regex} {q q' : Place} {p : Char → Bool}

/-- The places after some rounds of a step, each of which takes a character. -/
def rounds (step : Place → List Place) : ℕ → Place → List Place
  | 0, q => [q]
  | n + 1, q =>
    ((step q).filter fun q' => q'.2.length < q.2.length).flatMap (rounds step n) ++ [q]

/-- The places behind a match, in the order of the backtracking. -/
def ends : Regex → Place → List Place
  | char _, (_, []) => []
  | char p, (_, c :: cs) => if p c = true then [(some c, cs)] else []
  | look p, q => if p q.1 q.2 = true then [q] else []
  | seq a b, q => (a.ends q).flatMap b.ends
  | alt a b, q => a.ends q ++ b.ends q
  | star a, q => rounds a.ends q.2.length q

/-- `Pattern.match` finds something. -/
def starts (r : Regex) (q : Place) : Bool := ! (r.ends q).isEmpty

def searchFrom (r : Regex) (before : Option Char) : List Char → Bool
  | [] => r.starts (before, [])
  | c :: cs => r.starts (before, c :: cs) || searchFrom r (some c) cs

/-- `Pattern.search` finds something. -/
def search (r : Regex) (text : List Char) : Bool := r.searchFrom none text

/-- `Pattern.fullmatch` finds something. -/
def fullmatch (r : Regex) (text : List Char) : Bool :=
  (r.ends (none, text)).any fun q => q.2.isEmpty

/-- The rounds of `Pattern.sub`, for a pattern that takes at least one character. -/
def subFrom (r : Regex) (replacement : List Char) : ℕ → Place → List Char
  | 0, q => q.2
  | _ + 1, (_, []) => []
  | n + 1, (before, c :: cs) =>
    match r.ends (before, c :: cs) with
    | q :: _ => replacement ++ subFrom r replacement n q
    | [] => c :: subFrom r replacement n (some c, cs)

def sub (r : Regex) (replacement text : List Char) : List Char :=
  r.subFrom replacement text.length (none, text)

/-- The text between two places. -/
def taken (q q' : Place) : List Char := q.2.take (q.2.length - q'.2.length)

def eps : Regex := look fun _ _ => true

def all : List Regex → Regex
  | [] => eps
  | r :: rs => seq r (all rs)

def any : List Regex → Regex
  | [] => look fun _ _ => false
  | r :: rs => alt r (any rs)

def opt (a : Regex) : Regex := alt a eps

def plus (a : Regex) : Regex := seq a (star a)

/-- At most so many times. -/
def upTo : ℕ → Regex → Regex
  | 0, _ => eps
  | n + 1, a => opt (seq a (upTo n a))

def chars (ps : List (Char → Bool)) : Regex := all (ps.map char)

/-- A character that one of a pattern matches without regard to case. -/
def ignoringCase (pattern c : Char) : Bool :=
  c = pattern || c.toLower = pattern.toLower || (pattern.toLower = 's' && c.toNat = 0x17f) ||
    (pattern.toLower = 'k' && c.toNat = 0x212a) ||
    (pattern.toLower = 'i' && (c.toNat = 0x130 || c.toNat = 0x131))

theorem toLower_other {c : Char} (h : ¬ c.toNat < 128) : c.toLower = c := by
  have hupper : ¬ (c.val ≥ 'A'.val ∧ c.val ≤ 'Z'.val) := by
    rintro ⟨-, hlast⟩
    have hcode : c.toNat ≤ 90 := hlast
    omega
  exact dif_neg hupper

def word (text : String) : Regex := chars (text.toList.map fun c d => decide (d = c))

/-- A word without regard to case. -/
def wordI (text : String) : Regex := chars (text.toList.map ignoringCase)

def words (texts : List String) : Regex := any (texts.map word)

def wordsI (texts : List String) : Regex := any (texts.map wordI)

def oneOf (cs : List Char) : Regex := char fun c => cs.any fun d => d = c

/-- The sign for any character of a line. -/
def dot : Regex := char fun c => c ≠ '\n'

def atStart : Regex := look fun before _ => before.isNone

/-- The end of the text, or of its last line. -/
def atEnd : Regex := look fun _ rest => decide (rest = []) || decide (rest = ['\n'])

/-- A boundary of a word, for the characters of words. -/
def boundary (inWord : Char → Bool) : Regex :=
  look fun before rest => (before.any inWord) != (rest.head?.any inWord)

section Ends

theorem rounds_length {step : Place → List Place}
    (h : ∀ q, ∀ q' ∈ step q, q'.2.length ≤ q.2.length) (n : ℕ) :
    ∀ q' ∈ rounds step n q, q'.2.length ≤ q.2.length := by
  induction n generalizing q with
  | zero =>
    intro q' hq'
    rw [rounds, List.mem_singleton] at hq'
    exact Nat.le_of_eq (congrArg (fun q => q.2.length) hq')
  | succ n ih =>
    intro q' hq'
    rw [rounds, List.mem_append] at hq'
    rcases hq' with hq' | hq'
    · obtain ⟨q₁, hq₁, hq'⟩ := List.mem_flatMap.mp hq'
      exact Nat.le_trans (ih q' hq') (h q q₁ (List.mem_filter.mp hq₁).1)
    · exact Nat.le_of_eq (congrArg (fun q => q.2.length) (List.mem_singleton.mp hq'))

/-- The characters that every match takes at least. -/
def minLength : Regex → ℕ
  | char _ => 1
  | look _ => 0
  | seq a b => a.minLength + b.minLength
  | alt a b => min a.minLength b.minLength
  | star _ => 0

theorem ends_length (r : Regex) (q : Place) :
    ∀ q' ∈ r.ends q, q'.2.length + r.minLength ≤ q.2.length := by
  induction r generalizing q with
  | char p =>
    intro q' hq'
    obtain ⟨before, text⟩ := q
    cases text with
    | nil => cases hq'
    | cons c cs =>
      rw [ends] at hq'
      split_ifs at hq'
      · rw [List.mem_singleton.mp hq']
        exact Nat.le_refl _
      · cases hq'
  | look p =>
    intro q' hq'
    rw [ends] at hq'
    split_ifs at hq'
    · rw [List.mem_singleton.mp hq']
      exact Nat.le_refl _
    · cases hq'
  | seq a b iha ihb =>
    intro q' hq'
    obtain ⟨q₁, hq₁, hq'⟩ := List.mem_flatMap.mp hq'
    have hfirst := iha q q₁ hq₁
    have hsecond := ihb q₁ q' hq'
    rw [minLength]
    omega
  | alt a b iha ihb =>
    intro q' hq'
    rw [minLength]
    rcases List.mem_append.mp hq' with hq' | hq'
    · have hfirst := iha q q' hq'
      omega
    · have hsecond := ihb q q' hq'
      omega
  | star a iha =>
    intro q' hq'
    exact rounds_length (fun q q' hq' => Nat.le_trans (Nat.le_add_right _ _) (iha q q' hq')) _ q' hq'

theorem mem_ends_char : q' ∈ (char p).ends q ↔ ∃ c, q.2 = c :: q'.2 ∧ p c = true ∧ q'.1 = some c := by
  obtain ⟨before, text⟩ := q
  obtain ⟨before', text'⟩ := q'
  cases text with
  | nil => simp [ends]
  | cons c cs =>
    rw [ends]
    by_cases hc : p c = true
    · rw [if_pos hc, List.mem_singleton]
      constructor
      · rintro ⟨rfl, rfl⟩
        exact ⟨c, rfl, hc, rfl⟩
      · rintro ⟨d, htext, -, hbefore⟩
        simp only [List.cons.injEq] at htext hbefore
        rw [hbefore, ← htext.1, ← htext.2]
    · rw [if_neg hc]
      constructor
      · exact fun h => by cases h
      · rintro ⟨d, htext, hd, -⟩
        simp only [List.cons.injEq] at htext
        rw [← htext.1] at hd
        exact absurd hd hc

theorem mem_ends_seq : q' ∈ (seq a b).ends q ↔ ∃ q₁ ∈ a.ends q, q' ∈ b.ends q₁ :=
  List.mem_flatMap

theorem mem_ends_alt : q' ∈ (alt a b).ends q ↔ q' ∈ a.ends q ∨ q' ∈ b.ends q := List.mem_append

theorem mem_ends_look {p : Option Char → List Char → Bool} :
    q' ∈ (look p).ends q ↔ q' = q ∧ p q.1 q.2 = true := by
  rw [ends]
  split_ifs with h
  · simp [h]
  · simp [h]

theorem mem_ends_any {rs : List Regex} : q' ∈ (any rs).ends q ↔ ∃ r ∈ rs, q' ∈ r.ends q := by
  induction rs with
  | nil => simp [any, mem_ends_look]
  | cons r rs ih => simp [any, mem_ends_alt, ih]

theorem mem_ends_chars {ps : List (Char → Bool)} : q' ∈ (chars ps).ends q ↔
    ∃ cs, q.2 = cs ++ q'.2 ∧ List.Forall₂ (fun p c => p c = true) ps cs ∧
      q'.1 = cs.getLast?.or q.1 := by
  unfold chars
  induction ps generalizing q with
  | nil =>
    rw [List.map_nil, all, eps, mem_ends_look]
    constructor
    · rintro ⟨rfl, -⟩
      exact ⟨[], rfl, .nil, rfl⟩
    · rintro ⟨cs, htext, hall, hbefore⟩
      cases hall
      exact ⟨Prod.ext hbefore htext.symm, rfl⟩
  | cons p ps ih =>
    rw [List.map_cons, all, mem_ends_seq]
    constructor
    · rintro ⟨q₁, hq₁, hq'⟩
      obtain ⟨c, htext, hc, hbefore⟩ := mem_ends_char.mp hq₁
      obtain ⟨cs, hrest, hall, hlast⟩ := ih.mp hq'
      refine ⟨c :: cs, by rw [htext, hrest, List.cons_append], .cons hc hall, ?_⟩
      rw [hlast, hbefore, List.getLast?_cons]
      cases cs.getLast? <;> rfl
    · rintro ⟨cs, htext, hall, hbefore⟩
      cases hall with
      | @cons _ c _ cs hc hall =>
        refine ⟨(some c, cs ++ q'.2), mem_ends_char.mpr ⟨c, htext, hc, rfl⟩,
          ih.mpr ⟨cs, rfl, hall, ?_⟩⟩
        rw [hbefore, List.getLast?_cons]
        cases cs.getLast? <;> rfl

theorem ends_star_nil {before : Option Char} :
    (star (char p)).ends (before, []) = [(before, [])] := rfl

theorem ends_star_cons {before : Option Char} {c : Char} {cs : List Char} :
    (star (char p)).ends (before, c :: cs) =
      if p c = true then (star (char p)).ends (some c, cs) ++ [(before, c :: cs)]
      else [(before, c :: cs)] := by
  rw [ends, List.length_cons, rounds, ends]
  by_cases hc : p c = true
  · rw [if_pos hc, if_pos hc]
    simp [ends]
  · rw [if_neg hc, if_neg hc]
    rfl

theorem mem_ends_star_char : q' ∈ (star (char p)).ends q ↔
    ∃ cs, q.2 = cs ++ q'.2 ∧ (∀ c ∈ cs, p c = true) ∧ q'.1 = cs.getLast?.or q.1 := by
  obtain ⟨before, text⟩ := q
  induction text generalizing before with
  | nil =>
    rw [ends_star_nil, List.mem_singleton]
    constructor
    · rintro rfl
      exact ⟨[], rfl, fun c hc => absurd hc List.not_mem_nil, rfl⟩
    · rintro ⟨cs, htext, -, hbefore⟩
      obtain ⟨rfl, hrest⟩ := List.append_eq_nil_iff.mp htext.symm
      exact Prod.ext hbefore hrest
  | cons c text ih =>
    rw [ends_star_cons]
    constructor
    · intro h
      split_ifs at h with hc
      · rcases List.mem_append.mp h with h | h
        · obtain ⟨cs, htext, hall, hbefore⟩ := (ih (some c)).mp h
          refine ⟨c :: cs, congrArg (c :: ·) htext, List.forall_mem_cons.mpr ⟨hc, hall⟩, ?_⟩
          rw [hbefore, List.getLast?_cons]
          cases cs.getLast? <;> rfl
        · rw [List.mem_singleton.mp h]
          exact ⟨[], rfl, fun c hc => absurd hc List.not_mem_nil, rfl⟩
      · rw [List.mem_singleton.mp h]
        exact ⟨[], rfl, fun c hc => absurd hc List.not_mem_nil, rfl⟩
    · rintro ⟨cs, htext, hall, hbefore⟩
      cases cs with
      | nil =>
        have hsame : q' = (before, c :: text) := Prod.ext hbefore htext.symm
        split_ifs <;> simp [hsame]
      | cons d cs =>
        obtain ⟨hd, htext⟩ := List.cons.inj htext
        obtain ⟨hc, hall⟩ := List.forall_mem_cons.mp hall
        rw [hd, if_pos hc, List.mem_append, ← hd]
        refine .inl ((ih (some c)).mpr ⟨cs, htext, hall, ?_⟩)
        rw [hbefore, List.getLast?_cons, hd]
        cases cs.getLast? <;> rfl

theorem ends_plus_char {q' : Place} (h : q' ∈ (plus (char p)).ends q) :
    ∃ cs, q.2 = cs ++ q'.2 ∧ cs ≠ [] ∧ ∀ c ∈ cs, p c = true := by
  obtain ⟨q₁, hq₁, hq'⟩ := mem_ends_seq.mp h
  obtain ⟨c, htext, hc, -⟩ := mem_ends_char.mp hq₁
  obtain ⟨cs, hrest, hall, -⟩ := mem_ends_star_char.mp hq'
  exact ⟨c :: cs, by rw [htext, hrest, List.cons_append], List.cons_ne_nil _ _,
    List.forall_mem_cons.mpr ⟨hc, hall⟩⟩

theorem mem_ends_wordsI {texts : List String} : q' ∈ (wordsI texts).ends q ↔
    ∃ text ∈ texts, ∃ cs, q.2 = cs ++ q'.2 ∧
      List.Forall₂ (fun p c => ignoringCase p c = true) text.toList cs ∧
      q'.1 = cs.getLast?.or q.1 := by
  rw [wordsI, mem_ends_any]
  constructor
  · rintro ⟨r, hr, hq'⟩
    obtain ⟨text, htext, rfl⟩ := List.mem_map.mp hr
    obtain ⟨cs, hsplit, hall, hbefore⟩ := mem_ends_chars.mp hq'
    exact ⟨text, htext, cs, hsplit, List.forall₂_map_left_iff.mp hall, hbefore⟩
  · rintro ⟨text, htext, cs, hsplit, hall, hbefore⟩
    exact ⟨wordI text, List.mem_map_of_mem htext,
      mem_ends_chars.mpr ⟨cs, hsplit, List.forall₂_map_left_iff.mpr hall, hbefore⟩⟩

theorem taken_append {q q' : Place} {cs : List Char} (h : q.2 = cs ++ q'.2) : taken q q' = cs := by
  rw [taken, h, List.length_append, Nat.add_sub_cancel, List.take_left']
  rfl

end Ends

section Greedy

/-- The first way to match, which is the one that counts. -/
def first (r : Regex) (q : Place) : Option Place := (r.ends q).head?

theorem first_seq : (seq a b).first q = (a.ends q).findSome? b.first := List.head?_flatMap

/-- A repeated character takes all of them first. -/
theorem first_star_char {before : Option Char} {cs rest : List Char} (hall : ∀ c ∈ cs, p c = true)
    (hrest : rest.head?.any p = false) :
    (star (char p)).first (before, cs ++ rest) = some (cs.getLast?.or before, rest) := by
  unfold first
  induction cs generalizing before with
  | nil =>
    cases rest with
    | nil => rfl
    | cons c rest =>
      rw [List.nil_append, ends_star_cons, if_neg (by simpa using hrest)]
      rfl
  | cons c cs ih =>
    obtain ⟨hc, hall⟩ := List.forall_mem_cons.mp hall
    rw [List.cons_append, ends_star_cons, if_pos hc, List.head?_append, ih hall, List.getLast?_cons]
    cases cs.getLast? <;> rfl

theorem first_plus_char {before : Option Char} {cs rest : List Char} (hne : cs ≠ [])
    (hall : ∀ c ∈ cs, p c = true) (hrest : rest.head?.any p = false) :
    (plus (char p)).first (before, cs ++ rest) = some (cs.getLast?, rest) := by
  cases cs with
  | nil => exact absurd rfl hne
  | cons c cs =>
    obtain ⟨hc, hall⟩ := List.forall_mem_cons.mp hall
    rw [plus, first_seq, List.cons_append, ends, if_pos hc, List.findSome?_singleton,
      first_star_char hall hrest, List.getLast?_cons]
    cases cs.getLast? <;> rfl

/-- Behind repeated characters, what stands first behind all of them. -/
theorem first_star_seq {before : Option Char} {cs rest : List Char} (hall : ∀ c ∈ cs, p c = true)
    (hrest : rest.head?.any p = false) (h : b.first (cs.getLast?.or before, rest) = some q') :
    (seq (star (char p)) b).first (before, cs ++ rest) = some q' := by
  rw [first_seq]
  induction cs generalizing before with
  | nil =>
    cases rest with
    | nil => rw [List.nil_append, ends_star_nil, List.findSome?_singleton]; exact h
    | cons c rest =>
      rw [List.nil_append, ends_star_cons, if_neg (by simpa using hrest), List.findSome?_singleton]
      exact h
  | cons c cs ih =>
    obtain ⟨hc, hall⟩ := List.forall_mem_cons.mp hall
    have hsame : cs.getLast?.or (some c) = (c :: cs).getLast?.or before := by
      rw [List.getLast?_cons]
      cases cs.getLast? <;> rfl
    rw [List.cons_append, ends_star_cons, if_pos hc, List.findSome?_append, ih hall (hsame ▸ h)]
    rfl

end Greedy

section Search

/-- A match somewhere in a text is found. -/
theorem searchFrom_append {before : Option Char} {start rest : List Char}
    (h : r.starts (start.getLast?.or before, rest) = true) :
    r.searchFrom before (start ++ rest) = true := by
  induction start generalizing before with
  | nil =>
    cases rest with
    | nil => exact h
    | cons c cs =>
      rw [List.nil_append, searchFrom, Bool.or_eq_true]
      exact .inl h
  | cons c start ih =>
    rw [List.cons_append, searchFrom, Bool.or_eq_true]
    refine .inr (ih ?_)
    rw [List.getLast?_cons] at h
    cases hlast : start.getLast? with
    | none =>
      rw [hlast] at h
      exact h
    | some d =>
      rw [hlast] at h
      exact h

theorem starts_iff : r.starts q = true ↔ ∃ q', q' ∈ r.ends q := by
  unfold starts
  cases r.ends q with
  | nil => simp
  | cons q' rest => simp

/-- Replacing matches by a shorter text makes a text shorter, or leaves it as it is. -/
theorem subFrom_length {replacement : List Char} (h : replacement.length < r.minLength) (n : ℕ) :
    r.subFrom replacement n q = q.2 ∨ (r.subFrom replacement n q).length < q.2.length := by
  induction n generalizing q with
  | zero => exact .inl rfl
  | succ n ih =>
    obtain ⟨before, text⟩ := q
    cases text with
    | nil => exact .inl rfl
    | cons c cs =>
      rw [subFrom]
      cases hends : r.ends (before, c :: cs) with
      | nil =>
        rcases ih (q := (some c, cs)) with hsame | hshort
        · exact .inl (congrArg (c :: ·) hsame)
        · exact .inr (Nat.succ_lt_succ hshort)
      | cons q' rest =>
        have hlength := ends_length r (before, c :: cs) q' (by rw [hends]; exact List.mem_cons_self)
        have hrest : (r.subFrom replacement n q').length ≤ q'.2.length := by
          rcases ih (q := q') with hsame | hshort
          · exact Nat.le_of_eq (congrArg List.length hsame)
          · exact Nat.le_of_lt hshort
        right
        simp only [List.length_append] at hlength ⊢
        omega

theorem sub_length {replacement : List Char} (h : replacement.length < r.minLength)
    (text : List Char) :
    r.sub replacement text = text ∨ (r.sub replacement text).length < text.length :=
  subFrom_length h _

end Search

end Regex

end NyanyaAgent.Text
