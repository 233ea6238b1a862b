import Mathlib.Data.List.Basic

/-!
# Stripping and splitting text

Removal of matching characters at both ends of a list, and what it keeps.
-/
namespace NyanyaAgent.Text

/-- The list without the matching elements at its front. -/
def lstrip {α : Type} (p : α → Bool) (cs : List α) : List α := cs.dropWhile p

def rstrip {α : Type} (p : α → Bool) (cs : List α) : List α := (cs.reverse.dropWhile p).reverse

def strip {α : Type} (p : α → Bool) (cs : List α) : List α := rstrip p (lstrip p cs)

variable {α : Type} {p q : α → Bool}

theorem lstrip_subset {c : α} {cs : List α} (h : c ∈ lstrip p cs) : c ∈ cs :=
  (List.dropWhile_sublist p).subset h

theorem rstrip_subset {c : α} {cs : List α} (h : c ∈ rstrip p cs) : c ∈ cs := by
  rw [rstrip, List.mem_reverse] at h
  exact List.mem_reverse.mp ((List.dropWhile_sublist p).subset h)

theorem strip_subset {c : α} {cs : List α} (h : c ∈ strip p cs) : c ∈ cs :=
  lstrip_subset (rstrip_subset h)

theorem lstrip_congr {cs : List α} (h : ∀ c ∈ cs, p c = q c) : lstrip p cs = lstrip q cs := by
  induction cs with
  | nil => rfl
  | cons c cs ih =>
    have hc := h c List.mem_cons_self
    have hcs := ih fun d hd => h d (List.mem_cons_of_mem _ hd)
    simp only [lstrip, List.dropWhile_cons, hc] at hcs ⊢
    rw [hcs]

theorem rstrip_congr {cs : List α} (h : ∀ c ∈ cs, p c = q c) : rstrip p cs = rstrip q cs := by
  have hreverse : lstrip p cs.reverse = lstrip q cs.reverse :=
    lstrip_congr fun c hc => h c (List.mem_reverse.mp hc)
  rw [rstrip, rstrip]
  exact congrArg List.reverse hreverse

theorem strip_congr {cs : List α} (h : ∀ c ∈ cs, p c = q c) : strip p cs = strip q cs := by
  rw [strip, strip, lstrip_congr h]
  exact rstrip_congr fun c hc => h c (lstrip_subset hc)

/-- An element that stays keeps what is behind it from the left strip. -/
theorem lstrip_append_cons {a b : List α} {c : α} (hc : p c = false) :
    lstrip p (a ++ c :: b) = lstrip p a ++ c :: b := by
  induction a with
  | nil => simp [lstrip, hc]
  | cons d a ih =>
    simp only [lstrip, List.cons_append, List.dropWhile_cons] at ih ⊢
    split_ifs
    · exact ih
    · rfl

theorem rstrip_append_cons {a b : List α} {c : α} (hc : p c = false) :
    rstrip p (a ++ c :: b) = a ++ c :: rstrip p b := by
  have hleft := lstrip_append_cons (p := p) (a := b.reverse) (b := a.reverse) hc
  simp only [lstrip] at hleft
  rw [rstrip, rstrip, List.reverse_append, List.reverse_cons, List.append_assoc,
    List.singleton_append, hleft]
  simp

/-- Around an element that stays the two ends are stripped apart. -/
theorem strip_append_cons {a b : List α} {c : α} (hc : p c = false) :
    strip p (a ++ c :: b) = lstrip p a ++ c :: rstrip p b := by
  rw [strip, lstrip_append_cons hc, rstrip_append_cons hc]

theorem lstrip_eq_self {cs : List α} : lstrip p cs = cs ↔ ∀ c ∈ cs.head?, p c = false := by
  cases cs with
  | nil => simp [lstrip]
  | cons c cs =>
    simp only [lstrip, List.dropWhile_cons, List.head?_cons, Option.mem_def, Option.some.injEq,
      forall_eq']
    constructor
    · intro h
      by_contra hp
      rw [Bool.not_eq_false] at hp
      rw [if_pos hp] at h
      have hle := (List.dropWhile_sublist p (l := cs)).length_le
      rw [h, List.length_cons] at hle
      omega
    · intro h
      simp [h]

theorem rstrip_eq_self {cs : List α} : rstrip p cs = cs ↔ ∀ c ∈ cs.getLast?, p c = false := by
  rw [rstrip, List.reverse_eq_iff, ← List.head?_reverse]
  exact lstrip_eq_self

theorem lstrip_sublist (cs : List α) : (lstrip p cs).Sublist cs := List.dropWhile_sublist p

theorem rstrip_sublist (cs : List α) : (rstrip p cs).Sublist cs := by
  have hreverse := (List.dropWhile_sublist p (l := cs.reverse)).reverse
  rwa [List.reverse_reverse] at hreverse

theorem strip_sublist (p : α → Bool) (cs : List α) : (strip p cs).Sublist cs :=
  (rstrip_sublist _).trans (lstrip_sublist cs)

theorem mem_takeWhile {c : α} {cs : List α} (h : c ∈ cs.takeWhile p) : p c = true := by
  induction cs with
  | nil => cases h
  | cons d cs ih =>
    rw [List.takeWhile_cons] at h
    split_ifs at h with hd
    · rcases List.mem_cons.mp h with rfl | hc
      · exact hd
      · exact ih hc
    · cases h

theorem strip_eq_self {cs : List α} :
    strip p cs = cs ↔ (∀ c ∈ cs.head?, p c = false) ∧ ∀ c ∈ cs.getLast?, p c = false := by
  rw [← lstrip_eq_self, ← rstrip_eq_self]
  constructor
  · intro h
    have hright := (rstrip_sublist (p := p) (lstrip p cs)).length_le
    have hleft := (lstrip_sublist (p := p) cs).length_le
    rw [← strip, h] at hright
    have heq := (lstrip_sublist (p := p) cs).eq_of_length_le hright
    refine ⟨heq, ?_⟩
    rw [strip, heq] at h
    exact h
  · rintro ⟨hleft, hright⟩
    rw [strip, hleft, hright]

theorem lstrip_of_all {cs : List α} (h : ∀ c ∈ cs, p c = true) : lstrip p cs = [] := by
  induction cs with
  | nil => rfl
  | cons c cs ih =>
    have hcs := ih fun d hd => h d (List.mem_cons_of_mem _ hd)
    rw [lstrip, List.dropWhile_cons_of_pos (h c List.mem_cons_self)]
    exact hcs

theorem rstrip_of_all {cs : List α} (h : ∀ c ∈ cs, p c = true) : rstrip p cs = [] := by
  rw [rstrip, List.reverse_eq_nil_iff]
  exact lstrip_of_all fun c hc => h c (List.mem_reverse.mp hc)

theorem all_or_split (p : α → Bool) (cs : List α) :
    (∀ c ∈ cs, p c = true) ∨ ∃ a c b, cs = a ++ c :: b ∧ p c = false := by
  by_cases h : ∃ c ∈ cs, p c = false
  · obtain ⟨c, hc, hp⟩ := h
    obtain ⟨a, b, rfl⟩ := List.append_of_mem hc
    exact .inr ⟨a, c, b, rfl, hp⟩
  · left
    intro c hc
    by_contra hp
    exact h ⟨c, hc, by simpa using hp⟩

theorem lstrip_lstrip (cs : List α) : lstrip p (lstrip p cs) = lstrip p cs := by
  induction cs with
  | nil => rfl
  | cons c cs ih =>
    simp only [lstrip, List.dropWhile_cons] at ih ⊢
    split_ifs with hc
    · exact ih
    · rw [List.dropWhile_cons, if_neg hc]

theorem rstrip_rstrip (cs : List α) : rstrip p (rstrip p cs) = rstrip p cs := by
  have hleft := lstrip_lstrip (p := p) cs.reverse
  simp only [lstrip] at hleft
  rw [rstrip, rstrip, List.reverse_reverse, hleft]

/-- The two ends may be stripped in either order. -/
theorem strip_eq_lstrip_rstrip (cs : List α) : strip p cs = lstrip p (rstrip p cs) := by
  rcases all_or_split p cs with hall | ⟨a, c, b, rfl, hc⟩
  · rw [strip, lstrip_of_all hall, rstrip_of_all hall]
    rfl
  · rw [strip_append_cons hc, rstrip_append_cons hc, lstrip_append_cons hc]

theorem strip_lstrip (cs : List α) : strip p (lstrip p cs) = strip p cs := by
  rw [strip, lstrip_lstrip, strip]

theorem strip_rstrip (cs : List α) : strip p (rstrip p cs) = strip p cs := by
  rw [strip_eq_lstrip_rstrip, rstrip_rstrip, strip_eq_lstrip_rstrip]

/-- The text is what is stripped around what stays. -/
theorem strip_split (p : α → Bool) (cs : List α) : ∃ a b, cs = a ++ (strip p cs ++ b) ∧
    (∀ c ∈ a, p c = true) ∧ ∀ c ∈ b, p c = true := by
  refine ⟨cs.takeWhile p, ((lstrip p cs).reverse.takeWhile p).reverse, ?_, ?_, ?_⟩
  · have hright : strip p cs ++ ((lstrip p cs).reverse.takeWhile p).reverse = lstrip p cs := by
      rw [strip, rstrip, ← List.reverse_append, List.takeWhile_append_dropWhile,
        List.reverse_reverse]
    rw [hright, lstrip, List.takeWhile_append_dropWhile]
  · exact fun c hc => mem_takeWhile hc
  · exact fun c hc => mem_takeWhile (List.mem_reverse.mp hc)

/-- Two strips leave the text alone when each of them does. -/
theorem strip_strip_eq_self {cs : List α} :
    strip q (strip p cs) = cs ↔ strip p cs = cs ∧ strip q cs = cs := by
  constructor
  · intro h
    have hle := (strip_sublist q (strip p cs)).length_le
    rw [h] at hle
    have heq := (strip_sublist p cs).eq_of_length_le hle
    rw [heq] at h
    exact ⟨heq, h⟩
  · rintro ⟨hp, hq⟩
    rw [hp, hq]

/-- A matching pair around the text is stripped with it. -/
theorem strip_wrapped {c d : α} (hc : p c = true) (hd : p d = true) (inner : List α) :
    strip p (c :: (inner ++ [d])) = strip p inner := by
  have hleft : lstrip p (c :: (inner ++ [d])) = lstrip p (inner ++ [d]) := by
    simp [lstrip, hc]
  have hright : rstrip p (inner ++ [d]) = rstrip p inner := by
    simp [rstrip, hd]
  rw [strip, hleft, ← strip, strip_eq_lstrip_rstrip, hright, ← strip_eq_lstrip_rstrip]

/-- What stands before and behind the first mark. -/
def splitFirst {α : Type} [DecidableEq α] (mark : α) : List α → Option (List α × List α)
  | [] => none
  | c :: cs =>
    if c = mark then some ([], cs) else (splitFirst mark cs).map fun s => (c :: s.1, s.2)

theorem splitFirst_eq_some [DecidableEq α] {mark : α} {cs a b : List α} :
    splitFirst mark cs = some (a, b) ↔ cs = a ++ mark :: b ∧ mark ∉ a := by
  induction cs generalizing a with
  | nil => simp [splitFirst]
  | cons c cs ih =>
    unfold splitFirst
    split_ifs with hc
    · subst hc
      cases a with
      | nil => simp [eq_comm]
      | cons d a =>
        simp only [Option.some.injEq, Prod.mk.injEq, List.cons_append, List.cons.injEq,
          List.mem_cons, not_or, false_and, false_iff, reduceCtorEq]
        rintro ⟨⟨rfl, -⟩, hne, -⟩
        exact hne rfl
    · cases a with
      | nil =>
        simp only [Option.map_eq_some_iff, List.nil_append, List.cons.injEq]
        constructor
        · rintro ⟨s, -, hs⟩
          cases hs
        · rintro ⟨⟨rfl, -⟩, -⟩
          exact absurd rfl hc
      | cons d a =>
        have hiff := ih (a := a)
        simp only [Option.map_eq_some_iff, Prod.mk.injEq, List.cons.injEq, List.cons_append,
          List.mem_cons, not_or]
        constructor
        · rintro ⟨⟨a', b'⟩, hs, ⟨rfl, rfl⟩, rfl⟩
          obtain ⟨rfl, hmark⟩ := hiff.mp hs
          exact ⟨⟨rfl, rfl⟩, fun h => hc h.symm, hmark⟩
        · rintro ⟨⟨rfl, hcs⟩, -, hmark⟩
          exact ⟨(a, b), hiff.mpr ⟨hcs, hmark⟩, ⟨rfl, rfl⟩, rfl⟩

theorem splitFirst_eq_none [DecidableEq α] {mark : α} {cs : List α} :
    splitFirst mark cs = none ↔ mark ∉ cs := by
  induction cs with
  | nil => simp [splitFirst]
  | cons c cs ih =>
    unfold splitFirst
    split_ifs with hc
    · simp [hc]
    · simp [ih, Ne.symm hc]

theorem splitFirst_append [DecidableEq α] {mark : α} {before : List α} (h : mark ∉ before)
    (cs : List α) : splitFirst mark (before ++ cs) =
      (splitFirst mark cs).map fun s => (before ++ s.1, s.2) := by
  cases hsplit : splitFirst mark cs with
  | none =>
    rw [Option.map_none, splitFirst_eq_none, List.mem_append]
    rintro (hb | hc)
    · exact h hb
    · exact splitFirst_eq_none.mp hsplit hc
  | some s =>
    obtain ⟨a, b⟩ := s
    obtain ⟨rfl, ha⟩ := splitFirst_eq_some.mp hsplit
    rw [Option.map_some, splitFirst_eq_some, List.append_assoc]
    refine ⟨rfl, fun hmem => ?_⟩
    rcases List.mem_append.mp hmem with hb | hc
    · exact h hb
    · exact ha hc

end NyanyaAgent.Text
