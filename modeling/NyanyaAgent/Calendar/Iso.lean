import Mathlib.Algebra.Ring.Nat
import Mathlib.Data.Nat.Notation
import Mathlib.Data.List.Basic
import Mathlib.Logic.Function.Iterate
import Mathlib.Order.Basic

/-!
# Dates and their text

Instants in seconds since 1970 in UTC, their calendar fields, and the text
`YYYY-MM-DDTHH:MM:SS+00:00`. Fields and texts are ordered as the instants are.
-/
namespace NyanyaAgent.Calendar

/-- A day of the proleptic Gregorian calendar. -/
structure Date where
  year : ℕ
  month : ℕ
  day : ℕ
  deriving DecidableEq

def leap (year : ℕ) : Prop := year % 4 = 0 ∧ (year % 100 ≠ 0 ∨ year % 400 = 0)

instance (year : ℕ) : Decidable (leap year) := by unfold leap; infer_instance

def daysInMonth (year month : ℕ) : ℕ :=
  if month = 2 then if leap year then 29 else 28
  else if month = 4 ∨ month = 6 ∨ month = 9 ∨ month = 11 then 30 else 31

namespace Date

/-- The day after. -/
def next (d : Date) : Date :=
  if d.day < daysInMonth d.year d.month then { d with day := d.day + 1 }
  else if d.month < 12 then ⟨d.year, d.month + 1, 1⟩
  else ⟨d.year + 1, 1, 1⟩

/-- The day with the given number, 1970-01-01 being day 0. -/
def ofDay (n : ℕ) : Date := next^[n] ⟨1970, 1, 1⟩

/-- Calendar order. -/
def Before (a b : Date) : Prop :=
  a.year < b.year ∨ a.year = b.year ∧ (a.month < b.month ∨ a.month = b.month ∧ a.day < b.day)

structure Valid (d : Date) : Prop where
  month_pos : 1 ≤ d.month
  month_le : d.month ≤ 12
  day_pos : 1 ≤ d.day
  day_le : d.day ≤ 31

theorem daysInMonth_le (year month : ℕ) : daysInMonth year month ≤ 31 := by
  unfold daysInMonth
  split_ifs <;> omega

theorem Before.trans {a b c : Date} (h₁ : Before a b) (h₂ : Before b c) : Before a c := by
  unfold Before at *
  omega

theorem before_next (d : Date) : Before d d.next := by
  unfold next Before
  split_ifs <;> simp

theorem Valid.next {d : Date} (h : Valid d) : Valid d.next := by
  have hmonth := daysInMonth_le d.year d.month
  obtain ⟨h₁, h₂, h₃, h₄⟩ := h
  unfold Date.next
  split_ifs
  · exact ⟨h₁, h₂, by simp, by simp only; omega⟩
  · exact ⟨by simp, by simp only; omega, by simp, by simp⟩
  · exact ⟨by simp, by simp, by simp, by simp⟩

theorem ofDay_succ (n : ℕ) : ofDay (n + 1) = (ofDay n).next :=
  Function.iterate_succ_apply' next n _

theorem ofDay_valid (n : ℕ) : Valid (ofDay n) := by
  induction n with
  | zero => exact ⟨by decide, by decide, by decide, by decide⟩
  | succ n ih =>
    rw [ofDay_succ]
    exact ih.next

theorem ofDay_before {m n : ℕ} (h : m < n) : Before (ofDay m) (ofDay n) := by
  induction n with
  | zero => omega
  | succ n ih =>
    rw [ofDay_succ]
    rcases Nat.lt_succ_iff_lt_or_eq.mp h with hlt | rfl
    · exact (ih hlt).trans (before_next _)
    · exact before_next _

end Date

/-- The fields of an instant. -/
structure DateTime where
  date : Date
  hour : ℕ
  minute : ℕ
  second : ℕ
  deriving DecidableEq

namespace DateTime

/-- The fields of the instant so many seconds after 1970-01-01. -/
def ofSecond (t : ℕ) : DateTime where
  date := Date.ofDay (t / 86400)
  hour := t % 86400 / 3600
  minute := t % 3600 / 60
  second := t % 60

/-- The year, month, day, hour, minute and second. -/
def fields (d : DateTime) : List ℕ :=
  [d.date.year, d.date.month, d.date.day, d.hour, d.minute, d.second]

/-- Datetimes of one zone are compared field by field. -/
def Before (a b : DateTime) : Prop := a.fields < b.fields

instance : DecidableRel Before := fun a b => by unfold Before; infer_instance

/-- Every field but the year has its usual range. -/
structure Valid (d : DateTime) : Prop where
  date : d.date.Valid
  hour : d.hour < 24
  minute : d.minute < 60
  second : d.second < 60

theorem ofSecond_valid (t : ℕ) : Valid (ofSecond t) where
  date := Date.ofDay_valid _
  hour := by simp only [ofSecond]; omega
  minute := by simp only [ofSecond]; omega
  second := by simp only [ofSecond]; omega

theorem before_iff {a b : DateTime} : Before a b ↔ a.date.Before b.date ∨ a.date = b.date ∧
    (a.hour < b.hour ∨ a.hour = b.hour ∧ (a.minute < b.minute ∨
      a.minute = b.minute ∧ a.second < b.second)) := by
  obtain ⟨⟨y, m, d⟩, h, i, s⟩ := a
  obtain ⟨⟨y', m', d'⟩, h', i', s'⟩ := b
  simp only [Before, fields, List.cons_lt_cons_iff, Date.Before, Date.mk.injEq, List.not_lt_nil,
    and_false, or_false]
  omega

theorem Before.trans {a b c : DateTime} (h₁ : Before a b) (h₂ : Before b c) : Before a c :=
  List.lt_trans h₁ h₂

theorem not_before_self (a : DateTime) : ¬ Before a a := List.lt_irrefl _

theorem ofSecond_before {s t : ℕ} (h : s < t) : Before (ofSecond s) (ofSecond t) := by
  rw [before_iff]
  rcases Nat.lt_or_ge (s / 86400) (t / 86400) with hday | hday
  · exact .inl (Date.ofDay_before hday)
  · have hsame : s / 86400 = t / 86400 := by omega
    right
    simp only [ofSecond, hsame, true_and]
    omega

/-- The fields are ordered as the instants are. -/
theorem ofSecond_before_iff {s t : ℕ} : Before (ofSecond s) (ofSecond t) ↔ s < t := by
  constructor
  · intro h
    by_contra hts
    rcases Nat.lt_or_eq_of_le (Nat.le_of_not_lt hts) with hlt | rfl
    · exact not_before_self _ (h.trans (ofSecond_before hlt))
    · exact not_before_self _ h
  · exact ofSecond_before

/-- The day of one instant is not after the day of a later one. -/
theorem year_mono {s t : ℕ} (h : s ≤ t) : (ofSecond s).date.year ≤ (ofSecond t).date.year := by
  rcases Nat.lt_or_eq_of_le h with hlt | rfl
  · have hbefore := before_iff.mp (ofSecond_before hlt)
    unfold Date.Before at hbefore
    rcases hbefore with hdate | ⟨hdate, _⟩
    · omega
    · exact Nat.le_of_eq (congrArg Date.year hdate)
  · exact Nat.le_refl _

end DateTime

/-- A decimal digit. -/
def digit (n : ℕ) : Char := Char.ofNat (48 + n % 10)

/-- The last `width` decimal digits. -/
def pad : ℕ → ℕ → List Char
  | 0, _ => []
  | width + 1, n => pad width (n / 10) ++ [digit n]

/-- The value of decimal digits. -/
def readDigits : List Char → Option ℕ :=
  List.foldlM (fun n c => if c.isDigit then some (10 * n + (c.toNat - 48)) else none) 0

theorem digit_val {n : ℕ} (h : n < 10) :
    (digit n).isDigit = true ∧ (digit n).toNat - 48 = n := by
  revert n
  decide

theorem digit_mod (n : ℕ) : digit (n % 10) = digit n := by
  rw [digit, digit, Nat.mod_mod]

theorem length_pad (width n : ℕ) : (pad width n).length = width := by
  induction width generalizing n with
  | zero => rfl
  | succ width ih => simp [pad, ih]

theorem readDigits_pad {width n : ℕ} (h : n < 10 ^ width) : readDigits (pad width n) = some n := by
  induction width generalizing n with
  | zero =>
    have hzero : n = 0 := by simpa using h
    rw [hzero]
    rfl
  | succ width ih =>
    have hdiv : n / 10 < 10 ^ width := by
      rw [Nat.div_lt_iff_lt_mul (by decide)]
      rwa [Nat.pow_succ] at h
    have hdigit := digit_val (Nat.mod_lt n (by decide : 0 < 10))
    rw [digit_mod] at hdigit
    unfold readDigits at ih
    rw [readDigits, pad, List.foldlM_append, ih hdiv]
    simp only [Option.bind_eq_bind, Option.bind_some, List.foldlM_cons, List.foldlM_nil, hdigit.1,
      if_true, hdigit.2]
    show some (10 * (n / 10) + n % 10) = some n
    congr 1
    omega

theorem digit_lt_iff {m n : ℕ} (hm : m < 10) (hn : n < 10) : digit m < digit n ↔ m < n := by
  revert n
  revert m
  decide

/-- Texts of which the first parts have one length are compared part by part. -/
theorem append_lt_append_iff {a b x y : List Char} (h : a.length = b.length) :
    a ++ x < b ++ y ↔ a < b ∨ a = b ∧ x < y := by
  induction a generalizing b with
  | nil =>
    have hb : b = [] := List.length_eq_zero_iff.mp h.symm
    simp [hb]
  | cons c a ih =>
    cases b with
    | nil => simp at h
    | cons d b =>
      simp only [List.length_cons, Nat.add_right_cancel_iff] at h
      simp only [List.cons_append, List.cons_lt_cons_iff, ih h, List.cons.injEq]
      tauto

theorem pad_injective {width m n : ℕ} (hm : m < 10 ^ width) (hn : n < 10 ^ width)
    (h : pad width m = pad width n) : m = n := by
  have hread := congrArg readDigits h
  rw [readDigits_pad hm, readDigits_pad hn] at hread
  exact Option.some.inj hread

theorem pad_lt_pad_iff {width m n : ℕ} (hm : m < 10 ^ width) (hn : n < 10 ^ width) :
    pad width m < pad width n ↔ m < n := by
  induction width generalizing m n with
  | zero => simp at hm hn; simp [pad, hm, hn]
  | succ width ih =>
    have hm' : m / 10 < 10 ^ width := by
      rw [Nat.div_lt_iff_lt_mul (by decide)]
      rwa [Nat.pow_succ] at hm
    have hn' : n / 10 < 10 ^ width := by
      rw [Nat.div_lt_iff_lt_mul (by decide)]
      rwa [Nat.pow_succ] at hn
    have hlast : [digit m] < [digit n] ↔ m % 10 < n % 10 := by
      rw [← digit_lt_iff (Nat.mod_lt m (by decide)) (Nat.mod_lt n (by decide)), digit_mod, digit_mod]
      simp [List.cons_lt_cons_iff]
    have hequal : pad width (m / 10) = pad width (n / 10) ↔ m / 10 = n / 10 :=
      ⟨pad_injective hm' hn', fun h => by rw [h]⟩
    rw [pad, pad, append_lt_append_iff (by rw [length_pad, length_pad]), ih hm' hn', hequal, hlast]
    omega

namespace DateTime

/-- `isoformat` of a datetime in UTC without microseconds. -/
def iso (d : DateTime) : List Char :=
  pad 4 d.date.year ++ '-' :: (pad 2 d.date.month ++ '-' :: (pad 2 d.date.day ++ 'T' ::
    (pad 2 d.hour ++ ':' :: (pad 2 d.minute ++ ':' :: (pad 2 d.second ++ "+00:00".toList)))))

/-- A number of the given width and the text after it. -/
def readField (width : ℕ) (cs : List Char) : Option (ℕ × List Char) :=
  (readDigits (cs.take width)).map fun n => (n, cs.drop width)

def expect (c : Char) : List Char → Option (List Char)
  | [] => none
  | d :: cs => if c = d then some cs else none

/-- `fromisoformat` on the texts of `iso`. -/
def parse (cs : List Char) : Option DateTime := do
  let (year, cs) ← readField 4 cs
  let cs ← expect '-' cs
  let (month, cs) ← readField 2 cs
  let cs ← expect '-' cs
  let (day, cs) ← readField 2 cs
  let cs ← expect 'T' cs
  let (hour, cs) ← readField 2 cs
  let cs ← expect ':' cs
  let (minute, cs) ← readField 2 cs
  let cs ← expect ':' cs
  let (second, cs) ← readField 2 cs
  if cs = "+00:00".toList then some ⟨⟨year, month, day⟩, hour, minute, second⟩ else none

theorem readField_pad {width n : ℕ} (h : n < 10 ^ width) (cs : List Char) :
    readField width (pad width n ++ cs) = some (n, cs) := by
  have hlength := length_pad width n
  have htake : (pad width n ++ cs).take width = pad width n := by
    rw [List.take_append_of_le_length (Nat.le_of_eq hlength.symm), List.take_of_length_le (Nat.le_of_eq hlength)]
  have hdrop : (pad width n ++ cs).drop width = cs := by
    rw [List.drop_append_of_le_length (Nat.le_of_eq hlength.symm), List.drop_of_length_le (Nat.le_of_eq hlength),
      List.nil_append]
  rw [readField, htake, hdrop, readDigits_pad h, Option.map_some]

variable {a b : DateTime}

theorem parse_iso (h : a.Valid) (hyear : a.date.year < 10000) : parse a.iso = some a := by
  obtain ⟨⟨_, hmonth, _, hday⟩, hhour, hminute, hsecond⟩ := h
  unfold parse iso
  rw [readField_pad hyear]
  simp only [Option.bind_eq_bind, Option.bind_some, expect, if_true]
  rw [readField_pad (by omega)]
  simp only [Option.bind_some, if_true]
  rw [readField_pad (by omega)]
  simp only [Option.bind_some, if_true]
  rw [readField_pad (by omega)]
  simp only [Option.bind_some, if_true]
  rw [readField_pad (by omega)]
  simp only [Option.bind_some, if_true]
  rw [readField_pad (by omega)]
  simp only [Option.bind_some, if_true]

/-- Texts are ordered as the datetimes they show. -/
theorem iso_lt_iff (ha : a.Valid) (hb : b.Valid) (hyear : a.date.year < 10000)
    (hyear' : b.date.year < 10000) : a.iso < b.iso ↔ a.Before b := by
  obtain ⟨⟨_, _, _, _⟩, _, _, _⟩ := ha
  obtain ⟨⟨_, _, _, _⟩, _, _, _⟩ := hb
  have hfield : ∀ {m n : ℕ} {x y : List Char}, m < 10 ^ 2 → n < 10 ^ 2 →
      (pad 2 m ++ x < pad 2 n ++ y ↔ m < n ∨ m = n ∧ x < y) := by
    intro m n x y hm hn
    rw [append_lt_append_iff (by rw [length_pad, length_pad]), pad_lt_pad_iff hm hn]
    have hequal : pad 2 m = pad 2 n ↔ m = n := ⟨pad_injective hm hn, fun h => by rw [h]⟩
    rw [hequal]
  have hsep : ∀ {c : Char} {x y : List Char}, c :: x < c :: y ↔ x < y := by
    intro c x y
    simp
  have hequal : pad 4 a.date.year = pad 4 b.date.year ↔ a.date.year = b.date.year :=
    ⟨pad_injective hyear hyear', fun h => by rw [h]⟩
  rw [iso, iso, append_lt_append_iff (by rw [length_pad, length_pad]), pad_lt_pad_iff hyear hyear',
    hequal, hsep, hfield (by omega) (by omega), hsep, hfield (by omega) (by omega), hsep,
    hfield (by omega) (by omega), hsep, hfield (by omega) (by omega), hsep,
    hfield (by omega) (by omega)]
  simp only [List.lt_irrefl, and_false, or_false, Before, fields, List.cons_lt_cons_iff]

end DateTime

end NyanyaAgent.Calendar
