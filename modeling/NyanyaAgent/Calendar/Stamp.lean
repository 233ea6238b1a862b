import NyanyaAgent.Calendar.Iso

/-!
# Instants with microseconds

Instants in microseconds since the year 1 in UTC, and the text of `isoformat`, which leaves
out a fraction of zero. Texts are ordered as the instants are.
-/
namespace NyanyaAgent.Calendar

namespace Date

/-- The day that many days after the first of January of the year 1. -/
def ofOrdinal (n : ℕ) : Date := next^[n] ⟨1, 1, 1⟩

theorem ofOrdinal_succ (n : ℕ) : ofOrdinal (n + 1) = (ofOrdinal n).next :=
  Function.iterate_succ_apply' next n _

theorem ofOrdinal_valid (n : ℕ) : Valid (ofOrdinal n) := by
  induction n with
  | zero => exact ⟨by decide, by decide, by decide, by decide⟩
  | succ n ih =>
    rw [ofOrdinal_succ]
    exact ih.next

theorem ofOrdinal_before {m n : ℕ} (h : m < n) : Before (ofOrdinal m) (ofOrdinal n) := by
  induction n with
  | zero => omega
  | succ n ih =>
    rw [ofOrdinal_succ]
    rcases Nat.lt_succ_iff_lt_or_eq.mp h with hlt | rfl
    · exact (ih hlt).trans (before_next _)
    · exact before_next _

end Date

def microsecond : ℕ := 1000000

namespace DateTime

/-- The fields of an instant, up to its second. -/
def ofInstant (t : ℕ) : DateTime where
  date := Date.ofOrdinal (t / microsecond / 86400)
  hour := t / microsecond % 86400 / 3600
  minute := t / microsecond % 3600 / 60
  second := t / microsecond % 60

theorem ofInstant_valid (t : ℕ) : Valid (ofInstant t) where
  date := Date.ofOrdinal_valid _
  hour := by simp only [ofInstant]; omega
  minute := by simp only [ofInstant]; omega
  second := by simp only [ofInstant]; omega

theorem ofInstant_before {s t : ℕ} (h : s / microsecond < t / microsecond) :
    Before (ofInstant s) (ofInstant t) := by
  rw [before_iff]
  rcases Nat.lt_or_ge (s / microsecond / 86400) (t / microsecond / 86400) with hday | hday
  · exact .inl (Date.ofOrdinal_before hday)
  · have hsame : s / microsecond / 86400 = t / microsecond / 86400 := by omega
    right
    simp only [ofInstant, hsame, true_and]
    omega

theorem ofInstant_congr {s t : ℕ} (h : s / microsecond = t / microsecond) :
    ofInstant s = ofInstant t := by
  simp only [ofInstant, h]

/-- The fields up to the second are ordered as the seconds are. -/
theorem ofInstant_before_iff {s t : ℕ} :
    Before (ofInstant s) (ofInstant t) ↔ s / microsecond < t / microsecond := by
  constructor
  · intro h
    by_contra hts
    rcases Nat.lt_or_eq_of_le (Nat.le_of_not_lt hts) with hlt | heq
    · exact not_before_self _ (h.trans (ofInstant_before hlt))
    · rw [ofInstant_congr heq] at h
      exact not_before_self _ h
  · exact ofInstant_before

end DateTime

/-- The year of an instant. -/
def yearOf (t : ℕ) : ℕ := (DateTime.ofInstant t).date.year

/-- The nineteen characters of the date and the time of day. -/
def wallClock (d : DateTime) : List Char :=
  pad 4 d.date.year ++ '-' :: (pad 2 d.date.month ++ '-' :: (pad 2 d.date.day ++ 'T' ::
    (pad 2 d.hour ++ ':' :: (pad 2 d.minute ++ ':' :: pad 2 d.second))))

theorem iso_eq (d : DateTime) : d.iso = wallClock d ++ "+00:00".toList := by
  simp [DateTime.iso, wallClock]

theorem length_wallClock (d : DateTime) : (wallClock d).length = 19 := by
  simp [wallClock, length_pad]

/-- `.ffffff`, when the fraction is not zero. -/
def fraction (t : ℕ) : List Char :=
  if t % microsecond = 0 then [] else '.' :: pad 6 (t % microsecond)

/-- `datetime.isoformat` of an instant in UTC. -/
def stampText (t : ℕ) : List Char :=
  wallClock (DateTime.ofInstant t) ++ (fraction t ++ "+00:00".toList)

/-- The fields of two dates are compared before what is behind them. -/
theorem wallClock_lt_iff {s t : ℕ} (hs : yearOf s < 10000) (ht : yearOf t < 10000) :
    wallClock (DateTime.ofInstant s) < wallClock (DateTime.ofInstant t) ↔
      s / microsecond < t / microsecond := by
  have hiso := DateTime.iso_lt_iff (DateTime.ofInstant_valid s) (DateTime.ofInstant_valid t) hs ht
  rw [DateTime.ofInstant_before_iff, iso_eq, iso_eq,
    append_lt_append_iff (by rw [length_wallClock, length_wallClock])] at hiso
  rw [← hiso]
  simp

theorem wallClock_eq_iff {s t : ℕ} (hs : yearOf s < 10000) (ht : yearOf t < 10000) :
    wallClock (DateTime.ofInstant s) = wallClock (DateTime.ofInstant t) ↔
      s / microsecond = t / microsecond := by
  constructor
  · intro h
    have hnot : ¬ s / microsecond < t / microsecond := by
      rw [← wallClock_lt_iff hs ht, h]
      exact List.lt_irrefl _
    have hnot' : ¬ t / microsecond < s / microsecond := by
      rw [← wallClock_lt_iff ht hs, h]
      exact List.lt_irrefl _
    omega
  · intro h
    rw [DateTime.ofInstant_congr h]

/-- A fraction is compared as its number; the plus sign sorts before the point. -/
theorem fraction_lt_iff (s t : ℕ) :
    fraction s ++ "+00:00".toList < fraction t ++ "+00:00".toList ↔
      s % microsecond < t % microsecond := by
  have hs : s % microsecond < 10 ^ 6 := Nat.mod_lt _ (by decide)
  have ht : t % microsecond < 10 ^ 6 := Nat.mod_lt _ (by decide)
  have hplus : ("+00:00".toList : List Char) = '+' :: "00:00".toList := rfl
  unfold fraction
  split_ifs with hzero hzero' hzero'
  · rw [hzero, hzero', List.nil_append]
    simp
  · rw [hzero, hplus]
    simp only [List.nil_append, List.cons_append, List.cons_lt_cons_iff]
    have hsign : '+' < '.' := by decide
    simp only [hsign, true_or, true_iff]
    omega
  · rw [hzero', hplus]
    simp only [List.nil_append, List.cons_append, List.cons_lt_cons_iff]
    have hsign : ¬ '.' < '+' := by decide
    have hne : '.' ≠ '+' := by decide
    simp only [hsign, hne, false_and, or_self, false_iff]
    omega
  · rw [List.cons_append, List.cons_append, List.cons_lt_cons_iff,
      append_lt_append_iff (by rw [length_pad, length_pad]), pad_lt_pad_iff hs ht]
    simp

/-- Texts are ordered as the instants they show. -/
theorem stampText_lt_iff {s t : ℕ} (hs : yearOf s < 10000) (ht : yearOf t < 10000) :
    stampText s < stampText t ↔ s < t := by
  rw [stampText, stampText, append_lt_append_iff (by rw [length_wallClock, length_wallClock]),
    wallClock_lt_iff hs ht, wallClock_eq_iff hs ht, fraction_lt_iff]
  have hsplit := Nat.div_add_mod s microsecond
  have hsplit' := Nat.div_add_mod t microsecond
  have hs := Nat.mod_lt s (show 0 < microsecond by decide)
  have ht := Nat.mod_lt t (show 0 < microsecond by decide)
  unfold microsecond at *
  omega

theorem stampText_injective {s t : ℕ} (hs : yearOf s < 10000) (ht : yearOf t < 10000)
    (h : stampText s = stampText t) : s = t := by
  have hnot : ¬ s < t := by
    rw [← stampText_lt_iff hs ht, h]
    exact List.lt_irrefl _
  have hnot' : ¬ t < s := by
    rw [← stampText_lt_iff ht hs, h]
    exact List.lt_irrefl _
  omega

/-- The bytes of a text, as a database compares them. -/
def utf8Bytes (cs : List Char) : List UInt8 := cs.flatMap String.utf8EncodeChar

def Ascii (cs : List Char) : Prop := ∀ c ∈ cs, c.toNat < 128

theorem Ascii.append {a b : List Char} (ha : Ascii a) (hb : Ascii b) : Ascii (a ++ b) :=
  fun c hc => (List.mem_append.mp hc).elim (ha c) (hb c)

theorem Ascii.cons {c : Char} {cs : List Char} (hc : c.toNat < 128) (hcs : Ascii cs) :
    Ascii (c :: cs) :=
  List.forall_mem_cons.mpr ⟨hc, hcs⟩

theorem digit_ascii (n : ℕ) : (digit n).toNat < 128 := by
  rw [← digit_mod]
  have hdigit : ∀ m < 10, (digit m).toNat < 128 := by decide
  exact hdigit _ (Nat.mod_lt _ (by decide))

theorem pad_ascii (width n : ℕ) : Ascii (pad width n) := by
  induction width generalizing n with
  | zero => exact fun c hc => by cases hc
  | succ width ih => exact (ih _).append (.cons (digit_ascii _) fun c hc => by cases hc)

theorem offset_ascii : Ascii "+00:00".toList := by
  have hall : ("+00:00".toList.all fun c => c.toNat < 128) = true := by decide
  exact fun c hc => of_decide_eq_true (List.all_eq_true.mp hall c hc)

theorem stampText_ascii (t : ℕ) : Ascii (stampText t) := by
  refine .append ?_ (.append ?_ offset_ascii)
  · refine (pad_ascii _ _).append (.cons (by decide) ?_)
    refine (pad_ascii _ _).append (.cons (by decide) ?_)
    refine (pad_ascii _ _).append (.cons (by decide) ?_)
    refine (pad_ascii _ _).append (.cons (by decide) ?_)
    exact (pad_ascii _ _).append (.cons (by decide) (pad_ascii _ _))
  · unfold fraction
    split_ifs
    · exact fun c hc => by cases hc
    · exact .cons (by decide) (pad_ascii _ _)

theorem utf8Bytes_cons {c : Char} (hc : c.toNat < 128) (cs : List Char) :
    utf8Bytes (c :: cs) = UInt8.ofNat c.toNat :: utf8Bytes cs := by
  have hsingle : String.utf8EncodeChar c = [UInt8.ofNat c.toNat] := by
    unfold String.utf8EncodeChar
    exact if_pos (Nat.le_of_lt_succ hc)
  rw [utf8Bytes, List.flatMap_cons, hsingle]
  rfl

/-- The bytes of plain texts are ordered as their characters. -/
theorem utf8Bytes_lt_iff {a b : List Char} (ha : Ascii a) (hb : Ascii b) :
    utf8Bytes a < utf8Bytes b ↔ a < b := by
  induction a generalizing b with
  | nil =>
    cases b with
    | nil => simp [utf8Bytes]
    | cons d b =>
      rw [utf8Bytes_cons (hb d List.mem_cons_self)]
      simp [utf8Bytes]
  | cons c a ih =>
    cases b with
    | nil => simp [utf8Bytes]
    | cons d b =>
      obtain ⟨hc, ha⟩ := List.forall_mem_cons.mp ha
      obtain ⟨hd, hb⟩ := List.forall_mem_cons.mp hb
      have hsize : UInt8.size = 256 := rfl
      have hlt : UInt8.ofNat c.toNat < UInt8.ofNat d.toNat ↔ c < d := by
        rw [UInt8.lt_iff_toNat_lt, UInt8.toNat_ofNat_of_lt' (by omega),
          UInt8.toNat_ofNat_of_lt' (by omega)]
        rfl
      have heq : UInt8.ofNat c.toNat = UInt8.ofNat d.toNat ↔ c = d := by
        rw [← UInt8.toNat_inj, UInt8.toNat_ofNat_of_lt' (by omega),
          UInt8.toNat_ofNat_of_lt' (by omega), Char.toNat_inj]
      rw [utf8Bytes_cons hc, utf8Bytes_cons hd, List.cons_lt_cons_iff, List.cons_lt_cons_iff, hlt,
        heq, ih ha hb]

/-- How an instant is written: whole, or without its fraction of a second. -/
inductive StampFormat
  | whole
  | second
  deriving DecidableEq, Repr

namespace StampFormat

/-- The instant that the text shows. -/
def shown : StampFormat → ℕ → ℕ
  | whole, t => t
  | second, t => t - t % microsecond

def text (f : StampFormat) (t : ℕ) : List Char := stampText (f.shown t)

theorem yearOf_shown (f : StampFormat) (t : ℕ) : yearOf (f.shown t) = yearOf t := by
  cases f with
  | whole => rfl
  | second =>
    have hsame : (t - t % microsecond) / microsecond = t / microsecond := by
      unfold microsecond
      omega
    rw [yearOf, shown, DateTime.ofInstant_congr hsame, yearOf]

variable {s t : ℕ}

theorem text_lt_iff (f g : StampFormat) (hs : yearOf s < 10000) (ht : yearOf t < 10000) :
    f.text s < g.text t ↔ f.shown s < g.shown t :=
  stampText_lt_iff (by rwa [yearOf_shown]) (by rwa [yearOf_shown])

theorem text_eq_iff (f g : StampFormat) (hs : yearOf s < 10000) (ht : yearOf t < 10000) :
    f.text s = g.text t ↔ f.shown s = g.shown t :=
  ⟨fun h => stampText_injective (by rwa [yearOf_shown]) (by rwa [yearOf_shown]) h,
    fun h => by rw [text, text, h]⟩

end StampFormat

end NyanyaAgent.Calendar
