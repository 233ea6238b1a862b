import NyanyaAgent.Redaction.Matches

/-!
# What a redaction hides

The matches of a text from its start on, and when every credential is in one of them.
-/
namespace NyanyaAgent.Redaction
open NyanyaAgent.Text NyanyaAgent.Text.Regex NyanyaAgent.EnvFile

variable (U : Letters)

/-- The pieces of a text, by what makes them. -/
inductive Scan : Option Char → List Char → List Piece → Prop
  | nil {before : Option Char} : Scan before [] []
  | kept {before : Option Char} {c : Char} {cs : List Char} {ps : List Piece}
      (h : secretMatch U (before, c :: cs) = none) (rest : Scan (some c) cs ps) :
      Scan before (c :: cs) (.kept c :: ps)
  | hidden {before : Option Char} {word dropped behind : List Char} {ps : List Piece}
      (h : secretMatch U (before, (word ++ dropped) ++ behind) =
        some (word, ((word ++ dropped).getLast?, behind)))
      (nonempty : dropped ≠ []) (rest : Scan (word ++ dropped).getLast? behind ps) :
      Scan before ((word ++ dropped) ++ behind) (.hidden word dropped :: ps)

theorem Matched.dropped {text word : List Char} {q' : Place} (h : Matched text word q') :
    ∃ dropped, text = (word ++ dropped) ++ q'.2 ∧ dropped ≠ [] ∧
      q'.1 = (word ++ dropped).getLast? := by
  cases h with
  | @secret gap credential split _ run last =>
    refine ⟨gap ++ credential, by rw [split]; simp, ?_, ?_⟩
    · intro hnil
      exact run.nonempty (List.append_eq_nil_iff.mp hnil).2
    · rw [last, ← List.append_assoc, List.getLast?_append_of_ne_nil _ run.nonempty]
  | @sign spaces c split _ _ _ _ last =>
    refine ⟨spaces ++ [c], by rw [split]; simp, by simp, ?_⟩
    rw [last, ← List.append_assoc, List.getLast?_concat]

theorem scan (n : ℕ) (before : Option Char) (text : List Char) (hn : text.length ≤ n) :
    Scan U before text (piecesFrom U n (before, text)) := by
  induction n generalizing before text with
  | zero =>
    rw [List.length_eq_zero_iff.mp (Nat.le_zero.mp hn)]
    exact .nil
  | succ n ih =>
    cases text with
    | nil => exact .nil
    | cons c cs =>
      rw [piecesFrom]
      cases hm : secretMatch U (before, c :: cs) with
      | none => exact .kept hm (ih (some c) cs (Nat.le_of_succ_le_succ hn))
      | some r =>
        obtain ⟨word, last, behind⟩ := r
        obtain ⟨-, -, hmatched⟩ := secretMatch_some U hm
        obtain ⟨dropped, hsplit, hne, hlast⟩ := hmatched.dropped
        dsimp only at hsplit hlast ⊢
        have htaken : taken (before, c :: cs) (last, behind) = word ++ dropped :=
          taken_append hsplit
        rw [htaken, List.drop_left]
        have hlen : behind.length ≤ n := by
          have := congrArg List.length hsplit
          have hpos := List.length_pos_of_ne_nil hne
          simp only [List.length_append] at this
          omega
        rw [hsplit] at hm ⊢
        rw [hlast] at hm ⊢
        exact .hidden hm hne (ih _ _ hlen)

section Secrets

/-- A word in a text with its separator and the credential behind them. A quote may close the
word. -/
structure Secret (before : Option Char) (text : List Char) where
  front : List Char
  word : List Char
  quote : List Char
  gap : List Char
  credential : List Char
  after : List Char
  split : text = front ++ (word ++ (quote ++ (gap ++ (credential ++ after))))
  alone : (front.getLast?.or before).any U.inWord = false
  isWord : IsWord word
  isMark : QuoteMark quote
  isGap : Gap gap credential
  run : Run credential after

variable {U} {before : Option Char} {text x behind : List Char} {i j : ℕ}

namespace Secret

def start (o : Secret U before text) : ℕ := o.front.length

def wordEnd (o : Secret U before text) : ℕ := o.start + o.word.length

def value (o : Secret U before text) : ℕ := o.wordEnd + o.quote.length + o.gap.length

def stop (o : Secret U before text) : ℕ := o.value + o.credential.length

/-- A word begins behind the beginning of another and in front of the end of its credential, and its
own credential ends behind that one. -/
def Crosses (o o' : Secret U before text) : Prop :=
  o.start < o'.start ∧ o'.start < o.stop ∧ o.stop < o'.stop

theorem at_middle {a m z : List Char} (h : a.length ≤ j) (h' : j < a.length + m.length) :
    ∃ c ∈ m, (a ++ (m ++ z))[j]? = some c := by
  have hlt : j - a.length < m.length := by omega
  refine ⟨m[j - a.length], List.getElem_mem hlt, ?_⟩
  rw [List.getElem?_append_right h, List.getElem?_append_left hlt, List.getElem?_eq_getElem hlt]

theorem at_word (o : Secret U before text) (h : o.start ≤ j) (h' : j < o.wordEnd) :
    ∃ c, text[j]? = some c ∧ isLetter c = true := by
  obtain ⟨c, hc, hj⟩ := at_middle (z := o.quote ++ (o.gap ++ (o.credential ++ o.after))) h h'
  exact ⟨c, by rw [o.split]; exact hj, o.isWord.letters c hc⟩

theorem at_gap (o : Secret U before text) (h : o.wordEnd ≤ j) (h' : j < o.value) :
    ∃ c, text[j]? = some c ∧ Redaction.isGap c = true := by
  have hsplit : text =
      (o.front ++ o.word) ++ ((o.quote ++ o.gap) ++ (o.credential ++ o.after)) := by
    refine o.split.trans ?_
    simp
  simp only [value, wordEnd, start] at h h'
  obtain ⟨c, hc, hj⟩ := at_middle (a := o.front ++ o.word) (m := o.quote ++ o.gap)
    (z := o.credential ++ o.after) (j := j) (by simp; omega) (by simp; omega)
  refine ⟨c, by rw [hsplit]; exact hj, ?_⟩
  rcases List.mem_append.mp hc with hc | hc
  · rcases o.isMark with hm | ⟨m, hm, hq⟩
    · rw [hm] at hc
      exact absurd hc List.not_mem_nil
    · rw [hq] at hc
      rw [List.mem_singleton.mp hc]
      simp [Redaction.isGap, hm]
  · exact o.isGap.chars c hc

theorem at_credential (o : Secret U before text) (h : o.value ≤ j) (h' : j < o.stop) :
    ∃ c, text[j]? = some c ∧ isCredential c = true := by
  have hsplit : text =
      (o.front ++ (o.word ++ (o.quote ++ o.gap))) ++ (o.credential ++ o.after) := by
    refine o.split.trans ?_
    simp
  simp only [stop, value, wordEnd, start] at h h'
  obtain ⟨c, hc, hj⟩ := at_middle (a := o.front ++ (o.word ++ (o.quote ++ o.gap)))
    (m := o.credential) (z := o.after) (j := j) (by simp; omega) (by simp; omega)
  exact ⟨c, by rw [hsplit]; exact hj, o.run.chars c hc⟩

theorem word_pos (o : Secret U before text) : o.start < o.wordEnd := by
  obtain ⟨c, rest, hword, -⟩ := o.isWord.first
  simp [wordEnd, hword]

/-- Two secrets of two texts are at the same place, but for what stands in front of one. -/
structure Shifted {b b' : Option Char} {t t' : List Char} (o : Secret U b t) (o' : Secret U b' t')
    (k : ℕ) : Prop where
  quote : o.quote = o'.quote
  start : o'.start = o.start + k
  value : o'.value = o.value + k
  stop : o'.stop = o.stop + k

theorem last_append (hx : x ≠ []) (more : List Char) :
    (x ++ more).getLast?.or before = more.getLast?.or x.getLast? := by
  obtain ⟨c, hc⟩ := Option.isSome_iff_exists.mp (List.getLast?_isSome.mpr hx)
  rw [List.getLast?_append, hc]
  cases more.getLast? <;> rfl

theorem lift (before : Option Char) (hx : x ≠ []) (o : Secret U x.getLast? text) :
    ∃ o' : Secret U before (x ++ text), Shifted o o' x.length := by
  refine ⟨⟨x ++ o.front, o.word, o.quote, o.gap, o.credential, o.after, ?_, ?_, o.isWord, o.isMark,
    o.isGap, o.run⟩, rfl, ?_, ?_, ?_⟩
  · rw [List.append_assoc, ← o.split]
  · rw [last_append hx]
    exact o.alone
  all_goals simp only [stop, value, wordEnd, start, List.length_append]; omega

theorem lower (hx : x ≠ []) (o : Secret U before (x ++ text)) (h : x.length ≤ o.start) :
    ∃ o' : Secret U x.getLast? text, Shifted o' o x.length := by
  obtain ⟨more, hfront, htext⟩ : ∃ more, o.front = x ++ more ∧
      text = more ++ (o.word ++ (o.quote ++ (o.gap ++ (o.credential ++ o.after)))) := by
    rcases List.append_eq_append_iff.mp o.split with ⟨more, hfront, htext⟩ | ⟨more, hx', htext⟩
    · exact ⟨more, hfront, htext⟩
    · have hnil : more = [] := by
        have := congrArg List.length hx'
        simp only [List.length_append, start] at this h
        exact List.length_eq_zero_iff.mp (by omega)
      subst hnil
      rw [List.append_nil] at hx'
      exact ⟨[], by rw [List.append_nil]; exact hx'.symm, htext.symm⟩
  refine ⟨⟨more, o.word, o.quote, o.gap, o.credential, o.after, htext, ?_, o.isWord, o.isMark,
    o.isGap, o.run⟩, rfl, ?_, ?_, ?_⟩
  · have halone := o.alone
    rwa [hfront, last_append hx] at halone
  all_goals simp only [stop, value, wordEnd, start, hfront, List.length_append]; omega

/-- No secret begins inside a word. -/
theorem not_inner (o : Secret U before (x ++ text)) (hx : IsWord x) (hpos : 0 < o.start)
    (h : o.start < x.length) : False := by
  rcases List.append_eq_append_iff.mp o.split with ⟨more, hfront, -⟩ | ⟨more, hword, htext⟩
  · have := congrArg List.length hfront
    simp only [List.length_append, start] at this h
    omega
  · obtain ⟨c, rest, hfirst, -⟩ := o.isWord.first
    cases more with
    | nil =>
      have := congrArg List.length hword
      rw [List.append_nil] at this
      exact Nat.lt_irrefl _ (this ▸ h)
    | cons d more =>
      have hfront : o.front ≠ [] := by
        intro hnil
        rw [start, hnil] at hpos
        exact Nat.lt_irrefl _ hpos
      have halone := o.alone
      rw [hfirst, List.cons_append, List.cons_append, List.cons.injEq] at htext
      obtain ⟨hcd, -⟩ := htext
      obtain ⟨last, hlast⟩ := Option.isSome_iff_exists.mp (List.getLast?_isSome.mpr hfront)
      rw [hlast] at halone
      have hsplit : x = o.front.dropLast ++ last :: d :: more := by
        refine hword.trans ?_
        conv_lhs => rw [← List.dropLast_append_getLast? last hlast]
        simp
      refine hx.inner U o.isWord hsplit (by simpa using halone) ?_
      rw [hfirst, hcd]
      rfl

theorem Shifted.crosses {b b' : Option Char} {t t' : List Char} {o o₂ : Secret U b t}
    {o' o₂' : Secret U b' t'} {k : ℕ} (h : Shifted o o' k) (h₂ : Shifted o₂ o₂' k) :
    o.Crosses o₂ ↔ o'.Crosses o₂' := by
  unfold Crosses
  rw [h.start, h.stop, h₂.start, h₂.stop]
  omega

end Secret

end Secrets

section Hidden

variable {U} {before : Option Char} {text word dropped behind : List Char} {ps : List Piece} {i : ℕ}

/-- No quote closes a word, and no credential is that of a word inside another secret but ends
behind it. -/
structure Clean (U : Letters) (before : Option Char) (text : List Char) : Prop where
  unquoted : ∀ o : Secret U before text, o.quote = []
  apart : ∀ o o' : Secret U before text, ¬ o.Crosses o'

theorem Clean.lower {x : List Char} (hx : x ≠ []) (h : Clean U before (x ++ text)) :
    Clean U x.getLast? text := by
  refine ⟨fun o => ?_, fun o o' hcross => ?_⟩
  · obtain ⟨l, hl⟩ := Secret.lift before hx o
    exact hl.quote.trans (h.unquoted l)
  · obtain ⟨l, hl⟩ := Secret.lift before hx o
    obtain ⟨l', hl'⟩ := Secret.lift before hx o'
    exact h.apart l l' ((hl.crosses hl').mp hcross)

/-- The characters of credentials are not written. -/
def AllHidden (U : Letters) (before : Option Char) (text : List Char) (mask : List Bool) : Prop :=
  ∀ o : Secret U before text, ∀ i, o.value ≤ i → i < o.stop → mask[i]? = some true

theorem mask_dropped (h : word.length ≤ i) (h' : i < word.length + dropped.length)
    (rest : List Bool) : ((Piece.hidden word dropped).mask ++ rest)[i]? = some true := by
  rw [Piece.mask, List.append_assoc, List.getElem?_append_right (by simpa using h),
    List.getElem?_append_left (by simp; omega), List.length_replicate, List.getElem?_replicate,
    if_pos (by omega)]

theorem mask_length : (Piece.hidden word dropped).mask.length = (word ++ dropped).length := by
  simp [Piece.mask]

/-- What is hidden is behind letters, without a quote behind any of them, and no quote but in front
of a credential. -/
structure Covers (text : List Char) (mask : List Bool) (i start wordEnd stop : ℕ) : Prop where
  before : start < wordEnd
  inside : wordEnd ≤ i
  behind : i < stop
  letters : ∀ j, start ≤ j → j < wordEnd → ∃ c, text[j]? = some c ∧ isLetter c = true
  quotes : ∀ j c d, start ≤ j → j + 1 < stop → text[j]? = some c → text[j + 1]? = some d →
    isQuote d = true → isLetter c = false
  marks : ∀ j c d, start ≤ j → j + 1 < stop → text[j]? = some c → text[j + 1]? = some d →
    isQuote c = true → isCredential d = true
  hides : ∀ j, wordEnd ≤ j → j < stop → mask[j]? = some true

theorem Covers.shift {mask : List Bool} {start wordEnd stop : ℕ} (x : List Char) {front : List Bool}
    (hfront : front.length = x.length) (h : Covers text mask i start wordEnd stop) :
    Covers (x ++ text) (front ++ mask) (i + x.length) (start + x.length) (wordEnd + x.length)
      (stop + x.length) := by
  have hat : ∀ j, x.length ≤ j → (x ++ text)[j]? = text[j - x.length]? :=
    fun j hj => List.getElem?_append_right hj
  refine ⟨?_, ?_, ?_, fun j hj hj' => ?_, fun j c d hj hj' hc hd => ?_, fun j c d hj hj' hc hd => ?_,
    fun j hj hj' => ?_⟩
  · exact Nat.add_lt_add_right h.before _
  · exact Nat.add_le_add_right h.inside _
  · exact Nat.add_lt_add_right h.behind _
  · rw [hat j (by omega)]
    exact h.letters _ (by omega) (by omega)
  · rw [hat j (by omega)] at hc
    rw [hat (j + 1) (by omega), show j + 1 - x.length = (j - x.length) + 1 by omega] at hd
    exact h.quotes _ c d (by omega) (by omega) hc hd
  · rw [hat j (by omega)] at hc
    rw [hat (j + 1) (by omega), show j + 1 - x.length = (j - x.length) + 1 by omega] at hd
    exact h.marks _ c d (by omega) (by omega) hc hd
  · rw [List.getElem?_append_right (by omega), hfront]
    exact h.hides _ (by omega) (by omega)

theorem isQuote_isGap {c : Char} (h : isQuote c = true) : isGap c = true := by
  simp [isGap, h]

theorem Gap.start_not_quote {gap credential gs : List Char} {g : Char} (h : Gap gap credential)
    (hg : gap = g :: gs) : isQuote g = false := by
  have hspace : pySpace g = true → isQuote g = false := by
    intro hs
    by_contra hq
    rw [Bool.not_eq_false] at hq
    rw [isQuote_not_space hq] at hs
    exact Bool.false_ne_true hs
  cases h with
  | @sign front back mark _ c hfront hc hback hmark =>
    cases front with
    | nil =>
      rw [List.nil_append, List.cons.injEq] at hg
      rw [← hg.1]
      rcases hc with rfl | rfl <;> decide
    | cons f front =>
      rw [List.cons_append, List.cons.injEq] at hg
      exact hspace (hg.1 ▸ hfront f List.mem_cons_self)
  | @space front mark _ hfront hsp hmark hsign =>
    cases front with
    | nil => exact absurd hsp List.not_mem_nil
    | cons f front =>
      rw [List.cons_append, List.cons.injEq] at hg
      exact hspace (hg.1 ▸ hfront f List.mem_cons_self)

/-- In a match no quote stands behind a letter. -/
theorem quotes_of_hidden (h : secretMatch U (before, (word ++ dropped) ++ behind) =
      some (word, ((word ++ dropped).getLast?, behind))) {j : ℕ} {c d : Char}
    (hj : j + 1 < (word ++ dropped).length)
    (hc : ((word ++ dropped) ++ behind)[j]? = some c)
    (hd : ((word ++ dropped) ++ behind)[j + 1]? = some d) (hq : isQuote d = true) :
    isLetter c = false := by
  obtain ⟨hbefore, hword, hmatched⟩ := secretMatch_some U h
  have hnotletter : isLetter d = false := by
    by_contra hl
    rw [Bool.not_eq_false] at hl
    have := isLetter_not_gap hl
    rw [isQuote_isGap hq] at this
    exact Bool.false_ne_true this.symm
  rcases Nat.lt_or_ge (j + 1) word.length with hin | hout
  · obtain ⟨e, he, hj'⟩ := Secret.at_middle (a := []) (m := word) (z := dropped ++ behind)
      (Nat.zero_le (j + 1)) (by simpa using hin)
    rw [List.nil_append, ← List.append_assoc, hd, Option.some.injEq] at hj'
    subst hj'
    rw [hword.letters d he] at hnotletter
    exact absurd hnotletter.symm Bool.false_ne_true
  · cases hmatched with
    | @secret gap credential split hgap run last =>
      let m : Secret U before ((word ++ dropped) ++ behind) :=
        ⟨[], word, [], gap, credential, behind, split, hbefore, hword, .inl rfl, hgap, run⟩
      have hwordEnd : m.wordEnd = word.length := by simp [m, Secret.wordEnd, Secret.start]
      have hstop : m.stop = (word ++ dropped).length := by
        have := congrArg List.length split
        simp only [m, List.length_append, Secret.stop, Secret.value, Secret.wordEnd, Secret.start,
          List.length_nil] at this ⊢
        omega
      rcases Nat.lt_or_ge (j + 1) m.value with hgapin | hcred
      · rcases Nat.eq_or_lt_of_le hout with hfirst | hlater
        · -- the gap does not begin with a quote
          obtain ⟨g, gs, hg⟩ := List.exists_cons_of_ne_nil hgap.nonempty
          rw [← hfirst] at hd
          have hd' : (word ++ (gap ++ (credential ++ behind)))[word.length]? = some d := by
            rw [← split]
            exact hd
          rw [List.getElem?_append_right (Nat.le_refl _), Nat.sub_self, hg] at hd'
          have hgd : g = d := Option.some.inj hd'
          have hnot := hgap.start_not_quote hg
          rw [hgd, hq] at hnot
          exact absurd hnot.symm Bool.false_ne_true
        · obtain ⟨e, he, hgapchar⟩ := m.at_gap (j := j) (by omega) (by omega)
          rw [hc, Option.some.injEq] at he
          subst he
          by_contra hl
          rw [Bool.not_eq_false] at hl
          rw [isLetter_not_gap hl] at hgapchar
          exact Bool.false_ne_true hgapchar
      · obtain ⟨e, he, hchar⟩ := m.at_credential hcred (by omega)
        rw [hd, Option.some.injEq] at he
        subst he
        rw [isCredential_not_quote hchar] at hq
        exact absurd hq Bool.false_ne_true
    | @sign spaces s split hspaces _ hsign whole last =>
      exfalso
      have hdropped : dropped = spaces ++ [s] := by
        have : (word ++ dropped) ++ behind = (word ++ (spaces ++ [s])) ++ behind := by
          rw [split]
          simp
        exact List.append_cancel_left (List.append_cancel_right this)
      obtain ⟨e, he, hj'⟩ := Secret.at_middle (a := word) (m := dropped) (z := behind) hout
        (by rw [List.length_append] at hj; exact hj)
      rw [← List.append_assoc, hd, Option.some.injEq] at hj'
      subst hj'
      rw [hdropped] at he
      rcases List.mem_append.mp he with he | he
      · have := isQuote_not_space hq
        rw [hspaces d he] at this
        exact Bool.false_ne_true this.symm
      · rw [List.mem_singleton.mp he] at hq
        rcases hsign with rfl | rfl <;> exact absurd hq (by decide)

/-- A quote in a gap is in front of the credential. -/
theorem Gap.mark_last {gap credential front back : List Char} {c : Char} (h : Gap gap credential)
    (hc : isQuote c = true) (hsplit : gap = front ++ c :: back) : back = [] := by
  have hnot : ∀ d, pySpace d = true ∨ isSeparator d = true → d ≠ c := by
    rintro d hd rfl
    rcases hd with hd | hd
    · rw [isQuote_not_space hc] at hd
      exact Bool.false_ne_true hd
    · rw [isQuote_not_separator hc] at hd
      exact Bool.false_ne_true hd
  obtain ⟨body, mark, hgap, hbody, hmark⟩ : ∃ body mark, gap = body ++ mark ∧
      (∀ d ∈ body, pySpace d = true ∨ isSeparator d = true) ∧ QuoteMark mark := by
    cases h with
    | @sign spaces after mark _ e hfront he hback hmark =>
      refine ⟨spaces ++ e :: after, mark, by simp, fun d hd => ?_, hmark⟩
      rcases List.mem_append.mp hd with hd | hd
      · exact .inl (hfront d hd)
      · rcases List.mem_cons.mp hd with rfl | hd
        · rcases he with rfl | rfl <;> exact .inr (by decide)
        · exact .inl (hback d hd)
    | @space spaces mark _ hfront _ hmark _ =>
      exact ⟨spaces, mark, rfl, fun d hd => .inl (hfront d hd), hmark⟩
  rw [hsplit] at hgap
  rcases List.append_eq_append_iff.mp hgap with ⟨more, hbodyeq, htail⟩ | ⟨more, hfronteq, htail⟩
  · cases more with
    | nil =>
      rcases hmark with hm | ⟨m, -, hm⟩
      · rw [hm] at htail
        cases htail
      · rw [hm] at htail
        exact (List.cons.inj htail).2
    | cons d more =>
      exfalso
      have hd := hbody d (by rw [hbodyeq]; simp)
      exact hnot d hd (List.cons.inj htail).1.symm
  · rcases hmark with hm | ⟨m, -, hm⟩
    · rw [hm] at htail
      have := congrArg List.length htail
      simp at this
    · rw [hm] at htail
      have := congrArg List.length htail
      simp only [List.length_append, List.length_cons, List.length_nil] at this
      exact List.length_eq_zero_iff.mp (by omega)

/-- In a match a quote is in front of the credential. -/
theorem marks_of_hidden (h : secretMatch U (before, (word ++ dropped) ++ behind) =
      some (word, ((word ++ dropped).getLast?, behind))) {j : ℕ} {c d : Char}
    (hj : j + 1 < (word ++ dropped).length)
    (hc : ((word ++ dropped) ++ behind)[j]? = some c)
    (hd : ((word ++ dropped) ++ behind)[j + 1]? = some d) (hq : isQuote c = true) :
    isCredential d = true := by
  obtain ⟨hbefore, hword, hmatched⟩ := secretMatch_some U h
  have hout : word.length ≤ j := by
    by_contra hin
    obtain ⟨e, he, hj'⟩ := Secret.at_middle (a := []) (m := word) (z := dropped ++ behind)
      (Nat.zero_le j) (by simpa using hin)
    rw [List.nil_append, ← List.append_assoc, hc, Option.some.injEq] at hj'
    subst hj'
    have hgap := isLetter_not_gap (hword.letters c he)
    rw [isQuote_isGap hq] at hgap
    exact Bool.false_ne_true hgap.symm
  cases hmatched with
  | @secret gap credential split hgap run last =>
    let m : Secret U before ((word ++ dropped) ++ behind) :=
      ⟨[], word, [], gap, credential, behind, split, hbefore, hword, .inl rfl, hgap, run⟩
    have hvalue : m.value = word.length + gap.length := by
      simp [m, Secret.value, Secret.wordEnd, Secret.start]
    have hstop : m.stop = (word ++ dropped).length := by
      have := congrArg List.length split
      simp only [m, List.length_append, Secret.stop, Secret.value, Secret.wordEnd, Secret.start,
        List.length_nil] at this ⊢
      omega
    rcases Nat.lt_or_ge j m.value with hin | hcred
    · have hlt : j - word.length < gap.length := by omega
      have hsplit : gap = gap.take (j - word.length) ++ c :: gap.drop (j - word.length + 1) := by
        have hat : gap[j - word.length]? = some c := by
          rw [split, List.getElem?_append_right hout, List.getElem?_append_left hlt] at hc
          exact hc
        rw [List.getElem?_eq_getElem hlt, Option.some.injEq] at hat
        rw [← hat, List.getElem_cons_drop, List.take_append_drop]
      have hlast := congrArg List.length (hgap.mark_last hq hsplit)
      rw [List.length_drop, List.length_nil] at hlast
      obtain ⟨e, he, hchar⟩ := m.at_credential (j := j + 1) (by omega) (by omega)
      rw [hd, Option.some.injEq] at he
      rwa [he]
    · obtain ⟨e, he, hchar⟩ := m.at_credential hcred (by omega)
      rw [hc, Option.some.injEq] at he
      subst he
      rw [isCredential_not_quote hchar] at hq
      exact absurd hq Bool.false_ne_true
  | @sign spaces s split hspaces _ hsign whole last =>
    exfalso
    have hdropped : dropped = spaces ++ [s] := by
      have : (word ++ dropped) ++ behind = (word ++ (spaces ++ [s])) ++ behind := by
        rw [split]
        simp
      exact List.append_cancel_left (List.append_cancel_right this)
    obtain ⟨e, he, hj'⟩ := Secret.at_middle (a := word) (m := dropped) (z := behind) hout
      (by rw [List.length_append] at hj; omega)
    rw [← List.append_assoc, hc, Option.some.injEq] at hj'
    subst hj'
    rw [hdropped] at he
    rcases List.mem_append.mp he with he | he
    · have := isQuote_not_space hq
      rw [hspaces c he] at this
      exact Bool.false_ne_true this.symm
    · rw [List.mem_singleton.mp he] at hq
      rcases hsign with rfl | rfl <;> exact absurd hq (by decide)

/-- What is hidden is behind a word that is matched. -/
theorem Scan.covers (h : Scan U before text ps) (hi : (ps.flatMap Piece.mask)[i]? = some true) :
    ∃ start wordEnd stop, Covers text (ps.flatMap Piece.mask) i start wordEnd stop := by
  induction h generalizing i with
  | nil => simp at hi
  | @kept before c cs ps hnone hrest ih =>
    cases i with
    | zero =>
      rw [List.flatMap_cons, Piece.mask] at hi
      simp at hi
    | succ i =>
      obtain ⟨start, wordEnd, stop, hcovers⟩ := ih hi
      exact ⟨_, _, _, hcovers.shift [c] (List.length_singleton (a := false))⟩
  | @hidden before word dropped behind ps hm hne hrest ih =>
    rw [List.flatMap_cons] at hi
    have hword := (secretMatch_some U hm).2.1
    rcases Nat.lt_or_ge i (word ++ dropped).length with hin | hout
    · have hpos : 0 < word.length := by
        obtain ⟨c, rest, hfirst, -⟩ := hword.first
        simp [hfirst]
      have hbehind : word.length ≤ i := by
        by_contra hlt
        rw [Piece.mask, List.append_assoc, List.getElem?_append_left (by simpa using hlt),
          List.getElem?_replicate, if_pos (by omega)] at hi
        simp at hi
      refine ⟨0, word.length, (word ++ dropped).length, hpos, hbehind, hin, fun j _ hj => ?_,
        fun j c d _ hj hc hd hq => quotes_of_hidden hm hj hc hd hq,
        fun j c d _ hj hc hd hq => marks_of_hidden hm hj hc hd hq, fun j hj hj' => ?_⟩
      · obtain ⟨c, hc, hat⟩ := Secret.at_middle (a := []) (m := word) (z := dropped ++ behind)
          (Nat.zero_le j) (by simpa using hj)
        rw [List.nil_append, ← List.append_assoc] at hat
        exact ⟨c, hat, hword.letters c hc⟩
      · rw [List.flatMap_cons]
        exact mask_dropped hj (by rwa [List.length_append] at hj') _
    · rw [List.getElem?_append_right (by rw [mask_length]; exact hout), mask_length] at hi
      obtain ⟨start, wordEnd, stop, hcovers⟩ := ih hi
      have hshift := hcovers.shift (word ++ dropped) mask_length
      rw [Nat.sub_add_cancel hout] at hshift
      exact ⟨_, _, _, hshift⟩

theorem AllHidden.lower {x : List Char} (hx : x ≠ []) (front : List Bool) {rest : List Bool}
    (hlen : front.length = x.length)
    (h : AllHidden U before (x ++ text) (front ++ rest)) :
    AllHidden U x.getLast? text rest := by
  intro o i hi hi'
  obtain ⟨l, hl⟩ := Secret.lift before hx o
  have hat := h l (i + x.length) (by rw [hl.value]; omega) (by rw [hl.stop]; omega)
  rwa [List.getElem?_append_right (by omega), hlen, Nat.add_sub_cancel] at hat

end Hidden
end NyanyaAgent.Redaction
