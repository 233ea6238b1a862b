import NyanyaAgent.Redaction.Scan

/-!
# Credentials as a text writes them

How far a credential goes is a matter of the text: up to the closing quote, behind a scheme, or
to the end of a word. The pattern reads the same characters, or it leaves some of them.
-/
namespace NyanyaAgent.Redaction
open NyanyaAgent.Text NyanyaAgent.Text.Regex NyanyaAgent.EnvFile

section Values

/-- Between quotes; a backslash is in front of a quote that is part of the value. -/
def quotedValue (q : Char) : List Char → List Char
  | [] => []
  | [c] => if c = q then [] else [c]
  | c :: d :: cs =>
    if c = q then []
    else if c = '\\' then c :: d :: quotedValue q cs
    else c :: quotedValue q (d :: cs)

/-- White space, a comma or a closing brace ends a value without quotes. -/
def isBare (c : Char) : Bool := ! (pySpace c || c = ',' || c = Char.ofNat 125)

def bareValue (rest : List Char) : List Char :=
  if rest.head?.any isQuote = true then [] else rest.takeWhile isBare

def isScheme (c : Char) : Bool := c.isAlphanum || c = '-'

/-- A scheme and the credential behind it. -/
def headerValue (rest : List Char) : List Char :=
  let scheme := rest.takeWhile isScheme
  let behind := rest.dropWhile isScheme
  let blanks := behind.takeWhile fun c => c = ' '
  let token := (behind.dropWhile fun c => c = ' ').takeWhile isBare
  if scheme = [] ∨ blanks = [] ∨ token = [] then bareValue rest else scheme ++ (blanks ++ token)

/-- `authorization`, the name of a header. -/
def IsHeader (word : List Char) : Prop :=
  List.Forall₂ (fun p c => ignoringCase p c = true) "authorization".toList word

instance (word : List Char) : Decidable (IsHeader word) :=
  inferInstanceAs (Decidable (List.Forall₂ _ _ _))

/-- What a text gives as the value behind a word and the gap. -/
def valueOf (word gap rest : List Char) : List Char :=
  match gap.getLast? with
  | none => []
  | some q =>
    if isQuote q = true then quotedValue q rest
    else if IsHeader word then headerValue rest
    else bareValue rest

theorem isBare_of_isCredential {c : Char} (h : isCredential c = true) : isBare c = true := by
  simp only [isCredential, isBare, Bool.not_eq_true', Bool.or_eq_false_iff] at h ⊢
  exact ⟨⟨h.1.1.2, h.1.2⟩, h.2⟩

theorem isCredential_of_isBare {c : Char} (h : isBare c = true) (hq : isQuote c = false) :
    isCredential c = true := by
  simp only [isCredential, isBare, Bool.not_eq_true', Bool.or_eq_false_iff] at h ⊢
  exact ⟨⟨⟨hq, h.1.1⟩, h.1.2⟩, h.2⟩

theorem isCredential_of_isScheme {c : Char} (h : isScheme c = true) : isCredential c = true := by
  have hall : ∀ n < 128, isScheme (Char.ofNat n) = true → isCredential (Char.ofNat n) = true := by
    decide +kernel
  have hascii : c.toNat < 128 := by
    have hparts : isScheme c = (c.isUpper || c.isLower || c.isDigit || decide (c = '-')) := rfl
    rw [hparts] at h
    simp only [Bool.or_eq_true, decide_eq_true_eq] at h
    rcases h with ((h | h) | h) | rfl
    · have hupper : c.toNat ≤ 90 := (of_decide_eq_true h).2
      omega
    · have hlower : c.toNat ≤ 122 := of_decide_eq_true (Bool.and_eq_true_iff.mp h).2
      omega
    · have hdigit : c.toNat ≤ 57 := of_decide_eq_true (Bool.and_eq_true_iff.mp h).2
      omega
    · decide
  have hchar := hall c.toNat hascii
  rw [Char.ofNat_toNat] at hchar
  exact hchar h

/-- The pattern takes no more than the text gives. -/
theorem quotedValue_of_run (q : Char) (hq : isQuote q = true) (rest : List Char) :
    rest.takeWhile isCredential <+: quotedValue q rest := by
  have hne : ∀ c, isCredential c = true → c ≠ q := by
    rintro c hc rfl
    rw [isCredential_not_quote hc] at hq
    exact Bool.false_ne_true hq
  fun_induction quotedValue q rest with
  | case1 => exact List.nil_prefix
  | case2 => simp [isCredential, hq]
  | case3 c h => exact List.takeWhile_prefix _
  | case4 d cs => simp [isCredential, hq]
  | case5 d cs h ih =>
    rw [List.takeWhile_cons_of_pos (by decide)]
    refine (List.prefix_cons_inj _).mpr ?_
    by_cases hd : isCredential d = true
    · rw [List.takeWhile_cons_of_pos hd]
      exact (List.prefix_cons_inj _).mpr ih
    · rw [List.takeWhile_cons_of_neg hd]
      exact List.nil_prefix
  | case6 c d cs h h' ih =>
    by_cases hc : isCredential c = true
    · rw [List.takeWhile_cons_of_pos hc]
      exact (List.prefix_cons_inj _).mpr ih
    · rw [List.takeWhile_cons_of_neg hc]
      exact List.nil_prefix

theorem takeWhile_mono {p q : Char → Bool} (h : ∀ c, p c = true → q c = true) (cs : List Char) :
    cs.takeWhile p <+: cs.takeWhile q := by
  induction cs with
  | nil => exact List.nil_prefix
  | cons c cs ih =>
    by_cases hc : p c = true
    · rw [List.takeWhile_cons_of_pos hc, List.takeWhile_cons_of_pos (h c hc)]
      exact (List.prefix_cons_inj _).mpr ih
    · rw [List.takeWhile_cons_of_neg hc]
      exact List.nil_prefix

theorem bareValue_of_run (rest : List Char) : rest.takeWhile isCredential <+: bareValue rest := by
  unfold bareValue
  split_ifs with hq
  · cases rest with
    | nil => exact List.nil_prefix
    | cons c cs =>
      have hc : isQuote c = true := hq
      simp [isCredential, hc]
  · exact takeWhile_mono (fun c => isBare_of_isCredential) rest

theorem headerValue_of_run (rest : List Char) :
    rest.takeWhile isCredential <+: headerValue rest := by
  unfold headerValue
  dsimp only
  split_ifs with h
  · exact bareValue_of_run rest
  · have hblanks : (rest.dropWhile isScheme).takeWhile isCredential = [] := by
      rw [not_or, not_or] at h
      generalize rest.dropWhile isScheme = behind at h
      cases behind with
      | nil => rfl
      | cons c cs =>
        have hc : c = ' ' := by
          by_contra hne
          exact h.2.1 (List.takeWhile_cons_of_neg (by simpa using hne))
        exact List.takeWhile_cons_of_neg (by rw [hc]; decide)
    have hrun : rest.takeWhile isCredential = rest.takeWhile isScheme := by
      conv_lhs => rw [← List.takeWhile_append_dropWhile (p := isScheme) (l := rest)]
      rw [List.takeWhile_append_of_pos, hblanks, List.append_nil]
      exact fun c hc => isCredential_of_isScheme (List.all_eq_true.mp List.all_takeWhile c hc)
    rw [hrun]
    exact List.prefix_append _ _

theorem valueOf_of_run (word rest : List Char) {gap : List Char} (hgap : gap ≠ []) :
    rest.takeWhile isCredential <+: valueOf word gap rest := by
  obtain ⟨q, hq⟩ := Option.isSome_iff_exists.mp (List.getLast?_isSome.mpr hgap)
  unfold valueOf
  rw [hq]
  dsimp only
  split_ifs with hquote
  · exact quotedValue_of_run q hquote rest
  · exact headerValue_of_run rest
  · exact bareValue_of_run rest

/-- Without a quote in front of it a value begins with what the pattern takes. -/
theorem valueOf_nil {word gap rest : List Char} {q : Char} (hq : gap.getLast? = some q)
    (hquote : isQuote q = false) (h : rest.takeWhile isCredential = []) :
    valueOf word gap rest = [] := by
  have hbare : bareValue rest = [] := by
    unfold bareValue
    split_ifs with hmark
    · rfl
    · cases rest with
      | nil => rfl
      | cons c cs =>
        refine List.takeWhile_cons_of_neg fun hc => ?_
        have hcred := isCredential_of_isBare hc (by simpa using hmark)
        rw [List.takeWhile_cons_of_pos hcred] at h
        cases h
  have hheader : headerValue rest = [] := by
    unfold headerValue
    dsimp only
    split_ifs with hno
    · exact hbare
    · rw [not_or] at hno
      cases rest with
      | nil => exact absurd rfl hno.1
      | cons c cs =>
        by_cases hc : isScheme c = true
        · rw [List.takeWhile_cons_of_pos (isCredential_of_isScheme hc)] at h
          cases h
        · exact absurd (List.takeWhile_cons_of_neg hc) hno.1
  unfold valueOf
  rw [hq]
  dsimp only
  rw [if_neg (by rw [hquote]; exact Bool.false_ne_true), hbare, hheader, ite_self]

end Values

section Credentials

/-- The signs that may follow one another between a word and its value: `:=`, `==`, `=>`. -/
def isSign (c : Char) : Bool := c = ':' || c = '=' || c = '>'

/-- What separates a word and its value: the gap of the pattern, or several signs. -/
inductive Separation : List Char → List Char → Prop
  | gap {gap rest : List Char} (h : Gap gap rest) : Separation gap rest
  | signs {front back more mark rest : List Char} {c d : Char} (hfront : Spaces front)
      (hc : c = ':' ∨ c = '=') (hback : Spaces back) (hd : isSign d = true)
      (hmore : ∀ e ∈ more, isSign e = true ∨ pySpace e = true) (hmark : QuoteMark mark) :
      Separation (front ++ c :: (back ++ d :: (more ++ mark))) rest

variable (U : Letters)

/-- A word in a text with the value that the text gives it. A quote may close the word. -/
structure Credential (before : Option Char) (text : List Char) where
  front : List Char
  word : List Char
  quote : List Char
  gap : List Char
  rest : List Char
  split : text = front ++ (word ++ (quote ++ (gap ++ rest)))
  alone : (front.getLast?.or before).any U.inWord = false
  isWord : IsWord word
  isMark : QuoteMark quote
  isSeparated : Separation gap rest
  nonempty : valueOf word gap rest ≠ []

variable {U} {before : Option Char} {text : List Char}

namespace Credential

def start (o : Credential U before text) : ℕ := o.front.length

def wordEnd (o : Credential U before text) : ℕ := o.start + o.word.length

def value (o : Credential U before text) : ℕ := o.wordEnd + o.quote.length + o.gap.length

def stop (o : Credential U before text) : ℕ := o.value + (valueOf o.word o.gap o.rest).length

end Credential

/-- What the gap is does not depend on more than the first character behind it. -/
theorem Gap.of_head {gap credential rest : List Char} (h : Gap gap credential)
    (hhead : rest.head? = credential.head?) : Gap gap rest := by
  cases h with
  | sign hfront hc hback hmark => exact .sign hfront hc hback hmark
  | @space front mark _ hfront hspace hmark hsign =>
    refine .space hfront hspace hmark ?_
    rw [List.head?_append] at hsign ⊢
    rwa [hhead]

/-- What the pattern takes is at the beginning of a credential. -/
theorem Secret.written (s : Secret U before text) :
    ∃ o : Credential U before text, o.value = s.value ∧ s.stop ≤ o.stop := by
  have hrun : (s.credential ++ s.after).takeWhile isCredential = s.credential := by
    rw [List.takeWhile_append_of_pos s.run.chars]
    have hafter := s.run.whole
    cases hrest : s.after with
    | nil => simp
    | cons c cs =>
      rw [hrest] at hafter
      rw [List.takeWhile_cons_of_neg (by simpa using hafter), List.append_nil]
  have hprefix := valueOf_of_run s.word (s.credential ++ s.after) s.isGap.nonempty
  rw [hrun] at hprefix
  have hhead : (s.credential ++ s.after).head? = s.credential.head? := by
    obtain ⟨c, cs, hc⟩ := List.exists_cons_of_ne_nil s.run.nonempty
    rw [hc]
    rfl
  have hne : valueOf s.word s.gap (s.credential ++ s.after) ≠ [] := by
    intro hnil
    rw [hnil, List.prefix_nil] at hprefix
    exact s.run.nonempty hprefix
  refine ⟨⟨s.front, s.word, s.quote, s.gap, s.credential ++ s.after, s.split, s.alone, s.isWord,
    s.isMark, .gap (s.isGap.of_head hhead), hne⟩, rfl, ?_⟩
  exact Nat.add_le_add_left hprefix.length_le _

theorem Separation.not_letter {gap rest : List Char} (h : Separation gap rest) :
    ∀ e ∈ gap, isLetter e = false := by
  have hgapchar : ∀ e, isGap e = true → isLetter e = false := by
    intro e he
    by_contra hl
    rw [Bool.not_eq_false] at hl
    rw [isLetter_not_gap hl] at he
    exact Bool.false_ne_true he
  have hsign : ∀ e, isSign e = true → isLetter e = false := by
    intro e he
    simp only [isSign, Bool.or_eq_true, decide_eq_true_eq] at he
    rcases he with (rfl | rfl) | rfl <;> decide +kernel
  have hspace : ∀ e, pySpace e = true → isLetter e = false :=
    fun e he => hgapchar e (by simp [isGap, he])
  cases h with
  | gap h => exact fun e he => hgapchar e (h.chars e he)
  | @signs front back more mark _ c d hfront hc hback hd hmore hmark =>
    intro e he
    simp only [List.mem_append, List.mem_cons] at he
    rcases he with he | rfl | he | rfl | he | he
    · exact hspace e (hfront e he)
    · refine hsign e ?_
      rcases hc with rfl | rfl <;> decide
    · exact hspace e (hback e he)
    · exact hsign e hd
    · exact (hmore e he).elim (hsign e) (hspace e)
    · rcases hmark with hm | ⟨m, hm, hquote⟩
      · rw [hm] at he
        exact absurd he List.not_mem_nil
      · rw [hquote] at he
        rw [List.mem_singleton.mp he]
        exact hgapchar m (isQuote_isGap hm)

namespace Credential

/-- No letter of a word stands between a word and its value. -/
theorem at_gap (o : Credential U before text) {j : ℕ} (h : o.wordEnd ≤ j) (h' : j < o.value) :
    ∃ c, text[j]? = some c ∧ isLetter c = false := by
  have hsplit : text = (o.front ++ o.word) ++ ((o.quote ++ o.gap) ++ o.rest) := by
    refine o.split.trans ?_
    simp
  simp only [value, wordEnd, start] at h h'
  obtain ⟨c, hc, hj⟩ := Secret.at_middle (a := o.front ++ o.word) (m := o.quote ++ o.gap)
    (z := o.rest) (j := j) (by simp; omega) (by simp; omega)
  refine ⟨c, by rw [hsplit]; exact hj, ?_⟩
  rcases List.mem_append.mp hc with hc | hc
  · rcases o.isMark with hm | ⟨m, hm, hquote⟩
    · rw [hm] at hc
      exact absurd hc List.not_mem_nil
    · rw [hquote] at hc
      rw [List.mem_singleton.mp hc]
      by_contra hl
      rw [Bool.not_eq_false] at hl
      have hgap := isLetter_not_gap hl
      rw [isQuote_isGap hm] at hgap
      exact Bool.false_ne_true hgap.symm
  · exact o.isSeparated.not_letter c hc

end Credential

theorem Run.of_takeWhile {cs : List Char} (h : cs.takeWhile isCredential ≠ []) :
    Run (cs.takeWhile isCredential) (cs.dropWhile isCredential) := by
  refine ⟨h, fun c hc => List.all_eq_true.mp List.all_takeWhile c hc, ?_⟩
  have hnot := List.head?_dropWhile_not isCredential cs
  cases hdrop : cs.dropWhile isCredential with
  | nil => rfl
  | cons d ds =>
    rw [hdrop] at hnot
    simpa using hnot

theorem head_takeWhile {cs : List Char} (h : cs.takeWhile isCredential ≠ []) :
    (cs.takeWhile isCredential).head? = cs.head? := by
  cases cs with
  | nil => rfl
  | cons c cs =>
    by_cases hc : isCredential c = true
    · rw [List.takeWhile_cons_of_pos hc]
      rfl
    · exact absurd (List.takeWhile_cons_of_neg hc) h

/-- Behind a word the pattern takes something, or there is a quote and the value does not begin as
the pattern wants. -/
theorem Separation.taken {word gap rest : List Char} (h : Separation gap rest)
    (hvalue : valueOf word gap rest ≠ []) :
    (∃ gap' credential after, gap ++ rest = gap' ++ (credential ++ after) ∧ Gap gap' credential ∧
      Run credential after ∧ gap'.length ≤ gap.length) ∨
    ∃ q, gap.getLast? = some q ∧ isQuote q = true ∧ rest.head?.any isCredential = false := by
  cases h with
  | gap hgap =>
    by_cases hrun : rest.takeWhile isCredential = []
    · right
      obtain ⟨q, hq⟩ := Option.isSome_iff_exists.mp (List.getLast?_isSome.mpr hgap.nonempty)
      refine ⟨q, hq, ?_, ?_⟩
      · by_contra hquote
        rw [Bool.not_eq_true] at hquote
        exact hvalue (valueOf_nil hq hquote hrun)
      · cases rest with
        | nil => rfl
        | cons c cs =>
          by_contra hc
          rw [Bool.not_eq_false] at hc
          have hc' : isCredential c = true := hc
          rw [List.takeWhile_cons_of_pos hc'] at hrun
          cases hrun
    · exact .inl ⟨gap, _, _, by rw [List.takeWhile_append_dropWhile],
        hgap.of_head (head_takeWhile hrun), .of_takeWhile hrun, Nat.le_refl _⟩
  | @signs front back more mark _ c d hfront hc hback hd hmore hmark =>
    left
    have hcred : isCredential d = true := by
      simp only [isSign, Bool.or_eq_true, decide_eq_true_eq] at hd
      rcases hd with (rfl | rfl) | rfl <;> decide
    have hrun : (d :: (more ++ mark ++ rest)).takeWhile isCredential ≠ [] := by
      rw [List.takeWhile_cons_of_pos hcred]
      exact List.cons_ne_nil _ _
    refine ⟨front ++ c :: (back ++ []), _, _, ?_, .sign hfront hc hback (.inl rfl),
      .of_takeWhile hrun, ?_⟩
    · rw [List.takeWhile_append_dropWhile]
      simp
    · simp

theorem Credential.taken (o : Credential U before text) :
    (∃ s : Secret U before text, s.start = o.start ∧ s.value ≤ o.value ∧ o.wordEnd ≤ s.stop) ∨
      ∃ q, o.gap.getLast? = some q ∧ isQuote q = true ∧ o.rest.head?.any isCredential = false := by
  refine (o.isSeparated.taken o.nonempty).imp_left fun h => ?_
  obtain ⟨gap, credential, after, hsplit, hgap, hrun, hlen⟩ := h
  refine ⟨⟨o.front, o.word, o.quote, gap, credential, after, ?_, o.alone, o.isWord, o.isMark, hgap,
    hrun⟩, rfl, ?_, ?_⟩
  · rw [← hsplit]
    exact o.split
  · exact Nat.add_le_add_left hlen _
  · simp only [Secret.stop, Secret.value, Secret.wordEnd, Secret.start, wordEnd, start]
    omega

end Credentials
end NyanyaAgent.Redaction
