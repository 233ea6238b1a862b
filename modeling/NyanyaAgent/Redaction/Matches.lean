import NyanyaAgent.Redaction.Redact
import Mathlib.Data.List.Infix

/-!
# What a match is

The words, the gaps and the credentials of a match, and which of several readings is the match.
-/
namespace NyanyaAgent.Redaction
open NyanyaAgent.Text NyanyaAgent.Text.Regex NyanyaAgent.EnvFile

section Characters

def IsWord (word : List Char) : Prop :=
  ∃ w ∈ secretWords, List.Forall₂ (fun p c => ignoringCase p c = true) w.toList word

/-- The letters of the words, and those they begin with. -/
def wordLetters : List Char :=
  ['a', 'b', 'c', 'd', 'e', 'h', 'i', 'k', 'n', 'o', 'p', 'r', 's', 't', 'u', 'w', 'y', 'z', '_',
    '-']

def firstLetters : List Char := ['a', 't', 'p', 's', 'b']

/-- The characters of words. -/
def isLetter (c : Char) : Bool := wordLetters.any fun p => ignoringCase p c

/-- The characters between a word and a credential. -/
def isGap (c : Char) : Bool := pySpace c || isSeparator c || isQuote c

theorem wordLetters_ascii : (wordLetters.all fun p => decide (p.toNat < 128)) = true := by decide

/-- The letters of the words, the first and the last ones, and what follows a hyphen. -/
theorem secretWords_letters :
    (secretWords.all fun w => w.toList.all fun p => wordLetters.any fun q => q = p) = true ∧
    (secretWords.all fun w => w.toList.head?.any fun p => firstLetters.any fun q => q = p) = true ∧
    (secretWords.all fun w => w.toList.reverse.head?.any fun p =>
      wordLetters.any fun q => decide (q = p) && decide (q ≠ '-')) = true ∧
    (secretWords.all fun w => w.toList.tails.all fun t =>
      t.head? != some '-' || t.tail.head? == some 'k') = true := by
  decide +kernel

/-- The ASCII characters of words. No word begins with a `k`. -/
theorem isLetter_ascii : ∀ n < 128, isLetter (Char.ofNat n) = true →
    isCredential (Char.ofNat n) = true ∧ isGap (Char.ofNat n) = false ∧
    (Char.ofNat n = '-' ∨ (Char.ofNat n).toNat < 128 ∧
      ((Char.ofNat n).isAlphanum || decide (Char.ofNat n = '_')) = true) ∧
    (firstLetters.all fun f =>
      !(ignoringCase 'k' (Char.ofNat n) && ignoringCase f (Char.ofNat n))) = true := by
  decide +kernel

/-- An ASCII letter, or one of the letters that are taken for one. -/
theorem ignoringCase_code {p c : Char} (hp : p.toNat < 128) (h : ignoringCase p c = true) :
    c.toNat < 128 ∨ c.toNat ∈ [0x17f, 0x212a, 0x130, 0x131] := by
  have hlower : ∀ n < 128, (Char.ofNat n).toLower.toNat < 128 := by decide
  have hp' : p.toLower.toNat < 128 := by
    have := hlower p.toNat hp
    rwa [Char.ofNat_toNat] at this
  have hsame : c.toLower = p.toLower → c.toNat < 128 := by
    intro he
    by_contra hc
    rw [toLower_other hc] at he
    rw [he] at hc
    exact hc hp'
  simp only [ignoringCase, Bool.or_eq_true, Bool.and_eq_true, decide_eq_true_eq] at h
  simp only [List.mem_cons, List.not_mem_nil, or_false]
  rcases h with (((rfl | h) | ⟨-, h⟩) | ⟨-, h⟩) | ⟨-, h | h⟩
  · exact .inl hp
  · exact .inl (hsame h)
  all_goals simp [h]

/-- What holds of ASCII and of the letters taken for it holds of every letter of a word. -/
theorem isLetter_induction {P : Char → Prop} (hascii : ∀ n < 128, isLetter (Char.ofNat n) = true →
    P (Char.ofNat n)) (hfolded : ∀ n ∈ [0x17f, 0x212a, 0x130, 0x131], P (Char.ofNat n)) {c : Char}
    (h : isLetter c = true) : P c := by
  obtain ⟨p, hp, hmatch⟩ := List.any_eq_true.mp h
  have hp' := of_decide_eq_true (List.all_eq_true.mp wordLetters_ascii p hp)
  rcases ignoringCase_code hp' hmatch with hc | hc
  · have := hascii c.toNat hc
    rw [Char.ofNat_toNat] at this
    exact this h
  · have := hfolded c.toNat hc
    rwa [Char.ofNat_toNat] at this

theorem isLetter_credential {c : Char} (h : isLetter c = true) : isCredential c = true :=
  isLetter_induction (P := fun c => isCredential c = true)
    (fun n hn hl => (isLetter_ascii n hn hl).1) (by decide) h

theorem isLetter_not_gap {c : Char} (h : isLetter c = true) : isGap c = false :=
  isLetter_induction (P := fun c => isGap c = false)
    (fun n hn hl => (isLetter_ascii n hn hl).2.1) (by decide) h

variable (U : Letters)

theorem isLetter_inWord {c : Char} (h : isLetter c = true) : c = '-' ∨ U.inWord c = true := by
  have hfolded : ∀ n ∈ [0x17f, 0x212a, 0x130, 0x131], (Char.ofNat n).toNat = n := by decide
  refine isLetter_induction (P := fun c => c = '-' ∨ U.inWord c = true) (fun n hn hl => ?_)
    (fun n hn => ?_) h
  · rcases (isLetter_ascii n hn hl).2.2.1 with he | ⟨hcode, hword⟩
    · exact .inl he
    · exact .inr ((U.word_ascii _ hcode).trans hword)
  · exact .inr (U.word_folded _ (by rw [hfolded n hn]; exact hn))

theorem isGap_inWord {c : Char} (h : isGap c = true) : U.inWord c = false := by
  simp only [isGap, isSeparator, isQuote, Bool.or_eq_true, decide_eq_true_eq] at h
  rcases h with (h | (rfl | rfl) | rfl) | rfl | rfl
  · exact U.word_space c h
  all_goals exact (U.word_ascii _ (by decide)).trans (by decide)

/-- A letter but the hyphen matches characters of words. -/
theorem letter_inWord {p c : Char} (hp : p ∈ wordLetters) (hne : p ≠ '-')
    (h : ignoringCase p c = true) : U.inWord c = true := by
  have hall : (wordLetters.all fun p => decide (p = '-') || ! ignoringCase p '-') = true := by
    decide
  have hself := List.all_eq_true.mp hall p hp
  rcases isLetter_inWord U (List.any_eq_true.mpr ⟨p, hp, h⟩) with rfl | hword
  · rw [h, decide_eq_false hne] at hself
    simp at hself
  · exact hword

end Characters

section Words

variable {word other : List Char}

theorem IsWord.letters (h : IsWord word) : ∀ c ∈ word, isLetter c = true := by
  obtain ⟨w, hw, hmatch⟩ := h
  have hletters := List.all_eq_true.mp secretWords_letters.1 w hw
  have hall : ∀ ps cs : List Char, List.Forall₂ (fun p c => ignoringCase p c = true) ps cs →
      (ps.all fun p => wordLetters.any fun q => q = p) = true → ∀ c ∈ cs, isLetter c = true := by
    intro ps cs hps
    induction hps with
    | nil => exact fun _ c hc => absurd hc List.not_mem_nil
    | @cons p c ps cs hp _ ih =>
      intro hq
      rw [List.all_cons, Bool.and_eq_true] at hq
      obtain ⟨q, hqmem, hqp⟩ := List.any_eq_true.mp hq.1
      rw [decide_eq_true_eq] at hqp
      subst hqp
      exact List.forall_mem_cons.mpr ⟨List.any_eq_true.mpr ⟨q, hqmem, hp⟩, ih hq.2⟩
  exact hall w.toList word hmatch hletters

theorem IsWord.first (h : IsWord word) :
    ∃ c rest, word = c :: rest ∧ ∃ p ∈ firstLetters, ignoringCase p c = true := by
  obtain ⟨w, hw, hmatch⟩ := h
  obtain ⟨p, hp, hfirst⟩ :=
    (Option.any_eq_true _ _).mp (List.all_eq_true.mp secretWords_letters.2.1 w hw)
  obtain ⟨q, hq, heq⟩ := List.any_eq_true.mp hfirst
  rw [decide_eq_true_eq] at heq
  subst heq
  generalize w.toList = ps at hmatch hp
  cases hmatch with
  | nil => cases hp
  | @cons p c ps cs hc _ =>
    cases hp
    exact ⟨c, cs, rfl, _, hq, hc⟩

theorem IsWord.last (h : IsWord word) :
    ∃ c, word.getLast? = some c ∧ ∃ p ∈ wordLetters, p ≠ '-' ∧ ignoringCase p c = true := by
  obtain ⟨w, hw, hmatch⟩ := h
  obtain ⟨p, hp, hlast⟩ :=
    (Option.any_eq_true _ _).mp (List.all_eq_true.mp secretWords_letters.2.2.1 w hw)
  obtain ⟨q, hq, heq⟩ := List.any_eq_true.mp hlast
  rw [Bool.and_eq_true, decide_eq_true_eq, decide_eq_true_eq] at heq
  obtain ⟨rfl, hne⟩ := heq
  have hback := List.forall₂_reverse_iff.mpr hmatch
  rw [← List.head?_reverse]
  generalize w.toList.reverse = ps at hback hp
  generalize word.reverse = cs at hback
  cases hback with
  | nil => cases hp
  | @cons p c ps cs hc _ =>
    cases hp
    exact ⟨c, rfl, _, hq, hne, hc⟩

variable (U : Letters)

theorem IsWord.head_inWord (h : IsWord word) : word.head?.any U.inWord = true := by
  obtain ⟨c, rest, rfl, p, hp, hc⟩ := h.first
  have hall : (firstLetters.all fun p => decide (p ≠ '-') && wordLetters.any fun q => q = p) =
      true := by decide
  have hself := List.all_eq_true.mp hall p hp
  rw [Bool.and_eq_true, decide_eq_true_eq] at hself
  obtain ⟨q, hq, heq⟩ := List.any_eq_true.mp hself.2
  rw [decide_eq_true_eq] at heq
  subst heq
  exact letter_inWord U hq hself.1 hc

theorem IsWord.last_inWord (h : IsWord word) : ∃ c, word.getLast? = some c ∧ U.inWord c = true := by
  obtain ⟨c, hc, p, hp, hne, hmatch⟩ := h.last
  exact ⟨c, hc, letter_inWord U hp hne hmatch⟩

/-- No word begins inside another one. -/
theorem IsWord.inner (h : IsWord word) (h' : IsWord other) {front back : List Char} {c d : Char}
    (hsplit : word = front ++ c :: d :: back) (hc : U.inWord c = false) :
    other.head? ≠ some d := by
  obtain ⟨w, hw, hmatch⟩ := h
  obtain ⟨e, rest, rfl, f, hf, he⟩ := h'.first
  rw [List.head?_cons, ne_eq, Option.some.injEq]
  rintro rfl
  have hletters := List.all_eq_true.mp secretWords_letters.1 w hw
  have htail := List.all_eq_true.mp (List.all_eq_true.mp secretWords_letters.2.2.2 w hw)
    (w.toList.drop front.length) ((List.mem_tails _ _).mpr (List.drop_suffix _ _))
  rw [hsplit] at hmatch
  have hdrop := List.forall₂_drop_append _ _ _ hmatch
  have hsub : ∀ p ∈ w.toList.drop front.length, p ∈ wordLetters := by
    intro p hp
    obtain ⟨q, hq, heq⟩ := List.any_eq_true.mp
      (List.all_eq_true.mp hletters p (List.mem_of_mem_drop hp))
    rw [decide_eq_true_eq] at heq
    exact heq ▸ hq
  generalize w.toList.drop front.length = ps at hdrop hsub htail
  cases hdrop with
  | @cons p _ ps _ hp hrest =>
    cases hrest with
    | @cons p' _ ps' _ hp' _ =>
      have hyphen : p = '-' := by
        by_contra hne
        rw [letter_inWord U (hsub p List.mem_cons_self) hne hp] at hc
        exact absurd hc.symm Bool.false_ne_true
      subst hyphen
      have hk : p' = 'k' := by simpa using htail
      subst hk
      have hno : (firstLetters.all fun f => !(ignoringCase 'k' e && ignoringCase f e)) = true := by
        refine isLetter_induction (P := fun e =>
          (firstLetters.all fun f => !(ignoringCase 'k' e && ignoringCase f e)) = true) ?_ ?_
            (List.any_eq_true.mpr ⟨'k', by decide, hp'⟩)
        · exact fun n hn hl => (isLetter_ascii n hn hl).2.2.2
        · decide
      have hpair := List.all_eq_true.mp hno f hf
      rw [hp', he] at hpair
      cases hpair

end Words

section Gaps

def Spaces (cs : List Char) : Prop := ∀ c ∈ cs, pySpace c = true

/-- At most one quote. -/
def QuoteMark (cs : List Char) : Prop := cs = [] ∨ ∃ c, isQuote c = true ∧ cs = [c]

/-- A credential as a whole, with what stands behind it. -/
structure Run (credential after : List Char) : Prop where
  nonempty : credential ≠ []
  chars : ∀ c ∈ credential, isCredential c = true
  whole : after.head?.any isCredential = false

/-- What separates a word and a credential: a colon or an equals sign, or else a space. -/
inductive Gap : List Char → List Char → Prop
  | sign {front back mark credential : List Char} {c : Char} (hfront : Spaces front)
      (hc : c = ':' ∨ c = '=') (hback : Spaces back) (hmark : QuoteMark mark) :
      Gap (front ++ c :: (back ++ mark)) credential
  | space {front mark credential : List Char} (hfront : Spaces front) (hspace : ' ' ∈ front)
      (hmark : QuoteMark mark)
      (hsign : (mark ++ credential).head?.any isSeparator = false) : Gap (front ++ mark) credential

variable {before : Option Char} {credential after gap mark front back : List Char} {c : Char}

theorem isCredential_not_space (h : isCredential c = true) : pySpace c = false := by
  by_contra hc
  rw [Bool.not_eq_false] at hc
  simp [isCredential, hc] at h

theorem isCredential_not_quote (h : isCredential c = true) : isQuote c = false := by
  by_contra hc
  rw [Bool.not_eq_false] at hc
  simp [isCredential, hc] at h

theorem isQuote_not_space (h : isQuote c = true) : pySpace c = false := by
  simp only [isQuote, Bool.or_eq_true, decide_eq_true_eq] at h
  rcases h with rfl | rfl <;> decide

theorem isQuote_not_separator (h : isQuote c = true) : isSeparator c = false := by
  simp only [isQuote, Bool.or_eq_true, decide_eq_true_eq] at h
  rcases h with rfl | rfl <;> decide

/-- Where a credential can begin, there is no space. -/
theorem Run.start_not_space (h : Run credential after) (hmark : QuoteMark mark) :
    (mark ++ (credential ++ after)).head?.any pySpace = false := by
  rcases hmark with rfl | ⟨q, hq, rfl⟩
  · cases hcred : credential with
    | nil => exact absurd hcred h.nonempty
    | cons c cs =>
      have := h.chars c (by rw [hcred]; exact List.mem_cons_self)
      simpa using isCredential_not_space this
  · simpa using isQuote_not_space hq

theorem Run.first (h : Run credential after) (hmark : QuoteMark mark) :
    credentialPart.first (before, mark ++ (credential ++ after)) =
      some (credential.getLast?, after) := by
  have hplus : ∀ before, (plus (char isCredential)).first (before, credential ++ after) =
      some (credential.getLast?, after) :=
    fun before => first_plus_char h.nonempty h.chars h.whole
  rw [credentialPart, first_seq, opt, ends]
  rcases hmark with rfl | ⟨q, hq, rfl⟩
  · have hnone : (char isQuote).ends (before, [] ++ (credential ++ after)) = [] := by
      cases hcred : credential with
      | nil => exact absurd hcred h.nonempty
      | cons c cs =>
        have := isCredential_not_quote (h.chars c (by rw [hcred]; exact List.mem_cons_self))
        rw [List.nil_append, List.cons_append, ends, if_neg (by simp [this])]
    rw [hnone, List.nil_append, eps, ends, if_pos rfl, List.findSome?_singleton]
    exact hplus before
  · rw [List.findSome?_append, List.singleton_append, ends, if_pos hq, List.findSome?_singleton,
      hplus]
    rfl

/-- Behind a colon, an equals sign or a space. -/
theorem Run.separated_first (h : Run credential after) (hc : isSeparator c = true)
    (hback : Spaces back) (hmark : QuoteMark mark) :
    separated.first (before, c :: (back ++ (mark ++ (credential ++ after)))) =
      some (credential.getLast?, after) := by
  rw [separated, first_seq, ends, if_pos hc, List.findSome?_singleton]
  exact first_star_seq hback (h.start_not_space hmark) (h.first hmark)

/-- Without a colon or an equals sign, any of the spaces can be the separator, and the credential
is the same. -/
theorem Run.spaces_first (h : Run credential after) (hfront : Spaces front) (hmark : QuoteMark mark)
    (hsign : (mark ++ (credential ++ after)).head?.any isSeparator = false) :
    (seq (star (char pySpace)) separated).first
        (before, front ++ (mark ++ (credential ++ after))) =
      if ' ' ∈ front then some (credential.getLast?, after) else none := by
  rw [first_seq]
  have hstart := h.start_not_space hmark
  induction front generalizing before with
  | nil =>
    rw [List.nil_append, if_neg List.not_mem_nil]
    generalize mark ++ (credential ++ after) = rest at hsign hstart
    cases rest with
    | nil => rfl
    | cons c rest =>
      rw [ends_star_cons, if_neg (by simpa using hstart), List.findSome?_singleton, separated,
        first_seq, ends, if_neg (by simpa using hsign)]
      rfl
  | cons c front ih =>
    obtain ⟨hc, hspaces⟩ := List.forall_mem_cons.mp hfront
    rw [List.cons_append, ends_star_cons, if_pos hc, List.findSome?_append, ih hspaces,
      List.findSome?_singleton]
    by_cases hsep : c = ' '
    · subst hsep
      rw [h.separated_first (by decide) hspaces hmark, if_pos List.mem_cons_self]
      split_ifs <;> rfl
    · have hnot : isSeparator c = false := by
        have hcolon : c ≠ ':' := by
          rintro rfl
          exact absurd hc (by decide)
        have hequals : c ≠ '=' := by
          rintro rfl
          exact absurd hc (by decide)
        simp [isSeparator, hcolon, hequals, hsep]
      have hnone : separated.first (before, c :: (front ++ (mark ++ (credential ++ after)))) =
          none := by
        rw [separated, first_seq, ends, if_neg (by simp [hnot])]
        rfl
      have hmem : ' ' ∈ c :: front ↔ ' ' ∈ front := by
        rw [List.mem_cons]
        exact or_iff_right (Ne.symm hsep)
      rw [hnone, Option.or_none]
      simp only [hmem]

theorem Gap.first (h : Gap gap credential) (hr : Run credential after) :
    (seq (star (char pySpace)) separated).first (before, gap ++ (credential ++ after)) =
      some (credential.getLast?, after) := by
  cases h with
  | @sign front back mark _ c hfront hc hback hmark =>
    have hsep : isSeparator c = true := by
      rcases hc with rfl | rfl <;> decide
    have hstart : pySpace c = false := by
      rcases hc with rfl | rfl <;> decide
    rw [List.append_assoc, List.cons_append, List.append_assoc]
    exact first_star_seq hfront (by simpa using hstart) (hr.separated_first hsep hback hmark)
  | @space front mark _ hfront hspace hmark hsign =>
    have hsign' : (mark ++ (credential ++ after)).head?.any isSeparator = false := by
      rw [← List.append_assoc, List.head?_append_of_ne_nil]
      · exact hsign
      · intro hnil
        exact hr.nonempty (List.append_eq_nil_iff.mp hnil).2
    rw [List.append_assoc, hr.spaces_first hfront hmark hsign', if_pos hspace]

theorem Gap.chars (h : Gap gap credential) : ∀ c ∈ gap, isGap c = true := by
  have hspaces : ∀ {cs}, Spaces cs → ∀ c ∈ cs, isGap c = true := by
    intro cs hcs c hc
    simp [isGap, hcs c hc]
  have hmarks : ∀ {cs}, QuoteMark cs → ∀ c ∈ cs, isGap c = true := by
    rintro cs (rfl | ⟨q, hq, rfl⟩) c hc
    · exact absurd hc List.not_mem_nil
    · rw [List.mem_singleton.mp hc]
      simp [isGap, hq]
  cases h with
  | @sign front back mark _ c hfront hc hback hmark =>
    intro d hd
    rcases List.mem_append.mp hd with hd | hd
    · exact hspaces hfront d hd
    · rcases List.mem_cons.mp hd with rfl | hd
      · rcases hc with rfl | rfl <;> decide
      · rcases List.mem_append.mp hd with hd | hd
        · exact hspaces hback d hd
        · exact hmarks hmark d hd
  | @space front mark _ hfront hspace hmark hsign =>
    intro d hd
    rcases List.mem_append.mp hd with hd | hd
    · exact hspaces hfront d hd
    · exact hmarks hmark d hd

theorem Gap.nonempty (h : Gap gap credential) : gap ≠ [] := by
  cases h with
  | sign => simp
  | @space front mark _ _ hspace =>
    intro hnil
    rw [(List.append_eq_nil_iff.mp hnil).1] at hspace
    exact absurd hspace List.not_mem_nil

end Gaps

section Matches

variable (U : Letters) {before : Option Char} {word gap credential after dropped : List Char}
  {q q' : Place}

theorem mem_ends_words : q' ∈ (wordsI secretWords).ends q ↔
    ∃ word, IsWord word ∧ q.2 = word ++ q'.2 ∧ q'.1 = word.getLast?.or q.1 := by
  rw [mem_ends_wordsI]
  constructor
  · rintro ⟨w, hw, cs, hsplit, hmatch, hbefore⟩
    exact ⟨cs, ⟨w, hw, hmatch⟩, hsplit, hbefore⟩
  · rintro ⟨word, ⟨w, hw, hmatch⟩, hsplit, hbefore⟩
    exact ⟨w, hw, word, hsplit, hmatch, hbefore⟩

theorem mem_ends_space : q' ∈ (star (char pySpace)).ends q ↔
    ∃ cs, q.2 = cs ++ q'.2 ∧ Spaces cs ∧ q'.1 = cs.getLast?.or q.1 := mem_ends_star_char

/-- A match is tried where a word can begin. -/
theorem secretMatch_eq : secretMatch U q =
    if (q.1.any U.inWord != q.2.head?.any U.inWord) = true then
      ((wordsI secretWords).ends q).findSome? fun q₁ =>
        ((behindWord U).first q₁).map fun q₂ => (taken q q₁, q₂)
    else none := by
  unfold secretMatch boundary
  rw [ends]
  split_ifs with h
  · rw [List.flatMap_singleton, List.head?_flatMap]
    congr 1
    funext q₁
    rw [List.head?_map]
    rfl
  · rfl

/-- Behind a letter there is no match. -/
theorem behindWord_letter {c : Char} {cs : List Char} (h : isLetter c = true) :
    (behindWord U).first (before, c :: cs) = none := by
  have hgap := isLetter_not_gap h
  simp only [isGap, Bool.or_eq_false_iff] at hgap
  obtain ⟨⟨hspace, hsep⟩, -⟩ := hgap
  have hnone : (seq (star (char pySpace)) separated).first (before, c :: cs) = none := by
    rw [first_seq, ends_star_cons, if_neg (by simp [hspace]), List.findSome?_singleton, separated,
      first_seq, ends, if_neg (by simp [hsep])]
    rfl
  rw [behindWord, first_seq, boundary, ends]
  split_ifs
  · rw [List.findSome?_singleton]
    exact hnone
  · rfl

/-- A word, a gap and a credential are matched as such. -/
theorem secretMatch_of_gap (hbefore : before.any U.inWord = false) (hw : IsWord word)
    (hg : Gap gap credential) (hr : Run credential after) :
    secretMatch U (before, word ++ (gap ++ (credential ++ after))) =
      some (word, (credential.getLast?, after)) := by
  obtain ⟨g, gs, hgap⟩ := List.exists_cons_of_ne_nil hg.nonempty
  have hgchar : isGap g = true := hg.chars g (by rw [hgap]; exact List.mem_cons_self)
  obtain ⟨l, hlast, hlword⟩ := hw.last_inWord U
  have hhead : (word ++ (gap ++ (credential ++ after))).head?.any U.inWord = true := by
    obtain ⟨c, rest, rfl, -⟩ := hw.first
    exact hw.head_inWord U
  have hbehind : (behindWord U).first (word.getLast?.or before, gap ++ (credential ++ after)) =
      some (credential.getLast?, after) := by
    rw [behindWord, first_seq, boundary, ends, if_pos]
    · rw [List.findSome?_singleton]
      exact hg.first hr
    · rw [hlast, hgap]
      simp [hlword, isGap_inWord U hgchar]
  rw [secretMatch_eq, if_pos (by rw [hhead, hbefore]; rfl)]
  have hmem : (word.getLast?.or before, gap ++ (credential ++ after)) ∈
      (wordsI secretWords).ends (before, word ++ (gap ++ (credential ++ after))) :=
    mem_ends_words.mpr ⟨word, hw, rfl, rfl⟩
  have hother : ∀ q₁ ∈ (wordsI secretWords).ends (before, word ++ (gap ++ (credential ++ after))),
      q₁ = (word.getLast?.or before, gap ++ (credential ++ after)) ∨
        (behindWord U).first q₁ = none := by
    rintro ⟨last, rest⟩ hq₁
    obtain ⟨word', hw', hsplit, hlast'⟩ := mem_ends_words.mp hq₁
    dsimp only at hsplit hlast'
    rcases List.append_eq_append_iff.mp hsplit with ⟨more, hword', hrest⟩ | ⟨more, hword, hrest⟩
    · -- a longer word would have a letter in the gap
      cases more with
      | nil =>
        rw [List.append_nil] at hword'
        left
        rw [hlast', hword', hrest]
        rfl
      | cons m more =>
        rw [hgap, List.cons_append, List.cons_append, List.cons.injEq] at hrest
        have hm := hw'.letters m (by rw [hword']; simp)
        rw [← hrest.1] at hm
        rw [isLetter_not_gap hm] at hgchar
        exact absurd hgchar Bool.false_ne_true
    · cases more with
      | nil =>
        rw [List.append_nil] at hword
        left
        rw [hlast', ← hword, hrest]
        rfl
      | cons m more =>
        right
        rw [hrest, List.cons_append]
        exact behindWord_letter U (hw.letters m (by rw [hword]; simp))
  have htaken : taken (before, word ++ (gap ++ (credential ++ after)))
      (word.getLast?.or before, gap ++ (credential ++ after)) = word := taken_append rfl
  generalize (wordsI secretWords).ends (before, word ++ (gap ++ (credential ++ after))) = l
    at hmem hother
  induction l with
  | nil => exact absurd hmem List.not_mem_nil
  | cons q₁ l ih =>
    obtain ⟨hq₁, hl⟩ := List.forall_mem_cons.mp hother
    rw [List.findSome?_cons]
    rcases hq₁ with rfl | hnone
    · rw [hbehind, htaken]
      rfl
    · rw [hnone]
      refine ih ?_ hl
      rcases List.mem_cons.mp hmem with he | hmem
      · rw [← he, hbehind] at hnone
        cases hnone
      · exact hmem

/-- One of the ways to read what stands behind a word. -/
structure Reading (rest : List Char) (q' : Place) (front : List Char) (c : Char)
    (back mark value : List Char) : Prop where
  split : rest = front ++ c :: (back ++ (mark ++ (value ++ q'.2)))
  front : Spaces front
  separator : isSeparator c = true
  back : Spaces back
  mark : QuoteMark mark
  nonempty : value ≠ []
  chars : ∀ c ∈ value, isCredential c = true
  last : q'.1 = value.getLast?

theorem mem_credentialPart : q' ∈ credentialPart.ends q ↔ ∃ mark value,
    q.2 = mark ++ (value ++ q'.2) ∧ QuoteMark mark ∧ value ≠ [] ∧
      (∀ c ∈ value, isCredential c = true) ∧ q'.1 = value.getLast? := by
  have hplus : ∀ q, q' ∈ (plus (char isCredential)).ends q ↔ ∃ value, q.2 = value ++ q'.2 ∧
      value ≠ [] ∧ (∀ c ∈ value, isCredential c = true) ∧ q'.1 = value.getLast? := by
    intro q
    rw [plus, mem_ends_seq]
    constructor
    · rintro ⟨q₁, hq₁, hq'⟩
      obtain ⟨c, hsplit, hc, hlast⟩ := mem_ends_char.mp hq₁
      obtain ⟨cs, hrest, hall, hlast'⟩ := mem_ends_star_char.mp hq'
      refine ⟨c :: cs, by rw [hsplit, hrest, List.cons_append], List.cons_ne_nil _ _,
        List.forall_mem_cons.mpr ⟨hc, hall⟩, ?_⟩
      rw [hlast', hlast, List.getLast?_cons]
      cases cs.getLast? <;> rfl
    · rintro ⟨value, hsplit, hne, hall, hlast⟩
      cases value with
      | nil => exact absurd rfl hne
      | cons c cs =>
        obtain ⟨hc, hall⟩ := List.forall_mem_cons.mp hall
        refine ⟨(some c, cs ++ q'.2), mem_ends_char.mpr ⟨c, hsplit, hc, rfl⟩,
          mem_ends_star_char.mpr ⟨cs, rfl, hall, ?_⟩⟩
        rw [hlast, List.getLast?_cons]
        cases cs.getLast? <;> rfl
  rw [credentialPart, mem_ends_seq]
  constructor
  · rintro ⟨q₁, hq₁, hq'⟩
    obtain ⟨value, hsplit, hne, hall, hlast⟩ := (hplus q₁).mp hq'
    rw [opt, mem_ends_alt] at hq₁
    rcases hq₁ with hq₁ | hq₁
    · obtain ⟨m, hm, hquote, -⟩ := mem_ends_char.mp hq₁
      exact ⟨[m], value, by rw [hm, hsplit]; rfl, .inr ⟨m, hquote, rfl⟩, hne, hall, hlast⟩
    · obtain ⟨rfl, -⟩ := mem_ends_look.mp hq₁
      exact ⟨[], value, hsplit, .inl rfl, hne, hall, hlast⟩
  · rintro ⟨mark, value, hsplit, hmark, hne, hall, hlast⟩
    rcases hmark with rfl | ⟨m, hquote, rfl⟩
    · exact ⟨q, mem_ends_alt.mpr (.inr (mem_ends_look.mpr ⟨rfl, rfl⟩)),
        (hplus q).mpr ⟨value, hsplit, hne, hall, hlast⟩⟩
    · exact ⟨(some m, value ++ q'.2), mem_ends_alt.mpr (.inl (mem_ends_char.mpr
        ⟨m, hsplit, hquote, rfl⟩)), (hplus _).mpr ⟨value, rfl, hne, hall, hlast⟩⟩

theorem mem_behindWord : q' ∈ (behindWord U).ends q ↔
    (q.1.any U.inWord != q.2.head?.any U.inWord) = true ∧
      ∃ front c back mark value, Reading q.2 q' front c back mark value := by
  rw [behindWord, mem_ends_seq]
  constructor
  · rintro ⟨q₁, hq₁, hq'⟩
    obtain ⟨rfl, hbound⟩ := mem_ends_look.mp hq₁
    obtain ⟨q₂, hq₂, hq'⟩ := mem_ends_seq.mp hq'
    obtain ⟨front, hfront, hspaces, -⟩ := mem_ends_space.mp hq₂
    obtain ⟨q₃, hq₃, hq'⟩ := mem_ends_seq.mp hq'
    obtain ⟨c, hc, hsep, -⟩ := mem_ends_char.mp hq₃
    obtain ⟨q₄, hq₄, hq'⟩ := mem_ends_seq.mp hq'
    obtain ⟨back, hback, hspaces', -⟩ := mem_ends_space.mp hq₄
    obtain ⟨mark, value, hsplit, hmark, hne, hall, hlast⟩ := mem_credentialPart.mp hq'
    exact ⟨hbound, front, c, back, mark, value, by rw [hfront, hc, hback, hsplit], hspaces, hsep,
      hspaces', hmark, hne, hall, hlast⟩
  · rintro ⟨hbound, front, c, back, mark, value, h⟩
    refine ⟨q, mem_ends_look.mpr ⟨rfl, hbound⟩, mem_ends_seq.mpr ⟨(front.getLast?.or q.1, _),
      mem_ends_space.mpr ⟨front, h.split, h.front, rfl⟩, mem_ends_seq.mpr ⟨(some c, _),
        mem_ends_char.mpr ⟨c, rfl, h.separator, rfl⟩, mem_ends_seq.mpr
          ⟨(back.getLast?.or (some c), _), mem_ends_space.mpr ⟨back, rfl, h.back, rfl⟩, ?_⟩⟩⟩⟩
    exact mem_credentialPart.mpr ⟨mark, value, rfl, h.mark, h.nonempty, h.chars, h.last⟩

/-- A match of a word with its gap and the credential, or of a colon or an equals sign with
nothing behind it, as if that were one. -/
inductive Matched (text word : List Char) (q' : Place) : Prop
  | secret {gap credential : List Char} (split : text = word ++ (gap ++ (credential ++ q'.2)))
      (gap : Gap gap credential) (run : Run credential q'.2) (last : q'.1 = credential.getLast?)
  | sign {spaces : List Char} {c : Char} (split : text = word ++ (spaces ++ c :: q'.2))
      (isSpaces : Spaces spaces) (blank : ' ' ∈ spaces) (sign : c = ':' ∨ c = '=')
      (whole : q'.2.head?.any isCredential = false) (last : q'.1 = some c)

/-- A reading makes as much of the credential as there is. -/
theorem Reading.whole {rest back mark value : List Char} {front : List Char} {c : Char}
    (h : Reading rest q' front c back mark value) :
    ∃ more after, q'.2 = more ++ after ∧ Run (value ++ more) after := by
  refine ⟨q'.2.takeWhile isCredential, q'.2.dropWhile isCredential,
    List.takeWhile_append_dropWhile.symm, ?_, ?_, ?_⟩
  · intro hnil
    exact h.nonempty (List.append_eq_nil_iff.mp hnil).1
  · intro d hd
    rcases List.mem_append.mp hd with hd | hd
    · exact h.chars d hd
    · exact List.all_eq_true.mp List.all_takeWhile d hd
  · cases hdrop : q'.2.dropWhile isCredential with
    | nil => rfl
    | cons d ds =>
      have := List.head?_dropWhile_not isCredential q'.2
      rw [hdrop] at this
      simpa using this

/-- What can be read behind a word, as a gap with a credential or as a sign alone. -/
theorem Reading.gapped {rest back mark value : List Char} {front : List Char} {c : Char}
    (h : Reading rest q' front c back mark value) :
    (∃ gap credential after, rest = gap ++ (credential ++ after) ∧ Gap gap credential ∧
      Run credential after) ∨
    (∃ spaces c, rest = spaces ++ c :: q'.2 ∧ Spaces spaces ∧ ' ' ∈ spaces ∧ (c = ':' ∨ c = '=') ∧
      q'.2.head?.any isCredential = false ∧ q'.1 = some c) := by
  obtain ⟨more, after, hmore, hrun⟩ := h.whole
  have hsplit : rest = front ++ c :: (back ++ (mark ++ ((value ++ more) ++ after))) := by
    rw [h.split, hmore, List.append_assoc]
  have hsep := h.separator
  simp only [isSeparator, Bool.or_eq_true, decide_eq_true_eq] at hsep
  by_cases hc : c = ':' ∨ c = '='
  · refine .inl ⟨front ++ c :: (back ++ mark), value ++ more, after, ?_,
      .sign h.front hc h.back h.mark, hrun⟩
    rw [hsplit]
    simp
  · have hspace : c = ' ' := by tauto
    subst hspace
    have hspaces : Spaces (front ++ ' ' :: back) := by
      intro d hd
      rcases List.mem_append.mp hd with hd | hd
      · exact h.front d hd
      · rcases List.mem_cons.mp hd with rfl | hd
        · decide
        · exact h.back d hd
    by_cases hsign : (mark ++ (value ++ more)).head?.any isSeparator = false
    · refine .inl ⟨(front ++ ' ' :: back) ++ mark, value ++ more, after, ?_,
        .space hspaces (by simp) h.mark hsign, hrun⟩
      rw [hsplit]
      simp
    · -- the credential begins with a colon or an equals sign
      have hmark : mark = [] := by
        rcases h.mark with hm | ⟨m, hm, rfl⟩
        · exact hm
        · exact absurd (by simpa using isQuote_not_separator hm) hsign
      subst hmark
      obtain ⟨d, ds, hvalue⟩ := List.exists_cons_of_ne_nil h.nonempty
      have hd : d = ':' ∨ d = '=' := by
        rw [hvalue] at hsign
        simp only [List.nil_append, List.cons_append, List.head?_cons, Option.any_some,
          Bool.not_eq_false, isSeparator, Bool.or_eq_true, decide_eq_true_eq] at hsign
        rcases hsign with hd | rfl
        · exact hd
        · have := h.chars ' ' (by rw [hvalue]; exact List.mem_cons_self)
          exact absurd this (by decide)
      by_cases hnil : ds ++ more = []
      · obtain ⟨rfl, rfl⟩ := List.append_eq_nil_iff.mp hnil
        refine .inr ⟨front ++ ' ' :: back, d, ?_, hspaces, by simp, hd, ?_,
          by rw [h.last, hvalue]; rfl⟩
        · rw [h.split, hvalue]
          simp
        · rw [hmore, List.nil_append]
          exact hrun.whole
      · refine .inl ⟨(front ++ ' ' :: back) ++ d :: ([] ++ []), ds ++ more, after, ?_,
          .sign hspaces hd (fun c hc => absurd hc List.not_mem_nil) (.inl rfl), hnil, ?_,
            hrun.whole⟩
        · rw [hsplit, hvalue]
          simp
        · intro e he
          refine hrun.chars e ?_
          rw [hvalue, List.cons_append]
          exact List.mem_cons_of_mem d he

theorem secretMatch_some {text : List Char}
    (h : secretMatch U (before, text) = some (word, q')) :
    before.any U.inWord = false ∧ IsWord word ∧ Matched text word q' := by
  have hmatch := h
  rw [secretMatch_eq] at h
  split_ifs at h with hbound
  obtain ⟨q₁, hq₁, hfirst⟩ := List.exists_of_findSome?_eq_some h
  obtain ⟨q₂, hq₂, heq⟩ := Option.map_eq_some_iff.mp hfirst
  obtain ⟨word', hw, hsplit, -⟩ := mem_ends_words.mp hq₁
  rw [taken_append hsplit, Prod.mk.injEq] at heq
  obtain ⟨rfl, rfl⟩ := heq
  obtain ⟨-, front, c, back, mark, value, hr⟩ :=
    (mem_behindWord U).mp (List.mem_of_head? hq₂)
  have hbefore : before.any U.inWord = false := by
    have hhead : text.head?.any U.inWord = true := by
      obtain ⟨d, rest, hword, -⟩ := hw.first
      have := hw.head_inWord U
      dsimp only at hsplit
      rw [hsplit, hword]
      rwa [hword] at this
    dsimp only at hbound
    rw [hhead] at hbound
    cases hb : before.any U.inWord with
    | false => rfl
    | true =>
      rw [hb] at hbound
      exact absurd hbound.symm (by decide)
  refine ⟨hbefore, hw, ?_⟩
  dsimp only at hsplit
  rcases hr.gapped with ⟨gap, credential, after, hrest, hgap, hrun⟩ |
    ⟨spaces, d, hrest, hs, hblank, hd, hwhole, hl⟩
  · rw [hsplit, hrest, secretMatch_of_gap U hbefore hw hgap hrun, Option.some.injEq,
      Prod.mk.injEq] at hmatch
    obtain ⟨-, rfl⟩ := hmatch
    exact .secret (by rw [hsplit, hrest]) hgap hrun rfl
  · exact .sign (by rw [hsplit, hrest]) hs hblank hd hwhole hl

end Matches
end NyanyaAgent.Redaction
