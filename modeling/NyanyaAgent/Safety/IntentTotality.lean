import NyanyaAgent.Control.Intents

/-!
# Classification of control intents

When the classification of a text has an answer, and which texts have an answer with an effect.
-/
namespace NyanyaAgent.Safety
open NyanyaAgent.Text NyanyaAgent.Text.Regex NyanyaAgent.EnvFile NyanyaAgent.Control

variable {U : Unicode} {text value verb taskId : List Char}

instance decidableVerbChar (c : Char) : Decidable (VerbChar c) := by
  unfold VerbChar
  infer_instance

section Words

/-- A word of a command, in any case. -/
def CommandWord (verb : List Char) : Prop :=
  ∃ w ∈ commandWords, List.Forall₂ (fun p c => ignoringCase p c = true) w.toList verb

/-- A letter that a pattern takes for an ASCII one and `str.lower` does not. -/
def oddLetter (c : Char) : Bool := decide (c.toNat ∈ [0x17f, 0x130, 0x131])

/-- A letter of a command word as it is written in the patterns. -/
def patternLetter (p : Char) : Bool :=
  decide (p.toLower = p) && decide (VerbChar p) && ! oddLetter p && ! pySpace p &&
    decide (lowerChar p = [p])

theorem commandWords_letters :
    (commandWords.all fun w => w.toList.all patternLetter) = true := by decide +kernel

/-- What a letter of a command word matches. -/
theorem ignoringCase_cases {p c : Char} (hp : patternLetter p = true)
    (h : ignoringCase p c = true) :
    c = p ∨ (c.toNat < 128 ∧ c.toLower = p) ∨ (p = 's' ∧ c.toNat = 0x17f) ∨
      (p = 'k' ∧ c.toNat = 0x212a) ∨ (p = 'i' ∧ (c.toNat = 0x130 ∨ c.toNat = 0x131)) := by
  simp only [patternLetter, Bool.and_eq_true, decide_eq_true_eq] at hp
  have hlower := hp.1.1.1.1
  simp only [ignoringCase, hlower, Bool.or_eq_true, Bool.and_eq_true, decide_eq_true_eq] at h
  rcases h with (((h | h) | h) | h) | h
  · exact .inl h
  · by_cases hascii : c.toNat < 128
    · exact .inr (.inl ⟨hascii, h⟩)
    · rw [toLower_other hascii] at h
      exact .inl h
  · exact .inr (.inr (.inl h))
  · exact .inr (.inr (.inr (.inl h)))
  · exact .inr (.inr (.inr (.inr h)))

theorem lowerChar_ascii {c : Char} (h : c.toNat < 128) : lowerChar c = [c.toLower] := by
  have hkelvin : c.toNat ≠ 0x212a := by omega
  have hdotted : c.toNat ≠ 0x130 := by omega
  rw [lowerChar, if_neg hkelvin, if_neg hdotted, if_pos h]

/-- `str.lower` gives back the letter of the pattern, unless the letter is odd. -/
theorem lowerChar_pattern {p c : Char} (hp : patternLetter p = true)
    (h : ignoringCase p c = true) (hodd : oddLetter c = false) : lowerChar c = [p] := by
  have hpattern := hp
  simp only [patternLetter, Bool.and_eq_true, decide_eq_true_eq] at hpattern
  rcases ignoringCase_cases hp h with rfl | ⟨hascii, hlower⟩ | ⟨-, hcode⟩ | ⟨rfl, hcode⟩ |
    ⟨-, hcode | hcode⟩
  · exact hpattern.2
  · rw [lowerChar_ascii hascii, hlower]
  · simp [oddLetter, hcode] at hodd
  · rw [lowerChar, if_pos hcode]
  · simp [oddLetter, hcode] at hodd
  · simp [oddLetter, hcode] at hodd

theorem verbChar_pattern {p c : Char} (hp : patternLetter p = true)
    (h : ignoringCase p c = true) : VerbChar c ∧ pySpace c = false := by
  have hpattern := hp
  simp only [patternLetter, Bool.and_eq_true, decide_eq_true_eq, Bool.not_eq_true'] at hpattern
  rcases ignoringCase_cases hp h with rfl | ⟨hascii, hlower⟩ | ⟨-, hcode⟩ | ⟨-, hcode⟩ |
    ⟨-, hcode | hcode⟩
  · exact ⟨hpattern.1.1.1.2, hpattern.1.2⟩
  · refine ⟨.inl hascii, ?_⟩
    by_contra hspace
    have hall : ∀ n < 128, pySpace (Char.ofNat n) = true →
        pySpace (Char.ofNat n).toLower = true := by decide
    have hself := hall c.toNat hascii
    rw [Char.ofNat_toNat, hlower, hpattern.1.2] at hself
    exact absurd (hself (by simpa using hspace)) Bool.false_ne_true
  · exact ⟨.inr (.inl (by simp [hcode])), by simp [pySpace, hcode]⟩
  · exact ⟨.inr (.inl (by simp [hcode])), by simp [pySpace, hcode]⟩
  · exact ⟨.inr (.inl (by simp [hcode])), by simp [pySpace, hcode]⟩
  · exact ⟨.inr (.inl (by simp [hcode])), by simp [pySpace, hcode]⟩

theorem pattern_inner {ps cs : List Char} (hps : ∀ p ∈ ps, patternLetter p = true)
    (h : List.Forall₂ (fun p c => ignoringCase p c = true) ps cs) :
    ∀ c ∈ cs, VerbChar c ∧ pySpace c = false := by
  induction h with
  | nil => exact fun c hc => absurd hc List.not_mem_nil
  | cons hc _ ih =>
    obtain ⟨hp, hps⟩ := List.forall_mem_cons.mp hps
    exact List.forall_mem_cons.mpr ⟨verbChar_pattern hp hc, ih hps⟩

theorem pattern_lower {ps cs : List Char} (hps : ∀ p ∈ ps, patternLetter p = true)
    (h : List.Forall₂ (fun p c => ignoringCase p c = true) ps cs)
    (hodd : cs.any oddLetter = false) : cs.flatMap lowerChar = ps := by
  induction h with
  | nil => rfl
  | cons hc _ ih =>
    obtain ⟨hp, hps⟩ := List.forall_mem_cons.mp hps
    rw [List.any_cons, Bool.or_eq_false_iff] at hodd
    rw [List.flatMap_cons, lowerChar_pattern hp hc hodd.1, ih hps hodd.2, List.singleton_append]

theorem commandWord_letters {w : String} (hw : w ∈ commandWords) :
    ∀ p ∈ w.toList, patternLetter p = true :=
  List.all_eq_true.mp (List.all_eq_true.mp commandWords_letters w hw)

theorem commandWord_inner (h : CommandWord verb) :
    ∀ c ∈ verb, VerbChar c ∧ pySpace c = false := by
  obtain ⟨w, hw, hall⟩ := h
  exact pattern_inner (commandWord_letters hw) hall

theorem commandWord_lower (U : Unicode) (h : CommandWord verb) :
    U.lower verb = verb.flatMap lowerChar :=
  U.lower_verb verb fun c hc => (commandWord_inner h c hc).1

/-- What `str.lower` leaves of an odd letter. -/
def oddLower (d : Char) : Bool := decide (d.toNat ∈ [0x17f, 0x307, 0x131])

theorem lowerChar_odd {c : Char} (h : oddLetter c = true) : ∃ d ∈ lowerChar c, oddLower d = true := by
  simp only [oddLetter, List.mem_cons, List.not_mem_nil, or_false, decide_eq_true_eq] at h
  rcases h with h | h | h
  · exact ⟨c, by simp [lowerChar, h], by simp [oddLower, h]⟩
  · exact ⟨Char.ofNat 0x307, by simp [lowerChar, h], by decide⟩
  · exact ⟨c, by simp [lowerChar, h], by simp [oddLower, h]⟩

/-- The table of the verbs has the command words, and no odd letters. -/
theorem verbKinds_plain : (verbKinds.all fun e => e.1.toList.all fun d => ! oddLower d) = true ∧
    (commandWords.all fun w => (verbKind w.toList).isSome) = true := by
  decide +kernel

/-- The table has the lower case of a command word exactly when no letter of it is odd. -/
theorem verbKind_iff (U : Unicode) (h : CommandWord verb) :
    (verbKind (U.lower verb)).isSome = true ↔ verb.any oddLetter = false := by
  rw [commandWord_lower U h]
  constructor
  · intro hkind
    by_contra hodd
    rw [Bool.not_eq_false, List.any_eq_true] at hodd
    obtain ⟨c, hc, hodd⟩ := hodd
    obtain ⟨d, hd, hstrange⟩ := lowerChar_odd hodd
    have hmem : d ∈ verb.flatMap lowerChar := List.mem_flatMap.mpr ⟨c, hc, hd⟩
    unfold verbKind at hkind
    rw [Option.isSome_map, List.find?_isSome] at hkind
    obtain ⟨e, he, heq⟩ := hkind
    rw [decide_eq_true_eq] at heq
    rw [← heq] at hmem
    have hplain := List.all_eq_true.mp (List.all_eq_true.mp verbKinds_plain.1 e he) d hmem
    rw [hstrange] at hplain
    cases hplain
  · intro hodd
    obtain ⟨w, hw, hall⟩ := h
    rw [pattern_lower (commandWord_letters hw) hall hodd]
    exact List.all_eq_true.mp verbKinds_plain.2 w hw

/-- Only three of the command words have an odd spelling. -/
theorem odd_words (hodd : verb.any oddLetter = true) {w : String} (hw : w ∈ commandWords)
    (h : List.Forall₂ (fun p c => ignoringCase p c = true) w.toList verb) :
    w ∈ ["dismiss", "resume", "ack-delivery"] := by
  have hfound : ∀ {ps cs : List Char}, (∀ p ∈ ps, patternLetter p = true) →
      List.Forall₂ (fun p c => ignoringCase p c = true) ps cs → cs.any oddLetter = true →
        ps.any (fun p => p = 's' || p = 'i') = true := by
    intro ps cs hps hall hany
    induction hall with
    | nil => cases hany
    | cons hc _ ih =>
      obtain ⟨hp, hps⟩ := List.forall_mem_cons.mp hps
      rw [List.any_cons, Bool.or_eq_true] at hany
      rw [List.any_cons, Bool.or_eq_true]
      rcases hany with hany | hany
      · left
        rcases ignoringCase_cases hp hc with rfl | ⟨hascii, -⟩ | ⟨rfl, -⟩ | ⟨-, hcode⟩ | ⟨rfl, -⟩
        · simp [patternLetter, hany] at hp
        · simp only [oddLetter, List.mem_cons, List.not_mem_nil, or_false,
            decide_eq_true_eq] at hany
          omega
        · rfl
        · simp [oddLetter, hcode] at hany
        · rfl
      · exact .inr (ih hps hany)
  have hletters := hfound (commandWord_letters hw) h hodd
  have hall : (commandWords.all fun w => ! w.toList.any (fun p => p = 's' || p = 'i') ||
      ["dismiss", "resume", "ack-delivery"].any fun v => v = w) = true := by decide +kernel
  have hself := List.all_eq_true.mp hall w hw
  rw [hletters, Bool.not_true, Bool.false_or, List.any_eq_true] at hself
  obtain ⟨v, hv, heq⟩ := hself
  rw [decide_eq_true_eq] at heq
  rwa [← heq]

end Words

section Commands

/-- A task id as the command pattern takes it, in any case. -/
def TaskIdText (taskId : List Char) : Prop :=
  ∃ start rest, taskId = start ++ rest ∧
    List.Forall₂ (fun p c => ignoringCase p c = true) "task_".toList start ∧
    rest ≠ [] ∧ ∀ c ∈ rest, idCharI c = true

/-- A text that is one command word and one task id. -/
structure IsCommand (value verb taskId : List Char) : Prop where
  word : CommandWord verb
  id : TaskIdText taskId
  whole : ∃ slash gap, (slash = [] ∨ slash = ['/']) ∧ gap ≠ [] ∧ (∀ c ∈ gap, pySpace c = true) ∧
    value = slash ++ (verb ++ (gap ++ taskId))

theorem idCommand_spec (h : idCommand value = some (verb, taskId)) :
    IsCommand value verb taskId := by
  have hmem := List.mem_of_head? h
  obtain ⟨q₁, hq₁, hmem⟩ := List.mem_flatMap.mp hmem
  obtain ⟨q₂, hq₂, hmem⟩ := List.mem_flatMap.mp hmem
  obtain ⟨q₃, hq₃, hmem⟩ := List.mem_flatMap.mp hmem
  obtain ⟨q₄, hq₄, hmem⟩ := List.mem_filterMap.mp hmem
  split_ifs at hmem with hend
  simp only [Option.some.injEq, Prod.mk.injEq] at hmem
  obtain ⟨hverb, hid⟩ := hmem
  obtain ⟨w, hw, word, hword, hall, -⟩ := mem_ends_wordsI.mp hq₂
  obtain ⟨gap, hgap, hne, hspace⟩ := ends_plus_char hq₃
  obtain ⟨q₅, hq₅, hq₄⟩ := mem_ends_seq.mp hq₄
  obtain ⟨q₆, hq₆, hq₄⟩ := mem_ends_seq.mp hq₄
  obtain ⟨rfl, -⟩ := mem_ends_look.mp hq₄
  obtain ⟨start, hstart, hletters, -⟩ := mem_ends_chars.mp hq₅
  obtain ⟨rest, hrest, hsome, hchars⟩ := ends_plus_char hq₆
  have hvalue : ∃ slash, (slash = [] ∨ slash = ['/']) ∧ value = slash ++ q₁.2 := by
    rcases mem_ends_alt.mp hq₁ with hq₁ | hq₁
    · obtain ⟨slash, hslash, hletter, -⟩ := mem_ends_chars.mp hq₁
      refine ⟨slash, .inr ?_, hslash⟩
      have hchar : "/".toList = ['/'] := by decide
      rw [hchar] at hletter
      have hone := List.forall₂_map_left_iff.mp hletter
      cases hone with
      | cons hc hnil =>
        cases hnil
        rw [decide_eq_true_eq] at hc
        rw [hc]
    · obtain ⟨rfl, -⟩ := mem_ends_look.mp hq₁
      exact ⟨[], .inl rfl, rfl⟩
  obtain ⟨slash, hslash, hvalue⟩ := hvalue
  have htask : q₃.2 = start ++ rest ++ q₄.2 := by rw [hstart, hrest, List.append_assoc]
  rw [taken_append hword] at hverb
  rw [taken_append htask] at hid
  subst hverb hid
  rw [hend, List.append_nil] at htask
  refine ⟨⟨w, hw, hall⟩, ⟨start, rest, rfl, List.forall₂_map_left_iff.mp hletters, hsome, hchars⟩,
    slash, gap, hslash, hne, hspace, ?_⟩
  rw [hvalue, hword, hgap, htask]

end Commands

section Tokens

/-- A rest of a text that does not go on with a word. -/
def WordEnds (rest : List Char) : Prop := ∀ c ∈ rest.head?, pySpace c = true

theorem wordsFrom_read {read next : List Char} {more : List (List Char)} (hread : read ≠ [])
    (h : wordsFrom read text = next :: more) :
    ∃ tail rest, next = read ++ tail ∧ text = tail ++ rest ∧ WordEnds rest := by
  induction text generalizing read with
  | nil =>
    rw [wordsFrom, if_neg hread] at h
    cases h
    exact ⟨[], [], (List.append_nil _).symm, rfl, fun c hc => by cases hc⟩
  | cons c cs ih =>
    rw [wordsFrom] at h
    split_ifs at h with hspace
    · cases h
      exact ⟨[], c :: cs, (List.append_nil _).symm, rfl, fun d hd => by
        rw [← Option.some.inj hd]
        exact hspace⟩
    · obtain ⟨tail, rest, hnext, htext, hends⟩ := ih (by simp) h
      exact ⟨c :: tail, rest, by rw [hnext, List.append_assoc]; rfl,
        by rw [htext, List.cons_append], hends⟩

/-- The first word of a text, in the text. -/
theorem wordsFrom_first {next : List Char} {more : List (List Char)}
    (h : wordsFrom [] text = next :: more) :
    ∃ blank rest, text = blank ++ (next ++ rest) ∧ (∀ c ∈ blank, pySpace c = true) ∧
      WordEnds rest := by
  induction text with
  | nil => cases h
  | cons c cs ih =>
    rw [wordsFrom] at h
    by_cases hspace : pySpace c = true
    · rw [if_pos hspace, if_pos rfl] at h
      obtain ⟨blank, rest, htext, hblank, hends⟩ := ih h
      exact ⟨c :: blank, rest, by rw [htext, List.cons_append],
        List.forall_mem_cons.mpr ⟨hspace, hblank⟩, hends⟩
    · rw [if_neg hspace, List.nil_append] at h
      obtain ⟨tail, rest, hnext, htext, hends⟩ := wordsFrom_read (List.cons_ne_nil _ _) h
      exact ⟨[], rest, by rw [hnext, htext]; rfl, fun c hc => (by cases hc), hends⟩

theorem wordsFrom_inner {read : List Char} (hread : ∀ c ∈ read, pySpace c = false) :
    ∀ word ∈ wordsFrom read text, ∀ c ∈ word, pySpace c = false := by
  induction text generalizing read with
  | nil =>
    rw [wordsFrom]
    split_ifs
    · exact fun word hword => absurd hword List.not_mem_nil
    · exact fun word hword => List.mem_singleton.mp hword ▸ hread
  | cons c cs ih =>
    have hnil : ∀ c ∈ ([] : List Char), pySpace c = false := fun c hc => absurd hc List.not_mem_nil
    rw [wordsFrom]
    split_ifs with hspace
    · exact ih hnil
    · exact List.forall_mem_cons.mpr ⟨hread, ih hnil⟩
    · refine ih fun d hd => ?_
      rcases List.mem_append.mp hd with hd | hd
      · exact hread d hd
      · rw [List.mem_singleton.mp hd]
        simpa using hspace

theorem takeWhile_word {word rest : List Char} (hword : ∀ c ∈ word, pySpace c = false)
    (hends : WordEnds rest) : (word ++ rest).takeWhile (fun c => ! pySpace c) = word := by
  induction word with
  | nil =>
    cases rest with
    | nil => rfl
    | cons c cs =>
      have hspace := hends c rfl
      simp [hspace]
  | cons c word ih =>
    obtain ⟨hc, hword⟩ := List.forall_mem_cons.mp hword
    simp [hc, ih hword]

/-- The first word of a command is its command word, with a slash or without. -/
theorem command_first (h : IsCommand (normalizedText text) verb taskId) :
    ∃ slash more, (slash = [] ∨ slash = ['/']) ∧ wordsFrom [] text = (slash ++ verb) :: more := by
  obtain ⟨slash, gap, hslash, hne, hspace, hwhole⟩ := h.whole
  have hinner := commandWord_inner h.word
  have hverb : ∀ c ∈ slash ++ verb, pySpace c = false := by
    intro c hc
    rcases List.mem_append.mp hc with hc | hc
    · rcases hslash with rfl | rfl
      · cases hc
      · rw [List.mem_singleton.mp hc]
        decide
    · exact (hinner c hc).2
  have hgap : WordEnds (gap ++ taskId) := by
    obtain ⟨c, cs, rfl⟩ := List.exists_cons_of_ne_nil hne
    intro d hd
    rw [← Option.some.inj hd]
    exact hspace c List.mem_cons_self
  have hfirst := takeWhile_word hverb hgap
  rw [List.append_assoc, ← hwhole] at hfirst
  unfold normalizedText at hfirst
  cases hwords : wordsFrom [] text with
  | nil =>
    obtain ⟨w, hw, hall⟩ := h.word
    rw [hwords] at hfirst
    have hnil : verb = [] := (List.append_eq_nil_iff.mp hfirst.symm).2
    subst hnil
    have hnonempty : (commandWords.all fun w => decide (w.toList ≠ [])) = true := by decide
    have hself := List.all_eq_true.mp hnonempty w hw
    rw [List.forall₂_nil_right_iff.mp hall] at hself
    cases hself
  | cons next more =>
    refine ⟨slash, more, hslash, ?_⟩
    have hnext : ∀ c ∈ next, pySpace c = false :=
      wordsFrom_inner (fun c hc => absurd hc List.not_mem_nil) next
        (by rw [hwords]; exact List.mem_cons_self)
    rw [hwords] at hfirst
    have hrest : ∃ rest, [' '].intercalate (next :: more) = next ++ rest ∧ WordEnds rest := by
      cases more with
      | nil => exact ⟨[], by simp [List.intercalate], fun c hc => by cases hc⟩
      | cons other more =>
        refine ⟨' ' :: [' '].intercalate (other :: more), ?_, fun c hc => ?_⟩
        · rw [List.intercalate_cons_cons]
          simp
        · rw [← Option.some.inj hc]
          decide
    obtain ⟨rest, hrest, hends⟩ := hrest
    rw [hrest, takeWhile_word hnext hends] at hfirst
    rw [hfirst]

end Tokens

/-- A command with a task whose word has an odd letter. -/
def OddCommand (text : List Char) : Prop :=
  ∃ verb taskId, idCommand (normalizedText text) = some (verb, taskId) ∧ verb.any oddLetter = true

section Remainders

theorem remainderEnd_word (U : Unicode) {c : Char} (h : remainderEnd c = true) :
    U.inWord c = false := by
  simp only [remainderEnd, List.any_cons, List.any_nil, Bool.or_false, Bool.or_eq_true,
    decide_eq_true_eq] at h
  rcases h with rfl | rfl | rfl | rfl | rfl | rfl | rfl | rfl
  · exact U.word_ascii ' ' (by decide)
  · exact U.word_ascii '.' (by decide)
  · exact U.word_ascii '!' (by decide)
  · exact U.word_mark '。' (by simp)
  · exact U.word_mark '！' (by simp)
  · exact U.word_ascii ';' (by decide)
  · exact U.word_ascii ',' (by decide)
  · exact U.word_mark '，' (by simp)

/-- The letters that the words with an odd spelling begin and end with. -/
def endLetters : List Char := ['d', 'r', 'a', 's', 'e', 'y']

theorem endLetter_word (U : Unicode) {p c : Char} (hp : p ∈ endLetters)
    (h : ignoringCase p c = true) : U.inWord c = true := by
  have hall : (endLetters.all fun p => patternLetter p && p.isAlphanum && decide (p.toNat < 128) &&
      decide (p ≠ 'k') && decide (p ≠ 'i')) = true := by decide
  have hself := List.all_eq_true.mp hall p hp
  simp only [Bool.and_eq_true, decide_eq_true_eq] at hself
  obtain ⟨⟨⟨⟨hpattern, halnum⟩, hascii⟩, hk⟩, hi⟩ := hself
  rcases ignoringCase_cases hpattern h with rfl | ⟨hcode, hlower⟩ | ⟨-, hcode⟩ | ⟨rfl, -⟩ | ⟨rfl, -⟩
  · rw [U.word_ascii c hascii, halnum, Bool.true_or]
  · have hletters : ∀ n < 128, (Char.ofNat n).toLower.isAlphanum = true →
        (Char.ofNat n).isAlphanum = true := by decide
    have hletter := hletters c.toNat hcode
    rw [Char.ofNat_toNat, hlower] at hletter
    rw [U.word_ascii c hcode, hletter halnum, Bool.true_or]
  · have hlong : c = 'ſ' := by rw [← Char.ofNat_toNat c, hcode]
    rw [hlong]
    exact U.word_letter
  · exact absurd rfl hk
  · exact absurd rfl hi

theorem forall₂_head {R : Char → Char → Prop} {ps cs : List Char} {p : Char}
    (h : List.Forall₂ R ps cs) (hp : ps.head? = some p) : ∃ c, cs.head? = some c ∧ R p c := by
  cases h with
  | nil => cases hp
  | cons hc _ =>
    cases hp
    exact ⟨_, rfl, hc⟩

/-- The ends of a word with an odd spelling are letters. -/
theorem oddWord_ends (U : Unicode) {w : String} (hw : w ∈ ["dismiss", "resume", "ack-delivery"])
    (h : List.Forall₂ (fun p c => ignoringCase p c = true) w.toList verb) :
    verb.head?.any U.inWord = true ∧ ∃ c, verb.getLast? = some c ∧ U.inWord c = true := by
  have hall : (["dismiss", "resume", "ack-delivery"].all fun w =>
      w.toList.head?.any (fun p => endLetters.any fun q => q = p) &&
        w.toList.getLast?.any fun p => endLetters.any fun q => q = p) = true := by decide +kernel
  have hself := List.all_eq_true.mp hall w hw
  rw [Bool.and_eq_true, Option.any_eq_true, Option.any_eq_true] at hself
  obtain ⟨⟨p, hp, hfirst⟩, p', hp', hlast⟩ := hself
  obtain ⟨q, hq, heq⟩ := List.any_eq_true.mp hfirst
  obtain ⟨q', hq', heq'⟩ := List.any_eq_true.mp hlast
  rw [decide_eq_true_eq] at heq heq'
  subst heq heq'
  obtain ⟨c, hc, hmatch⟩ := forall₂_head h hp
  rw [← List.head?_reverse] at hp'
  obtain ⟨c', hc', hmatch'⟩ := forall₂_head (List.forall₂_reverse_iff.mpr h) hp'
  rw [List.head?_reverse] at hc'
  refine ⟨?_, c', hc', endLetter_word U hq' hmatch'⟩
  rw [hc, Option.any_some]
  exact endLetter_word U hq hmatch

/-- A word with an odd spelling that stands alone is found among the effects. -/
theorem effectVerb_starts (U : Unicode) {before : Option Char} {rest : List Char} {w : String}
    (hw : w ∈ ["dismiss", "resume", "ack-delivery"])
    (h : List.Forall₂ (fun p c => ignoringCase p c = true) w.toList verb)
    (hbefore : before.any U.inWord = false) (hrest : rest.head?.any U.inWord = false) :
    (effectVerb U).starts (before, verb ++ rest) = true := by
  obtain ⟨hfirst, c, hc, hlast⟩ := oddWord_ends U hw h
  have hhead : (verb ++ rest).head?.any U.inWord = true := by
    cases verb with
    | nil => cases hfirst
    | cons d ds => exact hfirst
  refine starts_iff.mpr ⟨(verb.getLast?.or before, rest), ?_⟩
  unfold effectVerb
  rw [Regex.all, mem_ends_seq]
  refine ⟨(before, verb ++ rest), mem_ends_look.mpr ⟨rfl, ?_⟩, ?_⟩
  · simp only [hbefore, hhead]
    decide
  · rw [Regex.all, mem_ends_seq]
    refine ⟨(verb.getLast?.or before, rest),
      mem_ends_wordsI.mpr ⟨w, List.mem_cons_of_mem _ hw, verb, rfl, h, rfl⟩, ?_⟩
    rw [Regex.all, mem_ends_seq]
    refine ⟨_, mem_ends_look.mpr ⟨rfl, ?_⟩, mem_ends_look.mpr ⟨rfl, rfl⟩⟩
    simp only [hc, hrest, Option.some_or, Option.any_some, hlast]
    decide

/-- A text is not classified again when what is left of it is an odd command. -/
theorem again_plain {remainder : List Char} (h : classifyStep U text = .again remainder) :
    ¬ OddCommand remainder := by
  rintro ⟨verb, taskId, hcommand, hodd⟩
  obtain ⟨hremainder, -, hheld⟩ := clauseStep_again U (classifyStep_again U h)
  have hwhole := idCommand_spec hcommand
  obtain ⟨slash, more, hslash, hwords⟩ := command_first hwhole
  obtain ⟨blank, rest, htext, hblank, hends⟩ := wordsFrom_first hwords
  obtain ⟨w, hw, hall⟩ := hwhole.word
  obtain ⟨a, b, hwork, ha, hb⟩ := strip_split remainderEnd (workValue (normalizedText text))
  have hsplit : workValue (normalizedText text) = (a ++ blank ++ slash) ++ (verb ++ (rest ++ b)) := by
    rw [hwork, ← hremainder, htext]
    simp
  have hstart : ∀ c ∈ a ++ blank ++ slash, U.inWord c = false := by
    intro c hc
    rcases List.mem_append.mp hc with hc | hc
    · rcases List.mem_append.mp hc with hc | hc
      · exact remainderEnd_word U (ha c hc)
      · exact U.word_space c (hblank c hc)
    · rcases hslash with rfl | rfl
      · cases hc
      · rw [List.mem_singleton.mp hc]
        exact U.word_ascii '/' (by decide)
  have hbefore : ((a ++ blank ++ slash).getLast?.or none).any U.inWord = false := by
    rw [Option.or_none]
    cases hlast : (a ++ blank ++ slash).getLast? with
    | none => rfl
    | some c => exact hstart c (List.mem_of_getLast? hlast)
  have hafter : (rest ++ b).head?.any U.inWord = false := by
    cases rest with
    | nil =>
      cases b with
      | nil => rfl
      | cons c cs => exact remainderEnd_word U (hb c List.mem_cons_self)
    | cons c cs => exact U.word_space c (hends c rfl)
  have hfound := searchFrom_append (effectVerb_starts U (odd_words hodd hw hall) hall hbefore hafter)
  rw [← hsplit] at hfound
  simp only [heldRemainder, Bool.or_eq_false_iff] at hheld
  exact absurd hfound (Bool.eq_false_iff.mp hheld.1.1.2)

end Remainders

section Steps

/-- The kinds of a command with a task that has an effect. -/
def effectful (kind : IntentKind) : Bool :=
  kind = .taskCancel || kind = .taskDismiss || kind = .taskResume || kind = .deliveryAck

/-- A text that is a whole selection of what to cancel. -/
def WholeSelection (U : Unicode) (value : List Char) : Prop :=
  selectionPattern.fullmatch value = true ∨
    isOneOf cancelPhrases (simpleText U value) = true ∧ questionMark.search value = false

/-- An answer that no command with a task gives. -/
structure SafeKind (U : Unicode) (value : List Char) (kind : IntentKind) : Prop where
  effect : effectful kind = false
  selected : kind = .taskCancelSelection → WholeSelection U value

theorem safeKind_other {kind : IntentKind} (h : effectful kind = false)
    (hkind : kind ≠ .taskCancelSelection) : SafeKind U value kind :=
  ⟨h, fun heq => absurd heq hkind⟩

theorem plainStep_spec (U : Unicode) (value : List Char) :
    ∃ kind, plainStep U value = kindStep kind ∧ SafeKind U value kind := by
  unfold plainStep
  split_ifs with _ _ _ _ hselection
  · exact ⟨_, rfl, safeKind_other rfl (by decide)⟩
  · exact ⟨_, rfl, safeKind_other rfl (by decide)⟩
  · exact ⟨_, rfl, safeKind_other rfl (by decide)⟩
  · exact ⟨_, rfl, rfl, fun _ => .inl hselection⟩
  · exact ⟨_, rfl, safeKind_other rfl (by decide)⟩
  · exact ⟨_, rfl, safeKind_other rfl (by decide)⟩
  · exact ⟨_, rfl, safeKind_other rfl (by decide)⟩
  · exact ⟨_, rfl, safeKind_other rfl (by decide)⟩

theorem clauseStep_spec (U : Unicode) (value : List Char) :
    (∃ remainder, clauseStep U value = .again remainder) ∨
      ∃ kind, clauseStep U value = kindStep kind ∧ SafeKind U value kind := by
  unfold clauseStep
  simp only
  split_ifs
  · exact .inr ⟨_, rfl, safeKind_other rfl (by decide)⟩
  · exact .inr ⟨_, rfl, safeKind_other rfl (by decide)⟩
  · exact .inr ⟨_, rfl, safeKind_other rfl (by decide)⟩
  · exact .inr ⟨_, rfl, safeKind_other rfl (by decide)⟩
  · exact .inl ⟨_, rfl⟩
  · exact .inr (plainStep_spec U value)

theorem phraseStep_spec (U : Unicode) (value : List Char) :
    (∃ remainder, phraseStep U value = .again remainder) ∨
      ∃ kind, phraseStep U value = kindStep kind ∧ SafeKind U value kind := by
  unfold phraseStep
  simp only
  split_ifs with _ _ hcancel hmark
  · exact .inr ⟨_, rfl, safeKind_other rfl (by decide)⟩
  · exact .inr ⟨_, rfl, safeKind_other rfl (by decide)⟩
  · exact .inr ⟨_, rfl, safeKind_other rfl (by decide)⟩
  · exact .inr ⟨_, rfl, rfl, fun _ => .inr ⟨hcancel, by simpa using hmark⟩⟩
  · exact .inr ⟨_, rfl, safeKind_other rfl (by decide)⟩
  · exact .inr ⟨_, rfl, safeKind_other rfl (by decide)⟩
  · cases listQualifier value with
    | none => exact clauseStep_spec U value
    | some qualifier =>
      simp only
      split_ifs
      · exact .inr ⟨_, rfl, safeKind_other rfl (by decide)⟩
      · exact .inr ⟨_, rfl, safeKind_other rfl (by decide)⟩

/-- A command with a task, whose word is in the table or has an odd letter. -/
theorem classifyStep_command (U : Unicode) (h : idCommand (normalizedText text) = some (verb, taskId)) :
    classifyStep U text = commandStep U verb taskId := by
  have hvalue : normalizedText text ≠ [] := by
    intro hnil
    obtain ⟨slash, gap, -, hne, -, hwhole⟩ := (idCommand_spec h).whole
    rw [hnil] at hwhole
    exact hne (List.append_eq_nil_iff.mp (List.append_eq_nil_iff.mp
      (List.append_eq_nil_iff.mp hwhole.symm).2).2).1
  unfold classifyStep
  simp only [if_neg hvalue, h]

theorem classifyStep_other (h : idCommand (normalizedText text) = none) :
    (∃ remainder, classifyStep U text = .again remainder) ∨
      ∃ kind, classifyStep U text = kindStep kind ∧ SafeKind U (normalizedText text) kind := by
  unfold classifyStep
  simp only [h]
  split_ifs
  · exact .inr ⟨_, rfl, safeKind_other rfl (by decide)⟩
  · exact phraseStep_spec U (normalizedText text)

/-- The table misses a key exactly for the odd commands. -/
theorem keyError_iff : (∃ verb, classifyStep U text = .keyError verb) ↔ OddCommand text := by
  cases hcommand : idCommand (normalizedText text) with
  | none =>
    constructor
    · rintro ⟨verb, hstep⟩
      rcases classifyStep_other hcommand with ⟨remainder, hagain⟩ | ⟨kind, hkind, -⟩
      · rw [hstep] at hagain
        cases hagain
      · rw [hstep] at hkind
        cases hkind
    · rintro ⟨verb, taskId, hsome, -⟩
      rw [hcommand] at hsome
      cases hsome
  | some command =>
    obtain ⟨verb, taskId⟩ := command
    have hword := (idCommand_spec hcommand).word
    have htable := verbKind_iff U hword
    rw [classifyStep_command U hcommand, commandStep]
    cases hkind : verbKind (U.lower verb) with
    | some kind =>
      rw [hkind] at htable
      have hplain := htable.mp rfl
      constructor
      · rintro ⟨missing, hstep⟩
        cases hstep
      · rintro ⟨verb', taskId', hsome, hodd⟩
        rw [hcommand] at hsome
        cases hsome
        rw [hplain] at hodd
        cases hodd
    | none =>
      rw [hkind] at htable
      refine ⟨fun _ => ⟨verb, taskId, hcommand, ?_⟩, fun _ => ⟨_, rfl⟩⟩
      by_contra hodd
      have hsome := htable.mpr (by simpa using hodd)
      cases hsome

theorem classify_done {intent : ControlIntent} (h : classifyStep U text = .done intent) :
    classify U text = .ok intent := by
  rw [classify]
  split
  · rename_i hstep
    rw [h] at hstep
    cases hstep
    rfl
  · rename_i hstep
    rw [h] at hstep
    cases hstep
  · rename_i hstep
    rw [h] at hstep
    cases hstep

theorem classify_keyError {missing : List Char} (h : classifyStep U text = .keyError missing) :
    classify U text = .error missing := by
  rw [classify]
  split
  · rename_i hstep
    rw [h] at hstep
    cases hstep
  · rename_i hstep
    rw [h] at hstep
    cases hstep
    rfl
  · rename_i hstep
    rw [h] at hstep
    cases hstep

theorem classify_again {remainder : List Char} (h : classifyStep U text = .again remainder) :
    classify U text = (classify U remainder).map fun intent =>
      if effectless intent.kind = true then intent else { kind := .clarify } := by
  rw [classify]
  split
  · rename_i hstep
    rw [h] at hstep
    cases hstep
  · rename_i hstep
    rw [h] at hstep
    cases hstep
  · rename_i hstep
    rw [h] at hstep
    cases hstep
    rfl

end Steps

theorem verbKind_selection {kind : IntentKind} (h : verbKind verb = some kind) :
    kind ≠ .taskCancelSelection := by
  have hall : (verbKinds.all fun e => e.2 ≠ .taskCancelSelection) = true := by decide
  unfold verbKind at h
  obtain ⟨e, he, rfl⟩ := Option.map_eq_some_iff.mp h
  simpa using List.all_eq_true.mp hall e (List.mem_of_find?_eq_some he)

theorem effectless_safe {kind : IntentKind} (h : effectless kind = true) :
    effectful kind = false ∧ kind ≠ .taskCancelSelection := by
  cases kind <;> revert h <;> decide

theorem remainder_kind {answer : Except (List Char) ControlIntent} {intent : ControlIntent}
    (h : (answer.map fun intent => if effectless intent.kind = true then intent
      else { kind := .clarify }) = .ok intent) :
    effectful intent.kind = false ∧ intent.kind ≠ .taskCancelSelection := by
  cases answer with
  | error missing => cases h
  | ok answer =>
    obtain rfl := Except.ok.inj h
    simp only
    split_ifs with hkind
    · exact effectless_safe hkind
    · decide

/-- What is promised of an answer. -/
structure Conservative (U : Unicode) (text : List Char) (intent : ControlIntent) : Prop where
  command : effectful intent.kind = true →
    ∃ verb, IsCommand (normalizedText text) verb intent.taskId ∧ verbKind (U.lower verb) = some intent.kind
  selection : intent.kind = .taskCancelSelection → WholeSelection U (normalizedText text)
  clause : ∀ remainder, classifyStep U text = .again remainder →
    effectful intent.kind = false ∧ intent.kind ≠ .taskCancelSelection

theorem conservative_answer {intent : ControlIntent} (h : classify U text = .ok intent) :
    Conservative U text intent := by
  cases hstep : classifyStep U text with
  | keyError missing =>
    rw [classify_keyError hstep] at h
    cases h
  | again remainder =>
    rw [classify_again hstep] at h
    obtain ⟨heffect, hselection⟩ := remainder_kind h
    refine ⟨fun hcommand => ?_, fun hselected => absurd hselected hselection, fun _ _ => ?_⟩
    · rw [heffect] at hcommand
      cases hcommand
    · exact ⟨heffect, hselection⟩
  | done answer =>
    rw [classify_done hstep] at h
    obtain rfl := Except.ok.inj h
    have hclause : ∀ remainder, classifyStep U text ≠ .again remainder := by
      intro remainder hagain
      rw [hstep] at hagain
      cases hagain
    cases hcommand : idCommand (normalizedText text) with
    | none =>
      rcases classifyStep_other hcommand with ⟨remainder, hagain⟩ | ⟨kind, hkind, hsafe⟩
      · exact absurd hagain (hclause remainder)
      · rw [hkind] at hstep
        obtain rfl := Step.done.inj hstep
        refine ⟨fun heffect => ?_, hsafe.selected, fun remainder hagain =>
          absurd hagain (by rw [hkind]; exact kindStep_ne_again)⟩
        rw [hsafe.effect] at heffect
        cases heffect
    | some command =>
      obtain ⟨verb, taskId⟩ := command
      rw [classifyStep_command U hcommand, commandStep] at hstep
      cases hkind : verbKind (U.lower verb) with
      | none =>
        rw [hkind] at hstep
        cases hstep
      | some kind =>
        rw [hkind] at hstep
        obtain rfl := Step.done.inj hstep
        exact ⟨fun _ => ⟨verb, idCommand_spec hcommand, hkind⟩,
          fun hselected => absurd hselected (verbKind_selection hkind),
          fun remainder hagain => absurd hagain (hclause remainder)⟩

/-- No text but an odd command is without an answer. -/
theorem classify_error (text : List Char) :
    (∃ missing, classify U text = .error missing) → OddCommand text := by
  -- over the lengths, since what is left of a text is shorter
  induction hlength : text.length using Nat.strong_induction_on generalizing text with
  | _ n ih =>
    rintro ⟨missing, herror⟩
    cases hstep : classifyStep U text with
    | done answer =>
      rw [classify_done hstep] at herror
      cases herror
    | keyError verb => exact keyError_iff.mp ⟨verb, hstep⟩
    | again remainder =>
      rw [classify_again hstep] at herror
      cases hrest : classify U remainder with
      | ok answer =>
        rw [hrest] at herror
        cases herror
      | error missing' =>
        have hshorter := classifyStep_shorter U hstep
        rw [hlength] at hshorter
        exact absurd (ih _ hshorter remainder rfl ⟨missing', hrest⟩) (again_plain hstep)

/-- Every call of the classification is on a shorter text, and it has an answer, which is
conservative, exactly when the text is not a command with a task whose word has a letter that
only the pattern takes for an ASCII one. -/
theorem intent_classification (U : Unicode) (text : List Char) :
    (∀ remainder, classifyStep U text = .again remainder → remainder.length < text.length) ∧
    ((∃ intent, classify U text = .ok intent ∧ Conservative U text intent) ↔ ¬ OddCommand text) := by
  refine ⟨fun remainder h => classifyStep_shorter U h, ?_⟩
  constructor
  · rintro ⟨intent, hok, -⟩ hodd
    obtain ⟨missing, hstep⟩ := keyError_iff.mpr hodd
    rw [classify_keyError hstep] at hok
    cases hok
  · intro hodd
    cases hclassify : classify U text with
    | error missing => exact absurd (classify_error text ⟨missing, hclassify⟩) hodd
    | ok intent => exact ⟨intent, rfl, conservative_answer hclassify⟩

/-- Characters and `str.lower` on ASCII, the Hangul and the letters that a pattern takes for
ASCII ones. -/
def plainUnicode : Unicode where
  inWord c :=
    if c.toNat < 128 then c.isAlphanum || c = '_'
    else ! pySpace c && decide (c.toNat ∉ [0x3002, 0xff01, 0xff0c])
  lower cs := cs.flatMap lowerChar
  word_ascii c h := if_pos h
  word_space c h := by
    split_ifs with hascii
    · have hall : ∀ n < 128, pySpace (Char.ofNat n) = true →
          ((Char.ofNat n).isAlphanum || decide (Char.ofNat n = '_')) = false := by decide
      have hself := hall c.toNat hascii
      rw [Char.ofNat_toNat] at hself
      exact hself h
    · simp [h]
  word_mark c h := by
    simp only [List.mem_cons, List.not_mem_nil, or_false] at h
    rcases h with rfl | rfl | rfl <;> decide
  word_letter := by decide
  lower_verb _ _ := rfl

/-- A command with the long letter is an exception. -/
theorem long_dismiss : ¬ ∀ text, ∃ intent, classify plainUnicode text = .ok intent := by
  intro hall
  obtain ⟨intent, hok⟩ := hall "diſmiss task_1".toList
  have hstep : classifyStep plainUnicode "diſmiss task_1".toList = .keyError "diſmiss".toList := by
    decide +kernel
  rw [classify_keyError hstep] at hok
  cases hok

end NyanyaAgent.Safety
