import NyanyaAgent.EnvFile.Readers

/-!
# The readers of one environment file

Every reader sees the same assignments in a file of plain white space; they differ in which
assignment of a key they take and in how they unquote it.
-/
namespace NyanyaAgent.Safety
open NyanyaAgent.Text NyanyaAgent.EnvFile

/-- White space or a line end of one of the readers that is not a space, a tab or a newline,
or the null character. -/
def ForeignSpace (c : Char) : Prop :=
  c = Char.ofNat 0 ∨
    (jsSpace c = true ∨ pySpace c = true ∨ pyBreak c = true) ∧ c ≠ ' ' ∧ c ≠ '\t' ∧ c ≠ '\n'

instance (c : Char) : Decidable (ForeignSpace c) := by unfold ForeignSpace; infer_instance

/-- A text whose lines end with a newline, or with a carriage return before it. -/
def Plain : List Char → Prop
  | [] => True
  | [c] => ¬ ForeignSpace c
  | c :: d :: cs => if c = '\r' ∧ d = '\n' then Plain cs else ¬ ForeignSpace c ∧ Plain (d :: cs)

instance decidablePlain : (cs : List Char) → Decidable (Plain cs)
  | [] => isTrue trivial
  | [c] => inferInstanceAs (Decidable (¬ ForeignSpace c))
  | c :: d :: cs =>
    have := decidablePlain cs
    have := decidablePlain (d :: cs)
    inferInstanceAs (Decidable
      (if c = '\r' ∧ d = '\n' then Plain cs else ¬ ForeignSpace c ∧ Plain (d :: cs)))

/-- A character inside a line. -/
def Inline (c : Char) : Prop := ¬ ForeignSpace c ∧ c ≠ '\n'

theorem pyBreak_of_plain {c : Char} (h : ¬ ForeignSpace c) : pyBreak c = true ↔ c = '\n' := by
  constructor
  · intro hbreak
    by_contra hnewline
    apply h
    refine .inr ⟨.inr (.inr hbreak), ?_, ?_, hnewline⟩
    · rintro rfl
      revert hbreak
      decide
    · rintro rfl
      revert hbreak
      decide
  · rintro rfl
    decide

theorem space_of_inline {c : Char} (h : Inline c) :
    (jsSpace c = true ↔ c = ' ' ∨ c = '\t') ∧ (pySpace c = true ↔ c = ' ' ∨ c = '\t') := by
  have hplain : jsSpace c = true ∨ pySpace c = true → c = ' ' ∨ c = '\t' := by
    intro hspace
    by_contra hne
    rw [not_or] at hne
    exact h.1 (.inr ⟨by tauto, hne.1, hne.2, h.2⟩)
  constructor
  · constructor
    · exact fun hs => hplain (.inl hs)
    · rintro (rfl | rfl) <;> decide
  · constructor
    · exact fun hs => hplain (.inr hs)
    · rintro (rfl | rfl) <;> decide

theorem jsSpace_eq_pySpace {c : Char} (h : Inline c) : jsSpace c = pySpace c := by
  obtain ⟨hjs, hpy⟩ := space_of_inline h
  rw [Bool.eq_iff_iff, hjs, hpy]

/-- Both languages find the same lines, up to an empty one at the end. -/
theorem lines_filterMap {β : Type} {f : List Char → Option β} (hf : f [] = none)
    (line cs : List Char) (h : Plain cs) :
    (tsLinesFrom line cs).filterMap f = (pyLinesFrom line cs).filterMap f := by
  induction line, cs using tsLinesFrom.induct with
  | case1 line =>
    by_cases hline : line = []
    · subst hline
      simp [tsLinesFrom, pyLinesFrom, hf]
    · simp [tsLinesFrom, pyLinesFrom, hline]
  | case2 line =>
    have hbreak : pyBreak '\n' = true := by decide
    simp [tsLinesFrom, pyLinesFrom, hbreak, hf, List.filterMap_cons]
  | case3 line c hc =>
    have hbreak : ¬ pyBreak c = true := fun hb => hc ((pyBreak_of_plain h).mp hb)
    simp [tsLinesFrom, pyLinesFrom, hbreak, hc]
  | case4 line c d cs hcrlf ih =>
    rw [Plain, if_pos hcrlf] at h
    rw [tsLinesFrom, if_pos hcrlf, pyLinesFrom, if_pos hcrlf, List.filterMap_cons,
      List.filterMap_cons, ih h]
  | case5 line d cs hcrlf ih =>
    rw [Plain, if_neg hcrlf] at h
    have hbreak : pyBreak '\n' = true := by decide
    rw [tsLinesFrom, if_neg hcrlf, if_pos rfl, pyLinesFrom, if_neg hcrlf, if_pos hbreak,
      List.filterMap_cons, List.filterMap_cons, ih h.2]
  | case6 line c d cs hcrlf hc ih =>
    rw [Plain, if_neg hcrlf] at h
    have hbreak : ¬ pyBreak c = true := fun hb => hc ((pyBreak_of_plain h.1).mp hb)
    rw [tsLinesFrom, if_neg hcrlf, if_neg hc, pyLinesFrom, if_neg hcrlf, if_neg hbreak]
    exact ih h.2

theorem inline_lines (line cs : List Char) (h : Plain cs) (hline : ∀ c ∈ line, Inline c) :
    ∀ l ∈ tsLinesFrom line cs, ∀ c ∈ l, Inline c := by
  have happend : ∀ {line : List Char} {c : Char}, (∀ d ∈ line, Inline d) → Inline c →
      ∀ d ∈ line ++ [c], Inline d := by
    intro line c hline hc d hd
    rcases List.mem_append.mp hd with hd | hd
    · exact hline d hd
    · rwa [List.mem_singleton.mp hd]
  have hnil : ∀ c ∈ ([] : List Char), Inline c := fun c hc => absurd hc List.not_mem_nil
  induction line, cs using tsLinesFrom.induct with
  | case1 line =>
    intro l hl
    rw [tsLinesFrom, List.mem_singleton] at hl
    rwa [hl]
  | case2 line =>
    intro l hl
    rw [tsLinesFrom, if_pos rfl] at hl
    rcases List.mem_cons.mp hl with rfl | hl
    · exact hline
    · rw [List.mem_singleton.mp hl]
      exact hnil
  | case3 line c hc =>
    intro l hl
    rw [tsLinesFrom, if_neg hc, List.mem_singleton] at hl
    rw [hl]
    exact happend hline ⟨h, hc⟩
  | case4 line c d cs hcrlf ih =>
    rw [Plain, if_pos hcrlf] at h
    intro l hl
    rw [tsLinesFrom, if_pos hcrlf] at hl
    rcases List.mem_cons.mp hl with rfl | hl
    · exact hline
    · exact ih h hnil l hl
  | case5 line d cs hcrlf ih =>
    rw [Plain, if_neg hcrlf] at h
    intro l hl
    rw [tsLinesFrom, if_neg hcrlf, if_pos rfl] at hl
    rcases List.mem_cons.mp hl with rfl | hl
    · exact hline
    · exact ih h.2 hnil l hl
  | case6 line c d cs hcrlf hc ih =>
    rw [Plain, if_neg hcrlf] at h
    rw [tsLinesFrom, if_neg hcrlf, if_neg hc]
    exact ih h.2 (happend hline ⟨h.1, hc⟩)

/-- The assignment of a line the command line accepts. -/
def tsEntry (raw : List Char) : Option (List Char × List Char) :=
  match tsLine raw with
  | .entry key value => some (key, value)
  | _ => none

/-- A line without an error. -/
def Accepted (raw : List Char) : Prop := tsLine raw ≠ .malformed ∧ ∀ key, tsLine raw ≠ .badKey key

/-- The assignments of a text. -/
def assignments (text : List Char) : List (List Char × List Char) :=
  (tsLines text).filterMap tsEntry

/-- The values assigned to a key, in the order of the file. -/
def assigned (text key : List Char) : List (List Char) :=
  ((assignments text).filter fun e => e.1 = key).map (·.2)

theorem parseLines_errors (index : ℕ) (seen : List (List Char)) (v : EnvValidation)
    (lines : List (List Char)) (h : (parseLines index seen v lines).errors = []) :
    v.errors = [] ∧ ∀ raw ∈ lines, Accepted raw := by
  induction lines generalizing index seen v with
  | nil => exact ⟨h, fun raw hraw => absurd hraw List.not_mem_nil⟩
  | cons raw lines ih =>
    rw [parseLines] at h
    split at h
    · rename_i hline
      obtain ⟨herrors, hall⟩ := ih _ _ _ h
      refine ⟨herrors, List.forall_mem_cons.mpr ⟨?_, hall⟩⟩
      simp [Accepted, hline]
    · have herrors := (ih _ _ _ h).1
      simp at herrors
    · have herrors := (ih _ _ _ h).1
      simp at herrors
    · rename_i hline
      obtain ⟨herrors, hall⟩ := ih _ _ _ h
      refine ⟨herrors, List.forall_mem_cons.mpr ⟨?_, hall⟩⟩
      simp [Accepted, hline]

/-- The last assignment of a key decides. -/
theorem parseLines_values {key : List Char} (hkey : key ≠ "__proto__".toList) (index : ℕ)
    (seen : List (List Char)) (v : EnvValidation) (lines : List (List Char)) :
    (parseLines index seen v lines).values key =
      ((((lines.filterMap tsEntry).filter fun e => e.1 = key).map (·.2)).getLast?.map unquote).or
        (v.values key) := by
  induction lines generalizing index seen v with
  | nil => rfl
  | cons raw lines ih =>
    rw [parseLines]
    split
    · rename_i hline
      rw [ih, List.filterMap_cons_none (by rw [tsEntry, hline])]
    · rename_i hline
      rw [ih, List.filterMap_cons_none (by rw [tsEntry, hline])]
    · rename_i hline
      rw [ih, List.filterMap_cons_none (by rw [tsEntry, hline])]
    · rename_i k value hline
      have hentry : tsEntry raw = some (k, value) := by rw [tsEntry, hline]
      rw [ih, List.filterMap_cons_some hentry]
      by_cases hk : k = key
      · subst hk
        rw [List.filter_cons_of_pos (by simp)]
        simp only [recordSet, if_neg hkey, Function.update_self, List.map_cons,
          List.getLast?_cons]
        cases ((List.filter (fun e => decide (e.1 = k)) (lines.filterMap tsEntry)).map
          (·.2)).getLast? <;> rfl
      · have hset : recordSet v.values k (unquote value) key = v.values key := by
          unfold recordSet
          split_ifs
          · rfl
          · exact Function.update_of_ne (Ne.symm hk) _ _
        rw [List.filter_cons_of_neg (by simpa using hk)]
        simp only [hset]

theorem parseEnvText_accepted {text : List Char} (h : (parseEnvText text).errors = []) :
    ∀ raw ∈ tsLines text, Accepted raw :=
  (parseLines_errors 0 [] _ _ h).2

theorem parseEnvText_value {key : List Char} (hkey : key ≠ "__proto__".toList)
    (text : List Char) :
    (parseEnvText text).values key = (assigned text key).getLast?.map unquote := by
  rw [parseEnvText, parseLines_values hkey, Option.or_none]
  rfl

/-- A line of plain white space that is accepted reads the same in both languages. -/
theorem pyEntry_of_accepted {raw : List Char} (hraw : ∀ c ∈ raw, Inline c) (h : Accepted raw) :
    pyEntry raw = tsEntry raw := by
  have hstrip : ∀ {cs : List Char}, (∀ c ∈ cs, c ∈ raw) → strip pySpace cs = strip jsSpace cs :=
    fun hcs => strip_congr fun c hc => (jsSpace_eq_pySpace (hraw c (hcs c hc))).symm
  obtain ⟨hmalformed, hbad⟩ := h
  unfold tsLine at hmalformed hbad
  unfold pyEntry tsEntry tsLine
  rw [hstrip fun c hc => hc]
  simp only at hmalformed hbad ⊢
  split_ifs at hmalformed hbad ⊢ with hskip
  · rfl
  · cases hsplit : splitFirst '=' (strip jsSpace raw) with
    | none =>
      rw [hsplit] at hmalformed
      exact absurd rfl hmalformed
    | some s =>
      obtain ⟨rawKey, rest⟩ := s
      rw [hsplit] at hbad
      have hline := (splitFirst_eq_some.mp hsplit).1
      have hkey : strip pySpace rawKey = strip jsSpace rawKey := hstrip fun c hc =>
        strip_subset (by rw [hline]; exact List.mem_append_left _ hc)
      have hvalue : strip pySpace rest = strip jsSpace rest := hstrip fun c hc =>
        strip_subset (by rw [hline]; exact List.mem_append_right _ (List.mem_cons_of_mem _ hc))
      simp only at hbad
      split_ifs at hbad with hvalid
      · simp [hvalid, hkey, hvalue]
      · exact absurd rfl (hbad _)

/-- Python reads the same assignments from a text of plain white space. -/
theorem pyEntries_eq {text : List Char} (hplain : Plain text)
    (hall : ∀ raw ∈ tsLines text, Accepted raw) :
    (pyLines text).filterMap pyEntry = assignments text := by
  have hnil : pyEntry [] = none := rfl
  rw [pyLines, ← lines_filterMap hnil [] text hplain, assignments]
  apply List.filterMap_congr
  intro raw hraw
  exact pyEntry_of_accepted
    (inline_lines [] text hplain (fun c hc => absurd hc List.not_mem_nil) raw hraw) (hall raw hraw)

/-- The first assignment of a key decides, unless the environment has one. -/
theorem loadEntries_value {environ environ' : Settings} {entries : List (List Char × List Char)}
    (key : List Char) (h : loadEntries environ entries = .ok environ') :
    environ' key = (environ key).or
      ((((entries.filter fun e => e.1 = key).map (·.2)).head?).map stripQuotes) := by
  induction entries generalizing environ with
  | nil =>
    cases h
    simp
  | cons e entries ih =>
    rw [loadEntries] at h
    unfold setDefault at h
    by_cases hk : e.1 = key
    · rw [List.filter_cons_of_pos (by simpa using hk)]
      split_ifs at h with hset
      · rw [ih h]
        subst hk
        obtain ⟨value, hvalue⟩ := Option.ne_none_iff_exists'.mp hset
        simp [hvalue]
      · cases h
      · cases h
      · rw [ih h]
        subst hk
        rw [not_not] at hset
        simp [hset]
    · rw [List.filter_cons_of_neg (by simpa using hk)]
      split_ifs at h with hset
      · exact ih h
      · cases h
      · cases h
      · rw [ih h, Function.update_of_ne (Ne.symm hk)]

theorem tokenEntries_value {values : Settings} {entries : List (List Char × List Char)}
    {key : List Char} (hkey : key ∈ tokenKeys) :
    tokenEntries values entries key = (values key).or
      ((((entries.filter fun e => e.1 = key).map (·.2)).head?).map stripQuotes) := by
  induction entries generalizing values with
  | nil => simp [tokenEntries]
  | cons e entries ih =>
    rw [tokenEntries, List.foldl_cons, ← tokenEntries, ih]
    by_cases hk : e.1 = key
    · subst hk
      rw [List.filter_cons_of_pos (by simp)]
      split_ifs with hset
      · simp [hset.2]
      · have hvalues : values e.1 ≠ none := fun hn => hset ⟨hkey, hn⟩
        obtain ⟨value, hvalue⟩ := Option.ne_none_iff_exists'.mp hvalues
        simp [hvalue]
    · rw [List.filter_cons_of_neg (by simpa using hk)]
      split_ifs
      · rw [Function.update_of_ne (Ne.symm hk)]
      · rfl

/-- No quote at the ends, or one pair around a text that keeps its ends when they are stripped. -/
def EvenlyQuoted (value : List Char) : Prop :=
  ((∀ c ∈ value.head?, isQuote c = false) ∧ ∀ c ∈ value.getLast?, isQuote c = false) ∨
  (∃ inner, value = doubleQuote :: (inner ++ [doubleQuote]) ∧
    (∀ c ∈ inner.head?, isQuote c = false) ∧ ∀ c ∈ inner.getLast?, isQuote c = false) ∨
  ∃ inner, value = singleQuote :: (inner ++ [singleQuote]) ∧
    (∀ c ∈ inner.head?, isSingle c = false) ∧ ∀ c ∈ inner.getLast?, isSingle c = false

theorem isQuote_eq_false {c : Char} : isQuote c = false ↔ isDouble c = false ∧ isSingle c = false := by
  simp [isQuote]

theorem stripQuotes_eq_self {value : List Char} :
    stripQuotes value = value ↔
      (∀ c ∈ value.head?, isQuote c = false) ∧ ∀ c ∈ value.getLast?, isQuote c = false := by
  rw [stripQuotes, strip_strip_eq_self, strip_eq_self, strip_eq_self]
  simp only [isQuote_eq_false]
  constructor
  · rintro ⟨⟨h₁, h₂⟩, h₃, h₄⟩
    exact ⟨fun c hc => ⟨h₁ c hc, h₃ c hc⟩, fun c hc => ⟨h₂ c hc, h₄ c hc⟩⟩
  · rintro ⟨h₁, h₂⟩
    exact ⟨⟨fun c hc => (h₁ c hc).1, fun c hc => (h₂ c hc).1⟩, fun c hc => (h₁ c hc).2,
      fun c hc => (h₂ c hc).2⟩

/-- A text with one pair of quotes around it. -/
def Wrapped (mark : Char) (value : List Char) : Prop := ∃ inner, value = mark :: (inner ++ [mark])

theorem unquote_wrapped {mark : Char} (hmark : mark = doubleQuote ∨ mark = singleQuote)
    (inner : List Char) : unquote (mark :: (inner ++ [mark])) = inner := by
  have hlast : (mark :: (inner ++ [mark])).getLast? = some mark := by
    rw [← List.cons_append, List.getLast?_append]
    rfl
  rw [unquote, if_pos]
  · simp
  · refine ⟨by simp, ?_, ?_⟩
    · rw [hlast]
      rfl
    · rcases hmark with rfl | rfl
      · exact .inl rfl
      · exact .inr rfl

theorem unquote_unwrapped {value : List Char} (hd : ¬ Wrapped doubleQuote value)
    (hs : ¬ Wrapped singleQuote value) : unquote value = value := by
  rw [unquote, if_neg]
  rintro ⟨hlength, hends, hmark⟩
  cases value with
  | nil => simp at hlength
  | cons c cs =>
    have hne : cs ≠ [] := by
      rintro rfl
      simp at hlength
    have hlast : cs.getLast hne = c := by
      rw [List.head?_cons, List.getLast?_eq_some_getLast (List.cons_ne_nil c cs),
        List.getLast_cons hne] at hends
      exact (Option.some.inj hends).symm
    have hwrapped : Wrapped c (c :: cs) := by
      refine ⟨cs.dropLast, ?_⟩
      have hcs := List.dropLast_append_getLast hne
      rw [hlast] at hcs
      rw [hcs]
    rcases hmark with hmark | hmark
    · rw [Option.some.inj hmark] at hwrapped hd
      exact hd hwrapped
    · rw [Option.some.inj hmark] at hwrapped hs
      exact hs hwrapped

theorem wrapped_ends {mark : Char} {value : List Char} (h : Wrapped mark value) :
    value.head? = some mark ∧ value.getLast? = some mark := by
  obtain ⟨inner, rfl⟩ := h
  refine ⟨rfl, ?_⟩
  rw [← List.cons_append, List.getLast?_append]
  rfl

/-- The two ways to unquote agree exactly on the evenly quoted values. -/
theorem unquote_eq_stripQuotes (value : List Char) :
    unquote value = stripQuotes value ↔ EvenlyQuoted value := by
  have hdouble : isQuote doubleQuote = true := by decide
  have hsingle : isQuote singleQuote = true := by decide
  by_cases hd : Wrapped doubleQuote value
  · obtain ⟨inner, rfl⟩ := hd
    have hstrip : stripQuotes (doubleQuote :: (inner ++ [doubleQuote])) = stripQuotes inner := by
      rw [stripQuotes, strip_wrapped (by decide) (by decide), ← stripQuotes]
    rw [unquote_wrapped (.inl rfl), hstrip, eq_comm, stripQuotes_eq_self]
    constructor
    · exact fun h => .inr (.inl ⟨inner, rfl, h⟩)
    · rintro (⟨hhead, -⟩ | ⟨inner', heq, h⟩ | ⟨inner', heq, -⟩)
      · rw [hhead doubleQuote rfl] at hdouble
        cases hdouble
      · rw [List.cons.injEq, List.append_left_inj] at heq
        rw [heq.2]
        exact h
      · exact absurd (List.cons.inj heq).1 (by decide)
  · by_cases hs : Wrapped singleQuote value
    · obtain ⟨inner, rfl⟩ := hs
      obtain ⟨-, hlast⟩ := wrapped_ends ⟨inner, rfl⟩
      have hstay : strip isDouble (singleQuote :: (inner ++ [singleQuote])) =
          singleQuote :: (inner ++ [singleQuote]) := by
        rw [strip_eq_self]
        refine ⟨?_, ?_⟩
        · rintro c hc
          rw [List.head?_cons, Option.mem_some_iff] at hc
          rw [← hc]
          decide
        · rintro c hc
          rw [hlast, Option.mem_some_iff] at hc
          rw [← hc]
          decide
      have hstrip : stripQuotes (singleQuote :: (inner ++ [singleQuote])) = strip isSingle inner := by
        rw [stripQuotes, hstay, strip_wrapped (by decide) (by decide)]
      rw [unquote_wrapped (.inr rfl), hstrip, eq_comm, strip_eq_self]
      constructor
      · exact fun h => .inr (.inr ⟨inner, rfl, h⟩)
      · rintro (⟨hhead, -⟩ | ⟨inner', heq, -⟩ | ⟨inner', heq, h⟩)
        · rw [hhead singleQuote rfl] at hsingle
          cases hsingle
        · exact absurd (List.cons.inj heq).1 (by decide)
        · rw [List.cons.injEq, List.append_left_inj] at heq
          rw [heq.2]
          exact h
    · rw [unquote_unwrapped hd hs, eq_comm, stripQuotes_eq_self]
      constructor
      · exact .inl
      · rintro (h | ⟨inner, heq, -⟩ | ⟨inner, heq, -⟩)
        · exact h
        · exact absurd ⟨inner, heq⟩ hd
        · exact absurd ⟨inner, heq⟩ hs

theorem setDefault_ok (environ : Settings) {key value : List Char} (hkey : key ≠ [])
    (hnull : Char.ofNat 0 ∉ key ∧ Char.ofNat 0 ∉ value) :
    ∃ environ', setDefault environ key value = .ok environ' := by
  unfold setDefault
  split_ifs with hset hbad
  · exact ⟨_, rfl⟩
  · exact absurd hbad (by simp [hnull])
  · exact ⟨_, rfl⟩

theorem loadEntries_ok {entries : List (List Char × List Char)} (environ : Settings)
    (h : ∀ e ∈ entries, e.1 ≠ [] ∧ Char.ofNat 0 ∉ e.1 ∧ Char.ofNat 0 ∉ e.2) :
    ∃ environ', loadEntries environ entries = .ok environ' := by
  induction entries generalizing environ with
  | nil => exact ⟨environ, rfl⟩
  | cons e entries ih =>
    obtain ⟨hkey, hname, hvalue⟩ := h e List.mem_cons_self
    have hstripped : Char.ofNat 0 ∉ stripQuotes e.2 :=
      fun hc => hvalue (strip_subset (strip_subset hc))
    obtain ⟨next, hnext⟩ := setDefault_ok environ hkey ⟨hname, hstripped⟩
    obtain ⟨environ', hrest⟩ := ih next fun d hd => h d (List.mem_cons_of_mem _ hd)
    refine ⟨environ', ?_⟩
    rw [loadEntries, hnext]
    exact hrest

/-- An accepted assignment has a valid key and only characters of its line. -/
theorem tsEntry_spec {raw key value : List Char} (h : tsEntry raw = some (key, value)) :
    ValidKey key ∧ (∀ c ∈ key, c ∈ raw) ∧ ∀ c ∈ value, c ∈ raw := by
  unfold tsEntry tsLine at h
  simp only at h
  split_ifs at h with hskip
  cases hsplit : splitFirst '=' (strip jsSpace raw) with
  | none =>
    rw [hsplit] at h
    cases h
  | some s =>
    obtain ⟨rawKey, rest⟩ := s
    have hline := (splitFirst_eq_some.mp hsplit).1
    rw [hsplit] at h
    simp only at h
    split_ifs at h with hvalid
    simp only [Option.some.injEq, Prod.mk.injEq] at h
    obtain ⟨rfl, rfl⟩ := h
    refine ⟨hvalid, fun c hc => ?_, fun c hc => ?_⟩
    · apply strip_subset (p := jsSpace)
      rw [hline]
      exact List.mem_append_left _ (strip_subset hc)
    · apply strip_subset (p := jsSpace)
      rw [hline]
      exact List.mem_append_right _ (List.mem_cons_of_mem _ (strip_subset hc))

/-- `load_env` does not raise on a text of plain white space that is accepted. -/
theorem loadEnv_ok {text : List Char} (hplain : Plain text)
    (hall : ∀ raw ∈ tsLines text, Accepted raw) (environ : Settings) :
    ∃ environ', loadEnv environ text = .ok environ' := by
  rw [loadEnv, pyEntries_eq hplain hall]
  apply loadEntries_ok
  rintro ⟨key, value⟩ he
  obtain ⟨raw, hraw, hentry⟩ := List.mem_filterMap.mp he
  obtain ⟨hvalid, hkey, hvalue⟩ := tsEntry_spec hentry
  have hinline := inline_lines [] text hplain (fun c hc => absurd hc List.not_mem_nil) raw hraw
  have hnull : Char.ofNat 0 ∉ raw := fun hc => (hinline _ hc).1 (.inl rfl)
  refine ⟨?_, fun hc => hnull (hkey _ hc), fun hc => hnull (hvalue _ hc)⟩
  rintro rfl
  exact hvalid

section Database

/-- A value that the shell's rules and the command line read alike. -/
def DatabaseWord (value : List Char) : Prop :=
  (value ≠ [] ∧ ∀ c ∈ value, shlexSpace c = false ∧ c ≠ '#' ∧ isQuote c = false ∧ c ≠ backslash) ∨
  (∃ inner, value = singleQuote :: (inner ++ [singleQuote]) ∧ singleQuote ∉ inner) ∨
  ∃ inner, value = doubleQuote :: (inner ++ [doubleQuote]) ∧ doubleQuote ∉ inner ∧
    backslash ∉ inner

theorem shlex_blank {b : List Char} (hb : ∀ c ∈ b, shlexSpace c = true) :
    shlexFrom .blank [] false b = .ok [] := by
  have hleading := shlex_leading hb []
  rw [List.append_nil] at hleading
  rw [hleading]
  rfl

/-- A word followed by blanks is one token. -/
theorem shlex_trailing {b : List Char} (hb : ∀ c ∈ b, shlexSpace c = true) (token : List Char)
    (seenQuote : Bool) : shlexFrom .word token seenQuote b = .ok (emit token seenQuote []) := by
  cases b with
  | nil => rfl
  | cons c b =>
    have hblank := shlex_blank fun d hd => hb d (List.mem_cons_of_mem c hd)
    rw [shlexFrom, if_pos (hb c List.mem_cons_self), hblank]
    rfl

theorem shlex_word {w : List Char} (token : List Char) (seenQuote : Bool) (b : List Char)
    (hw : ∀ c ∈ w, shlexSpace c = false ∧ c ≠ '#' ∧ isQuote c = false ∧ c ≠ backslash) :
    shlexFrom .word token seenQuote (w ++ b) = shlexFrom .word (token ++ w) seenQuote b := by
  induction w generalizing token with
  | nil => rw [List.append_nil, List.nil_append]
  | cons c w ih =>
    obtain ⟨hspace, hhash, hquote, hslash⟩ := hw c List.mem_cons_self
    have hrest := ih (token ++ [c]) fun d hd => hw d (List.mem_cons_of_mem _ hd)
    rw [List.cons_append, shlexFrom, if_neg (by simp [hspace]), if_neg hhash,
      if_neg (by simp [hquote]), if_neg hslash, hrest, List.append_assoc, List.singleton_append]

theorem shlex_quoted {mark : Char} {inner : List Char} (token : List Char) (seenQuote : Bool)
    (b : List Char) (hmark : mark ∉ inner) (hslash : mark = doubleQuote → backslash ∉ inner) :
    shlexFrom (.quoted mark) token seenQuote (inner ++ mark :: b) =
      shlexFrom .word (token ++ inner) seenQuote b := by
  induction inner generalizing token with
  | nil => rw [List.nil_append, shlexFrom, if_pos rfl, List.append_nil]
  | cons c inner ih =>
    rw [List.mem_cons, not_or] at hmark
    have hescape : ¬ (c = backslash ∧ mark = doubleQuote) := by
      rintro ⟨rfl, hm⟩
      exact hslash hm List.mem_cons_self
    have hrest := ih (token ++ [c]) hmark.2 fun hm hb => hslash hm (List.mem_cons_of_mem _ hb)
    rw [List.cons_append, shlexFrom, if_neg (Ne.symm hmark.1), if_neg hescape, hrest,
      List.append_assoc, List.singleton_append]

theorem shlex_enter {mark : Char} (hmark : mark = doubleQuote ∨ mark = singleQuote)
    (cs : List Char) :
    shlexFrom .blank [] false (mark :: cs) = shlexFrom (.quoted mark) [] true cs := by
  rw [shlexFrom]
  rcases hmark with rfl | rfl
  · rw [if_neg (by decide), if_neg (by decide), if_neg (by decide), if_pos (by decide)]
  · rw [if_neg (by decide), if_neg (by decide), if_neg (by decide), if_pos (by decide)]

/-- Such a value between blanks is one token, the one the command line reads. -/
theorem shlexSplit_word {a value b : List Char} (ha : ∀ c ∈ a, shlexSpace c = true)
    (hb : ∀ c ∈ b, shlexSpace c = true) (h : DatabaseWord value) :
    shlexSplit (a ++ (value ++ b)) = .ok [unquote value] := by
  rw [shlexSplit, shlex_leading ha]
  rcases h with ⟨hne, hplain⟩ | ⟨inner, rfl, hmark⟩ | ⟨inner, rfl, hmark, hslash⟩
  · have hunwrapped : ∀ {mark : Char}, isQuote mark = true → ¬ Wrapped mark value := by
      rintro mark hq ⟨inner, rfl⟩
      have hhead := (hplain mark List.mem_cons_self).2.2.1
      rw [hq] at hhead
      cases hhead
    rw [unquote_unwrapped (hunwrapped (by decide)) (hunwrapped (by decide))]
    obtain ⟨c, w, rfl⟩ := List.exists_cons_of_ne_nil hne
    obtain ⟨hspace, hhash, hquote, hback⟩ := hplain c List.mem_cons_self
    rw [List.cons_append, shlexFrom, if_neg (by simp [hspace]), if_neg hhash, if_neg hback,
      if_neg (by simp [hquote]),
      shlex_word [c] false b fun d hd => hplain d (List.mem_cons_of_mem _ hd), shlex_trailing hb]
    rfl
  · rw [unquote_wrapped (.inr rfl), List.cons_append, List.append_assoc, List.singleton_append,
      shlex_enter (.inr rfl), shlex_quoted [] true b hmark (fun h => absurd h (by decide)),
      shlex_trailing hb, List.nil_append]
    simp [emit]
  · rw [unquote_wrapped (.inl rfl), List.cons_append, List.append_assoc, List.singleton_append,
      shlex_enter (.inl rfl), shlex_quoted [] true b hmark (fun _ => hslash),
      shlex_trailing hb, List.nil_append]
    simp [emit]

/-- A line with an equals sign is judged by what stands before and behind the first one. -/
theorem tsLine_assignment {a : List Char} (ha : '=' ∉ a) (b : List Char) :
    tsLine (a ++ '=' :: b) =
      if (lstrip jsSpace a).head? = some '#' then .skip
      else if ValidKey (strip jsSpace a) then .entry (strip jsSpace a) (strip jsSpace b)
      else .badKey (strip jsSpace a) := by
  have hequals : jsSpace '=' = false := by decide
  have hhead : (lstrip jsSpace a ++ '=' :: rstrip jsSpace b).head? = some '#' ↔
      (lstrip jsSpace a).head? = some '#' := by
    cases lstrip jsSpace a with
    | nil => simp
    | cons c cs => simp
  have hsplit : splitFirst '=' (lstrip jsSpace a ++ '=' :: rstrip jsSpace b) =
      some (lstrip jsSpace a, rstrip jsSpace b) :=
    splitFirst_eq_some.mpr ⟨rfl, fun h => ha (lstrip_subset h)⟩
  unfold tsLine
  rw [strip_append_cons hequals]
  simp only [hhead, hsplit, strip_lstrip, strip_rstrip]
  simp

theorem validKey_space {key : List Char} (h : ValidKey key) : ' ' ∉ key := by
  intro hmem
  cases key with
  | nil => cases hmem
  | cons c cs =>
    rcases List.mem_cons.mp hmem with rfl | hcs
    · exact absurd h.1 (by decide)
    · exact absurd (List.all_eq_true.mp h.2 ' ' hcs) (by decide)

/-- A key behind `export` has a space inside. -/
theorem space_mem_exported {a : List Char} (h : strip pySpace a = dbKey) :
    ' ' ∈ strip jsSpace (exportPrefix ++ a) := by
  obtain ⟨x, y, ha, -, -⟩ := strip_split pySpace a
  obtain ⟨rest, hkey⟩ : ∃ rest, dbKey = 'N' :: rest := ⟨_, rfl⟩
  have hsplit : exportPrefix ++ a = (exportPrefix ++ x) ++ 'N' :: (rest ++ y) := by
    rw [ha, h, hkey]
    simp
  rw [hsplit, strip_append_cons (by decide)]
  apply List.mem_append_left
  have hstay : lstrip jsSpace (exportPrefix ++ x) = exportPrefix ++ x := rfl
  rw [hstay]
  exact List.mem_append_left _ (by decide)

theorem strip_exported (a : List Char) :
    ∃ rest, strip jsSpace (exportPrefix ++ a) = 'e' :: rest := by
  obtain ⟨tail, htail⟩ : ∃ tail, exportPrefix = 'e' :: tail := ⟨_, rfl⟩
  have hstrip := strip_append_cons (p := jsSpace) (a := []) (b := tail ++ a) (c := 'e') (by decide)
  rw [htail]
  exact ⟨_, hstrip⟩

/-- `configured_paths` takes the lines that assign the database, with untrimmed values. -/
theorem dbEntry_of_accepted {raw : List Char} (hraw : ∀ c ∈ raw, Inline c) (h : Accepted raw) :
    (dbEntry raw).map (strip pySpace) =
      ((tsEntry raw).filter fun e => e.1 = dbKey).map (·.2) := by
  have hstrip : ∀ {cs : List Char}, (∀ c ∈ cs, c ∈ raw) → strip pySpace cs = strip jsSpace cs :=
    fun hcs => strip_congr fun c hc => (jsSpace_eq_pySpace (hraw c (hcs c hc))).symm
  cases hsplit : splitFirst '=' raw with
  | none =>
    have hequals := splitFirst_eq_none.mp hsplit
    have hdb : dbEntry raw = none := by
      unfold dbEntry
      simp only
      split_ifs
      · rw [splitFirst_eq_none.mpr fun hmem => hequals (List.mem_of_mem_drop hmem)]
      · rw [hsplit]
    have hts : tsEntry raw = none := by
      unfold tsEntry tsLine
      simp only
      rw [splitFirst_eq_none.mpr fun hmem => hequals (strip_subset hmem)]
      split_ifs <;> rfl
    rw [hdb, hts]
    rfl
  | some s =>
    obtain ⟨a, b⟩ := s
    obtain ⟨hline, ha⟩ := splitFirst_eq_some.mp hsplit
    have hvalue : strip pySpace b = strip jsSpace b := hstrip fun c hc => by
      rw [hline]
      exact List.mem_append_right _ (List.mem_cons_of_mem _ hc)
    have hname : strip pySpace a = strip jsSpace a := hstrip fun c hc => by
      rw [hline]
      exact List.mem_append_left _ hc
    have hts := tsLine_assignment ha b
    rw [← hline] at hts
    by_cases hexport : exportPrefix.isPrefixOf raw = true
    · -- the command line rejects an exported key, so the line assigns another one
      obtain ⟨r, hr⟩ := List.isPrefixOf_iff_prefix.mp hexport
      have hprefixed : splitFirst '=' (exportPrefix ++ r) =
          (splitFirst '=' r).map fun s => (exportPrefix ++ s.1, s.2) :=
        splitFirst_append (by decide) r
      rw [hr, hsplit] at hprefixed
      obtain ⟨⟨a', b'⟩, hrest, hpair⟩ := Option.map_eq_some_iff.mp hprefixed.symm
      obtain ⟨rfl, rfl⟩ := Prod.mk.inj hpair
      obtain ⟨rest, hfirst⟩ := strip_exported a'
      have hhash : ¬ (lstrip jsSpace (exportPrefix ++ a')).head? = some '#' := by
        have hstay : lstrip jsSpace (exportPrefix ++ a') = exportPrefix ++ a' := rfl
        rw [hstay]
        intro hcontra
        exact absurd (Option.some.inj hcontra) (by decide)
      rw [if_neg hhash] at hts
      have hvalid : ValidKey (strip jsSpace (exportPrefix ++ a')) := by
        by_contra hinvalid
        rw [if_neg hinvalid] at hts
        exact h.2 _ hts
      rw [if_pos hvalid] at hts
      have hentry : tsEntry raw = some (strip jsSpace (exportPrefix ++ a'), strip jsSpace b') := by
        rw [tsEntry, hts]
      have hother : strip jsSpace (exportPrefix ++ a') ≠ dbKey := by
        rw [hfirst]
        intro hcontra
        have hhead : some 'e' = dbKey.head? := congrArg List.head? hcontra
        exact absurd hhead (by decide)
      have hnone : strip pySpace a' ≠ dbKey :=
        fun hkey => validKey_space hvalid (space_mem_exported hkey)
      have hdrop : raw.drop exportPrefix.length = r := by
        rw [← hr, List.drop_left]
      have hdb : dbEntry raw = none := by
        unfold dbEntry
        simp only
        rw [if_pos hexport, hdrop, hrest]
        simp [hnone]
      rw [hdb, hentry, Option.filter_some_neg (by simpa using hother)]
      rfl
    · have hdb : dbEntry raw = if strip jsSpace a = dbKey then some b else none := by
        unfold dbEntry
        simp only
        rw [if_neg hexport, hsplit]
        simp only [hname]
      by_cases hhash : (lstrip jsSpace a).head? = some '#'
      · rw [if_pos hhash] at hts
        have hother : strip jsSpace a ≠ dbKey := by
          obtain ⟨w, hw⟩ := List.head?_eq_some_iff.mp hhash
          have hright := rstrip_append_cons (p := jsSpace) (a := []) (b := w) (c := '#') (by decide)
          rw [strip, hw]
          intro hcontra
          rw [List.nil_append] at hright
          rw [hright] at hcontra
          have hhead : some '#' = dbKey.head? := congrArg List.head? hcontra
          exact absurd hhead (by decide)
        have hentry : tsEntry raw = none := by rw [tsEntry, hts]
        rw [hdb, if_neg hother, hentry]
        rfl
      · rw [if_neg hhash] at hts
        have hvalid : ValidKey (strip jsSpace a) := by
          by_contra hinvalid
          rw [if_neg hinvalid] at hts
          exact h.2 _ hts
        rw [if_pos hvalid] at hts
        have hentry : tsEntry raw = some (strip jsSpace a, strip jsSpace b) := by
          rw [tsEntry, hts]
        rw [hdb, hentry]
        by_cases hkey : strip jsSpace a = dbKey
        · rw [if_pos hkey, Option.filter_some_pos (by simpa using hkey), Option.map_some,
            Option.map_some, hvalue]
        · rw [if_neg hkey, Option.filter_some_neg (by simpa using hkey)]
          rfl

theorem dbEntry_subset {raw value : List Char} (h : dbEntry raw = some value) :
    ∀ c ∈ value, c ∈ raw := by
  unfold dbEntry at h
  simp only at h
  split at h
  · rename_i key value' hsplit
    split_ifs at h
    cases h
    have hline := (splitFirst_eq_some.mp hsplit).1
    intro c hc
    have hmem : c ∈ key ++ '=' :: value := List.mem_append_right _ (List.mem_cons_of_mem _ hc)
    rw [← hline] at hmem
    split_ifs at hmem
    · exact List.mem_of_mem_drop hmem
    · exact hmem
  · cases h

/-- The database lines are the assignments of its key. -/
theorem dbEntries_eq {text : List Char} (hplain : Plain text)
    (hall : ∀ raw ∈ tsLines text, Accepted raw) :
    ((pyLines text).filterMap dbEntry).map (strip pySpace) = assigned text dbKey := by
  have hnil : dbEntry [] = none := rfl
  rw [pyLines, ← lines_filterMap hnil [] text hplain, List.map_filterMap, assigned, assignments,
    List.filter_filterMap, List.map_filterMap]
  apply List.filterMap_congr
  intro raw hraw
  exact dbEntry_of_accepted
    (inline_lines [] text hplain (fun c hc => absurd hc List.not_mem_nil) raw hraw) (hall raw hraw)

/-- The one database assignment of a text, when the shell's rules leave its value alone. -/
theorem configuredDatabase_word {text value : List Char} (hplain : Plain text)
    (hall : ∀ raw ∈ tsLines text, Accepted raw) (hsize : byteLength text ≤ 1024 * 1024)
    (honce : assigned text dbKey = [value]) (hword : DatabaseWord value) :
    configuredDatabase text = .ok (some (unquote value)) := by
  have hentries := dbEntries_eq hplain hall
  rw [honce, List.map_eq_singleton_iff] at hentries
  obtain ⟨rawValue, hvalues, hstripped⟩ := hentries
  have hinline : ∀ c ∈ rawValue, Inline c := by
    have hmem : rawValue ∈ (tsLines text).filterMap dbEntry := by
      have hnil : dbEntry [] = none := rfl
      rw [tsLines, lines_filterMap hnil [] text hplain, ← pyLines, hvalues]
      exact List.mem_singleton_self rawValue
    obtain ⟨raw, hraw, hentry⟩ := List.mem_filterMap.mp hmem
    exact fun c hc => inline_lines [] text hplain (fun d hd => absurd hd List.not_mem_nil) raw hraw
      c (dbEntry_subset hentry c hc)
  obtain ⟨a, b, hsplit, ha, hb⟩ := strip_split pySpace rawValue
  rw [hstripped] at hsplit
  have hblank : ∀ c ∈ rawValue, pySpace c = true → shlexSpace c = true := by
    intro c hc hspace
    rcases (space_of_inline (hinline c hc)).2.mp hspace with rfl | rfl <;> decide
  have hshlex : shlexSplit rawValue = .ok [unquote value] := by
    rw [hsplit]
    apply shlexSplit_word _ _ hword
    · intro c hc
      refine hblank c ?_ (ha c hc)
      rw [hsplit]
      exact List.mem_append_left _ hc
    · intro c hc
      refine hblank c ?_ (hb c hc)
      rw [hsplit]
      exact List.mem_append_right _ (List.mem_append_right _ hc)
  rw [configuredDatabase, if_neg (by omega), hvalues, dbValues, dbValue, hshlex]
  rfl

end Database

/-- Every service uses the value the command line reads. -/
def ReadersAgree (text key : List Char) : Prop :=
  ∀ value, (parseEnvText text).values key = some value → ∀ environ : Settings, environ key = none →
    (∃ environ', loadEnv environ text = .ok environ' ∧ environ' key = some value) ∧
    (key ∈ tokenKeys → configuration environ text key = some value) ∧
    (key = dbKey → configuredDatabase text = .ok (some value))

theorem loadEnv_value {environ environ' : Settings} {text : List Char} (key : List Char)
    (h : loadEnv environ text = .ok environ') :
    environ' key = (environ key).or (((((pyLines text).filterMap pyEntry).filter fun e =>
      e.1 = key).map (·.2)).head?.map stripQuotes) :=
  loadEntries_value key h

theorem configuration_value (environ : Settings) (text : List Char) {key : List Char}
    (hkey : key ∈ tokenKeys) :
    configuration environ text key = (environ key).or
      (((((pyLines text).filterMap pyEntry).filter fun e => e.1 = key).map (·.2)).head?.map
        stripQuotes) := by
  unfold configuration
  rw [if_pos hkey, tokenEntries_value hkey, Option.none_or]

section Plain

variable {text key : List Char} (hplain : Plain text) (herrors : (parseEnvText text).errors = [])

include hplain herrors

/-- `load_env` takes the first assignment. -/
theorem loadEnv_first {environ : Settings} (habsent : environ key = none) :
    ∃ environ', loadEnv environ text = .ok environ' ∧
      environ' key = (assigned text key).head?.map stripQuotes := by
  have hall := parseEnvText_accepted herrors
  obtain ⟨environ', henv⟩ := loadEnv_ok hplain hall environ
  have hvalue := loadEnv_value key henv
  rw [habsent, Option.none_or, pyEntries_eq hplain hall] at hvalue
  exact ⟨environ', henv, hvalue⟩

theorem configuration_first {environ : Settings} (habsent : environ key = none)
    (hkey : key ∈ tokenKeys) :
    configuration environ text key = (assigned text key).head?.map stripQuotes := by
  rw [configuration_value environ text hkey, habsent, Option.none_or,
    pyEntries_eq hplain (parseEnvText_accepted herrors)]
  rfl

/-- A key assigned once agrees when its value is evenly quoted, the database also when the
shell's rules leave it alone. -/
theorem readersAgree_once (hkey : key ≠ "__proto__".toList) {value : List Char}
    (honce : assigned text key = [value]) (heven : EvenlyQuoted value)
    (hdatabase : key = dbKey → byteLength text ≤ 1024 * 1024 ∧ DatabaseWord value) :
    ReadersAgree text key := by
  have hsame := (unquote_eq_stripQuotes value).mpr heven
  intro v hv environ habsent
  rw [parseEnvText_value hkey, honce] at hv
  have hunquote : unquote value = v := Option.some.inj hv
  have hfirst : (assigned text key).head?.map stripQuotes = some v := by
    rw [honce, ← hunquote, hsame]
    rfl
  refine ⟨?_, fun htoken => ?_, ?_⟩
  · obtain ⟨environ', henv, hvalue⟩ := loadEnv_first hplain herrors habsent
    exact ⟨environ', henv, hvalue.trans hfirst⟩
  · exact (configuration_first hplain herrors habsent htoken).trans hfirst
  · rintro rfl
    obtain ⟨hsize, hword⟩ := hdatabase rfl
    rw [← hunquote]
    exact configuredDatabase_word hplain (parseEnvText_accepted herrors) hsize honce hword

theorem evenlyQuoted_of_agree (hkey : key ≠ "__proto__".toList) {value : List Char}
    (honce : assigned text key = [value]) (h : ReadersAgree text key) : EvenlyQuoted value := by
  have hv : (parseEnvText text).values key = some (unquote value) := by
    rw [parseEnvText_value hkey, honce]
    rfl
  obtain ⟨⟨environ', henv, hvalue⟩, -, -⟩ := h _ hv (fun _ => none) rfl
  obtain ⟨environ'', henv', hfirst⟩ : ∃ environ', loadEnv (fun _ => none) text = .ok environ' ∧
      environ' key = (assigned text key).head?.map stripQuotes :=
    loadEnv_first hplain herrors rfl
  rw [henv] at henv'
  cases henv'
  rw [hvalue, honce] at hfirst
  exact (unquote_eq_stripQuotes value).mp (Option.some.inj hfirst)

end Plain

/-- The services agree on the token settings of any text. In a text of plain white space without
errors the command line takes the last assignment of a key and the services the first; a key
assigned once reads the same exactly when its value is evenly quoted, and the database path when
the shell's rules leave it alone too. -/
theorem env_readers {text key : List Char} (hkey : key ≠ "__proto__".toList) :
    (∀ environ environ', loadEnv environ text = .ok environ' → key ∈ tokenKeys →
      environ' key = configuration environ text key) ∧
    (Plain text → (parseEnvText text).errors = [] →
      (parseEnvText text).values key = (assigned text key).getLast?.map unquote ∧
      (∀ environ, environ key = none → ∃ environ', loadEnv environ text = .ok environ' ∧
        environ' key = (assigned text key).head?.map stripQuotes) ∧
      ∀ value, assigned text key = [value] →
        (key ≠ dbKey → (ReadersAgree text key ↔ EvenlyQuoted value)) ∧
        (EvenlyQuoted value → byteLength text ≤ 1024 * 1024 → DatabaseWord value →
          ReadersAgree text key)) := by
  constructor
  · intro environ environ' henv htoken
    rw [loadEnv_value key henv, configuration_value environ text htoken]
  · intro hplain herrors
    refine ⟨parseEnvText_value hkey text, fun environ habsent =>
      loadEnv_first hplain herrors habsent, fun value honce => ⟨fun hother => ⟨fun hagree =>
        evenlyQuoted_of_agree hplain herrors hkey honce hagree, fun heven => ?_⟩, ?_⟩⟩
    · exact readersAgree_once hplain herrors hkey honce heven fun h => absurd h hother
    · intro heven hsize hword
      exact readersAgree_once hplain herrors hkey honce heven fun _ => ⟨hsize, hword⟩

theorem env_readers_plain :
    (∀ environ environ', loadEnv environ "KEY='a b'\n".toList = .ok environ' →
      "KEY".toList ∈ tokenKeys →
      environ' "KEY".toList = configuration environ "KEY='a b'\n".toList "KEY".toList) ∧
    (parseEnvText "KEY='a b'\n".toList).values "KEY".toList =
      (assigned "KEY='a b'\n".toList "KEY".toList).getLast?.map unquote ∧
    (∀ environ, environ "KEY".toList = none →
      ∃ environ', loadEnv environ "KEY='a b'\n".toList = .ok environ' ∧
        environ' "KEY".toList =
          (assigned "KEY='a b'\n".toList "KEY".toList).head?.map stripQuotes) ∧
    (ReadersAgree "KEY='a b'\n".toList "KEY".toList ↔ EvenlyQuoted "'a b'".toList) := by
  have hline : ("KEY".toList ≠ "__proto__".toList ∧ Plain "KEY='a b'\n".toList ∧
      (parseEnvText "KEY='a b'\n".toList).errors = []) ∧
      assigned "KEY='a b'\n".toList "KEY".toList = ["'a b'".toList] ∧ "KEY".toList ≠ dbKey := by
    decide +kernel
  obtain ⟨⟨hkey, hplain, herrors⟩, honly, hother⟩ := hline
  obtain ⟨htoken, hrest⟩ := @env_readers "KEY='a b'\n".toList "KEY".toList hkey
  obtain ⟨hlast, hfirst, honce⟩ := hrest hplain herrors
  exact ⟨htoken, hlast, hfirst, (honce "'a b'".toList honly).1 hother⟩

theorem not_agree_of_load {text key : List Char} (value : List Char)
    (hvalue : (parseEnvText text).values key = some value)
    (hload : (loadEnv (fun _ => none) text).toOption.bind (· key) ≠ some value) :
    ¬ ReadersAgree text key := by
  intro h
  obtain ⟨⟨environ', henv, hsame⟩, -, -⟩ := h value hvalue (fun _ => none) rfl
  rw [henv] at hload
  exact hload hsame

theorem not_agree_of_database {text : List Char} (value : List Char)
    (hvalue : (parseEnvText text).values dbKey = some value)
    (hdatabase : (configuredDatabase text).toOption ≠ some (some value)) :
    ¬ ReadersAgree text dbKey := by
  intro h
  obtain ⟨-, -, hsame⟩ := h value hvalue (fun _ => none) rfl
  rw [hsame rfl] at hdatabase
  exact hdatabase rfl

/-- The text has no error for the command line, which reads another value than the worker. -/
def LoadDiffers (text key value : List Char) : Prop :=
  (parseEnvText text).errors = [] ∧ (parseEnvText text).values key = some value ∧
    (loadEnv (fun _ => none) text).toOption.bind (· key) ≠ some value

instance (text key value : List Char) : Decidable (LoadDiffers text key value) := by
  unfold LoadDiffers
  infer_instance

theorem differing_texts :
    LoadDiffers "KEY=a\nKEY=b".toList "KEY".toList "b".toList ∧
    LoadDiffers "KEY=\"a".toList "KEY".toList "\"a".toList ∧
    LoadDiffers (Char.ofNat 65279 :: "KEY=a".toList) "KEY".toList "a".toList ∧
    (parseEnvText "NYANYA_DASHBOARD_DB_PATH=a#b".toList).errors = [] ∧
    (parseEnvText "NYANYA_DASHBOARD_DB_PATH=a#b".toList).values dbKey = some "a#b".toList ∧
    (configuredDatabase "NYANYA_DASHBOARD_DB_PATH=a#b".toList).toOption ≠
      some (some "a#b".toList) := by
  decide +kernel

/-- A key assigned twice, a quote without its other half, a byte order mark and a path with a
number sign, each without an error on the command line. -/
theorem readers_differ :
    ((parseEnvText "KEY=a\nKEY=b".toList).errors = [] ∧
      ¬ ReadersAgree "KEY=a\nKEY=b".toList "KEY".toList) ∧
    ((parseEnvText "KEY=\"a".toList).errors = [] ∧
      ¬ ReadersAgree "KEY=\"a".toList "KEY".toList) ∧
    ((parseEnvText (Char.ofNat 65279 :: "KEY=a".toList)).errors = [] ∧
      ¬ ReadersAgree (Char.ofNat 65279 :: "KEY=a".toList) "KEY".toList) ∧
    ((parseEnvText "NYANYA_DASHBOARD_DB_PATH=a#b".toList).errors = [] ∧
      ¬ ReadersAgree "NYANYA_DASHBOARD_DB_PATH=a#b".toList dbKey) := by
  obtain ⟨⟨hclean, hvalue, hload⟩, ⟨hclean', hvalue', hload'⟩, ⟨hclean'', hvalue'', hload''⟩,
    hclean₃, hvalue₃, hdatabase⟩ := differing_texts
  exact ⟨⟨hclean, not_agree_of_load _ hvalue hload⟩, ⟨hclean', not_agree_of_load _ hvalue' hload'⟩,
    ⟨hclean'', not_agree_of_load _ hvalue'' hload''⟩,
    hclean₃, not_agree_of_database _ hvalue₃ hdatabase⟩

end NyanyaAgent.Safety
