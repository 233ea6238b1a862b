import NyanyaAgent.EnvFile.Update
import NyanyaAgent.Safety.EnvReaders
import Mathlib.Data.List.Induction

/-!
# Updating an environment file

What `updateEnvFile` leaves of a text: exactly when every update is read back, every other key
keeps its value, the other lines stay and a second update changes nothing.
-/
namespace NyanyaAgent.Safety
open NyanyaAgent.Text NyanyaAgent.EnvFile

variable {updates : Updates} {text key value raw : List Char} {lines written : List (List Char)}

section Lines

/-- Lines with a line end behind each of them. -/
def endedLines (lines : List (List Char)) : List Char := lines.flatMap fun l => l ++ ['\n']

def emptyLine (line : List Char) : Bool := line = []

/-- The lines without the empty ones at the end; one line at least. -/
def keptLines (lines : List (List Char)) : List (List Char) :=
  if rstrip emptyLine lines = [] then [[]] else rstrip emptyLine lines

/-- A line read back: a carriage return at its end belongs to the line end. -/
def dropReturn (line : List Char) : List Char :=
  if line.getLast? = some '\r' then line.dropLast else line

theorem dropReturn_cons {c d : Char} {cs : List Char} :
    dropReturn (c :: d :: cs) = c :: dropReturn (d :: cs) := by
  unfold dropReturn
  rw [List.getLast?_cons_cons, List.dropLast_cons_cons]
  split_ifs <;> rfl

theorem tsLinesFrom_ended {line : List Char} (hline : '\n' ∉ line) (read rest : List Char) :
    tsLinesFrom read (line ++ '\n' :: rest) = (read ++ dropReturn line) :: tsLinesFrom [] rest := by
  induction line generalizing read with
  | nil =>
    rw [List.nil_append]
    cases rest with
    | nil => simp [tsLinesFrom, dropReturn]
    | cons d rest => simp [tsLinesFrom, dropReturn]
  | cons c line ih =>
    rw [List.mem_cons, not_or] at hline
    obtain ⟨hc, hline⟩ := hline
    have hc : ¬ c = '\n' := Ne.symm hc
    cases line with
    | nil =>
      rw [List.cons_append, List.nil_append, tsLinesFrom]
      by_cases hreturn : c = '\r'
      · subst hreturn
        simp [dropReturn]
      · have hrest := ih hline (read ++ [c])
        rw [List.nil_append] at hrest
        simp only [hreturn, false_and, if_false, if_neg hc, hrest]
        simp [dropReturn, hreturn]
    | cons d line =>
      have hd : d ≠ '\n' := fun h => hline (h ▸ List.mem_cons_self)
      have hrest := ih hline (read ++ [c])
      rw [List.cons_append] at hrest ⊢
      rw [List.cons_append, tsLinesFrom, if_neg fun h => hd h.2, if_neg hc, hrest,
        dropReturn_cons]
      simp

/-- The lines of a text have no line end in them. -/
theorem tsLinesFrom_inner (read text : List Char) (hread : '\n' ∉ read) :
    ∀ line ∈ tsLinesFrom read text, '\n' ∉ line := by
  induction read, text using tsLinesFrom.induct with
  | case1 read => simpa [tsLinesFrom] using hread
  | case2 read => simpa [tsLinesFrom] using hread
  | case3 read c hc =>
    have hc' : ¬ '\n' = c := fun h => hc h.symm
    simpa [tsLinesFrom, hc, hc'] using hread
  | case4 read c d cs hcrlf ih =>
    rw [tsLinesFrom, if_pos hcrlf]
    exact List.forall_mem_cons.mpr ⟨hread, ih List.not_mem_nil⟩
  | case5 read d cs hcrlf ih =>
    rw [tsLinesFrom, if_neg hcrlf, if_pos rfl]
    exact List.forall_mem_cons.mpr ⟨hread, ih List.not_mem_nil⟩
  | case6 read c d cs hcrlf hc ih =>
    rw [tsLinesFrom, if_neg hcrlf, if_neg hc]
    refine ih fun hmem => ?_
    rcases List.mem_append.mp hmem with hmem | hmem
    · exact hread hmem
    · exact hc (List.mem_singleton.mp hmem).symm

theorem tsLines_ended (h : ∀ line ∈ lines, '\n' ∉ line) :
    tsLines (endedLines lines) = lines.map dropReturn ++ [[]] := by
  unfold tsLines
  induction lines with
  | nil => rfl
  | cons line lines ih =>
    obtain ⟨hline, h⟩ := List.forall_mem_cons.mp h
    have hsplit : endedLines (line :: lines) = line ++ '\n' :: endedLines lines := by
      simp [endedLines]
    rw [hsplit, tsLinesFrom_ended hline, ih h]
    rfl

theorem intercalate_ended (lines : List (List Char)) (hlines : lines ≠ []) :
    ['\n'].intercalate lines ++ ['\n'] = endedLines lines := by
  induction lines with
  | nil => exact absurd rfl hlines
  | cons line lines ih =>
    cases lines with
    | nil => simp [endedLines]
    | cons next lines =>
      have hrest := ih (List.cons_ne_nil _ _)
      rw [List.intercalate_cons_cons]
      have hsplit : endedLines (line :: next :: lines) =
          line ++ ('\n' :: endedLines (next :: lines)) := by
        simp [endedLines]
      rw [hsplit, ← hrest]
      simp

theorem rstrip_snoc {α : Type} {p : α → Bool} {c : α} (hc : p c = true) (cs : List α) :
    rstrip p (cs ++ [c]) = rstrip p cs := by
  simp [rstrip, hc]

theorem rstrip_snoc_neg {α : Type} {p : α → Bool} {c : α} (hc : p c = false) (cs : List α) :
    rstrip p (cs ++ [c]) = cs ++ [c] := by
  simp [rstrip, hc]

theorem rstrip_ended (h : ∀ line ∈ lines, '\n' ∉ line) :
    rstrip isNewline (endedLines lines) ++ ['\n'] = endedLines (keptLines lines) := by
  induction lines using List.reverseRecOn with
  | nil => rfl
  | append_singleton lines line ih =>
    have hlines : ∀ l ∈ lines, '\n' ∉ l := fun l hl => h l (List.mem_append_left _ hl)
    have hsplit : endedLines (lines ++ [line]) = endedLines lines ++ line ++ ['\n'] := by
      simp [endedLines]
    rw [hsplit, rstrip_snoc (by rfl)]
    rcases List.eq_nil_or_concat line with rfl | ⟨start, c, hline⟩
    · rw [List.append_nil, ih hlines, keptLines, keptLines, rstrip_snoc (by rfl)]
    · rw [List.concat_eq_append] at hline
      subst hline
      have hc : isNewline c = false := by
        have hline := h _ (List.mem_append_right _ List.mem_cons_self)
        simp only [List.mem_append, List.mem_singleton, not_or] at hline
        simpa [isNewline] using fun heq => hline.2 heq.symm
      rw [← List.append_assoc, rstrip_snoc_neg hc, keptLines,
        rstrip_snoc_neg (p := emptyLine) (by simp [emptyLine])]
      simp [endedLines]

theorem linesText_ended (h : ∀ line ∈ lines, '\n' ∉ line) :
    linesText lines = endedLines (keptLines lines) := by
  have hnewline : isNewline '\n' = true := rfl
  by_cases hlines : lines = []
  · subst hlines
    rfl
  · rw [linesText, ← rstrip_snoc hnewline, intercalate_ended lines hlines, rstrip_ended h]

theorem mem_rstrip {α : Type} {p : α → Bool} {c : α} {cs : List α} (hc : c ∈ cs)
    (hp : p c = false) : c ∈ rstrip p cs := by
  induction cs using List.reverseRecOn with
  | nil => cases hc
  | append_singleton cs d ih =>
    by_cases hd : p d = true
    · rw [rstrip_snoc hd]
      rcases List.mem_append.mp hc with hc | hc
      · exact ih hc
      · rw [List.mem_singleton.mp hc, hd] at hp
        cases hp
    · rwa [rstrip_snoc_neg (by simpa using hd)]

theorem mem_keptLines {line : List Char} (hline : line ∈ keptLines lines) :
    line = [] ∨ line ∈ lines := by
  unfold keptLines at hline
  split_ifs at hline
  · exact .inl (List.mem_singleton.mp hline)
  · exact .inr (rstrip_subset hline)

theorem keptLines_mem {line : List Char} (hline : line ∈ lines) (hne : line ≠ []) :
    line ∈ keptLines lines := by
  have hmem := mem_rstrip (p := emptyLine) hline (by simpa [emptyLine] using hne)
  unfold keptLines
  rw [if_neg (List.ne_nil_of_mem hmem)]
  exact hmem

theorem keptLines_ne_nil (lines : List (List Char)) : keptLines lines ≠ [] := by
  unfold keptLines
  split_ifs with h
  · exact List.cons_ne_nil _ _
  · exact h

theorem keptLines_snoc (lines : List (List Char)) :
    keptLines (keptLines lines ++ [[]]) = keptLines lines := by
  have hempty : emptyLine [] = true := rfl
  unfold keptLines
  rw [rstrip_snoc hempty]
  by_cases h : rstrip emptyLine lines = []
  · have hone : rstrip emptyLine [[]] = [] := rfl
    rw [if_pos h, hone, if_pos rfl]
  · rw [if_neg h, rstrip_rstrip, if_neg h]

theorem endedLines_length_pos (hlines : lines ≠ []) : 1 ≤ (endedLines lines).length := by
  obtain ⟨line, rest, rfl⟩ := List.exists_cons_of_ne_nil hlines
  simp only [endedLines, List.flatMap_cons, List.length_append, List.length_cons]
  omega

theorem keptLines_snoc_length (hlines : lines ≠ []) :
    (endedLines (keptLines (lines ++ [[]]))).length ≤ (endedLines lines).length := by
  have hempty : emptyLine [] = true := rfl
  unfold keptLines
  rw [rstrip_snoc hempty]
  split_ifs with h
  · exact endedLines_length_pos hlines
  · obtain ⟨rest, hrest⟩ : ∃ rest, lines = rstrip emptyLine lines ++ rest :=
      ⟨(lines.reverse.takeWhile emptyLine).reverse, by
        rw [rstrip, ← List.reverse_append, List.takeWhile_append_dropWhile, List.reverse_reverse]⟩
    calc (endedLines (rstrip emptyLine lines)).length
        ≤ (endedLines (rstrip emptyLine lines)).length + (endedLines rest).length :=
          Nat.le_add_right _ _
      _ = (endedLines (rstrip emptyLine lines ++ rest)).length := by
          rw [endedLines, endedLines, endedLines, List.flatMap_append, List.length_append]
      _ = (endedLines lines).length := by rw [← hrest]

theorem dropReturn_length (line : List Char) : (dropReturn line).length ≤ line.length := by
  unfold dropReturn
  split_ifs
  · rw [List.length_dropLast]
    omega
  · exact Nat.le_refl _

theorem dropReturn_eq_self {line : List Char} : dropReturn line = line ↔ line.getLast? ≠ some '\r' := by
  unfold dropReturn
  split_ifs with h
  · constructor
    · intro heq
      have hlength := congrArg List.length heq
      have hne : line ≠ [] := by
        rintro rfl
        cases h
      have hpos := List.length_pos_iff.mpr hne
      rw [List.length_dropLast] at hlength
      omega
    · exact fun hne => absurd h hne
  · exact ⟨fun _ => h, fun _ => rfl⟩

/-- Lines that are as long as before have lost no carriage return. -/
theorem dropReturn_all (h : (endedLines lines).length ≤ (endedLines (lines.map dropReturn)).length) :
    ∀ line ∈ lines, dropReturn line = line := by
  have hle : ∀ lines : List (List Char),
      (endedLines (lines.map dropReturn)).length ≤ (endedLines lines).length := by
    intro lines
    induction lines with
    | nil => exact Nat.le_refl _
    | cons line lines ih =>
      have hline := dropReturn_length line
      simp only [endedLines, List.map_cons, List.flatMap_cons, List.length_append,
        List.length_cons, List.length_nil] at ih ⊢
      omega
  induction lines with
  | nil => exact fun line hline => by cases hline
  | cons line lines ih =>
    have hline := dropReturn_length line
    have hrest := hle lines
    simp only [endedLines, List.map_cons, List.flatMap_cons, List.length_append,
      List.length_cons, List.length_nil] at h hrest ih
    refine List.forall_mem_cons.mpr ⟨?_, ih (by omega)⟩
    have hsame : (dropReturn line).length = line.length := by omega
    by_cases hreturn : line.getLast? = some '\r'
    · have hne : line ≠ [] := by
        rintro rfl
        cases hreturn
      have hpos := List.length_pos_iff.mpr hne
      rw [dropReturn, if_pos hreturn, List.length_dropLast] at hsame
      omega
    · exact dropReturn_eq_self.mpr hreturn

theorem strip_dropReturn (line : List Char) :
    strip jsSpace (dropReturn line) = strip jsSpace line := by
  unfold dropReturn
  split_ifs with h
  · obtain ⟨start, rfl⟩ : ∃ start, line = start ++ ['\r'] := by
      rw [List.getLast?_eq_some_iff] at h
      exact h
    have hreturn : jsSpace '\r' = true := by decide
    rw [List.dropLast_concat, strip_eq_lstrip_rstrip (start ++ ['\r']), rstrip_snoc hreturn,
      ← strip_eq_lstrip_rstrip]
  · rfl

end Lines

section Keys

theorem validKey_chars (h : ValidKey key) : key ≠ [] ∧ ∀ c ∈ key, keyRest c = true := by
  cases key with
  | nil => exact absurd h id
  | cons c cs =>
    obtain ⟨hc, hcs⟩ := h
    refine ⟨List.cons_ne_nil _ _, List.forall_mem_cons.mpr ⟨?_, List.all_eq_true.mp hcs⟩⟩
    unfold keyStart at hc
    unfold keyRest
    rcases Bool.or_eq_true_iff.mp hc with hc | hc
    · rw [Char.isAlphanum, hc]
      rfl
    · rw [hc, Bool.or_true]

theorem keyRest_inner {c : Char} (h : keyRest c = true) :
    jsSpace c = false ∧ c ≠ '=' ∧ c ≠ '#' ∧ lineEnd c = false := by
  have hclear : ∀ d : Char, keyRest d = false → c ≠ d := by
    rintro d hd rfl
    rw [h] at hd
    cases hd
  have hne := hclear '='  (by decide)
  have hhash := hclear '#' (by decide)
  have hreturn := hclear '\r' (by decide)
  have hline := hclear '\n' (by decide)
  refine ⟨?_, hne, hhash, by simp [lineEnd, hreturn, hline]⟩
  by_contra hspace
  have hcode : c.toNat < 128 := by
    have hparts : keyRest c = (c.isUpper || c.isLower || c.isDigit || decide (c = '_')) := rfl
    rw [hparts] at h
    simp only [Bool.or_eq_true, decide_eq_true_eq] at h
    rcases h with ((h | h) | h) | h
    · exact Nat.lt_of_le_of_lt (show c.toNat ≤ 90 from (of_decide_eq_true h).2) (by decide)
    · exact Nat.lt_of_le_of_lt (show c.toNat ≤ 122 from of_decide_eq_true (Bool.and_eq_true_iff.mp h).2) (by decide)
    · exact Nat.lt_of_le_of_lt (show c.toNat ≤ 57 from of_decide_eq_true (Bool.and_eq_true_iff.mp h).2) (by decide)
    · rw [h]
      decide
  have hall : ∀ n < 128, jsSpace (Char.ofNat n) = true → keyRest (Char.ofNat n) = false := by decide
  have hself := hall c.toNat hcode
  rw [Char.ofNat_toNat] at hself
  rw [hself (by simpa using hspace)] at h
  cases h

theorem validKey_strip (h : ValidKey key) : strip jsSpace key = key := by
  obtain ⟨_, hchars⟩ := validKey_chars h
  exact strip_eq_self.mpr ⟨fun c hc => (keyRest_inner (hchars c (List.mem_of_mem_head? hc))).1,
    fun c hc => (keyRest_inner (hchars c (List.mem_of_mem_getLast? hc))).1⟩

/-- The line of an update is read back as its assignment. -/
theorem tsEntry_line (h : ValidKey key) (value : List Char) :
    tsEntry (key ++ '=' :: value) = some (key, strip jsSpace value) := by
  obtain ⟨hne, hchars⟩ := validKey_chars h
  have hequals : '=' ∉ key := fun hmem => (keyRest_inner (hchars _ hmem)).2.1 rfl
  have hhash : (lstrip jsSpace key).head? ≠ some '#' := fun hhead =>
    (keyRest_inner (hchars _ (lstrip_subset (List.mem_of_mem_head? hhead)))).2.2.1 rfl
  rw [tsEntry, tsLine_assignment hequals, if_neg hhash, validKey_strip h, if_pos h]

/-- The reader and the writer find the same key in a line. -/
theorem tsEntry_key (h : tsEntry raw = some (key, value)) : lineKey raw = some key := by
  unfold tsEntry tsLine at h
  unfold lineKey
  simp only at h ⊢
  split_ifs at h ⊢ with hskip
  cases hsplit : splitFirst '=' (strip jsSpace raw) with
  | none =>
    rw [hsplit] at h
    cases h
  | some s =>
    obtain ⟨rawKey, rest⟩ := s
    rw [hsplit] at h
    simp only at h
    split_ifs at h with hvalid
    simp only [Option.some.injEq, Prod.mk.injEq] at h
    rw [Option.map_some, h.1]

theorem tsEntry_of_key (hvalid : ValidKey key) (h : lineKey raw = some key) :
    ∃ value, tsEntry raw = some (key, value) := by
  unfold lineKey at h
  unfold tsEntry tsLine
  simp only at h ⊢
  split_ifs at h ⊢ with hskip
  cases hsplit : splitFirst '=' (strip jsSpace raw) with
  | none =>
    rw [hsplit] at h
    cases h
  | some s =>
    obtain ⟨rawKey, rest⟩ := s
    rw [hsplit] at h
    have hkey : strip jsSpace rawKey = key := Option.some.inj h
    simp only [hkey, if_pos hvalid]
    exact ⟨_, rfl⟩

theorem tsEntry_dropReturn (line : List Char) : tsEntry (dropReturn line) = tsEntry line := by
  simp only [tsEntry, tsLine, strip_dropReturn]

theorem lineKey_dropReturn (line : List Char) : lineKey (dropReturn line) = lineKey line := by
  simp only [lineKey, strip_dropReturn]

end Keys

/-- What the claim's caller promises of the updates, and the writer checks. -/
structure ProperUpdates (updates : Updates) : Prop where
  keys : ∀ e ∈ updates, ValidKey e.1
  once : (updates.map (·.1)).Nodup
  values : ∀ e ∈ updates, e.2.any lineEnd = false

theorem inheritedNames_proper : (inheritedNames.all fun key =>
    decide (ValidKey key) && ! (memberText key).any lineEnd) = true := by decide +kernel

theorem lookupUpdate_own (honce : (updates.map (·.1)).Nodup) {e : List Char × List Char}
    (he : e ∈ updates) : lookupUpdate updates e.1 = some e.2 := by
  have hfind : updates.find? (fun e' => e'.1 = e.1) = some e := by
    induction updates with
    | nil => cases he
    | cons e' updates ih =>
      rw [List.map_cons, List.nodup_cons] at honce
      rcases List.mem_cons.mp he with rfl | he
      · simp
      · have hne : ¬ e'.1 = e.1 := fun heq => honce.1 (heq ▸ List.mem_map_of_mem he)
        rw [List.find?_cons_of_neg (by simpa using hne)]
        exact ih honce.2 he
  rw [lookupUpdate, hfind]

theorem lookupUpdate_other (hother : ∀ e ∈ updates, e.1 ≠ key) :
    lookupUpdate updates key = if (inheritedNames.any fun n => n = key) = true then
      some (memberText key) else none := by
  have hfind : updates.find? (fun e => e.1 = key) = none := by
    rw [List.find?_eq_none]
    intro e he
    simpa using hother e he
  rw [lookupUpdate, hfind]

theorem lookupUpdate_proper (h : ProperUpdates updates)
    (hvalue : lookupUpdate updates key = some value) :
    ValidKey key ∧ value.any lineEnd = false := by
  by_cases hown : ∃ e ∈ updates, e.1 = key
  · obtain ⟨e, he, rfl⟩ := hown
    rw [lookupUpdate_own h.once he] at hvalue
    cases hvalue
    exact ⟨h.keys e he, h.values e he⟩
  · rw [lookupUpdate_other fun e he heq => hown ⟨e, he, heq⟩] at hvalue
    split_ifs at hvalue with hmember
    cases hvalue
    obtain ⟨n, hn, heq⟩ := List.any_eq_true.mp hmember
    rw [decide_eq_true_eq] at heq
    subst heq
    have hproper := List.all_eq_true.mp inheritedNames_proper n hn
    simp only [Bool.and_eq_true, decide_eq_true_eq, Bool.not_eq_true'] at hproper
    exact hproper

theorem lineUpdate_eq_some : lineUpdate updates raw = some (key, value) ↔
    lineKey raw = some key ∧ lookupUpdate updates key = some value := by
  unfold lineUpdate
  cases lineKey raw with
  | none => simp
  | some k =>
    rw [Option.bind_some]
    cases hk : lookupUpdate updates k with
    | none =>
      simp only [Option.map_none, reduceCtorEq, Option.some.injEq, false_iff, not_and]
      rintro rfl
      rw [hk]
      exact fun h => by cases h
    | some v =>
      simp only [Option.map_some, Option.some.injEq, Prod.mk.injEq]
      constructor
      · rintro ⟨rfl, rfl⟩
        exact ⟨rfl, hk⟩
      · rintro ⟨rfl, hv⟩
        rw [hk] at hv
        exact ⟨rfl, Option.some.inj hv⟩

theorem lineUpdate_dropReturn (line : List Char) :
    lineUpdate updates (dropReturn line) = lineUpdate updates line := by
  rw [lineUpdate, lineKey_dropReturn, lineUpdate]

/-- What the loop makes of the lines behind those read so far. -/
inductive Edited (updates : Updates) : List (List Char) → List (List Char) → List (List Char) →
    List (List Char) → Prop
  | done (written : List (List Char)) : Edited updates written [] written []
  | keep {written lines raw written' lines'} (h : lineUpdate updates raw = none)
      (rest : Edited updates written lines written' lines') :
      Edited updates written (raw :: lines) written' (raw :: lines')
  | drop {written lines raw key value written' lines'}
      (h : lineUpdate updates raw = some (key, value)) (again : key ∈ written)
      (rest : Edited updates written lines written' lines') :
      Edited updates written (raw :: lines) written' lines'
  | replace {written lines raw key value written' lines'}
      (h : lineUpdate updates raw = some (key, value)) (first : key ∉ written)
      (rest : Edited updates (key :: written) lines written' lines') :
      Edited updates written (raw :: lines) written' ((key ++ '=' :: value) :: lines')

variable {written' lines' : List (List Char)}

theorem any_key {keys : List (List Char)} :
    (keys.any fun k => k = key) = true ↔ key ∈ keys := by
  simp

theorem Edited.updateLines (hproper : ProperUpdates updates)
    (h : Edited updates written lines written' lines') :
    updateLines updates written lines = .ok (written', lines') := by
  induction h with
  | done written => rfl
  | keep h rest ih =>
    rw [EnvFile.updateLines, h]
    simp only [ih]
    rfl
  | drop h again rest ih =>
    rw [EnvFile.updateLines, h]
    simp only [if_pos (any_key.mpr again), ih]
  | replace h first rest ih =>
    have hvalue := (lookupUpdate_proper hproper (lineUpdate_eq_some.mp h).2).2
    have hclean : ¬ _ = true := Bool.eq_false_iff.mp hvalue
    have hnot : ¬ _ = true := fun hmem => first (any_key.mp hmem)
    rw [EnvFile.updateLines, h]
    simp only [if_neg hnot, serializeValue, if_neg hclean, Except.bind, ih]
    rfl

theorem edited_exists (updates : Updates) (lines written : List (List Char)) :
    ∃ written' lines', Edited updates written lines written' lines' := by
  induction lines generalizing written with
  | nil => exact ⟨_, _, .done written⟩
  | cons raw lines ih =>
    cases h : lineUpdate updates raw with
    | none =>
      obtain ⟨written', lines', rest⟩ := ih written
      exact ⟨_, _, .keep h rest⟩
    | some e =>
      obtain ⟨key, value⟩ := e
      by_cases hkey : key ∈ written
      · obtain ⟨written', lines', rest⟩ := ih written
        exact ⟨_, _, .drop h hkey rest⟩
      · obtain ⟨written', lines', rest⟩ := ih (key :: written)
        exact ⟨_, _, .replace h hkey rest⟩

theorem Edited.subset (h : Edited updates written lines written' lines') : written ⊆ written' := by
  induction h with
  | done written => exact List.Subset.refl _
  | keep _ _ ih => exact ih
  | drop _ _ _ ih => exact ih
  | replace _ _ _ ih => exact fun k hk => ih (List.mem_cons_of_mem _ hk)

/-- Every line is one that stayed or one of an update. -/
theorem Edited.origin (h : Edited updates written lines written' lines') :
    ∀ line ∈ lines', (line ∈ lines ∧ lineUpdate updates line = none) ∨
      ∃ key value, lookupUpdate updates key = some value ∧ line = key ++ '=' :: value := by
  induction h with
  | done written => exact fun line hline => by cases hline
  | keep h _ ih =>
    refine List.forall_mem_cons.mpr ⟨.inl ⟨List.mem_cons_self, h⟩, fun line hline => ?_⟩
    exact (ih line hline).imp_left fun ⟨hmem, hnone⟩ => ⟨List.mem_cons_of_mem _ hmem, hnone⟩
  | drop _ _ _ ih =>
    intro line hline
    exact (ih line hline).imp_left fun ⟨hmem, hnone⟩ => ⟨List.mem_cons_of_mem _ hmem, hnone⟩
  | replace h _ _ ih =>
    refine List.forall_mem_cons.mpr
      ⟨.inr ⟨_, _, (lineUpdate_eq_some.mp h).2, rfl⟩, fun line hline => ?_⟩
    exact (ih line hline).imp_left fun ⟨hmem, hnone⟩ => ⟨List.mem_cons_of_mem _ hmem, hnone⟩

theorem Edited.stays (h : Edited updates written lines written' lines') :
    ∀ line ∈ lines, lineUpdate updates line = none → line ∈ lines' := by
  induction h with
  | done written => exact fun line hline => by cases hline
  | keep h _ ih =>
    refine List.forall_mem_cons.mpr ⟨fun _ => List.mem_cons_self, fun line hline hnone => ?_⟩
    exact List.mem_cons_of_mem _ (ih line hline hnone)
  | drop h _ _ ih =>
    refine List.forall_mem_cons.mpr ⟨fun hnone => ?_, ih⟩
    rw [h] at hnone
    cases hnone
  | replace h _ _ ih =>
    refine List.forall_mem_cons.mpr ⟨fun hnone => ?_, fun line hline hnone => ?_⟩
    · rw [h] at hnone
      cases hnone
    · exact List.mem_cons_of_mem _ (ih line hline hnone)

section Values

/-- The values that lines assign to a key. -/
def valuesIn (lines : List (List Char)) (key : List Char) : List (List Char) :=
  ((lines.filterMap tsEntry).filter fun e => e.1 = key).map (·.2)

theorem valuesIn_none (h : tsEntry raw = none) (lines : List (List Char)) (key : List Char) :
    valuesIn (raw :: lines) key = valuesIn lines key := by
  rw [valuesIn, List.filterMap_cons_none h, valuesIn]

theorem valuesIn_self (h : tsEntry raw = some (key, value)) (lines : List (List Char)) :
    valuesIn (raw :: lines) key = value :: valuesIn lines key := by
  rw [valuesIn, List.filterMap_cons_some h, List.filter_cons_of_pos (by simp), List.map_cons,
    valuesIn]

theorem valuesIn_other {k : List Char} (h : tsEntry raw = some (k, value)) (hk : k ≠ key)
    (lines : List (List Char)) : valuesIn (raw :: lines) key = valuesIn lines key := by
  rw [valuesIn, List.filterMap_cons_some h, List.filter_cons_of_neg (by simpa using hk), valuesIn]

theorem valuesIn_append (before after : List (List Char)) (key : List Char) :
    valuesIn (before ++ after) key = valuesIn before key ++ valuesIn after key := by
  simp [valuesIn]

theorem keptLines_filterMap {β : Type} {f : List Char → Option β} (hf : f [] = none)
    (lines : List (List Char)) : (keptLines lines).filterMap f = lines.filterMap f := by
  have hstrip : (rstrip emptyLine lines).filterMap f = lines.filterMap f := by
    induction lines using List.reverseRecOn with
    | nil => rfl
    | append_singleton lines line ih =>
      by_cases hline : line = []
      · subst hline
        rw [rstrip_snoc (by rfl), ih, List.filterMap_append, List.filterMap_cons_none hf]
        simp
      · rw [rstrip_snoc_neg (by simpa [emptyLine] using hline)]
  unfold keptLines
  split_ifs with hnil
  · rw [← hstrip, hnil, List.filterMap_cons_none hf]
  · exact hstrip

theorem valuesIn_kept (lines : List (List Char)) (key : List Char) :
    valuesIn (keptLines lines) key = valuesIn lines key := by
  rw [valuesIn, keptLines_filterMap (by rfl), valuesIn]

theorem valuesIn_dropReturn (lines : List (List Char)) (key : List Char) :
    valuesIn (lines.map dropReturn) key = valuesIn lines key := by
  have hentry : tsEntry ∘ dropReturn = tsEntry := funext tsEntry_dropReturn
  rw [valuesIn, List.filterMap_map, hentry, valuesIn]

/-- A line of an update in the file, as the reader sees it. -/
theorem tsEntry_update (h : ProperUpdates updates)
    (hline : lineUpdate updates raw = some (key, value)) : ∃ old, tsEntry raw = some (key, old) := by
  obtain ⟨hkey, hlookup⟩ := lineUpdate_eq_some.mp hline
  exact tsEntry_of_key (lookupUpdate_proper h hlookup).1 hkey

/-- A key without an update is not read from a line of one, and the other way around. -/
theorem lineUpdate_none (hline : lineUpdate updates raw = none) {old : List Char}
    (hentry : tsEntry raw = some (key, old)) : lookupUpdate updates key = none := by
  rw [lineUpdate, tsEntry_key hentry, Option.bind_some, Option.map_eq_none_iff] at hline
  exact hline

theorem valuesIn_keep (hline : lineUpdate updates raw = none)
    (hkey : lookupUpdate updates key = some value) (lines : List (List Char)) :
    valuesIn (raw :: lines) key = valuesIn lines key := by
  cases hentry : tsEntry raw with
  | none => exact valuesIn_none hentry lines key
  | some e =>
    obtain ⟨k, old⟩ := e
    refine valuesIn_other hentry ?_ lines
    rintro rfl
    rw [lineUpdate_none hline hentry] at hkey
    cases hkey

/-- The lines of a key that has no update. -/
theorem Edited.values_other (hproper : ProperUpdates updates)
    (h : Edited updates written lines written' lines') (hkey : lookupUpdate updates key = none) :
    valuesIn lines' key = valuesIn lines key := by
  have hne : ∀ {raw k v}, lineUpdate updates raw = some (k, v) → k ≠ key := by
    rintro raw k v hline rfl
    rw [(lineUpdate_eq_some.mp hline).2] at hkey
    cases hkey
  induction h with
  | done written => rfl
  | @keep written lines raw written' lines' h _ ih =>
    cases hentry : tsEntry raw with
    | none => rw [valuesIn_none hentry, valuesIn_none hentry, ih]
    | some e =>
      obtain ⟨k, old⟩ := e
      by_cases hk : k = key
      · subst hk
        rw [valuesIn_self hentry, valuesIn_self hentry, ih]
      · rw [valuesIn_other hentry hk, valuesIn_other hentry hk, ih]
  | drop h _ _ ih =>
    obtain ⟨old, hentry⟩ := tsEntry_update hproper h
    rw [valuesIn_other hentry (hne h), ih]
  | replace h _ _ ih =>
    obtain ⟨old, hentry⟩ := tsEntry_update hproper h
    have hvalid := (lookupUpdate_proper hproper (lineUpdate_eq_some.mp h).2).1
    rw [valuesIn_other hentry (hne h), valuesIn_other (tsEntry_line hvalid _) (hne h), ih]

/-- The lines of an updated key: one, where the file had some. -/
theorem Edited.values_own (hproper : ProperUpdates updates)
    (h : Edited updates written lines written' lines')
    (hkey : lookupUpdate updates key = some value) :
    (key ∈ written' ↔ key ∈ written ∨ valuesIn lines key ≠ []) ∧
      valuesIn lines' key =
        if key ∈ written ∨ valuesIn lines key = [] then [] else [strip jsSpace value] := by
  induction h with
  | done written => simp [valuesIn]
  | @keep written lines raw written' lines' h _ ih =>
    rw [valuesIn_keep h hkey, valuesIn_keep h hkey]
    exact ih
  | @drop written lines raw k v written' lines' h again rest ih =>
    obtain ⟨old, hentry⟩ := tsEntry_update hproper h
    by_cases hk : k = key
    · subst hk
      rw [valuesIn_self hentry, ih.2, if_pos (.inl again), if_pos (.inl again)]
      exact ⟨⟨fun _ => .inl again, fun _ => rest.subset again⟩, rfl⟩
    · rw [valuesIn_other hentry hk]
      exact ih
  | @replace written lines raw k v written' lines' h first rest ih =>
    obtain ⟨old, hentry⟩ := tsEntry_update hproper h
    obtain ⟨-, hlookup⟩ := lineUpdate_eq_some.mp h
    have hline := tsEntry_line (lookupUpdate_proper hproper hlookup).1 v
    by_cases hk : k = key
    · subst hk
      rw [hlookup] at hkey
      cases hkey
      have hnone : ¬ (k ∈ written ∨ old :: valuesIn lines k = []) := by
        rintro (hmem | hnil)
        · exact first hmem
        · cases hnil
      rw [valuesIn_self hentry, valuesIn_self hline, ih.2, if_pos (.inl List.mem_cons_self),
        if_neg hnone]
      exact ⟨⟨fun _ => .inr (List.cons_ne_nil _ _), fun _ => rest.subset List.mem_cons_self⟩, rfl⟩
    · have hmem : key ∈ k :: written ↔ key ∈ written := by
        rw [List.mem_cons, or_iff_right (Ne.symm hk)]
      rw [valuesIn_other hentry hk, valuesIn_other hline hk]
      simp only [hmem] at ih
      exact ih

end Values

section NewText

/-- The line of an update. -/
def updateLine (e : List Char × List Char) : List Char := e.1 ++ '=' :: e.2

/-- The updates that no line of the file has taken. -/
def pendingOf (updates : Updates) (written : List (List Char)) : Updates :=
  updates.filter fun e => (written.any fun k => k = e.1) = false

def separators (lines : List (List Char)) : List (List Char) :=
  if lines.getLast?.any (fun last => last ≠ []) = true then [[]] else []

/-- The lines behind those of the file. -/
def addedLines (lines : List (List Char)) (pending : Updates) : List (List Char) :=
  if pending = [] then [] else separators lines ++ updateMarker :: pending.map updateLine

/-- The lines of the new text. -/
def newLines (updates : Updates) (written lines : List (List Char)) : List (List Char) :=
  lines ++ addedLines lines (pendingOf updates written)

theorem mem_pendingOf {e : List Char × List Char} :
    e ∈ pendingOf updates written ↔ e ∈ updates ∧ e.1 ∉ written := by
  simp only [pendingOf, List.mem_filter, decide_eq_true_eq, ← Bool.not_eq_true, any_key]

theorem pendingLines_ok {pending : Updates} (h : ∀ e ∈ pending, e.2.any lineEnd = false) :
    pendingLines pending = .ok (pending.map updateLine) := by
  induction pending with
  | nil => rfl
  | cons e pending ih =>
    obtain ⟨he, h⟩ := List.forall_mem_cons.mp h
    rw [pendingLines, serializeValue, if_neg (Bool.eq_false_iff.mp he), ih h]
    rfl

theorem updateEnvText_ok (hproper : ProperUpdates updates)
    (h : Edited updates [] (tsLines text) written' lines') :
    updateEnvText updates text =
      .ok (linesText (newLines updates written' lines')) := by
  have hfind : updates.find? (fun e => ¬ ValidKey e.1) = none := by
    rw [List.find?_eq_none]
    intro e he
    simpa using hproper.keys e he
  have hclean : ∀ e ∈ pendingOf updates written', e.2.any lineEnd = false :=
    fun e he => hproper.values e (mem_pendingOf.mp he).1
  have hpending : appendPending lines' (pendingOf updates written') =
      .ok (lines' ++ addedLines lines' (pendingOf updates written')) := by
    unfold appendPending addedLines
    by_cases hnone : pendingOf updates written' = []
    · rw [if_pos hnone, if_pos hnone, List.append_nil]
    · rw [if_neg hnone, if_neg hnone, pendingLines_ok hclean]
      rfl
  rw [updateEnvText, hfind]
  simp only [h.updateLines hproper, Except.bind]
  rw [← pendingOf, hpending]
  rfl

theorem dropReturn_inner {line : List Char} (h : ∀ c ∈ line, lineEnd c = false) :
    dropReturn line = line := by
  refine dropReturn_eq_self.mpr fun hlast => ?_
  have hreturn := h _ (List.mem_of_getLast? hlast)
  revert hreturn
  decide

theorem updateLine_inner (hkey : ValidKey key) (hvalue : value.any lineEnd = false) :
    ∀ c ∈ key ++ '=' :: value, lineEnd c = false := by
  intro c hc
  rcases List.mem_append.mp hc with hc | hc
  · exact (keyRest_inner ((validKey_chars hkey).2 c hc)).2.2.2
  · rcases List.mem_cons.mp hc with rfl | hc
    · decide
    · exact List.any_eq_false.mp hvalue c hc |> Bool.eq_false_iff.mpr

theorem added_inner (hproper : ProperUpdates updates) (lines written : List (List Char)) :
    ∀ line ∈ addedLines lines (pendingOf updates written), ∀ c ∈ line, lineEnd c = false := by
  intro line hline
  unfold addedLines at hline
  split_ifs at hline with hnone
  · cases hline
  · rcases List.mem_append.mp hline with hline | hline
    · unfold separators at hline
      split_ifs at hline
      · rw [List.mem_singleton.mp hline]
        exact fun c hc => by cases hc
      · cases hline
    · rcases List.mem_cons.mp hline with rfl | hline
      · have hmarker : updateMarker.all (fun c => ! lineEnd c) = true := by decide
        exact fun c hc => by simpa using List.all_eq_true.mp hmarker c hc
      · obtain ⟨e, he, rfl⟩ := List.mem_map.mp hline
        obtain ⟨he, -⟩ := mem_pendingOf.mp he
        exact updateLine_inner (hproper.keys e he) (hproper.values e he)

/-- The lines of an edited text hold no line end. -/
theorem edited_inner (hproper : ProperUpdates updates)
    (h : Edited updates [] (tsLines text) written' lines') :
    ∀ line ∈ newLines updates written' lines', '\n' ∉ line := by
  have hnewline : ¬ lineEnd '\n' = false := by decide
  intro line hline
  rcases List.mem_append.mp hline with hline | hline
  · rcases h.origin line hline with ⟨hmem, -⟩ | ⟨key, value, hlookup, rfl⟩
    · exact tsLinesFrom_inner [] text List.not_mem_nil line hmem
    · obtain ⟨hkey, hvalue⟩ := lookupUpdate_proper hproper hlookup
      exact fun hmem => hnewline (updateLine_inner hkey hvalue _ hmem)
  · exact fun hmem => hnewline (added_inner hproper _ _ line hline _ hmem)

theorem valuesIn_not_pending {pending : Updates} (hkeys : ∀ e ∈ pending, ValidKey e.1)
    (hkey : ∀ e ∈ pending, e.1 ≠ key) : valuesIn (pending.map updateLine) key = [] := by
  induction pending with
  | nil => rfl
  | cons e pending ih =>
    obtain ⟨hvalid, hkeys⟩ := List.forall_mem_cons.mp hkeys
    obtain ⟨hne, hkey⟩ := List.forall_mem_cons.mp hkey
    rw [List.map_cons, updateLine, valuesIn_other (tsEntry_line hvalid _) hne]
    exact ih hkeys hkey

theorem valuesIn_pending {pending : Updates} (hkeys : ∀ e ∈ pending, ValidKey e.1)
    (honce : (pending.map (·.1)).Nodup) {e : List Char × List Char} (he : e ∈ pending) :
    valuesIn (pending.map updateLine) e.1 = [strip jsSpace e.2] := by
  induction pending with
  | nil => cases he
  | cons e' pending ih =>
    obtain ⟨hvalid, hrest⟩ := List.forall_mem_cons.mp hkeys
    rw [List.map_cons, List.nodup_cons] at honce
    have hne : ∀ e ∈ pending, e.1 ≠ e'.1 := fun e he heq =>
      honce.1 (heq ▸ List.mem_map_of_mem he)
    rw [List.map_cons, updateLine]
    rcases List.mem_cons.mp he with rfl | he
    · rw [valuesIn_self (tsEntry_line hvalid _), valuesIn_not_pending hrest hne]
    · rw [valuesIn_other (tsEntry_line hvalid _) (Ne.symm (hne e he))]
      exact ih hrest honce.2 he

theorem valuesIn_added (lines : List (List Char)) (pending : Updates) (key : List Char) :
    valuesIn (addedLines lines pending) key = valuesIn (pending.map updateLine) key := by
  have hmarker : tsEntry updateMarker = none := by decide
  have hseparators : valuesIn (separators lines) key = [] := by
    unfold separators
    split_ifs <;> rfl
  unfold addedLines
  split_ifs with hnone
  · rw [hnone]
    rfl
  · rw [valuesIn_append, valuesIn_none hmarker, hseparators, List.nil_append]

theorem newLines_own (hproper : ProperUpdates updates)
    (h : Edited updates [] lines written' lines') {e : List Char × List Char}
    (he : e ∈ updates) : valuesIn (newLines updates written' lines') e.1 = [strip jsSpace e.2] := by
  obtain ⟨hmem, hvalues⟩ := h.values_own hproper (lookupUpdate_own hproper.once he)
  have hkeys : ∀ e ∈ pendingOf updates written', ValidKey e.1 :=
    fun e he => hproper.keys e (mem_pendingOf.mp he).1
  rw [newLines, valuesIn_append, valuesIn_added, hvalues]
  by_cases hwritten : e.1 ∈ written'
  · have hfound := (hmem.mp hwritten).resolve_left List.not_mem_nil
    have hnone : ¬ (e.1 ∈ [] ∨ valuesIn lines e.1 = []) := by
      rintro (hnil | hnil)
      · cases hnil
      · exact hfound hnil
    rw [if_neg hnone, valuesIn_not_pending hkeys, List.append_nil]
    rintro e' he' heq
    exact (mem_pendingOf.mp he').2 (heq ▸ hwritten)
  · have hnone : valuesIn lines e.1 = [] := by
      by_contra hfound
      exact hwritten (hmem.mpr (.inr hfound))
    have honce : ((pendingOf updates written').map (·.1)).Nodup :=
      hproper.once.sublist (List.filter_sublist.map _)
    rw [if_pos (.inr hnone), valuesIn_pending hkeys honce (mem_pendingOf.mpr ⟨he, hwritten⟩),
      List.nil_append]

/-- A key that is not updated, unless `in` finds it. -/
theorem newLines_other (hproper : ProperUpdates updates)
    (h : Edited updates [] lines written' lines') (hkey : ∀ e ∈ updates, e.1 ≠ key) :
    valuesIn (newLines updates written' lines') key =
      if (inheritedNames.any fun n => n = key) = true ∧ valuesIn lines key ≠ [] then
        [strip jsSpace (memberText key)]
      else valuesIn lines key := by
  have hkeys : ∀ e ∈ pendingOf updates written', ValidKey e.1 :=
    fun e he => hproper.keys e (mem_pendingOf.mp he).1
  have hlookup := lookupUpdate_other hkey
  rw [newLines, valuesIn_append, valuesIn_added,
    valuesIn_not_pending hkeys fun e he => hkey e (mem_pendingOf.mp he).1, List.append_nil]
  by_cases hmember : (inheritedNames.any fun n => n = key) = true
  · rw [if_pos hmember] at hlookup
    rw [(h.values_own hproper hlookup).2]
    by_cases hnone : valuesIn lines key = []
    · rw [if_pos (.inr hnone), if_neg fun hfound => hfound.2 hnone, hnone]
    · have hfound : (inheritedNames.any fun n => n = key) = true ∧ valuesIn lines key ≠ [] :=
        ⟨hmember, hnone⟩
      have hfirst : ¬ (key ∈ [] ∨ valuesIn lines key = []) := by
        rintro (hnil | hnil)
        · cases hnil
        · exact hnone hnil
      rw [if_pos hfound, if_neg hfirst]
  · rw [if_neg hmember] at hlookup
    rw [h.values_other hproper hlookup, if_neg fun hfound => hmember hfound.1]

theorem newLines_length (hproper : ProperUpdates updates)
    (h : Edited updates [] lines written' lines')
    (hlookup : lookupUpdate updates key = some value) :
    valuesIn (newLines updates written' lines') key = [] ∨
      (valuesIn (newLines updates written' lines') key).length = 1 := by
  by_cases hown : ∃ e ∈ updates, e.1 = key
  · obtain ⟨e, he, rfl⟩ := hown
    rw [newLines_own hproper h he]
    exact .inr rfl
  · have hother : ∀ e ∈ updates, e.1 ≠ key := fun e he heq => hown ⟨e, he, heq⟩
    rw [lookupUpdate_other hother] at hlookup
    split_ifs at hlookup with hmember
    rw [newLines_other hproper h hother]
    by_cases hnone : valuesIn lines key = []
    · rw [if_neg fun hfound => hfound.2 hnone]
      exact .inl hnone
    · rw [if_pos ⟨hmember, hnone⟩]
      exact .inr rfl

theorem dropReturn_update (hproper : ProperUpdates updates) {line : List Char}
    (hline : ∃ key value, lookupUpdate updates key = some value ∧ line = key ++ '=' :: value) :
    dropReturn line = line := by
  obtain ⟨key, value, hlookup, rfl⟩ := hline
  obtain ⟨hkey, hvalue⟩ := lookupUpdate_proper hproper hlookup
  exact dropReturn_inner (updateLine_inner hkey hvalue)

theorem lineUpdate_line (hproper : ProperUpdates updates)
    (hlookup : lookupUpdate updates key = some value) :
    lineUpdate updates (key ++ '=' :: value) = some (key, value) :=
  lineUpdate_eq_some.mpr
    ⟨tsEntry_key (tsEntry_line (lookupUpdate_proper hproper hlookup).1 value), hlookup⟩

theorem lineUpdate_added (hproper : ProperUpdates updates) {line : List Char}
    (hline : line ∈ addedLines lines (pendingOf updates written)) :
    lineUpdate updates line = none ∨
      ∃ key value, lookupUpdate updates key = some value ∧ line = key ++ '=' :: value := by
  unfold addedLines at hline
  split_ifs at hline with hnone
  · cases hline
  · rcases List.mem_append.mp hline with hline | hline
    · unfold separators at hline
      split_ifs at hline
      · rw [List.mem_singleton.mp hline]
        exact .inl rfl
      · cases hline
    · rcases List.mem_cons.mp hline with rfl | hline
      · have hmarker : lineKey updateMarker = none := by decide
        rw [lineUpdate, hmarker]
        exact .inl rfl
      · obtain ⟨e, he, rfl⟩ := List.mem_map.mp hline
        exact .inr ⟨e.1, e.2, lookupUpdate_own hproper.once (mem_pendingOf.mp he).1, rfl⟩

/-- Lines of updates that are what the writer would put there stay as they are. -/
theorem edited_settled (hproper : ProperUpdates updates)
    (hline : ∀ line ∈ lines, ∀ key value, lineUpdate updates line = some (key, value) →
      line = key ++ '=' :: value)
    (honce : ∀ key value, lookupUpdate updates key = some value →
      valuesIn lines key = [] ∨ key ∉ written ∧ (valuesIn lines key).length = 1) :
    ∃ written', Edited updates written lines written' lines := by
  induction lines generalizing written with
  | nil => exact ⟨_, .done written⟩
  | cons raw lines ih =>
    obtain ⟨hraw, hline⟩ := List.forall_mem_cons.mp hline
    cases h : lineUpdate updates raw with
    | none =>
      obtain ⟨written', rest⟩ : ∃ written', Edited updates written lines written' lines := by
        refine ih hline fun key value hlookup => ?_
        rw [← valuesIn_keep h hlookup]
        exact honce key value hlookup
      exact ⟨written', .keep h rest⟩
    | some e =>
      obtain ⟨k, v⟩ := e
      obtain ⟨old, hentry⟩ := tsEntry_update hproper h
      have hfirst := honce k v (lineUpdate_eq_some.mp h).2
      rw [valuesIn_self hentry] at hfirst
      obtain ⟨hwritten, hlength⟩ := hfirst.resolve_left (List.cons_ne_nil _ _)
      have hnone : valuesIn lines k = [] := by
        rw [List.length_cons] at hlength
        exact List.length_eq_zero_iff.mp (by omega)
      obtain ⟨written', rest⟩ : ∃ written', Edited updates (k :: written) lines written' lines := by
        refine ih hline fun key value hlookup => ?_
        by_cases hk : k = key
        · exact .inl (hk ▸ hnone)
        · rw [← valuesIn_other hentry hk, List.mem_cons, or_iff_right (Ne.symm hk)]
          exact honce key value hlookup
      have hreplaced := Edited.replace h hwritten rest
      rw [← hraw k v h] at hreplaced
      exact ⟨written', hreplaced⟩

section Second

variable (hproper : ProperUpdates updates) (h : Edited updates [] (tsLines text) written' lines')

include hproper h

theorem kept_inner : ∀ line ∈ keptLines (newLines updates written' lines'), '\n' ∉ line := by
  intro line hline
  rcases mem_keptLines hline with rfl | hmem
  · exact List.not_mem_nil
  · exact edited_inner hproper h line hmem

theorem tsLines_new : tsLines (linesText (newLines updates written' lines')) =
    (keptLines (newLines updates written' lines')).map dropReturn ++ [[]] := by
  rw [linesText_ended (edited_inner hproper h), tsLines_ended (kept_inner hproper h)]

theorem assigned_new (key : List Char) :
    assigned (linesText (newLines updates written' lines')) key =
      valuesIn (newLines updates written' lines') key := by
  have hnil : valuesIn [[]] key = [] := rfl
  change valuesIn (tsLines _) key = _
  rw [tsLines_new hproper h, valuesIn_append, valuesIn_dropReturn, valuesIn_kept, hnil,
    List.append_nil]

/-- The lines of the new text are those of updates, and others. -/
theorem newLines_origin : ∀ line ∈ newLines updates written' lines',
    lineUpdate updates line = none ∨
      ∃ key value, lookupUpdate updates key = some value ∧ line = key ++ '=' :: value := by
  intro line hline
  rcases List.mem_append.mp hline with hline | hline
  · exact (h.origin line hline).imp_left fun hkept => hkept.2
  · exact lineUpdate_added hproper hline

theorem second_text : updateEnvText updates (linesText (newLines updates written' lines')) =
    .ok (linesText ((keptLines (newLines updates written' lines')).map dropReturn ++ [[]])) := by
  have hlines := tsLines_new hproper h
  have hvalues := assigned_new hproper h
  change ∀ key, valuesIn (tsLines _) key = _ at hvalues
  obtain ⟨written'', hagain⟩ : ∃ written'', Edited updates []
      (tsLines (linesText (newLines updates written' lines'))) written''
      (tsLines (linesText (newLines updates written' lines'))) := by
    refine edited_settled hproper ?_ fun key value hlookup => ?_
    · intro line hline key value hupdate
      rw [hlines] at hline
      rcases List.mem_append.mp hline with hline | hline
      · obtain ⟨line, hkept, rfl⟩ := List.mem_map.mp hline
        rcases mem_keptLines hkept with rfl | hmem
        · cases hupdate
        · rw [lineUpdate_dropReturn] at hupdate
          rcases newLines_origin hproper h line hmem with hnone | hown
          · rw [hnone] at hupdate
            cases hupdate
          · rw [dropReturn_update hproper hown]
            obtain ⟨k, v, hlookup, rfl⟩ := hown
            rw [lineUpdate_line hproper hlookup] at hupdate
            cases hupdate
            rfl
      · rw [List.mem_singleton.mp hline] at hupdate
        cases hupdate
    · rw [hvalues]
      exact (newLines_length hproper h hlookup).imp_right fun hlength =>
        ⟨List.not_mem_nil, hlength⟩
  have hpending : pendingOf updates written'' = [] := by
    rw [List.eq_nil_iff_forall_not_mem]
    intro e he
    obtain ⟨he, hwritten⟩ := mem_pendingOf.mp he
    refine hwritten ((hagain.values_own hproper (lookupUpdate_own hproper.once he)).1.mpr (.inr ?_))
    rw [hvalues, newLines_own hproper h he]
    exact List.cons_ne_nil _ _
  rw [updateEnvText_ok hproper hagain, newLines, hpending, addedLines, if_pos rfl, List.append_nil, hlines]

theorem kept_return
    (hreturn : ∀ raw ∈ tsLines text, lineUpdate updates raw = none → raw.getLast? ≠ some '\r') :
    (keptLines (newLines updates written' lines')).map dropReturn =
      keptLines (newLines updates written' lines') := by
  refine (List.map_congr_left fun line hkept => ?_).trans (List.map_id _)
  rcases mem_keptLines hkept with rfl | hmem
  · rfl
  · rcases List.mem_append.mp hmem with hmem | hmem
    · rcases h.origin line hmem with ⟨hraw, hnone⟩ | hown
      · exact dropReturn_eq_self.mpr (hreturn line hraw hnone)
      · exact dropReturn_update hproper hown
    · exact dropReturn_inner (added_inner hproper _ _ line hmem)

/-- A second update changes nothing, unless a line that stays ends in a carriage return. -/
theorem second_update : updateEnvText updates (linesText (newLines updates written' lines')) =
    .ok (linesText (newLines updates written' lines')) ↔
      ∀ raw ∈ tsLines text, lineUpdate updates raw = none → raw.getLast? ≠ some '\r' := by
  have hreturned : ∀ line ∈ (keptLines (newLines updates written' lines')).map dropReturn ++ [[]],
      '\n' ∉ line := by
    intro line hline
    rcases List.mem_append.mp hline with hline | hline
    · obtain ⟨line, hkept, rfl⟩ := List.mem_map.mp hline
      have hinner := kept_inner hproper h line hkept
      unfold dropReturn
      split_ifs
      · exact fun hmem => hinner (List.dropLast_subset _ hmem)
      · exact hinner
    · rw [List.mem_singleton.mp hline]
      exact List.not_mem_nil
  rw [second_text hproper h, Except.ok.injEq, linesText_ended hreturned,
    linesText_ended (edited_inner hproper h)]
  constructor
  · intro hsame raw hraw hnone
    have hne : (keptLines (newLines updates written' lines')).map dropReturn ≠ [] := by
      rw [Ne, List.map_eq_nil_iff]
      exact keptLines_ne_nil _
    have hall := dropReturn_all (hsame ▸ keptLines_snoc_length hne)
    have hmem : raw ∈ newLines updates written' lines' :=
      List.mem_append_left _ (h.stays raw hraw hnone)
    by_cases hempty : raw = []
    · subst hempty
      exact fun hlast => by cases hlast
    · exact dropReturn_eq_self.mp (hall raw (keptLines_mem hmem hempty))
  · intro hreturn
    rw [kept_return hproper h hreturn, keptLines_snoc]

end Second

end NewText

section Others

/-- A line that assigns nothing: a comment, a blank line or one that cannot be parsed. -/
def otherLine (line : List Char) : Bool := (tsEntry line).isNone

theorem otherLine_of_entry {e : List Char × List Char} (h : tsEntry raw = some e) :
    ¬ otherLine raw = true := by
  simp [otherLine, h]

theorem Edited.others (hproper : ProperUpdates updates)
    (h : Edited updates written lines written' lines') :
    lines'.filter otherLine = lines.filter otherLine := by
  induction h with
  | done written => rfl
  | @keep written lines raw written' lines' _ _ ih =>
    by_cases hother : otherLine raw = true
    · rw [List.filter_cons_of_pos hother, List.filter_cons_of_pos hother, ih]
    · rw [List.filter_cons_of_neg hother, List.filter_cons_of_neg hother, ih]
  | drop h _ _ ih =>
    obtain ⟨old, hentry⟩ := tsEntry_update hproper h
    rw [List.filter_cons_of_neg (otherLine_of_entry hentry), ih]
  | replace h _ _ ih =>
    obtain ⟨old, hentry⟩ := tsEntry_update hproper h
    have hvalid := (lookupUpdate_proper hproper (lineUpdate_eq_some.mp h).2).1
    rw [List.filter_cons_of_neg (otherLine_of_entry hentry),
      List.filter_cons_of_neg (otherLine_of_entry (tsEntry_line hvalid _)), ih]

theorem rstrip_others (lines : List (List Char)) :
    rstrip emptyLine ((rstrip emptyLine lines).filter otherLine) =
      rstrip emptyLine (lines.filter otherLine) := by
  have hempty : emptyLine [] = true := rfl
  induction lines using List.reverseRecOn with
  | nil => rfl
  | append_singleton lines line ih =>
    by_cases hline : line = []
    · subst hline
      have hother : List.filter otherLine [[]] = [[]] := rfl
      rw [rstrip_snoc hempty, ih, List.filter_append, hother, rstrip_snoc hempty]
    · rw [rstrip_snoc_neg (by simpa [emptyLine] using hline)]

theorem keptLines_others (lines : List (List Char)) :
    rstrip emptyLine ((keptLines lines).filter otherLine) =
      rstrip emptyLine (lines.filter otherLine) := by
  unfold keptLines
  split_ifs with hnil
  · rw [← rstrip_others lines, hnil]
    rfl
  · exact rstrip_others lines

/-- The lines that assign nothing are those of the file before, with the marker behind them and
without regard to empty lines at the end. -/
def OthersKept (before after : List Char) : Prop :=
  ∃ marker, (marker = [] ∨ marker = [updateMarker] ∨ marker = [[], updateMarker]) ∧
    rstrip emptyLine ((tsLines after).filter otherLine) =
      rstrip emptyLine ((tsLines before).filter otherLine ++ marker)

theorem added_others (hproper : ProperUpdates updates) (lines written : List (List Char)) :
    ∃ marker, (marker = [] ∨ marker = [updateMarker] ∨ marker = [[], updateMarker]) ∧
      (addedLines lines (pendingOf updates written)).filter otherLine = marker := by
  have hpending : ((pendingOf updates written).map updateLine).filter otherLine = [] := by
    rw [List.filter_eq_nil_iff]
    intro line hline
    obtain ⟨e, he, rfl⟩ := List.mem_map.mp hline
    exact otherLine_of_entry (tsEntry_line (hproper.keys e (mem_pendingOf.mp he).1) _)
  have hmarker : otherLine updateMarker = true := by decide
  unfold addedLines separators
  split_ifs
  · exact ⟨_, .inl rfl, rfl⟩
  · refine ⟨[[], updateMarker], .inr (.inr rfl), ?_⟩
    rw [List.filter_append, List.filter_cons_of_pos hmarker, hpending]
    rfl
  · refine ⟨[updateMarker], .inr (.inl rfl), ?_⟩
    rw [List.nil_append, List.filter_cons_of_pos hmarker, hpending]

theorem othersKept_new (hproper : ProperUpdates updates)
    (h : Edited updates [] (tsLines text) written' lines')
    (hreturn : (keptLines (newLines updates written' lines')).map dropReturn =
      keptLines (newLines updates written' lines')) :
    OthersKept text (linesText (newLines updates written' lines')) := by
  obtain ⟨marker, hmarker, hadded⟩ := added_others hproper lines' written'
  have hempty : emptyLine [] = true := rfl
  have hother : List.filter otherLine [[]] = [[]] := rfl
  refine ⟨marker, hmarker, ?_⟩
  rw [tsLines_new hproper h, hreturn, List.filter_append, hother, rstrip_snoc hempty,
    keptLines_others, newLines, List.filter_append, h.others hproper, hadded]

end Others

/-- What is promised of the file after an update. -/
structure FaithfulEdit (updates : Updates) (before after : List Char) : Prop where
  own : ∀ e ∈ updates, (parseEnvText after).values e.1 = some e.2
  once : ∀ e ∈ updates, (assigned after e.1).length = 1
  other : ∀ key, (∀ e ∈ updates, e.1 ≠ key) →
    (parseEnvText after).values key = (parseEnvText before).values key
  lines : OthersKept before after
  again : updateEnvText updates after = .ok after

/-- A value that the reader takes as it stands. -/
def Bare (value : List Char) : Prop :=
  strip jsSpace value = value ∧ ¬ Wrapped doubleQuote value ∧ ¬ Wrapped singleQuote value

/-- When an update is a faithful edit. -/
structure EditKept (updates : Updates) (before : List Char) : Prop where
  bare : ∀ e ∈ updates, Bare e.2
  property : ∀ e ∈ updates, e.1 ≠ "__proto__".toList
  /-- The names every object has are not set to anything but what a template makes of them. -/
  member : ∀ key ∈ inheritedNames, (∀ e ∈ updates, e.1 ≠ key) →
    ∀ value, (parseEnvText before).values key = some value → value = memberText key
  /-- No line that stays ends in a carriage return. -/
  noReturn : ∀ raw ∈ tsLines before, lineUpdate updates raw = none → raw.getLast? ≠ some '\r'

theorem bare_iff (value : List Char) : unquote (strip jsSpace value) = value ↔ Bare value := by
  constructor
  · intro h
    have hunquote : (unquote (strip jsSpace value)).length ≤ (strip jsSpace value).length := by
      unfold unquote
      split_ifs
      · rw [List.length_dropLast, List.length_tail]
        omega
      · exact Nat.le_refl _
    have hstrip : strip jsSpace value = value := by
      refine (strip_sublist jsSpace value).eq_of_length_le ?_
      rw [h] at hunquote
      exact hunquote
    rw [hstrip] at h
    refine ⟨hstrip, ?_, ?_⟩
    · rintro ⟨inner, rfl⟩
      rw [unquote_wrapped (.inl rfl)] at h
      have hlength := congrArg List.length h
      simp only [List.length_cons, List.length_append, List.length_nil] at hlength
      omega
    · rintro ⟨inner, rfl⟩
      rw [unquote_wrapped (.inr rfl)] at h
      have hlength := congrArg List.length h
      simp only [List.length_cons, List.length_append, List.length_nil] at hlength
      omega
  · rintro ⟨hstrip, hdouble, hsingle⟩
    rw [hstrip, unquote_unwrapped hdouble hsingle]

theorem recordSet_proto (values : Settings) (key value : List Char) :
    recordSet values key value "__proto__".toList = values "__proto__".toList := by
  unfold recordSet
  by_cases hkey : key = "__proto__".toList
  · rw [if_pos hkey]
  · rw [if_neg hkey, Function.update_of_ne (Ne.symm hkey)]

theorem parseLines_proto (index : ℕ) (seen : List (List Char)) (v : EnvValidation)
    (lines : List (List Char)) :
    (parseLines index seen v lines).values "__proto__".toList = v.values "__proto__".toList := by
  induction lines generalizing index seen v with
  | nil => rfl
  | cons raw lines ih =>
    rw [parseLines]
    split
    · rw [ih]
    · rw [ih]
    · rw [ih]
    · simp only [ih, recordSet_proto]

/-- The reader never has a value for the prototype. -/
theorem parseEnvText_proto (text : List Char) :
    (parseEnvText text).values "__proto__".toList = none :=
  parseLines_proto 0 [] _ _

theorem memberText_bare : (inheritedNames.all fun key =>
    unquote (strip jsSpace (memberText key)) = memberText key) = true := by decide +kernel

section Faithful

variable (hproper : ProperUpdates updates) (h : Edited updates [] (tsLines text) written' lines')

include hproper h

theorem own_iff : (∀ e ∈ updates,
    (parseEnvText (linesText (newLines updates written' lines'))).values e.1 = some e.2) ↔
      (∀ e ∈ updates, Bare e.2) ∧ ∀ e ∈ updates, e.1 ≠ "__proto__".toList := by
  rw [← forall₂_and]
  refine forall₂_congr fun e he => ?_
  by_cases hproto : e.1 = "__proto__".toList
  · rw [hproto, parseEnvText_proto]
    simp
  · rw [parseEnvText_value hproto, assigned_new hproper h, newLines_own hproper h he,
      List.getLast?_singleton, Option.map_some, Option.some.injEq, bare_iff]
    exact ⟨fun hbare => ⟨hbare, hproto⟩, fun hbare => hbare.1⟩

theorem other_iff : (∀ key, (∀ e ∈ updates, e.1 ≠ key) →
    (parseEnvText (linesText (newLines updates written' lines'))).values key =
      (parseEnvText text).values key) ↔
      ∀ key ∈ inheritedNames, (∀ e ∈ updates, e.1 ≠ key) →
        ∀ value, (parseEnvText text).values key = some value → value = memberText key := by
  have hkey : ∀ key, (∀ e ∈ updates, e.1 ≠ key) →
      ((parseEnvText (linesText (newLines updates written' lines'))).values key =
        (parseEnvText text).values key ↔ (key ∈ inheritedNames →
          ∀ value, (parseEnvText text).values key = some value → value = memberText key)) := by
    intro key hother
    by_cases hproto : key = "__proto__".toList
    · subst hproto
      rw [parseEnvText_proto, parseEnvText_proto]
      exact ⟨fun _ _ _ hvalue => absurd hvalue.symm (Option.some_ne_none _), fun _ => rfl⟩
    · have hassigned : assigned text key = valuesIn (tsLines text) key := rfl
      rw [parseEnvText_value hproto, parseEnvText_value hproto, assigned_new hproper h,
        newLines_other hproper h hother, hassigned]
      by_cases hmember : key ∈ inheritedNames
      · have hbare := List.all_eq_true.mp memberText_bare key hmember
        rw [decide_eq_true_eq] at hbare
        cases hlast : (valuesIn (tsLines text) key).getLast? with
        | none =>
          rw [List.getLast?_eq_none_iff] at hlast
          simp [hlast]
        | some old =>
          have hfound : (inheritedNames.any fun n => n = key) = true ∧
              valuesIn (tsLines text) key ≠ [] := by
            refine ⟨any_key.mpr hmember, ?_⟩
            intro hnil
            rw [hnil] at hlast
            cases hlast
          rw [if_pos hfound, List.getLast?_singleton, Option.map_some, Option.map_some, hbare,
            Option.some.injEq]
          constructor
          · rintro heq _ value hvalue
            rw [heq]
            exact (Option.some.inj hvalue).symm
          · exact fun hall => (hall hmember _ rfl).symm
      · have hnone : ¬ ((inheritedNames.any fun n => n = key) = true ∧
            valuesIn (tsLines text) key ≠ []) := fun hfound => hmember (any_key.mp hfound.1)
        rw [if_neg hnone]
        exact ⟨fun _ hmem => absurd hmem hmember, fun _ => rfl⟩
  constructor
  · exact fun hall key hmember hother => (hkey key hother).mp (hall key hother) hmember
  · exact fun hall key hother => (hkey key hother).mpr fun hmember => hall key hmember hother

theorem faithfulEdit_iff :
    FaithfulEdit updates text (linesText (newLines updates written' lines')) ↔
      EditKept updates text := by
  constructor
  · intro hfaithful
    obtain ⟨hbare, hproperty⟩ := (own_iff hproper h).mp hfaithful.own
    exact ⟨hbare, hproperty, (other_iff hproper h).mp hfaithful.other,
      (second_update hproper h).mp hfaithful.again⟩
  · intro hkept
    have honce : ∀ e ∈ updates,
        (assigned (linesText (newLines updates written' lines')) e.1).length = 1 := by
      intro e he
      rw [assigned_new hproper h, newLines_own hproper h he]
      rfl
    exact ⟨(own_iff hproper h).mpr ⟨hkept.bare, hkept.property⟩, honce,
      (other_iff hproper h).mpr hkept.member,
      othersKept_new hproper h (kept_return hproper h hkept.noReturn),
      (second_update hproper h).mpr hkept.noReturn⟩

end Faithful

section Refused

theorem updateLines_clean {r : List (List Char) × List (List Char)}
    (h : updateLines updates written lines = .ok r) :
    ∀ key ∈ r.1, key ∈ written ∨
      ∃ value, lookupUpdate updates key = some value ∧ value.any lineEnd = false := by
  induction lines generalizing written r with
  | nil =>
    cases h
    exact fun key hkey => .inl hkey
  | cons raw lines ih =>
    rw [updateLines] at h
    cases hraw : lineUpdate updates raw with
    | none =>
      simp only [hraw] at h
      cases hrest : updateLines updates written lines with
      | error message =>
        rw [hrest] at h
        cases h
      | ok rest =>
        rw [hrest] at h
        cases h
        have hkeys := ih hrest
        exact hkeys
    | some e =>
      obtain ⟨k, v⟩ := e
      simp only [hraw] at h
      split_ifs at h with hagain
      · exact ih h
      · unfold serializeValue at h
        by_cases hline : v.any lineEnd = true
        · rw [if_pos hline] at h
          cases h
        · rw [if_neg hline] at h
          simp only [Except.bind] at h
          cases hrest : updateLines updates (k :: written) lines with
          | error message =>
            rw [hrest] at h
            cases h
          | ok rest =>
            rw [hrest] at h
            cases h
            intro key hkey
            rcases ih hrest key hkey with hwritten | hvalue
            · rcases List.mem_cons.mp hwritten with rfl | hwritten
              · exact .inr ⟨v, (lineUpdate_eq_some.mp hraw).2, Bool.eq_false_iff.mpr hline⟩
              · exact .inl hwritten
            · exact .inr hvalue

theorem pendingLines_refused {pending : Updates} {e : List Char × List Char} (he : e ∈ pending)
    (hvalue : e.2.any lineEnd = true) : ∃ message, pendingLines pending = .error message := by
  induction pending with
  | nil => cases he
  | cons e' pending ih =>
    rw [pendingLines]
    unfold serializeValue
    by_cases hline : e'.2.any lineEnd = true
    · rw [if_pos hline]
      exact ⟨_, rfl⟩
    · have hrest : e ∈ pending := by
        refine (List.mem_cons.mp he).resolve_left ?_
        rintro rfl
        exact hline hvalue
      obtain ⟨message, hmessage⟩ := ih hrest
      rw [if_neg hline, hmessage]
      exact ⟨message, rfl⟩

/-- An update with a bad key or a line end in its value is refused. -/
theorem updateEnvText_refused (honce : (updates.map (·.1)).Nodup) (text : List Char)
    (h : ¬ ∀ e ∈ updates, ValidKey e.1 ∧ e.2.any lineEnd = false) :
    ∃ message, updateEnvText updates text = .error message := by
  rw [updateEnvText]
  cases hfind : updates.find? fun e => ¬ ValidKey e.1 with
  | some e => exact ⟨_, rfl⟩
  | none =>
    rw [List.find?_eq_none] at hfind
    obtain ⟨e, he, hvalue⟩ : ∃ e ∈ updates, e.2.any lineEnd = true := by
      by_contra hnone
      refine h fun e he => ⟨by simpa using hfind e he, ?_⟩
      exact Bool.eq_false_iff.mpr fun hvalue => hnone ⟨e, he, hvalue⟩
    cases hlines : updateLines updates [] (tsLines text) with
    | error message => exact ⟨message, rfl⟩
    | ok r =>
      have hwritten : e.1 ∉ r.1 := by
        intro hmem
        rcases updateLines_clean hlines e.1 hmem with hnil | ⟨value, hlookup, hclean⟩
        · cases hnil
        · rw [lookupUpdate_own honce he] at hlookup
          cases hlookup
          rw [hvalue] at hclean
          cases hclean
      have hpending : e ∈ pendingOf updates r.1 := mem_pendingOf.mpr ⟨he, hwritten⟩
      obtain ⟨message, hmessage⟩ := pendingLines_refused hpending hvalue
      refine ⟨message, ?_⟩
      simp only [Except.bind]
      rw [← pendingOf, appendPending, if_neg (List.ne_nil_of_mem hpending), hmessage]
      rfl

end Refused

/-- An update of a file, or of none, is a faithful edit exactly when every updated value is read
as it stands, the prototype is not updated, the file sets no inherited name and no line that stays
ends in a carriage return; a refused update leaves the file alone. -/
theorem env_update (updates : Updates) (honce : (updates.map (·.1)).Nodup)
    (file : Option (List Char)) :
    ((∀ e ∈ updates, ValidKey e.1 ∧ e.2.any lineEnd = false) →
      ∃ after, updateEnvFile file updates = (.ok (), some after) ∧
        (FaithfulEdit updates (file.getD []) after ↔ EditKept updates (file.getD []))) ∧
    ((¬ ∀ e ∈ updates, ValidKey e.1 ∧ e.2.any lineEnd = false) →
      ∃ message, updateEnvFile file updates = (.error message, file)) := by
  constructor
  · intro hchecked
    have hproper : ProperUpdates updates :=
      ⟨fun e he => (hchecked e he).1, honce, fun e he => (hchecked e he).2⟩
    obtain ⟨written, lines, h⟩ := edited_exists updates (tsLines (file.getD [])) []
    refine ⟨_, ?_, faithfulEdit_iff hproper h⟩
    rw [updateEnvFile, updateEnvText_ok hproper h]
  · intro hrefused
    obtain ⟨message, hmessage⟩ := updateEnvText_refused honce (file.getD []) hrefused
    exact ⟨message, by rw [updateEnvFile, hmessage]⟩

/-- An update of a file with a comment and another key. -/
theorem env_update_plain : ("A".toList :: ["B".toList]).Nodup ∧
    ∃ after, updateEnvFile (some "# c\nA=1\nC=2\n".toList)
        [("A".toList, "3".toList), ("B".toList, "4".toList)] = (.ok (), some after) ∧
      (FaithfulEdit [("A".toList, "3".toList), ("B".toList, "4".toList)]
          "# c\nA=1\nC=2\n".toList after ↔
        EditKept [("A".toList, "3".toList), ("B".toList, "4".toList)]
          "# c\nA=1\nC=2\n".toList) :=
  ⟨by decide, (env_update [("A".toList, "3".toList), ("B".toList, "4".toList)] (by decide)
    (some "# c\nA=1\nC=2\n".toList)).1 (by decide)⟩

/-- A quoted value is read back without its quotes. -/
theorem env_quoted : ¬ ∀ (updates : Updates) (text after : List Char), ProperUpdates updates →
    updateEnvFile (some text) updates = (.ok (), some after) →
      FaithfulEdit updates text after := by
  intro hall
  have hproper : ProperUpdates [("K".toList, [doubleQuote, 'x', doubleQuote])] :=
    ⟨by decide, by decide, by decide⟩
  have hown := (hall _ [] ("\n# Updated by nyanya config.\nK=".toList ++
    [doubleQuote, 'x', doubleQuote, '\n']) hproper (by decide)).own _ List.mem_cons_self
  revert hown
  decide

end NyanyaAgent.Safety
