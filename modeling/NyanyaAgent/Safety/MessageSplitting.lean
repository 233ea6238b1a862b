import NyanyaAgent.Bridges.Messages

/-!
# Messages are split safely

Every text is split into chunks of the limit that join to it, but for white space at the split
points; an empty chunk comes only from a text that is blank up to its first split point.
-/
namespace NyanyaAgent.Safety
open NyanyaAgent.Text NyanyaAgent.EnvFile NyanyaAgent.Bridges

variable {limit : ℕ} {current text : List Char} {chunks : List (List Char)}

/-- White space only. -/
def Blank (cs : List Char) : Prop := ∀ c ∈ cs, pySpace c = true

theorem lastNewline_some {i : ℕ} (h : lastNewline limit current = some i) :
    i < limit ∧ i < current.length ∧ current[i]? = some '\n' := by
  have hmem := List.mem_reverse.mp (List.mem_of_find?_eq_some h)
  have hfound := List.find?_some h
  rw [List.mem_range, Nat.lt_min] at hmem
  exact ⟨hmem.1, hmem.2, of_decide_eq_true hfound⟩

theorem splitPoint_le (limit : ℕ) (current : List Char) : splitPoint limit current ≤ limit := by
  unfold splitPoint
  split
  · next i h =>
    have hi := lastNewline_some h
    split_ifs
    · exact Nat.le_refl _
    · omega
  · exact Nat.le_refl _

/-- A split at the very front is at a newline. -/
theorem splitPoint_zero (hlimit : 1 ≤ limit) (h : splitPoint limit current = 0) :
    ∃ rest, current = '\n' :: rest := by
  unfold splitPoint at h
  split at h
  · next i hi =>
    obtain ⟨_, _, hnewline⟩ := lastNewline_some hi
    split_ifs at h
    · omega
    · rw [h] at hnewline
      cases current with
      | nil => cases hnewline
      | cons c rest => exact ⟨rest, by rw [Option.some.inj hnewline]⟩
  · omega

theorem lstrip_length_le (cs : List Char) : (lstrip pySpace cs).length ≤ cs.length :=
  (lstrip_sublist cs).length_le

/-- Every turn of the loop leaves a shorter text. -/
theorem rest_lt (hlimit : 1 ≤ limit) (hlong : limit < current.length) :
    (lstrip pySpace (current.drop (splitPoint limit current))).length < current.length := by
  have hstrip := lstrip_length_le (current.drop (splitPoint limit current))
  by_cases hzero : splitPoint limit current = 0
  · obtain ⟨rest, hrest⟩ := splitPoint_zero hlimit hzero
    have hnewline : lstrip pySpace ('\n' :: rest) = lstrip pySpace rest := by
      simp [lstrip, pySpace]
    have hle := lstrip_length_le rest
    rw [hzero, List.drop_zero, hrest, hnewline, List.length_cons]
    omega
  · rw [List.length_drop] at hstrip
    omega

/-- The loop ends after at most as many turns as the text has characters, and one. -/
theorem splitLoop_ends (hlimit : 1 ≤ limit) {n : ℕ} (hn : current.length < n) :
    ∃ chunks, splitLoop limit n current = some chunks := by
  induction n generalizing current with
  | zero => exact absurd hn (Nat.not_lt_zero _)
  | succ n ih =>
    unfold splitLoop
    split_ifs with hlong
    · have hrest := rest_lt hlimit hlong
      obtain ⟨chunks, hchunks⟩ := ih (Nat.lt_of_lt_of_le hrest (Nat.le_of_lt_succ hn))
      exact ⟨_, by rw [hchunks]; rfl⟩
    · exact ⟨_, rfl⟩
    · exact ⟨_, rfl⟩

/-- The text is the chunks with white space behind each of them. -/
inductive Rejoins : List Char → List (List Char) → Prop
  | nil : Rejoins [] []
  | cons {chunk gap rest : List Char} {chunks : List (List Char)} (blank : Blank gap)
      (h : Rejoins rest chunks) : Rejoins (chunk ++ (gap ++ rest)) (chunk :: chunks)

theorem Rejoins.whole (text : List Char) : Rejoins text [text] := by
  have hnil : Blank [] := fun c hc => by cases hc
  have hwhole : Rejoins (text ++ ([] ++ [])) [text] := .cons hnil .nil
  rwa [List.append_nil, List.append_nil] at hwhole

theorem rstrip_gap (cs : List Char) : ∃ gap, Blank gap ∧ cs = rstrip pySpace cs ++ gap := by
  refine ⟨(cs.reverse.takeWhile pySpace).reverse, fun c hc => ?_, ?_⟩
  · exact mem_takeWhile (List.mem_reverse.mp hc)
  · rw [rstrip, ← List.reverse_append, List.takeWhile_append_dropWhile, List.reverse_reverse]

theorem lstrip_gap (cs : List Char) : ∃ gap, Blank gap ∧ cs = gap ++ lstrip pySpace cs :=
  ⟨cs.takeWhile pySpace, fun _ hc => mem_takeWhile hc, List.takeWhile_append_dropWhile.symm⟩

theorem splitLoop_rejoins {n : ℕ} (h : splitLoop limit n current = some chunks) :
    Rejoins current chunks ∧ ∀ chunk ∈ chunks, chunk.length ≤ limit := by
  induction n generalizing current chunks with
  | zero => cases h
  | succ n ih =>
    unfold splitLoop at h
    split_ifs at h with hlong hempty
    · obtain ⟨rest, hrest, rfl⟩ := Option.map_eq_some_iff.mp h
      obtain ⟨hjoins, hbounds⟩ := ih hrest
      obtain ⟨before, hbefore, htake⟩ := rstrip_gap (current.take (splitPoint limit current))
      obtain ⟨behind, hbehind, hdrop⟩ := lstrip_gap (current.drop (splitPoint limit current))
      constructor
      · have hgap : Blank (before ++ behind) := fun c hc =>
          (List.mem_append.mp hc).elim (hbefore c) (hbehind c)
        have hsplit : Rejoins (rstrip pySpace (current.take (splitPoint limit current)) ++
            (before ++ behind ++ lstrip pySpace (current.drop (splitPoint limit current))))
            (rstrip pySpace (current.take (splitPoint limit current)) :: rest) :=
          .cons hgap hjoins
        rw [List.append_assoc, ← hdrop, ← List.append_assoc, ← htake, List.take_append_drop] at hsplit
        exact hsplit
      · intro chunk hchunk
        rcases List.mem_cons.mp hchunk with rfl | hchunk
        · have hstrip := (rstrip_sublist (p := pySpace)
            (current.take (splitPoint limit current))).length_le
          have hpoint := splitPoint_le limit current
          rw [List.length_take] at hstrip
          omega
        · exact hbounds chunk hchunk
    · cases h
      exact ⟨by rw [hempty]; exact .nil, fun chunk hchunk => by cases hchunk⟩
    · cases h
      refine ⟨?_, fun chunk hchunk => ?_⟩
      · exact .whole current
      · rw [List.mem_singleton.mp hchunk]
        omega

/-- The other characters are those of the chunks, in their order. -/
theorem Rejoins.kept (h : Rejoins text chunks) :
    chunks.flatten.filter (fun c => ! pySpace c) = text.filter fun c => ! pySpace c := by
  induction h with
  | nil => rfl
  | @cons chunk gap rest chunks hblank _ ih =>
    have hgap : gap.filter (fun c => ! pySpace c) = [] := by
      rw [List.filter_eq_nil_iff]
      intro c hc
      rw [hblank c hc]
      decide
    rw [List.flatten_cons, List.filter_append, ih, List.filter_append, List.filter_append, hgap,
      List.nil_append]

theorem blank_rstrip {cs : List Char} : Blank (rstrip pySpace cs) ↔ Blank cs := by
  constructor
  · intro h
    obtain ⟨gap, hgap, hcs⟩ := rstrip_gap cs
    rw [hcs]
    exact fun c hc => (List.mem_append.mp hc).elim (h c) (hgap c)
  · exact fun h c hc => h c (rstrip_subset hc)

/-- A text that does not open with white space has no blank chunk. -/
theorem splitLoop_opens (hlimit : 1 ≤ limit) {n : ℕ} (h : splitLoop limit n current = some chunks)
    (hopens : ∀ c ∈ current.head?, pySpace c = false) : ∀ chunk ∈ chunks, ¬ Blank chunk := by
  induction n generalizing current chunks with
  | zero => cases h
  | succ n ih =>
    unfold splitLoop at h
    split_ifs at h with hlong hempty
    · obtain ⟨rest, hrest, rfl⟩ := Option.map_eq_some_iff.mp h
      have hrestOpens := lstrip_eq_self.mp
        (lstrip_lstrip (p := pySpace) (current.drop (splitPoint limit current)))
      intro chunk hchunk
      rcases List.mem_cons.mp hchunk with rfl | hchunk
      · intro hblank
        cases current with
        | nil => exact absurd hlong (Nat.not_lt_zero _)
        | cons c cs =>
          have hc := hopens c rfl
          obtain ⟨m, hm⟩ : ∃ m, splitPoint limit (c :: cs) = m + 1 := by
            refine Nat.exists_eq_succ_of_ne_zero fun hzero => ?_
            obtain ⟨_, hnewline⟩ := splitPoint_zero hlimit hzero
            rw [(List.cons.inj hnewline).1] at hc
            cases hc
          rw [hm, List.take_succ_cons] at hblank
          have hspace := blank_rstrip.mp hblank c List.mem_cons_self
          rw [hc] at hspace
          cases hspace
      · exact ih hrest hrestOpens chunk hchunk
    · cases h
      exact fun chunk hchunk => by cases hchunk
    · cases h
      intro chunk hchunk hblank
      rw [List.mem_singleton.mp hchunk] at hblank
      obtain ⟨c, cs, rfl⟩ := List.exists_cons_of_ne_nil hempty
      have hspace := hblank c List.mem_cons_self
      rw [hopens c rfl] at hspace
      cases hspace

/-- A text is split into chunks within the limit that join to it; none of them is blank exactly
when the text fits or is not blank up to its first split point. -/
theorem split_message (text : List Char) (hlimit : 1 ≤ limit) :
    ∃ chunks, splitMessage (text.length + 1) limit text = some chunks ∧
      (∀ chunk ∈ chunks, chunk.length ≤ limit) ∧ Rejoins text chunks ∧
      chunks.flatten.filter (fun c => ! pySpace c) = text.filter (fun c => ! pySpace c) ∧
      (¬ Blank text → ((∀ chunk ∈ chunks, ¬ Blank chunk) ↔
        text.length ≤ limit ∨ ¬ Blank (text.take (splitPoint limit text)))) := by
  unfold splitMessage
  split_ifs with hfits
  · refine ⟨[text], rfl, ?_, .whole text, (Rejoins.whole text).kept, fun htext => ?_⟩
    · intro chunk hchunk
      rw [List.mem_singleton.mp hchunk]
      exact hfits
    · simp only [List.mem_singleton, forall_eq, htext, hfits, not_false_eq_true, true_or]
  · obtain ⟨chunks, hchunks⟩ := splitLoop_ends hlimit (Nat.lt_succ_self text.length)
    obtain ⟨hjoins, hbounds⟩ := splitLoop_rejoins hchunks
    refine ⟨chunks, hchunks, hbounds, hjoins, hjoins.kept, fun _ => ?_⟩
    rw [splitLoop, if_pos (Nat.lt_of_not_le hfits)] at hchunks
    obtain ⟨rest, hrest, rfl⟩ := Option.map_eq_some_iff.mp hchunks
    have hopens := splitLoop_opens hlimit hrest
      (lstrip_eq_self.mp (lstrip_lstrip (text.drop (splitPoint limit text))))
    constructor
    · intro hall
      right
      rw [← blank_rstrip]
      exact hall _ List.mem_cons_self
    · rintro (hle | hfirst)
      · exact absurd hle hfits
      · intro chunk hchunk
        rcases List.mem_cons.mp hchunk with rfl | hchunk
        · rwa [blank_rstrip]
        · exact hopens chunk hchunk

theorem split_message_plain :
    ∃ chunks, splitMessage 8 4 "ab\ncd e".toList = some chunks ∧
      (∀ chunk ∈ chunks, chunk.length ≤ 4) ∧ Rejoins "ab\ncd e".toList chunks ∧
      chunks.flatten.filter (fun c => ! pySpace c) =
        "ab\ncd e".toList.filter (fun c => ! pySpace c) ∧
      (¬ Blank "ab\ncd e".toList → ((∀ chunk ∈ chunks, ¬ Blank chunk) ↔
        "ab\ncd e".toList.length ≤ 4 ∨
          ¬ Blank ("ab\ncd e".toList.take (splitPoint 4 "ab\ncd e".toList)))) :=
  split_message "ab\ncd e".toList (by decide)

/-- Spaces up to the limit in front of a word are a chunk that is trimmed to nothing. -/
theorem split_blank_chunk :
    splitMessage 7 4 "     x".toList = some [[], ['x']] ∧ ¬ Blank "     x".toList ∧ Blank [] := by
  refine ⟨by decide +kernel, fun h => ?_, fun c hc => by cases hc⟩
  have hx := h 'x' (by decide)
  exact absurd hx (by decide)

end NyanyaAgent.Safety
