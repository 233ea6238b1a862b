import NyanyaAgent.Redaction.Scan

/-!
# Redaction twice

A redacted text has the matches it had, and so it stays as it is. So does a redacted value.
-/
namespace NyanyaAgent.Redaction
open NyanyaAgent.Text NyanyaAgent.Text.Regex NyanyaAgent.EnvFile

section Texts

variable {U : Letters} {before before' : Option Char} {text cs : List Char} {ps : List Piece}

/-- The text of a piece. -/
def Piece.source : Piece → List Char
  | .kept c => [c]
  | .hidden word dropped => word ++ dropped

theorem Scan.source (h : Scan U before text ps) : ps.flatMap Piece.source = text := by
  induction h with
  | nil => rfl
  | kept _ _ ih => rw [List.flatMap_cons, ih]; rfl
  | hidden _ _ _ ih => rw [List.flatMap_cons, ih]; rfl

theorem piecesFrom_hidden {n : ℕ} {word : List Char} {q : Place}
    (h : secretMatch U (before, text) = some (word, q)) : piecesFrom U (n + 1) (before, text) =
      .hidden word ((taken (before, text) q).drop word.length) :: piecesFrom U n q := by
  cases text with
  | nil =>
    obtain ⟨-, hword, hmatched⟩ := secretMatch_some U h
    obtain ⟨dropped, hsplit, hne, -⟩ := hmatched.dropped
    have := congrArg List.length hsplit
    have hpos := List.length_pos_of_ne_nil hne
    simp only [List.length_nil, List.length_append] at this
    omega
  | cons c cs => rw [piecesFrom, h]

/-- There is one way to scan a text. -/
theorem Scan.pieces (h : Scan U before text ps) (n : ℕ) (hn : text.length ≤ n) :
    piecesFrom U n (before, text) = ps := by
  induction h generalizing n with
  | nil => cases n <;> rfl
  | @kept before c cs ps hnone hrest ih =>
    cases n with
    | zero => exact absurd hn (Nat.not_succ_le_zero _)
    | succ n => rw [piecesFrom, hnone]; exact congrArg _ (ih n (Nat.le_of_succ_le_succ hn))
  | @hidden before word dropped behind ps hm hne hrest ih =>
    have hpos := List.length_pos_of_ne_nil hne
    simp only [List.length_append] at hn
    cases n with
    | zero => omega
    | succ n =>
      have htaken : taken (before, (word ++ dropped) ++ behind)
          ((word ++ dropped).getLast?, behind) = word ++ dropped := taken_append rfl
      rw [piecesFrom_hidden hm, htaken, List.drop_left, ih n (by omega)]

theorem shown_cons (p : Piece) :
    (p :: ps).flatMap Piece.shown = p.shown ++ ps.flatMap Piece.shown :=
  List.flatMap_cons

theorem Scan.shown_head (h : Scan U before text ps) :
    (ps.flatMap Piece.shown).head? = text.head? := by
  cases h with
  | nil => rfl
  | kept => rfl
  | hidden hm _ _ =>
    obtain ⟨c, rest, rfl, -⟩ := (secretMatch_some U hm).2.1.first
    rfl

/-- In front of what is no part of a credential, nothing matters. -/
theorem Scan.independent (h : Scan U before text ps) (hhead : text.head?.any isCredential = false) :
    Scan U before' text ps := by
  have hno : ∀ (c : Char) (cs : List Char), text = c :: cs → isLetter c = false := by
    intro c cs htext
    rw [htext] at hhead
    by_contra hl
    rw [Bool.not_eq_false] at hl
    exact absurd (isLetter_credential hl) (by simpa using hhead)
  cases h with
  | nil => exact .nil
  | @kept _ c cs ps hnone hrest =>
    refine .kept ?_ hrest
    cases hm : secretMatch U (before', c :: cs) with
    | none => rfl
    | some r =>
      obtain ⟨word, q⟩ := r
      obtain ⟨-, hword, hmatched⟩ := secretMatch_some U hm
      obtain ⟨dropped, hsplit, -, -⟩ := hmatched.dropped
      obtain ⟨d, rest, hfirst, -⟩ := hword.first
      have hd := hword.letters d (by rw [hfirst]; exact List.mem_cons_self)
      rw [hno d (rest ++ dropped ++ q.2) (by rw [hsplit, hfirst]; simp)] at hd
      exact absurd hd Bool.false_ne_true
  | hidden hm _ _ =>
    have hword := (secretMatch_some U hm).2.1
    obtain ⟨d, rest, hfirst, -⟩ := hword.first
    have hd := hword.letters d (by rw [hfirst]; exact List.mem_cons_self)
    rw [hfirst] at hno
    rw [hno _ _ rfl] at hd
    exact absurd hd Bool.false_ne_true

theorem redacted_run {after : List Char} (h : after.head?.any isCredential = false) :
    Run redacted after := by
  have hall : (redacted.all isCredential) = true := by decide +kernel
  exact ⟨by decide +kernel, fun c hc => List.all_eq_true.mp hall c hc, h⟩

theorem equals_gap (credential : List Char) : Gap ['='] credential := by
  have hgap : Gap ([] ++ '=' :: ([] ++ [])) credential :=
    .sign (fun _ hc => absurd hc List.not_mem_nil) (.inr rfl)
      (fun _ hc => absurd hc List.not_mem_nil) (.inl rfl)
  exact hgap

/-- What a match becomes is matched in the same place. -/
theorem behind_not_credential {word dropped behind : List Char}
    (hm : secretMatch U (before, (word ++ dropped) ++ behind) =
      some (word, ((word ++ dropped).getLast?, behind))) :
    behind.head?.any isCredential = false := by
  cases (secretMatch_some U hm).2.2 with
  | secret _ _ run _ => exact run.whole
  | sign _ _ _ _ whole _ => exact whole

/-- A redacted text is the text up to the end of its first word with a secret, which is one
still. -/
theorem Scan.common (h : Scan U before text ps) :
    ps.flatMap Piece.shown = text ∨ ∃ front word rest rest',
      text = front ++ (word ++ rest) ∧ ps.flatMap Piece.shown = front ++ (word ++ rest') ∧
        IsWord word ∧ ∃ o : Secret U before (ps.flatMap Piece.shown), o.start = front.length := by
  induction h with
  | nil => exact .inl rfl
  | @kept before c cs ps hnone hrest ih =>
    rcases ih with hsame | ⟨front, word, rest, rest', htext, hshown, hword, o, ho⟩
    · exact .inl (congrArg (c :: ·) hsame)
    · obtain ⟨l, hl⟩ : ∃ l : Secret U before ([c] ++ ps.flatMap Piece.shown),
          Secret.Shifted o l 1 :=
        Secret.lift before (List.cons_ne_nil c []) o
      exact .inr ⟨c :: front, word, rest, rest', congrArg (c :: ·) htext,
        congrArg (c :: ·) hshown, hword, l,
        hl.start.trans (congrArg (· + 1) ho)⟩
  | @hidden before word dropped behind ps hm hne hrest ih =>
    obtain ⟨hbefore, hword, -⟩ := secretMatch_some U hm
    have hrun : Run redacted (ps.flatMap Piece.shown) :=
      redacted_run (by rw [hrest.shown_head]; exact behind_not_credential hm)
    have hshown : (Piece.hidden word dropped :: ps).flatMap Piece.shown =
        word ++ (['='] ++ (redacted ++ ps.flatMap Piece.shown)) := by
      rw [shown_cons, Piece.shown]
      simp
    exact .inr ⟨[], word, dropped ++ behind, _, by simp, hshown, hword,
      ⟨[], word, [], ['='], redacted, ps.flatMap Piece.shown, hshown, hbefore, hword, .inl rfl,
        equals_gap _, hrun⟩, rfl⟩

/-- Where something can be read behind a word, there is a match. -/
theorem secretMatch_of_reading {word rest front back mark value : List Char} {c : Char} {q' : Place}
    (hbefore : before.any U.inWord = false) (hw : IsWord word)
    (h : Reading rest q' front c back mark value) :
    secretMatch U (before, word ++ rest) ≠ none := by
  obtain ⟨l, hlast, hlword⟩ := hw.last_inWord U
  have hhead : (word ++ rest).head?.any U.inWord = true := by
    obtain ⟨c, rest, rfl, -⟩ := hw.first
    exact hw.head_inWord U
  have hgap : rest.head?.any U.inWord = false := by
    have hc : ∀ d ∈ rest.head?, isGap d = true := by
      intro d hd
      rw [h.split] at hd
      cases hfront : front with
      | nil =>
        rw [hfront] at hd
        cases hd
        simp [isGap, h.separator]
      | cons f front =>
        have hspace := h.front f (by rw [hfront]; exact List.mem_cons_self)
        rw [hfront] at hd
        cases hd
        simp [isGap, hspace]
    cases hrest : rest.head? with
    | none => rfl
    | some d => exact isGap_inWord U (hc d hrest)
  have hmem : q' ∈ (behindWord U).ends (word.getLast?.or before, rest) := by
    refine (mem_behindWord U).mpr ⟨?_, front, c, back, mark, value, h⟩
    dsimp only
    rw [hgap, hlast]
    simp [hlword]
  unfold secretMatch
  rw [ne_eq, List.head?_eq_none_iff]
  refine List.ne_nil_of_mem (List.mem_flatMap.mpr ⟨(before, word ++ rest),
    mem_ends_look.mpr ⟨rfl, ?_⟩, List.mem_flatMap.mpr ⟨(word.getLast?.or before, rest),
      mem_ends_words.mpr ⟨word, hw, rfl, rfl⟩, List.mem_map.mpr ⟨q', hmem, rfl⟩⟩⟩)
  dsimp only
  rw [hbefore, hhead]
  rfl

/-- Behind a word, spaces and perhaps a quote, one character is a credential. -/
theorem secretMatch_of_blank {word spaces mark tail : List Char} {v : Char}
    (hbefore : before.any U.inWord = false) (hw : IsWord word) (hspaces : Spaces spaces)
    (hblank : ' ' ∈ spaces) (hmark : QuoteMark mark) (hv : ∀ c ∈ [v], isCredential c = true) :
    secretMatch U (before, word ++ (spaces ++ (mark ++ v :: tail))) ≠ none := by
  obtain ⟨front, back, hsplit⟩ := List.append_of_mem hblank
  have hmem : ∀ c, c ∈ front ∨ c ∈ back → c ∈ spaces := by
    intro c hc
    rw [hsplit, List.mem_append, List.mem_cons]
    rcases hc with hc | hc
    · exact .inl hc
    · exact .inr (.inr hc)
  have hreading : Reading (spaces ++ (mark ++ v :: tail)) (some v, tail) front ' ' back mark [v] :=
    ⟨by rw [hsplit]; simp, fun c hc => hspaces c (hmem c (.inl hc)), by decide,
      fun c hc => hspaces c (hmem c (.inr hc)), hmark, List.cons_ne_nil v [], hv, rfl⟩
  exact secretMatch_of_reading hbefore hw hreading

/-- What comes first in a match: a word, characters of a gap and one of a credential. With any text
behind these there is a match. -/
theorem secretMatch_start {word : List Char} {q : Place}
    (hm : secretMatch U (before, text) = some (word, q)) :
    ∃ gap v tail, text = word ++ (gap ++ v :: tail) ∧ (∀ c ∈ gap, isGap c = true) ∧
      ∀ tail', secretMatch U (before, word ++ (gap ++ v :: tail')) ≠ none := by
  obtain ⟨hbefore, hword, hmatched⟩ := secretMatch_some U hm
  cases hmatched with
  | @secret gap credential split hgap run last =>
    obtain ⟨v, vs, hv⟩ := List.exists_cons_of_ne_nil run.nonempty
    refine ⟨gap, v, vs ++ q.2, by rw [split, hv]; simp, hgap.chars, fun tail' => ?_⟩
    have hchar : ∀ c ∈ [v], isCredential c = true := by
      intro c hc
      rw [List.mem_singleton.mp hc]
      exact run.chars v (by rw [hv]; exact List.mem_cons_self)
    cases hgap with
    | @sign front back mark _ c hfront hc hback hmark =>
      have hsep : isSeparator c = true := by
        rcases hc with rfl | rfl <;> decide
      have hreading : Reading (front ++ c :: (back ++ mark) ++ v :: tail') (some v, tail') front c
          back mark [v] :=
        ⟨by simp, hfront, hsep, hback, hmark, List.cons_ne_nil v [], hchar, rfl⟩
      exact secretMatch_of_reading hbefore hword hreading
    | @space front mark _ hfront hspace hmark hsign =>
      rw [List.append_assoc]
      exact secretMatch_of_blank hbefore hword hfront hspace hmark hchar
  | @sign spaces c split hspaces hblank hsign whole last =>
    refine ⟨spaces, c, q.2, split, fun c hc => by simp [isGap, hspaces c hc], fun tail' => ?_⟩
    have hchar : ∀ d ∈ [c], isCredential d = true := by
      intro d hd
      rw [List.mem_singleton.mp hd]
      rcases hsign with rfl | rfl <;> decide
    have hmark : QuoteMark [] := .inl rfl
    have hmatch : secretMatch U (before, word ++ (spaces ++ ([] ++ c :: tail'))) ≠ none :=
      secretMatch_of_blank hbefore hword hspaces hblank hmark hchar
    exact hmatch

/-- Where there was no match, there is none in front of the redacted rest. -/
theorem Scan.none_shown {c : Char} (hnone : secretMatch U (before, c :: cs) = none)
    (h : Scan U (some c) cs ps) :
    secretMatch U (before, c :: ps.flatMap Piece.shown) = none := by
  rcases h.common with hsame | ⟨front, word, rest, rest', htext, hshown, hword, o, ho⟩
  · rw [hsame]
    exact hnone
  · cases hm : secretMatch U (before, c :: ps.flatMap Piece.shown) with
    | none => rfl
    | some r =>
      exfalso
      obtain ⟨word', q⟩ := r
      have hword' := (secretMatch_some U hm).2.1
      obtain ⟨gap, v, tail, hsplit, hgap, hstart⟩ := secretMatch_start hm
      obtain ⟨l, hl⟩ : ∃ l : Secret U before ([c] ++ ps.flatMap Piece.shown),
          Secret.Shifted o l 1 :=
        Secret.lift before (List.cons_ne_nil c []) o
      have hlstart : l.start = front.length + 1 := hl.start.trans (congrArg (· + 1) ho)
      -- the next word is not in the gap, for it begins with a letter, nor inside this word
      have hlen : word'.length + gap.length ≤ front.length + 1 := by
        by_contra hgt
        rw [Nat.not_le] at hgt
        rcases Nat.lt_or_ge (front.length + 1) word'.length with hin | hout
        · have hsplit' : [c] ++ ps.flatMap Piece.shown = word' ++ (gap ++ v :: tail) := hsplit
          generalize [c] ++ ps.flatMap Piece.shown = t at l hsplit' hlstart
          subst hsplit'
          exact l.not_inner hword' (by omega) (by omega)
        · obtain ⟨d, hd, hletter⟩ := l.at_word (Nat.le_refl _) l.word_pos
          obtain ⟨e, he, hat⟩ := Secret.at_middle (a := word') (m := gap) (z := v :: tail)
            (j := l.start) (by omega) (by omega)
          rw [← hsplit] at hat
          have hde : d = e := Option.some.inj (hd.symm.trans hat)
          rw [hde] at hletter
          have := hgap e he
          rw [isLetter_not_gap hletter] at this
          exact Bool.false_ne_true this
      obtain ⟨d, ds, hfirst, -⟩ := hword.first
      have htake : c :: cs =
          word' ++ (gap ++ v :: (c :: cs).drop (word'.length + gap.length + 1)) := by
        have hcommon : ∀ n, n ≤ front.length + 2 →
            (c :: cs).take n = (c :: ps.flatMap Piece.shown).take n := by
          intro n hn
          have hprefix : ∀ t : List Char, (c :: (front ++ (word ++ t))).take n =
              ((c :: front) ++ [d]).take n := by
            intro t
            have : c :: (front ++ (word ++ t)) = ((c :: front) ++ [d]) ++ (ds ++ t) := by
              rw [hfirst]
              simp
            rw [this, List.take_append_of_le_length (by simpa using hn)]
          rw [htext, hshown, hprefix, hprefix]
        have hstart' := hcommon (word'.length + gap.length + 1) (by omega)
        have hfront : (c :: ps.flatMap Piece.shown).take (word'.length + gap.length + 1) =
            (word' ++ gap) ++ [v] := by
          have : word' ++ (gap ++ v :: tail) = ((word' ++ gap) ++ [v]) ++ tail := by simp
          rw [hsplit, this, List.take_left' (by simp; omega)]
        conv_lhs => rw [← List.take_append_drop (word'.length + gap.length + 1) (c :: cs)]
        rw [hstart', hfront]
        simp
      have := hstart ((c :: cs).drop (word'.length + gap.length + 1))
      rw [← htake, hnone] at this
      exact this rfl

/-- A piece that is shown, as it is scanned again. -/
def Piece.again : Piece → Piece
  | .kept c => .kept c
  | .hidden word _ => .hidden word ('=' :: redacted)

theorem again_shown (p : Piece) : p.again.shown = p.shown := by
  cases p <;> rfl

theorem Scan.again (h : Scan U before text ps) :
    Scan U before (ps.flatMap Piece.shown) (ps.map Piece.again) := by
  induction h with
  | nil => exact .nil
  | kept hnone hrest ih => exact .kept (hrest.none_shown hnone) ih
  | @hidden before word dropped behind ps hm hne hrest ih =>
    obtain ⟨hbefore, hword, -⟩ := secretMatch_some U hm
    have hhead : (ps.flatMap Piece.shown).head?.any isCredential = false := by
      rw [hrest.shown_head]
      exact behind_not_credential hm
    have hlast : (word ++ '=' :: redacted).getLast? = redacted.getLast? := by
      have hne : redacted ≠ [] := (redacted_run hhead).nonempty
      rw [show word ++ '=' :: redacted = (word ++ ['=']) ++ redacted by simp,
        List.getLast?_append_of_ne_nil _ hne]
    have hsplit : (Piece.hidden word dropped :: ps).flatMap Piece.shown =
        (word ++ '=' :: redacted) ++ ps.flatMap Piece.shown := shown_cons _
    rw [hsplit, List.map_cons, Piece.again]
    refine .hidden ?_ (List.cons_ne_nil _ _) (ih.independent hhead)
    rw [hlast]
    have := secretMatch_of_gap U hbefore hword (equals_gap _) (redacted_run hhead)
    rw [show (word ++ '=' :: redacted) ++ ps.flatMap Piece.shown =
      word ++ (['='] ++ (redacted ++ ps.flatMap Piece.shown)) by simp]
    exact this

theorem redactText_idem (U : Letters) (text : List Char) :
    redactText U (redactText U text) = redactText U text := by
  have h : Scan U none text (pieces U text) := scan U _ none text (Nat.le_refl _)
  have hagain : pieces U (redactText U text) = (pieces U text).map Piece.again :=
    h.again.pieces _ (Nat.le_refl _)
  have hshown : Piece.shown ∘ Piece.again = Piece.shown := funext again_shown
  rw [redactText, hagain, List.flatMap_map]
  exact congrArg (fun f => (pieces U text).flatMap f) hshown

end Texts

section Values

variable (U : Letters)

/-- Every member of a secret key, at any depth, is replaced as a whole. -/
inductive Masked : Value → Prop
  | text (s : List Char) : Masked (.text s)
  | list {items : List Value} (h : ∀ v ∈ items, Masked v) : Masked (.list items)
  | tuple {items : List Value} (h : ∀ v ∈ items, Masked v) : Masked (.tuple items)
  | dict {members : List (Key × Value)}
      (secret : ∀ m ∈ members, isSecretKey U m.1.shown = true → m.2 = mask)
      (h : ∀ m ∈ members, Masked m.2) : Masked (.dict members)
  | other (shown : List Char) : Masked (.other shown)

/-- A text anywhere in a value. -/
inductive TextIn : Value → List Char → Prop
  | text (s : List Char) : TextIn (.text s) s
  | list {items : List Value} {v : Value} {s : List Char} (hv : v ∈ items) (h : TextIn v s) :
      TextIn (.list items) s
  | tuple {items : List Value} {v : Value} {s : List Char} (hv : v ∈ items) (h : TextIn v s) :
      TextIn (.tuple items) s
  | dict {members : List (Key × Value)} {m : Key × Value} {s : List Char} (hm : m ∈ members)
      (h : TextIn m.2 s) : TextIn (.dict members) s

section Dictionaries

theorem mem_assign {members : List (Key × Value)} {m m' : Key × Value}
    (h : m' ∈ assign members m) : m' ∈ members ∨ m' = m := by
  unfold assign at h
  split_ifs at h
  · obtain ⟨m₁, hm₁, rfl⟩ := List.mem_map.mp h
    split_ifs
    · exact .inr rfl
    · exact .inl hm₁
  · rcases List.mem_append.mp h with h | h
    · exact .inl h
    · exact .inr (List.mem_singleton.mp h)

theorem mem_foldl_assign {members done : List (Key × Value)} {m : Key × Value}
    (h : m ∈ members.foldl assign done) : m ∈ done ∨ m ∈ members := by
  induction members generalizing done with
  | nil => exact .inl h
  | cons m' members ih =>
    rcases ih h with hdone | hrest
    · rcases mem_assign hdone with hdone | rfl
      · exact .inl hdone
      · exact .inr List.mem_cons_self
    · exact .inr (List.mem_cons_of_mem m' hrest)

theorem mem_dictOf {members : List (Key × Value)} {m : Key × Value} (h : m ∈ dictOf members) :
    m ∈ members := by
  rcases mem_foldl_assign h with h | h
  · exact absurd h List.not_mem_nil
  · exact h

def keysOf (members : List (Key × Value)) : List Key := members.map (·.1)

theorem assign_keys (members : List (Key × Value)) (m : Key × Value) :
    keysOf (assign members m) = keysOf members ∧ m.1 ∈ keysOf members ∨
      keysOf (assign members m) = keysOf members ++ [m.1] ∧ m.1 ∉ keysOf members := by
  have hmem : members.any (fun m' => decide (m'.1 = m.1)) = true ↔ m.1 ∈ keysOf members := by
    simp [keysOf, List.any_eq_true]
  unfold assign
  split_ifs with h
  · left
    refine ⟨?_, hmem.mp h⟩
    unfold keysOf
    rw [List.map_map]
    refine List.map_congr_left fun m' _ => ?_
    rw [Function.comp_apply]
    split_ifs with hkey
    · exact hkey.symm
    · rfl
  · right
    exact ⟨List.map_append, fun hin => h (hmem.mpr hin)⟩

theorem keysOf_dictOf_nodup (members : List (Key × Value)) : (keysOf (dictOf members)).Nodup := by
  have hstep : ∀ members done : List (Key × Value), (keysOf done).Nodup →
      (keysOf (members.foldl assign done)).Nodup := by
    intro members
    induction members with
    | nil => exact fun done h => h
    | cons m members ih =>
      intro done h
      refine ih _ ?_
      rcases assign_keys done m with ⟨hkeys, -⟩ | ⟨hkeys, hnew⟩
      · rwa [hkeys]
      · rw [hkeys]
        refine List.nodup_append.mpr ⟨h, List.pairwise_singleton _ _, fun k hk k' hk' => ?_⟩
        rw [List.mem_singleton.mp hk']
        rintro rfl
        exact hnew hk
  exact hstep members [] List.nodup_nil

theorem dictOf_of_nodup {members : List (Key × Value)} (h : (keysOf members).Nodup) :
    dictOf members = members := by
  have hstep : ∀ members done : List (Key × Value), (keysOf (done ++ members)).Nodup →
      members.foldl assign done = done ++ members := by
    intro members
    induction members with
    | nil => exact fun done _ => (List.append_nil done).symm
    | cons m members ih =>
      intro done h
      have hnew : m.1 ∉ keysOf done := by
        unfold keysOf at h ⊢
        rw [List.map_append, List.map_cons] at h
        exact fun hin => (List.nodup_append.mp h).2.2 m.1 hin m.1 List.mem_cons_self rfl
      have hassign : assign done m = done ++ [m] := by
        unfold assign
        rw [if_neg]
        intro hany
        obtain ⟨m', hm', hkey⟩ := List.any_eq_true.mp hany
        rw [decide_eq_true_eq] at hkey
        exact hnew (hkey ▸ List.mem_map_of_mem hm')
      rw [List.foldl_cons, hassign, ih _ (by rwa [List.append_assoc]), List.append_assoc]
      rfl
  exact hstep members [] h

end Dictionaries

theorem redact_secret {key : List Char} (h : isSecretKey U key = true) (v : Value) :
    redact U key v = mask := by
  cases v <;> rw [redact, if_pos h]

mutual

theorem redact_masked (key : List Char) : ∀ v : Value, Masked U (redact U key v)
  | .text s => by
    rw [redact]
    split_ifs
    · exact .text _
    · exact .text _
  | .list items => by
    rw [redact]
    split_ifs
    · exact .text _
    · exact .list (redactItems_masked items)
  | .tuple items => by
    rw [redact]
    split_ifs
    · exact .text _
    · exact .list (redactItems_masked items)
  | .dict members => by
    rw [redact]
    split_ifs
    · exact .text _
    · exact .dict (fun m hm => (redactMembers_masked members m (mem_dictOf hm)).1)
        fun m hm => (redactMembers_masked members m (mem_dictOf hm)).2
  | .other shown => by
    rw [redact]
    split_ifs
    · exact .text _
    · exact .other _

theorem redactItems_masked : ∀ items : List Value, ∀ v ∈ redactItems U items, Masked U v
  | [] => fun v hv => by
    rw [redactItems] at hv
    exact absurd hv List.not_mem_nil
  | v :: items => by
    rw [redactItems]
    exact List.forall_mem_cons.mpr ⟨redact_masked [] v, redactItems_masked items⟩

theorem redactMember_masked : ∀ m : Key × Value,
    (isSecretKey U (redactMember U m).1.shown = true → (redactMember U m).2 = mask) ∧
      Masked U (redactMember U m).2
  | (k, v) => by
    rw [redactMember]
    exact ⟨fun hsecret => redact_secret U hsecret v, redact_masked k.shown v⟩

theorem redactMembers_masked : ∀ members : List (Key × Value), ∀ m ∈ redactMembers U members,
    (isSecretKey U m.1.shown = true → m.2 = mask) ∧ Masked U m.2
  | [] => fun m hm => by
    rw [redactMembers] at hm
    exact absurd hm List.not_mem_nil
  | m :: members => by
    rw [redactMembers]
    exact List.forall_mem_cons.mpr ⟨redactMember_masked m, redactMembers_masked members⟩

end

/-- A text of a redacted value is what replaces a secret, or a text of the value redacted. -/
def FromTexts (v v' : Value) : Prop :=
  ∀ t, TextIn v' t → t = redacted ∨ ∃ s, TextIn v s ∧ t = redactText U s

theorem fromTexts_mask (v : Value) : FromTexts U v mask := by
  intro t ht
  cases ht
  exact .inl rfl

mutual

theorem redact_texts (key : List Char) : ∀ v : Value, FromTexts U v (redact U key v)
  | .text s => by
    rw [redact]
    split_ifs
    · exact fromTexts_mask U _
    · intro t ht
      cases ht
      exact .inr ⟨s, .text s, rfl⟩
  | .list items => by
    rw [redact]
    split_ifs
    · exact fromTexts_mask U _
    · intro t ht
      cases ht with
      | list hv ht =>
        obtain ⟨v, hvmem, hfrom⟩ := redactItems_texts items _ hv
        exact (hfrom t ht).imp_right fun ⟨s, hs, he⟩ => ⟨s, .list hvmem hs, he⟩
  | .tuple items => by
    rw [redact]
    split_ifs
    · exact fromTexts_mask U _
    · intro t ht
      cases ht with
      | list hv ht =>
        obtain ⟨v, hvmem, hfrom⟩ := redactItems_texts items _ hv
        exact (hfrom t ht).imp_right fun ⟨s, hs, he⟩ => ⟨s, .tuple hvmem hs, he⟩
  | .dict members => by
    rw [redact]
    split_ifs
    · exact fromTexts_mask U _
    · intro t ht
      cases ht with
      | dict hm ht =>
        obtain ⟨m, hmmem, hfrom⟩ := redactMembers_texts members _ (mem_dictOf hm)
        exact (hfrom t ht).imp_right fun ⟨s, hs, he⟩ => ⟨s, .dict hmmem hs, he⟩
  | .other shown => by
    rw [redact]
    split_ifs
    · exact fromTexts_mask U _
    · intro t ht
      cases ht

theorem redactItems_texts : ∀ items : List Value, ∀ v' ∈ redactItems U items,
    ∃ v ∈ items, FromTexts U v v'
  | [] => fun v hv => by
    rw [redactItems] at hv
    exact absurd hv List.not_mem_nil
  | v :: items => by
    rw [redactItems]
    refine List.forall_mem_cons.mpr ⟨⟨v, List.mem_cons_self, redact_texts [] v⟩, fun v' hv' => ?_⟩
    obtain ⟨w, hw, hfrom⟩ := redactItems_texts items v' hv'
    exact ⟨w, List.mem_cons_of_mem v hw, hfrom⟩

theorem redactMember_texts : ∀ m : Key × Value, FromTexts U m.2 (redactMember U m).2
  | (k, v) => by
    rw [redactMember]
    exact redact_texts k.shown v

theorem redactMembers_texts : ∀ members : List (Key × Value), ∀ m' ∈ redactMembers U members,
    ∃ m ∈ members, FromTexts U m.2 m'.2
  | [] => fun m hm => by
    rw [redactMembers] at hm
    exact absurd hm List.not_mem_nil
  | m :: members => by
    rw [redactMembers]
    refine List.forall_mem_cons.mpr ⟨⟨m, List.mem_cons_self, redactMember_texts m⟩,
      fun m' hm' => ?_⟩
    obtain ⟨w, hw, hfrom⟩ := redactMembers_texts members m' hm'
    exact ⟨w, List.mem_cons_of_mem m hw, hfrom⟩

end

theorem redactMembers_same : ∀ members : List (Key × Value),
    (∀ m ∈ members, redactMember U m = m) → redactMembers U members = members
  | [], _ => by rw [redactMembers]
  | m :: members, h => by
    obtain ⟨hm, hmembers⟩ := List.forall_mem_cons.mp h
    rw [redactMembers, hm, redactMembers_same members hmembers]

mutual

theorem redact_idem (key : List Char) : ∀ v : Value, redact U key (redact U key v) = redact U key v
  | .text s => by
    by_cases hkey : isSecretKey U key = true
    · rw [redact_secret U hkey, redact_secret U hkey]
    · rw [redact, if_neg hkey, redact, if_neg hkey, redactText_idem]
  | .list items => by
    by_cases hkey : isSecretKey U key = true
    · rw [redact_secret U hkey, redact_secret U hkey]
    · rw [redact, if_neg hkey, redact, if_neg hkey, redactItems_idem items]
  | .tuple items => by
    by_cases hkey : isSecretKey U key = true
    · rw [redact_secret U hkey, redact_secret U hkey]
    · rw [redact, if_neg hkey, redact, if_neg hkey, redactItems_idem items]
  | .dict members => by
    by_cases hkey : isSecretKey U key = true
    · rw [redact_secret U hkey, redact_secret U hkey]
    · have hsame : redactMembers U (dictOf (redactMembers U members)) =
          dictOf (redactMembers U members) :=
        redactMembers_same U _ fun m hm => redactMembers_idem members m (mem_dictOf hm)
      rw [redact, if_neg hkey, redact, if_neg hkey, hsame,
        dictOf_of_nodup (keysOf_dictOf_nodup _)]
  | .other shown => by
    by_cases hkey : isSecretKey U key = true
    · rw [redact_secret U hkey, redact_secret U hkey]
    · rw [redact, if_neg hkey, redact, if_neg hkey]

theorem redactItems_idem : ∀ items : List Value,
    redactItems U (redactItems U items) = redactItems U items
  | [] => by rw [redactItems, redactItems]
  | v :: items => by
    rw [redactItems, redactItems, redact_idem [] v, redactItems_idem items]

theorem redactMember_idem : ∀ m : Key × Value,
    redactMember U (redactMember U m) = redactMember U m
  | (k, v) => by
    rw [redactMember, redactMember]
    exact congrArg (Prod.mk _) (redact_idem k.shown v)

theorem redactMembers_idem : ∀ members : List (Key × Value), ∀ m ∈ redactMembers U members,
    redactMember U m = m
  | [] => fun m hm => by
    rw [redactMembers] at hm
    exact absurd hm List.not_mem_nil
  | m :: members => by
    rw [redactMembers]
    exact List.forall_mem_cons.mpr ⟨redactMember_idem m, redactMembers_idem members⟩

end

section Places

/-- A step into a value: an item, or the member whose key has a text. -/
inductive Step
  | item (i : ℕ)
  | member (key : List Char)

/-- The member of a key; of several keys with one text the last one counts. -/
def lookup (members : List (Key × Value)) (key : List Char) : Option Value :=
  (members.reverse.find? fun m => m.1.shown = key).map (·.2)

/-- No step goes to the member of a secret key. -/
def Open (path : List Step) : Prop := ∀ k, .member k ∈ path → isSecretKey U k ≠ true

/-- The keys are texts, so that two keys of one text are one key. -/
def TextKeys (members : List (Key × Value)) : Prop := ∀ m ∈ members, m.1 = .text m.1.shown

theorem TextKeys.assign {members : List (Key × Value)} (h : TextKeys members) {m : Key × Value}
    (hm : m.1 = .text m.1.shown) : TextKeys (assign members m) := by
  intro m' hm'
  rcases mem_assign hm' with hold | rfl
  · exact h m' hold
  · exact hm

end Places

end Values
end NyanyaAgent.Redaction
