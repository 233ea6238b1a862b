import NyanyaAgent.EnvFile.Token

/-!
# One token for every service

However many services start at once, and wherever they fail: what was there before is never
touched, a new token has one writer, and all that were told of a token at a path hold the same one.
-/
namespace NyanyaAgent.Safety
open NyanyaAgent.EnvFile NyanyaAgent.Text

variable {S : TokenHost} {files₀ : TokenFiles} {w : TokenWorld} {n : ℕ} {call : TokenCall}
  {stage : TokenStage} {path : List Char}

/-- The file that a call has made and not yet written. -/
def openedAt : TokenStage → Option (List Char)
  | .made path => some path
  | _ => none

/-- What is read back as a token. -/
def ValidToken (S : TokenHost) (content : List UInt8) : Prop :=
  content.length ≤ 4096 ∧ ∃ text, S.decode content = some text ∧ strip pySpace text ≠ []

/-- What the calls have to write. -/
def tokensOf (S : TokenHost) (w : TokenWorld) : List (List UInt8) := w.calls.map (tokenBytes S)

/-- A private file of the process, with this content. -/
def HoldsToken (files : TokenFiles) (path : List Char) (content : List UInt8) : Prop :=
  ∃ mode, mode % 64 = 0 ∧ files path = some (.file content mode 1 true)

/-- What holds of the files, the calls and their answers. -/
structure TokenKept (S : TokenHost) (files₀ : TokenFiles) (w : TokenWorld) : Prop where
  old : ∀ p node, files₀ p = some node → w.files p = some node
  fresh : ∀ p node, files₀ p = none → w.files p = some node →
    node = .directory ∨ ∃ bytes ∈ tokensOf S w, ∃ k, node = .file (bytes.take k) 384 1 true
  unwritten : ∀ (m : ℕ) (c : TokenCall) p, w.calls[m]? = some c → openedAt c.stage = some p →
    files₀ p = none ∧ w.files p = some newToken ∧ ∀ a ∈ w.answers, a.path ≠ p
  alone : ∀ (m m' : ℕ) (c c' : TokenCall) p, w.calls[m]? = some c → w.calls[m']? = some c' →
    openedAt c.stage = some p → openedAt c'.stage = some p → m = m'
  held : ∀ a ∈ w.answers, HoldsToken w.files a.path a.content
  made : ∀ a ∈ w.answers, a.created = true → files₀ a.path = none ∧ a.content ∈ tokensOf S w
  read : ∀ a ∈ w.answers, a.created = false → ValidToken S a.content
  first : w.answers.Pairwise fun a b => a.path = b.path → b.created = false

/-- The world after a call has moved on. -/
def movedOn (w : TokenWorld) (n : ℕ) (call : TokenCall) (stage : TokenStage)
    (files : TokenFiles) : TokenWorld :=
  { w with files, calls := w.calls.set n { call with stage } }

/-- A path is free for a call, if nothing is there or the call itself has made it. -/
def FreeFor (w : TokenWorld) (call : TokenCall) (path : List Char) : Prop :=
  w.files path = none ∨ openedAt call.stage = some path

theorem existingToken_ok {node : Option TokenNode} {content : List UInt8}
    (h : existingToken S node = .ok content) :
    ∃ mode, mode % 64 = 0 ∧ node = some (.file content mode 1 true) ∧ ValidToken S content := by
  unfold existingToken at h
  split at h
  · cases h
  · cases h
  · cases h
  · cases h
  · cases h
  · rename_i bytes mode links mine
    split_ifs at h with hlinks hprivate hlength
    cases hdecode : S.decode bytes with
    | none => simp [hdecode] at h
    | some text =>
      simp only [hdecode] at h
      split_ifs at h with hblank
      obtain rfl : bytes = content := by simpa using h
      have hmine : mine = true ∧ mode % 64 = 0 := by simpa using hprivate
      refine ⟨mode, hmine.2, ?_, by omega, text, hdecode, hblank⟩
      rw [not_not.mp hlinks, hmine.1]

theorem validToken_ne_nil {content : List UInt8} (h : ValidToken S content) : content ≠ [] := by
  rintro rfl
  obtain ⟨_, text, htext, hblank⟩ := h
  rw [S.decode_nil] at htext
  obtain rfl := Option.some.inj htext
  exact hblank rfl

/-- A call does not change what it has to write. -/
theorem tokensOf_movedOn (hcall : w.calls[n]? = some call) (files : TokenFiles) :
    tokensOf S (movedOn w n call stage files) = tokensOf S w := by
  apply List.ext_getElem?
  intro m
  simp only [tokensOf, movedOn, List.getElem?_map, List.getElem?_set]
  split_ifs with hmn hlt
  · rw [← hmn, hcall]
    rfl
  · rw [List.getElem?_eq_none (by omega)]
  · rfl

/-- A call that has a file open is the one that moved, or had it open before. -/
theorem opened_movedOn {files : TokenFiles} {m : ℕ} {c : TokenCall} {p : List Char}
    (hm : (movedOn w n call stage files).calls[m]? = some c) (hp : openedAt c.stage = some p) :
    m = n ∧ openedAt stage = some p ∨ m ≠ n ∧ w.calls[m]? = some c := by
  simp only [movedOn, List.getElem?_set] at hm
  split_ifs at hm with hmn
  · obtain rfl := Option.some.inj hm
    exact .inl ⟨hmn.symm, hp⟩
  · exact .inr ⟨Ne.symm hmn, hm⟩

namespace TokenKept

theorem fresh_of_free (h : TokenKept S files₀ w) (hcall : w.calls[n]? = some call)
    (hfree : FreeFor w call path) : files₀ path = none := by
  rcases hfree with hnone | hopen
  · cases hold : files₀ path with
    | none => rfl
    | some node => simp [h.old path node hold] at hnone
  · exact (h.unwritten n call path hcall hopen).1

theorem answer_ne (h : TokenKept S files₀ w) (hcall : w.calls[n]? = some call)
    (hfree : FreeFor w call path) {a : TokenAnswer} (ha : a ∈ w.answers) : a.path ≠ path := by
  rcases hfree with hnone | hopen
  · rintro rfl
    obtain ⟨mode, _, hfile⟩ := h.held a ha
    simp [hfile] at hnone
  · exact (h.unwritten n call path hcall hopen).2.2 a ha

/-- No other call has a free path open. -/
theorem opened_ne (h : TokenKept S files₀ w) (hcall : w.calls[n]? = some call)
    (hfree : FreeFor w call path) {m : ℕ} {c : TokenCall} {p : List Char} (hmn : m ≠ n)
    (hm : w.calls[m]? = some c) (hp : openedAt c.stage = some p) : p ≠ path := by
  rintro rfl
  rcases hfree with hnone | hopen
  · simp [(h.unwritten m c p hm hp).2.1] at hnone
  · exact hmn (h.alone m n c call p hm hcall hp hopen)

theorem quiet (h : TokenKept S files₀ w) (hcall : w.calls[n]? = some call)
    (hstage : openedAt stage = none) : TokenKept S files₀ (movedOn w n call stage w.files) := by
  have hbefore : ∀ (m : ℕ) (c : TokenCall) p, (movedOn w n call stage w.files).calls[m]? = some c →
      openedAt c.stage = some p → w.calls[m]? = some c := by
    intro m c p hm hp
    rcases opened_movedOn hm hp with ⟨_, hopen⟩ | ⟨_, hm⟩
    · simp [hstage] at hopen
    · exact hm
  refine ⟨h.old, ?_, ?_, ?_, h.held, ?_, h.read, h.first⟩
  · rw [tokensOf_movedOn hcall]
    exact h.fresh
  · intro m c p hm hp
    exact h.unwritten m c p (hbefore m c p hm hp) hp
  · intro m m' c c' p hm hm' hp hp'
    exact h.alone m m' c c' p (hbefore m c p hm hp) (hbefore m' c' p hm' hp') hp hp'
  · rw [tokensOf_movedOn hcall]
    exact h.made

/-- A call puts something at a path that is free for it. -/
theorem put (h : TokenKept S files₀ w) (hcall : w.calls[n]? = some call)
    (hfree : FreeFor w call path) {node : TokenNode}
    (hnode : node = .directory ∨ ∃ k, node = writtenToken S call k)
    (hstage : ∀ p, openedAt stage = some p → p = path ∧ node = newToken) :
    TokenKept S files₀
      (movedOn w n call stage (Function.update w.files path (some node))) := by
  have hfresh := h.fresh_of_free hcall hfree
  have hother : ∀ p, p ≠ path → Function.update w.files path (some node) p = w.files p :=
    fun p hp => Function.update_of_ne hp _ _
  refine ⟨?_, ?_, ?_, ?_, ?_, ?_, h.read, h.first⟩
  · intro p node' hp
    have hne : p ≠ path := by
      rintro rfl
      simp [hfresh] at hp
    exact (hother p hne).trans (h.old p node' hp)
  · rw [tokensOf_movedOn hcall]
    intro p node' hp hfile
    by_cases hpath : p = path
    · subst hpath
      obtain rfl : node = node' := by simpa [movedOn] using hfile
      rcases hnode with hdir | ⟨k, hk⟩
      · exact .inl hdir
      · exact .inr ⟨tokenBytes S call, List.mem_map_of_mem (List.mem_of_getElem? hcall), k, hk⟩
    · exact h.fresh p node' hp ((hother p hpath).symm.trans hfile)
  · intro m c p hm hp
    rcases opened_movedOn hm hp with ⟨_, hopen⟩ | ⟨hmn, hm⟩
    · obtain ⟨rfl, rfl⟩ := hstage p hopen
      exact ⟨hfresh, Function.update_self .., fun a ha => h.answer_ne hcall hfree ha⟩
    · obtain ⟨hnone, hfile, hanswers⟩ := h.unwritten m c p hm hp
      have hne := h.opened_ne hcall hfree hmn hm hp
      exact ⟨hnone, (hother p hne).trans hfile, hanswers⟩
  · intro m m' c c' p hm hm' hp hp'
    rcases opened_movedOn hm hp with ⟨hmn, hopen⟩ | ⟨hmn, hc⟩
    · rcases opened_movedOn hm' hp' with ⟨hmn', _⟩ | ⟨hmn', hc'⟩
      · exact hmn.trans hmn'.symm
      · exact absurd (hstage p hopen).1 (h.opened_ne hcall hfree hmn' hc' hp')
    · rcases opened_movedOn hm' hp' with ⟨_, hopen⟩ | ⟨hmn', hc'⟩
      · exact absurd (hstage p hopen).1 (h.opened_ne hcall hfree hmn hc hp)
      · exact h.alone m m' c c' p hc hc' hp hp'
  · intro a ha
    obtain ⟨mode, hmode, hfile⟩ := h.held a ha
    exact ⟨mode, hmode, (hother a.path (h.answer_ne hcall hfree ha)).trans hfile⟩
  · rw [tokensOf_movedOn hcall]
    exact h.made

theorem answer (h : TokenKept S files₀ w) {a : TokenAnswer}
    (hheld : HoldsToken w.files a.path a.content)
    (hopen : ∀ (m : ℕ) (c : TokenCall), w.calls[m]? = some c → openedAt c.stage ≠ some a.path)
    (hmade : a.created = true → files₀ a.path = none ∧ a.content ∈ tokensOf S w)
    (hread : a.created = false → ValidToken S a.content)
    (hfirst : a.created = true → ∀ b ∈ w.answers, b.path ≠ a.path) :
    TokenKept S files₀ { w with answers := w.answers ++ [a] } := by
  refine ⟨h.old, h.fresh, ?_, h.alone, ?_, ?_, ?_, ?_⟩
  · intro m c p hm hp
    obtain ⟨hnone, hfile, hanswers⟩ := h.unwritten m c p hm hp
    refine ⟨hnone, hfile, fun b hb => ?_⟩
    rcases List.mem_append.mp hb with hb | hb
    · exact hanswers b hb
    · obtain rfl := List.mem_singleton.mp hb
      rintro rfl
      exact hopen m c hm hp
  · intro b hb
    rcases List.mem_append.mp hb with hb | hb
    · exact h.held b hb
    · obtain rfl := List.mem_singleton.mp hb
      exact hheld
  · intro b hb
    rcases List.mem_append.mp hb with hb | hb
    · exact h.made b hb
    · obtain rfl := List.mem_singleton.mp hb
      exact hmade
  · intro b hb
    rcases List.mem_append.mp hb with hb | hb
    · exact h.read b hb
    · obtain rfl := List.mem_singleton.mp hb
      exact hread
  · refine List.pairwise_append.mpr ⟨h.first, List.pairwise_singleton _ _, fun b hb c hc => ?_⟩
    obtain rfl := List.mem_singleton.mp hc
    intro hpath
    cases hcreated : c.created with
    | false => rfl
    | true => exact absurd hpath (hfirst hcreated b hb)

/-- The bytes are written, all of them or the first ones. -/
theorem write (h : TokenKept S files₀ w) (hcall : w.calls[n]? = some call)
    (hopen : call.stage = .made path) (hstage : openedAt stage = none) (k : ℕ) :
    TokenKept S files₀
      (movedOn w n call stage (Function.update w.files path (some (writtenToken S call k)))) := by
  refine h.put hcall (.inr (by rw [hopen]; rfl)) (.inr ⟨k, rfl⟩) fun p hp => ?_
  simp [hstage] at hp

theorem created (h : TokenKept S files₀ w) (hcall : w.calls[n]? = some call)
    (hopen : call.stage = .made path) :
    TokenKept S files₀
      { movedOn w n call (.returned .created) (Function.update w.files path
          (some (writtenToken S call (tokenBytes S call).length))) with
        answers := w.answers ++ [⟨path, true, tokenBytes S call⟩] } := by
  have hfree : FreeFor w call path := .inr (by rw [hopen]; rfl)
  refine (h.write hcall hopen rfl _).answer (a := ⟨path, true, tokenBytes S call⟩)
    ?_ ?_ (fun _ => ⟨?_, ?_⟩) (fun hcreated => by simp at hcreated) (fun _ => ?_)
  · exact ⟨384, rfl, by simp [movedOn, writtenToken]⟩
  · intro m c hm hp
    rcases opened_movedOn hm hp with ⟨_, hopened⟩ | ⟨hmn, hm⟩
    · simp [openedAt] at hopened
    · exact h.opened_ne hcall hfree hmn hm hp rfl
  · exact h.fresh_of_free hcall hfree
  · rw [tokensOf_movedOn hcall]
    exact List.mem_map_of_mem (List.mem_of_getElem? hcall)
  · exact fun b hb => h.answer_ne hcall hfree hb

theorem present (h : TokenKept S files₀ w) (hcall : w.calls[n]? = some call)
    {content : List UInt8} (hexisting : existingToken S (w.files path) = .ok content) :
    TokenKept S files₀
      { movedOn w n call (.returned .present) w.files with
        answers := w.answers ++ [⟨path, false, content⟩] } := by
  obtain ⟨mode, hmode, hfile, hvalid⟩ := existingToken_ok hexisting
  refine (h.quiet hcall rfl).answer (a := ⟨path, false, content⟩) ⟨mode, hmode, hfile⟩ ?_
    (fun hcreated => by simp at hcreated) (fun _ => hvalid) (fun hcreated => by simp at hcreated)
  -- a file that is open is empty, and what was read is not
  intro m c hm hp
  have hempty := ((h.quiet hcall rfl).unwritten m c path hm hp).2.1
  have hsame : TokenNode.file content mode 1 true = newToken :=
    Option.some.inj (hfile.symm.trans hempty)
  rw [newToken, TokenNode.file.injEq] at hsame
  exact validToken_ne_nil hvalid hsame.1

theorem start (h : TokenKept S files₀ w) (environ : Settings) (text token : List Char) :
    TokenKept S files₀ { w with calls := w.calls ++ [{ environ, text, token }] } := by
  have hbefore : ∀ (m : ℕ) (c : TokenCall) p, (w.calls ++ [⟨environ, text, token, .entered⟩])[m]? = some c →
      openedAt c.stage = some p → w.calls[m]? = some c := by
    intro m c p hm hp
    rw [List.getElem?_append] at hm
    split_ifs at hm with hlt
    · exact hm
    · obtain rfl := List.mem_singleton.mp (List.mem_of_getElem? hm)
      simp [openedAt] at hp
  have hmore : ∀ bytes ∈ tokensOf S w,
      bytes ∈ tokensOf S { w with calls := w.calls ++ [{ environ, text, token }] } := by
    intro bytes hbytes
    simp only [tokensOf, List.map_append, List.mem_append]
    exact .inl hbytes
  refine ⟨h.old, ?_, ?_, ?_, h.held, ?_, h.read, h.first⟩
  · intro p node hp hfile
    rcases h.fresh p node hp hfile with hdir | ⟨bytes, hbytes, hnode⟩
    · exact .inl hdir
    · exact .inr ⟨bytes, hmore bytes hbytes, hnode⟩
  · intro m c p hm hp
    exact h.unwritten m c p (hbefore m c p hm hp) hp
  · intro m m' c c' p hm hm' hp hp'
    exact h.alone m m' c c' p (hbefore m c p hm hp) (hbefore m' c' p hm' hp') hp hp'
  · intro a ha hcreated
    exact ⟨(h.made a ha hcreated).1, hmore _ (h.made a ha hcreated).2⟩

theorem openedAt_enterToken (call : TokenCall) : openedAt (enterToken S call) = none := by
  simp only [enterToken]
  split_ifs <;> rfl

theorem prepared (h : TokenKept S files₀ w) (hcall : w.calls[n]? = some call)
    (path part : List Char) (parts : List (List Char)) :
    TokenKept S files₀ (movedOn w n call (preparePart path part parts w.files).1
      (preparePart path part parts w.files).2) := by
  unfold preparePart
  split
  · rename_i hnone
    exact h.put hcall (.inl hnone) (.inl rfl) fun p hp => by simp [openedAt] at hp
  · exact h.quiet hcall rfl
  · exact h.quiet hcall rfl

theorem opened (h : TokenKept S files₀ w) (hcall : w.calls[n]? = some call)
    (path : List Char) :
    TokenKept S files₀ (movedOn w n call (createToken path w.files).1
      (createToken path w.files).2) := by
  unfold createToken
  split
  · rename_i hnone
    exact h.put hcall (.inl hnone) (.inr ⟨0, rfl⟩) fun p hp => ⟨(Option.some.inj hp).symm, rfl⟩
  · exact h.quiet hcall rfl

/-- The next call of the system keeps it. -/
theorem step (h : TokenKept S files₀ w) (n : ℕ) : TokenKept S files₀ (stepToken S w (.step n)) := by
  simp only [stepToken]
  cases hcall : w.calls[n]? with
  | none => exact h
  | some call =>
    have hsilent : ∀ {w' : TokenWorld}, TokenKept S files₀ w' →
        TokenKept S files₀ { w' with
          answers := w'.answers ++ (none : Option TokenAnswer).toList } := by
      intro w' hkept
      rw [Option.toList_none, List.append_nil]
      exact hkept
    simp only [tokenStep]
    split
    · exact hsilent (h.quiet hcall (openedAt_enterToken call))
    · exact hsilent (h.prepared hcall _ _ _)
    · exact hsilent (h.opened hcall _)
    · rename_i path _
      cases hexisting : existingToken S (w.files path) with
      | error e => exact hsilent (h.quiet hcall rfl)
      | ok content => exact h.present hcall hexisting
    · rename_i hstage
      exact h.created hcall hstage
    · exact hsilent (h.quiet hcall rfl)
    · exact hsilent (h.quiet hcall rfl)

theorem fail (h : TokenKept S files₀ w) (n written : ℕ) :
    TokenKept S files₀ (stepToken S w (.fail n written)) := by
  simp only [stepToken]
  cases hcall : w.calls[n]? with
  | none => exact h
  | some call =>
    simp only [tokenFail]
    split
    · rename_i path hstage
      exact h.write hcall hstage rfl written
    · exact h.quiet hcall rfl
    · exact h.quiet hcall rfl
    · exact h.quiet hcall rfl

theorem run (h : TokenKept S files₀ w) (actions : List TokenAction) :
    TokenKept S files₀ (actions.foldl (stepToken S) w) := by
  induction actions generalizing w with
  | nil => exact h
  | cons a actions ih =>
    apply ih
    cases a with
    | start environ text token => exact h.start environ text token
    | step n => exact h.step n
    | fail n written => exact h.fail n written

theorem init (S : TokenHost) (files : TokenFiles) : TokenKept S files { files } := by
  constructor <;> simp_all

end TokenKept

theorem answers_run (w : TokenWorld) (actions : List TokenAction) :
    w.answers <+: (actions.foldl (stepToken S) w).answers := by
  induction actions generalizing w with
  | nil => exact List.prefix_rfl
  | cons a actions ih =>
    have hstep : w.answers <+: (stepToken S w a).answers := by
      cases a with
      | start => exact List.prefix_rfl
      | step n =>
        simp only [stepToken]
        cases w.calls[n]? with
        | none => exact List.prefix_rfl
        | some call => exact List.prefix_append _ _
      | fail n written =>
        simp only [stepToken]
        cases w.calls[n]? with
        | none => exact List.prefix_rfl
        | some call => exact List.prefix_rfl
    exact hstep.trans (ih _)

/-- Whatever the files were, over every run of services that make sure of a token, in any order of
their calls of the system and with failures at any of them: what was there before stays as it was;
what is new is a directory, or a private file with the first bytes of a token of one of the calls;
a file that is not yet written has one writer and no answer; only the first answer of a path says
that the token was created; and those that were told of a token at a path were told of the same one,
which the file holds from then on. -/
theorem token_kept (S : TokenHost) (files : TokenFiles) (actions later : List TokenAction) :
    let w := actions.foldl (stepToken S) { files }
    TokenKept S files w ∧
      (∀ a ∈ w.answers, ∀ b ∈ w.answers, a.path = b.path → a.content = b.content) ∧
      ∀ a ∈ w.answers, HoldsToken (later.foldl (stepToken S) w).files a.path a.content := by
  intro w
  have hkept : TokenKept S files w := (TokenKept.init S files).run actions
  refine ⟨hkept, ?_, fun a ha => ?_⟩
  · intro a ha b hb hpath
    obtain ⟨mode, _, hfile⟩ := hkept.held a ha
    obtain ⟨mode', _, hfile'⟩ := hkept.held b hb
    rw [hpath, hfile', Option.some.injEq, TokenNode.file.injEq] at hfile
    exact hfile.1.symm
  · exact (hkept.run later).held a ((answers_run w later).subset ha)

section Examples

/-- Texts of one byte a letter, and no directories. -/
def plainTokens : TokenHost where
  resolve := id
  parents _ := []
  decode bytes := some (bytes.map fun b => Char.ofNat b.toNat)
  encode text := text.map fun c => UInt8.ofNat c.toNat
  decode_nil := rfl

/-- The second service looks while the first one writes, the third one after it. -/
def threeServices : List TokenAction :=
  [.start (fun _ => none) [] ['a'], .start (fun _ => none) [] ['b'], .step 0, .step 0, .step 1,
    .step 1, .step 1, .step 0, .start (fun _ => none) [] ['c'], .step 2, .step 2, .step 2]

example : (threeServices.foldl (stepToken plainTokens) { files := fun _ => none }).calls.map
    (fun c => c.stage) = [.returned .created, .raised .invalid, .returned .present] := by
  decide +kernel

end Examples
end NyanyaAgent.Safety
