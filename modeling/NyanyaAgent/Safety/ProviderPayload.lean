import NyanyaAgent.Worker.Prompt

/-!
# Provider payloads

A prompt that reaches a model is within its limit, with the current request and every
selected file whole.
-/
namespace NyanyaAgent.Safety
open NyanyaAgent.Schema NyanyaAgent.Text NyanyaAgent.Operations NyanyaAgent.Worker

/-- A store that was called within its limit answered with the error. -/
def Reported (stores : ContextStores) (e : Err) : Prop :=
  (∃ n, 2 ≤ n ∧ n ≤ maxHistoryBytes ∧ stores.history n = .error e) ∨
  (∃ n, 2 ≤ n ∧ n ≤ maxMemoryBytes ∧ stores.wiki n = .error e) ∨
  ∃ n ks, 2 ≤ n ∧ n ≤ maxMemoryBytes ∧ stores.work n ks = .error e

/-- What is returned is as described, the bound error is not raised, and any other error is a
store's own. -/
def Composed (stores : ContextStores) {α : Type} (P : α → Prop) : Except PromptError α → Prop
  | .ok a => P a
  | .error (.store e) => Reported stores e
  | .error (.exceedsBound _) => False

section Composed
variable {stores : ContextStores} {α β : Type} {P Q : α → Prop} {x : Except PromptError α}

theorem Composed.bind {Q : β → Prop} {f : α → Except PromptError β} (hx : Composed stores P x)
    (hf : ∀ a, P a → Composed stores Q (f a)) : Composed stores Q (x.bind f) := by
  cases x with
  | ok a => exact hf a hx
  | error e => cases e <;> exact hx

theorem Composed.mono (hx : Composed stores P x) (h : ∀ a, P a → Q a) : Composed stores Q x := by
  cases x with
  | ok a => exact h a hx
  | error e => cases e <;> exact hx

/-- Where the stores answer, there is a result. -/
theorem Composed.answered (hx : Composed stores P x) (h : ∀ e, ¬ Reported stores e) :
    ∃ a, x = .ok a ∧ P a := by
  cases x with
  | ok a => exact ⟨a, rfl, hx⟩
  | error e =>
    cases e with
    | store e => exact absurd hx (h e)
    | exceedsBound m => exact hx.elim

end Composed

/-- The text before the count, the count, and the closing brace. -/
theorem dumps_split (files : List (String × String)) : ∃ text : List Char, ∀ t,
    byteLength (DiagnosticPayload.dumps ⟨files, t⟩) =
      byteLength text + byteLength (Nat.toDigits 10 t) := by
  obtain ⟨listed, hlisted⟩ : ∃ listed, listed = dumpsField ("files", dumpsArray (files.map fun f =>
      dumpsObject [("path", renderText f.1), ("status", renderText f.2)])) := ⟨_, rfl⟩
  refine ⟨[openBrace] ++ (listed ++ [',', ' '] ++ (renderText "truncated" ++ [':', ' ']) ++
    [closeBrace]), fun t => ?_⟩
  have htext : DiagnosticPayload.dumps ⟨files, t⟩ = [openBrace] ++ (listed ++ [',', ' '] ++
      (renderText "truncated" ++ [':', ' ']) ++ Nat.toDigits 10 t ++ [closeBrace]) := by
    simp [DiagnosticPayload.dumps, dumpsObject, spaced, dumpsField, hlisted]
  rw [htext]
  simp only [byteLength_append]
  omega

theorem dumps_mono {files : List (String × String)} {s t : ℕ} (h : s ≤ t) :
    byteLength (DiagnosticPayload.dumps ⟨files, s⟩) ≤
      byteLength (DiagnosticPayload.dumps ⟨files, t⟩) := by
  obtain ⟨text, hsize⟩ := dumps_split files
  rw [hsize, hsize]
  exact Nat.add_le_add_left (toDigits_byteLength_mono h) _

/-- The payload fits with the largest count it can end with. -/
def Sized (count : ℕ) (p : DiagnosticPayload) : Prop :=
  byteLength (DiagnosticPayload.dumps ⟨p.files, count⟩) ≤ diagnosticBudget

theorem sized_nil {n : ℕ} (h : n < 2 ^ 63) : Sized n ⟨[], 0⟩ := by
  have hzero : byteLength (DiagnosticPayload.dumps ⟨[], 0⟩) ≤ 60 := by
    rw [byteLength_eq_sum]
    decide
  have hdigits : byteLength (Nat.toDigits 10 n) ≤ 19 :=
    toDigits_byteLength_le (by decide) (Nat.lt_trans h (by decide))
  obtain ⟨text, hsize⟩ := dumps_split []
  rw [hsize] at hzero
  rw [Sized, hsize, diagnosticBudget, maxPromptBytes]
  omega

theorem diagnosticStep_sized {n : ℕ} {p : DiagnosticPayload} (h : Sized n p)
    (e : DiagnosticName × String) : Sized n (diagnosticStep n p e) := by
  unfold diagnosticStep
  split
  · exact h
  · split_ifs with hfits
    · exact hfits.2
    · exact h

theorem diagnosticStep_count (n : ℕ) (p : DiagnosticPayload) (e : DiagnosticName × String) :
    (diagnosticStep n p e).files.length + (diagnosticStep n p e).truncated =
      p.files.length + p.truncated + 1 := by
  unfold diagnosticStep
  split
  · exact rfl
  · split_ifs
    · simp only [List.length_append, List.length_singleton]
      omega
    · exact rfl

theorem diagnosticSteps (n : ℕ) (entries : List (DiagnosticName × String)) {p : DiagnosticPayload}
    (h : Sized n p) : Sized n (entries.foldl (diagnosticStep n) p) ∧
      (entries.foldl (diagnosticStep n) p).files.length +
        (entries.foldl (diagnosticStep n) p).truncated =
      p.files.length + p.truncated + entries.length := by
  induction entries generalizing p with
  | nil => exact ⟨h, rfl⟩
  | cons e entries ih =>
    obtain ⟨hsized, hcount⟩ := ih (diagnosticStep_sized h e)
    refine ⟨hsized, ?_⟩
    rw [List.foldl_cons, hcount, diagnosticStep_count, List.length_cons]
    omega

theorem diagnosticPayload_count (d : Diagnostics) :
    (diagnosticPayload d).files.length + (diagnosticPayload d).truncated = d.entries.length := by
  have hcount := (diagnosticSteps d.entries.length d.entries (sized_nil d.length_lt)).2
  rw [diagnosticPayload, hcount]
  simp

theorem contextDiagnostics_le (d : Diagnostics) :
    byteLength (contextDiagnostics d) ≤ diagnosticBudget := by
  have hsized := (diagnosticSteps d.entries.length d.entries (sized_nil d.length_lt)).1
  have hcount := diagnosticPayload_count d
  have hle : (diagnosticPayload d).truncated ≤ d.entries.length := by omega
  exact Nat.le_trans (dumps_mono hle) hsized

theorem separator_byteLength : byteLength [',', ' '] = 2 := by
  rw [byteLength_eq_sum]
  decide

/-- The two orders of a file's fields are of one length. -/
theorem item_byteLength (file : CapturedFile) :
    byteLength (dumpsItem file.item) = byteLength (dumpsItem (snapshotItem file)) := by
  have hswap : ∀ (x y : List Char) (rest : List (List Char)),
      byteLength (spaced (x :: y :: rest)) = byteLength (spaced (y :: x :: rest)) := by
    intro x y rest
    cases rest with
    | nil =>
      have hxy : byteLength (spaced [x, y]) = byteLength x + (2 + byteLength y) := by
        rw [spaced_cons, spaced, byteLength_append, byteLength_append, separator_byteLength]
      have hyx : byteLength (spaced [y, x]) = byteLength y + (2 + byteLength x) := by
        rw [spaced_cons, spaced, byteLength_append, byteLength_append, separator_byteLength]
      omega
    | cons z rest =>
      simp only [spaced_cons, byteLength_append]
      omega
  simp only [dumpsItem, CapturedFile.item, snapshotItem, List.cons_append, List.nil_append,
    List.map_cons, dumpsObject]
  rw [byteLength_cons, byteLength_append, hswap, ← byteLength_append, ← byteLength_cons]

def contextOf (selected : List (String × CapturedFile)) : List (String × SnapshotFields) :=
  selected.map fun f => (f.1, snapshotItem f.2)

theorem candidate_byteLength (selected : List (String × CapturedFile))
    (file : String × CapturedFile) :
    byteLength (dumpsSnapshot (candidate selected file)) =
      byteLength (dumpsSnapshot (contextOf (selected ++ [file]))) := by
  have hitem : ∀ f : String × CapturedFile, byteLength (dumpsField (f.1, dumpsItem f.2.item)) =
      byteLength (dumpsField (f.1, dumpsItem (snapshotItem f.2))) :=
    fun f => dumpsField_byteLength (item_byteLength f.2)
  apply dumpsObject_byteLength
  simp only [candidate, contextOf, List.map_append, List.map_map, List.map_cons, List.map_nil,
    Function.comp_def, hitem]

/-- The text of a response prompt that its files, its count and its diagnostics leave open. -/
def fixedBytes (request : String) : ℕ :=
  responseContract.utf8ByteSize + historyRules.utf8ByteSize + requestMarker.utf8ByteSize +
    request.utf8ByteSize + contextStatusLabel.utf8ByteSize + contextStatusRules.utf8ByteSize +
    "\nSnapshot files omitted by payload bound: ".utf8ByteSize + omittedRules.utf8ByteSize

theorem currentPrompt_byteLength (request : String) (snapshot : List (String × SnapshotFields))
    (omitted : ℕ) (d : Diagnostics) :
    byteLength (currentPrompt responseContract request (some snapshot) omitted (some d)) =
      fixedBytes request + byteLength (contextDiagnostics d) +
        byteLength (Nat.toDigits 10 omitted) + byteLength (dumpsSnapshot snapshot) := by
  simp only [currentPrompt, snapshotText, availabilityText, byteLength_append, byteLength_toList,
    fixedBytes]
  omega

set_option maxRecDepth 30000 in
/-- Bounds on the fixed texts; their sum leaves the request and the diagnostics their room. -/
theorem text_sizes :
    responseContract.utf8ByteSize ≤ 3500 ∧ historyRules.utf8ByteSize ≤ 800 ∧
    assessmentContract.utf8ByteSize ≤ 400 ∧ contextStatusRules.utf8ByteSize ≤ 400 ∧
    omittedRules.utf8ByteSize ≤ 200 ∧ requestMarker.utf8ByteSize ≤ 20 ∧
    historyLabel.utf8ByteSize ≤ 70 ∧ contextStatusLabel.utf8ByteSize ≤ 100 ∧
    "\nSnapshot files omitted by payload bound: ".utf8ByteSize ≤ 50 := by
  unfold responseContract historyRules assessmentContract contextStatusRules omittedRules
    requestMarker historyLabel contextStatusLabel
  simp only [String.utf8ByteSize_append]
  refine ⟨?_, ?_, ?_, ?_, ?_, ?_, ?_, ?_, ?_⟩
  -- the two texts that are put together, one piece after the other
  case refine_4 =>
    exact Nat.add_le_add (Nat.add_le_add (Nat.add_le_add
      (utf8ByteSize_le (n := 80) _ rfl (by decide +kernel))
      (utf8ByteSize_le (n := 110) _ rfl (by decide +kernel)))
      (utf8ByteSize_le (n := 100) _ rfl (by decide +kernel)))
      (utf8ByteSize_le (n := 110) _ rfl (by decide +kernel))
  case refine_5 =>
    exact Nat.add_le_add (Nat.add_le_add (utf8ByteSize_le (n := 45) _ rfl (by decide +kernel))
      (utf8ByteSize_le (n := 95) _ rfl (by decide +kernel)))
      (utf8ByteSize_le (n := 60) _ rfl (by decide +kernel))
  all_goals exact utf8ByteSize_le _ rfl (by decide +kernel)

theorem fixedBytes_le {request : String} (h : request.utf8ByteSize ≤ 60000) :
    fixedBytes request ≤ 66000 := by
  obtain ⟨hcontract, hrules, -, hstatus, homitted, hmarker, -, hlabel, hprefix⟩ := text_sizes
  rw [fixedBytes]
  omega

theorem historyLabel_byteLength : byteLength historyLabel.toList ≤ 70 := by
  obtain ⟨-, -, -, -, -, -, hlabel, -, -⟩ := text_sizes
  rw [byteLength_toList]
  exact hlabel

theorem emptyObject_byteLength : byteLength [openBrace, closeBrace] = 2 := by
  rw [byteLength_eq_sum]
  decide

section Selection

variable (request : String) (count : ℕ) (before : Diagnostics)

/-- No file is selected yet, or the prompt has room for its diagnostics, a label and an empty
object. -/
def Room (selected : List (String × CapturedFile)) : Prop :=
  selected = [] ∨ fixedBytes request + diagnosticBudget + byteLength (Nat.toDigits 10 count) +
    byteLength (dumpsSnapshot (contextOf selected)) + byteLength historyLabel.toList + 2 ≤
      maxPromptBytes

theorem selectFile_room {selected : List (String × CapturedFile)}
    (h : Room request count selected) (file : String × CapturedFile) :
    Room request count (selectFile request count (some before) selected file) := by
  unfold selectFile
  split_ifs with hfits
  · right
    have hbudget := contextDiagnostics_le before
    simp only [byteLength_append, currentPrompt_byteLength, reserve, candidate_byteLength,
      emptyObject_byteLength] at hfits
    omega
  · exact h

theorem selectFiles (files : List (String × CapturedFile))
    {selected earlier : List (String × CapturedFile)} (hroom : Room request count selected)
    (hsub : selected.Sublist earlier) :
    Room request count (files.foldl (selectFile request count (some before)) selected) ∧
      (files.foldl (selectFile request count (some before)) selected).Sublist
        (earlier ++ files) := by
  induction files generalizing selected earlier with
  | nil =>
    rw [List.append_nil]
    exact ⟨hroom, hsub⟩
  | cons file files ih =>
    have hstep : (selectFile request count (some before) selected file).Sublist
        (earlier ++ [file]) := by
      unfold selectFile
      split_ifs
      · exact hsub.append (List.Sublist.refl _)
      · exact hsub.trans (List.sublist_append_left _ _)
    have hfiles := ih (selectFile_room request count before hroom file) hstep
    simp only [List.append_assoc, List.singleton_append] at hfiles
    rw [List.foldl_cons]
    exact hfiles

end Selection

theorem boundedSnapshot_sublist (request : String) (captured : Captured) (before : Diagnostics) :
    (boundedSnapshot request captured (some before)).Sublist captured.files :=
  (selectFiles request captured.files.length before captured.files (.inl rfl)
    (List.Sublist.refl [])).2

theorem boundedSnapshot_room (request : String) (captured : Captured) (before : Diagnostics) :
    Room request captured.files.length (boundedSnapshot request captured (some before)) :=
  (selectFiles request captured.files.length before captured.files (.inl rfl)
    (List.Sublist.refl [])).1

/-- The response prompt has room for a label and an empty object. -/
theorem responsePrompt_room {request : String} (hrequest : request.utf8ByteSize ≤ 60000)
    (captured : Captured) (before diagnostics : Diagnostics) :
    byteLength (currentPrompt responseContract request
      (some (contextOf (boundedSnapshot request captured (some before))))
      (captured.files.length - (boundedSnapshot request captured (some before)).length)
      (some diagnostics) ++ historyLabel.toList) + 2 ≤ maxPromptBytes := by
  have hbudget := contextDiagnostics_le diagnostics
  rw [byteLength_append, currentPrompt_byteLength]
  rcases boundedSnapshot_room request captured before with hnil | hroom
  · -- nothing fits: the fixed text, the request and the diagnostics are small enough
    have hfixed := fixedBytes_le hrequest
    have hlabel := historyLabel_byteLength
    have hdigits : byteLength (Nat.toDigits 10 captured.files.length) ≤ 19 :=
      toDigits_byteLength_le (by decide) (Nat.lt_trans captured.length_lt (by decide))
    have hempty : byteLength (dumpsSnapshot []) = 2 := emptyObject_byteLength
    rw [hnil, contextOf, List.map_nil, hempty, List.length_nil, Nat.sub_zero]
    have hsmall : diagnosticBudget ≤ 8192 := Nat.min_le_left _ _
    rw [maxPromptBytes]
    omega
  · have hdigits := toDigits_byteLength_mono (Nat.sub_le captured.files.length
      (boundedSnapshot request captured (some before)).length)
    omega

theorem assessmentPrompt_room {request : String} (hrequest : request.utf8ByteSize ≤ 60000) :
    byteLength (currentPrompt assessmentContract request none 0 none ++ historyLabel.toList) + 2 ≤
      maxPromptBytes := by
  obtain ⟨-, hrules, hcontract, -, -, hmarker, hlabel, -, -⟩ := text_sizes
  simp only [currentPrompt, snapshotText, byteLength_append, byteLength_toList, byteLength_nil]
  rw [maxPromptBytes]
  omega

theorem requestMarker_ne_nil : requestMarker.toList ≠ [] := by
  unfold requestMarker
  decide

section History

variable (stores : ContextStores) {rest : List Char} {history : StoredContext}

/-- With its label and the history the text is within the limit, and it ends with the marker
and what stood behind it. -/
def Within (rest : List Char) (history : StoredContext) (current : List Char) : Prop :=
  byteLength (current ++ historyLabel.toList ++ history.text) ≤ maxPromptBytes ∧
    ∃ before, current = before ++ (requestMarker.toList ++ rest)

theorem insertContext_within {label : String} {text current : List Char}
    (h : Within rest history current)
    (hsize : label.utf8ByteSize + byteLength text ≤ remaining history current) :
    Within rest history (insertContext label text current) := by
  unfold insertContext
  split_ifs
  · exact h
  · obtain ⟨hfits, before, rfl⟩ := h
    obtain ⟨early, late, rfl, hinsert⟩ := insertBefore_append requestMarker_ne_nil
      (label.toList ++ text) before rest
    rw [hinsert]
    refine ⟨?_, early ++ (label.toList ++ text) ++ late, rfl⟩
    simp only [remaining, byteLength_append, byteLength_toList] at hfits hsize ⊢
    omega

theorem memoryLimit_bounds {label : String} {current : List Char}
    (h : Extends label history current) :
    2 ≤ memoryLimit label history current ∧ memoryLimit label history current ≤ maxMemoryBytes ∧
      label.utf8ByteSize + memoryLimit label history current ≤ remaining history current := by
  have hroom := h.2
  have hmax : maxMemoryBytes = 8192 := rfl
  rw [memoryLimit]
  omega

theorem addWiki_composed {current : List Char} (h : Within rest history current) :
    Composed stores (fun noted => Within rest history noted.1) (addWiki stores history current) := by
  unfold addWiki
  split_ifs with hextends
  · obtain ⟨htwo, hmax, hroom⟩ := memoryLimit_bounds hextends
    split
    · rename_i e he
      exact .inr (.inl ⟨_, htwo, hmax, he⟩)
    · rename_i wiki hwiki
      have hle := stores.wiki_le htwo hmax hwiki
      exact insertContext_within h (by omega)
  · exact h

theorem addWork_composed {current : List Char} (ids : List TaskId)
    (h : Within rest history current) :
    Composed stores (Within rest history) (addWork stores history ids current) := by
  unfold addWork
  split_ifs with hextends
  · obtain ⟨htwo, hmax, hroom⟩ := memoryLimit_bounds hextends
    split
    · rename_i e he
      exact .inr (.inr ⟨_, _, htwo, hmax, he⟩)
    · rename_i work hwork
      have hle := stores.work_le htwo hmax hwork
      rw [if_neg (by omega)]
      exact insertContext_within h (by omega)
  · exact h

theorem recallHistory_composed {request : String} {available : ℕ} (h : 2 ≤ available) :
    Composed stores (fun history => byteLength history.text ≤ min maxHistoryBytes available)
      (recallHistory stores request available) := by
  have hmax : maxHistoryBytes = 24576 := rfl
  have hlimit : 2 ≤ min maxHistoryBytes available := by omega
  unfold recallHistory
  split_ifs
  · exact Nat.le_trans (Nat.le_of_eq emptyObject_byteLength) hlimit
  · split
    · rename_i e he
      exact .inl ⟨_, hlimit, Nat.min_le_left _ _, he⟩
    · rename_i c hc
      exact stores.history_le hlimit (Nat.min_le_left _ _) hc

/-- With room for the label and an empty object the contexts are added within the limit. -/
theorem withHistory_composed (request : String) {current : List Char}
    (hroom : byteLength (current ++ historyLabel.toList) + 2 ≤ maxPromptBytes)
    (hends : ∃ before, current = before ++ (requestMarker.toList ++ rest)) :
    Composed stores (fun prompt => byteLength prompt ≤ maxPromptBytes ∧
      ∃ before after, prompt = before ++ (requestMarker.toList ++ rest) ++ after)
      (withHistory stores request current) := by
  unfold withHistory
  simp only
  rw [if_neg (by omega)]
  apply (recallHistory_composed stores (by omega)).bind
  intro history hhistory
  rw [if_neg (by omega)]
  have hwithin : Within rest history current := by
    refine ⟨?_, hends⟩
    rw [byteLength_append]
    omega
  apply (addWiki_composed stores hwithin).bind
  intro noted hnoted
  apply (addWork_composed stores noted.2 hnoted).bind
  rintro extended ⟨hfits, before, rfl⟩
  exact ⟨hfits, before, historyLabel.toList ++ history.text, by simp⟩

end History

theorem prompt_of_validate {spec : OperationSpec} (h : validate spec = .ok ()) :
    spec.prompt.utf8ByteSize ≤ 60000 := by
  unfold validate at h
  split_ifs at h
  omega

theorem field_infix_context {selected : List (String × CapturedFile)}
    {f : String × CapturedFile} (h : f ∈ selected) :
    dumpsField (f.1, dumpsItem (snapshotItem f.2)) <:+: dumpsSnapshot (contextOf selected) := by
  apply infix_dumpsObject
  simp only [contextOf, List.map_map]
  exact List.mem_map_of_mem (f := _) h

/-- Every prompt for a validated request is within the limit with the request whole; one for a
result also has the count of the omitted files and every selected file whole. Where the stores
answer, both prompts are built. The diagnostics stay within their budget, each of them listed or
counted. -/
theorem provider_payload (stores : ContextStores) {spec : OperationSpec}
    (hspec : validate spec = .ok ()) (captured : Captured) (before diagnostics : Diagnostics) :
    let selected := boundedSnapshot spec.prompt captured (some before)
    let omitted := captured.files.length - selected.length
    Composed stores (fun prompt => byteLength prompt ≤ maxPromptBytes ∧
        ∃ contract history, prompt =
          contract ++ (requestMarker.toList ++ spec.prompt.toList) ++ history)
      (assessmentInput stores spec) ∧
    Composed stores (fun prompt => byteLength prompt ≤ maxPromptBytes ∧
        (∃ contract history, prompt = contract ++ (requestMarker.toList ++ (spec.prompt.toList ++
          snapshotText omitted (some diagnostics) (some (contextOf selected)))) ++ history) ∧
        ∀ f ∈ selected, dumpsField (f.1, dumpsItem (snapshotItem f.2)) <:+: prompt)
      (responseInput stores spec captured before diagnostics) ∧
    ((∀ e, ¬ Reported stores e) → (∃ prompt, assessmentInput stores spec = .ok prompt) ∧
      ∃ prompt, responseInput stores spec captured before diagnostics = .ok prompt) ∧
    selected.Sublist captured.files ∧ selected.length + omitted = captured.files.length ∧
    byteLength (contextDiagnostics diagnostics) ≤ diagnosticBudget ∧
    (diagnosticPayload diagnostics).files.length + (diagnosticPayload diagnostics).truncated =
      diagnostics.entries.length := by
  intro selected omitted
  have hrequest := prompt_of_validate hspec
  have hsub := boundedSnapshot_sublist spec.prompt captured before
  have hassessment : Composed stores (fun prompt => byteLength prompt ≤ maxPromptBytes ∧
      ∃ contract history, prompt =
        contract ++ (requestMarker.toList ++ spec.prompt.toList) ++ history)
      (assessmentInput stores spec) := by
    apply withHistory_composed stores spec.prompt (assessmentPrompt_room hrequest)
    exact ⟨assessmentContract.toList ++ historyRules.toList, by simp [currentPrompt, snapshotText]⟩
  have hresponse : Composed stores (fun prompt => byteLength prompt ≤ maxPromptBytes ∧
      (∃ contract history, prompt = contract ++ (requestMarker.toList ++ (spec.prompt.toList ++
        snapshotText omitted (some diagnostics) (some (contextOf selected)))) ++ history) ∧
      ∀ f ∈ selected, dumpsField (f.1, dumpsItem (snapshotItem f.2)) <:+: prompt)
      (responseInput stores spec captured before diagnostics) := by
    have hcomposed := withHistory_composed stores spec.prompt
      (responsePrompt_room hrequest captured before diagnostics) ⟨_, rfl⟩
    apply hcomposed.mono
    rintro prompt ⟨hsize, contract, history, hprompt⟩
    refine ⟨hsize, ⟨contract, history, hprompt⟩, fun f hf => ?_⟩
    apply (field_infix_context hf).trans
    rw [hprompt]
    exact ⟨contract ++ requestMarker.toList ++ spec.prompt.toList ++
      (availabilityText (some diagnostics) ++
        "\nSnapshot files omitted by payload bound: ".toList ++ Nat.toDigits 10 omitted ++
        omittedRules.toList), history, by
      simp only [snapshotText, List.append_assoc]
      rfl⟩
  refine ⟨hassessment, hresponse, fun hanswer => ⟨?_, ?_⟩, hsub, Nat.add_sub_cancel' hsub.length_le,
    contextDiagnostics_le diagnostics, diagnosticPayload_count diagnostics⟩
  · obtain ⟨prompt, hprompt, _⟩ := hassessment.answered hanswer
    exact ⟨prompt, hprompt⟩
  · obtain ⟨prompt, hprompt, _⟩ := hresponse.answered hanswer
    exact ⟨prompt, hprompt⟩

/-- Stores without anything to tell. -/
def plainStores : ContextStores where
  historyInputDisabled _ := false
  history _ := .ok emptyContext
  wiki _ := .ok emptyContext
  work _ _ := .ok emptyContext
  history_le := by
    rintro n c htwo - h
    cases h
    exact Nat.le_trans (Nat.le_of_eq emptyObject_byteLength) htwo
  wiki_le := by
    rintro n c htwo - h
    cases h
    exact Nat.le_trans (Nat.le_of_eq emptyObject_byteLength) htwo
  work_le := by
    rintro n c ks htwo - h
    cases h
    exact Nat.le_trans (Nat.le_of_eq emptyObject_byteLength) htwo

def plainCaptured : Captured where
  files := [("notes.txt", ⟨"hello", "aa", false⟩)]
  distinct := by decide
  length_lt := by decide

def noDiagnostics : Diagnostics where
  entries := []
  distinct := by decide
  length_lt := by decide

def payloadSpec : OperationSpec := { prompt := "summarize", workspace := "/w" }

theorem plainStores_answer (e : Err) : ¬ Reported plainStores e := by
  rintro (⟨_, _, _, h⟩ | ⟨_, _, _, h⟩ | ⟨_, _, _, _, h⟩) <;> cases h

theorem provider_payload_plain :
    (∃ prompt, assessmentInput plainStores payloadSpec = .ok prompt) ∧
    (∃ prompt, responseInput plainStores payloadSpec plainCaptured noDiagnostics noDiagnostics =
      .ok prompt) ∧
    (diagnosticPayload noDiagnostics).files.length + (diagnosticPayload noDiagnostics).truncated =
      noDiagnostics.entries.length := by
  obtain ⟨-, -, hanswer, -, -, -, hcount⟩ := @provider_payload plainStores
    payloadSpec (by decide +kernel) plainCaptured noDiagnostics noDiagnostics
  obtain ⟨hassessment, hresponse⟩ := hanswer plainStores_answer
  exact ⟨hassessment, hresponse, hcount⟩

end NyanyaAgent.Safety
