import NyanyaAgent.EnvFile.Readers
import NyanyaAgent.Text.Regex

/-!
# Control intents

`classify` of `control_intents.py`: the commands and questions about operations that a text is
recognised as.
-/
namespace NyanyaAgent.Control
open NyanyaAgent.Text NyanyaAgent.Text.Regex NyanyaAgent.EnvFile

local instance lawfulTexts : LawfulBEq (List Char) := inferInstance

/-- `str.lower` of one character that is ASCII, of the Hangul or one of the letters that a
pattern without regard to case takes for an ASCII one. -/
def lowerChar (c : Char) : List Char :=
  if c.toNat = 0x212a then ['k']
  else if c.toNat = 0x130 then ['i', Char.ofNat 0x307]
  else if c.toNat < 128 then [c.toLower]
  else [c]

def VerbChar (c : Char) : Prop :=
  c.toNat < 128 ∨ c.toNat ∈ [0x17f, 0x130, 0x131, 0x212a] ∨ 0xac00 ≤ c.toNat ∧ c.toNat ≤ 0xd7a3

/-- What the patterns and `str.lower` know of characters. -/
structure Unicode where
  /-- The characters of words: `\w`. -/
  inWord : Char → Bool
  lower : List Char → List Char
  word_ascii : ∀ c : Char, c.toNat < 128 → inWord c = (c.isAlphanum || c = '_')
  word_space : ∀ c, pySpace c = true → inWord c = false
  word_mark : ∀ c ∈ ['。', '！', '，'], inWord c = false
  word_letter : inWord 'ſ' = true
  lower_verb : ∀ cs : List Char, (∀ c ∈ cs, VerbChar c) → lower cs = cs.flatMap lowerChar

variable (U : Unicode)

section Patterns

def space : Regex := Regex.char pySpace

def spaces : Regex := star space
def spaces1 : Regex := plus space

def quoteSigns : List Char := [Char.ofNat 34, Char.ofNat 39, Char.ofNat 96, '“', '”', '‘', '’']

/-- The characters of `TASK_ID` behind its first part. -/
def idChar (c : Char) : Bool := c.isAlphanum || c = '_'

def idCharI (c : Char) : Bool := idChar c || decide (c.toNat ∈ [0x130, 0x131, 0x17f, 0x212a])

/-- `TASK_ID`, as it is searched. -/
def taskId : Regex := Regex.all [word "task_", plus (Regex.char idChar)]

def taskIdI : Regex := Regex.all [wordI "task_", plus (Regex.char idCharI)]

def commandWords : List String :=
  ["why", "cancel", "dismiss", "resume", "ack-delivery", "설명", "취소", "종결"]

/-- The groups of `_ID_COMMAND.fullmatch`. -/
def idCommand (value : List Char) : Option (List Char × List Char) :=
  let start : Place := (none, value)
  (((opt (word "/")).ends start).flatMap fun q₁ => ((wordsI commandWords).ends q₁).flatMap fun q₂ =>
    (spaces1.ends q₂).flatMap fun q₃ => (taskIdI.ends q₃).filterMap fun q₄ =>
      if q₄.2 = [] then some (taken q₁ q₂, taken q₃ q₄) else none).head?

def knownTaskCommand : Regex := Regex.all [atStart,
  Regex.any [
    Regex.all [opt (word "/"), wordsI ["why", "cancel", "dismiss", "resume", "ack-delivery", "tasks",
      "recovery", "status"]],
    words ["설명", "취소", "종결", "작업목록", "복구"]],
  Regex.any [space, atEnd]]

def quoted : Regex := Regex.any [oneOf quoteSigns,
  chars (List.replicate 3 fun c => decide (c = Char.ofNat 96)), Regex.all [word ">", space]]

def quotedRuntime : Regex := Regex.all [atStart,
  oneOf [Char.ofNat 34, Char.ofNat 39, Char.ofNat 96, '“', '‘'], star dot,
  Regex.any [wordI "timeout", word "타임아웃", Regex.all [word "실행", spaces, word "제한"],
    Regex.all [word "제한", spaces, word "시간"]],
  star dot, oneOf [Char.ofNat 34, Char.ofNat 39, Char.ofNat 96, '”', '’'], atEnd]

/-- `하지\s*마`. -/
def doNot : Regex := Regex.all [word "하지", spaces, word "마"]

def negated : Regex := Regex.all [words ["취소", "제거", "삭제", "종결"], upTo 12 dot,
  Regex.any [doNot, Regex.all [word "안", spaces, word "할"],
    words ["말아", "않", "고민", "방법", "어떻게", "가능", "여부", "생각"]]]

/-- `할\s*일` and `남은\s*작업`. -/
def todo : Regex := Regex.all [word "할", spaces, word "일"]
def remaining : Regex := Regex.all [word "남은", spaces, word "작업"]

def document : Regex := Regex.any [
  Regex.all [wordsI ["문서", "파일", "README", "TODO", "프로젝트"], upTo 24 dot,
    Regex.any [todo, word "미완료", remaining]],
  Regex.all [Regex.any [todo, word "미완료"], upTo 24 dot, wordsI ["문서", "파일", "README", "TODO"]]]

def controlWord : Regex := Regex.any [word "미완료", remaining,
  Regex.all [word "작업", spaces, word "목록"], words ["작업들", "취소", "제거", "종결"],
  wordI "ack-delivery"]

def runtimeStatusQuery : Regex := Regex.any [
  Regex.all [opt (Regex.all [words ["현재", "지금"], spaces]),
    opt (Regex.all [wordsI ["냐냐", "nyanya", "에이전트", "너"], opt (word "의"), spaces]),
    Regex.any [
      Regex.all [word "실행", spaces, Regex.any [Regex.all [word "제한", spaces, word "시간"],
        Regex.all [word "시간", spaces, word "제한"]]],
      Regex.all [word "제한", spaces, word "시간"], word "타임아웃", wordI "timeout"],
    opt (words ["은", "이", "을", "를"]), spaces,
    opt (Regex.any [
      Regex.all [
        Regex.any [Regex.all [word "몇", spaces, words ["초", "분"], opt (word "로")],
          words ["얼마", "무엇", "뭐"]],
        opt (Regex.any [Regex.all [word "인가", opt (word "요")], words ["야", "인지"]]),
        opt (Regex.all [spaces, opt (word "설정"), word "되어", spaces, word "있",
          words ["는가", "나요", "습니까"]])],
      Regex.all [word "알려", words ["줘", "주세요"]],
      Regex.all [word "확인해", words ["줘", "주세요"]]]),
    spaces, star (oneOf ['?', '？', '.', '!', '。', '！'])],
  Regex.all [wordI "what", spaces1, wordI "is", spaces1,
    Regex.any [wordI "your", Regex.all [wordI "nyanya", opt (wordI "'s")],
      Regex.all [wordI "the", spaces1, wordI "agent", opt (wordI "'s")]],
    spaces1, opt (Regex.all [wordI "execution", spaces1]),
    Regex.any [wordI "timeout", Regex.all [wordI "time", spaces1, wordI "limit"]], spaces,
    star (oneOf ['?', '？', '.', '!'])]]

def list : Regex := Regex.all [atStart,
  opt (Regex.all [words ["다른", "현재", "지금", "내", "나의", "전체"], spaces]),
  opt (Regex.all [word "미완료", spaces]),
  Regex.any [Regex.all [word "작업", opt (word "들")], todo], opt (words ["이", "은", "들"]),
  opt (Regex.all [spaces, Regex.any [words ["무엇", "뭐", "존재하나", "있나", "있어"],
    Regex.all [word "몇", spaces, word "개"],
    words ["목록", "리스트", "보여줘", "알려줘", "조회", "확인", "남았", "남아"]]]),
  star dot, atEnd]

def cancelVerb : Regex := Regex.any [words ["취소", "제거", "종결"],
  Regex.all [word "하지", spaces, word "않겠"], Regex.all [word "안", spaces, word "하겠"], doNot]

def listScope : Regex := Regex.any [word "미완료", remaining,
  Regex.all [words ["이전", "위", "방금"], spaces, word "목록"],
  words ["작업들", "전부", "모두", "전체"]]

def cancelWords : Regex := words ["취소", "제거", "종결"]

def fullStops : Regex := star (oneOf ['.', '!', '。', '！'])

/-- `_CANCEL_SELECTION`. -/
def selectionPattern : Regex := Regex.all [
  Regex.any [
    Regex.all [opt (Regex.all [words ["기존", "현재", "이전", "남은", "미완료", "전체", "모든"], spaces]),
      word "작업", opt (word "들"), opt (Regex.all [spaces, word "목록"])],
    Regex.all [words ["이전", "방금", "위"], spaces, word "목록"],
    Regex.all [opt (Regex.all [word "남은", spaces]), todo]],
  opt (words ["은", "는", "을", "를"]), spaces,
  opt (Regex.all [words ["모두", "전부", "전체"], spaces]),
  opt (Regex.all [Regex.any [Regex.all [word "하지", spaces, word "않겠"],
    Regex.all [word "안", spaces, word "하겠"]], words ["다", "습니다"], spaces]),
  cancelWords, star (Regex.all [spaces, word "/", spaces, cancelWords]), spaces,
  opt (Regex.any [Regex.all [word "해", opt (words ["라", "줘", "주세요", "요"])],
    words ["하겠습니다", "할게", "한다", "합니다"]]),
  fullStops]

def workAction : Regex := Regex.any [
  Regex.all [boundary U.inWord, wordsI ["fix", "implement", "change", "update", "debug", "refactor",
    "test", "write", "improve", "analyze", "review", "create", "make"], boundary U.inWord],
  Regex.all [words ["수정", "구현", "개선", "분석", "테스트", "고쳐", "작성", "생성", "만들"],
    opt (words ["해", "하", "해줘", "해주세요", "해라"])]]

def workTarget : Regex := Regex.any [
  Regex.all [boundary U.inWord, wordsI ["worker", "logic", "function", "code", "test", "bug", "file",
    "module", "script", "implementation"], boundary U.inWord],
  words ["로직", "코드", "함수", "테스트", "버그", "파일", "모듈", "스크립트", "구현"]]

/-- `_LIST_WITH_QUALIFIER` in front of its group. -/
def listBeforeQualifier : Regex := Regex.all [atStart,
  opt (Regex.all [words ["현재", "지금", "내", "나의", "전체"], spaces]),
  Regex.any [Regex.all [word "미완료", spaces, word "작업", opt (word "들")],
    Regex.all [remaining, opt (word "들")]],
  spaces, word "목록", opt (words ["만", "을", "만을"]), spaces,
  Regex.any [Regex.all [word "보여", words ["줘", "주세요"]],
    Regex.all [word "알려", words ["줘", "주세요"]], Regex.all [word "조회해", words ["줘", "주세요"]]],
  Regex.any [Regex.all [spaces, oneOf ['.', '!', '。', '！', ';', ',', '，'], spaces], spaces1]]

/-- The group of `_LIST_WITH_QUALIFIER.fullmatch`. -/
def listQualifier (value : List Char) : Option (List Char) :=
  ((listBeforeQualifier.ends (none, value)).find? fun q =>
    decide (q.2 ≠ []) && q.2.all fun c => c ≠ '\n').map (·.2)

/-- `하지\s*(?:마(?:세요)?|말아(?:줘|주세요)?)`. -/
def pleaseDoNot : Regex := Regex.all [word "하지", spaces,
  Regex.any [Regex.all [word "마", opt (word "세요")],
    Regex.all [word "말아", opt (words ["줘", "주세요"])]]]

def mutations : Regex := Regex.any [words ["취소", "삭제", "변경", "재실행"],
  Regex.all [word "다시", spaces, word "실행"], word "재개"]

def nonMutationQualifier : Regex := Regex.all [
  opt (Regex.all [opt (Regex.all [words ["기존", "현재", "이전", "미완료", "남은"], spaces]),
    word "작업", opt (word "들"), opt (words ["은", "을"]), spaces]),
  star (Regex.all [mutations, spaces, words ["하거나", "및", "또는", "/", ","], spaces]),
  mutations, spaces, pleaseDoNot, spaces, fullStops]

def clauseSigns : List Char := ['.', '!', '。', '！', ';', ',', '，']

/-- The place where a clause begins, and the one where it ends. -/
def clauseStart : Regex :=
  look fun before _ => before.isNone || before.any fun c => clauseSigns.any fun d => d = c

def clauseEnd : Regex := Regex.any [atEnd,
  look fun _ rest => rest.head?.any fun c => clauseSigns.any fun d => d = c]

def fileSafety : Regex := Regex.all [clauseStart, spaces,
  words ["기존", "현재", "이전", "전체", "원본"], spaces, word "파일", opt (word "들"),
  opt (words ["은", "을", "도"]), spaces, opt (Regex.all [word "읽거나", spaces]),
  star (Regex.all [words ["수정", "삭제", "변경"], spaces, words ["하거나", "및", "또는", "/", ","],
    spaces]),
  words ["수정", "삭제", "변경"], spaces, pleaseDoNot, spaces, clauseEnd]

def effectWords : Regex := words ["생성", "수정", "삭제", "변경"]

def resourceSafety : Regex := Regex.all [clauseStart, spaces,
  opt (Regex.all [words ["기존", "현재", "이전", "전체", "원본"], spaces]), words ["파일", "설정"],
  opt (word "들"),
  star (Regex.all [spaces, words ["·", "및", "과", "와", "/", ","], spaces, words ["파일", "설정"],
    opt (word "들")]),
  opt (words ["의", "은", "는", "을", "를", "도"]), spaces, effectWords,
  star (Regex.all [spaces, words ["하거나", "및", "또는", "/", ",", "·"], spaces, effectWords]),
  opt (Regex.all [spaces, words ["와", "과", "및"], spaces, word "명령", spaces, word "실행",
    opt (words ["은", "을", "도"])]),
  spaces, pleaseDoNot, spaces, clauseEnd]

/-- `\b(?:cancel|dismiss|resume|ack-delivery)\b`. -/
def effectVerb : Regex := Regex.all [boundary U.inWord,
  wordsI ["cancel", "dismiss", "resume", "ack-delivery"], boundary U.inWord]

def listQuestion : Regex := words ["무엇", "뭐", "존재", "있", "목록", "리스트", "보여", "알려", "조회",
  "확인", "남았", "남아", "몇", "?", "？"]

end Patterns

inductive IntentKind
  | workRequest
  | taskExplain
  | taskCancel
  | taskDismiss
  | taskResume
  | deliveryAck
  | taskList
  | runtimeStatus
  | taskCancelSelection
  | clarify
  deriving DecidableEq, Repr

structure ControlIntent where
  kind : IntentKind
  taskId : List Char := []
  deriving DecidableEq, Repr

/-- `str.split`, with the word read so far. -/
def wordsFrom (read : List Char) : List Char → List (List Char)
  | [] => if read = [] then [] else [read]
  | c :: cs =>
    if pySpace c = true then
      if read = [] then wordsFrom [] cs else read :: wordsFrom [] cs
    else wordsFrom (read ++ [c]) cs

/-- `" ".join(text.strip().split())`. -/
def normalizedText (text : List Char) : List Char := [' '].intercalate (wordsFrom [] text)

/-- The table of the commands with a task. -/
def verbKinds : List (String × IntentKind) :=
  [("설명", .taskExplain), ("why", .taskExplain), ("취소", .taskCancel), ("cancel", .taskCancel),
    ("종결", .taskDismiss), ("dismiss", .taskDismiss), ("resume", .taskResume),
    ("ack-delivery", .deliveryAck)]

def verbKind (verb : List Char) : Option IntentKind :=
  (verbKinds.find? fun e => e.1.toList = verb).map (·.2)

def simpleEnd (c : Char) : Bool := ['?', '？', '!', '！', '.', '。', ' '].any fun d => d = c

def simpleText (value : List Char) : List Char := strip simpleEnd (U.lower value)

def isOneOf (texts : List String) (text : List Char) : Bool := texts.any fun t => t.toList = text

def listPhrases : List String :=
  ["tasks", "작업목록", "recovery", "복구", "남은 작업은", "남은 작업은 무엇인가", "남은 작업은 뭐야",
    "미완료 작업 목록만", "미완료 작업들 존재하나 목록만"]

def statusPhrases : List String :=
  ["status", "/status", "현재 상태", "실행 제한시간", "현재 실행 제한은", "현재 실행 제한시간은"]

def cancelPhrases : List String := ["취소", "cancel", "/cancel", "이전 목록 모두 취소", "미완료 모두 취소"]

def questionMark : Regex := oneOf ['?', '？']

def workValue (value : List Char) : List Char :=
  resourceSafety.sub [' '] (fileSafety.sub [' '] value)

def cancelsList (value : List Char) : Bool := listScope.search value && cancelVerb.search value

def quotesControl (value : List Char) : Bool := quoted.search value && controlWord.search value

def heldRemainder (work : List Char) : Bool :=
  negated.search work || taskId.search work || (effectVerb U).search work || cancelsList work ||
    quotesControl work

def remainderEnd (c : Char) : Bool := [' ', '.', '!', '。', '！', ';', ',', '，'].any fun d => d = c

/-- What `classify` does with a text: an answer, a missing key of the table, or the
classification of another text. -/
inductive Step
  | done (intent : ControlIntent)
  | keyError (verb : List Char)
  | again (remainder : List Char)
  deriving DecidableEq

def kindStep (kind : IntentKind) : Step := .done { kind }

/-- The last rules, for a text without a safety clause. -/
def plainStep (value : List Char) : Step :=
  if negated.search value = true then kindStep .clarify
  else if ((workAction U).search value && (workTarget U).search value && ! cancelsList value) = true then
    kindStep .workRequest
  else if runtimeStatusQuery.fullmatch value = true then kindStep .runtimeStatus
  else if cancelsList value = true then
    if selectionPattern.fullmatch value = true then kindStep .taskCancelSelection
    else kindStep .clarify
  else if (list.search value && listQuestion.search value) = true then kindStep .taskList
  else if controlWord.search value = true then kindStep .clarify
  else kindStep .workRequest

/-- The rules from the safety clauses on. -/
def clauseStep (value : List Char) : Step :=
  let work := workValue value
  if (decide (work ≠ value) && heldRemainder U work) = true then kindStep .clarify
  else if document.search value = true then kindStep .workRequest
  else if (quotesControl value || quotedRuntime.fullmatch value) = true then kindStep .clarify
  else if work ≠ value then
    if strip remainderEnd work = [] then kindStep .clarify else .again (strip remainderEnd work)
  else plainStep U value

/-- The rules for whole texts. -/
def phraseStep (value : List Char) : Step :=
  let simple := simpleText U value
  if isOneOf listPhrases simple = true then kindStep .taskList
  else if isOneOf statusPhrases simple = true then kindStep .runtimeStatus
  else if isOneOf cancelPhrases simple = true then
    if questionMark.search value = true then kindStep .clarify else kindStep .taskCancelSelection
  else if simple = "tasks all".toList then kindStep .workRequest
  else if knownTaskCommand.starts (none, value) = true then kindStep .clarify
  else
    match listQualifier value with
    | some qualifier =>
      if nonMutationQualifier.fullmatch qualifier = true then kindStep .taskList
      else kindStep .clarify
    | none => clauseStep U value

def commandStep (verb taskId : List Char) : Step :=
  match verbKind (U.lower verb) with
  | some kind => .done { kind, taskId }
  | none => .keyError (U.lower verb)

/-- `classify` up to the classification of what is left of a text. -/
def classifyStep (text : List Char) : Step :=
  let value := normalizedText text
  if value = [] then kindStep .workRequest
  else
    match idCommand value with
    | some (verb, taskId) => commandStep U verb taskId
    | none => phraseStep U value

section Shorter

theorem wordsFrom_length (read text : List Char) :
    ([' '].intercalate (wordsFrom read text)).length ≤ read.length + text.length := by
  induction text generalizing read with
  | nil =>
    rw [wordsFrom]
    split_ifs
    · exact Nat.zero_le _
    · simp [List.intercalate]
  | cons c cs ih =>
    rw [wordsFrom]
    split_ifs with hspace hread
    · have hrest := ih []
      simp only [List.length_nil, List.length_cons] at hrest ⊢
      omega
    · have hrest := ih []
      cases hwords : wordsFrom [] cs with
      | nil =>
        simp [List.intercalate]
      | cons next words =>
        rw [hwords] at hrest
        rw [List.intercalate_cons_cons]
        simp only [List.length_append, List.length_cons, List.length_nil] at hrest ⊢
        omega
    · have hrest := ih (read ++ [c])
      simp only [List.length_append, List.length_cons, List.length_nil] at hrest ⊢
      omega

theorem normalizedText_length (text : List Char) : (normalizedText text).length ≤ text.length := by
  have hwords := wordsFrom_length [] text
  rwa [List.length_nil, Nat.zero_add] at hwords

theorem workValue_length (value : List Char) :
    workValue value = value ∨ (workValue value).length < value.length := by
  have hfileLength : [' '].length < fileSafety.minLength := by decide
  have hresourceLength : [' '].length < resourceSafety.minLength := by decide
  have hfile := sub_length hfileLength value
  have hresource := sub_length hresourceLength (fileSafety.sub [' '] value)
  unfold workValue
  rcases hfile with hfile | hfile
  · rw [hfile] at hresource ⊢
    exact hresource
  · rcases hresource with hresource | hresource
    · rw [hresource]
      exact .inr hfile
    · exact .inr (Nat.lt_trans hresource hfile)

theorem kindStep_ne_again {kind : IntentKind} {remainder : List Char} :
    kindStep kind ≠ .again remainder := by
  simp [kindStep]

theorem plainStep_ne_again {value remainder : List Char} : plainStep U value ≠ .again remainder := by
  unfold plainStep
  split_ifs <;> exact kindStep_ne_again

/-- A text is classified again without its safety clauses, when these did not leave a text
with operation-control meaning. -/
theorem clauseStep_again {value remainder : List Char}
    (h : clauseStep U value = .again remainder) :
    remainder = strip remainderEnd (workValue value) ∧ workValue value ≠ value ∧
      heldRemainder U (workValue value) = false := by
  unfold clauseStep at h
  simp only at h
  split_ifs at h with hheld hdocument hquoted hwork hempty
  · exact absurd h kindStep_ne_again
  · exact absurd h kindStep_ne_again
  · exact absurd h kindStep_ne_again
  · exact absurd h kindStep_ne_again
  · simp only [Bool.and_eq_true, decide_eq_true_eq, not_and, Bool.not_eq_true] at hheld
    exact ⟨(Step.again.inj h).symm, hwork, hheld hwork⟩
  · exact absurd h (plainStep_ne_again U)

theorem phraseStep_again {value remainder : List Char}
    (h : phraseStep U value = .again remainder) : clauseStep U value = .again remainder := by
  unfold phraseStep at h
  simp only at h
  split_ifs at h
  · exact absurd h kindStep_ne_again
  · exact absurd h kindStep_ne_again
  · exact absurd h kindStep_ne_again
  · exact absurd h kindStep_ne_again
  · exact absurd h kindStep_ne_again
  · exact absurd h kindStep_ne_again
  · cases hlist : listQualifier value with
    | none =>
      rw [hlist] at h
      exact h
    | some qualifier =>
      rw [hlist] at h
      simp only at h
      split_ifs at h
      · exact absurd h kindStep_ne_again
      · exact absurd h kindStep_ne_again

theorem classifyStep_again {text remainder : List Char}
    (h : classifyStep U text = .again remainder) :
    clauseStep U (normalizedText text) = .again remainder := by
  unfold classifyStep at h
  simp only at h
  split_ifs at h
  · exact absurd h kindStep_ne_again
  · cases hcommand : idCommand (normalizedText text) with
    | none =>
      rw [hcommand] at h
      exact phraseStep_again U h
    | some command =>
      obtain ⟨verb, taskId⟩ := command
      rw [hcommand] at h
      simp only [commandStep] at h
      cases hkind : verbKind (U.lower verb) with
      | none =>
        rw [hkind] at h
        cases h
      | some kind =>
        rw [hkind] at h
        cases h

theorem classifyStep_shorter {text remainder : List Char}
    (h : classifyStep U text = .again remainder) : remainder.length < text.length := by
  obtain ⟨hremainder, hwork, -⟩ := clauseStep_again U (classifyStep_again U h)
  have hshort := (workValue_length (normalizedText text)).resolve_left hwork
  have hstrip := (strip_sublist remainderEnd (workValue (normalizedText text))).length_le
  rw [hremainder]
  exact Nat.lt_of_lt_of_le (Nat.lt_of_le_of_lt hstrip hshort) (normalizedText_length text)

end Shorter

/-- The kinds that a text without its safety clauses may have. -/
def effectless (kind : IntentKind) : Bool :=
  kind = .workRequest || kind = .taskList || kind = .runtimeStatus

/-- `classify`; an error is the missing key of the table. -/
def classify (text : List Char) : Except (List Char) ControlIntent :=
  match h : classifyStep U text with
  | .done intent => .ok intent
  | .keyError verb => .error verb
  | .again remainder =>
    have := classifyStep_shorter U h
    (classify remainder).map fun intent =>
      if effectless intent.kind = true then intent else { kind := .clarify }
termination_by text.length

end NyanyaAgent.Control
