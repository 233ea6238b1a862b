import NyanyaAgent.Conversation.Context
import NyanyaAgent.System.Invariant

/-!
# Isolation of the conversation context

The context of a task is a function of its session's rows, and shows only earlier,
screened turns of that session, in order and in bounded text.
-/
namespace NyanyaAgent.Safety
open NyanyaAgent.Schema NyanyaAgent.Relational NyanyaAgent.Operations NyanyaAgent.Conversation
open NyanyaAgent.Text NyanyaAgent.System

variable {env : Environment} {screens : Screens} {l l' : Ledger} {s : SessionId}
  {session : ConversationSession} {sequence limit : ℕ} {project : Option ProjectId}
  {r : HistoryRow} {rows : List HistoryRow}

/-- The ledgers agree on a session: its row, its turns, and the tasks, operations, saved
results, plans and work records of these. -/
structure SameSession (s : SessionId) (l l' : Ledger) : Prop where
  session : l.sessions.get? s = l'.sessions.get? s
  turns : sessionTurns l s = sessionTurns l' s
  task : ∀ c ∈ sessionTurns l s, l.tasks.get? c.taskId = l'.tasks.get? c.taskId
  operation : ∀ c ∈ sessionTurns l s, l.operations.get? c.taskId = l'.operations.get? c.taskId
  result : ∀ c ∈ sessionTurns l s, ∀ t, l.tasks.get? c.taskId = some t →
    t.currentExecutionId.bind l.results.get? = t.currentExecutionId.bind l'.results.get?
  plans : ∀ c ∈ sessionTurns l s, (l.plans.rows.filter fun p => p.taskId = c.taskId) =
    l'.plans.rows.filter fun p => p.taskId = c.taskId
  records : ∀ c ∈ sessionTurns l s, (l.workRecords.rows.filter fun m => m.sourceTaskId = c.taskId) =
    l'.workRecords.rows.filter fun m => m.sourceTaskId = c.taskId

theorem mem_sessionTurns {c : ConversationTurn} :
    c ∈ sessionTurns l s ↔ l.turns.get? c.taskId = some c ∧ c.sessionId = s := by
  rw [sessionTurns, List.mem_filter, decide_eq_true_eq, Table.mem_rows_iff]

theorem currentPlanStatus_congr {t : AgentTask}
    (h : (l.plans.rows.filter fun p => p.taskId = t.id) =
      l'.plans.rows.filter fun p => p.taskId = t.id) :
    currentPlanStatus l t = currentPlanStatus l' t := by
  have hsplit : ∀ plans : List ChangePlan, (plans.filter fun p => p.taskId = t.id ∧
      p.ownerKey = t.requestedBy ∧ p.workspace = t.metadata.workspaceRoot) =
      (plans.filter fun p => p.taskId = t.id).filter fun p =>
        p.ownerKey = t.requestedBy ∧ p.workspace = t.metadata.workspaceRoot := by
    intro plans
    rw [List.filter_filter]
    apply List.filter_congr
    intro p _
    by_cases hp : p.taskId = t.id <;> simp [hp]
  unfold currentPlanStatus
  rw [hsplit, hsplit, h]

theorem historyRow_congr (h : SameSession s l l') {c : ConversationTurn}
    (hc : c ∈ sessionTurns l s) : historyRow l c = historyRow l' c := by
  unfold historyRow
  rw [← h.task c hc, ← h.operation c hc]
  cases ht : l.tasks.get? c.taskId with
  | none => rfl
  | some t =>
    cases ho : l.operations.get? c.taskId with
    | none => rfl
    | some o =>
      have hid : t.id = c.taskId := Table.key_of_get? ht
      have hplans := h.plans c hc
      rw [← hid] at hplans
      dsimp only
      rw [h.result c hc t ht, currentPlanStatus_congr hplans]

theorem historyRow_eq {c : ConversationTurn} (h : historyRow l c = some r) :
    r.turn = c ∧ l.tasks.get? c.taskId = some r.task ∧
      l.operations.get? c.taskId = some r.operation ∧
      r.result = r.task.currentExecutionId.bind l.results.get? := by
  unfold historyRow at h
  split at h
  · rename_i ht ho
    cases h
    exact ⟨rfl, ht, ho, rfl⟩
  · cases h

theorem history_congr (h : SameSession session.id l l') :
    history l session sequence project = history l' session sequence project := by
  have hrows : (sessionTurns l session.id).filterMap (historyRow l) =
      (sessionTurns l' session.id).filterMap (historyRow l') := by
    rw [← h.turns]
    apply List.filterMap_congr
    intro c hc
    exact historyRow_congr h hc
  unfold history
  rw [← hrows]
  congr 1
  apply List.filter_congr
  intro r hr
  obtain ⟨c, hc, hrow⟩ := List.mem_filterMap.mp hr
  obtain ⟨hturn, _⟩ := historyRow_eq hrow
  have hforgotten : Forgotten l r.turn.taskId ↔ Forgotten l' r.turn.taskId := by
    unfold Forgotten
    rw [hturn, h.records c hc]
  simp only [InHistory, hforgotten]

theorem serialize_congr (h : SameSession session.id l l') {query : String} {maxBytes : ℤ} :
    serialize screens l session sequence query project maxBytes =
      serialize screens l' session sequence query project maxBytes := by
  unfold serialize contextRows
  simp only [history_congr h]

theorem workerContext_congr (h : SameSession s l l') {reg : Registry} {k : TaskId}
    {turn : ConversationTurn} (hk : l.turns.get? k = some turn) (hs : turn.sessionId = s)
    {owner workspace : String} {maxBytes : ℤ} :
    workerContext env reg screens l k owner workspace maxBytes =
      workerContext env reg screens l' k owner workspace maxBytes := by
  have hid : turn.taskId = k := Table.key_of_get? hk
  subst hid
  have hmem : turn ∈ sessionTurns l s := mem_sessionTurns.mpr ⟨hk, hs⟩
  have hk' : l'.turns.get? turn.taskId = some turn :=
    (mem_sessionTurns.mp (h.turns ▸ hmem)).1
  unfold workerContext
  rw [hk, hk']
  simp only [hs, ← h.session, ← h.task turn hmem]
  cases hsession : l.sessions.get? s with
  | none => rfl
  | some session =>
    have hkey : session.id = s := Table.key_of_get? hsession
    subst hkey
    simp only [serialize_congr h]

/-! What the context shows. -/

/-- Two rows in the order they are shown. -/
def oldestFirst (a b : HistoryRow) : Prop := newestFirst b a

instance : Std.Total newestFirst where
  total a b := by unfold newestFirst; omega

instance : IsTrans HistoryRow newestFirst where
  trans a b c := by unfold newestFirst; omega

theorem mem_history : r ∈ history l session sequence project ↔
    (l.turns.get? r.turn.taskId = some r.turn ∧ r.turn.sessionId = session.id ∧
      historyRow l r.turn = some r) ∧ InHistory l session sequence project r := by
  unfold history
  rw [List.mem_insertionSort, List.mem_filter, decide_eq_true_eq, List.mem_filterMap]
  apply and_congr_left
  intro _
  constructor
  · rintro ⟨c, hc, hrow⟩
    obtain ⟨rfl, _⟩ := historyRow_eq hrow
    obtain ⟨hget, hs⟩ := mem_sessionTurns.mp hc
    exact ⟨hget, hs, hrow⟩
  · rintro ⟨hget, hs, hrow⟩
    exact ⟨r.turn, mem_sessionTurns.mpr ⟨hget, hs⟩, hrow⟩

theorem historyRows_sublist (cs : List ConversationTurn) :
    ((cs.filterMap (historyRow l)).map (·.turn.taskId)).Sublist (cs.map (·.taskId)) := by
  induction cs with
  | nil => exact .slnil
  | cons c cs ih =>
    rw [List.filterMap_cons]
    cases hc : historyRow l c with
    | none => exact ih.cons _
    | some r =>
      obtain ⟨rfl, _⟩ := historyRow_eq hc
      exact ih.cons_cons _

theorem nodup_history : ((history l session sequence project).map (·.turn.taskId)).Nodup := by
  have hrows : (((sessionTurns l session.id).filterMap (historyRow l)).map
      (·.turn.taskId)).Nodup := by
    apply List.Nodup.sublist (historyRows_sublist _)
    exact l.turns.nodup.sublist (List.filter_sublist.map _)
  unfold history
  rw [((List.perm_insertionSort _ _).map _).nodup_iff]
  exact hrows.sublist (List.filter_sublist.map _)

theorem mem_recalled {tokens : List String} (h : r ∈ recalled tokens rows) :
    r ∈ rows ∧ r.turn.taskId ∉ (recent rows).map (·.turn.taskId) := by
  unfold recalled at h
  split_ifs at h
  · have hmem := List.mem_filter.mp (List.mem_of_mem_take h)
    rw [decide_eq_true_eq] at hmem
    exact ⟨hmem.1, hmem.2.1⟩
  · cases h

theorem mem_selected {tokens : List String} (h : r ∈ selected tokens rows) :
    r ∈ recent rows ∨ r ∈ recalled tokens rows := by
  unfold selected at h
  rw [List.mem_reverse, List.mem_insertionSort, List.mem_append] at h
  exact h

theorem selected_perm (tokens : List String) (rows : List HistoryRow) :
    (selected tokens rows).Perm (recent rows ++ recalled tokens rows) :=
  (List.reverse_perm _).trans (List.perm_insertionSort _ _)

theorem recalled_sublist (tokens : List String) (rows : List HistoryRow) :
    (recalled tokens rows).Sublist rows := by
  unfold recalled
  split_ifs
  · exact (List.take_sublist _ _).trans List.filter_sublist
  · exact List.nil_sublist _

theorem nodup_selected {tokens : List String} (h : (rows.map (·.turn.taskId)).Nodup) :
    ((selected tokens rows).map (·.turn.taskId)).Nodup := by
  rw [((selected_perm tokens rows).map _).nodup_iff, List.map_append, List.nodup_append]
  refine ⟨h.sublist ((List.take_sublist _ _).map _), h.sublist ((recalled_sublist _ _).map _), ?_⟩
  intro a ha b hb hab
  subst hab
  obtain ⟨r, hr, rfl⟩ := List.mem_map.mp hb
  exact (mem_recalled hr).2 ha

theorem sorted_selected (tokens : List String) (rows : List HistoryRow) :
    (selected tokens rows).Pairwise oldestFirst := by
  have hsorted : ((recent rows ++ recalled tokens rows).insertionSort newestFirst).Pairwise
      newestFirst := List.pairwise_insertionSort _ _
  unfold selected
  rw [List.pairwise_reverse]
  exact hsorted

theorem length_recalled (tokens : List String) (rows : List HistoryRow) :
    (recalled tokens rows).length ≤ maxRecallTurns := by
  unfold recalled
  split_ifs
  · exact List.length_take_le _ _
  · exact Nat.zero_le _

/-- Of the rows shown at most `maxTurns` are recent and at most `maxRecallTurns` are not. -/
theorem count_selected (tokens : List String) (rows shown : List HistoryRow)
    (h : shown.Sublist (selected tokens rows)) :
    (shown.filter fun r => r.turn.taskId ∈ (recent rows).map (·.turn.taskId)).length ≤ maxTurns ∧
      (shown.filter fun r => r.turn.taskId ∉ (recent rows).map (·.turn.taskId)).length ≤
        maxRecallTurns := by
  constructor
  · refine (h.filter _).length_le.trans ?_
    rw [((selected_perm tokens rows).filter _).length_eq, List.filter_append, List.length_append]
    have hnone : (recalled tokens rows).filter
        (fun r => r.turn.taskId ∈ (recent rows).map (·.turn.taskId)) = [] := by
      rw [List.filter_eq_nil_iff]
      intro r hr
      rw [decide_eq_true_eq]
      exact (mem_recalled hr).2
    rw [hnone]
    exact (List.length_filter_le _ _).trans (List.length_take_le _ _)
  · refine (h.filter _).length_le.trans ?_
    rw [((selected_perm tokens rows).filter _).length_eq, List.filter_append, List.length_append]
    have hnone : (recent rows).filter
        (fun r => r.turn.taskId ∉ (recent rows).map (·.turn.taskId)) = [] := by
      rw [List.filter_eq_nil_iff]
      intro r hr
      rw [decide_eq_true_eq, not_not]
      exact List.mem_map_of_mem hr
    rw [hnone, List.length_nil, Nat.zero_add]
    exact (List.length_filter_le _ _).trans (length_recalled tokens rows)

theorem trim_suffix (render : List HistoryRow → String) (rows : List HistoryRow) :
    trim screens limit render rows <:+ rows := by
  induction rows with
  | nil => exact List.suffix_rfl
  | cons r rows ih =>
    unfold trim
    split_ifs
    · exact List.suffix_rfl
    · exact ih.trans (List.suffix_cons r rows)

theorem trim_fits {render : List HistoryRow → String} {rows : List HistoryRow}
    (h : trim screens limit render rows ≠ []) :
    Fits screens limit (render (trim screens limit render rows)) := by
  induction rows with
  | nil => exact absurd rfl h
  | cons r rows ih =>
    unfold trim at h ⊢
    split_ifs at h ⊢ with hfits
    · exact hfits
    · exact ih h

theorem mem_selected_mem {tokens : List String} (h : r ∈ selected tokens rows) : r ∈ rows := by
  obtain hrecent | hrecalled := mem_selected h
  · exact List.mem_of_mem_take hrecent
  · exact (mem_recalled hrecalled).1

theorem contextRows_sublist {query : String} :
    (contextRows screens l session sequence query project limit).Sublist
      (selected (searchTokens screens query) (history l session sequence project)) := by
  unfold contextRows
  exact (trim_suffix _ _).sublist.trans List.filter_sublist

theorem shown_contextRows {query : String}
    (h : r ∈ contextRows screens l session sequence query project limit) :
    Shown screens limit r := by
  unfold contextRows at h
  have hfilter := (trim_suffix _ _).subset h
  rw [List.mem_filter, decide_eq_true_eq] at hfilter
  exact hfilter.2

theorem renderTurn_isValue (session : ConversationSession) (recentIds : List TaskId)
    (r : HistoryRow) : IsValue (renderTurn screens session recentIds r) := by
  apply renderObject_isValue
  intro f hf
  simp only [List.mem_cons, List.not_mem_nil, or_false] at hf
  rcases hf with rfl | rfl | rfl | rfl | rfl | rfl | rfl | rfl | rfl | rfl
  case inr.inr.inr.inr.inr.inr.inl => exact Scalar.isValue _
  case inr.inr.inr.inr.inr.inr.inr.inr.inr => exact Scalar.isValue _
  all_goals exact isValue_text _

theorem renderContext_isValue (session : ConversationSession) (recentIds : List TaskId)
    (rows : List HistoryRow) : IsValue (renderContext screens session recentIds rows).toList := by
  unfold renderContext
  rw [String.toList_ofList]
  apply renderObject_isValue
  intro f hf
  simp only [List.mem_cons, List.not_mem_nil, or_false] at hf
  rcases hf with rfl | rfl | rfl | rfl
  · exact isValue_text _
  · exact Scalar.isValue (.nat session.generation)
  · exact isValue_text _
  · apply renderArray_isValue
    intro x hx
    obtain ⟨r, _, rfl⟩ := List.mem_map.mp hx
    exact renderTurn_isValue session recentIds r

theorem emptyContext_isValue : IsValue emptyContext.toList := .emptyObject

theorem empty_fits {maxBytes : ℤ} (h : 2 ≤ maxBytes) :
    emptyContext.utf8ByteSize ≤ min maxBytes.toNat maxContextBytes := by
  have hsize : emptyContext.utf8ByteSize = 2 := by decide +kernel
  rw [hsize, maxContextBytes]
  omega

/-- The rows shown to a turn's task within a limit; the recent ones have the given ids. -/
structure Disclosed (screens : Screens) (l : Ledger) (session : ConversationSession)
    (turn : ConversationTurn) (project : Option ProjectId) (limit : ℕ) (recentIds : List TaskId)
    (rows : List HistoryRow) : Prop where
  stored : ∀ r ∈ rows, historyRow l r.turn = some r ∧ l.turns.get? r.turn.taskId = some r.turn
  scope : ∀ r ∈ rows, r.turn.sessionId = session.id ∧ r.task.requestedBy = session.ownerKey ∧
    r.operation.spec.workspace = session.workspaceRoot ∧ r.task.projectId = project
  earlier : ∀ r ∈ rows, r.turn.generation < turn.generation ∨
    r.turn.generation = turn.generation ∧ r.turn.sequence < turn.sequence
  sinceReset : ∀ r ∈ rows, session.memoryResetGeneration ≤ r.turn.generation
  notForgotten : ∀ r ∈ rows, ¬ Forgotten l r.turn.taskId
  screened : ∀ r ∈ rows, Shown screens limit r
  chronological : rows.Pairwise oldestFirst
  distinct : (rows.map (·.turn.taskId)).Nodup
  recent_le : (rows.filter fun r => r.turn.taskId ∈ recentIds).length ≤ maxTurns
  recalled_le : (rows.filter fun r => r.turn.taskId ∉ recentIds).length ≤ maxRecallTurns

theorem contextRows_disclosed {query : String} {turn : ConversationTurn}
    (h : turn.generation = session.generation) :
    Disclosed screens l session turn project limit
      ((recent (history l session turn.sequence project)).map (·.turn.taskId))
      (contextRows screens l session turn.sequence query project limit) := by
  have hsub : (contextRows screens l session turn.sequence query project limit).Sublist
      (selected (searchTokens screens query) (history l session turn.sequence project)) :=
    contextRows_sublist
  have hmem : ∀ r ∈ contextRows screens l session turn.sequence query project limit,
      r ∈ history l session turn.sequence project := fun r hr => mem_selected_mem (hsub.subset hr)
  refine ⟨?_, ?_, ?_, ?_, ?_, fun r hr => shown_contextRows hr, ?_, ?_, ?_, ?_⟩
  · intro r hr
    obtain ⟨⟨hget, _, hrow⟩, _⟩ := mem_history.mp (hmem r hr)
    exact ⟨hrow, hget⟩
  · intro r hr
    obtain ⟨⟨_, hs, _⟩, _, howner, hworkspace, _, _, hproject⟩ := mem_history.mp (hmem r hr)
    exact ⟨hs, howner, hworkspace, hproject⟩
  · intro r hr
    obtain ⟨_, _, _, _, _, hbefore, _⟩ := mem_history.mp (hmem r hr)
    rw [h]
    exact hbefore
  · intro r hr
    exact (mem_history.mp (hmem r hr)).2.1
  · intro r hr
    obtain ⟨_, _, _, _, hforgotten, _⟩ := mem_history.mp (hmem r hr)
    exact hforgotten
  · exact (sorted_selected _ _).sublist hsub
  · exact (nodup_selected nodup_history).sublist (hsub.map _)
  · exact (count_selected _ _ _ hsub).1
  · exact (count_selected _ _ _ hsub).2

theorem serialize_ok {query text : String} {maxBytes : ℤ}
    (h : serialize screens l session sequence query project maxBytes = .ok text) :
    2 ≤ maxBytes ∧ (text = emptyContext ∨
      (contextRows screens l session sequence query project (min maxBytes.toNat maxContextBytes) ≠ [] ∧
        text = renderContext screens session
          ((recent (history l session sequence project)).map (·.turn.taskId))
          (contextRows screens l session sequence query project
            (min maxBytes.toNat maxContextBytes)))) := by
  unfold serialize at h
  dsimp only at h
  split_ifs at h with hsmall hnil
  · exact ⟨by omega, .inl (Except.ok.inj h).symm⟩
  · exact ⟨by omega, .inr ⟨hnil, (Except.ok.inj h).symm⟩⟩

/-- What `worker_context` returns to the task of a turn. -/
theorem workerContext_ok {reg : Registry} {k : TaskId} {turn : ConversationTurn}
    (hturn : l.turns.get? k = some turn) (hsession : l.sessions.get? turn.sessionId = some session)
    {owner workspace text : String} {maxBytes : ℤ}
    (h : workerContext env reg screens l k owner workspace maxBytes = .ok text) :
    ∃ task, l.tasks.get? k = some task ∧ task.requestedBy = owner ∧ session.ownerKey = owner ∧
      checkWorkspace env reg workspace owner = .ok session.workspaceRoot ∧
      (turn.generation ≠ session.generation ∧ text = emptyContext ∨
        turn.generation = session.generation ∧ serialize screens l session turn.sequence task.prompt
          task.projectId maxBytes = .ok text) := by
  unfold workerContext at h
  rw [hturn] at h
  dsimp only at h
  rw [hsession] at h
  dsimp only at h
  split at h
  · cases h
  · rename_i root hroot
    split at h
    · cases h
    · rename_i hscope
      rw [not_or, not_ne_iff, not_ne_iff] at hscope
      obtain ⟨howner, rfl⟩ := hscope
      split at h
      · cases h
      · rename_i task htask
        split at h
        · cases h
        · rename_i htaskScope
          rw [not_or, not_ne_iff, not_ne_iff] at htaskScope
          refine ⟨task, htask, htaskScope.1, howner, hroot, ?_⟩
          split at h
          · rename_i hold
            exact .inl ⟨hold, (Except.ok.inj h).symm⟩
          · rename_i hlive
            exact .inr ⟨not_ne_iff.mp hlive, h⟩

/-- A task's context is a function of its session. The context of a turn of a session belongs
to the caller, is the empty object or discloses rows of the session, and is JSON text. It
keeps to the limit when the limit allows the empty object or the generation is live, and a
superseded generation has the empty object. -/
theorem context_isolated (env : Environment) (screens : Screens) (reg : Registry) (l : Ledger)
    (k : TaskId) (turn : ConversationTurn) (hturn : l.turns.get? k = some turn)
    (owner workspace : String) (maxBytes : ℤ) :
    (∀ l', SameSession turn.sessionId l l' →
      workerContext env reg screens l k owner workspace maxBytes =
        workerContext env reg screens l' k owner workspace maxBytes) ∧
    ∀ session, l.sessions.get? turn.sessionId = some session → ∀ text,
      workerContext env reg screens l k owner workspace maxBytes = .ok text →
      ∃ task, l.tasks.get? k = some task ∧ task.requestedBy = owner ∧ session.ownerKey = owner ∧
        checkWorkspace env reg workspace owner = .ok session.workspaceRoot ∧
        (text = emptyContext ∨ ∃ recentIds rows, rows ≠ [] ∧
          Disclosed screens l session turn task.projectId (min maxBytes.toNat maxContextBytes)
            recentIds rows ∧
          text = renderContext screens session recentIds rows ∧ screens.sensitive text = false) ∧
        IsValue text.toList ∧
        (2 ≤ maxBytes ∨ turn.generation = session.generation →
          text.utf8ByteSize ≤ min maxBytes.toNat maxContextBytes) ∧
        (turn.generation ≠ session.generation → text = emptyContext) := by
  refine ⟨fun l' hsame => workerContext_congr hsame hturn rfl, ?_⟩
  intro session hsession text htext
  obtain ⟨task, htask, htaskOwner, howner, hroot, ⟨hold, rfl⟩ | ⟨hlive, hserialize⟩⟩ :=
    workerContext_ok hturn hsession htext
  · refine ⟨task, htask, htaskOwner, howner, hroot, .inl rfl, emptyContext_isValue, ?_,
      fun _ => rfl⟩
    rintro (hbytes | hlive)
    · exact empty_fits hbytes
    · exact absurd hlive hold
  · obtain ⟨hbytes, rfl | ⟨hne, rfl⟩⟩ := serialize_ok hserialize
    · exact ⟨task, htask, htaskOwner, howner, hroot, .inl rfl, emptyContext_isValue,
        fun _ => empty_fits hbytes, fun _ => rfl⟩
    · have hfits := trim_fits hne
      exact ⟨task, htask, htaskOwner, howner, hroot,
        .inr ⟨_, _, hne, contextRows_disclosed hlive, rfl, hfits.2⟩,
        renderContext_isValue _ _ _, fun _ => hfits.1, fun hold => absurd hlive hold⟩

/-- Screens that let every text through. -/
def plainScreens : Screens where
  storageDisabled _ := false
  sensitive _ := false
  words _ := []
  taskName _ := "task"

def plainSession : ConversationSession :=
  { id := 1, ownerKey := "owner", conversationHash := [], workspaceRoot := "/w", generation := 2,
    nextSequence := 3, createdAt := 0, updatedAt := 0 }

def plainTurn (k : TaskId) (generation sequence : ℕ) : ConversationTurn :=
  { taskId := k, sessionId := 1, generation := generation, sequence := sequence, createdAt := 0,
    updatedAt := 0 }

def plainTask (k : TaskId) : AgentTask :=
  { id := k, prompt := "hi", requestedBy := "owner", metadata := { workspaceRoot := "/w" },
    createdAt := 0, updatedAt := 0 }

def plainOperation (k : TaskId) : TaskOperation :=
  { taskId := k, spec := { prompt := "hi", workspace := "/w" }, workerGeneration := 1 }

/-- A session with a turn of a superseded generation and two of the live one. -/
def plainConversation : Ledger :=
  { sessions := ⟨[plainSession], by decide⟩
    turns := ⟨[plainTurn 1 1 1, plainTurn 2 2 1, plainTurn 3 2 2], by decide⟩
    tasks := ⟨[plainTask 1, plainTask 2, plainTask 3], by decide⟩
    operations := ⟨[plainOperation 1, plainOperation 2, plainOperation 3], by decide⟩ }

/-- The same with another owner's conversation beside it. -/
def sharedConversation : Ledger :=
  { plainConversation with
    sessions := ⟨[plainSession, { plainSession with id := 2, ownerKey := "other" }], by decide⟩
    turns := ⟨[plainTurn 1 1 1, { plainTurn 9 1 1 with sessionId := 2 }, plainTurn 2 2 1,
      plainTurn 3 2 2], by decide⟩
    tasks := ⟨[plainTask 1, { plainTask 9 with requestedBy := "other" }, plainTask 2,
      plainTask 3], by decide⟩ }

theorem plainConversation_same : SameSession 1 plainConversation sharedConversation := by
  have hturns : sessionTurns plainConversation 1 =
      [plainTurn 1 1 1, plainTurn 2 2 1, plainTurn 3 2 2] := rfl
  refine ⟨rfl, rfl, ?_, fun _ _ => rfl, ?_, fun _ _ => rfl, fun _ _ => rfl⟩
  · rw [hturns]
    decide
  · intro c _ t _
    cases t.currentExecutionId with
    | none => rfl
    | some x => rfl

theorem context_isolated_plain :
    workerContext plainEnvironment plainRegistry plainScreens plainConversation 3 "owner" "/w" 4096 =
        workerContext plainEnvironment plainRegistry plainScreens sharedConversation 3 "owner" "/w"
          4096 ∧
      IsValue emptyContext.toList ∧ emptyContext.utf8ByteSize ≤ min (4096 : ℤ).toNat maxContextBytes := by
  have hold : workerContext plainEnvironment plainRegistry plainScreens plainConversation 1 "owner"
      "/w" 4096 = .ok emptyContext := by decide +kernel
  obtain ⟨_, _, _, _, _, _, hvalue, hsize, _⟩ := (context_isolated plainEnvironment plainScreens
    plainRegistry plainConversation 1 (plainTurn 1 1 1) rfl "owner" "/w" 4096).2 plainSession rfl _ hold
  exact ⟨(context_isolated plainEnvironment plainScreens plainRegistry plainConversation 3
    (plainTurn 3 2 2) rfl "owner" "/w" 4096).1 sharedConversation plainConversation_same,
    hvalue, hsize (.inl (by decide))⟩

/-- A superseded generation is answered with two bytes whatever the limit. -/
theorem superseded_exceeds_limit :
    plainConversation.turns.get? 1 = some (plainTurn 1 1 1) ∧
      workerContext plainEnvironment plainRegistry plainScreens plainConversation 1 "owner" "/w" 1 =
        .ok emptyContext ∧
      ¬ emptyContext.utf8ByteSize ≤ min (1 : ℤ).toNat maxContextBytes := by
  decide +kernel

end NyanyaAgent.Safety
