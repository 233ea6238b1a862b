import NyanyaAgent.Operations.Environment

/-!
# Conversation turns

The durable relation between a conversation session and its tasks: binding a
task to the next turn, the order in which turns may start, the completion that
`finish` records, and the reset that opens a new generation.
-/
namespace NyanyaAgent.Conversation
open NyanyaAgent.Schema NyanyaAgent.Relational NyanyaAgent.Operations

variable (env : Environment)

/-- `_hash`. -/
def hashKey (key : String) : Except Err Hash :=
  if key = "" ∨ 4096 < key.utf8ByteSize then
    .error (.safeOperation "Invalid conversation key")
  else .ok (env.sha256 (env.encode key))

def findSession (l : Ledger) (owner : String) (hashed : Hash) (workspace : String) :
    Option ConversationSession :=
  l.sessions.rows.find? fun s =>
    s.ownerKey = owner ∧ s.conversationHash = hashed ∧ s.workspaceRoot = workspace

/-- `_session_conn`; the new row is used only when no session has this scope. -/
def sessionConn (owner key workspace : String) (fresh : SessionId) (now : Time) :
    Op ConversationSession := do
  let hashed ← Tx.lift (hashKey env key)
  let existing ← Tx.select fun l => findSession l owner hashed workspace
  match existing with
  | some session => pure session
  | none =>
    let session : ConversationSession :=
      { id := fresh, ownerKey := owner, conversationHash := hashed, workspaceRoot := workspace,
        createdAt := now, updatedAt := now }
    insertSession session
    pure session

/-- The turn with the greatest sequence number of a session's generation. -/
def lastTurn (l : Ledger) (session : SessionId) (generation : ℕ) : Option ConversationTurn :=
  (l.turns.rows.filter fun t => t.sessionId = session ∧ t.generation = generation).foldl
    (fun best t => match best with
      | some b => if t.sequence ≤ b.sequence then some b else some t
      | none => some t) none

def bindConn (taskId : TaskId) (owner key workspace : String) (fresh : SessionId) (now : Time) :
    Op ConversationTurn := do
  let task ← Tx.select fun l => (l.tasks.get? taskId).filter fun t => t.requestedBy = owner
  let _ ← Tx.demand task (.permission "Conversation task owner mismatch")
  let operation ← Tx.select fun l => l.operations.get? taskId
  let operation ← Tx.demand operation (.permission "Conversation task owner mismatch")
  Tx.require (operation.spec.kind = .request ∧ operation.spec.workspace = workspace)
    (.permission "Conversation task workspace or kind mismatch")
  let prior ← Tx.select fun l => l.turns.get? taskId
  match prior with
  | some turn =>
    let hashed ← Tx.lift (hashKey env key)
    let scope ← Tx.select fun l => l.sessions.get? turn.sessionId
    Tx.require (∃ s ∈ scope, s.ownerKey = owner ∧ s.conversationHash = hashed ∧
      s.workspaceRoot = workspace) (.permission "Conversation intake scope mismatch")
    pure turn
  | none =>
    let session ← sessionConn env owner key workspace fresh now
    let previous ← Tx.select fun l => lastTurn l session.id session.generation
    let turn : ConversationTurn :=
      { taskId, sessionId := session.id, generation := session.generation,
        sequence := session.nextSequence, relatedTaskId := previous.map (·.taskId),
        createdAt := now, updatedAt := now }
    insertTurn turn
    Tx.write fun l => { l with
      sessions := l.sessions.update (fun s => s.id = session.id) fun s =>
        { s with nextSequence := s.nextSequence + 1, updatedAt := now,
                 pendingTaskId := none, pendingExecutionId := none } }
    pure turn

/-- `has_earlier_work_conn`: an active turn, or an eligible queued turn that came before. -/
def HasEarlierWork (l : Ledger) (k : TaskId) : Prop :=
  ∃ current ∈ l.turns.rows, current.taskId = k ∧ ∃ earlier ∈ l.turns.rows,
    earlier.sessionId = current.sessionId ∧ earlier.generation = current.generation ∧
    earlier.taskId ≠ current.taskId ∧ ∃ t ∈ l.tasks.rows, t.id = earlier.taskId ∧
      ∃ o ∈ l.operations.rows, o.taskId = t.id ∧
        ((t.status = .running ∨ t.status = .cancelling) ∨
          earlier.sequence < current.sequence ∧ t.status = .queued ∧ o.eligible = true ∧
            o.attempts < o.maxAttempts)

instance (l : Ledger) (k : TaskId) : Decidable (HasEarlierWork l k) := by
  unfold HasEarlierWork; infer_instance

/-- `complete_conn`, called after the result row is written. -/
def completeConn (record : ClaimRecord) (kind : ReplyKind) (outcome : OutcomeStatus) (now : Time)
    (l : Ledger) : Ledger :=
  match l.turns.get? record.taskId with
  | none => l
  | some turn =>
    match l.sessions.get? turn.sessionId with
    | none => l
    | some session =>
      if (∃ t ∈ l.tasks.get? record.taskId, t.currentExecutionId = some record.executionId) ∧
          (l.results.get? record.executionId).isSome ∧ turn.generation = session.generation then
        let l := { l with
          turns := l.turns.update (fun t => t.taskId = record.taskId) fun t =>
            { t with replyKind := kind, completedExecutionId := some record.executionId,
                     updatedAt := now } }
        if turn.sequence + 1 = session.nextSequence then
          let question := outcome = .succeeded ∧ kind = .question
          { l with
            sessions := l.sessions.update
              (fun s => s.id = turn.sessionId ∧ s.generation = turn.generation) fun s =>
                { s with
                  pendingTaskId := if question then some record.taskId else none
                  pendingExecutionId := if question then some record.executionId else none
                  updatedAt := now } }
        else l
      else l

/-- `reset`, after the workspace check. -/
def resetConn (owner key root : String) (fresh : SessionId) (now : Time) : Op ℕ := do
  let session ← sessionConn env owner key root fresh now
  Tx.write fun l => { l with
    sessions := l.sessions.update (fun s => s.id = session.id) fun s =>
      { s with generation := s.generation + 1, memoryResetGeneration := s.generation + 1,
               nextSequence := 1, pendingTaskId := none, pendingExecutionId := none,
               updatedAt := now } }
  pure (session.generation + 1)

/-- Two ledgers that differ in their sessions and turns at most. -/
structure SameBesidesTurns (l l' : Ledger) : Prop where
  eq : l' = { l with sessions := l'.sessions, turns := l'.turns }

theorem SameBesidesTurns.refl (l : Ledger) : SameBesidesTurns l l := ⟨rfl⟩

theorem SameBesidesTurns.trans {l₁ l₂ l₃ : Ledger} (h₁ : SameBesidesTurns l₁ l₂)
    (h₂ : SameBesidesTurns l₂ l₃) : SameBesidesTurns l₁ l₃ := by
  obtain ⟨h₁⟩ := h₁
  obtain ⟨h₂⟩ := h₂
  rw [h₁] at h₂
  exact ⟨h₂⟩

theorem sessionConn_same {owner key workspace : String} {fresh : SessionId} {now : Time}
    {l l' : Ledger} {s : ConversationSession}
    (h : Tx.Ran (sessionConn env owner key workspace fresh now) l s l') : SameBesidesTurns l l' := by
  unfold sessionConn insertSession at h
  simp only [Tx.ran_lift_bind, Tx.ran_select_bind] at h
  obtain ⟨hashed, _, h⟩ := h
  cases hf : findSession l owner hashed workspace with
  | some session =>
    simp only [hf, Tx.ran_pure] at h
    exact h.2 ▸ .refl _
  | none =>
    simp only [hf, Tx.ran_attempt_bind, Option.map_eq_some_iff, Tx.ran_pure] at h
    obtain ⟨_, ⟨t, _, rfl⟩, _, rfl⟩ := h
    exact ⟨rfl⟩

/-- Binding writes the session and the turn only. -/
theorem bindConn_same {taskId : TaskId} {owner key workspace : String} {fresh : SessionId}
    {now : Time} {l l' : Ledger} {turn : ConversationTurn}
    (h : Tx.Ran (bindConn env taskId owner key workspace fresh now) l turn l') :
    SameBesidesTurns l l' := by
  unfold bindConn insertTurn at h
  simp only [Tx.ran_select_bind, Tx.ran_demand_bind, Tx.ran_require_bind] at h
  obtain ⟨_, _, o, _, _, h⟩ := h
  cases hp : l.turns.get? taskId with
  | some t =>
    simp only [hp, Tx.ran_lift_bind, Tx.ran_select_bind, Tx.ran_require_bind, Tx.ran_pure] at h
    obtain ⟨_, _, _, _, rfl⟩ := h
    exact .refl _
  | none =>
    simp only [hp] at h
    rw [Tx.ran_bind] at h
    obtain ⟨s, l₁, hs, h⟩ := h
    simp only [Tx.ran_select_bind, Tx.ran_attempt_bind, Tx.ran_write_bind, Tx.ran_pure] at h
    obtain ⟨l₂, ht, _, rfl⟩ := h
    have hlast : SameBesidesTurns l₁ l₂ := by
      split_ifs at ht
      obtain ⟨t, _, rfl⟩ := Option.map_eq_some_iff.mp ht
      exact ⟨rfl⟩
    exact ((sessionConn_same env hs).trans hlast).trans ⟨rfl⟩

theorem resetConn_same {owner key root : String} {fresh : SessionId} {now : Time} {l l' : Ledger}
    {n : ℕ} (h : Tx.Ran (resetConn env owner key root fresh now) l n l') :
    SameBesidesTurns l l' := by
  unfold resetConn at h
  rw [Tx.ran_bind] at h
  obtain ⟨s, l₁, hs, h⟩ := h
  simp only [Tx.ran_write_bind, Tx.ran_pure] at h
  exact (sessionConn_same env hs).trans (h.2 ▸ ⟨rfl⟩)

theorem completeConn_same (record : ClaimRecord) (kind : ReplyKind) (outcome : OutcomeStatus)
    (now : Time) (l : Ledger) : SameBesidesTurns l (completeConn record kind outcome now l) := by
  unfold completeConn
  split
  · exact .refl _
  · split
    · exact .refl _
    · dsimp only
      split_ifs <;> exact ⟨rfl⟩

/-- The place of a task's turn. -/
def turnKey (l : Ledger) (k : TaskId) : Option (SessionId × ℕ × ℕ) :=
  (l.turns.get? k).map fun t => (t.sessionId, t.generation, t.sequence)

theorem turnKey_eq_some {l : Ledger} {k : TaskId} {s : SessionId} {g q : ℕ} :
    turnKey l k = some (s, g, q) ↔
      ∃ t, l.turns.get? k = some t ∧ t.sessionId = s ∧ t.generation = g ∧ t.sequence = q := by
  simp [turnKey]

theorem sessionConn_turns {owner key workspace : String} {fresh : SessionId} {now : Time}
    {l l' : Ledger} {s : ConversationSession}
    (h : Tx.Ran (sessionConn env owner key workspace fresh now) l s l') : l'.turns = l.turns := by
  unfold sessionConn insertSession at h
  simp only [Tx.ran_lift_bind, Tx.ran_select_bind] at h
  obtain ⟨hashed, _, h⟩ := h
  cases hf : findSession l owner hashed workspace with
  | some session =>
    simp only [hf, Tx.ran_pure] at h
    rw [h.2]
  | none =>
    simp only [hf, Tx.ran_attempt_bind, Option.map_eq_some_iff, Tx.ran_pure] at h
    obtain ⟨_, ⟨t, _, rfl⟩, _, rfl⟩ := h
    rfl

/-- Binding adds a turn for an operation task that has none, and touches no other. -/
theorem bindConn_turns {taskId : TaskId} {owner key workspace : String} {fresh : SessionId}
    {now : Time} {l l' : Ledger} {turn : ConversationTurn}
    (h : Tx.Ran (bindConn env taskId owner key workspace fresh now) l turn l') :
    l'.turns = l.turns ∧ (l.turns.get? taskId).isSome = true ∨
      l.turns.get? taskId = none ∧ (l.operations.get? taskId).isSome = true ∧
        ∀ j, j ≠ taskId → l'.turns.get? j = l.turns.get? j := by
  unfold bindConn insertTurn at h
  simp only [Tx.ran_select_bind, Tx.ran_demand_bind, Tx.ran_require_bind] at h
  obtain ⟨_, _, o, ho, _, h⟩ := h
  cases hp : l.turns.get? taskId with
  | some t =>
    simp only [hp, Tx.ran_lift_bind, Tx.ran_select_bind, Tx.ran_require_bind, Tx.ran_pure] at h
    obtain ⟨_, _, _, _, rfl⟩ := h
    exact .inl ⟨rfl, rfl⟩
  | none =>
    simp only [hp] at h
    rw [Tx.ran_bind] at h
    obtain ⟨s, l₁, hs, h⟩ := h
    simp only [Tx.ran_select_bind, Tx.ran_attempt_bind, Tx.ran_write_bind, Tx.ran_pure] at h
    obtain ⟨l₂, ht, _, rfl⟩ := h
    refine .inr ⟨rfl, by rw [ho]; rfl, fun j hj => ?_⟩
    split_ifs at ht
    obtain ⟨t, hins, rfl⟩ := Option.map_eq_some_iff.mp ht
    dsimp only
    rw [Table.get?_insert hins, if_neg (by simpa using hj), sessionConn_turns env hs]

theorem resetConn_turns {owner key root : String} {fresh : SessionId} {now : Time} {l l' : Ledger}
    {n : ℕ} (h : Tx.Ran (resetConn env owner key root fresh now) l n l') : l'.turns = l.turns := by
  unfold resetConn at h
  rw [Tx.ran_bind] at h
  obtain ⟨s, l₁, hs, h⟩ := h
  simp only [Tx.ran_write_bind, Tx.ran_pure] at h
  have hturns : l'.turns = l₁.turns := by rw [h.2]
  rw [hturns, sessionConn_turns env hs]

theorem completeConn_turns (record : ClaimRecord) (kind : ReplyKind) (outcome : OutcomeStatus)
    (now : Time) (l : Ledger) (k : TaskId) :
    turnKey (completeConn record kind outcome now l) k = turnKey l k := by
  have hkeys : ((l.turns.update (fun t => t.taskId = record.taskId) fun t =>
      { t with replyKind := kind, completedExecutionId := some record.executionId
               updatedAt := now }).get? k).map (fun t => (t.sessionId, t.generation, t.sequence)) =
      turnKey l k := by
    refine Table.map_get?_update _ _ _ ?_ k _ ?_
    all_goals exact fun _ => rfl
  unfold completeConn
  split
  · rfl
  · split
    · rfl
    · dsimp only
      split_ifs
      · exact hkeys
      · exact hkeys
      · exact hkeys
      · rfl

end NyanyaAgent.Conversation
