import NyanyaAgent.Commands.Transitions

/-!
# The declared transitions of the generic ledger

What one step may do to a status, when it keeps to the tables, and what then holds of
whole runs.
-/
namespace NyanyaAgent.Safety
open NyanyaAgent.Schema NyanyaAgent.Relational NyanyaAgent.Runs NyanyaAgent.Queue
open NyanyaAgent.Commands

variable {w w₀ : LedgerWorld} {a : LedgerAction} {as : List LedgerAction} {l l' : CommandLedger}
  {b b' : Ledger} {P : Prop} {now clock entry : Time} {k : TaskId} {x : ExecutionId}

/-- An attempt ends once, and without force (`P`) it follows the table. -/
def ExecutionLaw (P : Prop) (s s' : ExecutionStatus) : Prop :=
  s' = s ∨ ¬ s.Terminal ∧ (P ∨ s' ∈ executionTransitions s)

/-- A completed task stays, a failed or cancelled one is only queued again, and without
force (`P`) every change follows the table. -/
def TaskLaw (P : Prop) (s s' : TaskStatus) : Prop :=
  s' = s ∨ s ≠ .completed ∧ (s = .failed ∨ s = .cancelled → s' = .queued) ∧
    (P ∨ s' ∈ taskTransitions s)

/-- An approval is decided once, and approved before its expiry. -/
def RecordLaw (clock : Time) (r r' : ApprovalRecord) : Prop :=
  r'.status = r.status ∨ r.status = .pending ∧ (r'.status = .rejected ∨ r'.status = .expired ∨
    r'.status = .approved ∧ clock < r'.expiresAt)

/-- Every row of one ledger is in the other, its status changed as the law says. -/
structure Lawful (P : Prop) (clock : Time) (l l' : CommandLedger) : Prop where
  execution : ∀ x e, l.base.executions.get? x = some e →
    ∃ e', l'.base.executions.get? x = some e' ∧ ExecutionLaw P e.status e'.status
  task : ∀ k t, l.base.tasks.get? k = some t →
    ∃ t', l'.base.tasks.get? k = some t' ∧ TaskLaw P t.status t'.status
  record : ∀ i r, l.records.get? i = some r →
    ∃ r', l'.records.get? i = some r' ∧ RecordLaw clock r r'

/-- The step was asked to force a status. -/
def Forced : LedgerAction → Prop
  | .transitionExecution _ _ force => force = true
  | _ => False

/-- The table lets a task take the status, or the step is forced on a task that is not over. -/
def TaskAllows (P : Prop) (t : AgentTask) (s : TaskStatus) : Prop :=
  s = t.status ∨ s ∈ taskTransitions t.status ∨ P ∧ ¬ t.status.Terminal

/-- The condition under which a step keeps to the tables: an attempt's move, a request and a
rejection reach a task whose table has the status they bring along, a request names an attempt
whose table has it, a task is written while its table still has the status that was checked,
and an approval entered before its expiry is also committed before it. -/
def Declared (w : LedgerWorld) : LedgerAction → Prop
  | .transitionExecution x status force => ∀ e, w.ledger.base.executions.get? x = some e →
    ∀ t, w.ledger.base.tasks.get? e.taskId = some t → ∀ s ∈ attemptTaskStatus status,
      TaskAllows (force = true) t s
  | .writeTask n => ∀ c ∈ w.writes[n]?, ∀ t, w.ledger.base.tasks.get? c.taskId = some t →
      TaskAllows False t c.status
  | .requestApproval r _ =>
    (∀ k ∈ r.taskId, ∀ t, w.ledger.base.tasks.get? k = some t →
      TaskAllows False t .awaitingApproval) ∧
    ∀ x ∈ r.executionId, ∀ e, w.ledger.base.executions.get? x = some e →
      e.status = .awaitingApproval ∨ .awaitingApproval ∈ executionTransitions e.status
  | .decide n => ∀ d ∈ w.decisions[n]?, ∀ r, w.ledger.records.get? d.approvalId = some r →
    r.status = .pending → d.entry < r.expiresAt →
      (d.decision = .approved → w.clock < r.expiresAt) ∧
      (d.decision = .rejected → ∀ k ∈ r.taskId, ∀ t, w.ledger.base.tasks.get? k = some t →
        TaskAllows False t .blocked)
  | _ => True

theorem TaskAllows.law {t : AgentTask} {s : TaskStatus} (h : TaskAllows P t s) :
    TaskLaw P t.status s := by
  rcases h with h | h | ⟨hP, h⟩
  · exact .inl h
  · refine .inr ⟨?_, ?_, .inr h⟩
    · intro hc
      rw [hc] at h
      cases h
    · rintro (hc | hc) <;>
      · rw [hc] at h
        simpa [taskTransitions] using h
  · refine .inr ⟨fun hc => h (.inl hc), fun hc => absurd ?_ h, .inl hP⟩
    exact .inr hc

theorem executionLaw_of_mem {s s' : ExecutionStatus} (h : s' ∈ executionTransitions s) :
    ExecutionLaw P s s' := by
  refine .inr ⟨?_, .inr h⟩
  rintro (hc | hc | hc | hc | hc) <;>
  · rw [hc] at h
    cases h

/-- A ledger whose tables are the old ones is lawful. -/
theorem Lawful.refl (P : Prop) (clock : Time) (l : CommandLedger) : Lawful P clock l l where
  execution _ e he := ⟨e, he, .inl rfl⟩
  task _ t ht := ⟨t, ht, .inl rfl⟩
  record _ r hr := ⟨r, hr, .inl rfl⟩

/-- The statuses of the tasks follow the law. -/
def TasksLawful (P : Prop) (b b' : Ledger) : Prop := ∀ k t, b.tasks.get? k = some t →
  ∃ t', b'.tasks.get? k = some t' ∧ TaskLaw P t.status t'.status

def ExecutionsLawful (P : Prop) (b b' : Ledger) : Prop := ∀ x e, b.executions.get? x = some e →
  ∃ e', b'.executions.get? x = some e' ∧ ExecutionLaw P e.status e'.status

theorem TasksLawful.of_eq (h : b'.tasks = b.tasks) : TasksLawful P b b' := by
  intro k t ht
  exact ⟨t, h ▸ ht, .inl rfl⟩

theorem ExecutionsLawful.of_eq (h : b'.executions = b.executions) : ExecutionsLawful P b b' := by
  intro x e he
  exact ⟨e, h ▸ he, .inl rfl⟩

/-- One task takes a status its table allows. -/
theorem tasksLawful_update {f : AgentTask → AgentTask} (hf : ∀ r, (f r).id = r.id)
    (h : ∀ t, b.tasks.get? k = some t → TaskLaw P t.status (f t).status) :
    TasksLawful P b (b.updateTask k f hf) := by
  intro j t ht
  obtain ⟨t', ht', rfl | ⟨rfl, rfl⟩⟩ := Table.exists_update_key (k := k) f hf ht
  · exact ⟨_, ht', .inl rfl⟩
  · exact ⟨_, ht', h t ht⟩

theorem executionsLawful_update {f : Execution → Execution} (hf : ∀ r, (f r).id = r.id)
    (h : ∀ e, b.executions.get? x = some e → ExecutionLaw P e.status (f e).status) :
    ExecutionsLawful P b (b.updateExecution x f hf) := by
  intro y e he
  obtain ⟨e', he', rfl | ⟨rfl, rfl⟩⟩ := Table.exists_update_key (k := x) f hf he
  · exact ⟨_, he', .inl rfl⟩
  · exact ⟨_, he', h e he⟩

theorem recordsLawful_update {i : ApprovalId} {f : ApprovalRecord → ApprovalRecord}
    (hf : ∀ r, (f r).id = r.id)
    (h : ∀ r, l.records.get? i = some r → RecordLaw clock r (f r)) :
    ∀ j r, l.records.get? j = some r →
      ∃ r', (updateRecord i f hf l).records.get? j = some r' ∧ RecordLaw clock r r' := by
  intro j r hr
  obtain ⟨r', hr', rfl | ⟨rfl, rfl⟩⟩ := Table.exists_update_key (k := i) f hf hr
  · exact ⟨_, hr', .inl rfl⟩
  · exact ⟨_, hr', h r hr⟩

theorem commit_onBase (m : Op Unit) (l : CommandLedger) :
    (∃ b', Tx.Ran m l.base () b' ∧ ((onBase m).commit l).2 = { l with base := b' }) ∨
      ((onBase m).commit l).2 = l := by
  rcases Tx.commit_cases (onBase m) l with ⟨u, l', hran, hcommit⟩ | ⟨e, _, hcommit⟩
  · left
    unfold Tx.Ran onBase at hran
    obtain ⟨hok, hl⟩ := Prod.mk.inj hran
    refine ⟨(m l.base).2, ?_, by rw [hcommit, ← hl]⟩
    unfold Tx.Ran
    rw [← hok]
  · exact .inr (by rw [hcommit])

/-- A transaction on the tables is lawful when what it does to them is. -/
theorem lawful_onBase {m : Op Unit}
    (h : ∀ b', Tx.Ran m l.base () b' → TasksLawful P l.base b' ∧ ExecutionsLawful P l.base b') :
    Lawful P clock l ((onBase m).commit l).2 := by
  rcases commit_onBase m l with ⟨b', hran, hl⟩ | hl
  · obtain ⟨htasks, hexecutions⟩ := h b' hran
    rw [hl]
    exact ⟨hexecutions, htasks, fun i r hr => ⟨r, hr, .inl rfl⟩⟩
  · rw [hl]
    exact .refl _ _ _

theorem createExecution_lawful {e : NewExecution} {fresh : ExecutionId}
    (h : Tx.Ran (createExecution e fresh now) b () b') :
    TasksLawful P b b' ∧ ExecutionsLawful P b b' := by
  unfold createExecution insertExecution at h
  simp only [Tx.ran_select_bind, Tx.ran_demand_bind, Tx.ran_attempt_bind, Tx.ran_write] at h
  obtain ⟨t, _, b₁, hinsert, rfl⟩ := h
  obtain ⟨executions, hrow, rfl⟩ := Option.map_eq_some_iff.mp hinsert
  refine ⟨?_, ?_⟩
  · exact tasksLawful_update (b := { b with executions := executions }) _ fun t _ => .inl rfl
  · intro x e he
    exact ⟨e, Table.get?_insert_of_some hrow he, .inl rfl⟩

theorem moveAttempt_lawful {e : Execution} {status : ExecutionStatus}
    (hexecution : ∀ e', b.executions.get? e.id = some e' → ExecutionLaw P e'.status status)
    (htask : ∀ t, b.tasks.get? e.taskId = some t → ∀ s ∈ attemptTaskStatus status,
      TaskLaw P t.status s) :
    TasksLawful P b (moveAttempt e status now b) ∧
      ExecutionsLawful P b (moveAttempt e status now b) := by
  unfold moveAttempt
  have hmoved := executionsLawful_update (P := P) (b := b) (x := e.id) (f := fun r =>
    { r with
      status := status, updatedAt := now
      startedAt := if (status = .starting ∨ status = .running) ∧ r.startedAt = none then some now
        else r.startedAt
      lastHeartbeatAt := if status = .running then some now else r.lastHeartbeatAt
      endedAt := if status.Terminal then some now else r.endedAt }) (fun _ => rfl) hexecution
  cases hs : attemptTaskStatus status with
  | none => exact ⟨.of_eq rfl, hmoved⟩
  | some s =>
    refine ⟨?_, hmoved⟩
    exact tasksLawful_update (b := b) _ fun t ht => htask t ht s hs

theorem transitionExecution_lawful {status : ExecutionStatus} {force : Bool}
    (h : Tx.Ran (transitionExecution x status force now) b () b')
    (htask : ∀ e, b.executions.get? x = some e → ∀ t, b.tasks.get? e.taskId = some t →
      ∀ s ∈ attemptTaskStatus status, TaskAllows (force = true) t s) :
    TasksLawful (force = true) b b' ∧ ExecutionsLawful (force = true) b b' := by
  unfold transitionExecution at h
  simp only [Tx.ran_select_bind, Tx.ran_demand_bind, Tx.ran_require_bind, Tx.ran_write] at h
  obtain ⟨e, he, _, hterminal, hedge, rfl⟩ := h
  have hid : e.id = x := Table.key_of_get? he
  apply moveAttempt_lawful
  · intro e' he'
    rw [hid, he] at he'
    obtain rfl := Option.some.inj he'
    rcases hedge with heq | hforce | hmem
    · exact .inl heq
    · by_cases hsame : status = e.status
      · exact .inl hsame
      · exact .inr ⟨fun hc => hterminal ⟨hc, hsame⟩, .inl hforce⟩
    · exact executionLaw_of_mem hmem
  · exact fun t ht s hs => (htask e he t ht s hs).law

variable (now) in
theorem setTask_lawful {k : Option TaskId} {s : TaskStatus}
    (h : ∀ j ∈ k, ∀ t, b.tasks.get? j = some t → TaskLaw P t.status s) :
    TasksLawful P b (setTask k s now b) ∧ (setTask k s now b).executions = b.executions := by
  cases k with
  | none => exact ⟨.of_eq rfl, rfl⟩
  | some k => exact ⟨tasksLawful_update _ fun t ht => h k rfl t ht, rfl⟩

variable (now) in
theorem holdExecution_lawful {x : Option ExecutionId}
    (h : ∀ y ∈ x, ∀ e, b.executions.get? y = some e → ExecutionLaw P e.status .awaitingApproval) :
    ExecutionsLawful P b (holdExecution x now b) ∧ (holdExecution x now b).tasks = b.tasks := by
  cases x with
  | none => exact ⟨.of_eq rfl, rfl⟩
  | some x => exact ⟨executionsLawful_update _ fun e he => h x rfl e he, rfl⟩

theorem requestApproval_lawful {r : ApprovalRequest} {fresh i : ApprovalId}
    (h : Tx.Ran (requestApproval r fresh now) l i l')
    (htask : ∀ k ∈ r.taskId, ∀ t, l.base.tasks.get? k = some t → TaskAllows False t .awaitingApproval)
    (hexecution : ∀ x ∈ r.executionId, ∀ e, l.base.executions.get? x = some e →
      e.status = .awaitingApproval ∨ .awaitingApproval ∈ executionTransitions e.status) :
    Lawful False clock l l' := by
  unfold requestApproval insertRecord at h
  simp only [Tx.ran_require_bind, Tx.ran_select_bind, Tx.ran_attempt_bind, Tx.ran_write_bind,
    Tx.ran_pure] at h
  obtain ⟨_, _, l₁, hinsert, _, rfl⟩ := h
  obtain ⟨records, hrow, rfl⟩ := Option.map_eq_some_iff.mp hinsert
  obtain ⟨htasks, hsame⟩ := setTask_lawful (P := False) now (b := l.base)
    fun k hk t ht => (htask k hk t ht).law
  obtain ⟨hexecutions, hsame'⟩ := holdExecution_lawful (P := False) now
    (b := setTask r.taskId .awaitingApproval now l.base) (x := r.executionId) (by
      intro y hy e he
      rw [hsame] at he
      rcases hexecution y hy e he with heq | hmem
      · exact .inl heq.symm
      · exact executionLaw_of_mem hmem)
  refine ⟨?_, ?_, ?_⟩
  · intro x e he
    exact hexecutions x e (by rw [hsame]; exact he)
  · intro k t ht
    obtain ⟨t', ht', hlaw⟩ := htasks k t ht
    exact ⟨t', hsame'.symm ▸ ht', hlaw⟩
  · intro j r' hr'
    exact ⟨r', Table.get?_insert_of_some hrow hr', .inl rfl⟩

theorem decideApproval_lawful {i : ApprovalId} {decision : Decision} {decidedBy : String}
    {answer : Except Err Unit}
    (h : Tx.Ran (decideApproval i decision decidedBy entry) l answer l')
    (hdeclared : ∀ r, l.records.get? i = some r → r.status = .pending → entry < r.expiresAt →
      (decision = .approved → clock < r.expiresAt) ∧
      (decision = .rejected → ∀ k ∈ r.taskId, ∀ t, l.base.tasks.get? k = some t →
        TaskAllows False t .blocked)) :
    Lawful False clock l l' := by
  unfold decideApproval at h
  simp only [Tx.ran_select_bind, Tx.ran_demand_bind, Tx.ran_require_bind, Tx.ran_ite, Tx.ran_pure,
    Tx.ran_write_bind] at h
  obtain ⟨r, hr, _, _, hcases⟩ := h
  rcases hcases with ⟨_, _, _, rfl⟩ | ⟨hpending, hcases⟩
  · exact .refl _ _ _
  · rw [not_not] at hpending
    rcases hcases with ⟨_, _, rfl⟩ | ⟨hlive, _, rfl⟩
    · refine ⟨fun x e he => ⟨e, he, .inl rfl⟩, fun k t ht => ⟨t, ht, .inl rfl⟩, ?_⟩
      apply recordsLawful_update
      intro r' hr'
      rw [hr] at hr'
      obtain rfl := Option.some.inj hr'
      exact .inr ⟨hpending, .inr (.inl rfl)⟩
    · obtain ⟨happroved, hrejected⟩ := hdeclared r hr hpending (lt_of_not_ge hlive)
      refine ⟨?_, ?_, ?_⟩
      · intro x e he
        refine ⟨e, ?_, .inl rfl⟩
        dsimp only [updateRecord]
        split_ifs
        · cases r.taskId <;> exact he
        · exact he
      · dsimp only [updateRecord]
        split_ifs with hdecision
        · exact (setTask_lawful _ fun k hk t ht => (hrejected hdecision k hk t ht).law).1
        · exact TasksLawful.of_eq rfl
      · have hid : ∀ r : ApprovalRecord, ({ r with
            status := decision.status
            decidedBy := decidedBy
            decidedAt := some entry } : ApprovalRecord).id = r.id := fun _ => rfl
        refine recordsLawful_update hid ?_
        intro r' hr'
        rw [hr] at hr'
        obtain rfl := Option.some.inj hr'
        refine .inr ⟨hpending, ?_⟩
        cases decision with
        | approved => exact .inr (.inr ⟨rfl, happroved rfl⟩)
        | rejected => exact .inl rfl

/-- A step under its condition keeps to the tables. -/
theorem step_lawful (h : Declared w a) :
    Lawful (Forced a) w.clock w.ledger (stepLedger w a).ledger := by
  cases a with
  | createExecution e fresh => exact lawful_onBase fun b' hb' => createExecution_lawful hb'
  | transitionExecution x status force =>
    exact lawful_onBase fun b' hb' => transitionExecution_lawful hb' h
  | transitionTask k status =>
    simp only [stepLedger]
    split <;> exact .refl _ _ _
  | writeTask n =>
    simp only [stepLedger]
    split
    · rename_i c hc
      refine ⟨fun x e he => ⟨e, he, .inl rfl⟩, ?_, fun i r hr => ⟨r, hr, .inl rfl⟩⟩
      exact tasksLawful_update _ fun t ht => (h c hc t ht).law
    · exact .refl _ _ _
  | requestApproval r fresh =>
    simp only [stepLedger]
    rcases Tx.commit_cases (requestApproval r fresh w.clock) w.ledger with
      ⟨i, l', hran, hcommit⟩ | ⟨e, _, hcommit⟩
    · rw [hcommit]
      exact requestApproval_lawful hran h.1 h.2
    · rw [hcommit]
      exact .refl _ _ _
  | enterDecision i decision decidedBy => exact .refl _ _ _
  | decide n =>
    simp only [stepLedger]
    split
    · rename_i d hd
      dsimp only
      rcases Tx.commit_cases (decideApproval d.approvalId d.decision d.decidedBy d.entry) w.ledger
        with ⟨answer, l', hran, hcommit⟩ | ⟨e, _, hcommit⟩
      · rw [hcommit]
        exact decideApproval_lawful hran fun r hr => h d hd r hr
      · rw [hcommit]
        exact .refl _ _ _
    · exact .refl _ _ _
  | tick elapsed => exact .refl _ _ _

/-- What a run keeps: ended attempts, completed tasks and decided approvals. -/
structure Settled (l l' : CommandLedger) : Prop where
  execution : ∀ x e, l.base.executions.get? x = some e → e.status.Terminal →
    ∃ e', l'.base.executions.get? x = some e' ∧ e'.status = e.status
  task : ∀ k t, l.base.tasks.get? k = some t → t.status = .completed →
    ∃ t', l'.base.tasks.get? k = some t' ∧ t'.status = .completed
  record : ∀ i r, l.records.get? i = some r → r.status ≠ .pending →
    ∃ r', l'.records.get? i = some r' ∧ r'.status = r.status

theorem Lawful.settled (h : Lawful P clock l l') : Settled l l' where
  execution := by
    intro x e he hterminal
    obtain ⟨e', he', hlaw | ⟨hopen, _⟩⟩ := h.execution x e he
    · exact ⟨e', he', hlaw⟩
    · exact absurd hterminal hopen
  task := by
    intro k t ht hcompleted
    obtain ⟨t', ht', hlaw | ⟨hopen, _⟩⟩ := h.task k t ht
    · exact ⟨t', ht', hlaw.trans hcompleted⟩
    · exact absurd hcompleted hopen
  record := by
    intro i r hr hdecided
    obtain ⟨r', hr', hlaw | ⟨hopen, _⟩⟩ := h.record i r hr
    · exact ⟨r', hr', hlaw⟩
    · exact absurd hopen hdecided

theorem Settled.trans {l'' : CommandLedger} (h : Settled l l') (h' : Settled l' l'') :
    Settled l l'' where
  execution := by
    intro x e he hterminal
    obtain ⟨e', he', hs⟩ := h.execution x e he hterminal
    obtain ⟨e'', he'', hs'⟩ := h'.execution x e' he' (hs ▸ hterminal)
    exact ⟨e'', he'', hs'.trans hs⟩
  task := by
    intro k t ht hcompleted
    obtain ⟨t', ht', hs⟩ := h.task k t ht hcompleted
    exact h'.task k t' ht' hs
  record := by
    intro i r hr hdecided
    obtain ⟨r', hr', hs⟩ := h.record i r hr hdecided
    obtain ⟨r'', hr'', hs'⟩ := h'.record i r' hr' (hs ▸ hdecided)
    exact ⟨r'', hr'', hs'.trans hs⟩

/-- In a run whose steps keep to the condition, every step keeps to the declared tables, and
ended attempts, completed tasks and decided approvals never change again. -/
theorem declared_transitions (h : Run stepLedger Declared w₀ as w) :
    (∀ as₁ a as₂, as = as₁ ++ a :: as₂ →
      Lawful (Forced a) (as₁.foldl stepLedger w₀).clock (as₁.foldl stepLedger w₀).ledger
        (stepLedger (as₁.foldl stepLedger w₀) a).ledger) ∧
      Settled w₀.ledger w.ledger := by
  constructor
  · rintro as₁ a as₂ rfl
    exact step_lawful h.split.2
  · have hrefl : ∀ w : LedgerWorld, Settled w.ledger w.ledger :=
      fun w => (Lawful.refl True 0 w.ledger).settled
    have htrans : ∀ w₁ w₂ w₃ : LedgerWorld, Settled w₁.ledger w₂.ledger →
        Settled w₂.ledger w₃.ledger → Settled w₁.ledger w₃.ledger := fun _ _ _ h₁ h₂ => h₁.trans h₂
    have hstep : ∀ w a, True → Declared w a → Settled w.ledger (stepLedger w a).ledger :=
      fun w a _ ha => (step_lawful ha).settled
    exact h.relation (R := fun w w' => Settled w.ledger w'.ledger) hrefl htrans
      (fun _ _ _ _ => trivial) hstep trivial

/-- A task with one attempt. -/
def plainCommands : LedgerWorld :=
  let task : AgentTask := { id := 1, currentExecutionId := some 2, createdAt := 0, updatedAt := 0 }
  let attempt : Execution :=
    { id := 2, taskId := 1, adapterType := "subprocess", createdAt := 0, updatedAt := 0 }
  { ledger := { base := { tasks := ⟨[task], by simp⟩, executions := ⟨[attempt], by simp⟩ } } }

/-- The attempt runs and succeeds. -/
def plainAttempt : List LedgerAction :=
  [.transitionExecution 2 .running false, .transitionExecution 2 .succeeded false]

theorem declared_transitions_plain :
    Settled plainCommands.ledger (plainAttempt.foldl stepLedger plainCommands).ledger := by
  have hdeclared : ∀ w : LedgerWorld, ∀ s : ExecutionStatus, ∀ o : TaskStatus,
      attemptTaskStatus s = some o →
      (w.ledger.base.tasks.rows.all fun t => o ∈ taskTransitions t.status) = true →
      Declared w (.transitionExecution 2 s false) := by
    intro w s o hs hall e he t ht s' hs'
    rw [hs] at hs'
    obtain rfl := Option.some.inj hs'
    have hmem := List.all_eq_true.mp hall t (Table.get?_eq_some.mp ht).1
    exact .inr (.inl (of_decide_eq_true hmem))
  have hrun : Run stepLedger Declared plainCommands plainAttempt
      (plainAttempt.foldl stepLedger plainCommands) :=
    .cons (hdeclared _ _ .running rfl (by decide +kernel))
      (.cons (hdeclared _ _ .completed rfl (by decide +kernel)) (.nil _))
  exact (declared_transitions hrun).2

/-- A request for the attempt that succeeded holds it again. -/
theorem ended_attempt_reopened :
    let w := plainAttempt.foldl stepLedger plainCommands
    let w' := stepLedger w
      (.requestApproval { action := "workspace.write", requestedBy := "owner", executionId := some 2 } 3)
    (w.ledger.base.executions.get? 2).map (·.status) = some .succeeded ∧
      (w'.ledger.base.executions.get? 2).map (·.status) = some .awaitingApproval := by
  decide +kernel

end NyanyaAgent.Safety
