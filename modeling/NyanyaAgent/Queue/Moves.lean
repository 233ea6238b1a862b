import NyanyaAgent.Queue.Local
import NyanyaAgent.Queue.View

/-!
# The moves of the queue's operations

The view of a ledger, and the move each operation of the queue makes on it.
-/
namespace NyanyaAgent.Queue
open NyanyaAgent.Schema NyanyaAgent.Relational NyanyaAgent.Operations

variable {env : Environment} {P : Prop} {l l' : Ledger} {k : TaskId} {x : ExecutionId}

def view (l : Ledger) : View where
  task k := (l.tasks.get? k).map fun t => (t.status, t.currentExecutionId)
  claim k := (l.claims.get? k).map fun c => (c.ownerKey, c.executionId, c.released)
  attempt x := (l.executions.get? x).map fun e => (e.taskId, e.status)
  result x := (l.results.get? x).map fun r => (r.taskId, r.outcome)

theorem view_updateTask {t : AgentTask} (f : AgentTask → AgentTask) (hf : ∀ r, (f r).id = r.id)
    (h : l.tasks.get? k = some t) : view (l.updateTask k f hf) =
      { view l with
        task := Function.update (view l).task k (some ((f t).status, (f t).currentExecutionId)) } := by
  unfold view
  congr 1
  exact l.tasks.map_update f hf _ h

theorem view_updateExecution {e : Execution} (f : Execution → Execution)
    (hf : ∀ r, (f r).id = r.id) (h : l.executions.get? x = some e) :
    view (l.updateExecution x f hf) =
      { view l with
        attempt := Function.update (view l).attempt x (some ((f e).taskId, (f e).status)) } := by
  unfold view
  congr 1
  exact l.executions.map_update f hf _ h

theorem view_releaseClaim {c : TaskClaim} (h : l.claims.get? k = some c) :
    view (l.releaseClaim k) =
      { view l with
        claim := Function.update (view l).claim k (some (c.ownerKey, c.executionId, true)) } := by
  unfold view
  congr 1
  exact l.claims.map_update (fun c => { c with released := true }) (fun _ => rfl) _ h

theorem view_insertTask {r : AgentTask} {tasks : Table AgentTask.id}
    (h : l.tasks.insert r = some tasks) : view { l with tasks := tasks } =
      { view l with
        task := Function.update (view l).task r.id (some (r.status, r.currentExecutionId)) } := by
  unfold view
  congr 1
  exact Table.map_insert h _

theorem view_insertClaim {r : TaskClaim} {claims : Table TaskClaim.taskId}
    (h : l.claims.insert r = some claims) : view { l with claims := claims } =
      { view l with
        claim := Function.update (view l).claim r.taskId
          (some (r.ownerKey, r.executionId, r.released)) } := by
  unfold view
  congr 1
  exact Table.map_insert h _

theorem view_insertExecution {r : Execution} {executions : Table Execution.id}
    (h : l.executions.insert r = some executions) : view { l with executions := executions } =
      { view l with
        attempt := Function.update (view l).attempt r.id (some (r.taskId, r.status)) } := by
  unfold view
  congr 1
  exact Table.map_insert h _

theorem view_insertResult {r : TaskResult} {results : Table TaskResult.executionId}
    (h : l.results.insert r = some results) : view { l with results := results } =
      { view l with
        result := Function.update (view l).result r.executionId (some (r.taskId, r.outcome)) } := by
  unfold view
  congr 1
  exact Table.map_insert h _

/-- What the view does not show. -/
theorem view_congr (ht : l'.tasks = l.tasks) (hc : l'.claims = l.claims)
    (he : l'.executions = l.executions) (hr : l'.results = l.results) : view l' = view l := by
  unfold view
  rw [ht, hc, he, hr]

theorem submit_move {s : Submission} {fresh : TaskId} {now : Time}
    (h : Tx.Ran (submit s fresh now) l k l') : Move P (view l) (view l') := by
  unfold submit insertTask at h
  rw [Tx.ran_select_bind] at h
  split at h
  · rw [Tx.ran_attempt_bind] at h
    obtain ⟨l₁, hinsert, h⟩ := h
    obtain ⟨tasks, htasks, rfl⟩ := Option.map_eq_some_iff.mp hinsert
    obtain ⟨_, rfl⟩ := Tx.ran_pure.mp h
    have hfree : (view l).task fresh = none := by
      have hnone : l.tasks.get? fresh = none := Table.get?_of_insert htasks
      simp only [view, hnone, Option.map_none]
    rw [view_insertTask htasks]
    exact .enter hfree
  · rename_i t hfound
    rw [Tx.ran_write_bind] at h
    obtain ⟨_, rfl⟩ := Tx.ran_pure.mp h
    have hrow : l.tasks.get? t.id = some t := by
      obtain ⟨q, _, hq⟩ := Option.bind_eq_some_iff.mp hfound
      exact Table.mem_rows_iff.mp (List.mem_of_find?_eq_some hq)
    rw [view_updateTask _ _ hrow, Function.update_eq_self_iff.mpr (by simp only [view, hrow]; rfl)]
    exact .same _

theorem claim_move {worker : WorkerId} {owner adapter : String} {entry : Time}
    {r : Option LocalClaim} (h : Tx.Ran (claim k worker owner adapter x entry) l r l') :
    r = none ∧ l' = l ∨ r = some ⟨k, worker, x⟩ ∧ Claimable l k owner ∧
      l.executions.get? x = none ∧ view l' = (view l).start k owner x := by
  unfold claim insertExecution insertClaim at h
  simp only [Tx.ran_select_bind, decide_eq_true_eq] at h
  split_ifs at h with hfree
  · right
    simp only [Tx.ran_select_bind, Tx.ran_attempt_bind, Option.map_eq_some_iff,
      Tx.ran_write_bind, Tx.ran_pure] at h
    obtain ⟨_, ⟨executions, he, rfl⟩, _, ⟨claims, hc, rfl⟩, rfl, rfl⟩ := h
    obtain ⟨⟨t, ht, _⟩, _⟩ := id hfree
    refine ⟨rfl, hfree, Table.get?_of_insert he, ?_⟩
    have ht' : ({ l with executions := executions, claims := claims } : Ledger).tasks.get? k =
        some t := ht
    rw [view_updateTask _ _ ht', view_insertClaim hc, view_insertExecution he]
    rfl
  · left
    exact Tx.ran_pure.mp h

theorem Claimable.start {owner : String} (h : Claimable l k owner)
    (hx : l.executions.get? x = none) : Move P (view l) ((view l).start k owner x) := by
  obtain ⟨⟨t, ht, hqueued, _⟩, hnone, halone⟩ := h
  refine .start (y := t.currentExecutionId) ?_ ?_ ?_ ?_
  · simp only [view, Option.mem_def.mp ht, Option.map_some, hqueued]
  · simp only [view, hnone, Option.map_none]
  · intro j z hj
    obtain ⟨c, hc, hrow⟩ := Option.map_eq_some_iff.mp hj
    have hreleased := halone c (Table.get?_eq_some.mp hc).1 (Prod.mk.inj hrow).1
    rw [hreleased] at hrow
    cases hrow
  · simp only [view, hx, Option.map_none]

theorem renew_view {c : LocalClaim} {entry : Time} {b : Bool}
    (h : Tx.Ran (renew c.record entry) l b l') : view l' = view l := by
  unfold renew at h
  simp only [Tx.ran_select_bind, decide_eq_true_eq] at h
  split_ifs at h
  · simp only [Tx.ran_write_bind, Tx.ran_pure] at h
    obtain ⟨_, rfl⟩ := h
    unfold view
    congr 1
    · funext j
      apply Table.map_get?_update
      · exact fun _ => rfl
      · exact fun _ => rfl
    · funext j
      apply Table.map_get?_update
      · exact fun _ => rfl
      · exact fun _ => rfl
  · rw [(Tx.ran_pure.mp h).2]

section Together
variable {e : Execution} {t : AgentTask} {row : TaskClaim} (f : Execution → Execution)
  (hf : ∀ r, (f r).id = r.id) (g : AgentTask → AgentTask) (hg : ∀ r, (g r).id = r.id)

theorem view_moved (he : l.executions.get? x = some e) (ht : l.tasks.get? k = some t) :
    view ((l.updateExecution x f hf).updateTask k g hg) =
      { view l with
        task := Function.update (view l).task k (some ((g t).status, (g t).currentExecutionId))
        attempt := Function.update (view l).attempt x (some ((f e).taskId, (f e).status)) } := by
  have ht' : (l.updateExecution x f hf).tasks.get? k = some t := ht
  rw [view_updateTask _ _ ht', view_updateExecution _ _ he]

theorem view_settled (he : l.executions.get? x = some e) (ht : l.tasks.get? k = some t)
    (hc : l.claims.get? k = some row) :
    view (((l.updateExecution x f hf).updateTask k g hg).releaseClaim k) =
      { view l with
        task := Function.update (view l).task k (some ((g t).status, (g t).currentExecutionId))
        claim := Function.update (view l).claim k (some (row.ownerKey, row.executionId, true))
        attempt := Function.update (view l).attempt x (some ((f e).taskId, (f e).status)) } := by
  have hc' : ((l.updateExecution x f hf).updateTask k g hg).claims.get? k = some row := hc
  rw [view_releaseClaim hc', view_moved _ _ _ _ he ht]

end Together

/-- The turn and the event of a result. -/
theorem recorded_view {record : ClaimRecord} {kind : ReplyKind} {out : OutcomeStatus} {now : Time}
    {event : ExecutionEvent} {u : Unit}
    (h : Tx.Ran ((do
      Tx.write (Conversation.completeConn record kind out now)
      Tx.write fun l => l.appendEvent event) : Op Unit) l u l') : view l' = view l := by
  simp only [Tx.ran_write_bind, Tx.ran_write] at h
  rw [h, (Conversation.completeConn_same record kind out now l).eq]
  exact view_congr rfl rfl rfl rfl

/-- What `finish` checked, and the view it leaves. -/
theorem finish_move {c : LocalClaim} {outcome : TaskOutcome} {freshApproval : ApprovalId}
    {entry now : Time} {u : Unit}
    (h : Tx.Ran (finish env c outcome freshApproval entry now) l u l') :
    ∃ e row, Fenced l c.record entry e ∧ l.claims.get? c.taskId = some row ∧
      l.results.get? c.executionId = none ∧
      view l' = (view l).settle c.taskId e.taskId row.ownerKey c.executionId
        (recordedOutcome l c e outcome).status := by
  unfold finish insertResult at h
  simp only [Tx.ran_select_bind, Tx.ran_demand_bind, Tx.ran_write_bind, Tx.ran_attempt_bind,
    Option.map_eq_some_iff] at h
  obtain ⟨e, he, _, ⟨results, hresult, rfl⟩, h⟩ := h
  have hfenced : Fenced l c.record entry e := by
    rw [fencedExecution, Option.filter_eq_some_iff, decide_eq_true_eq] at he
    exact he.2
  obtain ⟨hrow, hopen, row, hclaim, hworker, hx, hreleased, hlease, t, ht, hcurrent⟩ := id hfenced
  refine ⟨e, row, hfenced, hclaim, Table.get?_of_insert hresult, ?_⟩
  have hmoved : view l' = view { concludeAttempt c.record (recordedOutcome l c e outcome).status
      entry l with results := results } := by
    split_ifs at h
    · rw [Tx.ran_bind] at h
      obtain ⟨_, l₂, hreview, h⟩ := h
      unfold requestReview insertApproval at hreview
      rw [Tx.ran_attempt, Option.map_eq_some_iff] at hreview
      obtain ⟨approvals, _, rfl⟩ := hreview
      rw [recorded_view h]
      exact view_congr rfl rfl rfl rfl
    · rw [recorded_view h]
      exact view_congr rfl rfl rfl rfl
  have hview : view (concludeAttempt c.record (recordedOutcome l c e outcome).status entry l) =
      { (view l).settle c.taskId e.taskId row.ownerKey c.executionId
          (recordedOutcome l c e outcome).status with result := (view l).result } := by
    refine (view_settled _ _ _ _ hrow ht hclaim).trans ?_
    rw [hcurrent, hx]
    rfl
  rw [hmoved, view_insertResult hresult, hview]
  rfl

/-- The move of an attempt by a cancellation. -/
theorem transitionExecution_view {status : ExecutionStatus} {force : Bool} {now : Time} {u : Unit}
    (h : Tx.Ran (transitionExecution x status force now) l u l') :
    ∃ e t, l.executions.get? x = some e ∧ l.tasks.get? e.taskId = some t ∧
      t.currentExecutionId = some x ∧ ¬ (e.status.Terminal ∧ status ≠ e.status) ∧
      (status = .cancelling → view l' = (view l).stop e.taskId x) ∧
      (status = .cancelled → view l' = (view l).dismiss e.taskId x) := by
  unfold transitionExecution at h
  simp only [Tx.ran_select_bind, Tx.ran_demand_bind, Tx.ran_require_bind, Tx.ran_write] at h
  obtain ⟨e, he, howner, hterminal, _, rfl⟩ := h
  obtain ⟨t, ht, hcurrent⟩ := Option.bind_eq_some_iff.mp howner
  have hid : e.id = x := Table.key_of_get? he
  subst hid
  refine ⟨e, t, he, ht, hcurrent, hterminal, ?_, ?_⟩
  · rintro rfl
    unfold moveAttempt
    simp only [attemptTaskStatus]
    rw [view_updateExecution (e := e) _ _ he]
    rfl
  · rintro rfl
    unfold moveAttempt
    simp only [attemptTaskStatus]
    refine (view_moved _ _ _ _ he ht).trans ?_
    rw [hcurrent]
    rfl

theorem transitionTask_view {now : Time} {u : Unit}
    (h : Tx.Ran (transitionTask k .cancelled now) l u l') :
    ∃ t, l.tasks.get? k = some t ∧ view l' = (view l).force k t.currentExecutionId := by
  unfold transitionTask at h
  simp only [Tx.ran_select_bind, Tx.ran_demand_bind, Tx.ran_write] at h
  obtain ⟨t, ht, rfl⟩ := h
  refine ⟨t, ht, ?_⟩
  rw [view_updateTask (t := t) _ _ ht]
  rfl

end NyanyaAgent.Queue
