import NyanyaAgent.Operations.Environment

/-!
# Execution ownership

`require_execution_ownership`: the join that shows a worker's record to be the
current, running, leased attempt of a live worker.
-/
namespace NyanyaAgent.Operations
open NyanyaAgent.Schema NyanyaAgent.Relational

/-- The rows of `require_execution_ownership` for the operation `o` of the record's task. -/
structure OwnsExecution (l : Ledger) (record : ClaimRecord) (owner : String) (now : Time)
    (o : TaskOperation) : Prop where
  operation : l.operations.get? record.taskId = some o
  eligible : o.eligible = true
  generation : o.workerGeneration = record.workerId
  task : ∃ t, l.tasks.get? record.taskId = some t ∧ t.requestedBy = owner ∧
    t.status = .running ∧ t.currentExecutionId = some record.executionId
  claim : ∃ c, l.claims.get? record.taskId = some c ∧ c.executionId = record.executionId ∧
    c.workerId = record.workerId ∧ c.ownerKey = owner ∧ c.released = false ∧ now < c.expiresAt
  execution : ∃ e, l.executions.get? record.executionId = some e ∧ e.taskId = record.taskId ∧
    e.status = .running ∧ e.adapterType = "operation"
  worker : ∃ w, l.workers.get? record.workerId = some w ∧ w.closed = false ∧
    now - seconds 30 < w.heartbeatAt

/-- The query of `require_execution_ownership`. -/
def ownedOperation (l : Ledger) (record : ClaimRecord) (owner : String) (now : Time) :
    Option TaskOperation :=
  match l.operations.get? record.taskId, l.tasks.get? record.taskId,
      l.claims.get? record.taskId, l.executions.get? record.executionId,
      l.workers.get? record.workerId with
  | some o, some t, some c, some e, some w =>
    if (o.eligible = true ∧ o.workerGeneration = record.workerId) ∧
        (t.requestedBy = owner ∧ t.status = .running ∧
          t.currentExecutionId = some record.executionId) ∧
        (c.executionId = record.executionId ∧ c.workerId = record.workerId ∧ c.ownerKey = owner ∧
          c.released = false ∧ now < c.expiresAt) ∧
        (e.taskId = record.taskId ∧ e.status = .running ∧ e.adapterType = "operation") ∧
        (w.closed = false ∧ now - seconds 30 < w.heartbeatAt) then some o
    else none
  | _, _, _, _, _ => none

theorem ownedOperation_eq_some {l : Ledger} {record : ClaimRecord} {owner : String} {now : Time}
    {o : TaskOperation} :
    ownedOperation l record owner now = some o ↔ OwnsExecution l record owner now o := by
  unfold ownedOperation
  constructor
  · intro h
    split at h
    · next ho ht hc he hw =>
      split_ifs at h with hp
      cases h
      obtain ⟨⟨h₁, h₂⟩, hT, hC, hE, hW⟩ := hp
      exact ⟨ho, h₁, h₂, ⟨_, ht, hT⟩, ⟨_, hc, hC⟩, ⟨_, he, hE⟩, ⟨_, hw, hW⟩⟩
    · cases h
  · rintro ⟨ho, h₁, h₂, ⟨t, ht, hT⟩, ⟨c, hc, hC⟩, ⟨e, he, hE⟩, ⟨w, hw, hW⟩⟩
    simp only [ho, ht, hc, he, hw]
    exact if_pos ⟨⟨h₁, h₂⟩, hT, hC, hE, hW⟩

end NyanyaAgent.Operations
