import NyanyaAgent.Commands.Start
import NyanyaAgent.Safety.WriterFence

/-!
# Use of write approvals

An approval brings one write command to `adapter.start`, and a call that raises leaves
its execution ended and its lease lapsed.
-/
namespace NyanyaAgent.Safety
open NyanyaAgent.Schema NyanyaAgent.Relational NyanyaAgent.Runs NyanyaAgent.Queue
open NyanyaAgent.Calendar NyanyaAgent.Leases NyanyaAgent.Commands

variable {co : Coordinator} {r : CommandRequest} {g : WriteGrant} {input : StartInput}
  {l l' l'' : CommandLedger} {b b' : Ledger} {w w' w₀ : StartWorld} {a : StartAction}
  {as : List StartAction} {s s' : StartStage} {c : WriterLease} {x y : ExecutionId} {k : TaskId}
  {i : ApprovalId} {now clock clock' n : ℕ} {time : Time}

/-- The execution of a call that has not returned. -/
def ownExecution : StartStage → Option ExecutionId
  | .acquiring x _ | .refused x | .binding x _ _ | .consuming x _ _ | .launching x _ | .failing x _
  | .releasing x _ | .reporting x _ | .finishing x _ => some x
  | .raised x => x
  | .checking _ | .creating _ | .returned _ => none

/-- The execution of a call that still has to move it. -/
def openExecution : StartStage → Option ExecutionId
  | .acquiring x _ | .refused x | .binding x _ _ | .consuming x _ _ | .launching x _ | .failing x _
  | .reporting x _ | .finishing x _ => some x
  | .checking _ | .creating _ | .releasing _ _ | .returned _ | .raised _ => none

/-- The task a step of the call gives a new attempt. -/
def createdFor (r : CommandRequest) : StartStage → Option TaskId
  | .creating _ => some r.taskId
  | _ => none

/-- What the check of the approval passes on. -/
def Approved (co : Coordinator) (l : CommandLedger) (now : ℕ) (r : CommandRequest)
    (g : WriteGrant) : Prop :=
  ∃ a, l.records.get? g.approvalId = some a ∧
    Authorises a r.taskId (co.scopeHash (r.scope g)) now

/-- The condition on a step of a call: no execution is created for a task while another
call has to move its own, the lease has an expiry before the year 10000, has not lapsed when
the approval is consumed, and is released under the key it was acquired under. -/
def Undisturbed (co : Coordinator) (w : StartWorld) (r : CommandRequest) : StartStage → Prop
  | .creating _ => ∀ d ∈ w.calls, d.request.taskId = r.taskId → openExecution d.stage = none
  | .acquiring _ _ => (DateTime.ofSecond (expiry w.clock r.ttlSeconds)).date.year < 10000
  | .consuming _ g lease => Approved co w.ledger w.clock r g → ¬ Lapsed lease w.clock
  | .failing _ lease => ∀ c ∈ lease, co.redact c.resourceKey = c.resourceKey ∨ Lapsed c w.clock
  | _ => True

def Contained (co : Coordinator) (w : StartWorld) : StartAction → Prop
  | .advance n _ => ∀ c, w.calls[n]? = some c → Undisturbed co w c.request c.stage
  | _ => True

/-- The attempt a task names. -/
def currentAttempt (b : Ledger) (k : TaskId) : Option ExecutionId :=
  (b.tasks.get? k).bind fun t => t.currentExecutionId

section Consumed

def Consumed (l : CommandLedger) (i : ApprovalId) : Prop :=
  ∃ a, l.records.get? i = some a ∧ a.status = .consumed

theorem Consumed.of_eq (h : Consumed l i) (heq : l'.records = l.records) : Consumed l' i := by
  unfold Consumed
  rw [heq]
  exact h

end Consumed

section Transactions
/-!
### What one transaction touches
-/

/-- A transaction for the execution `y` leaves every other execution, its leases that have not
lapsed, and the attempts of the tasks other than `created`. -/
structure Touches (y : Option ExecutionId) (created : Option TaskId) (now : ℕ)
    (l l' : CommandLedger) : Prop where
  execution : ∀ x e, l.base.executions.get? x = some e → some x ≠ y →
    l'.base.executions.get? x = some e
  alive : ∀ x, (l.base.executions.get? x).isSome = true → (l'.base.executions.get? x).isSome = true
  current : ∀ k, some k ≠ created → currentAttempt l'.base k = currentAttempt l.base k
  owned : ∀ c ∈ l'.leases.rows, some c.ownerId ≠ y → c ∈ l.leases.rows
  kept : ∀ c e, l.leases.get? c.resourceKey = some c → some c.ownerId ≠ y → ExpiresAt c e →
    l'.leases.get? c.resourceKey = some c ∨ Lapsed c now
  bound : ∀ x, some x ≠ y → l'.writerLease x = l.writerLease x
  consumed : ∀ i, Consumed l i → Consumed l' i

theorem Touches.refl (y : Option ExecutionId) (created : Option TaskId) (now : ℕ)
    (l : CommandLedger) : Touches y created now l l where
  execution := fun _ _ h _ => h
  alive := fun _ h => h
  current := fun _ _ => rfl
  owned := fun _ h _ => h
  kept := fun _ _ h _ _ => .inl h
  bound := fun _ _ => rfl
  consumed := fun _ h => h

/-- A transaction that leaves executions, attempts and leases alone. -/
theorem Touches.of_eq {y : Option ExecutionId} {created : Option TaskId}
    (hexecutions : l'.base.executions = l.base.executions)
    (hcurrent : ∀ k, currentAttempt l'.base k = currentAttempt l.base k)
    (hleases : l'.leases = l.leases) (hbound : l'.writerLease = l.writerLease)
    (hconsumed : ∀ i, Consumed l i → Consumed l' i) :
    Touches y created now l l' where
  execution := by
    intro x e h _
    rw [hexecutions]
    exact h
  alive := by
    intro x h
    rw [hexecutions]
    exact h
  current := fun k _ => hcurrent k
  owned := by
    intro c h _
    rw [← hleases]
    exact h
  kept := by
    intro c e h _ _
    rw [hleases]
    exact .inl h
  bound := by
    intro x _
    rw [hbound]
  consumed := hconsumed

theorem ran_onBase {m : Op Unit} : Tx.Ran (onBase m) l () l' ↔
    ∃ b', Tx.Ran m l.base () b' ∧ l' = { l with base := b' } := by
  unfold Tx.Ran onBase
  constructor
  · intro h
    obtain ⟨hok, hl⟩ := Prod.mk.inj h
    exact ⟨(m l.base).2, by rw [← hok], hl.symm⟩
  · rintro ⟨b', hm, rfl⟩
    rw [hm]

theorem commit_onBase_cases (m : Op Unit) (l : CommandLedger) :
    (∃ b', Tx.Ran m l.base () b' ∧ (onBase m).commit l = (.ok (), { l with base := b' })) ∨
      ∃ e, (∀ b', ¬ Tx.Ran m l.base () b') ∧ (onBase m).commit l = (.error e, l) := by
  rcases Tx.commit_cases (onBase m) l with ⟨u, l', hran, hcommit⟩ | ⟨e, hnone, hcommit⟩
  · obtain ⟨b', hb', rfl⟩ := ran_onBase.mp hran
    exact .inl ⟨b', hb', hcommit⟩
  · refine .inr ⟨e, fun b' hb' => ?_, hcommit⟩
    exact hnone () { l with base := b' } (ran_onBase.mpr ⟨b', hb', rfl⟩)

/-- The row a transition writes and the rows it leaves. -/
structure MovedTo (x : ExecutionId) (status : ExecutionStatus) (b b' : Ledger) : Prop where
  row : ∃ e e', b.executions.get? x = some e ∧ b'.executions.get? x = some e' ∧
    e'.taskId = e.taskId ∧ e'.status = status
  others : ∀ z, z ≠ x → b'.executions.get? z = b.executions.get? z
  current : ∀ k, currentAttempt b' k = currentAttempt b k

theorem currentAttempt_updateTask {f : AgentTask → AgentTask} (hf : ∀ t, (f t).id = t.id)
    (hcurrent : ∀ t, (f t).currentExecutionId = t.currentExecutionId) (j : TaskId) :
    currentAttempt (b.updateTask k f hf) j = currentAttempt b j := by
  unfold currentAttempt
  by_cases hj : j = k
  · subst hj
    rw [Ledger.updateTask_get?]
    cases b.tasks.get? j with
    | none => rfl
    | some t => exact hcurrent t
  · rw [Ledger.updateTask_get?_ne _ _ _ hj]

/-- The rows a move of an attempt writes. -/
theorem moveAttempt_rows (e : Execution) (status : ExecutionStatus) (time : Time) (b : Ledger) :
    ∃ (f : Execution → Execution) (hf : ∀ r, (f r).id = r.id),
      (∀ r, (f r).taskId = r.taskId ∧ (f r).status = status) ∧
      (moveAttempt e status time b).executions =
        b.executions.update (fun r => r.id = e.id) f hf ∧
      ∀ k, currentAttempt (moveAttempt e status time b) k = currentAttempt b k := by
  unfold moveAttempt
  cases attemptTaskStatus status with
  | none =>
    refine ⟨_, ?_, ?_, rfl, fun _ => rfl⟩
    · exact fun _ => rfl
    · exact fun _ => ⟨rfl, rfl⟩
  | some s =>
    refine ⟨_, ?_, ?_, rfl, fun k => ?_⟩
    · exact fun _ => rfl
    · exact fun _ => ⟨rfl, rfl⟩
    · refine currentAttempt_updateTask ?_ ?_ k
      exact fun _ => rfl

theorem transition_movedTo {status : ExecutionStatus} {force : Bool}
    (h : Tx.Ran (transitionExecution x status force time) b () b') : MovedTo x status b b' := by
  unfold transitionExecution at h
  simp only [Tx.ran_select_bind, Tx.ran_demand_bind, Tx.ran_require_bind, Tx.ran_write] at h
  obtain ⟨e, he, _, _, _, rfl⟩ := h
  have hid : e.id = x := Table.key_of_get? he
  obtain ⟨f, hf, hkeep, hrows, hcurrent⟩ := moveAttempt_rows e status time b
  rw [hid] at hrows
  refine ⟨⟨e, f e, he, ?_, hkeep e⟩, fun z hz => ?_, hcurrent⟩
  · rw [hrows, Table.get?_update_key, he, Option.map_some]
  · rw [hrows, Table.get?_update_ne _ _ _ hz]

theorem MovedTo.touches {status : ExecutionStatus} {writerLease : ExecutionId → Option (ResourceKey × ℕ)}
    (h : MovedTo x status l.base b') (hbound : ∀ z, z ≠ x → writerLease z = l.writerLease z) :
    Touches (some x) none now l { l with base := b', writerLease := writerLease } where
  execution := by
    intro z e he hz
    have hne : z ≠ x := fun heq => hz (congrArg some heq)
    exact (h.others z hne).trans he
  alive := by
    intro z hz
    by_cases hzx : z = x
    · subst hzx
      obtain ⟨_, e', _, he', _⟩ := h.row
      exact Option.isSome_of_eq_some he'
    · exact (congrArg Option.isSome (h.others z hzx)).trans hz
  current := fun k _ => h.current k
  owned := fun _ hc _ => hc
  kept := fun _ _ hc _ _ => .inl hc
  bound := fun z hz => hbound z fun heq => hz (congrArg some heq)
  consumed := fun _ h => h.of_eq rfl

theorem commit_transition_touches {status : ExecutionStatus} {force : Bool} :
    Touches (some x) none now l ((onBase (transitionExecution x status force time)).commit l).2 := by
  rcases commit_onBase_cases (transitionExecution x status force time) l with
    ⟨b', hran, hcommit⟩ | ⟨e, _, hcommit⟩
  · rw [hcommit]
    exact (transition_movedTo hran).touches fun _ _ => rfl
  · rw [hcommit]
    exact .refl _ _ _ _

theorem bindLease_ran (h : Tx.Ran (bindLease co x g c time) l () l') :
    ∃ b', MovedTo x .starting l.base b' ∧ l' = { l with
      base := b'
      writerLease := fun y =>
        if y = x then some (co.redact g.resourceKey, c.fenceToken) else l.writerLease y } := by
  unfold bindLease at h
  rw [Tx.ran_bind] at h
  obtain ⟨_, l₁, hmove, hwrite⟩ := h
  obtain ⟨b', hb', rfl⟩ := ran_onBase.mp hmove
  exact ⟨b', transition_movedTo hb', Tx.ran_write.mp hwrite⟩

theorem createExecution_created {e : NewExecution}
    (h : Tx.Ran (createExecution e x time) b () b') :
    b.executions.get? x = none ∧ (∀ z, z ≠ x → b'.executions.get? z = b.executions.get? z) ∧
      (∃ row, b'.executions.get? x = some row ∧ row.taskId = e.taskId ∧ row.status = e.status) ∧
      currentAttempt b' e.taskId = some x ∧
      ∀ k, k ≠ e.taskId → currentAttempt b' k = currentAttempt b k := by
  unfold createExecution insertExecution at h
  simp only [Tx.ran_select_bind, Tx.ran_demand_bind, Tx.ran_attempt_bind, Tx.ran_write] at h
  obtain ⟨t, ht, b₁, hinsert, rfl⟩ := h
  obtain ⟨executions, hrow, rfl⟩ := Option.map_eq_some_iff.mp hinsert
  refine ⟨Table.get?_of_insert hrow, fun z hz => ?_,
    ⟨_, (Table.get?_insert hrow x).trans (if_pos rfl), rfl, rfl⟩, ?_, fun k hk => ?_⟩
  · exact (Table.get?_insert hrow z).trans (if_neg hz)
  · unfold currentAttempt
    rw [Ledger.updateTask_get?, ht]
    rfl
  · unfold currentAttempt
    rw [Ledger.updateTask_get?_ne _ _ _ hk]

theorem create_touches {e : NewExecution} (h : Tx.Ran (createExecution e x time) l.base () b') :
    Touches none (some e.taskId) now l { l with base := b' } := by
  obtain ⟨hnew, hothers, ⟨row, hrow, _⟩, _, hcurrent⟩ := createExecution_created h
  refine ⟨fun z f hf _ => ?_, fun z hz => ?_, fun k hk => ?_, fun c hc _ => hc,
    fun c f hc _ _ => .inl hc, fun z _ => rfl, fun _ h => h.of_eq rfl⟩
  · have hne : z ≠ x := by
      rintro rfl
      rw [hnew] at hf
      cases hf
    exact (hothers z hne).trans hf
  · by_cases hzx : z = x
    · subst hzx
      exact Option.isSome_of_eq_some hrow
    · exact (congrArg Option.isSome (hothers z hzx)).trans hz
  · exact hcurrent k fun heq => hk (congrArg some heq)

theorem onLeases_cases {α : Type} (m : Tx LeaseError LeaseTable α) (l : CommandLedger) :
    (∃ answer t, Tx.Ran m l.leases answer t ∧ onLeases m l = (.ok answer, { l with leases := t })) ∨
      ∃ e, (∀ answer t, ¬ Tx.Ran m l.leases answer t) ∧ onLeases m l = (.error e, l) := by
  unfold onLeases
  rcases Tx.commit_cases m l.leases with ⟨answer, t, hran, hcommit⟩ | ⟨e, hnone, hcommit⟩
  · exact .inl ⟨answer, t, hran, by rw [hcommit]⟩
  · exact .inr ⟨e, hnone, by rw [hcommit]⟩

theorem touches_leases {t : LeaseTable}
    (howned : ∀ c ∈ t.rows, c.ownerId ≠ x → c ∈ l.leases.rows)
    (hkept : ∀ c e, l.leases.get? c.resourceKey = some c → c.ownerId ≠ x → ExpiresAt c e →
      t.get? c.resourceKey = some c ∨ Lapsed c now) :
    Touches (some x) none now l { l with leases := t } where
  execution := fun _ _ h _ => h
  alive := fun _ h => h
  current := fun _ _ => rfl
  owned := fun c hc hne => howned c hc fun heq => hne (congrArg some heq)
  kept := fun c e hc hne he => hkept c e hc (fun heq => hne (congrArg some heq)) he
  bound := fun _ _ => rfl
  consumed := fun _ h => h.of_eq rfl

theorem acquire_touches {key : ResourceKey} {ttl : ℤ} {metadata : String}
    {answer : Option WriterLease} {t : LeaseTable}
    (h : Tx.Ran (acquireWriterLease key x ttl metadata now) l.leases answer t) :
    Touches (some x) none now l { l with leases := t } := by
  obtain ⟨_, _, ⟨_, _, rfl⟩ | ⟨hfree, _, rfl⟩⟩ := acquire_cases h
  · exact .refl _ _ _ _
  · apply touches_leases
    · intro c hc hne
      have hget := Table.mem_rows_iff.mp hc
      rw [get?_upsert] at hget
      split_ifs at hget with hkey
      · rw [← Option.some.inj hget] at hne
        exact absurd rfl hne
      · exact Table.mem_rows_iff.mpr hget
    · intro c e hc hne he
      rw [get?_upsert]
      split_ifs with hkey
      · right
        have hkey' : c.resourceKey = key := hkey
        rw [hkey'] at hc
        have hlive := hfree c hc
        rw [he.heldByOther_iff] at hlive
        exact ⟨e, Nat.le_of_not_lt fun hlt => hlive ⟨hne, hlt⟩, he.text⟩
      · exact .inl hc

theorem release_touches {key : ResourceKey} {token : ℕ} {answer : Bool} {t : LeaseTable}
    (h : Tx.Ran (releaseWriterLease key x token) l.leases answer t) :
    Touches (some x) none now l { l with leases := t } := by
  rw [release_cases h]
  apply touches_leases
  · intro c hc hne
    have hget := Table.mem_rows_iff.mp hc
    rw [Table.get?_update, Option.map_eq_some_iff] at hget
    obtain ⟨c', hc', heq⟩ := hget
    split_ifs at heq with hreleasable
    · rw [← heq] at hne
      exact absurd hreleasable.2.1 hne
    · exact heq ▸ (Table.get?_eq_some.mp hc').1
  · intro c e hc hne _
    left
    rw [Table.get?_update, hc, Option.map_some, if_neg fun hreleasable => hne hreleasable.2.1]

theorem checkApproval_ran {hash : Hash} {y : Option ExecutionId}
    (h : Tx.Ran (checkApproval i k hash y time) l () l') :
    (∃ a, l.records.get? i = some a ∧ Authorises a k hash time) ∧
      (y = none ∧ l' = l ∨ ∃ x, y = some x ∧ l' = updateRecord i
        (fun r => { r with status := .consumed, executionId := some x }) (fun _ => rfl) l) := by
  unfold checkApproval at h
  simp only [Tx.ran_select_bind, Tx.ran_demand_bind, Tx.ran_require_bind] at h
  obtain ⟨a, ha, hauthorises, hrest⟩ := h
  refine ⟨⟨a, ha, hauthorises⟩, ?_⟩
  cases y with
  | none => exact .inl ⟨rfl, (Tx.ran_pure.mp hrest).2⟩
  | some x => exact .inr ⟨x, rfl, Tx.ran_write.mp hrest⟩

/-- A check that passes leaves consumed approvals consumed. -/
theorem check_consumed {hash : Hash} {y : Option ExecutionId} (h : Consumed l i) {j : ApprovalId}
    (hran : Tx.Ran (checkApproval j k hash y time) l () l') : Consumed l' i := by
  obtain ⟨_, ⟨_, rfl⟩ | ⟨x, _, rfl⟩⟩ := checkApproval_ran hran
  · exact h
  · obtain ⟨a, ha, hconsumed⟩ := h
    obtain ⟨a', ha', rfl | ⟨_, rfl⟩⟩ := Table.exists_update_key (k := j)
      (fun a : ApprovalRecord => { a with status := .consumed, executionId := some x })
      (fun _ => rfl) ha
    · exact ⟨_, ha', hconsumed⟩
    · exact ⟨_, ha', rfl⟩

theorem check_touches {hash : Hash} {y z : Option ExecutionId} {created : Option TaskId}
    (h : Tx.Ran (checkApproval i k hash y time) l () l') : Touches z created now l l' := by
  have hconsumed : ∀ i, Consumed l i → Consumed l' i := fun _ hi => check_consumed hi h
  obtain ⟨_, ⟨_, rfl⟩ | ⟨x, _, rfl⟩⟩ := checkApproval_ran h
  · exact .refl _ _ _ _
  · exact .of_eq rfl (fun _ => rfl) rfl rfl hconsumed

theorem heartbeat_touches : Touches (some x) none now l (heartbeatSession x time l) where
  execution := by
    intro z e he hz
    have hne : z ≠ x := fun heq => hz (congrArg some heq)
    have hsame := Table.get?_update_ne l.base.executions
      (fun e => { e with lastHeartbeatAt := some time, updatedAt := time }) (fun _ => rfl) hne
    exact hsame.trans he
  alive := by
    intro z hz
    unfold heartbeatSession Ledger.updateExecution
    dsimp only
    rw [Table.get?_update, Option.isSome_map]
    exact hz
  current := fun _ _ => rfl
  owned := fun _ hc _ => hc
  kept := fun _ _ hc _ _ => .inl hc
  bound := fun _ _ => rfl
  consumed := fun _ h => h.of_eq rfl

theorem decide_consumed {j : ApprovalId} {decision : Decision} {decidedBy : String} {entry : Time}
    {answer : Except Err Unit} (h : Consumed l i)
    (hran : Tx.Ran (decideApproval j decision decidedBy entry) l answer l') : Consumed l' i := by
  unfold decideApproval at hran
  simp only [Tx.ran_select_bind, Tx.ran_demand_bind, Tx.ran_require_bind, Tx.ran_ite, Tx.ran_pure,
    Tx.ran_write_bind] at hran
  obtain ⟨b, hb, _, _, hcases⟩ := hran
  obtain ⟨a, ha, hconsumed⟩ := h
  -- The decision is written to a pending approval, so to another one.
  have hother : ∀ (f : ApprovalRecord → ApprovalRecord) (hf : ∀ r, (f r).id = r.id),
      b.status = .pending → Consumed (updateRecord j f hf l) i := by
    intro f hf hpending
    obtain ⟨a', ha', rfl | ⟨rfl, _⟩⟩ := Table.exists_update_key (k := j) f hf ha
    · exact ⟨_, ha', hconsumed⟩
    · rw [ha] at hb
      obtain rfl := Option.some.inj hb
      rw [hpending] at hconsumed
      cases hconsumed
  rcases hcases with ⟨_, _, _, rfl⟩ | ⟨hpending, ⟨_, _, rfl⟩ | ⟨_, _, rfl⟩⟩
  · exact ⟨a, ha, hconsumed⟩
  · exact hother _ _ (not_not.mp hpending)
  · have hkept := hother (fun r => { r with
        status := decision.status
        decidedBy := decidedBy
        decidedAt := some entry }) (fun _ => rfl) (not_not.mp hpending)
    exact hkept.of_eq rfl

theorem decide_touches {decision : Decision} {decidedBy : String} {entry : Time}
    {answer : Except Err Unit} {y : Option ExecutionId} {created : Option TaskId}
    (h : Tx.Ran (decideApproval i decision decidedBy entry) l answer l') :
    Touches y created now l l' := by
  have hconsumed : ∀ i, Consumed l i → Consumed l' i := fun _ hi => decide_consumed hi h
  unfold decideApproval at h
  simp only [Tx.ran_select_bind, Tx.ran_demand_bind, Tx.ran_require_bind, Tx.ran_ite, Tx.ran_pure,
    Tx.ran_write_bind] at h
  obtain ⟨a, _, _, _, ⟨_, _, _, rfl⟩ | ⟨_, ⟨_, _, rfl⟩ | ⟨_, _, rfl⟩⟩⟩ := h
  · exact .refl _ _ _ _
  · exact .of_eq rfl (fun _ => rfl) rfl rfl hconsumed
  · dsimp only [updateRecord] at hconsumed ⊢
    split_ifs at hconsumed ⊢
    · refine .of_eq ?_ (fun k => ?_) rfl rfl hconsumed
      · cases a.taskId <;> rfl
      · cases a.taskId with
        | none => rfl
        | some j =>
          refine currentAttempt_updateTask ?_ ?_ k
          exact fun _ => rfl
    · exact .of_eq rfl (fun _ => rfl) rfl rfl hconsumed

/-- A step of a call touches its own execution, and the task it gives a new one. -/
theorem startStep_touches (co : Coordinator) (r : CommandRequest) (input : StartInput) (now : ℕ)
    (l : CommandLedger) (s : StartStage) :
    Touches (ownExecution s) (createdFor r s) now l (startStep co r input now l s).2 := by
  cases s with
  | checking g =>
    simp only [startStep]
    rcases Tx.commit_cases (checkApproval g.approvalId r.taskId (co.scopeHash (r.scope g)) none now)
      l with ⟨_, l', hran, hcommit⟩ | ⟨e, _, hcommit⟩
    · rw [hcommit]
      exact check_touches hran
    · rw [hcommit]
      exact .refl _ _ _ _
  | creating g =>
    simp only [startStep]
    rcases commit_onBase_cases (createExecution
      { taskId := r.taskId, adapterType := r.adapterType, status := .starting
        workdir := input.workdir } input.fresh now) l with ⟨b', hran, hcommit⟩ | ⟨e, _, hcommit⟩
    · rw [hcommit]
      exact create_touches hran
    · rw [hcommit]
      exact .refl _ _ _ _
  | acquiring x g =>
    simp only [startStep]
    rcases onLeases_cases (acquireWriterLease g.resourceKey x r.ttlSeconds
      (co.leaseMetadata r.taskId g.approvalId) now) l with ⟨answer, t, hran, hcommit⟩ | ⟨e, _, hcommit⟩
    · rw [hcommit]
      cases answer <;> exact acquire_touches hran
    · rw [hcommit]
      exact .refl _ _ _ _
  | refused x => exact commit_transition_touches
  | binding x g lease =>
    simp only [startStep]
    rcases Tx.commit_cases (bindLease co x g lease now) l with ⟨_, l', hran, hcommit⟩ | ⟨e, _, hcommit⟩
    · rw [hcommit]
      obtain ⟨b', hmoved, rfl⟩ := bindLease_ran hran
      exact hmoved.touches fun z hz => if_neg hz
    · rw [hcommit]
      exact .refl _ _ _ _
  | consuming x g lease =>
    simp only [startStep]
    rcases Tx.commit_cases (checkApproval g.approvalId r.taskId (co.scopeHash (r.scope g)) (some x)
      now) l with ⟨_, l', hran, hcommit⟩ | ⟨e, _, hcommit⟩
    · rw [hcommit]
      exact check_touches hran
    · rw [hcommit]
      exact .refl _ _ _ _
  | launching x lease => exact .refl _ _ _ _
  | failing x lease =>
    have htouches : Touches (some x) none now l
        ((onBase (transitionExecution x .failed false now)).commit l).2 := commit_transition_touches
    simp only [startStep]
    split <;> rename_i hcommit <;> rw [hcommit] at htouches <;> exact htouches
  | releasing x held =>
    simp only [startStep]
    split
    · rename_i key token
      rcases onLeases_cases (releaseWriterLease key x token) l with
        ⟨answer, t, hran, hcommit⟩ | ⟨e, _, hcommit⟩
      · rw [hcommit]
        exact release_touches hran
      · rw [hcommit]
        exact .refl _ _ _ _
    · exact .refl _ _ _ _
  | reporting x lease => exact heartbeat_touches
  | finishing x lease =>
    have htouches : Touches (some x) none now l
        ((onBase (transitionExecution x .running false now)).commit l).2 := commit_transition_touches
    simp only [startStep]
    split <;> rename_i hcommit <;> rw [hcommit] at htouches <;> exact htouches
  | returned x => exact .refl _ _ _ _
  | raised x => exact .refl _ _ _ _

end Transactions

section Standing
/-!
### Where a call stands
-/

/-- A call that has to move its execution can. -/
structure Attempt (b : Ledger) (k : TaskId) (x : ExecutionId) : Prop where
  row : ∃ e, b.executions.get? x = some e ∧ e.taskId = k ∧ e.status = .starting
  current : currentAttempt b k = some x

/-- The lease of an execution: the only one, and in its place until it lapses. -/
structure Holding (t : LeaseTable) (clock : ℕ) (x : ExecutionId) (c : WriterLease) : Prop where
  owner : c.ownerId = x
  expires : ∃ e, ExpiresAt c e
  kept : t.get? c.resourceKey = some c ∨ Lapsed c clock
  only : ∀ c' ∈ t.rows, c'.ownerId = x → c' = c

def LeaseAt (t : LeaseTable) (clock : ℕ) (x : ExecutionId) : Option WriterLease → Prop
  | none => ∀ c ∈ t.rows, c.ownerId ≠ x
  | some c => Holding t clock x c

/-- The execution names its lease. -/
def Bound (co : Coordinator) (l : CommandLedger) (x : ExecutionId) (lease : Option WriterLease) :
    Prop :=
  ∀ c ∈ lease, l.writerLease x = some (co.redact c.resourceKey, c.fenceToken)

def Concluded (b : Ledger) (x : ExecutionId) : Prop :=
  ∃ e, b.executions.get? x = some e ∧ e.status.Terminal

/-- The execution is ended and no lease of it is live. -/
def CleanedUp (l : CommandLedger) (clock : ℕ) (x : ExecutionId) : Prop :=
  Concluded l.base x ∧ ∀ c ∈ l.leases.rows, c.ownerId = x → Lapsed c clock

/-- The grant is the one the request asks for. -/
def Requested (r : CommandRequest) (g : WriteGrant) : Prop :=
  r.writeResourceKey = some g.resourceKey ∧ r.approvalId = some g.approvalId

def Standing (co : Coordinator) (l : CommandLedger) (clock : ℕ) (r : CommandRequest) :
    StartStage → Prop
  | .checking g => Requested r g
  | .creating g => ∀ g' ∈ g, Requested r g'
  | .acquiring x g => Requested r g ∧ Attempt l.base r.taskId x ∧ LeaseAt l.leases clock x none
  | .refused x => Attempt l.base r.taskId x ∧ LeaseAt l.leases clock x none
  | .binding x g lease => Requested r g ∧ lease.resourceKey = g.resourceKey ∧
      Attempt l.base r.taskId x ∧ LeaseAt l.leases clock x (some lease)
  | .consuming x g lease => Requested r g ∧ lease.resourceKey = g.resourceKey ∧
      Attempt l.base r.taskId x ∧ LeaseAt l.leases clock x (some lease) ∧ Bound co l x (some lease)
  | .launching x lease | .failing x lease | .reporting x lease | .finishing x lease =>
      Attempt l.base r.taskId x ∧ LeaseAt l.leases clock x lease ∧ Bound co l x lease
  | .releasing x held => Concluded l.base x ∧ ∀ c ∈ l.leases.rows, c.ownerId = x →
      Lapsed c clock ∨ held = some (c.resourceKey, c.fenceToken)
  | .returned _ => True
  | .raised y => ∀ x ∈ y, CleanedUp l clock x

variable {y : Option ExecutionId} {created : Option TaskId} {lease : Option WriterLease}

theorem Attempt.exists (h : Attempt b k x) : (b.executions.get? x).isSome = true := by
  obtain ⟨e, he, _⟩ := h.row
  exact Option.isSome_of_eq_some he

theorem Concluded.exists (h : Concluded b x) : (b.executions.get? x).isSome = true := by
  obtain ⟨e, he, _⟩ := h
  exact Option.isSome_of_eq_some he

theorem Standing.exists (h : Standing co l clock r s) (hx : ownExecution s = some x) :
    (l.base.executions.get? x).isSome = true := by
  cases s with
  | checking | creating | returned => cases hx
  | acquiring => cases hx; exact h.2.1.exists
  | refused => cases hx; exact h.1.exists
  | binding => cases hx; exact h.2.2.1.exists
  | consuming => cases hx; exact h.2.2.1.exists
  | launching | failing | reporting | finishing => cases hx; exact h.1.exists
  | releasing => cases hx; exact h.1.exists
  | raised y => exact (h x hx).1.exists

theorem Attempt.touched (h : Attempt l.base k x) (ht : Touches y created now l l')
    (hx : some x ≠ y) (hk : some k ≠ created) : Attempt l'.base k x where
  row := by
    obtain ⟨e, he, hkeep⟩ := h.row
    exact ⟨e, ht.execution x e he hx, hkeep⟩
  current := (ht.current k hk).trans h.current

theorem Concluded.touched (h : Concluded l.base x) (ht : Touches y created now l l') (hx : some x ≠ y) :
    Concluded l'.base x := by
  obtain ⟨e, he, hterminal⟩ := h
  exact ⟨e, ht.execution x e he hx, hterminal⟩

theorem LeaseAt.touched (h : LeaseAt l.leases now x lease) (ht : Touches y created now l l')
    (hx : some x ≠ y) : LeaseAt l'.leases now x lease := by
  have howned : ∀ c ∈ l'.leases.rows, c.ownerId = x → c ∈ l.leases.rows :=
    fun c hc howner => ht.owned c hc (howner ▸ hx)
  cases lease with
  | none => exact fun c hc howner => h c (howned c hc howner) howner
  | some c =>
    obtain ⟨howner, ⟨e, he⟩, hkept, honly⟩ := h
    refine ⟨howner, ⟨e, he⟩, ?_, fun c' hc' howner' => honly c' (howned c' hc' howner') howner'⟩
    rcases hkept with hget | hlapsed
    · exact ht.kept c e hget (howner ▸ hx) he
    · exact .inr hlapsed

theorem Bound.touched (h : Bound co l x lease) (ht : Touches y created now l l')
    (hx : some x ≠ y) : Bound co l' x lease := by
  intro c hc
  rw [ht.bound x hx]
  exact h c hc

/-- A transaction of another call leaves a call where it stands. -/
theorem Standing.touched (h : Standing co l now r s) (ht : Touches y created now l l')
    (hx : ∀ x, ownExecution s = some x → some x ≠ y)
    (hk : ∀ x, openExecution s = some x → some r.taskId ≠ created) : Standing co l' now r s := by
  have howned : ∀ x, some x ≠ y → ∀ c ∈ l'.leases.rows, c.ownerId = x → c ∈ l.leases.rows :=
    fun x hx c hc howner => ht.owned c hc (howner ▸ hx)
  cases s with
  | checking | creating | returned => exact h
  | acquiring x =>
    have hx := hx x rfl
    exact ⟨h.1, h.2.1.touched ht hx (hk x rfl), LeaseAt.touched h.2.2 ht hx⟩
  | refused x =>
    have hx := hx x rfl
    exact ⟨h.1.touched ht hx (hk x rfl), LeaseAt.touched h.2 ht hx⟩
  | binding x =>
    have hx := hx x rfl
    exact ⟨h.1, h.2.1, h.2.2.1.touched ht hx (hk x rfl), LeaseAt.touched h.2.2.2 ht hx⟩
  | consuming x =>
    have hx := hx x rfl
    exact ⟨h.1, h.2.1, h.2.2.1.touched ht hx (hk x rfl), LeaseAt.touched h.2.2.2.1 ht hx,
      h.2.2.2.2.touched ht hx⟩
  | launching x | failing x | reporting x | finishing x =>
    have hx := hx x rfl
    exact ⟨h.1.touched ht hx (hk x rfl), h.2.1.touched ht hx, h.2.2.touched ht hx⟩
  | releasing x =>
    have hx := hx x rfl
    exact ⟨h.1.touched ht hx, fun c hc howner => h.2 c (howned x hx c hc howner) howner⟩
  | raised z =>
    intro x hz
    have hx := hx x hz
    exact ⟨(h x hz).1.touched ht hx,
      fun c hc howner => (h x hz).2 c (howned x hx c hc howner) howner⟩

theorem LeaseAt.later (h : LeaseAt l.leases clock x lease) (hle : clock ≤ clock') :
    LeaseAt l.leases clock' x lease := by
  cases lease with
  | none => exact h
  | some c => exact ⟨h.owner, h.expires, h.kept.imp_right fun hl => hl.mono hle, h.only⟩

theorem Standing.later (h : Standing co l clock r s) (hle : clock ≤ clock') :
    Standing co l clock' r s := by
  cases s with
  | checking | creating | returned => exact h
  | acquiring => exact ⟨h.1, h.2.1, LeaseAt.later h.2.2 hle⟩
  | refused => exact ⟨h.1, LeaseAt.later h.2 hle⟩
  | binding => exact ⟨h.1, h.2.1, h.2.2.1, LeaseAt.later h.2.2.2 hle⟩
  | consuming => exact ⟨h.1, h.2.1, h.2.2.1, LeaseAt.later h.2.2.2.1 hle, h.2.2.2.2⟩
  | launching | failing | reporting | finishing => exact ⟨h.1, h.2.1.later hle, h.2.2⟩
  | releasing => exact ⟨h.1, fun c hc howner => (h.2 c hc howner).imp_left fun hl => hl.mono hle⟩
  | raised => exact fun x hx => ⟨(h x hx).1, fun c hc howner => ((h x hx).2 c hc howner).mono hle⟩

end Standing

section Steps
/-!
### What a call's own step does
-/

theorem Attempt.transition {status : ExecutionStatus} (h : Attempt b k x) (time : Time)
    (hstatus : status = .starting ∨ status ∈ executionTransitions .starting) :
    ∃ b', Tx.Ran (transitionExecution x status false time) b () b' := by
  obtain ⟨⟨e, he, htask, hstarting⟩, hcurrent⟩ := h
  unfold currentAttempt at hcurrent
  unfold transitionExecution
  simp only [Tx.ran_select_bind, Tx.ran_demand_bind, Tx.ran_require_bind, Tx.ran_write, he,
    Option.some.injEq, exists_eq_left', htask, hcurrent, hstarting, true_and, Bool.false_eq_true,
    false_or]
  refine ⟨_, ?_, hstatus, rfl⟩
  rintro ⟨hterminal, _⟩
  revert hterminal
  decide

/-- A transition a call with its attempt makes is committed. -/
theorem Attempt.commit (h : Attempt l.base k x) (status : ExecutionStatus) (time : Time)
    (hstatus : status = .starting ∨ status ∈ executionTransitions .starting) :
    ∃ b', MovedTo x status l.base b' ∧
      (onBase (transitionExecution x status false time)).commit l = (.ok (), { l with base := b' }) := by
  obtain ⟨b₁, hb₁⟩ := h.transition time hstatus
  rcases commit_onBase_cases (transitionExecution x status false time) l with
    ⟨b', hran, hcommit⟩ | ⟨e, hnone, _⟩
  · exact ⟨b', transition_movedTo hran, hcommit⟩
  · exact absurd hb₁ (hnone b₁)

theorem MovedTo.attempt (h : MovedTo x .starting b b') (ha : Attempt b k x) : Attempt b' k x := by
  obtain ⟨e, e', he, he', htask, hstatus⟩ := h.row
  obtain ⟨e₁, he₁, htask₁, _⟩ := ha.row
  rw [he] at he₁
  obtain rfl := Option.some.inj he₁
  exact ⟨⟨e', he', htask.trans htask₁, hstatus⟩, (h.current k).trans ha.current⟩

theorem Attempt.heartbeat (h : Attempt l.base k x) (time : Time) :
    Attempt (heartbeatSession x time l).base k x where
  row := by
    obtain ⟨e, he, hkeep⟩ := h.row
    have hrow := Table.get?_update_key l.base.executions x
      (fun e => { e with lastHeartbeatAt := some time, updatedAt := time }) fun _ => rfl
    rw [he, Option.map_some] at hrow
    exact ⟨_, hrow, hkeep⟩
  current := h.current

theorem MovedTo.concluded {status : ExecutionStatus} (h : MovedTo x status b b')
    (hterminal : status.Terminal) : Concluded b' x := by
  obtain ⟨e, e', _, he', _, hstatus⟩ := h.row
  exact ⟨e', he', hstatus ▸ hterminal⟩

theorem exists_acquire (key : ResourceKey) (x : ExecutionId) {ttl : ℤ} (metadata : String)
    (t : LeaseTable) (hyear : (DateTime.ofSecond (expiry now ttl)).date.year < 10000) :
    ∃ answer t', Tx.Ran (acquireWriterLease key x ttl metadata now) t answer t' := by
  have hnow : (DateTime.ofSecond now).date.year < 10000 :=
    (DateTime.year_mono (expiry_gt now ttl).le).trans_lt hyear
  unfold acquireWriterLease isoformat
  rw [if_pos hnow, if_pos hyear]
  simp only [Tx.ran_lift_bind, Tx.ran_select_bind, Tx.ran_ite, Tx.ran_pure, Tx.ran_write_bind,
    Tx.ran_select, Except.ok.injEq, exists_eq_left']
  by_cases hheld : ∃ c ∈ t.get? key, HeldByOther c x now
  · exact ⟨_, _, .inl ⟨hheld, rfl, rfl⟩⟩
  · exact ⟨_, _, .inr ⟨hheld, rfl, rfl⟩⟩

theorem exists_release (key : ResourceKey) (x : ExecutionId) (token : ℕ) (t : LeaseTable) :
    ∃ answer t', Tx.Ran (releaseWriterLease key x token) t answer t' := by
  unfold releaseWriterLease
  simp only [Tx.ran_select_bind, Tx.ran_write_bind, Tx.ran_pure]
  exact ⟨_, _, rfl, rfl⟩

theorem acquire_holding {key : ResourceKey} {ttl : ℤ} {metadata : String} {t t' : LeaseTable}
    (h : Tx.Ran (acquireWriterLease key x ttl metadata now) t (some c) t')
    (hnone : LeaseAt t now x none) : c.resourceKey = key ∧ LeaseAt t' now x (some c) := by
  obtain ⟨_, hyear, ⟨_, hanswer, _⟩ | ⟨_, hanswer, rfl⟩⟩ := acquire_cases h
  · cases hanswer
  · obtain rfl := Option.some.inj hanswer
    refine ⟨rfl, rfl, ⟨_, rfl, hyear⟩, .inl ?_, ?_⟩
    · rw [get?_upsert]
      exact if_pos rfl
    · intro c' hc' howner
      have hget := Table.mem_rows_iff.mp hc'
      rw [get?_upsert] at hget
      split_ifs at hget with hkey
      · exact (Option.some.inj hget).symm
      · exact absurd howner (hnone c' (Table.mem_rows_iff.mpr hget))

/-- A release that names the leases of an owner leaves none of them live. -/
theorem release_lapsed {key : ResourceKey} {token : ℕ} {answer : Bool} {t t' : LeaseTable}
    (h : Tx.Ran (releaseWriterLease key x token) t answer t')
    (hheld : ∀ c ∈ t.rows, c.ownerId = x → Lapsed c clock ∨ (key, token) = (c.resourceKey, c.fenceToken)) :
    ∀ c ∈ t'.rows, c.ownerId = x → Lapsed c clock := by
  intro c hc howner
  have hget := Table.mem_rows_iff.mp hc
  rw [release_cases h, Table.get?_update, Option.map_eq_some_iff] at hget
  obtain ⟨c', hc', heq⟩ := hget
  split_ifs at heq with hreleasable
  · rw [← heq]
    exact lapsed_released clock
  · subst heq
    rcases hheld c' (Table.get?_eq_some.mp hc').1 howner with hlapsed | hnamed
    · exact hlapsed
    · obtain ⟨hkey, htoken⟩ := Prod.mk.inj hnamed
      exact absurd ⟨hkey.symm, howner, htoken.symm⟩ hreleasable

end Steps

section Calls
/-!
### Whole calls
-/

theorem enterCall_standing (co : Coordinator) (l : CommandLedger) (clock : ℕ) (r : CommandRequest)
    (cwd : Option String) : Standing co l clock r (enterCall co r cwd) ∧
      ownExecution (enterCall co r cwd) = none := by
  have hraised : Standing co l clock r (.raised none) := fun x hx => by cases hx
  unfold enterCall
  by_cases hadapter : r.adapterType ∉ co.adapters
  · rw [if_pos hadapter]
    exact ⟨hraised, rfl⟩
  · rw [if_neg hadapter]
    cases hkey : r.writeResourceKey with
    | none => exact ⟨fun g hg => (by cases hg), rfl⟩
    | some key =>
      cases happroval : r.approvalId with
      | none => exact ⟨hraised, rfl⟩
      | some i =>
        cases cwd with
        | none => exact ⟨hraised, rfl⟩
        | some cwd => exact ⟨⟨hkey, happroval⟩, rfl⟩

/-- A step of a call leaves it where it stands next. -/
theorem startStep_standing (h : Standing co w.ledger w.clock r s) (hs : Undisturbed co w r s)
    (howned : ∀ c ∈ w.ledger.leases.rows, (w.ledger.base.executions.get? c.ownerId).isSome = true) :
    Standing co (startStep co r input w.clock w.ledger s).2 w.clock r
      (startStep co r input w.clock w.ledger s).1 := by
  have hraised : ∀ l, Standing co l w.clock r (.raised none) := fun l x hx => by cases hx
  cases s with
  | checking g =>
    simp only [startStep]
    rcases Tx.commit_cases (checkApproval g.approvalId r.taskId (co.scopeHash (r.scope g)) none
      w.clock) w.ledger with ⟨_, l', _, hcommit⟩ | ⟨e, _, hcommit⟩
    · rw [hcommit]
      intro g' hg'
      cases hg'
      exact h
    · rw [hcommit]
      exact hraised _
  | creating g =>
    simp only [startStep]
    rcases commit_onBase_cases (createExecution
      { taskId := r.taskId, adapterType := r.adapterType, status := .starting
        workdir := input.workdir } input.fresh w.clock) w.ledger with
      ⟨b', hran, hcommit⟩ | ⟨e, _, hcommit⟩
    · rw [hcommit]
      obtain ⟨hnew, _, ⟨row, hrow, htask, hstatus⟩, hcurrent, _⟩ := createExecution_created hran
      have hattempt : Attempt b' r.taskId input.fresh := ⟨⟨row, hrow, htask, hstatus⟩, hcurrent⟩
      have hnone : LeaseAt w.ledger.leases w.clock input.fresh none := by
        intro c hc howner
        have hsome := howned c hc
        rw [howner, hnew] at hsome
        cases hsome
      cases g with
      | none => exact ⟨hattempt, hnone, fun c hc => by cases hc⟩
      | some g => exact ⟨h g rfl, hattempt, hnone⟩
    · rw [hcommit]
      exact hraised _
  | acquiring x g =>
    obtain ⟨hrequested, hattempt, hnone⟩ := h
    obtain ⟨answer₁, t₁, hran₁⟩ := exists_acquire g.resourceKey x
      (co.leaseMetadata r.taskId g.approvalId) w.ledger.leases hs
    simp only [startStep]
    rcases onLeases_cases (acquireWriterLease g.resourceKey x r.ttlSeconds
      (co.leaseMetadata r.taskId g.approvalId) w.clock) w.ledger with
      ⟨answer, t, hran, hcommit⟩ | ⟨e, hno, _⟩
    · rw [hcommit]
      cases answer with
      | none =>
        obtain ⟨_, _, ⟨_, _, rfl⟩ | ⟨_, hanswer, _⟩⟩ := acquire_cases hran
        · exact ⟨hattempt, hnone⟩
        · cases hanswer
      | some lease =>
        obtain ⟨hkey, hlease⟩ := acquire_holding hran hnone
        exact ⟨hrequested, hkey, hattempt, hlease⟩
    · exact absurd hran₁ (hno answer₁ t₁)
  | refused x =>
    obtain ⟨hattempt, hnone⟩ := h
    obtain ⟨b', hmoved, hcommit⟩ := hattempt.commit .failed w.clock (.inr (by decide))
    simp only [startStep]
    rw [hcommit]
    intro x' hx'
    obtain rfl := Option.some.inj hx'
    exact ⟨hmoved.concluded (by decide), fun c hc howner => absurd howner (hnone c hc)⟩
  | binding x g lease =>
    obtain ⟨hrequested, hkey, hattempt, hlease⟩ := h
    simp only [startStep]
    rcases Tx.commit_cases (bindLease co x g lease w.clock) w.ledger with
      ⟨_, l', hran, hcommit⟩ | ⟨e, hno, _⟩
    · rw [hcommit]
      obtain ⟨b', hmoved, rfl⟩ := bindLease_ran hran
      refine ⟨hrequested, hkey, hmoved.attempt hattempt, hlease, ?_⟩
      intro c hc
      obtain rfl := Option.some.inj hc
      rw [hkey]
      exact if_pos rfl
    · obtain ⟨b₁, hb₁⟩ := hattempt.transition w.clock (.inl rfl)
      have hbind : ∃ l', Tx.Ran (bindLease co x g lease w.clock) w.ledger () l' := by
        unfold bindLease
        simp only [Tx.ran_bind, Tx.ran_write]
        exact ⟨_, (), _, ran_onBase.mpr ⟨b₁, hb₁, rfl⟩, rfl⟩
      obtain ⟨l', hl'⟩ := hbind
      exact absurd hl' (hno () l')
  | consuming x g lease =>
    obtain ⟨_, _, hattempt, hlease, hbound⟩ := h
    simp only [startStep]
    rcases Tx.commit_cases (checkApproval g.approvalId r.taskId (co.scopeHash (r.scope g)) (some x)
      w.clock) w.ledger with ⟨_, l', hran, hcommit⟩ | ⟨e, _, hcommit⟩
    · rw [hcommit]
      obtain ⟨_, ⟨hnone, _⟩ | ⟨x', _, rfl⟩⟩ := checkApproval_ran hran
      · cases hnone
      · exact ⟨hattempt, hlease, hbound⟩
    · rw [hcommit]
      exact ⟨hattempt, hlease, hbound⟩
  | launching x lease =>
    simp only [startStep]
    split_ifs <;> exact h
  | failing x lease =>
    obtain ⟨hattempt, hlease, hbound⟩ := h
    obtain ⟨b', hmoved, hcommit⟩ := hattempt.commit .failed w.clock (.inr (by decide))
    simp only [startStep]
    rw [hcommit]
    refine ⟨hmoved.concluded (by decide), fun c hc howner => ?_⟩
    cases lease with
    | none => exact absurd howner (hlease c hc)
    | some c' =>
      obtain rfl := hlease.only c hc howner
      rcases hs c rfl with hkey | hlapsed
      · right
        show w.ledger.writerLease x = _
        rw [hbound c rfl, hkey]
      · exact .inl hlapsed
  | releasing x held =>
    obtain ⟨hconcluded, hheld⟩ := h
    cases held with
    | none =>
      intro x' hx'
      obtain rfl := Option.some.inj hx'
      exact ⟨hconcluded, fun c hc howner => (hheld c hc howner).resolve_right fun hnone => by cases hnone⟩
    | some lease =>
      obtain ⟨key, token⟩ := lease
      simp only [startStep]
      intro x' hx'
      obtain rfl := Option.some.inj hx'
      rcases onLeases_cases (releaseWriterLease key x token) w.ledger with
        ⟨answer, t, hran, hcommit⟩ | ⟨e, hno, _⟩
      · rw [hcommit]
        refine ⟨hconcluded, release_lapsed hran fun c hc howner => ?_⟩
        exact (hheld c hc howner).imp_right fun heq => Option.some.inj heq
      · obtain ⟨answer, t, hran⟩ := exists_release key x token w.ledger.leases
        exact absurd hran (hno answer t)
  | reporting x lease =>
    obtain ⟨hattempt, hlease, hbound⟩ := h
    exact ⟨hattempt.heartbeat w.clock, hlease, hbound⟩
  | finishing x lease =>
    obtain ⟨hattempt, _, _⟩ := h
    obtain ⟨b', _, hcommit⟩ := hattempt.commit .running w.clock (.inr (by decide))
    simp only [startStep]
    rw [hcommit]
    trivial
  | returned x => trivial
  | raised y => exact h

/-- The execution of a call after a step is the one it had or a new one. -/
theorem startStep_execution (hx : ownExecution (startStep co r input now l s).1 = some x) :
    ownExecution s = some x ∨ l.base.executions.get? x = none := by
  cases s with
  | checking g =>
    simp only [startStep] at hx
    split at hx <;> cases hx
  | creating g =>
    simp only [startStep] at hx
    rcases commit_onBase_cases (createExecution
      { taskId := r.taskId, adapterType := r.adapterType, status := .starting
        workdir := input.workdir } input.fresh now) l with ⟨b', hran, hcommit⟩ | ⟨e, _, hcommit⟩
    · rw [hcommit] at hx
      right
      cases g <;> cases hx <;> exact (createExecution_created hran).1
    · rw [hcommit] at hx
      cases hx
  | acquiring y g =>
    simp only [startStep] at hx
    split at hx <;> exact .inl hx
  | refused y => exact .inl hx
  | binding y g lease =>
    simp only [startStep] at hx
    split at hx <;> exact .inl hx
  | consuming y g lease =>
    simp only [startStep] at hx
    split at hx <;> exact .inl hx
  | launching y lease =>
    simp only [startStep] at hx
    split_ifs at hx <;> exact .inl hx
  | failing y lease =>
    simp only [startStep] at hx
    split at hx <;> exact .inl hx
  | releasing y held =>
    simp only [startStep] at hx
    split at hx <;> exact .inl hx
  | reporting y lease => exact .inl hx
  | finishing y lease =>
    simp only [startStep] at hx
    split at hx
    · cases hx
    · exact .inl hx
  | returned y => cases hx
  | raised y => exact .inl hx

/-- What holds in every state of a contained run. -/
structure Contains (co : Coordinator) (w : StartWorld) : Prop where
  owned : ∀ c ∈ w.ledger.leases.rows, (w.ledger.base.executions.get? c.ownerId).isSome = true
  distinct : ∀ (n m : ℕ) (c d : StartCall) (x : ExecutionId), w.calls[n]? = some c → w.calls[m]? = some d →
    ownExecution c.stage = some x → ownExecution d.stage = some x → n = m
  standing : ∀ (n : ℕ) (c : StartCall), w.calls[n]? = some c →
    Standing co w.ledger w.clock c.request c.stage

/-- A state of a ledger no call works on yet, whose leases belong to its executions. -/
structure Idle (w : StartWorld) : Prop where
  calls : w.calls = []
  owned : ∀ c ∈ w.ledger.leases.rows, (w.ledger.base.executions.get? c.ownerId).isSome = true

theorem Idle.contains (h : Idle w) : Contains co w where
  owned := h.owned
  distinct := by
    intro n m c d x hc
    rw [h.calls] at hc
    cases hc
  standing := by
    intro n c hc
    rw [h.calls] at hc
    cases hc

/-- A transaction of no call keeps what holds. -/
theorem Contains.touched (h : Contains co w) (ht : Touches none none w.clock w.ledger l') :
    Contains co { w with ledger := l' } where
  owned := fun c hc => ht.alive _ (h.owned c (ht.owned c hc (by simp)))
  distinct := h.distinct
  standing := fun n c hc => (h.standing n c hc).touched ht (fun _ _ => by simp) fun _ _ => by simp

theorem Contains.advance {call : StartCall} (h : Contains co w) (hn : w.calls[n]? = some call)
    (hs : Undisturbed co w call.request call.stage) :
    Contains co { w with
      ledger := (startStep co call.request input w.clock w.ledger call.stage).2
      calls := w.calls.set n
        { call with stage := (startStep co call.request input w.clock w.ledger call.stage).1 } } := by
  have ht := startStep_touches co call.request input w.clock w.ledger call.stage
  have hcall := h.standing n call hn
  -- Another call is at another execution, and its task is not the one a creation is for.
  have hother : ∀ (m : ℕ) (d : StartCall) (x : ExecutionId), m ≠ n → w.calls[m]? = some d → ownExecution d.stage = some x →
      some x ≠ ownExecution call.stage :=
    fun m d x hne hd hx heq => hne (h.distinct m n d call x hd hn hx heq.symm)
  have htask : ∀ (m : ℕ) (d : StartCall) (x : ExecutionId), w.calls[m]? = some d → openExecution d.stage = some x →
      some d.request.taskId ≠ createdFor call.request call.stage := by
    intro m d x hd hx heq
    cases hstage : call.stage with
    | creating g =>
      rw [hstage] at hs heq
      have hnone := hs d (List.mem_of_getElem? hd) (Option.some.inj heq)
      rw [hx] at hnone
      cases hnone
    | _ =>
      rw [hstage] at heq
      cases heq
  refine ⟨fun c hc => ?_, fun m₁ m₂ c₁ c₂ x hc₁ hc₂ hx₁ hx₂ => ?_, fun m d hd => ?_⟩
  · by_cases howner : some c.ownerId = ownExecution call.stage
    · exact ht.alive _ (hcall.exists howner.symm)
    · exact ht.alive _ (h.owned c (ht.owned c hc howner))
  · have hnew : ∀ (m : ℕ) (d : StartCall), m ≠ n → w.calls[m]? = some d →
        ownExecution d.stage = some x →
        ownExecution (startStep co call.request input w.clock w.ledger call.stage).1 ≠ some x := by
      intro m d hne hd hx hown
      rcases startStep_execution hown with hsame | hfresh
      · exact hne (h.distinct m n d call x hd hn hx hsame)
      · have hsome := (h.standing m d hd).exists hx
        rw [hfresh] at hsome
        cases hsome
    dsimp only at hc₁ hc₂
    rw [List.getElem?_set] at hc₁ hc₂
    split_ifs at hc₁ hc₂ with h₁ _ h₂ _ h₂
    · exact h₁.symm.trans h₂
    · cases hc₁
      exact absurd hx₁ (hnew m₂ c₂ (Ne.symm h₂) hc₂ hx₂)
    · cases hc₂
      exact absurd hx₂ (hnew m₁ c₁ (Ne.symm h₁) hc₁ hx₁)
    · exact h.distinct m₁ m₂ c₁ c₂ x hc₁ hc₂ hx₁ hx₂
  · dsimp only at hd ⊢
    rw [List.getElem?_set] at hd
    split_ifs at hd with hm
    · cases hd
      exact startStep_standing hcall hs h.owned
    · exact (h.standing m d hd).touched ht (fun x hx => hother m d x (Ne.symm hm) hd hx)
        fun x hx => htask m d x hd hx

theorem Contains.step (h : Contains co w) (ha : Contained co w a) :
    Contains co (stepStart co w a) := by
  cases a with
  | enter r cwd =>
    obtain ⟨hstanding, hown⟩ := enterCall_standing co w.ledger w.clock r cwd
    have hcases : ∀ (m : ℕ) (c : StartCall), (w.calls ++ [⟨r, enterCall co r cwd⟩])[m]? = some c →
        w.calls[m]? = some c ∨ c = ⟨r, enterCall co r cwd⟩ := by
      intro m c hc
      rcases Nat.lt_or_ge m w.calls.length with hlt | hge
      · rw [List.getElem?_append_left hlt] at hc
        exact .inl hc
      · rw [List.getElem?_append_right hge] at hc
        exact .inr (List.mem_singleton.mp (List.mem_of_getElem? hc))
    refine ⟨h.owned, fun m₁ m₂ c₁ c₂ x hc₁ hc₂ hx₁ hx₂ => ?_, fun m c hc => ?_⟩
    · rcases hcases m₁ c₁ hc₁ with hold₁ | rfl
      · rcases hcases m₂ c₂ hc₂ with hold₂ | rfl
        · exact h.distinct m₁ m₂ c₁ c₂ x hold₁ hold₂ hx₁ hx₂
        · rw [hown] at hx₂
          cases hx₂
      · rw [hown] at hx₁
        cases hx₁
    · rcases hcases m c hc with hold | rfl
      · exact h.standing m c hold
      · exact hstanding
  | advance n input =>
    simp only [stepStart]
    split
    · rename_i call hcall
      exact h.advance hcall (ha call hcall)
    · exact h
  | enterDecision i decision decidedBy => exact ⟨h.owned, h.distinct, h.standing⟩
  | decide n =>
    simp only [stepStart]
    split
    · rename_i d hd
      rcases Tx.commit_cases (decideApproval d.approvalId d.decision d.decidedBy d.entry) w.ledger
        with ⟨answer, l', hran, hcommit⟩ | ⟨e, _, hcommit⟩
      · rw [hcommit]
        have hkept := h.touched (decide_touches hran)
        exact ⟨hkept.owned, hkept.distinct, hkept.standing⟩
      · rw [hcommit]
        exact ⟨h.owned, h.distinct, h.standing⟩
    · exact h
  | tick elapsed =>
    exact ⟨h.owned, h.distinct, fun n c hc => (h.standing n c hc).later (Nat.le_add_right _ _)⟩

end Calls

section Use
/-!
### Single use
-/

theorem not_approved_of_consumed (h : Consumed l g.approvalId) : ¬ Approved co l now r g := by
  rintro ⟨a, ha, happroved, _⟩
  obtain ⟨a', ha', hconsumed⟩ := h
  rw [ha] at ha'
  obtain rfl := Option.some.inj ha'
  rw [happroved] at hconsumed
  cases hconsumed

theorem stepStart_consumed (h : Consumed w.ledger i) (a : StartAction) :
    Consumed (stepStart co w a).ledger i := by
  cases a with
  | enter r cwd => exact h
  | advance n input =>
    simp only [stepStart]
    split
    · exact (startStep_touches co _ input w.clock _ _).consumed _ h
    · exact h
  | enterDecision j decision decidedBy => exact h
  | decide n =>
    simp only [stepStart]
    split
    · rename_i d hd
      rcases Tx.commit_cases (decideApproval d.approvalId d.decision d.decidedBy d.entry) w.ledger
        with ⟨answer, l', hran, hcommit⟩ | ⟨e, _, hcommit⟩
      · rw [hcommit]
        exact decide_consumed h hran
      · rw [hcommit]
        exact h
    · exact h
  | tick elapsed => exact h

/-- A call that reaches the adapter found its approval good and consumed it. -/
theorem consuming_launching {z : Option WriterLease}
    (h : (startStep co r input now l (.consuming x g c)).1 = .launching y z) :
    Approved co l now r g ∧
      Consumed (startStep co r input now l (.consuming x g c)).2 g.approvalId := by
  simp only [startStep] at h ⊢
  rcases Tx.commit_cases (checkApproval g.approvalId r.taskId (co.scopeHash (r.scope g)) (some x)
    now) l with ⟨_, l', hran, hcommit⟩ | ⟨e, _, hcommit⟩
  · rw [hcommit]
    obtain ⟨⟨a, ha, hauthorises⟩, ⟨hnone, _⟩ | ⟨x', _, rfl⟩⟩ := checkApproval_ran hran
    · cases hnone
    · have hrow := Table.get?_update_key l.records g.approvalId
        (fun a => { a with status := .consumed, executionId := some x' }) fun _ => rfl
      rw [ha, Option.map_some] at hrow
      exact ⟨⟨a, ha, hauthorises⟩, _, hrow, rfl⟩
  · rw [hcommit] at h
    cases h

/-- What brings a write command to the adapter. -/
theorem launched_cases {s : Launch} (h : s ∈ launched co w a) :
    launched co w a = [s] ∧ ∃ n input call lease, a = .advance n input ∧
      w.calls[n]? = some call ∧ call.stage = .consuming s.executionId s.grant lease ∧
      call.request = s.request ∧ Approved co w.ledger w.clock s.request s.grant ∧
      Consumed (stepStart co w a).ledger s.grant.approvalId := by
  cases a with
  | advance n input =>
    simp only [launched, stepStart] at h ⊢
    cases hcall : w.calls[n]? with
    | none =>
      rw [hcall] at h
      cases h
    | some call =>
      rw [hcall] at h
      dsimp only at h ⊢
      split at h
      · rename_i x g lease y z hstage hlaunching
        obtain rfl := List.mem_singleton.mp h
        rw [hstage] at hlaunching ⊢
        obtain ⟨happroved, hconsumed⟩ := consuming_launching hlaunching
        exact ⟨rfl, n, input, call, lease, rfl, hcall, hstage, rfl, happroved, hconsumed⟩
      · cases h
  | enter | enterDecision | decide | tick => cases h

theorem consumed_not_launched (as : List StartAction) :
    ∀ w, Consumed w.ledger i → i ∉ (launches co w as).map fun s => s.grant.approvalId := by
  induction as with
  | nil => exact fun _ _ h => by cases h
  | cons a as ih =>
    intro w hconsumed hmem
    rw [launches, List.map_append, List.mem_append] at hmem
    rcases hmem with hnow | hlater
    · obtain ⟨s, hs, rfl⟩ := List.mem_map.mp hnow
      obtain ⟨_, _, _, _, _, _, _, _, _, happroved, _⟩ := launched_cases hs
      exact not_approved_of_consumed hconsumed happroved
    · exact ih _ (stepStart_consumed hconsumed a) hlater

/-- No run brings two write commands to the adapter under one approval. -/
theorem nodup_launches (co : Coordinator) (as : List StartAction) :
    ∀ w, ((launches co w as).map fun s => s.grant.approvalId).Nodup := by
  induction as with
  | nil => exact fun _ => List.nodup_nil
  | cons a as ih =>
    intro w
    rw [launches]
    cases hnow : launched co w a with
    | nil => exact ih _
    | cons s rest =>
      have hs : s ∈ launched co w a := by
        rw [hnow]
        exact List.mem_cons_self
      obtain ⟨honly, _, _, _, _, _, _, _, _, _, hconsumed⟩ := launched_cases hs
      rw [hnow] at honly
      rw [honly, List.singleton_append, List.map_cons, List.nodup_cons]
      exact ⟨consumed_not_launched as _ hconsumed, ih _⟩

end Use

/-- A write command at the adapter has an approval good for just it and a live lease of its own
execution. -/
structure LaunchAllowed (co : Coordinator) (w : StartWorld) (s : Launch) : Prop where
  approved : Approved co w.ledger w.clock s.request s.grant
  requested : Requested s.request s.grant
  execution : ∃ e, w.ledger.base.executions.get? s.executionId = some e ∧
    e.taskId = s.request.taskId
  leased : ∃ c e, w.ledger.leases.get? s.grant.resourceKey = some c ∧
    c.ownerId = s.executionId ∧ ExpiresAt c e ∧ w.clock < e

theorem Contains.launchAllowed {s : Launch} (h : Contains co w) (ha : Contained co w a)
    (hs : s ∈ launched co w a) : LaunchAllowed co w s := by
  obtain ⟨_, n, input, call, lease, rfl, hcall, hstage, hrequest, happroved, _⟩ := launched_cases hs
  have hstanding := h.standing n call hcall
  have hlive := ha call hcall
  rw [hstage, hrequest] at hstanding hlive
  obtain ⟨hrequested, hkey, hattempt, ⟨howner, ⟨e, he⟩, hkept, _⟩, _⟩ := hstanding
  have hnot := hlive happroved
  obtain ⟨row, hrow, htask, _⟩ := hattempt.row
  refine ⟨happroved, hrequested, ⟨row, hrow, htask⟩, lease, e, ?_, howner, he, ?_⟩
  · rw [← hkey]
    exact hkept.resolve_right hnot
  · exact Nat.lt_of_not_le fun hle => hnot ⟨e, hle, he.text⟩

/-- In a contained run an approval brings at most one write command to the adapter, with a good
approval and a live lease, and every call that raised left its execution ended and no lease of
it live. -/
theorem write_approvals (h₀ : Idle w₀) (h : Run (stepStart co) (Contained co) w₀ as w) :
    ((launches co w₀ as).map fun s => s.grant.approvalId).Nodup ∧
      (∀ as₁ a as₂, as = as₁ ++ a :: as₂ →
        ∀ s ∈ launched co (as₁.foldl (stepStart co) w₀) a,
          LaunchAllowed co (as₁.foldl (stepStart co) w₀) s) ∧
      ∀ c ∈ w.calls, ∀ x, c.stage = .raised (some x) → CleanedUp w.ledger w.clock x := by
  have hstep : ∀ w a, Contains co w → Contained co w a → Contains co (stepStart co w a) :=
    fun w a hw ha => hw.step ha
  refine ⟨nodup_launches co as w₀, ?_, ?_⟩
  · rintro as₁ a as₂ rfl s hs
    obtain ⟨hrun, ha⟩ := h.split
    exact (hrun.invariant hstep h₀.contains).launchAllowed ha hs
  · intro c hc x hx
    obtain ⟨n, hn⟩ := List.mem_iff_getElem?.mp hc
    have hstanding := (h.invariant hstep h₀.contains).standing n c hn
    rw [hx] at hstanding
    exact hstanding x rfl

def plainCoordinator : Coordinator where
  adapters := ["subprocess"]
  scopeHash := fun _ => [7]
  redact := id
  leaseMetadata := fun _ _ => ""

/-- A task and an approved write command for it. -/
def plainStart : StartWorld :=
  let task : AgentTask := { id := 1, createdAt := 0, updatedAt := 0 }
  let approval : ApprovalRecord :=
    { id := 5, taskId := some 1, action := "workspace.write", status := .approved
      requestedBy := "agent", decidedBy := "owner", requestedAt := 0, expiresAt := 60
      metadata := { authorizedActor := some "owner", scopeHash := some [7] } }
  { ledger := {
      base := { tasks := ⟨[task], List.nodup_singleton _⟩ }
      records := ⟨[approval], List.nodup_singleton _⟩ } }

def plainCommand : CommandRequest where
  taskId := 1
  adapterType := "subprocess"
  command := ["make"]
  cwd := "/work"
  writeResourceKey := some "repo"
  approvalId := some 5

/-- The command is started by an adapter that raises. -/
def failedStart : List StartAction :=
  [.enter plainCommand (some "/work"), .advance 0 {}, .advance 0 { fresh := 10 }, .advance 0 {},
    .advance 0 {}, .advance 0 {}, .advance 0 { started := false }, .advance 0 {}, .advance 0 {}]

def plainGrant : WriteGrant := ⟨"repo", 5, "/work"⟩

def plainLease : WriterLease where
  resourceKey := "repo"
  ownerId := 10
  fenceToken := 1
  metadata := ""
  acquiredAt := "1970-01-01T00:00:00+00:00".toList
  heartbeatAt := "1970-01-01T00:00:00+00:00".toList
  expiresAt := "1970-01-01T00:10:30+00:00".toList

theorem contained_advance (call : StartCall) (hcall : w.calls[n]? = some call)
    (h : Undisturbed co w call.request call.stage) : Contained co w (.advance n input) := by
  intro c hc
  rw [hcall] at hc
  obtain rfl := Option.some.inj hc
  exact h

theorem plainLease_live : ¬ Lapsed plainLease 0 := by
  have he : ExpiresAt plainLease 630 := ⟨by decide +kernel, by decide +kernel⟩
  rw [he.lapsed_iff (by decide +kernel)]
  decide

theorem failedStart_contained : Run (stepStart plainCoordinator) (Contained plainCoordinator)
    plainStart failedStart (failedStart.foldl (stepStart plainCoordinator) plainStart) := by
  refine .cons trivial (.cons ?_ (.cons ?_ (.cons ?_ (.cons ?_ (.cons ?_ (.cons ?_ (.cons ?_
    (.cons ?_ (.nil _)))))))))
  · exact contained_advance ⟨plainCommand, .checking plainGrant⟩ (by decide +kernel) trivial
  · refine contained_advance ⟨plainCommand, .creating (some plainGrant)⟩
      (by decide +kernel) ?_
    show ∀ d ∈ _, _
    decide +kernel
  · refine contained_advance ⟨plainCommand, .acquiring 10 plainGrant⟩
      (by decide +kernel) ?_
    show _ < 10000
    decide +kernel
  · exact contained_advance ⟨plainCommand, .binding 10 plainGrant plainLease⟩
      (by decide +kernel) trivial
  · refine contained_advance ⟨plainCommand, .consuming 10 plainGrant plainLease⟩
      (by decide +kernel) ?_
    exact fun _ => plainLease_live
  · exact contained_advance ⟨plainCommand, .launching 10 (some plainLease)⟩
      (by decide +kernel) trivial
  · refine contained_advance ⟨plainCommand, .failing 10 (some plainLease)⟩
      (by decide +kernel) ?_
    exact fun c _ => .inl rfl
  · exact contained_advance ⟨plainCommand, .releasing 10 (some ("repo", 1))⟩
      (by decide +kernel) trivial

theorem write_approvals_failed :
    let w := failedStart.foldl (stepStart plainCoordinator) plainStart
    ((launches plainCoordinator plainStart failedStart).map fun s => s.grant.approvalId) = [5] ∧
      CleanedUp w.ledger w.clock 10 := by
  have hidle : Idle plainStart := ⟨rfl, fun c hc => by cases hc⟩
  have hall := write_approvals hidle failedStart_contained
  refine ⟨by decide +kernel, ?_⟩
  exact hall.2.2 ⟨plainCommand, .raised (some 10)⟩ (by decide +kernel) 10 rfl

/-- While the first call holds its lease, another call starts a read-only command for the same
task. -/
def concurrentStart : List StartAction :=
  [.enter plainCommand (some "/work"), .advance 0 {}, .advance 0 { fresh := 10 }, .advance 0 {},
    .enter { plainCommand with writeResourceKey := none, approvalId := none } (some "/work"),
    .advance 1 { fresh := 11 }, .advance 0 {}]

/-- The first call raises with its execution starting and its lease live. -/
theorem concurrent_start_leaks :
    let w := concurrentStart.foldl (stepStart plainCoordinator) plainStart
    ⟨plainCommand, .raised (some 10)⟩ ∈ w.calls ∧
      (w.ledger.base.executions.get? 10).map (·.status) = some .starting ∧
      ∃ c ∈ w.ledger.leases.rows, c.ownerId = 10 ∧ HeldByOther c 11 w.clock := by
  decide +kernel

end NyanyaAgent.Safety
