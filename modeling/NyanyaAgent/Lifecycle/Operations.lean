import NyanyaAgent.Lifecycle.Steps

/-!
# The changes of the operation commands

Each command of `operation_store` and `work_queue` as a sequence of elementary
changes.
-/
namespace NyanyaAgent.Lifecycle
open NyanyaAgent.Schema NyanyaAgent.Relational NyanyaAgent.Operations NyanyaAgent.Conversation
open NyanyaAgent.Drafts NyanyaAgent.Plans

variable {env : Environment} {lawful : Prop} {l l' : Ledger}

theorem registerWorker_chain {worker : WorkerId} {now : Time} {u : Unit}
    (h : Tx.Ran (registerWorker worker now) l u l') : Chain env lawful [.aside] l l' := by
  unfold registerWorker insertWorker at h
  simp only [Tx.ran_attempt, Option.map_eq_some_iff] at h
  obtain ⟨t, ht, rfl⟩ := h
  refine .of_step (.aside ⟨⟨rfl, rfl, rfl, rfl, rfl, rfl, rfl, ?_, [], by simp, by simp⟩, rfl,
    fun _ => rfl⟩) (by simp)
  intro w hw
  simp only [Table.get?_insert ht]
  split_ifs
  · rfl
  · exact hw

theorem heartbeat_chain (worker : WorkerId) (closed : Bool) (now : Time) (l : Ledger) :
    Chain env lawful [.aside] l (heartbeat worker closed now l) := by
  refine .of_step (.aside ⟨⟨rfl, rfl, rfl, rfl, rfl, rfl, rfl, ?_, [], ?_, by simp⟩, rfl,
    fun _ => rfl⟩) (by simp)
  · intro w hw
    simpa [heartbeat] using hw
  · simp [heartbeat]

/-- A table of results keeps its rows under an update. -/
theorem deliver_update (l : Ledger) (p : TaskResult → Prop) [DecidablePred p]
    (f : TaskResult → TaskResult) (hf : ∀ r, (f r).executionId = r.executionId) :
    Step env lawful .deliver l { l with results := l.results.update p f hf } := by
  refine .deliver ⟨rfl, rfl, rfl, rfl, rfl, rfl, rfl, fun _ => id, [], by simp, by simp⟩ ?_
  intro x hx
  simpa using hx

theorem existingApply_none {p : PlanId} {owner workspace : String}
    (h : existingApply l p owner workspace = .ok none) : applyTasks l p = [] := by
  unfold existingApply at h
  split at h
  · assumption
  · split at h
    · cases h
    · split_ifs at h
      cases h
  · cases h

theorem ownedPlan_eq_some {p : PlanId} {owner : String} {plan : ChangePlan} :
    ownedPlan l p owner = some plan ↔ l.plans.get? p = some plan ∧ plan.ownerKey = owner := by
  simp [ownedPlan, Option.filter_eq_some_iff]

theorem exists_worker {generation : WorkerId} {now : Time} (h : WorkerReady l generation now) :
    (l.workers.get? generation).isSome = true := by
  obtain ⟨w, hw, rfl, _⟩ := h
  rw [Table.mem_rows_iff.mp hw]
  rfl

/-- An apply that passed its admission checks belongs under an approved plan. -/
theorem applyAdmission {spec : OperationSpec} {owner root : String} {parent under : Option TaskId}
    (hk : spec.kind = .apply) (hexisting : admissionExisting l spec owner root = .ok none)
    (hparent : admissionParent l spec owner root parent = .ok under) :
    ∃ p plan, ApplyAdmission l spec owner root under p plan := by
  unfold admissionParent at hparent
  rw [hk] at hparent
  dsimp only at hparent
  cases hp : spec.planId with
  | none => simp [hp] at hparent
  | some p =>
    simp only [hp, Option.bind_some] at hparent
    unfold admissionExisting at hexisting
    simp only [hk, hp] at hexisting
    split at hparent
    · cases hparent
    · next plan hplan =>
      obtain ⟨hrow, howned⟩ := ownedPlan_eq_some.mp hplan
      split_ifs at hparent with hne
      rw [not_or, not_not, not_not] at hne
      exact ⟨p, plan, hp, hrow, howned, hne.1, hne.2, (Except.ok.inj hparent).symm,
        existingApply_none hexisting⟩

/-- What a caller of `_submit_conn` promises. -/
structure SubmitPromise (l : Ledger) (spec : OperationSpec) (source : Option RequestId)
    (parent : Option TaskId) (fresh : TaskId) : Prop where
  fresh : l.tasks.get? fresh = none
  apply : spec.kind = .apply → source = none
  request : spec.kind = .request → RequestPromise l spec parent

/-- The row of a task that was taken in is queued. -/
theorem upsertTask_queued {r : AgentTask} {owner : String} {q : Prop}
    (h : l.tasks.get? r.id = none ∨ q ∧
      ∃ t, l.tasks.get? r.id = some t ∧ t.status = .queued ∧ t.requestedBy = owner)
    (hr : r.status = .queued) :
    ∃ t, (upsertTask r l).tasks.get? r.id = some t ∧ t.status = .queued := by
  unfold upsertTask
  split
  · next tasks hins =>
    refine ⟨r, ?_, hr⟩
    dsimp only
    rw [Table.get?_insert hins, if_pos rfl]
  · next hins =>
    rcases h with hnone | ⟨_, t, ht, hq, _⟩
    · obtain ⟨_, hsome⟩ := Table.exists_insert hnone
      rw [hins] at hsome
      cases hsome
    · rw [Ledger.updateTask_get?, ht]
      exact ⟨_, rfl, hq⟩

theorem acceptConn_chain {k : TaskId} {spec : OperationSpec} {owner root : String}
    {generation : WorkerId} {source : Option RequestId} {project : Option ProjectId}
    {parent : Option TaskId} {key : Option String} {session : SessionId} {now : Time}
    {task : AgentTask} (hE : validate spec = .ok () → Enters lawful l k spec owner root generation parent)
    (h : Tx.Ran (acceptConn env k spec owner generation root source project parent key session now)
      l task l') : Chain env lawful [.aside, .enter, .bind] l l' := by
  unfold acceptConn insertOperation at h
  simp only [Tx.ran_write_bind, Tx.ran_lift_bind, Tx.ran_attempt_bind, Option.map_eq_some_iff] at h
  obtain ⟨_, hvalid, _, ⟨operations, hins, rfl⟩, h⟩ := h
  have hins' : l.operations.insert
      { taskId := k, spec, workerGeneration := generation, parentTaskId := parent } =
        some operations := by
    rw [← hins]
    unfold upsertTask
    split <;> rfl
  have hstart : Chain env lawful [.aside, .enter, .bind] l
      { upsertTask (acceptedTask env k spec owner root source project now) l with operations } :=
    .of_step (.enter (hE hvalid) hins') (by simp)
  refine hstart.trans ?_
  split at h
  · rw [Tx.ran_bind] at h
    obtain ⟨turn, l₁, hb, h⟩ := h
    simp only [Tx.ran_write_bind, Tx.ran_select_bind, Tx.ran_demand] at h
    rw [h.2]
    refine Chain.snoc ?_ (.aside (Aside.appendEvent l₁ _ (by simp))) (by simp)
    have hsame := bindConn_same env hb
    rcases bindConn_turns env hb with ⟨hturns, _⟩ | ⟨hnone, hop, hothers⟩
    · exact .of_step (.aside (.of_turns hsame fun j => by rw [turnKey, hturns, turnKey])) (by simp)
    · refine .of_step (.bind (.of_turns hsame) (by rw [hsame.eq]) (by rw [turnKey, hnone]; rfl) hop
        (fun j hj => by rw [turnKey, hothers j hj, turnKey]) fun hl => ?_) (by simp)
      exact upsertTask_queued (r := acceptedTask env k spec owner root source project now)
        ((hE hvalid).task hl) rfl
  · simp only [Tx.ran_write_bind, Tx.ran_select_bind, Tx.ran_demand] at h
    rw [h.2]
    exact .of_step (.aside (Aside.appendEvent _ _ (by simp))) (by simp)

/-- The task the intake names is new, or adopted with nothing but its open attempt changed. -/
structure Entering (l l' : Ledger) (owner : String) (source : Option RequestId) (fresh k : TaskId) :
    Prop where
  tasks : l'.tasks = l.tasks
  drafts : l'.drafts = l.drafts
  workers : l'.workers = l.workers
  task : k = fresh ∨ source ≠ none ∧
    ∃ t, l.tasks.get? k = some t ∧ t.status = .queued ∧ t.requestedBy = owner

theorem intakeConn_chain {owner root : String} {source : Option RequestId}
    {key : Option String} {fresh : TaskId} {session : SessionId} {now : Time} {intake : Intake}
    (h : Tx.Ran (intakeConn env owner root source key fresh session now) l intake l') :
    Chain env lawful [.aside, .retire] l l' ∧
      ∀ k, intake = .enter k → Entering l l' owner source fresh k := by
  unfold intakeConn at h
  rw [Tx.ran_select_bind] at h
  split at h
  · obtain ⟨rfl, rfl⟩ := Tx.ran_pure.mp h
    exact ⟨.refl, fun k hk => ⟨rfl, rfl, rfl, .inl (by cases hk; rfl)⟩⟩
  · next row hrow =>
    simp only [Tx.ran_require_bind, Tx.ran_select_bind] at h
    obtain ⟨howner, h⟩ := h
    split at h
    · rw [Tx.ran_bind] at h
      obtain ⟨turn, l₁, hb, h⟩ := h
      obtain ⟨rfl, rfl⟩ := Tx.ran_pure.mp h
      rcases bindConn_turns env hb with ⟨hturns, _⟩ | ⟨hnone, _⟩
      · refine ⟨.of_step (.aside (.of_turns (bindConn_same env hb) fun j => ?_)) (by simp),
          fun k hk => by cases hk⟩
        rw [turnKey, hturns, turnKey]
      · simp_all
    · obtain ⟨rfl, rfl⟩ := Tx.ran_pure.mp h
      exact ⟨.refl, fun k hk => by cases hk⟩
    · next hop =>
      simp only [Tx.ran_require_bind, Tx.ran_select_bind, Tx.ran_write_bind, Tx.ran_pure] at h
      obtain ⟨hq, hold, rfl, rfl⟩ := h
      have hfound := List.find?_some hrow
      simp only [decide_eq_true_eq] at hfound
      have htask := Table.mem_rows_iff.mp (List.mem_of_find?_eq_some hrow)
      refine ⟨.of_step (.retire htask hq hop ?_) (by simp), ?_⟩
      · intro x hx
        rcases hold with hold | ⟨e, he, hp, _⟩
        · rw [hold] at hx
          cases hx
        · rw [hx] at he
          exact ⟨e, he, hp⟩
      · intro k hk
        cases hk
        refine ⟨?_, ?_, ?_, .inr ⟨hfound.1, row, htask, hq, howner⟩⟩ <;>
          · unfold retireImported
            split <;> rfl

theorem submitConn_chain {spec : OperationSpec} {owner root : String} {generation : WorkerId}
    {source : Option RequestId} {project : Option ProjectId} {parent : Option TaskId}
    {key : Option String} {fresh : TaskId} {session : SessionId} {now : Time} {task : AgentTask}
    (hp : lawful → SubmitPromise l spec source parent fresh)
    (h : Tx.Ran (submitConn env spec owner generation root source project parent key fresh session
      now) l task l') : Chain env lawful [.aside, .retire, .enter, .bind] l l' := by
  unfold submitConn at h
  simp only [Tx.ran_select_bind, Tx.ran_require_bind, decide_eq_true_eq] at h
  obtain ⟨hready, h⟩ := h
  rw [Tx.ran_bind] at h
  obtain ⟨intake, l₁, hi, h⟩ := h
  obtain ⟨hchain, henter⟩ := intakeConn_chain hi
  refine (hchain.mono (by simp)).trans ?_
  cases intake with
  | answered t =>
    rw [(Tx.ran_pure.mp h).2]
    exact .refl
  | enter k =>
    obtain ⟨htasks, hdrafts, hworkers, htask⟩ := henter k rfl
    simp only [Tx.ran_select_bind, Tx.ran_lift_bind] at h
    obtain ⟨existing, hexisting, h⟩ := h
    cases existing with
    | some t =>
      rw [(Tx.ran_pure.mp h).2]
      exact .refl
    | none =>
      simp only [Tx.ran_select_bind, Tx.ran_lift_bind] at h
      obtain ⟨under, hunder, h⟩ := h
      refine (acceptConn_chain (fun hvalid => ?_) h).mono (by simp)
      refine ⟨hvalid, hworkers ▸ exists_worker hready,
        fun hk => applyAdmission hk hexisting hunder, fun hl => ?_, fun hl hk => ?_⟩
      · rw [htasks]
        rcases htask with rfl | ⟨hs, ht⟩
        · exact .inl (hp hl).fresh
        · refine .inr ⟨?_, ht⟩
          cases hk : spec.kind with
          | request => rfl
          | apply => exact absurd ((hp hl).apply hk) hs
      · obtain ⟨hplan, hparent⟩ := (hp hl).request hk
        have hunder' : parent = under := by simpa [admissionParent, hk] using hunder
        exact ⟨hplan, hdrafts ▸ hunder' ▸ hparent⟩

theorem submit_chain {reg : Registry} {spec : OperationSpec} {owner : String}
    {generation : WorkerId} {source : Option RequestId} {project : Option ProjectId}
    {parent : Option TaskId} {key : Option String} {fresh : TaskId} {session : SessionId}
    {now : Time} {task : AgentTask} (hp : lawful → SubmitPromise l spec source parent fresh)
    (h : Tx.Ran (submit env reg spec owner generation source project parent key fresh session now)
      l task l') : Chain env lawful [.aside, .retire, .enter, .bind] l l' := by
  unfold submit at h
  simp only [Tx.ran_lift_bind] at h
  obtain ⟨_, _, _, _, h⟩ := h
  exact submitConn_chain hp h

theorem mem_claimable {generation : WorkerId} {t : AgentTask} {o : TaskOperation}
    (h : (t, o) ∈ claimable l generation) : l.tasks.get? t.id = some t ∧
      l.operations.get? t.id = some o ∧ t.status = .queued ∧ o.eligible = true ∧
      o.workerGeneration = generation ∧ o.attempts < o.maxAttempts := by
  unfold claimable at h
  rw [List.mem_insertionSort, List.mem_filterMap] at h
  obtain ⟨t', ht', h⟩ := h
  split at h
  · next o' ho' =>
    split_ifs at h with hc
    cases h
    exact ⟨Table.mem_rows_iff.mp ht', ho', hc⟩
  · cases h

theorem startAttempt_step {t : AgentTask} {o : TaskOperation} {worker : WorkerId}
    {x : ExecutionId} {entry now : Time} {u : Unit} (ht : l.tasks.get? t.id = some t)
    (ho : l.operations.get? t.id = some o) (hq : t.status = .queued) (he : o.eligible = true)
    (ha : o.attempts < o.maxAttempts) (hfree : ¬ WorkspaceBusy l o.spec)
    (h : Tx.Ran (startAttempt t o.spec worker x entry now) l u l') :
    Step env lawful .start l l' := by
  unfold startAttempt insertExecution insertClaim at h
  simp only [Tx.ran_attempt_bind, Tx.ran_write_bind, Tx.ran_write, Option.map_eq_some_iff] at h
  obtain ⟨_, ⟨executions, hx, rfl⟩, _, ⟨claims, hc, rfl⟩, rfl⟩ := h
  exact .start ht ho hq he ha hfree hx hc

/-- What a claim that starts an attempt has found, and the record it answers with. -/
structure Claims (l : Ledger) (generation : WorkerId) (x : ExecutionId) (record : ClaimRecord)
    (t : AgentTask) (o : TaskOperation) : Prop where
  task : l.tasks.get? t.id = some t
  operation : l.operations.get? t.id = some o
  queued : t.status = .queued
  eligible : o.eligible = true
  worker : o.workerGeneration = generation
  attempts : o.attempts < o.maxAttempts
  free : ¬ WorkspaceBusy l o.spec
  first : ¬ HasEarlierWork l t.id
  record : record = ⟨t.id, generation, x, o.spec, t.requestedBy⟩

/-- A claim answers nothing and writes nothing, or starts the attempt it answers with. -/
theorem claim_cases {generation : WorkerId} {slots : ℕ} {x : ExecutionId} {entry now : Time}
    {record : Option ClaimRecord} (h : Tx.Ran (claim generation slots x entry now) l record l') :
    record = none ∧ l' = l ∨ activeClaims l < slots ∧ ∃ r t o, record = some r ∧
      Claims l generation x r t o ∧ Tx.Ran (startAttempt t o.spec generation x entry now) l () l' := by
  unfold claim at h
  rw [Tx.ran_select_bind] at h
  split_ifs at h with hslots
  · exact .inl (Tx.ran_pure.mp h)
  · rw [Tx.ran_select_bind] at h
    split at h
    · exact .inl (Tx.ran_pure.mp h)
    · next t o hrow =>
      rw [Tx.ran_bind] at h
      obtain ⟨_, l₁, hs, h⟩ := h
      obtain ⟨rfl, rfl⟩ := Tx.ran_pure.mp h
      obtain ⟨ht, ho, hq, he, hg, ha⟩ := mem_claimable (List.mem_of_find?_eq_some hrow)
      have hfree := List.find?_some hrow
      simp only [decide_eq_true_eq] at hfree
      exact .inr ⟨not_le.mp hslots, _, t, o, rfl, ⟨ht, ho, hq, he, hg, ha, hfree.2, hfree.1, rfl⟩, hs⟩

theorem Claims.step {generation : WorkerId} {x : ExecutionId} {record : ClaimRecord} {t : AgentTask}
    {o : TaskOperation} {entry now : Time} (hc : Claims l generation x record t o)
    (h : Tx.Ran (startAttempt t o.spec generation x entry now) l () l') :
    Step env lawful .start l l' :=
  startAttempt_step hc.task hc.operation hc.queued hc.eligible hc.attempts hc.free h

theorem claim_chain {generation : WorkerId} {slots : ℕ} {x : ExecutionId} {entry now : Time}
    {record : Option ClaimRecord} (h : Tx.Ran (claim generation slots x entry now) l record l') :
    Chain env lawful [.start] l l' := by
  rcases claim_cases h with ⟨_, rfl⟩ | ⟨_, r, t, o, _, hc, hs⟩
  · exact .refl
  · exact .of_step (hc.step hs) (by simp)

/-- The record names the attempt that was started. -/
theorem startAttempt_execution {t : AgentTask} {spec : OperationSpec} {worker : WorkerId}
    {x : ExecutionId} {entry now : Time} {u : Unit}
    (h : Tx.Ran (startAttempt t spec worker x entry now) l u l') :
    l.executions.get? x = none ∧ l'.operations.get? t.id =
        (l.operations.get? t.id).map (fun o => { o with attempts := o.attempts + 1 }) ∧
      ∃ e, l'.executions.get? x = some e ∧ e.taskId = t.id ∧ e.status = .running := by
  unfold startAttempt insertExecution insertClaim at h
  simp only [Tx.ran_attempt_bind, Tx.ran_write_bind, Tx.ran_write, Option.map_eq_some_iff] at h
  obtain ⟨_, ⟨executions, hx, rfl⟩, _, ⟨claims, hc, rfl⟩, rfl⟩ := h
  refine ⟨Table.get?_of_insert hx, by simp, _,
    (Table.get?_insert hx x).trans (if_pos rfl), rfl, rfl⟩

theorem renew_chain {record : ClaimRecord} {entry : Time} {b : Bool}
    (h : Tx.Ran (renew record entry) l b l') : Chain env lawful [.renew] l l' := by
  unfold renew at h
  rw [Tx.ran_select_bind] at h
  split_ifs at h
  · simp only [Tx.ran_write_bind, Tx.ran_pure] at h
    rw [h.2]
    exact .of_step .renew (by simp)
  · rw [(Tx.ran_pure.mp h).2]
    exact .refl

theorem requestReview_chain {record : ClaimRecord} {review : Option Review} {fresh : ApprovalId}
    {timestamp now : Time} {u : Unit}
    (h : Tx.Ran (requestReview record review fresh timestamp now) l u l') :
    Chain env lawful [.aside] l l' := by
  unfold requestReview insertApproval at h
  rw [Tx.ran_attempt, Option.map_eq_some_iff] at h
  obtain ⟨approvals, _, rfl⟩ := h
  exact .of_step (.aside (.approvals l approvals)) (by simp)

theorem applyEvidence_chain {record : ClaimRecord} {outcome : TaskOutcome} {timestamp : Time}
    {u : Unit} (h : Tx.Ran (applyEvidence record outcome timestamp) l u l') :
    Chain env lawful [.completeParent] l l' := by
  unfold applyEvidence at h
  split_ifs at h
  · simp only [Tx.ran_select_bind, Tx.ran_demand_bind, Tx.ran_write] at h
    obtain ⟨plan, hplan, rfl⟩ := h
    rw [Option.filter_eq_some_iff, Option.bind_eq_some_iff] at hplan
    obtain ⟨⟨p, _, hrow⟩, happlied⟩ := hplan
    rw [← Table.key_of_get? hrow] at hrow
    exact .of_step (.completeParent hrow (by simpa using happlied)) (by simp)
  · rw [(Tx.ran_pure.mp h).2]
    exact .refl

/-- The conversation, the work record and the event of a result. -/
theorem keepRecords_chain {reg : Registry} {rules : Memory.MemoryRules} {record : ClaimRecord}
    {reply : Memory.Reply} {recorded : TaskOutcome} {freshWiki : ℕ → WikiId} {now : Time} {u : Unit}
    (h : Tx.Ran (do
      Tx.write (Conversation.completeConn record reply.replyKind recorded.status now)
      Memory.completeConn env reg rules record reply recorded now freshWiki
      Tx.write fun l : Ledger => l.appendEvent
        { taskId := record.taskId, executionId := some record.executionId
          eventType := .taskResult }) l u l') : Chain env lawful [.aside] l l' := by
  rw [Tx.ran_write_bind, Tx.ran_bind] at h
  obtain ⟨_, l₁, hmemory, h⟩ := h
  rw [Tx.ran_write] at h
  rw [h]
  exact ((Chain.of_step (.aside (.of_turns (Conversation.completeConn_same ..)
    (completeConn_turns _ _ _ _ _))) (by simp)).snoc
    (.aside (.of_memory (Memory.completeConn_same hmemory))) (by simp)).snoc
    (.aside (.appendEvent _ _ (by simp))) (by simp)

/-- The rows of a result over the ledger it concludes. -/
def concluded (env : Environment) (record : ClaimRecord) (recorded : TaskOutcome) (entry : Time)
    (results : Table TaskResult.executionId) (l : Ledger) : Ledger :=
  holdOperation env record.taskId recorded
    { concludeAttempt record recorded.status entry l with results }

/-- What a finish that commits has found, and what is left once the result is saved. -/
theorem finish_cases {reg : Registry} {rules : Memory.MemoryRules} {record : ClaimRecord}
    {reply : Memory.Reply} {outcome : TaskOutcome} {freshApproval : ApprovalId}
    {freshWiki : ℕ → WikiId} {entry now : Time} {u : Unit}
    (h : Tx.Ran (finish env reg rules record reply outcome freshApproval freshWiki entry now)
      l u l') : ∃ e results, Fenced l record entry e ∧ l.results.insert
        { executionId := record.executionId, taskId := record.taskId
          outcome := (recordedOutcome l record e entry outcome).status
          response := env.redact (recordedOutcome l record e entry outcome).text
          createdAt := entry, updatedAt := entry } = some results ∧
      Chain env lawful [.aside, .completeParent]
        (concluded env record (recordedOutcome l record e entry outcome) entry results l) l' := by
  unfold finish insertResult at h
  simp only [Tx.ran_select_bind, Tx.ran_demand_bind, Tx.ran_write_bind, Tx.ran_attempt_bind,
    Option.map_eq_some_iff] at h
  obtain ⟨e, he, _, ⟨results, hresult, rfl⟩, h⟩ := h
  have hfenced : Fenced l record entry e := by
    rw [fencedExecution, Option.filter_eq_some_iff, decide_eq_true_eq] at he
    exact he.2
  refine ⟨e, results, hfenced, hresult, ?_⟩
  rw [Tx.ran_bind] at h
  obtain ⟨_, l₁, hevidence, h⟩ := h
  refine ((applyEvidence_chain hevidence).mono (by simp)).trans ?_
  split_ifs at h
  · rw [Tx.ran_bind] at h
    obtain ⟨_, l₂, hreview, h⟩ := h
    exact ((requestReview_chain hreview).mono (by simp)).trans ((keepRecords_chain h).mono (by simp))
  · exact (keepRecords_chain h).mono (by simp)

theorem finish_chain {reg : Registry} {rules : Memory.MemoryRules} {record : ClaimRecord}
    {reply : Memory.Reply} {outcome : TaskOutcome} {freshApproval : ApprovalId}
    {freshWiki : ℕ → WikiId} {entry now : Time} {u : Unit}
    (h : Tx.Ran (finish env reg rules record reply outcome freshApproval freshWiki entry now)
      l u l') : Chain env lawful [.aside, .conclude, .completeParent] l l' := by
  obtain ⟨e, results, hfenced, hresult, hrest⟩ := finish_cases h
  exact (Chain.of_step (.conclude hfenced hresult) (by simp)).trans (hrest.mono (by simp))

/-- What `recover` knows of the rows it holds. -/
def Interruptible (l : Ledger) (row : TaskId × Option ExecutionId) : Prop :=
  ∃ t o, l.tasks.get? row.1 = some t ∧ l.operations.get? row.1 = some o ∧ o.eligible = true ∧
    t.currentExecutionId = row.2 ∧
    (t.status = .queued ∨ t.status = .running ∨ t.status = .cancelling)

theorem mem_recoverable {cutoff now : Time} {row : TaskId × Option ExecutionId} :
    row ∈ recoverable l cutoff now ↔ ∃ t o, l.tasks.get? row.1 = some t ∧
      l.operations.get? row.1 = some o ∧ o.eligible = true ∧ t.currentExecutionId = row.2 ∧
      (t.status = .queued ∨ t.status = .running ∨ t.status = .cancelling) ∧
      Interrupted l o cutoff now := by
  unfold recoverable
  rw [List.mem_filterMap]
  constructor
  · rintro ⟨o, ho, h⟩
    split at h
    · next t ht =>
      split_ifs at h with hc
      cases h
      exact ⟨t, o, ht, Table.mem_rows_iff.mp ho, hc.1, rfl, hc.2.2, hc.2.1⟩
    · cases h
  · rintro ⟨t, o, ht, ho, he, hx, hs, hi⟩
    obtain ⟨ho, hk⟩ := Table.get?_eq_some.mp ho
    refine ⟨o, ho, ?_⟩
    rw [hk, ht]
    dsimp only
    rw [if_pos ⟨he, hi, hs⟩, hx]

theorem recoverable_pairwise (l : Ledger) (cutoff now : Time) :
    (recoverable l cutoff now).Pairwise fun a b => a.1 ≠ b.1 := by
  unfold recoverable
  rw [List.pairwise_filterMap]
  have h := l.operations.nodup
  rw [List.nodup_iff_pairwise_ne, List.pairwise_map] at h
  refine h.imp fun {o o'} hne a ha b hb => ?_
  have hfirst : a.1 = o.taskId := by
    split at ha
    · split_ifs at ha
      cases ha
      rfl
    · cases ha
  have hsecond : b.1 = o'.taskId := by
    split at hb
    · split_ifs at hb
      cases hb
      rfl
    · cases hb
  rw [hfirst, hsecond]
  exact hne

theorem interruptTask_other (l : Ledger) (now : Time) {row : TaskId × Option ExecutionId} {k : TaskId}
    (h : k ≠ row.1) : (interruptTask now l row).tasks.get? k = l.tasks.get? k ∧
      (interruptTask now l row).operations.get? k = l.operations.get? k := by
  obtain ⟨k', x⟩ := row
  cases x <;>
    · simp only [interruptTask, loseAttempt, Ledger.updateTask, Ledger.updateOperation,
        Ledger.appendEvent, Table.get?_update]
      constructor
      · cases ht : l.tasks.get? k with
        | none => rfl
        | some t => simp [Table.key_of_get? ht, h]
      · cases ho : l.operations.get? k with
        | none => rfl
        | some o => simp [Table.key_of_get? ho, h]

theorem recover_chain (entry now : Time) (l : Ledger) :
    Chain env lawful [.interrupt] l (recover entry now l) := by
  unfold recover
  refine Chain.foldl (G := Interruptible) (D := fun a b => a.1 ≠ b.1) ?_ ?_
    (recoverable_pairwise l _ now) ?_
  · rintro l ⟨k, x⟩ ⟨t, o, ht, ho, he, hx, hs⟩
    cases hx
    exact .of_step (.interrupt ht ho he hs) (by simp)
  · rintro l r s hne _ ⟨t, o, ht, ho, h⟩
    obtain ⟨h₁, h₂⟩ := interruptTask_other l now (Ne.symm hne)
    exact ⟨t, o, h₁ ▸ ht, h₂ ▸ ho, h⟩
  · intro r hr
    obtain ⟨t, o, ht, ho, he, hx, hs, _⟩ := mem_recoverable.mp hr
    exact ⟨t, o, ht, ho, he, hx, hs⟩

theorem resume_chain {reg : Registry} {k : TaskId} {owner : String} {generation : WorkerId}
    {now : Time} {u : Unit} (h : Tx.Ran (resume env reg k owner generation now) l u l') :
    Chain env lawful [.requeue] l l' := by
  unfold resume at h
  simp only [Tx.ran_select_bind, Tx.ran_demand_bind, Tx.ran_require_bind, Tx.ran_lift_bind,
    Tx.ran_write, decide_eq_true_eq, decide_eq_false_iff_not, Option.filter_eq_some_iff] at h
  obtain ⟨o, ho, t, ht, _, ⟨hkind, hstatus, hattempts⟩, hresolved, heffects, _, _, hready, rfl⟩ := h
  refine .of_step (.requeue ht.1 ho hstatus ?_ hattempts hresolved ?_ (exists_worker hready)) (by simp)
  · cases hk : o.spec.kind with
    | request => rfl
    | apply => exact absurd hk hkind
  · intro p r hr hrk
    have hmem := (Table.get?_eq_some.mp hr).1
    refine ⟨?_, ?_, ?_, ?_⟩ <;>
      · intro hs
        exact heffects ⟨r, hmem, hrk, by simp [hs]⟩

theorem recordStartFailure_chain {k : TaskId} {owner diagnosis : String} {x : ExecutionId}
    {entry : Time} {u : Unit} (h : Tx.Ran (recordStartFailure k owner diagnosis x entry) l u l') :
    Chain env lawful [.startFailure] l l' := by
  unfold recordStartFailure insertExecution insertResult at h
  simp only [Tx.ran_select_bind, Tx.ran_demand_bind] at h
  obtain ⟨t, ht, h⟩ := h
  rw [Option.filter_eq_some_iff] at ht
  split_ifs at h with hc
  · rw [(Tx.ran_pure.mp h).2]
    exact .refl
  · rw [not_or, not_not, not_not] at hc
    simp only [Tx.ran_attempt_bind, Tx.ran_write_bind, Tx.ran_write, Option.map_eq_some_iff] at h
    obtain ⟨_, ⟨executions, hx, rfl⟩, _, ⟨results, hr, rfl⟩, rfl⟩ := h
    exact .of_step (.startFailure ht.1 hc.1 hc.2 hx hr) (by simp)

theorem dismissConn_chain {t : AgentTask} {now : Time} {s : TaskStatus}
    (h : Tx.Ran (dismissConn t now) l s l') : Chain env lawful [.aside, .touch] l l' := by
  unfold dismissConn at h
  simp only [Tx.ran_select_bind, Tx.ran_require_bind] at h
  obtain ⟨_, h⟩ := h
  split_ifs at h
  · rw [(Tx.ran_pure.mp h).2]
    exact .refl
  · simp only [Tx.ran_write_bind, Tx.ran_pure] at h
    rw [h.2, dismissTask]
    refine (Chain.of_step (.touch _ ?_ ?_) (by simp)).snoc
      (.aside (.appendEvent _ { taskId := t.id, eventType := .operationDismissed } (by simp)))
      (by simp)
    · exact fun t => rfl
    · exact fun t => ⟨rfl, rfl, rfl⟩

theorem dismiss_chain {k : TaskId} {owner : String} {selection : Selection} {now : Time}
    {s : TaskStatus} (h : Tx.Ran (dismiss k owner selection now) l s l') :
    Chain env lawful [.aside, .touch] l l' := by
  unfold dismiss at h
  simp only [Tx.ran_select_bind, Tx.ran_demand_bind, Tx.ran_require_bind] at h
  obtain ⟨t, _, _, h⟩ := h
  exact dismissConn_chain h

/-- What a loop over children knows of the ones it has not reached. -/
def Child (l : Ledger) (child : TaskId × TaskStatus) : Prop :=
  ∃ t, PlanChild l child.1 t ∧ t.status = child.2

theorem mem_children {k : TaskId} {p : TaskOperation → Prop} [DecidablePred p]
    {child : TaskId × TaskStatus} (h : child ∈ children l k p) :
    ∃ t o, l.tasks.get? child.1 = some t ∧ t.status = child.2 ∧
      l.operations.get? child.1 = some o ∧ o.parentTaskId = some k ∧ p o := by
  unfold children at h
  rw [List.mem_filterMap] at h
  obtain ⟨o, ho, h⟩ := h
  split_ifs at h with hc
  obtain ⟨t, ht, rfl⟩ := Option.map_eq_some_iff.mp h
  have hk := Table.key_of_get? ht
  rw [← hk] at ht
  exact ⟨t, o, ht, rfl, hk ▸ Table.mem_rows_iff.mp ho, hc.1, hc.2⟩

theorem children_pairwise (l : Ledger) (k : TaskId) (p : TaskOperation → Prop) [DecidablePred p] :
    (children l k p).Pairwise fun a b => a.1 ≠ b.1 := by
  unfold children
  rw [List.pairwise_filterMap]
  have h := l.operations.nodup
  rw [List.nodup_iff_pairwise_ne, List.pairwise_map] at h
  refine h.imp fun {o o'} hne a ha b hb => ?_
  have key : ∀ o : TaskOperation, ∀ a : TaskId × TaskStatus,
      (if o.parentTaskId = some k ∧ p o then
        (l.tasks.get? o.taskId).map fun t => (t.id, t.status) else none) = some a →
      a.1 = o.taskId := by
    intro o a ha
    split_ifs at ha
    obtain ⟨t, ht, rfl⟩ := Option.map_eq_some_iff.mp ha
    exact (Table.key_of_get? ht : t.id = o.taskId)
  rw [key o a ha, key o' b hb]
  exact hne

/-- What the stops of other tasks leave alone. -/
structure Sweeps (k : TaskId) (l l' : Ledger) : Prop where
  task : l'.tasks.get? k = l.tasks.get? k
  claims : l'.claims = l.claims
  links : operationLinks l' = operationLinks l
  active : ∀ x e, l.executions.get? x = some e → (e.status = .running ∨ e.status = .cancelling) →
    ∃ e', l'.executions.get? x = some e' ∧ (e'.status = .running ∨ e'.status = .cancelling)

namespace Sweeps
variable {k : TaskId} {l₁ : Ledger}

theorem refl (k : TaskId) (l : Ledger) : Sweeps k l l :=
  ⟨rfl, rfl, rfl, fun _ e he ha => ⟨e, he, ha⟩⟩

theorem trans (h₁ : Sweeps k l l₁) (h₂ : Sweeps k l₁ l') : Sweeps k l l' := by
  refine ⟨h₂.task.trans h₁.task, h₂.claims.trans h₁.claims, h₂.links.trans h₁.links, ?_⟩
  intro x e he ha
  obtain ⟨e₁, he₁, ha₁⟩ := h₁.active x e he ha
  exact h₂.active x e₁ he₁ ha₁

theorem foldl {ρ : Type} {f : Ledger → ρ → Ledger} {rows : List ρ}
    (h : ∀ l, ∀ r ∈ rows, Sweeps k l (f l r)) : Sweeps k l (rows.foldl f l) := by
  induction rows generalizing l with
  | nil => exact refl k l
  | cons r rows ih =>
    exact (h l r List.mem_cons_self).trans (ih fun l r hr => h l r (List.mem_cons_of_mem _ hr))

end Sweeps

theorem stopQueuedChild_other {k j : TaskId} {reason : String} {now : Time} (h : k ≠ j) :
    Sweeps k l (stopQueuedChild j reason now l) := by
  refine ⟨?_, rfl, ?_, fun x e he ha => ⟨e, he, ha⟩⟩
  · simp only [stopQueuedChild, Ledger.updateTask, Ledger.updateOperation, Table.get?_update]
    cases ht : l.tasks.get? k with
    | none => rfl
    | some t => simp [Table.key_of_get? ht, h]
  · ext1 i
    simp only [operationLinks, stopQueuedChild, Ledger.updateTask, Ledger.updateOperation,
      Table.get?_update, Option.map_map]
    congr 1
    ext1 o
    simp only [Function.comp_apply]
    split_ifs <;> rfl

theorem stopRunningChild_other {k j : TaskId} {now : Time} (h : k ≠ j) :
    Sweeps k l (stopRunningChild j now l) := by
  refine ⟨?_, rfl, rfl, ?_⟩
  · simp only [stopRunningChild, Ledger.updateTask, Table.get?_update]
    cases ht : l.tasks.get? k with
    | none => rfl
    | some t => simp [Table.key_of_get? ht, h]
  · intro x e he ha
    simp only [stopRunningChild, Ledger.updateTask, Table.get?_update, he, Option.map_some]
    refine ⟨_, rfl, ?_⟩
    split_ifs
    · exact .inr rfl
    · exact ha

theorem stopChild_other {k : TaskId} {reason : String} {now : Time} {child : TaskId × TaskStatus}
    (h : k ≠ child.1) : Sweeps k l (stopChild reason now l child) := by
  unfold stopChild
  split
  · exact stopQueuedChild_other h
  · exact stopRunningChild_other h
  · exact stopRunningChild_other h
  · exact .refl k l

theorem stopChild_plans (reason : String) (now : Time) (l : Ledger) (child : TaskId × TaskStatus) :
    (stopChild reason now l child).plans = l.plans := by
  unfold stopChild
  split <;> rfl

theorem stopChild_claims (reason : String) (now : Time) (l : Ledger)
    (child : TaskId × TaskStatus) : (stopChild reason now l child).claims = l.claims := by
  unfold stopChild
  split <;> rfl

theorem stopChild_chain {reason : String} {now : Time} {child : TaskId × TaskStatus}
    (h : Child l child) :
    Chain env lawful [.stopQueued, .stopRunning] l (stopChild reason now l child) := by
  obtain ⟨k, s⟩ := child
  obtain ⟨t, hc, hs⟩ := h
  dsimp only at hs hc
  subst hs
  unfold stopChild
  dsimp only
  split
  · next hs => exact .of_step (.stopQueued hc hs) (by simp)
  · next hs => exact .of_step (.stopRunning hc (.inl hs)) (by simp)
  · next hs => exact .of_step (.stopRunning hc (.inr hs)) (by simp)
  · exact .refl

/-- The child loop of a task that has a plan. -/
theorem stopChildren_chain {k : TaskId} {p : TaskOperation → Prop} [DecidablePred p]
    {reason : String} {now : Time} {plan : ChangePlan} (hrow : l.plans.get? plan.id = some plan)
    (hk : plan.taskId = k) : Chain env lawful [.stopQueued, .stopRunning] l
      ((children l k p).foldl (stopChild reason now) l) := by
  refine Chain.foldl (G := Child) (D := fun a b => a.1 ≠ b.1) (fun _ _ => stopChild_chain) ?_
    (children_pairwise l k p) ?_
  · rintro l r s hne _ ⟨t, ⟨ht, o, plan, ho, hplan, hpar⟩, hs⟩
    have hsw : Sweeps s.1 l (stopChild reason now l r) := stopChild_other (Ne.symm hne)
    refine ⟨t, ⟨hsw.task ▸ ht, ?_⟩, hs⟩
    have hlinks : operationLinks (stopChild reason now l r) s.1 =
        some (o.spec, some plan.taskId) := by
      rw [hsw.links]
      exact operationLinks_eq_some.mpr ⟨o, ho, rfl, hpar⟩
    obtain ⟨o', ho', _, hp⟩ := operationLinks_eq_some.mp hlinks
    exact ⟨o', plan, ho', (stopChild_plans reason now l r).symm ▸ hplan, hp⟩
  · intro r hr
    obtain ⟨t, o, ht, hs, ho, hpar, _⟩ := mem_children hr
    exact ⟨t, ⟨ht, o, plan, ho, hrow, hk ▸ hpar⟩, hs⟩

theorem stopChildren_other {k : TaskId} {rows : List (TaskId × TaskStatus)} {reason : String}
    {now : Time} (h : ∀ r ∈ rows, k ≠ r.1) : Sweeps k l (rows.foldl (stopChild reason now) l) :=
  .foldl fun _ r hr => stopChild_other (h r hr)

theorem not_mem_children {k : TaskId} {p : TaskOperation → Prop} [DecidablePred p]
    (hself : ∀ spec, operationLinks l k ≠ some (spec, some k)) :
    ∀ r ∈ children l k p, k ≠ r.1 := by
  rintro r hr rfl
  obtain ⟨_, o, _, _, ho, hpar, _⟩ := mem_children hr
  exact hself o.spec (operationLinks_eq_some.mpr ⟨o, ho, rfl, hpar⟩)

theorem stopChildren_plans (rows : List (TaskId × TaskStatus)) (reason : String) (now : Time)
    (l : Ledger) : (rows.foldl (stopChild reason now) l).plans = l.plans := by
  induction rows generalizing l with
  | nil => rfl
  | cons r rows ih => rw [List.foldl_cons, ih, stopChild_plans]

theorem stopChildren_claims (rows : List (TaskId × TaskStatus)) (reason : String) (now : Time)
    (l : Ledger) : (rows.foldl (stopChild reason now) l).claims = l.claims := by
  induction rows generalizing l with
  | nil => rfl
  | cons r rows ih => rw [List.foldl_cons, ih, stopChild_claims]

theorem revokePlan_other {k : TaskId} {owner : String} {now : Time} {p : PlanId}
    (hself : ∀ spec, operationLinks l k ≠ some (spec, some k)) :
    Sweeps k l (revokePlan k owner now l p) := by
  have h : Sweeps k l (l.updatePlan p fun r => { r with status := .revoked, decidedBy := owner }) :=
    ⟨rfl, rfl, rfl, fun _ e he ha => ⟨e, he, ha⟩⟩
  exact h.trans (stopChildren_other (not_mem_children hself))

theorem revokePlans_other {k : TaskId} {owner : String} {now : Time} (plans : List PlanId)
    (hself : ∀ spec, operationLinks l k ≠ some (spec, some k)) :
    Sweeps k l (plans.foldl (revokePlan k owner now) l) := by
  induction plans generalizing l with
  | nil => exact .refl k l
  | cons p plans ih =>
    have h : Sweeps k l (revokePlan k owner now l p) := revokePlan_other hself
    exact h.trans (ih (h.links ▸ hself))

/-- What the plan loop of `cancel` knows of the plans it has not reached. -/
def Revocable (k : TaskId) (l : Ledger) (p : PlanId) : Prop :=
  ∃ plan, l.plans.get? p = some plan ∧ plan.taskId = k ∧
    (plan.status = .pending ∨ plan.status = .approved)

theorem mem_openPlans {k : TaskId} {p : PlanId} (h : p ∈ openPlans l k) : Revocable k l p := by
  unfold openPlans at h
  simp only [List.mem_map, List.mem_filter, decide_eq_true_eq] at h
  obtain ⟨plan, ⟨hmem, hk, hs⟩, rfl⟩ := h
  exact ⟨plan, Table.mem_rows_iff.mp hmem, hk, hs⟩

theorem openPlans_pairwise (l : Ledger) (k : TaskId) : (openPlans l k).Pairwise (· ≠ ·) := by
  rw [← List.nodup_iff_pairwise_ne]
  exact l.plans.nodup.sublist (List.filter_sublist.map _)

theorem revokePlan_chain {k : TaskId} {owner : String} {now : Time} {p : PlanId}
    (h : Revocable k l p) : Chain env lawful [.revoke, .stopQueued, .stopRunning] l
      (revokePlan k owner now l p) := by
  obtain ⟨plan, hrow, hk, hs⟩ := h
  refine (Chain.of_step (.revoke (fun _ => owner) hrow ?_) (by simp)).trans
    (Chain.mono (stopChildren_chain (?_ : Table.get? _ _ =
      some { plan with status := .revoked, decidedBy := owner }) hk) (by simp))
  · exact hs.imp_right .inl
  · have hp := Table.key_of_get? hrow
    simp [Ledger.updatePlan, hp, hrow]

theorem revokePlans_chain {k : TaskId} {owner : String} {now : Time} {plans : List PlanId}
    (hd : plans.Pairwise (· ≠ ·)) (h : ∀ p ∈ plans, Revocable k l p) :
    Chain env lawful [.revoke, .stopQueued, .stopRunning] l
      (plans.foldl (revokePlan k owner now) l) := by
  refine Chain.foldl (G := Revocable k) (fun _ _ => revokePlan_chain) ?_ hd h
  rintro l p q hne _ ⟨plan, hrow, hk, hs⟩
  refine ⟨plan, ?_, hk, hs⟩
  have hq := Table.key_of_get? hrow
  simp [revokePlan, stopChildren_plans, Ledger.updatePlan, hrow, hq, Ne.symm hne]

/-- A stop finds the live attempt that the listing had, whatever other tasks were stopped. -/
theorem Sweeps.live {k : TaskId} {t : AgentTask} {x : ExecutionId} {now : Time}
    (h : Sweeps k l l') (ht : l.tasks.get? k = some t)
    (hs : ¬ t.status.Terminal ∧ t.status ≠ .blocked) (hx : t.currentExecutionId = some x)
    (hlive : LiveClaim l t now) : LiveAttempt l' k x now := by
  obtain ⟨c, hc, hk, hcx, hr, hn, e, he, hex, ha⟩ := hlive
  rw [hx] at hcx
  cases hcx
  have hc' := Table.mem_rows_iff.mp hc
  rw [hk, Table.key_of_get? ht] at hc'
  have he' := Table.mem_rows_iff.mp he
  rw [hex] at he'
  obtain ⟨e', he', ha'⟩ := h.active _ e he' ha
  exact ⟨⟨t, h.task ▸ ht, hx, hs.1, hs.2⟩, ⟨c, h.claims ▸ hc', rfl, hr, hn⟩, ⟨e', he', ha'⟩⟩

/-- What a cancellation may rely on: no task is its own parent, and a claim names an attempt
of its task. -/
structure CancelPromise (l : Ledger) (k : TaskId) : Prop where
  parent : ∀ spec, operationLinks l k ≠ some (spec, some k)
  claim : ∀ c e, l.claims.get? k = some c → l.executions.get? c.executionId = some e → e.taskId = k

/-- A live attempt is an effect of its task, so a held task has none that is accounted for. -/
theorem unresolved_of_live {k : TaskId} {t : AgentTask} {now : Time} (hp : CancelPromise l k)
    (ht : t.id = k) (h : LiveClaim l t now) : UnresolvedEffects l k := by
  obtain ⟨c, hc, hk, _, _, _, e, he, hex, ha⟩ := h
  have hc' := Table.mem_rows_iff.mp hc
  rw [hk, ht] at hc'
  have he' := Table.mem_rows_iff.mp he
  rw [hex] at he'
  have hactive : attemptEffect e.status = .active := by
    rcases ha with ha | ha <;> simp [ha, attemptEffect]
  exact hp.claim c e hc' he' ▸ unresolved_of_active he' hactive

/-- The kinds of changes a cancellation consists of. -/
def cancelKinds : List Kind :=
  [.aside, .touch, .revoke, .stopQueued, .stopRunning, .requestStop, .closeTask]

theorem cancel_chain {k : TaskId} {owner : String} {selection : Selection} {now : Time}
    {s : TaskStatus} (hp : lawful → CancelPromise l k)
    (h : Tx.Ran (cancel k owner selection now) l s l') : Chain env lawful cancelKinds l l' := by
  unfold cancel at h
  simp only [Tx.ran_select_bind, Tx.ran_demand_bind, Tx.ran_require_bind] at h
  obtain ⟨t, ht, _, _, h⟩ := h
  rw [Option.filter_eq_some_iff] at ht
  split_ifs at h with hfailed hterminal hblocked
  · exact (dismissConn_chain h).mono (by simp [cancelKinds])
  · simp only [Tx.ran_require_bind, Tx.ran_pure] at h
    rw [h.2.2]
    exact .refl
  · rw [(Tx.ran_pure.mp h).2]
    exact .refl
  · simp only [Tx.ran_select_bind, Tx.ran_write_bind] at h
    have hnt : ¬ t.status.Terminal := by
      rintro (hs | hs | hs)
      · exact hterminal (.inl hs)
      · exact hfailed hs
      · exact hterminal (.inr hs)
    have hstart : Chain env lawful cancelKinds l
        ((openPlans l k).foldl (revokePlan k owner now) (rejectApprovals k owner now l)) := by
      refine (Chain.of_step (.aside (.approvals l _)) (by simp [cancelKinds])).trans
        ((revokePlans_chain (openPlans_pairwise l k) ?_).mono (by simp [cancelKinds]))
      exact fun p hp => mem_openPlans hp
    refine hstart.trans ?_
    split at h
    · next x hlive hx =>
      simp only [Tx.ran_write_bind, Tx.ran_pure] at h
      rw [decide_eq_true_eq] at hlive
      rw [h.2]
      refine (Chain.of_step (.requestStop fun hl => ?_) (by simp [cancelKinds])).snoc
        (.aside (.appendEvent _ { taskId := k, eventType := .operationCancelRequested } (by simp)))
        (by simp [cancelKinds])
      have hnb : t.status ≠ .blocked := by
        intro hs
        exact hblocked ⟨hs, decide_eq_true (unresolved_of_live (hp hl) (Table.key_of_get? ht.1) hlive)⟩
      exact (revokePlans_other (l := rejectApprovals k owner now l) (openPlans l k)
        (hp hl).parent).live ht.1 ⟨hnt, hnb⟩ hx hlive
    · simp only [Tx.ran_select_bind, Tx.ran_write_bind, Tx.ran_pure] at h
      rw [h.2]
      exact (Chain.of_step .closeTask (by simp [cancelKinds])).snoc
        (.aside (.appendEvent _ { taskId := k, eventType := .operationCancelRequested } (by simp)))
        (by simp [cancelKinds])

theorem claimDelivery_chain {k : TaskId} {owner : String} {x : ExecutionId} {attempt : ℕ}
    {now : Time} {b : Bool} (h : Tx.Ran (claimDelivery k owner x attempt now) l b l') :
    Chain env lawful [.deliver] l l' := by
  unfold claimDelivery at h
  simp only [Tx.ran_select_bind, Tx.ran_write_bind, Tx.ran_pure] at h
  rw [h.2]
  exact .of_step (deliver_update l _ _ _) (by simp)

theorem settleDelivery_chain (x : ExecutionId) (delivered : Bool) (error : String) (now : Time)
    (l : Ledger) : Chain env lawful [.deliver] l (settleDelivery x delivered error now l) :=
  .of_step (deliver_update l _ _ _) (by simp)

theorem acknowledgeDelivery_chain {k : TaskId} {owner : String} {now : Time} {u : Unit}
    (h : Tx.Ran (acknowledgeDelivery k owner now) l u l') :
    Chain env lawful [.aside, .deliver] l l' := by
  unfold acknowledgeDelivery at h
  simp only [Tx.ran_select_bind, Tx.ran_demand_bind] at h
  obtain ⟨t, _, h⟩ := h
  split_ifs at h
  · rw [(Tx.ran_pure.mp h).2]
    exact .refl
  · simp only [Tx.ran_require_bind, Tx.ran_write_bind, Tx.ran_write] at h
    rw [h.2]
    exact (Chain.of_step (deliver_update l _ _ _) (by simp)).snoc
      (.aside (.appendEvent _ _ (by simp))) (by simp)

end NyanyaAgent.Lifecycle
