import NyanyaAgent.Invariants.Links

/-!
# Tasks and their attempts

What a task, its operation, its claim and its executions say about each other. A
change touches one task, so the invariant is stated for one task, kept for every
other one, and shown again for the task the change is about.
-/
namespace NyanyaAgent.Invariants
open NyanyaAgent.Schema NyanyaAgent.Relational NyanyaAgent.Operations NyanyaAgent.Plans
open NyanyaAgent.Drafts NyanyaAgent.Lifecycle

/-- The task of an attempt and what it leaves to account for. -/
def attemptView (l : Ledger) (x : ExecutionId) : Option (TaskId × AttemptEffect) :=
  (l.executions.get? x).map fun e => (e.taskId, attemptEffect e.status)

theorem attemptView_eq_some {l : Ledger} {x : ExecutionId} {k : TaskId} {a : AttemptEffect} :
    attemptView l x = some (k, a) ↔
      ∃ e, l.executions.get? x = some e ∧ e.taskId = k ∧ attemptEffect e.status = a := by
  simp [attemptView]

/-- A plan of the task exists. -/
def Planned (l : Ledger) (k : TaskId) : Prop := ∃ p r, l.plans.get? p = some r ∧ r.taskId = k

/-- Whoever holds the claim of a task works on its current attempt. A task settled under an
expired claim is the exception: it is blocked, and the claim stays behind. -/
structure Sound (l : Ledger) (k : TaskId) : Prop where
  claim : ∀ c, l.claims.get? k = some c → ∃ a, attemptView l c.executionId = some (k, a)
  current : ∀ t o x, l.tasks.get? k = some t → l.operations.get? k = some o →
    t.currentExecutionId = some x → ∃ a, attemptView l x = some (k, a)
  held : ∀ c o, l.claims.get? k = some c → c.released = false → l.operations.get? k = some o →
    attemptView l c.executionId = some (k, .active) ∧
    ∃ t, l.tasks.get? k = some t ∧ t.currentExecutionId = some c.executionId ∧
      ((t.status = .running ∨ t.status = .cancelling) ∧ o.eligible = true ∨
        t.status = .blocked ∧ o.eligible = false ∧ Planned l k)
  active : ∀ x o, attemptView l x = some (k, .active) → l.operations.get? k = some o →
    ∃ c, l.claims.get? k = some c ∧ c.executionId = x ∧ c.released = false
  bounded : ∀ o, l.operations.get? k = some o → o.attempts ≤ o.maxAttempts
  worker : ∀ o, l.operations.get? k = some o → (l.workers.get? o.workerGeneration).isSome = true
  imported : ∀ t, l.tasks.get? k = some t → l.operations.get? k = none → t.status = .queued →
    (∀ c, l.claims.get? k = some c → c.released = true) ∧
      ∀ x a, attemptView l x = some (k, a) → a = .settled
  unstarted : ∀ t o, l.tasks.get? k = some t → l.operations.get? k = some o →
    o.spec.kind = .apply → t.status = .queued → ∀ x a, attemptView l x = some (k, a) → a = .settled

variable {env : Environment} {lawful : Prop} {κ : Kind} {l l' : Ledger} {k : TaskId}

def taskView (l : Ledger) (k : TaskId) : Option (TaskStatus × Option ExecutionId) :=
  (l.tasks.get? k).map fun t => (t.status, t.currentExecutionId)

def claimView (l : Ledger) (k : TaskId) : Option (ExecutionId × Bool) :=
  (l.claims.get? k).map fun c => (c.executionId, c.released)

/-- A task is the same in two ledgers, up to what the invariant does not read. -/
structure Same (j : TaskId) (l l' : Ledger) : Prop where
  task : taskView l' j = taskView l j
  operation : l'.operations.get? j = l.operations.get? j
  claim : claimView l' j = claimView l j
  attempt : ∀ x a, attemptView l' x = some (j, a) ↔ attemptView l x = some (j, a)
  planned : Planned l j → Planned l' j
  workers : ∀ w, (l.workers.get? w).isSome = true → (l'.workers.get? w).isSome = true

theorem exists_task_of_view {j : TaskId} (h : taskView l' j = taskView l j) {t : AgentTask}
    (ht : l'.tasks.get? j = some t) : ∃ t₀, l.tasks.get? j = some t₀ ∧ t₀.status = t.status ∧
      t₀.currentExecutionId = t.currentExecutionId := by
  unfold taskView at h
  rw [ht, Option.map_some] at h
  obtain ⟨t₀, ht₀, heq⟩ := Option.map_eq_some_iff.mp h.symm
  exact ⟨t₀, ht₀, (Prod.mk.inj heq).1, (Prod.mk.inj heq).2⟩

theorem exists_claim_of_view {j : TaskId} (h : claimView l' j = claimView l j) {c : TaskClaim}
    (hc : l'.claims.get? j = some c) : ∃ c₀, l.claims.get? j = some c₀ ∧
      c₀.executionId = c.executionId ∧ c₀.released = c.released := by
  unfold claimView at h
  rw [hc, Option.map_some] at h
  obtain ⟨c₀, hc₀, heq⟩ := Option.map_eq_some_iff.mp h.symm
  exact ⟨c₀, hc₀, (Prod.mk.inj heq).1, (Prod.mk.inj heq).2⟩

theorem Sound.same {j : TaskId} (hs : Sound l j) (h : Same j l l') : Sound l' j where
  claim c hc := by
    obtain ⟨c₀, hc₀, hx, _⟩ := exists_claim_of_view h.claim hc
    simp only [h.attempt, ← hx]
    exact hs.claim c₀ hc₀
  current t o x ht ho hx := by
    obtain ⟨t₀, ht₀, _, hx₀⟩ := exists_task_of_view h.task ht
    simp only [h.attempt]
    exact hs.current t₀ o x ht₀ (h.operation ▸ ho) (hx₀.trans hx)
  held c o hc hr ho := by
    obtain ⟨c₀, hc₀, hx, hr₀⟩ := exists_claim_of_view h.claim hc
    obtain ⟨ha, t, ht, hcur, hrest⟩ := hs.held c₀ o hc₀ (hr₀.trans hr) (h.operation ▸ ho)
    obtain ⟨t', ht', hst, hcur'⟩ := exists_task_of_view h.task.symm ht
    rw [h.attempt, ← hx]
    refine ⟨ha, t', ht', hcur'.trans hcur, ?_⟩
    rw [hst]
    exact hrest.imp_right fun ⟨hb, he, hp⟩ => ⟨hb, he, h.planned hp⟩
  active x o hx ho := by
    obtain ⟨c, hc, hcx, hr⟩ := hs.active x o ((h.attempt x _).mp hx) (h.operation ▸ ho)
    obtain ⟨c', hc', hx', hr'⟩ := exists_claim_of_view h.claim.symm hc
    exact ⟨c', hc', hx'.trans hcx, hr'.trans hr⟩
  bounded o ho := hs.bounded o (h.operation ▸ ho)
  worker o ho := h.workers _ (hs.worker o (h.operation ▸ ho))
  imported t ht ho hq := by
    obtain ⟨t₀, ht₀, hst, _⟩ := exists_task_of_view h.task ht
    obtain ⟨hreleased, hsettled⟩ := hs.imported t₀ ht₀ (h.operation ▸ ho) (hst.trans hq)
    simp only [h.attempt]
    refine ⟨fun c hc => ?_, hsettled⟩
    obtain ⟨c₀, hc₀, _, hr⟩ := exists_claim_of_view h.claim hc
    exact hr.symm.trans (hreleased c₀ hc₀)
  unstarted t o ht ho hk hq x a hx := by
    obtain ⟨t₀, ht₀, hst, _⟩ := exists_task_of_view h.task ht
    exact hs.unstarted t₀ o ht₀ (h.operation ▸ ho) hk (hst.trans hq) x a ((h.attempt x a).mp hx)

/-- A change about one task leaves the rows of the others alone. -/
def Local (k : TaskId) (l l' : Ledger) : Prop := ∀ j, j ≠ k → Same j l l'

theorem sound_of_local (hs : ∀ j, Sound l j) (h : Local k l l') (hk : Sound l' k) :
    ∀ j, Sound l' j := by
  intro j
  by_cases hj : j = k
  · exact hj ▸ hk
  · exact (hs j).same (h j hj)

/-- The kinds of changes that touch no task. -/
def fileKinds : List Kind :=
  [.aside, .bind, .deliver, .acknowledge, .dropDraft, .revoke, .expire, .approve, .revokeOpen, .newPlan, .linkDraft,
    .newDraft, .openTask, .clearDrafts, .closeDraft, .admission, .mark, .finalize, .uncertain]

theorem planned_iff : Planned l k ↔ ∃ p c, (skeleton l).plan p = some c ∧ c.taskId = k := by
  constructor
  · rintro ⟨p, r, hr, hk⟩
    exact ⟨p, _, skeleton_plan hr, hk⟩
  · rintro ⟨p, c, hc, hk⟩
    obtain ⟨r, hr, rfl⟩ := of_skeleton_plan hc
    exact ⟨p, r, hr, hk⟩

theorem planned_of_skeleton (h : skeleton l' = skeleton l) (hp : Planned l k) : Planned l' k := by
  rw [planned_iff, h]
  exact planned_iff.mp hp

theorem same_of_fileKinds (h : Step env lawful κ l l') (hκ : κ ∈ fileKinds) (j : TaskId) :
    Same j l l' := by
  have hplanned : Planned l j → Planned l' j := by
    by_cases hi : κ ∈ insertKinds
    · cases h with
      | newPlan hins =>
        rintro ⟨p, r, hr, hk⟩
        refine ⟨p, r, ?_, hk⟩
        rw [Table.get?_insert hins, if_neg]
        · exact hr
        · rintro rfl
          rw [Table.get?_of_insert hins] at hr
          cases hr
      | newDraft => exact id
      | _ => simp [fileKinds, insertKinds] at hκ hi
    · exact planned_of_skeleton (skeleton_eq h hi)
  cases h with
  | aside h | bind h | deliver h =>
    exact ⟨by rw [taskView, h.tasks, taskView], by rw [h.operations],
      by rw [claimView, h.claims, claimView],
      fun x a => by rw [attemptView, h.executions, attemptView], hplanned, h.workers⟩
  | acknowledge | dropDraft | revoke | expire | approve | revokeOpen | newPlan | linkDraft | newDraft
  | openTask | clearDrafts | closeDraft | admission | mark | finalize | uncertain =>
    exact ⟨rfl, rfl, rfl, fun _ _ => .rfl, hplanned, fun _ => id⟩
  | _ => simp [fileKinds] at hκ

namespace Same
variable {l₁ : Ledger} {j : TaskId}

theorem refl (j : TaskId) (l : Ledger) : Same j l l :=
  ⟨rfl, rfl, rfl, fun _ _ => .rfl, id, fun _ => id⟩

theorem trans (h₁ : Same j l l₁) (h₂ : Same j l₁ l') : Same j l l' :=
  ⟨h₂.task.trans h₁.task, h₂.operation.trans h₁.operation, h₂.claim.trans h₁.claim,
    fun x a => (h₂.attempt x a).trans (h₁.attempt x a), fun h => h₂.planned (h₁.planned h),
    fun w hw => h₂.workers w (h₁.workers w hw)⟩

theorem updateTask (f : AgentTask → AgentTask) (hf : ∀ t, (f t).id = t.id) (h : j ≠ k) :
    Same j l (l.updateTask k f hf) :=
  ⟨by rw [taskView, l.updateTask_get?_ne f hf h, taskView], rfl, rfl, fun _ _ => .rfl, id,
    fun _ => id⟩

theorem updateOperation (f : TaskOperation → TaskOperation) (hf : ∀ o, (f o).taskId = o.taskId)
    (h : j ≠ k) : Same j l (l.updateOperation k f hf) :=
  ⟨rfl, l.updateOperation_get?_ne f hf h, rfl, fun _ _ => .rfl, id, fun _ => id⟩

theorem releaseClaim (h : j ≠ k) : Same j l (l.releaseClaim k) :=
  ⟨rfl, rfl, by rw [claimView, l.releaseClaim_get?_ne h, claimView], fun _ _ => .rfl, id,
    fun _ => id⟩

theorem appendEvent (v : ExecutionEvent) : Same j l (l.appendEvent v) :=
  ⟨rfl, rfl, rfl, fun _ _ => .rfl, id, fun _ => id⟩

/-- The executions of other tasks may change as long as their effect does not. -/
theorem executions (p : Execution → Prop) [DecidablePred p] (f : Execution → Execution)
    (hf : ∀ e, (f e).id = e.id) (hk : ∀ e, (f e).taskId = e.taskId)
    (h : ∀ x e, l.executions.get? x = some e → p e → e.taskId = j →
      attemptEffect (f e).status = attemptEffect e.status) :
    Same j l { l with executions := l.executions.update p f hf } := by
  refine ⟨rfl, rfl, rfl, fun x a => ?_, id, fun _ => id⟩
  simp only [attemptView, Table.get?_update]
  cases he : l.executions.get? x with
  | none => rfl
  | some e =>
    simp only [Option.map_some, Option.some.injEq, Prod.mk.injEq]
    split_ifs with hp
    · rw [hk]
      refine and_congr_right fun hj => ?_
      rw [h x e he hp hj]
    · rfl

end Same

/-- The rows of a task after a change that leaves it without an attempt to wait for. -/
structure Settles (k : TaskId) (l l' : Ledger) : Prop where
  task : ∀ t', l'.tasks.get? k = some t' → t'.status ≠ .queued ∧
    ∃ t, l.tasks.get? k = some t ∧ t'.currentExecutionId = t.currentExecutionId
  operation : ∀ o', l'.operations.get? k = some o' → ∃ o, l.operations.get? k = some o ∧
    o'.attempts = o.attempts ∧ o'.maxAttempts = o.maxAttempts ∧
      o'.workerGeneration = o.workerGeneration
  claim : ∀ c', l'.claims.get? k = some c' → ∃ c, l.claims.get? k = some c ∧
    c'.executionId = c.executionId ∧ (c.released = true → c'.released = true)
  attempt : ∀ x a, attemptView l x = some (k, a) → ∃ a', attemptView l' x = some (k, a')
  origin : ∀ x, attemptView l' x = some (k, .active) → attemptView l x = some (k, .active)
  workers : ∀ w, (l.workers.get? w).isSome = true → (l'.workers.get? w).isSome = true

theorem Sound.settles (hs : Sound l k) (h : Settles k l l')
    (hreleased : ∀ c o, l'.claims.get? k = some c → l'.operations.get? k = some o →
      c.released = true)
    (hquiet : ∀ x o, l'.operations.get? k = some o → attemptView l' x ≠ some (k, .active)) :
    Sound l' k where
  claim c hc := by
    obtain ⟨c₀, hc₀, hx, _⟩ := h.claim c hc
    obtain ⟨a, ha⟩ := hs.claim c₀ hc₀
    rw [hx]
    exact h.attempt _ a ha
  current t o x ht ho hx := by
    obtain ⟨_, t₀, ht₀, hx₀⟩ := h.task t ht
    obtain ⟨o₀, ho₀, _⟩ := h.operation o ho
    obtain ⟨a, ha⟩ := hs.current t₀ o₀ x ht₀ ho₀ (hx₀ ▸ hx)
    exact h.attempt x a ha
  held c o hc hr ho := by
    rw [hreleased c o hc ho] at hr
    cases hr
  active x o hx ho := absurd hx (hquiet x o ho)
  bounded o ho := by
    obtain ⟨o₀, ho₀, ha, hm, _⟩ := h.operation o ho
    rw [ha, hm]
    exact hs.bounded o₀ ho₀
  worker o ho := by
    obtain ⟨o₀, ho₀, _, _, hw⟩ := h.operation o ho
    rw [hw]
    exact h.workers _ (hs.worker o₀ ho₀)
  imported t ht _ hq := absurd hq (h.task t ht).1
  unstarted t _ ht _ _ hq := absurd hq (h.task t ht).1

/-- A task without a held claim stays without an attempt to wait for. -/
theorem Sound.settles_idle (hs : Sound l k) (h : Settles k l l')
    (hidle : ∀ c o, l.claims.get? k = some c → l.operations.get? k = some o →
      c.released = true) : Sound l' k := by
  refine hs.settles h ?_ ?_
  · intro c o hc ho
    obtain ⟨c₀, hc₀, _, hr⟩ := h.claim c hc
    obtain ⟨o₀, ho₀, _⟩ := h.operation o ho
    exact hr (hidle c₀ o₀ hc₀ ho₀)
  · intro x o ho hx
    obtain ⟨o₀, ho₀, _⟩ := h.operation o ho
    obtain ⟨c, hc, _, hr⟩ := hs.active x o₀ (h.origin x hx) ho₀
    rw [hidle c o₀ hc ho₀] at hr
    cases hr

/-- Only a running, a stopping or a stranded task holds a claim. -/
theorem Sound.idle (hs : Sound l k) {t : AgentTask} (ht : l.tasks.get? k = some t)
    (h : t.status ≠ .running ∧ t.status ≠ .cancelling ∧ (t.status = .blocked → ¬ Planned l k)) :
    ∀ c o, l.claims.get? k = some c → l.operations.get? k = some o → c.released = true := by
  intro c o hc ho
  by_contra hr
  obtain ⟨_, t', ht', _, hst⟩ := hs.held c o hc (Bool.eq_false_iff.mpr hr) ho
  rw [ht] at ht'
  cases ht'
  rcases hst with ⟨hrun | hcan, _⟩ | ⟨hb, _, hp⟩
  · exact h.1 hrun
  · exact h.2.1 hcan
  · exact h.2.2 hb hp

/-- A task that keeps its claim and its running attempt, under a new status. -/
theorem Sound.retains (hs : Sound l k) (h : Settles k l l')
    (hclaim : l'.claims.get? k = l.claims.get? k)
    (hactive : ∀ x, attemptView l x = some (k, .active) → attemptView l' x = some (k, .active))
    (hstatus : ∀ c t t' o o', l.claims.get? k = some c → c.released = false →
      attemptView l c.executionId = some (k, .active) → l.tasks.get? k = some t →
      (t.status = .running ∨ t.status = .cancelling) ∧ o.eligible = true ∨ t.status = .blocked →
      l.operations.get? k = some o → l'.tasks.get? k = some t' → l'.operations.get? k = some o' →
      (t'.status = .running ∨ t'.status = .cancelling) ∧ o'.eligible = true ∨
        t'.status = .blocked ∧ o'.eligible = false ∧ Planned l' k)
    (htask : (l.tasks.get? k).isSome = true → (l'.tasks.get? k).isSome = true) : Sound l' k where
  claim c hc := by
    obtain ⟨a, ha⟩ := hs.claim c (hclaim ▸ hc)
    exact h.attempt _ a ha
  current t o x ht ho hx := by
    obtain ⟨_, t₀, ht₀, hx₀⟩ := h.task t ht
    obtain ⟨o₀, ho₀, _⟩ := h.operation o ho
    obtain ⟨a, ha⟩ := hs.current t₀ o₀ x ht₀ ho₀ (hx₀ ▸ hx)
    exact h.attempt x a ha
  held c o' hc hr ho' := by
    rw [hclaim] at hc
    obtain ⟨o, ho, _⟩ := h.operation o' ho'
    obtain ⟨ha, t, ht, hx, hst⟩ := hs.held c o hc hr ho
    obtain ⟨t', ht'⟩ := Option.isSome_iff_exists.mp (htask (by rw [ht]; rfl))
    obtain ⟨_, t₀, ht₀, hx₀⟩ := h.task t' ht'
    rw [ht] at ht₀
    cases ht₀
    exact ⟨hactive _ ha, t', ht', hx₀.trans hx,
      hstatus c t t' o o' hc hr ha ht (hst.imp_right (·.1)) ho ht' ho'⟩
  active x o' hx ho' := by
    obtain ⟨o, ho, _⟩ := h.operation o' ho'
    rw [hclaim]
    exact hs.active x o (h.origin x hx) ho
  bounded o ho := by
    obtain ⟨o₀, ho₀, ha, hm, _⟩ := h.operation o ho
    rw [ha, hm]
    exact hs.bounded o₀ ho₀
  worker o ho := by
    obtain ⟨o₀, ho₀, _, _, hw⟩ := h.operation o ho
    rw [hw]
    exact h.workers _ (hs.worker o₀ ho₀)
  imported t ht _ hq := absurd hq (h.task t ht).1
  unstarted t _ ht _ _ hq := absurd hq (h.task t ht).1

end NyanyaAgent.Invariants
