import NyanyaAgent.Schema.Ledger

/-!
# Unresolved effects

`_unresolved_effects`: whether an attempt, a plan or a journal of a task leaves
file effects that nobody has accounted for. An apply task answers through its
parent, and a request task also answers for its apply children.
-/
namespace NyanyaAgent.Operations
open NyanyaAgent.Schema NyanyaAgent.Relational

def resolves (m : EventMetadata) (p : PlanId) (x : ExecutionId) : Prop :=
  match m with
  | .resolved q _ _ xs => q = p ∧ x ∈ xs
  | _ => False

instance (m : EventMetadata) (p : PlanId) (x : ExecutionId) : Decidable (resolves m p x) := by
  cases m <;> (unfold resolves; infer_instance)

/-- The join of a `plan.resolved` event with its settled plan. -/
def ResolvedBy (l : Ledger) (owner : TaskId) (x : ExecutionId) : Prop :=
  ∃ v ∈ l.events, (v.taskId = owner ∧ v.eventType = .planResolved) ∧
    ∃ p ∈ l.plans.rows, resolves v.metadata p.id x ∧ p.taskId = owner ∧
      (p.status = .applied ∨ p.status = .reconciled)

instance (l : Ledger) (owner : TaskId) (x : ExecutionId) : Decidable (ResolvedBy l owner x) := by
  unfold ResolvedBy; infer_instance

/-- The statuses the attempt query selects. -/
def UncertainAttempt (includeLost : Bool) (s : ExecutionStatus) : Prop :=
  (includeLost = true ∧ s = .lost) ∨ s = .stale ∨ s = .starting ∨ s = .running ∨ s = .cancelling

instance (b : Bool) (s : ExecutionStatus) : Decidable (UncertainAttempt b s) := by
  unfold UncertainAttempt; infer_instance

/-- One pass of the loop over `ids`. -/
def UnresolvedAt (l : Ledger) (owner current : TaskId) (includeLost : Bool) : Prop :=
  (∃ e ∈ l.executions.rows, (e.taskId = current ∧ UncertainAttempt includeLost e.status) ∧
      (e.status ≠ .lost ∨ ¬ ResolvedBy l owner e.id)) ∨
    (∃ p ∈ l.plans.rows, p.taskId = current ∧ (p.status = .applying ∨ p.status = .uncertain)) ∨
    ∃ j ∈ l.journal.rows, ∃ p ∈ l.plans.rows, p.id = j.planId ∧ p.taskId = current ∧
      ¬ (p.status = .applied ∨ p.status = .reconciled)

instance (l : Ledger) (owner current : TaskId) (b : Bool) :
    Decidable (UnresolvedAt l owner current b) := by
  unfold UnresolvedAt; infer_instance

def resolutionOwner (l : Ledger) (k : TaskId) : TaskId :=
  match l.operations.get? k with
  | some o => if o.spec.kind = .apply then o.parentTaskId.getD k else k
  | none => k

/-- `_unresolved_effects(conn, task_id, include_lost=…)`. -/
def UnresolvedEffects (l : Ledger) (k : TaskId) (includeLost : Bool := true) : Prop :=
  UnresolvedAt l (resolutionOwner l k) k includeLost ∨
    resolutionOwner l k = k ∧ ∃ o ∈ l.operations.rows, o.parentTaskId = some k ∧
      UnresolvedAt l k o.taskId includeLost

instance (l : Ledger) (k : TaskId) (b : Bool) : Decidable (UnresolvedEffects l k b) := by
  unfold UnresolvedEffects; infer_instance

/-- The request of an operation and its place under another task never change. -/
def operationLinks (l : Ledger) (k : TaskId) : Option (OperationSpec × Option TaskId) :=
  (l.operations.get? k).map fun o => (o.spec, o.parentTaskId)

theorem operationLinks_eq_some {l : Ledger} {k : TaskId} {spec : OperationSpec}
    {parent : Option TaskId} : operationLinks l k = some (spec, parent) ↔
      ∃ o, l.operations.get? k = some o ∧ o.spec = spec ∧ o.parentTaskId = parent := by
  simp [operationLinks]

/-- What an attempt leaves to account for. -/
inductive AttemptEffect
  | settled | active | lost
  deriving DecidableEq

def attemptEffect : ExecutionStatus → AttemptEffect
  | .lost => .lost
  | .stale => .active
  | .starting => .active
  | .running => .active
  | .cancelling => .active
  | _ => .settled

/-- What a plan leaves to account for. -/
inductive PlanEffect
  | open | doubtful | accounted
  deriving DecidableEq

def planEffect : PlanStatus → PlanEffect
  | .applying => .doubtful
  | .uncertain => .doubtful
  | .applied => .accounted
  | .reconciled => .accounted
  | _ => .open

theorem attemptEffect_eq_lost {s : ExecutionStatus} : attemptEffect s = .lost ↔ s = .lost := by
  cases s <;> simp [attemptEffect]

theorem uncertainAttempt_iff {b : Bool} {s : ExecutionStatus} : UncertainAttempt b s ↔
    attemptEffect s = .active ∨ b = true ∧ attemptEffect s = .lost := by
  cases s <;> simp [UncertainAttempt, attemptEffect]

theorem planEffect_eq_doubtful {s : PlanStatus} :
    planEffect s = .doubtful ↔ s = .applying ∨ s = .uncertain := by
  cases s <;> simp [planEffect]

theorem planEffect_eq_accounted {s : PlanStatus} :
    planEffect s = .accounted ↔ s = .applied ∨ s = .reconciled := by
  cases s <;> simp [planEffect]

theorem resolvedBy_iff {l : Ledger} {owner : TaskId} {x : ExecutionId} : ResolvedBy l owner x ↔
    ∃ v ∈ l.events, (v.taskId = owner ∧ v.eventType = .planResolved) ∧ ∃ p r,
      l.plans.get? p = some r ∧ resolves v.metadata p x ∧ r.taskId = owner ∧
        planEffect r.status = .accounted := by
  unfold ResolvedBy
  simp only [planEffect_eq_accounted, Table.exists_mem_rows]
  constructor
  · rintro ⟨v, hv, ht, p, r, hr, hm, hrest⟩
    exact ⟨v, hv, ht, p, r, hr, Table.key_of_get? hr ▸ hm, hrest⟩
  · rintro ⟨v, hv, ht, p, r, hr, hm, hrest⟩
    exact ⟨v, hv, ht, p, r, hr, (Table.key_of_get? hr).symm ▸ hm, hrest⟩

theorem unresolvedAt_iff {l : Ledger} {owner k : TaskId} {b : Bool} : UnresolvedAt l owner k b ↔
    (∃ x e, l.executions.get? x = some e ∧ e.taskId = k ∧
      (attemptEffect e.status = .active ∨
        b = true ∧ attemptEffect e.status = .lost ∧ ¬ ResolvedBy l owner x)) ∨
    ∃ p r, l.plans.get? p = some r ∧ r.taskId = k ∧ (planEffect r.status = .doubtful ∨
      (∃ i j, l.journal.get? (p, i) = some j) ∧ planEffect r.status ≠ .accounted) := by
  unfold UnresolvedAt
  simp only [Table.exists_mem_rows, ← planEffect_eq_doubtful, ← planEffect_eq_accounted,
    uncertainAttempt_iff, ← attemptEffect_eq_lost.not]
  constructor
  · rintro (⟨x, e, he, ⟨hk, hu⟩, hr⟩ | ⟨p, r, hr, hk, hs⟩ | ⟨⟨q, i⟩, j, hj, p, r, hr, hq, hk, hs⟩)
    · rcases hu with hu | ⟨hb, hl⟩
      · exact .inl ⟨x, e, he, hk, .inl hu⟩
      refine .inl ⟨x, e, he, hk, .inr ⟨hb, hl, ?_⟩⟩
      rw [← Table.key_of_get? he]
      exact hr.resolve_left (not_not_intro hl)
    · exact .inr ⟨p, r, hr, hk, .inl hs⟩
    · have hkey : j.key = (q, i) := Table.key_of_get? hj
      cases hkey
      rw [Table.key_of_get? hr] at hq
      exact .inr ⟨p, r, hr, hk, .inr ⟨⟨_, j, hq ▸ hj⟩, hs⟩⟩
  · rintro (⟨x, e, he, hk, hu | ⟨hb, hl, hn⟩⟩ | ⟨p, r, hr, hk, hs | ⟨⟨i, j, hj⟩, hs⟩⟩)
    · exact .inl ⟨x, e, he, ⟨hk, .inl hu⟩, .inl (by simp [hu])⟩
    · exact .inl ⟨x, e, he, ⟨hk, .inr ⟨hb, hl⟩⟩, .inr (by rwa [Table.key_of_get? he])⟩
    · exact .inr (.inl ⟨p, r, hr, hk, hs⟩)
    · have hkey : j.key = (p, i) := Table.key_of_get? hj
      refine .inr (.inr ⟨(p, i), j, hj, p, r, hr, ?_, hk, hs⟩)
      rw [Table.key_of_get? hr]
      exact (Prod.mk.inj hkey).1.symm

theorem resolutionOwner_eq {l : Ledger} {k : TaskId} : resolutionOwner l k =
    match operationLinks l k with
    | some (spec, parent) => if spec.kind = .apply then parent.getD k else k
    | none => k := by
  unfold resolutionOwner operationLinks
  cases l.operations.get? k <;> rfl

theorem unresolvedEffects_iff {l : Ledger} {k : TaskId} {b : Bool} : UnresolvedEffects l k b ↔
    UnresolvedAt l (resolutionOwner l k) k b ∨ resolutionOwner l k = k ∧
      ∃ c spec, operationLinks l c = some (spec, some k) ∧ UnresolvedAt l k c b := by
  unfold UnresolvedEffects
  refine or_congr_right (and_congr_right fun _ => ?_)
  constructor
  · rintro ⟨o, ho, hp, hu⟩
    exact ⟨o.taskId, o.spec, operationLinks_eq_some.mpr ⟨o, Table.mem_rows_iff.mp ho, rfl, hp⟩, hu⟩
  · rintro ⟨c, spec, hc, hu⟩
    obtain ⟨o, ho, _, hp⟩ := operationLinks_eq_some.mp hc
    exact ⟨o, (Table.get?_eq_some.mp ho).1, hp, (Table.key_of_get? ho).symm ▸ hu⟩

/-- An attempt that may still run is an effect of its task. -/
theorem unresolved_of_active {l : Ledger} {x : ExecutionId} {e : Execution} {b : Bool}
    (he : l.executions.get? x = some e) (ha : attemptEffect e.status = .active) :
    UnresolvedEffects l e.taskId b :=
  unresolvedEffects_iff.mpr (.inl (unresolvedAt_iff.mpr (.inl ⟨x, e, he, rfl, .inl ha⟩)))

/-- Two ledgers with the same effects to account for. -/
structure SameEffects (l l' : Ledger) : Prop where
  executions : ∀ x, (l'.executions.get? x).map (fun e => (e.taskId, attemptEffect e.status)) =
    (l.executions.get? x).map fun e => (e.taskId, attemptEffect e.status)
  plans : ∀ p, (l'.plans.get? p).map (fun r => (r.taskId, planEffect r.status)) =
    (l.plans.get? p).map fun r => (r.taskId, planEffect r.status)
  journal : ∀ p, (∃ i j, l'.journal.get? (p, i) = some j) ↔ ∃ i j, l.journal.get? (p, i) = some j
  events : ∀ v : ExecutionEvent, v.eventType = .planResolved → (v ∈ l'.events ↔ v ∈ l.events)
  links : operationLinks l' = operationLinks l

namespace SameEffects
variable {l l₁ l' : Ledger}

theorem refl (l : Ledger) : SameEffects l l :=
  ⟨fun _ => rfl, fun _ => rfl, fun _ => .rfl, fun _ _ => .rfl, rfl⟩

theorem symm (h : SameEffects l l') : SameEffects l' l :=
  ⟨fun x => (h.executions x).symm, fun p => (h.plans p).symm, fun p => (h.journal p).symm,
    fun v hv => (h.events v hv).symm, h.links.symm⟩

theorem trans (h₁ : SameEffects l l₁) (h₂ : SameEffects l₁ l') : SameEffects l l' :=
  ⟨fun x => (h₂.executions x).trans (h₁.executions x), fun p => (h₂.plans p).trans (h₁.plans p),
    fun p => (h₂.journal p).trans (h₁.journal p),
    fun v hv => (h₂.events v hv).trans (h₁.events v hv), h₂.links.trans h₁.links⟩

theorem plan (h : SameEffects l l') {p : PlanId} {r : ChangePlan} (hr : l.plans.get? p = some r) :
    ∃ r', l'.plans.get? p = some r' ∧ r'.taskId = r.taskId ∧
      planEffect r'.status = planEffect r.status := by
  simpa [hr] using h.plans p

theorem execution (h : SameEffects l l') {x : ExecutionId} {e : Execution}
    (he : l.executions.get? x = some e) : ∃ e', l'.executions.get? x = some e' ∧
      e'.taskId = e.taskId ∧ attemptEffect e'.status = attemptEffect e.status := by
  simpa [he] using h.executions x

theorem resolvedBy_mp (h : SameEffects l l') {owner : TaskId} {x : ExecutionId}
    (hr : ResolvedBy l owner x) : ResolvedBy l' owner x := by
  rw [resolvedBy_iff] at hr ⊢
  obtain ⟨v, hv, ⟨ht, he⟩, p, r, hp, hm, hrest⟩ := hr
  obtain ⟨r', hr', hk, hs⟩ := h.plan hp
  exact ⟨v, (h.events v he).mpr hv, ⟨ht, he⟩, p, r', hr', hm, hk ▸ hrest.1, hs ▸ hrest.2⟩

theorem resolvedBy (h : SameEffects l l') {owner : TaskId} {x : ExecutionId} :
    ResolvedBy l' owner x ↔ ResolvedBy l owner x := ⟨h.symm.resolvedBy_mp, h.resolvedBy_mp⟩

theorem unresolvedAt_mp (h : SameEffects l l') {owner k : TaskId} {b : Bool}
    (hu : UnresolvedAt l owner k b) : UnresolvedAt l' owner k b := by
  rw [unresolvedAt_iff] at hu ⊢
  rcases hu with ⟨x, e, he, hk, hu⟩ | ⟨p, r, hr, hk, hu⟩
  · obtain ⟨e', he', hk', hs⟩ := h.execution he
    rw [← h.resolvedBy] at hu
    exact .inl ⟨x, e', he', hk'.trans hk, hs ▸ hu⟩
  · obtain ⟨r', hr', hk', hs⟩ := h.plan hr
    rw [← h.journal] at hu
    exact .inr ⟨p, r', hr', hk'.trans hk, hs ▸ hu⟩

theorem unresolvedAt (h : SameEffects l l') {owner k : TaskId} {b : Bool} :
    UnresolvedAt l' owner k b ↔ UnresolvedAt l owner k b := ⟨h.symm.unresolvedAt_mp, h.unresolvedAt_mp⟩

theorem resolutionOwner (h : SameEffects l l') (k : TaskId) :
    resolutionOwner l' k = resolutionOwner l k := by
  rw [resolutionOwner_eq, resolutionOwner_eq, h.links]

theorem unresolvedEffects (h : SameEffects l l') {k : TaskId} {b : Bool} :
    UnresolvedEffects l' k b ↔ UnresolvedEffects l k b := by
  simp only [unresolvedEffects_iff, h.unresolvedAt, h.resolutionOwner, h.links]

/-- Only the tables that the effects are read from matter. -/
theorem of_eq (hx : l'.executions = l.executions) (hp : l'.plans = l.plans)
    (hj : l'.journal = l.journal)
    (he : ∀ v : ExecutionEvent, v.eventType = .planResolved → (v ∈ l'.events ↔ v ∈ l.events))
    (hl : operationLinks l' = operationLinks l) : SameEffects l l' :=
  ⟨fun x => by rw [hx], fun p => by rw [hp], fun p => by rw [hj], he, hl⟩

theorem updatePlan (l : Ledger) (p : PlanId) (f : ChangePlan → ChangePlan)
    (hf : ∀ r, (f r).id = r.id) (hk : ∀ r, (f r).taskId = r.taskId)
    (hs : ∀ r, l.plans.get? p = some r → planEffect (f r).status = planEffect r.status) :
    SameEffects l (l.updatePlan p f hf) := by
  refine ⟨fun _ => rfl, fun q => ?_, fun _ => .rfl, fun _ _ => .rfl, rfl⟩
  simp only [Ledger.updatePlan, Table.get?_update, Option.map_map]
  cases hr : l.plans.get? q with
  | none => rfl
  | some r =>
    simp only [Option.map_some, Function.comp_apply]
    split_ifs with hq
    · rw [hk, hs r (by rw [← hq, Table.key_of_get? hr, hr])]
    · rfl

theorem updateExecutions (l : Ledger) (p : Execution → Prop) [DecidablePred p]
    (f : Execution → Execution) (hf : ∀ r, (f r).id = r.id) (hk : ∀ r, (f r).taskId = r.taskId)
    (hs : ∀ r, p r → attemptEffect (f r).status = attemptEffect r.status) :
    SameEffects l { l with executions := l.executions.update p f hf } := by
  refine ⟨fun x => ?_, fun _ => rfl, fun _ => .rfl, fun _ _ => .rfl, rfl⟩
  simp only [Table.get?_update, Option.map_map]
  cases l.executions.get? x with
  | none => rfl
  | some e =>
    simp only [Option.map_some, Function.comp_apply]
    split_ifs with he
    · rw [hk, hs e he]
    · rfl

theorem append (l : Ledger) (vs : List ExecutionEvent) (h : ∀ v ∈ vs, v.eventType ≠ .planResolved) :
    SameEffects l { l with events := l.events ++ vs } := by
  refine of_eq rfl rfl rfl (fun v hv => ?_) rfl
  rw [List.mem_append]
  exact ⟨fun hm => hm.resolve_right fun hvs => h v hvs hv, .inl⟩

end SameEffects
end NyanyaAgent.Operations
