import NyanyaAgent.Invariants.AttemptSteps

/-!
# The unreleased claims

Only a starting attempt adds an unreleased claim, and it does so for a workspace that
no apply uses, or that nobody uses when it is an apply itself.
-/
namespace NyanyaAgent.Invariants
open NyanyaAgent.Schema NyanyaAgent.Relational NyanyaAgent.Operations NyanyaAgent.Plans
open NyanyaAgent.Drafts NyanyaAgent.Lifecycle

variable {env : Environment} {lawful : Prop} {κ : Kind} {l l' : Ledger} {k : TaskId}
  {x : ExecutionId}

/-- The task holds an unreleased claim for the attempt. -/
def ClaimedFor (l : Ledger) (k : TaskId) (x : ExecutionId) : Prop :=
  ∃ c, l.claims.get? k = some c ∧ c.released = false ∧ c.executionId = x

/-- The claim of the task is not released. -/
def Unreleased (l : Ledger) (k : TaskId) : Prop := ∃ x, ClaimedFor l k x

/-- The kinds of changes that write claims. -/
def claimKinds : List Kind := [.start, .renew, .conclude, .interrupt, .closeTask]

theorem claims_eq (h : Step env lawful κ l l') (hκ : κ ∉ claimKinds) : l'.claims = l.claims := by
  cases h with
  | aside h | bind h | deliver h => exact h.claims
  | retire =>
    unfold retireImported
    split <;> rfl
  | enter =>
    simp only [upsertTask]
    split <;> rfl
  | completeParent =>
    unfold completeParent
    split
    · split_ifs <;> rfl
    · rfl
  | closeReview =>
    dsimp only
    split_ifs <;> rfl
  | start | renew | conclude | interrupt | closeTask => simp [claimKinds] at hκ
  | _ => rfl

/-- An update that releases or renews claims adds no unreleased one. -/
theorem claimed_update {p : TaskClaim → Prop} [DecidablePred p] {f : TaskClaim → TaskClaim}
    (hf : ∀ c, (f c).taskId = c.taskId) (hr : ∀ c, (f c).released = false → c.released = false)
    (hx : ∀ c, (f c).executionId = c.executionId)
    (h : ∃ c, (l.claims.update p f hf).get? k = some c ∧ c.released = false ∧ c.executionId = x) :
    ClaimedFor l k x := by
  obtain ⟨c', hc', hs, hx'⟩ := h
  rw [Table.get?_update, Option.map_eq_some_iff] at hc'
  obtain ⟨c, hc, rfl⟩ := hc'
  refine ⟨c, hc, ?_⟩
  split_ifs at hs hx'
  · exact ⟨hr c hs, hx c ▸ hx'⟩
  · exact ⟨hs, hx'⟩

theorem claimed_release {p : TaskClaim → Prop} [DecidablePred p]
    (h : ∃ c, (l.claims.update p fun c => { c with released := true }).get? k = some c ∧
      c.released = false ∧ c.executionId = x) : ClaimedFor l k x := by
  refine claimed_update (f := fun c => { c with released := true }) (fun _ => rfl) ?_
    (fun _ => rfl) h
  intro c hc
  cases hc

/-- A task that is held back leaves no claim of its own. -/
theorem claimed_interrupt {now : Time} {row : TaskId × Option ExecutionId}
    (h : ClaimedFor (interruptTask now l row) k x) : ClaimedFor l k x := by
  obtain ⟨j, _ | y⟩ := row
  · exact h
  · exact claimed_release h

/-- What else than a start leaves unreleased was unreleased before. -/
theorem ClaimedFor.before (h : Step env lawful κ l l') (hκ : κ ≠ .start)
    (hk : ClaimedFor l' k x) : ClaimedFor l k x := by
  by_cases hc : κ ∈ claimKinds
  · cases h with
    | @renew _ _ entry =>
      exact claimed_update (f := fun c => { c with expiresAt := entry + seconds 30 })
        (fun _ => rfl) (fun _ => id) (fun _ => rfl) hk
    | conclude => exact claimed_release hk
    | interrupt => exact claimed_interrupt hk
    | closeTask => exact claimed_release hk
    | start => exact absurd rfl hκ
    | _ => simp [claimKinds] at hc
  · unfold ClaimedFor at hk ⊢
    rwa [claims_eq h hc] at hk

/-- After a start the started task holds a claim for its new attempt, and nobody else does. -/
theorem ClaimedFor.start {t : AgentTask} {c : TaskClaim} {claims : Table TaskClaim.taskId}
    (hins : (l.claims.delete fun c => c.taskId = t.id ∧ c.released = true).insert c = some claims)
    (hc : c.taskId = t.id)
    (hk : ∃ c, claims.get? k = some c ∧ c.released = false ∧ c.executionId = x) :
    k = t.id ∧ x = c.executionId ∨ ClaimedFor l k x := by
  obtain ⟨c', hc', hr, hx⟩ := hk
  rw [Table.get?_insert hins] at hc'
  split_ifs at hc' with hkey
  · cases hc'
    exact .inl ⟨hkey.trans hc, hx.symm⟩
  · rw [Table.get?_delete, Option.filter_eq_some_iff] at hc'
    exact .inr ⟨c', hc'.1, hr, hx⟩

/-- Only an entering operation adds an operation row. -/
theorem operation_step (h : Step env lawful κ l l') (hκ : κ ≠ .enter) :
    (skeleton l').operation = (skeleton l).operation := by
  by_cases hi : κ ∈ insertKinds
  · cases h with
    | enter => exact absurd rfl hκ
    | start _ _ _ _ _ _ hins => rw [skeleton_start hins]
    | startFailure _ _ _ hins => rw [skeleton_startFailure hins]
    | newPlan hins => rw [skeleton_newPlan hins]
    | newDraft hins => rw [skeleton_newDraft hins]
    | _ => simp [insertKinds] at hi
  · rw [skeleton_eq h hi]

/-- An operation task that holds a claim, with its request. -/
def Holds (l : Ledger) (k : TaskId) (spec : OperationSpec) : Prop :=
  Unreleased l k ∧ ∃ parent, (skeleton l).operation k = some (spec, parent)

/-- A task that is taken in holds no claim. -/
theorem not_unreleased_of_enter {spec : OperationSpec} {owner root : String} {generation : WorkerId}
    {parent : Option TaskId} (hlinks : Linked (skeleton l)) (hs : Sound l k)
    (hE : Enters True l k spec owner root generation parent) (hnone : l.operations.get? k = none) :
    ¬ Unreleased l k := by
  rintro ⟨_, c, hc, hr, _⟩
  rcases hE.task trivial with htask | ⟨_, t, ht, hq, _⟩
  · obtain ⟨a, ha⟩ := hs.claim c hc
    obtain ⟨e, he, hek, _⟩ := attemptView_eq_some.mp ha
    have htask' := hlinks.attempt _ _ (skeleton_attempt he)
    rw [hek] at htask'
    obtain ⟨t, ht⟩ := of_skeleton_task htask'
    rw [htask] at ht
    cases ht
  · have hreleased := (hs.imported t ht hnone hq).1 c hc
    rw [hr] at hreleased
    cases hreleased

/-- Across a change, whoever holds a claim held it before, or has just been started. -/
theorem holds_step (hlinks : Linked (skeleton l)) (hs : ∀ j, Sound l j) (h : Step env True κ l l')
    {spec : OperationSpec} (hk : Holds l' k spec) :
    Holds l k spec ∨ κ = .start ∧ (∀ j spec', Holds l' j spec' → j = k ∨ Holds l j spec') ∧
      ¬ WorkspaceBusy l spec := by
  obtain ⟨hu, parent, ho⟩ := hk
  by_cases hκ : κ = .start
  · subst hκ
    have hops : (skeleton l').operation = (skeleton l).operation := operation_step h (by simp)
    rw [hops] at ho
    cases h with
    | @start _ t o _ _ _ _ _ _ htask hop _ _ _ hfree _ hins =>
      obtain ⟨x, hx⟩ := hu
      rcases ClaimedFor.start hins rfl hx with ⟨rfl, _⟩ | hbefore
      · refine .inr ⟨rfl, fun j spec' hj => ?_, ?_⟩
        · obtain ⟨⟨y, hy⟩, parent', hoj⟩ := hj
          exact (ClaimedFor.start hins rfl hy).imp (·.1) fun hy => ⟨⟨y, hy⟩, parent', hops ▸ hoj⟩
        · have hlink := skeleton_operation hop
          rw [ho] at hlink
          rw [(Prod.mk.inj (Option.some.inj hlink)).1]
          exact hfree
      · exact .inl ⟨⟨x, hbefore⟩, parent, ho⟩
  · have hbefore : Unreleased l k := hu.imp fun _ hx => hx.before h hκ
    by_cases henter : κ = .enter
    · subst henter
      cases h with
      | @enter _ j spec' owner root _ source project parent' now _ hE hins =>
        have hnone : l.operations.get? j = none := Table.get?_of_insert hins
        have hne : k ≠ j := by
          rintro rfl
          exact not_unreleased_of_enter hlinks (hs k) hE hnone hbefore
        obtain ⟨_, hop, _⟩ := skeleton_enter env owner root source project now hins
        dsimp only at hop
        rw [hop, if_neg hne] at ho
        exact .inl ⟨hbefore, parent, ho⟩
    · exact .inl ⟨hbefore, parent, operation_step h henter ▸ ho⟩

end NyanyaAgent.Invariants
