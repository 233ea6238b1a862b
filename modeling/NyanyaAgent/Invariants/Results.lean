import NyanyaAgent.System.Steps

/-!
# Saved results

Saved results stay, and only the delivery of a result changes its row.
-/
namespace NyanyaAgent.Invariants
open NyanyaAgent.Schema NyanyaAgent.Relational NyanyaAgent.Operations NyanyaAgent.Lifecycle
open NyanyaAgent.Runs NyanyaAgent.System

variable {env : Environment} {lawful : Prop} {κ : Kind} {l l' : Ledger} {x : ExecutionId}
  {r : TaskResult}

theorem result_inserted {t t' : Table TaskResult.executionId} {s : TaskResult}
    (hins : t.insert s = some t') (hx : t.get? x = some r) : t'.get? x = some r := by
  rw [Table.get?_insert hins]
  have hne : x ≠ s.executionId := by
    rintro rfl
    rw [Table.get?_of_insert hins] at hx
    cases hx
  rw [if_neg hne]
  exact hx

/-- Every change but a delivery keeps the row of a saved result. -/
theorem result_kept (h : Step env lawful κ l l') (hκ : κ ≠ .deliver)
    (hx : l.results.get? x = some r) : l'.results.get? x = some r := by
  cases h with
  | aside h => exact h.results ▸ hx
  | bind _ h => exact h ▸ hx
  | deliver => exact absurd rfl hκ
  | conclude _ hins => exact result_inserted hins hx
  | startFailure _ _ _ _ hins => exact result_inserted hins hx
  | retire =>
    unfold retireImported
    split <;> exact hx
  | enter =>
    simp only [upsertTask]
    split <;> exact hx
  | completeParent =>
    unfold completeParent
    split
    · split_ifs <;> exact hx
    · exact hx
  | @interrupt _ k t => cases t.currentExecutionId <;> exact hx
  | closeReview =>
    dsimp only
    split_ifs <;> exact hx
  | _ => exact hx

/-- Where the delivery status of a result can move to in one step. -/
def deliveryMoves : DeliveryStatus → List DeliveryStatus
  | .pending => [.sending]
  | .sending => [.delivered, .uncertain, .acknowledged]
  | .uncertain => [.acknowledged]
  | .delivered => []
  | .acknowledged => []

def DeliveryMove (s s' : DeliveryStatus) : Prop := s' = s ∨ s' ∈ deliveryMoves s

/-- Saved results stay, and their delivery moves along its path. -/
def ResultMoves (l l' : Ledger) : Prop :=
  ∀ x r, l.results.get? x = some r →
    ∃ r', l'.results.get? x = some r' ∧ DeliveryMove r.deliveryStatus r'.deliveryStatus

theorem ResultMoves.of_eq (h : l'.results = l.results) : ResultMoves l l' :=
  fun _ r hr => ⟨r, h ▸ hr, .inl rfl⟩

theorem ResultMoves.of_kept (h : ∀ x r, l.results.get? x = some r → l'.results.get? x = some r) :
    ResultMoves l l' :=
  fun x r hr => ⟨r, h x r hr, .inl rfl⟩

theorem ResultMoves.appendEvent (h : ResultMoves l l') (v : ExecutionEvent) :
    ResultMoves l (l'.appendEvent v) := h

theorem ResultMoves.of_update {p : TaskResult → Prop} [DecidablePred p]
    {f : TaskResult → TaskResult} {hf : ∀ r, (f r).executionId = r.executionId}
    (h : ∀ r, p r → (f r).deliveryStatus ∈ deliveryMoves r.deliveryStatus) :
    ResultMoves l { l with results := l.results.update p f hf } := by
  intro x r hr
  refine ⟨if p r then f r else r, by rw [Table.get?_update, hr]; rfl, ?_⟩
  by_cases hp : p r
  · rw [if_pos hp]
    exact .inr (h r hp)
  · rw [if_neg hp]
    exact .inl rfl

theorem claimDelivery_moves {k : TaskId} {owner : String} {attempt : ℕ} {now : Time} {b : Bool}
    (h : Tx.Ran (claimDelivery k owner x attempt now) l b l') : ResultMoves l l' := by
  unfold claimDelivery at h
  simp only [Tx.ran_select_bind, Tx.ran_write_bind, Tx.ran_pure] at h
  rw [h.2]
  refine .of_update fun r hr => ?_
  rw [hr.2.1]
  simp [deliveryMoves]

theorem settleDelivery_moves (x : ExecutionId) (delivered : Bool) (error : String) (now : Time)
    (l : Ledger) : ResultMoves l (settleDelivery x delivered error now l) := by
  refine .of_update fun r hr => ?_
  rw [hr.2]
  cases delivered <;> simp [deliveryMoves]

theorem acknowledgeDelivery_moves {k : TaskId} {owner : String} {now : Time} {u : Unit}
    (h : Tx.Ran (acknowledgeDelivery k owner now) l u l') : ResultMoves l l' := by
  unfold acknowledgeDelivery at h
  simp only [Tx.ran_select_bind, Tx.ran_demand_bind] at h
  obtain ⟨t, _, h⟩ := h
  split_ifs at h
  · rw [(Tx.ran_pure.mp h).2]
    exact .of_eq rfl
  · simp only [Tx.ran_require_bind, Tx.ran_write_bind, Tx.ran_write] at h
    rw [h.2]
    refine (ResultMoves.of_update fun r hr => ?_).appendEvent _
    rcases hr.2 with hs | hs <;> simp [hs, deliveryMoves]

theorem chain_results {ks : List Kind} (h : Chain env lawful ks l l') (hks : .deliver ∉ ks) :
    ResultMoves l l' := by
  refine .of_kept fun x r hr => ?_
  refine h.invariant (I := fun l => l.results.get? x = some r) ?_ hr
  intro κ hκ l₁ l₂ hx hstep
  exact result_kept hstep (fun h => hks (h ▸ hκ)) hx

theorem command_results {w : World} {c : Command} {record : Option ClaimRecord}
    (h : Tx.Ran (commandOp env w c) w.ledger record l') : ResultMoves w.ledger l' := by
  have hchain : Chain env False (commandKinds c) w.ledger l' := commandOp_chain False.elim h
  cases c
  case claimDelivery =>
    simp only [commandOp, ran_dropped] at h
    exact claimDelivery_moves h.2.choose_spec
  case settleDelivery =>
    simp only [commandOp, Tx.ran_write_bind, Tx.ran_pure] at h
    rw [h.2]
    exact settleDelivery_moves _ _ _ _ _
  case acknowledgeDelivery =>
    simp only [commandOp, ran_dropped] at h
    exact acknowledgeDelivery_moves h.2.choose_spec
  case decide p owner hash revoke =>
    refine chain_results hchain ?_
    cases revoke <;> simp [commandKinds, settleKinds]
  all_goals exact chain_results hchain (by simp only [commandKinds]; decide)

theorem action_results (w : World) (a : Action) : ResultMoves w.ledger (step env w a).ledger := by
  cases a with
  | command c =>
    rcases step_command env w c with ⟨record, l', hran, hstep⟩ | ⟨_, hstep⟩
    · rw [hstep]
      exact command_results hran
    · rw [hstep]
      exact .of_eq rfl
  | stepApply n chance =>
    have hchain : Chain env False (actionKinds (.stepApply n chance)) w.ledger _ :=
      step_chain False.elim
    exact chain_results hchain (by simp only [actionKinds]; decide)
  | tick | external => exact .of_eq rfl
  | startApply | crashApply =>
    simp only [step]
    split <;> exact .of_eq rfl

end NyanyaAgent.Invariants
