import NyanyaAgent.Lifecycle.Apply
import NyanyaAgent.Lifecycle.Drafts
import NyanyaAgent.System.Actions

/-!
# The changes of one action

Every action of the world as a sequence of elementary changes of the ledger, with
the promises that the callers and the invariant give.
-/
namespace NyanyaAgent.System
open NyanyaAgent.Schema NyanyaAgent.Relational NyanyaAgent.Operations NyanyaAgent.Plans
open NyanyaAgent.Drafts NyanyaAgent.Lifecycle NyanyaAgent.Runs

variable {env : Environment} {lawful : Prop}

/-- What a command may rely on. -/
def Promise (l : Ledger) : Command → Prop
  | .submit _ spec _ _ source _ _ fresh _ => SubmitPromise l spec source none fresh
  | .approve _ _ _ _ _ fresh _ => l.tasks.get? fresh = none
  | .cancel k _ _ => CancelPromise l k
  | .propose _ k _ _ _ _ _ _ draft _ => ProposalPromise l k draft
  | .resolve _ p _ _ => ∀ r, l.plans.get? p = some r → ∀ o, l.operations.get? r.taskId = some o →
    o.spec.kind = .request
  | .createDraft _ record _ _ => SourcePromise l record.taskId
  | .openDraft _ d _ _ _ _ fresh _ => OpenPromise l d fresh
  | _ => True

def commandKinds : Command → List Kind
  | .submit .. => [.aside, .retire, .enter, .bind]
  | .approve .. => approveKinds
  | .claim .. => [.start]
  | .renew .. => [.renew]
  | .finish .. => [.aside, .conclude, .completeParent]
  | .recover _ => [.interrupt]
  | .resume .. => [.requeue]
  | .recordStartFailure .. => [.startFailure]
  | .cancel .. => cancelKinds
  | .dismiss .. => [.aside, .touch]
  | .assess .. => [.aside, .touch]
  | .propose .. => proposeKinds
  | .linkNoPlan .. => linkKinds
  | .decide _ _ _ revoke => if revoke = true then .revoke :: settleKinds else [.aside, .approve]
  | .settleExpired _ => .expire :: settleKinds
  | .resolve .. => resolveKinds
  | .createDraft .. => [.newDraft]
  | .claimDelivery .. => [.deliver]
  | .settleDelivery .. => [.deliver]
  | .acknowledgeDelivery .. => [.aside, .deliver]
  | .openDraft .. => openKinds
  | .closeDraft .. => closeKinds
  | .maintain => maintainKinds
  | _ => [.aside]

theorem ran_dropped {ε σ α β : Type} {m : Tx ε σ α} {b c : β} {s s' : σ} :
    Tx.Ran (do let _ ← m; pure b) s c s' ↔ c = b ∧ ∃ a, Tx.Ran m s a s' := by
  rw [Tx.ran_bind]
  constructor
  · rintro ⟨a, s₁, hm, hp⟩
    obtain ⟨rfl, rfl⟩ := Tx.ran_pure.mp hp
    exact ⟨rfl, a, hm⟩
  · rintro ⟨rfl, a, hm⟩
    exact ⟨a, s', hm, Tx.ran_pure.mpr ⟨rfl, rfl⟩⟩

/-- A command under the lock ran while no apply held it. -/
theorem withLock_checks {α : Type} {w : World} {reg : Registry} {p : PlanId} {owner : String}
    {op : Op α} {l l' : Ledger} {a : α} (h : Tx.Ran (withLock env w reg p owner op) l a l') :
    Tx.Ran op l a l' ∧ ∃ plan root, ownedPlan l p owner = some plan ∧
      checkWorkspace env reg plan.workspace owner = .ok root ∧ ¬ Locked w root := by
  unfold withLock openPlanCommand at h
  rw [Tx.ran_bind] at h
  obtain ⟨⟨plan, root⟩, l₁, hopen, h⟩ := h
  simp only [Tx.ran_select_bind, Tx.ran_demand_bind, Tx.ran_lift_bind, Tx.ran_pure] at hopen
  obtain ⟨plan', hrow, root', hroot, hpair, rfl⟩ := hopen
  cases hpair
  rw [Tx.ran_require_bind] at h
  exact ⟨h.2, plan, root, hrow, hroot, h.1⟩

theorem withLock_ran {α : Type} {w : World} {reg : Registry} {p : PlanId} {owner : String}
    {op : Op α} {l l' : Ledger} {a : α} (h : Tx.Ran (withLock env w reg p owner op) l a l') :
    Tx.Ran op l a l' ∧ ∃ plan root, l.plans.get? p = some plan ∧
      env.resolve plan.workspace = some root ∧ ¬ Locked w root := by
  obtain ⟨hran, plan, root, hrow, hroot, hfree⟩ := withLock_checks h
  exact ⟨hran, plan, root, (ownedPlan_eq_some.mp hrow).1, resolve_of_checkWorkspace env hroot, hfree⟩

theorem commandOp_chain {w : World} {c : Command} {l' : Ledger} {record : Option ClaimRecord}
    (hp : lawful → Promise w.ledger c) (h : Tx.Ran (commandOp env w c) w.ledger record l') :
    Chain env lawful (commandKinds c) w.ledger l' := by
  cases c <;> simp only [commandOp, ran_dropped, Tx.ran_write, exists_const, Tx.ran_lift_bind] at h
  case registerWorker => exact registerWorker_chain h.2.choose_spec
  case heartbeat => exact h.2 ▸ heartbeat_chain ..
  case submit => exact submit_chain hp h.2.choose_spec
  case approve => exact approveAndSubmitApply_chain hp h.2.choose_spec
  case claim => exact claim_chain h
  case renew => exact renew_chain h.2.choose_spec
  case finish => exact finish_chain h.2.choose_spec
  case recover => exact h.2 ▸ recover_chain ..
  case resume => exact resume_chain h.2.choose_spec
  case recordStartFailure => exact recordStartFailure_chain h.2.choose_spec
  case cancel => exact cancel_chain hp h.2.choose_spec
  case dismiss => exact dismiss_chain h.2.choose_spec
  case assess k priority =>
    rw [h.2, assess]
    refine (Chain.of_step (.touch _ ?_ ?_) (by simp [commandKinds])).snoc
      (.aside (.appendEvent _ { taskId := k, eventType := .operationRouted } (by simp)))
      (by simp [commandKinds])
    · exact fun _ => rfl
    · exact fun _ => ⟨rfl, rfl, rfl⟩
  case claimDelivery => exact claimDelivery_chain h.2.choose_spec
  case settleDelivery => exact h.2 ▸ settleDelivery_chain ..
  case acknowledgeDelivery => exact acknowledgeDelivery_chain h.2.choose_spec
  case propose => exact propose_chain hp h.2.choose_spec
  case linkNoPlan => exact linkNoPlan_chain h.2.choose_spec
  case decide => exact decideConn_chain h.2.choose_spec
  case settleExpired => exact h.2 ▸ settleExpired_chain ..
  case reconcile => exact reconcile_chain (withLock_ran h.2.choose_spec).1
  case resolve => exact resolve_chain hp (withLock_ran h.2.choose_spec).1
  case createDraft => exact create_chain hp h.2.choose_spec
  case openDraft => exact openAndSubmit_chain hp h.2.choose_spec
  case closeDraft => exact close_chain h.2.choose_spec
  case maintain => exact h.2 ▸ maintain_chain ..
  case resetConversation =>
    obtain ⟨root, _, _, n, hr⟩ := h
    exact .of_step (.aside (.of_turns (Conversation.resetConn_same env hr) fun k => by
      rw [Conversation.turnKey, Conversation.resetConn_turns env hr, Conversation.turnKey]))
      (by simp [commandKinds])

/-- What an action may rely on. -/
def StepPromise (w : World) : Action → Prop
  | .command c => Promise w.ledger c
  | .stepApply n _ => ∀ call, w.calls[n]? = some call → call.stage = .failure →
    ∃ plan, w.ledger.plans.get? call.plan.id = some plan ∧ plan.status = .applying
  | _ => True

def actionKinds : Action → List Kind
  | .command c => commandKinds c
  | .stepApply .. => applyKinds
  | _ => []

/-- A committed command replaced the ledger; any other left the world alone. -/
theorem step_command (env : Environment) (w : World) (c : Command) :
    (∃ record l', Tx.Ran (commandOp env w c) w.ledger record l' ∧
      step env w (.command c) = { w with ledger := l', issued := w.issued ++ record.toList }) ∨
      (∀ record l', ¬ Tx.Ran (commandOp env w c) w.ledger record l') ∧
        step env w (.command c) = w := by
  rcases Tx.commit_cases (commandOp env w c) w.ledger with ⟨a, l', hran, hc⟩ | ⟨e, hno, hc⟩
  · exact .inl ⟨a, l', hran, by simp only [step, hc]⟩
  · exact .inr ⟨hno, by simp only [step, hc]⟩

theorem step_of_ran {w : World} {c : Command} {record : Option ClaimRecord} {l' : Ledger}
    (h : Tx.Ran (commandOp env w c) w.ledger record l') :
    step env w (.command c) = { w with ledger := l', issued := w.issued ++ record.toList } := by
  simp only [step, Tx.commit_ok.mpr h]

/-- A refused command leaves the world as it was. -/
theorem step_of_refused {w : World} {c : Command}
    (h : ∀ record l', ¬ Tx.Ran (commandOp env w c) w.ledger record l') :
    step env w (.command c) = w := by
  rcases step_command env w c with ⟨record, l', hran, _⟩ | ⟨_, hstep⟩
  · exact absurd hran (h record l')
  · exact hstep

/-- What a step of an apply did to the ledger and to its call. -/
theorem stepCall_cases (env : Environment) (w : World) (n : ℕ) (chance : Chance) :
    stepCall env w n chance = w ∨ ∃ call, w.calls[n]? = some call ∧
      ((call.stage = .lock ∧ Locked w call.root ∧ stepCall env w n chance =
          { w with calls := w.calls.set n { call with stage := .raised } }) ∨
        ¬ (call.stage = .lock ∧ Locked w call.root) ∧ ∃ l t s,
          applyStep env chance w.clock call w.ledger (w.tree call.root) = (l, t, s) ∧
          ApplyWrite env call (w.tree call.root) w.ledger l s ∧ stepCall env w n chance =
            { w with ledger := l, tree := Function.update w.tree call.root t
                     calls := w.calls.set n { call with stage := s } }) := by
  unfold stepCall
  cases hcall : w.calls[n]? with
  | none => exact .inl rfl
  | some call =>
    refine .inr ⟨call, rfl, ?_⟩
    dsimp only
    by_cases hlock : call.stage = .lock ∧ Locked w call.root
    · rw [if_pos hlock]
      exact .inl ⟨hlock.1, hlock.2, rfl⟩
    · rw [if_neg hlock]
      exact .inr ⟨hlock, _, _, _, rfl, applyStep_writes .., rfl⟩

theorem step_chain {w : World} {a : Action} (hp : lawful → StepPromise w a) :
    Chain env lawful (actionKinds a) w.ledger (step env w a).ledger := by
  cases a with
  | command c =>
    rcases step_command env w c with ⟨record, l', hran, hstep⟩ | ⟨_, hstep⟩
    · rw [hstep]
      exact commandOp_chain hp hran
    · rw [hstep]
      exact .refl
  | startApply =>
    simp only [step]
    split <;> exact .refl
  | stepApply n chance =>
    rcases stepCall_cases env w n chance with h | ⟨call, hcall, h | ⟨_, l, t, s, _, hw, h⟩⟩
    · simp only [step, h]
      exact .refl
    · simp only [step, h.2.2]
      exact .refl
    · simp only [step, h]
      exact hw.chain fun hl hs => hp hl call hcall hs
  | crashApply n =>
    simp only [step]
    split <;> exact .refl
  | tick => exact .refl
  | external => exact .refl

/-- Only `claim` starts attempts. -/
theorem start_mem_actionKinds {a : Action} (h : .start ∈ actionKinds a) :
    ∃ generation slots x entry, a = .command (.claim generation slots x entry) := by
  cases a with
  | command c =>
    cases c with
    | claim generation slots x entry => exact ⟨generation, slots, x, entry, rfl⟩
    | decide _ _ _ revoke => cases revoke <;> simp [actionKinds, commandKinds, settleKinds] at h
    | _ =>
      simp [actionKinds, commandKinds, approveKinds, openKinds, cancelKinds, proposeKinds, linkKinds,
        settleKinds, resolveKinds, closeKinds, maintainKinds] at h
  | _ => simp [actionKinds, applyKinds] at h

end NyanyaAgent.System
