import NyanyaAgent.System.Invariant

/-!
# The lifecycle of plans

The moves of a plan's status across any action, and what follows for whole runs: a
closed plan stays closed, and a plan starts to be applied at most once.
-/
namespace NyanyaAgent.Safety
open NyanyaAgent.Schema NyanyaAgent.Relational NyanyaAgent.Operations NyanyaAgent.Plans
open NyanyaAgent.Drafts NyanyaAgent.Lifecycle NyanyaAgent.Runs NyanyaAgent.Invariants
open NyanyaAgent.System

variable {env : Environment} {κ : Kind} {l l' : Ledger}

/-- The statuses a plan may move to. -/
def nextStatuses : PlanStatus → List PlanStatus
  | .pending => [.approved, .revoked, .expired]
  | .approved => [.approved, .applying, .revoked, .expired]
  | .applying => [.applied, .uncertain, .reconciled]
  | .uncertain => [.applied, .reconciled]
  | .applied => [.applied, .reconciled]
  | .revoked | .expired | .reconciled => []

/-- The plan keeps its status or moves along the lifecycle. -/
def Moves (s s' : PlanStatus) : Prop := s' = s ∨ s' ∈ nextStatuses s

/-- A move of a command: only a call of `apply` enters `applying` or leaves it for `uncertain`. -/
def CommandMoves (s s' : PlanStatus) : Prop :=
  Moves s s' ∧ (s' = .applying → s = .applying) ∧ (s' = .uncertain → s = .uncertain)

instance (s s' : PlanStatus) : Decidable (Moves s s') := by unfold Moves; infer_instance

instance (s s' : PlanStatus) : Decidable (CommandMoves s s') := by
  unfold CommandMoves; infer_instance

theorem CommandMoves.refl (s : PlanStatus) : CommandMoves s s := ⟨.inl rfl, id, id⟩

theorem CommandMoves.trans {s₁ s₂ s₃ : PlanStatus} (h₁ : CommandMoves s₁ s₂)
    (h₂ : CommandMoves s₂ s₃) : CommandMoves s₁ s₃ := by
  cases s₁ <;> cases s₂ <;> first | exact absurd h₁ (by decide) | skip
  all_goals cases s₃ <;> first | exact absurd h₂ (by decide) | decide

theorem moves_of_planMove {s s' : PlanStatus} (h : PlanMove κ s s') : Moves s s' := by
  cases h with
  | revoke hs => rcases hs with rfl | rfl | rfl <;> simp [Moves, nextStatuses]
  | revokeOpen hs | expire hs | approve hs =>
    rcases hs with rfl | rfl <;> simp [Moves, nextStatuses]
  | admission | finalize | uncertain => simp [Moves, nextStatuses]
  | acknowledge hs hs' =>
    rcases hs with rfl | rfl | rfl <;> rcases hs' with rfl | rfl <;> simp [Moves, nextStatuses]

theorem commandMoves_of_planMove {s s' : PlanStatus} (h : PlanMove κ s s') (hκ : κ ∉ applyKinds) :
    CommandMoves s s' := by
  refine ⟨moves_of_planMove h, ?_, ?_⟩
  all_goals
    cases h with
    | acknowledge _ hs' => rcases hs' with rfl | rfl <;> simp
    | revoke | revokeOpen | expire | approve => simp
    | admission | finalize | uncertain => simp [applyKinds] at hκ

/-- Every plan persists, and its status moves along `M`. -/
def PlansMove (M : PlanStatus → PlanStatus → Prop) (l l' : Ledger) : Prop :=
  ∀ p r, l.plans.get? p = some r → ∃ r', l'.plans.get? p = some r' ∧ M r.status r'.status

theorem plansMove_step {M : PlanStatus → PlanStatus → Prop} (hrefl : ∀ s, M s s)
    (hM : ∀ s s', PlanMove κ s s' → M s s') (h : Step env True κ l l') : PlansMove M l l' := by
  intro p r hr
  obtain ⟨r', hr', _⟩ := of_skeleton_plan ((Extends.step h).plan p _ (skeleton_plan hr))
  refine ⟨r', hr', ?_⟩
  rcases plan_step trivial h hr' with ⟨r₀, hr₀, _, heq⟩ | ⟨_, hnone, _⟩
  · rw [hr] at hr₀
    cases hr₀
    rcases heq with rfl | hmove
    · exact hrefl _
    · exact hM _ _ hmove
  · rw [hr] at hnone
    cases hnone

theorem PlansMove.refl {M : PlanStatus → PlanStatus → Prop} (hrefl : ∀ s, M s s) (l : Ledger) :
    PlansMove M l l := fun _ r hr => ⟨r, hr, hrefl _⟩

theorem PlansMove.trans {M : PlanStatus → PlanStatus → Prop} {l₁ l₂ l₃ : Ledger}
    (htrans : ∀ s₁ s₂ s₃, M s₁ s₂ → M s₂ s₃ → M s₁ s₃) (h₁ : PlansMove M l₁ l₂)
    (h₂ : PlansMove M l₂ l₃) : PlansMove M l₁ l₃ := by
  intro p r hr
  obtain ⟨r₂, hr₂, hm₁⟩ := h₁ p r hr
  obtain ⟨r₃, hr₃, hm₂⟩ := h₂ p r₂ hr₂
  exact ⟨r₃, hr₃, htrans _ _ _ hm₁ hm₂⟩

theorem PlansMove.mono {M N : PlanStatus → PlanStatus → Prop} (hMN : ∀ s s', M s s' → N s s')
    (h : PlansMove M l l') : PlansMove N l l' := by
  intro p r hr
  obtain ⟨r', hr', hm⟩ := h p r hr
  exact ⟨r', hr', hMN _ _ hm⟩

/-- No command makes a change that only a call of `apply` makes. -/
theorem commandKinds_apply {c : Command} (hκ : κ ∈ commandKinds c) : κ ∉ applyKinds := by
  intro hmem
  simp only [applyKinds, List.mem_cons, List.not_mem_nil, or_false] at hmem
  cases c with
  | decide _ _ _ revoke =>
    cases revoke <;> rcases hmem with rfl | rfl | rfl | rfl <;> simp [commandKinds, settleKinds] at hκ
  | _ =>
    rcases hmem with rfl | rfl | rfl | rfl <;>
      simp [commandKinds, approveKinds, openKinds, cancelKinds, proposeKinds, linkKinds, settleKinds,
        resolveKinds, closeKinds, maintainKinds] at hκ

theorem plansMove_command {w : World} {c : Command} (hw : Consistent env w)
    (hc : Legal w (.command c)) :
    PlansMove CommandMoves w.ledger (step env w (.command c)).ledger := by
  have hchain : Chain env True (commandKinds c) w.ledger (step env w (.command c)).ledger :=
    step_chain fun _ => hw.promise hc
  refine hchain.relation (R := PlansMove CommandMoves) (I := fun _ => True)
    (.refl .refl) (fun _ _ _ => .trans fun _ _ _ => .trans) (fun _ _ _ _ _ _ => trivial)
    (fun κ hκ _ _ _ hs => plansMove_step .refl (fun s s' h => ?_) hs) trivial
  exact commandMoves_of_planMove h (commandKinds_apply hκ)

theorem plansMove_action {w : World} {a : Action} (hw : Consistent env w) (ha : Legal w a) :
    PlansMove Moves w.ledger (step env w a).ledger := by
  have hsame : step env w a = w → PlansMove Moves w.ledger (step env w a).ledger := fun h =>
    h.symm ▸ PlansMove.refl (fun _ => .inl rfl) w.ledger
  cases a with
  | command c => exact (plansMove_command hw ha).mono fun _ _ h => h.1
  | stepApply n chance =>
    rcases stepCall_cases env w n chance with h | ⟨call, hcall, h | ⟨_, l, t, s, _, hwrite, h⟩⟩
    · exact hsame h
    · simp only [step, h.2.2]
      exact .refl (fun _ => .inl rfl) _
    · simp only [step, h]
      have hcases : l = w.ledger ∨ ∃ κ ∈ applyKinds, Step env True κ w.ledger l :=
        hwrite.step fun _ hs => hw.promise ha call hcall hs
      rcases hcases with rfl | ⟨κ, _, hstep⟩
      · exact .refl (fun _ => .inl rfl) _
      · exact plansMove_step (fun _ => .inl rfl) (fun _ _ => moves_of_planMove) hstep
  | startApply | crashApply =>
    simp only [step]
    split <;> exact .refl (fun _ => .inl rfl) _
  | tick | external => exact .refl (fun _ => .inl rfl) _

/-- A plan that has started to be applied. -/
def Started (s : PlanStatus) : Prop :=
  s = .applying ∨ s = .uncertain ∨ s = .applied ∨ s = .reconciled

/-- What a run keeps of the status: an end, and having started. -/
def Keeps (s s' : PlanStatus) : Prop := (nextStatuses s = [] → s' = s) ∧ (Started s → Started s')

theorem Keeps.refl (s : PlanStatus) : Keeps s s := ⟨fun _ => rfl, id⟩

theorem Keeps.trans {s₁ s₂ s₃ : PlanStatus} (h₁ : Keeps s₁ s₂) (h₂ : Keeps s₂ s₃) : Keeps s₁ s₃ := by
  refine ⟨fun hs => ?_, fun hs => h₂.2 (h₁.2 hs)⟩
  have heq : s₂ = s₁ := h₁.1 hs
  rw [h₂.1 (heq ▸ hs), heq]

theorem Keeps.of_moves {s s' : PlanStatus} (h : Moves s s') : Keeps s s' := by
  rcases h with rfl | h
  · exact .refl _
  · cases s <;> simp_all [nextStatuses, Keeps, Started]
    rcases h with rfl | rfl | rfl <;> simp

theorem plansMove_run {w w' : World} {as : List Action} (hw : Consistent env w)
    (h : Run (step env) Legal w as w') : PlansMove Keeps w.ledger w'.ledger :=
  h.relation (R := fun w w' => PlansMove Keeps w.ledger w'.ledger) (I := Consistent env)
    (fun _ => .refl .refl _) (fun _ _ _ => .trans fun _ _ _ => .trans)
    (fun _ _ => Consistent.step)
    (fun _ _ hw ha => (plansMove_action hw ha).mono fun _ _ => .of_moves) hw

/-- In every run: each action moves a plan's status along the lifecycle or not at all; a
revoked, expired or reconciled plan stays so; a plan that is applied now never starts to be
applied later; and the handler of a failed `apply` finds its plan `applying`. -/
theorem plan_lifecycle (env : Environment) (w : World) (hw : ReachableWorld env w) :
    (∀ a, Legal w a → ∀ p r, w.ledger.plans.get? p = some r →
      ∃ r', (step env w a).ledger.plans.get? p = some r' ∧
        (r'.status = r.status ∨ r'.status ∈ nextStatuses r.status)) ∧
    (∀ as w', Run (step env) Legal w as w' → ∀ p r, w.ledger.plans.get? p = some r →
      ∃ r', w'.ledger.plans.get? p = some r' ∧
        (r.status = .revoked ∨ r.status = .expired ∨ r.status = .reconciled → r'.status = r.status)) ∧
    (∀ as w' a, Run (step env) Legal w as w' → Legal w' a → ∀ p r r₁ r₂,
      w.ledger.plans.get? p = some r → w'.ledger.plans.get? p = some r₁ →
      (step env w' a).ledger.plans.get? p = some r₂ → r₁.status ≠ .applying →
      r₂.status = .applying → r.status = .pending ∨ r.status = .approved) ∧
    ∀ (n : ℕ) (call : ApplyCall), w.calls[n]? = some call → call.stage = .failure →
      ∃ r, w.ledger.plans.get? call.plan.id = some r ∧ r.status = .applying := by
  have hcons : Consistent env w := hw.consistent
  refine ⟨fun a ha => plansMove_action hcons ha, fun as w' hrun p r hr => ?_, ?_, ?_⟩
  · obtain ⟨r', hr', hkeeps, _⟩ := plansMove_run hcons hrun p r hr
    refine ⟨r', hr', fun hs => hkeeps ?_⟩
    rcases hs with hs | hs | hs <;> rw [hs] <;> rfl
  · intro as w' a hrun ha p r r₁ r₂ hr hr₁ hr₂ hne happlying
    obtain ⟨r', hr', _, hstarted⟩ := plansMove_run hcons hrun p r hr
    rw [hr₁] at hr'
    cases hr'
    obtain ⟨r'', hr'', hmoves⟩ :=
      plansMove_action (ReachableWorld.consistent (hw.run hrun)) ha p r₁ hr₁
    rw [hr₂] at hr''
    cases hr''
    have hbefore : r₁.status = .approved := by
      rw [happlying] at hmoves
      rcases hmoves with heq | hmem
      · exact absurd heq.symm hne
      · revert hmem
        cases r₁.status <;> simp [nextStatuses]
    rw [hbefore] at hstarted
    have hnot : ¬ Started r.status := fun hs => by simpa [Started] using hstarted hs
    obtain ⟨r', hr', hkeeps, _⟩ := plansMove_run hcons hrun p r hr
    rw [hr₁] at hr'
    cases hr'
    revert hnot hkeeps
    rw [hbefore]
    cases r.status <;> simp [Started, nextStatuses]
  · intro n call hcall hs
    exact hcons.promise (a := .stepApply n {}) trivial call hcall hs

theorem plan_lifecycle_plain : ∃ r r', plainPlanned.ledger.plans.get? 5 = some r ∧
    (step plainEnvironment plainPlanned (.command (.decide 5 "owner" [] true))).ledger.plans.get? 5 =
      some r' ∧ (r'.status = r.status ∨ r'.status ∈ nextStatuses r.status) := by
  have hplan : (plainPlanned.ledger.plans.get? 5).isSome = true := by decide +kernel
  obtain ⟨r, hr⟩ := Option.isSome_iff_exists.mp hplan
  obtain ⟨r', hr', hmoves⟩ := (plan_lifecycle plainEnvironment plainPlanned
    plainPlanned_reachable).1 (.command (.decide 5 "owner" [] true)) trivial 5 r hr
  exact ⟨r, r', hr, hr', hmoves⟩

end NyanyaAgent.Safety
