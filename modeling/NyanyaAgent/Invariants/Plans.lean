import NyanyaAgent.Invariants.Links

/-!
# The statuses of plans

How each change moves the status of a plan, and that rows with a core never vanish.
-/
namespace NyanyaAgent.Invariants
open NyanyaAgent.Schema NyanyaAgent.Relational NyanyaAgent.Operations NyanyaAgent.Plans
open NyanyaAgent.Drafts NyanyaAgent.Lifecycle

variable {env : Environment} {lawful : Prop} {κ : Kind} {l l' : Ledger}

/-- Every row of a skeleton is a row of another. -/
structure Extends (s s' : Skeleton) : Prop where
  task : ∀ k, s.task k = true → s'.task k = true
  operation : ∀ k o, s.operation k = some o → s'.operation k = some o
  attempt : ∀ x k, s.attempt x = some k → s'.attempt x = some k
  plan : ∀ p c, s.plan p = some c → s'.plan p = some c
  draft : ∀ d c, s.draft d = some c → s'.draft d = some c

theorem Extends.refl (s : Skeleton) : Extends s s :=
  ⟨fun _ => id, fun _ _ => id, fun _ _ => id, fun _ _ => id, fun _ _ => id⟩

theorem Extends.trans {s s₁ s' : Skeleton} (h₁ : Extends s s₁) (h₂ : Extends s₁ s') :
    Extends s s' :=
  ⟨fun k h => h₂.task k (h₁.task k h), fun k o h => h₂.operation k o (h₁.operation k o h),
    fun x k h => h₂.attempt x k (h₁.attempt x k h), fun p c h => h₂.plan p c (h₁.plan p c h),
    fun d c h => h₂.draft d c (h₁.draft d c h)⟩

/-- A row under a fresh key hides no other. -/
theorem fresh_kept {κ α : Type} [DecidableEq κ] {f : κ → Option α} {k j : κ} {a b : α}
    (hf : f k = none) (h : f j = some a) : (if j = k then some b else f j) = some a := by
  rw [if_neg]
  · exact h
  · rintro rfl
    rw [hf] at h
    cases h

theorem Extends.step (h : Step env lawful κ l l') : Extends (skeleton l) (skeleton l') := by
  by_cases hκ : κ ∈ insertKinds
  · cases h with
    | @enter _ k spec owner root generation source project parent now operations hE hins =>
      obtain ⟨htask, hop, hx, hplan, hdraft⟩ := skeleton_enter env owner root source project now hins
      dsimp only at htask hop hx hplan hdraft
      have hnone : (skeleton l).operation k = none := by
        simp [skeleton, operationLinks, Table.get?_of_insert hins]
      refine ⟨fun j hj => (htask j).mpr (.inr hj), fun j o ho => ?_, fun x j => ?_, fun p c => ?_,
        fun d c => ?_⟩
      · rw [hop]
        exact fresh_kept hnone ho
      · rw [hx]
        exact id
      · rw [hplan]
        exact id
      · rw [hdraft]
        exact id
    | start _ _ _ _ _ _ hins =>
      rw [skeleton_start hins]
      refine ⟨fun _ => id, fun _ _ => id, fun x k hx => fresh_kept ?_ hx, fun _ _ => id,
        fun _ _ => id⟩
      simp [skeleton, Table.get?_of_insert hins]
    | startFailure _ _ _ hins =>
      rw [skeleton_startFailure hins]
      refine ⟨fun _ => id, fun _ _ => id, fun x k hx => fresh_kept ?_ hx, fun _ _ => id,
        fun _ _ => id⟩
      simp [skeleton, Table.get?_of_insert hins]
    | newPlan hins =>
      rw [skeleton_newPlan hins]
      refine ⟨fun _ => id, fun _ _ => id, fun _ _ => id, fun p c hc => fresh_kept ?_ hc,
        fun _ _ => id⟩
      simp [skeleton, Table.get?_of_insert hins]
    | newDraft hins =>
      rw [skeleton_newDraft hins]
      refine ⟨fun _ => id, fun _ _ => id, fun _ _ => id, fun _ _ => id, fun d c hc => fresh_kept ?_ hc⟩
      simp [skeleton, Table.get?_of_insert hins]
    | _ => simp [insertKinds] at hκ
  · rw [skeleton_eq h hκ]
    exact .refl _

/-- The moves of a plan's status, by the change that makes them. -/
inductive PlanMove : Kind → PlanStatus → PlanStatus → Prop
  | revoke {s : PlanStatus} (h : s = .pending ∨ s = .approved ∨ s = .revoked) :
      PlanMove .revoke s .revoked
  | revokeOpen {s : PlanStatus} (h : s = .pending ∨ s = .approved) : PlanMove .revokeOpen s .revoked
  | expire {s : PlanStatus} (h : s = .pending ∨ s = .approved) : PlanMove .expire s .expired
  | approve {s : PlanStatus} (h : s = .pending ∨ s = .approved) : PlanMove .approve s .approved
  | admission : PlanMove .admission .approved .applying
  | finalize : PlanMove .finalize .applying .applied
  | uncertain : PlanMove .uncertain .applying .uncertain
  | acknowledge {s s' : PlanStatus} (h : s = .applying ∨ s = .uncertain ∨ s = .applied)
      (h' : s' = .applied ∨ s' = .reconciled) : PlanMove .acknowledge s s'

theorem PlanMove.of_revoked {s s' : PlanStatus} (h : PlanMove κ s s') (hs : s = .revoked) :
    s' = .revoked := by
  subst hs
  cases h with
  | revoke => rfl
  | revokeOpen h | expire h | approve h | acknowledge h => simp at h

/-- The kinds of changes that write plans. -/
def planKinds : List Kind :=
  [.revoke, .revokeOpen, .expire, .approve, .newPlan, .admission, .finalize, .uncertain, .acknowledge]

theorem plans_eq (h : Step env lawful κ l l') (hκ : κ ∉ planKinds) : l'.plans = l.plans := by
  cases h with
  | aside h | bind h | deliver h => exact h.plans
  | retire =>
    unfold retireImported
    split <;> rfl
  | enter =>
    simp only [upsertTask]
    split <;> rfl
  | completeParent =>
    unfold completeParent
    split
    · split_ifs <;> rfl
    · rfl
  | @interrupt _ k t => cases t.currentExecutionId <;> rfl
  | closeReview =>
    dsimp only
    split_ifs <;> rfl
  | revoke | revokeOpen | expire | approve | newPlan | admission | finalize | uncertain
  | acknowledge => simp [planKinds] at hκ
  | _ => rfl

/-- What an update by key leaves of a row. -/
theorem updatePlan_cases {p q : PlanId} {f : ChangePlan → ChangePlan} {hf : ∀ r, (f r).id = r.id}
    {r' : ChangePlan} (h : (l.updatePlan p f hf).plans.get? q = some r') :
    ∃ r, l.plans.get? q = some r ∧ (q ≠ p ∧ r' = r ∨ q = p ∧ r' = f r) := by
  by_cases hq : q = p
  · subst hq
    rw [Ledger.updatePlan_get?, Option.map_eq_some_iff] at h
    obtain ⟨r, hr, rfl⟩ := h
    exact ⟨r, hr, .inr ⟨rfl, rfl⟩⟩
  · rw [Ledger.updatePlan_get?_ne _ _ _ hq] at h
    exact ⟨r', h, .inl ⟨hq, rfl⟩⟩

/-- A plan row after a change is the row before it, moved, or a new one. -/
theorem plan_step (hlawful : lawful) (h : Step env lawful κ l l') {q : PlanId} {r' : ChangePlan}
    (hr' : l'.plans.get? q = some r') :
    (∃ r, l.plans.get? q = some r ∧ planCore r' = planCore r ∧
      (r' = r ∨ PlanMove κ r.status r'.status)) ∨
    κ = .newPlan ∧ l.plans.get? q = none ∧ (r'.status = .pending ∨ r'.status = .approved) := by
  by_cases hκ : κ ∈ planKinds
  · cases h with
    | revoke _ hrow hs | expire hrow hs | approve hrow hs =>
      obtain ⟨r, hr, ⟨_, rfl⟩ | ⟨rfl, rfl⟩⟩ := updatePlan_cases hr'
      · exact .inl ⟨_, hr, rfl, .inl rfl⟩
      · cases Option.some.inj (hrow.symm.trans hr)
        exact .inl ⟨_, hr, rfl, .inr (by constructor; exact hs)⟩
    | acknowledge hrow _ hs =>
      simp only [acknowledgePlan, Ledger.appendEvent_plans] at hr'
      obtain ⟨r, hr, ⟨_, rfl⟩ | ⟨rfl, rfl⟩⟩ := updatePlan_cases hr'
      · exact .inl ⟨_, hr, rfl, .inl rfl⟩
      · cases Option.some.inj (hrow.symm.trans hr)
        refine .inl ⟨_, hr, rfl, .inr (.acknowledge ?_ ?_)⟩
        · exact hs.imp_right fun h => h.imp_right (·.1)
        · dsimp only
          split_ifs <;> simp
    | revokeOpen =>
      simp only [revokeOpenPlans, Table.get?_update, Option.map_eq_some_iff] at hr'
      obtain ⟨r, hr, rfl⟩ := hr'
      refine .inl ⟨r, hr, ?_⟩
      split_ifs with hs
      · exact ⟨rfl, .inr (.revokeOpen hs.2)⟩
      · exact ⟨rfl, .inl rfl⟩
    | newPlan hins hstatus =>
      rw [Table.get?_insert hins] at hr'
      split_ifs at hr' with hq
      · cases hr'
        exact .inr ⟨rfl, hq ▸ Table.get?_of_insert hins, hstatus⟩
      · exact .inl ⟨r', hr', rfl, .inl rfl⟩
    | admission heligible =>
      obtain ⟨_, _, _, plan, hrow, hs, _⟩ := heligible
      obtain ⟨r, hr, ⟨_, rfl⟩ | ⟨rfl, rfl⟩⟩ := updatePlan_cases hr'
      · exact .inl ⟨_, hr, rfl, .inl rfl⟩
      · cases Option.some.inj (hrow.symm.trans hr)
        exact .inl ⟨_, hr, rfl, .inr (hs ▸ .admission)⟩
    | finalize heligible =>
      obtain ⟨_, _, _, plan, hrow, hs, _⟩ := heligible
      simp only [finalizePlan, applyDrafts, Ledger.appendEvent_plans] at hr'
      obtain ⟨r, hr, ⟨_, rfl⟩ | ⟨rfl, rfl⟩⟩ := updatePlan_cases hr'
      · exact .inl ⟨_, hr, rfl, .inl rfl⟩
      · cases Option.some.inj (hrow.symm.trans hr)
        exact .inl ⟨_, hr, rfl, .inr (hs ▸ .finalize)⟩
    | uncertain hpromise =>
      obtain ⟨plan, hrow, hs⟩ := hpromise hlawful
      obtain ⟨r, hr, ⟨_, rfl⟩ | ⟨rfl, rfl⟩⟩ := updatePlan_cases hr'
      · exact .inl ⟨_, hr, rfl, .inl rfl⟩
      · cases Option.some.inj (hrow.symm.trans hr)
        exact .inl ⟨_, hr, rfl, .inr (hs ▸ .uncertain)⟩
    | _ => simp [planKinds] at hκ
  · rw [plans_eq h hκ] at hr'
    exact .inl ⟨r', hr', rfl, .inl rfl⟩

end NyanyaAgent.Invariants
