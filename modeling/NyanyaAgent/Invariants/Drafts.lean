import NyanyaAgent.Invariants.Links

/-!
# The revisions of drafts

How each change moves a draft: its revision never falls, its plan changes only with
a new revision and after the previous plan was revoked, and a draft that waits for
its read scope has files to read.
-/
namespace NyanyaAgent.Invariants
open NyanyaAgent.Schema NyanyaAgent.Relational NyanyaAgent.Operations NyanyaAgent.Plans
open NyanyaAgent.Drafts NyanyaAgent.Lifecycle

variable {env : Environment} {lawful : Prop} {κ : Kind} {l l' : Ledger}

/-- How a change may leave an existing draft. -/
structure DraftMove (l : Ledger) (r r' : OperationDraft) : Prop where
  core : draftCore r' = draftCore r
  revision : r.revision ≤ r'.revision
  plan : r'.planId = r.planId ∨ r.revision < r'.revision ∧
    ∀ p, r.planId = some p → ∃ q, l.plans.get? p = some q ∧ q.status = .revoked
  pending : r'.status = .pending → r.status = .pending

theorem DraftMove.refl (l : Ledger) (r : OperationDraft) : DraftMove l r r :=
  ⟨rfl, le_rfl, .inl rfl, id⟩

/-- The kinds of changes that write drafts. -/
def draftKinds : List Kind :=
  [.openDraft, .dropDraft, .linkDraft, .newDraft, .openTask, .clearDrafts, .closeDraft, .finalize]

theorem drafts_eq (h : Step env lawful κ l l') (hκ : κ ∉ draftKinds) : l'.drafts = l.drafts := by
  cases h with
  | aside h | bind h | deliver h => exact h.drafts
  | retire =>
    unfold retireImported
    split <;> rfl
  | enter =>
    simp only [upsertTask]
    split <;> rfl
  | completeParent =>
    unfold completeParent
    split
    · split_ifs <;> rfl
    · rfl
  | @interrupt _ k t => cases t.currentExecutionId <;> rfl
  | closeReview =>
    dsimp only
    split_ifs <;> rfl
  | openDraft | dropDraft | linkDraft | newDraft | openTask | clearDrafts | closeDraft | finalize =>
    simp [draftKinds] at hκ
  | _ => rfl

/-- An update of the drafts moves every row it does not touch nowhere. -/
theorem drafts_update {p : OperationDraft → Prop} [DecidablePred p]
    {f : OperationDraft → OperationDraft} {hf : ∀ r, (f r).id = r.id} {d : DraftId}
    {r' : OperationDraft} (hr' : (l.drafts.update p f hf).get? d = some r')
    (h : ∀ r, l.drafts.get? d = some r → p r → DraftMove l r (f r)) :
    ∃ r, l.drafts.get? d = some r ∧ DraftMove l r r' := by
  rw [Table.get?_update, Option.map_eq_some_iff] at hr'
  obtain ⟨r, hr, rfl⟩ := hr'
  refine ⟨r, hr, ?_⟩
  split_ifs with hp
  · exact h r hr hp
  · exact .refl l r

theorem draft_step (h : Step env lawful κ l l') {d : DraftId} {r' : OperationDraft}
    (hr' : l'.drafts.get? d = some r') : (∃ r, l.drafts.get? d = some r ∧ DraftMove l r r') ∨
      l.drafts.get? d = none ∧ r'.planId = none ∧ (r'.status = .pending → r'.paths ≠ []) := by
  by_cases hκ : κ ∈ draftKinds
  · cases h with
    | @openDraft _ d₀ _ _ _ _ hdraft hpending =>
      simp only [settleReview, fillDraft, Ledger.updateDraft] at hr'
      refine .inl (drafts_update (l := l) hr' fun r hr hd => ?_)
      have hd₀ : d = d₀ := (Table.key_of_get? hr).symm.trans hd
      rw [hd₀, hdraft] at hr
      cases hr
      exact ⟨rfl, Nat.le_succ _, .inl rfl, fun _ => hpending⟩
    | dropDraft =>
      simp only [closeResolvedDraft] at hr'
      refine .inl (drafts_update (l := l) hr' fun r _ hd => ?_)
      refine ⟨rfl, Nat.le_succ _, .inl rfl, fun hs => ?_⟩
      dsimp only at hs
      split_ifs at hs
    | @linkDraft _ draft _ _ _ _ hlinks =>
      simp only [Ledger.updateDraft] at hr'
      refine .inl (drafts_update (l := l) hr' fun r hr hd => ?_)
      have hd₀ : d = draft.id := (Table.key_of_get? hr).symm.trans hd
      rw [hd₀, hlinks.found] at hr
      cases hr
      exact ⟨rfl, Nat.le_succ _, .inr ⟨Nat.lt_succ_self _, hlinks.previous⟩, id⟩
    | newDraft hins hstatus hunlinked =>
      rw [Table.get?_insert hins] at hr'
      split_ifs at hr' with hd
      · cases hr'
        refine .inr ⟨hd ▸ Table.get?_of_insert hins, hunlinked, fun hs => ?_⟩
        rcases hstatus with ⟨hready, _⟩ | ⟨_, hpaths⟩
        · rw [hready] at hs
          cases hs
        · exact hpaths
      · exact .inl ⟨r', hr', .refl l r'⟩
    | openTask | clearDrafts =>
      simp only [Ledger.updateDraft] at hr'
      exact .inl (drafts_update (l := l) hr' fun r _ _ => ⟨rfl, le_rfl, .inl rfl, id⟩)
    | closeDraft =>
      simp only [Ledger.updateDraft] at hr'
      refine .inl (drafts_update (l := l) hr' fun r _ _ => ?_)
      exact ⟨rfl, Nat.le_succ _, .inl rfl, by simp⟩
    | finalize =>
      simp only [finalizePlan, applyDrafts, Ledger.appendEvent] at hr'
      refine .inl (drafts_update (l := l) hr' fun r _ _ => ?_)
      exact ⟨rfl, le_rfl, .inl rfl, by simp⟩
    | _ => simp [draftKinds] at hκ
  · rw [drafts_eq h hκ] at hr'
    exact .inl ⟨r', hr', .refl l r'⟩

/-- A draft that waits for its read scope has files to read. -/
def Scoped (l : Ledger) : Prop :=
  ∀ d r, l.drafts.get? d = some r → r.status = .pending → r.paths ≠ []

theorem Scoped.step (hs : Scoped l) (h : Step env lawful κ l l') : Scoped l' := by
  intro d r' hr' hpending
  rcases draft_step h hr' with ⟨r, hr, hmove⟩ | ⟨_, _, hpaths⟩
  · have hcore : r'.paths = r.paths := congrArg DraftCore.paths hmove.core
    rw [hcore]
    exact hs d r hr (hmove.pending hpending)
  · exact hpaths hpending

end NyanyaAgent.Invariants
