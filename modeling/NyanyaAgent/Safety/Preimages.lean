import NyanyaAgent.Safety.LedgerHistory
import NyanyaAgent.Safety.PlanLifecycle

/-!
# The preimages of applied plans

A plan has its journal from the admission of its apply on: for every change the bytes
that stood there, with the hash that the plan was reviewed with. Nothing rewrites them.
-/
namespace NyanyaAgent.Safety
open NyanyaAgent.Schema NyanyaAgent.Relational NyanyaAgent.Operations NyanyaAgent.Plans
open NyanyaAgent.Drafts NyanyaAgent.Lifecycle NyanyaAgent.Runs NyanyaAgent.Invariants
open NyanyaAgent.System

variable {env : Environment} {lawful : Prop} {κ : Kind} {l l' : Ledger} {w w' : World}

/-- The journal entry from which a change can be undone. -/
structure Preimage (env : Environment) (c : PlannedChange) (j : JournalEntry) : Prop where
  path : j.path = c.path
  beforeHash : j.beforeHash = c.beforeHash
  afterHash : j.afterHash = c.afterHash
  content : digest env j.beforeContent = c.beforeHash

/-- The plans that started to be applied are the ones with a journal, and it is complete. -/
structure Journaled (env : Environment) (l : Ledger) : Prop where
  complete : ∀ p r, l.plans.get? p = some r → Started r.status →
    ∀ i c, r.changes[i]? = some c → ∃ j, l.journal.get? (p, i) = some j ∧ Preimage env c j
  started : ∀ p i j, l.journal.get? (p, i) = some j →
    ∃ r, l.plans.get? p = some r ∧ Started r.status ∧ i < r.changes.length

/-- An entry changes only by the mark that its change is done. -/
def EntryKept (j j' : JournalEntry) : Prop :=
  j' = { j with state := j'.state } ∧ (j.state = .applied → j'.state = .applied)

theorem EntryKept.refl (j : JournalEntry) : EntryKept j j := ⟨rfl, id⟩

theorem EntryKept.trans (j₁ j₂ j₃ : JournalEntry) (h₁ : EntryKept j₁ j₂) (h₂ : EntryKept j₂ j₃) :
    EntryKept j₁ j₃ := by
  refine ⟨?_, fun h => h₂.2 (h₁.2 h)⟩
  rw [h₂.1, h₁.1]

theorem Preimage.kept {c : PlannedChange} {j j' : JournalEntry} (h : Preimage env c j)
    (hj : EntryKept j j') : Preimage env c j' := by
  rw [hj.1]
  exact ⟨h.path, h.beforeHash, h.afterHash, h.content⟩

theorem journal_eq (h : Step env lawful κ l l') (hκ : κ ≠ .admission ∧ κ ≠ .mark) :
    l'.journal = l.journal := by
  cases h with
  | aside h | bind h | deliver h => exact h.journal
  | retire =>
    unfold retireImported
    split <;> rfl
  | enter =>
    simp only [upsertTask]
    split <;> rfl
  | completeParent =>
    unfold completeParent
    split
    · split_ifs <;> rfl
    · rfl
  | @interrupt _ k t => cases t.currentExecutionId <;> rfl
  | closeReview =>
    dsimp only
    split_ifs <;> rfl
  | admission => exact absurd rfl hκ.1
  | mark => exact absurd rfl hκ.2
  | _ => rfl

/-- Only the admission of an apply starts a plan. -/
theorem started_of_planMove {s s' : PlanStatus} (h : PlanMove κ s s') (hκ : κ ≠ .admission) :
    Started s' ↔ Started s := by
  cases h with
  | admission => exact absurd rfl hκ
  | revoke hs => rcases hs with rfl | rfl | rfl <;> simp [Started]
  | revokeOpen hs | expire hs | approve hs => rcases hs with rfl | rfl <;> simp [Started]
  | finalize | uncertain => simp [Started]
  | acknowledge hs hs' =>
    rcases hs with rfl | rfl | rfl <;> rcases hs' with rfl | rfl <;> simp [Started]

theorem planCore_changes {r r' : ChangePlan} (h : planCore r' = planCore r) :
    r'.changes = r.changes := by
  simpa [planCore] using congrArg ChangePlan.changes h

/-- A change that starts no plan leaves the journals complete. -/
theorem Journaled.step (hl : Journaled env l) (h : Step env True κ l l')
    (hκ : κ ≠ .admission ∧ κ ≠ .mark) : Journaled env l' := by
  have hjournal : l'.journal = l.journal := journal_eq h hκ
  constructor
  · intro p r' hr' hs i c hc
    rw [hjournal]
    rcases plan_step trivial h hr' with ⟨r, hr, hcore, hmove⟩ | ⟨_, _, hnew⟩
    · have hstarted : Started r.status := by
        rcases hmove with rfl | hmove
        · exact hs
        · exact (started_of_planMove hmove hκ.1).mp hs
      rw [planCore_changes hcore] at hc
      exact hl.complete p r hr hstarted i c hc
    · rcases hnew with hnew | hnew <;> rw [hnew] at hs <;> simp [Started] at hs
  · intro p i j hj
    rw [hjournal] at hj
    obtain ⟨r, hr, hs, hi⟩ := hl.started p i j hj
    obtain ⟨r', hr', _⟩ := of_skeleton_plan ((Extends.step h).plan p _ (skeleton_plan hr))
    rcases plan_step trivial h hr' with ⟨r₀, hr₀, hcore, hmove⟩ | ⟨_, hnone, _⟩
    · rw [hr] at hr₀
      cases hr₀
      refine ⟨r', hr', ?_, by rwa [planCore_changes hcore]⟩
      rcases hmove with rfl | hmove
      · exact hs
      · exact (started_of_planMove hmove hκ.1).mpr hs
    · rw [hr] at hnone
      cases hnone

theorem journal_marked (p : PlanId) (i : ℕ) (l : Ledger) :
    Retained EntryKept l.journal (markJournal p i l).journal := by
  apply Retained.update (t := l.journal)
  · exact fun _ => rfl
  · exact EntryKept.refl
  · exact fun _ _ _ _ => ⟨rfl, fun _ => rfl⟩

theorem Journaled.mark (hl : Journaled env l) (p : PlanId) (i : ℕ) :
    Journaled env (markJournal p i l) := by
  constructor
  · intro q r hr hs k c hc
    obtain ⟨j, hj, hpre⟩ := hl.complete q r hr hs k c hc
    obtain ⟨j', hj', hkept⟩ := journal_marked p i l _ j hj
    exact ⟨j', hj', hpre.kept hkept⟩
  · intro q k j' hj'
    have hrow := (Table.get?_update l.journal (fun j => j.planId = p ∧ j.ordinal = i)
      (fun j => { j with state := .applied }) (fun _ => rfl) (q, k)).symm.trans hj'
    obtain ⟨j, hj, _⟩ := Option.map_eq_some_iff.mp hrow
    exact hl.started q k j hj

/-- What the admission writes, for the plan as it was reviewed. -/
theorem Journaled.admission {t : Workspace} {plan r : ChangePlan} {j : Table JournalEntry.key}
    (hl : Journaled env l) (hr : l.plans.get? plan.id = some r) (hs : r.status = .approved)
    (hchanges : plan.changes = r.changes)
    (hj : JournalWritten env t plan.id plan.changes 0 l.journal j) :
    Journaled env ({ l with journal := j }.updatePlan plan.id fun p => { p with status := .applying }) ∧
      Retained EntryKept l.journal j := by
  have hfree : ∀ i, l.journal.get? (plan.id, i) = none := by
    intro i
    by_contra hne
    obtain ⟨e, he⟩ := Option.ne_none_iff_exists'.mp hne
    obtain ⟨r₀, hr₀, hstarted, _⟩ := hl.started _ i e he
    rw [hr] at hr₀
    cases hr₀
    rw [hs] at hstarted
    simp [Started] at hstarted
  have hother : ∀ q i, q ≠ plan.id → j.get? (q, i) = l.journal.get? (q, i) :=
    fun q i hq => hj.kept q i (.inl hq)
  refine ⟨⟨?_, ?_⟩, ?_⟩
  · intro q r' hr' hstarted i c hc
    obtain ⟨r₀, hr₀, ⟨hq, rfl⟩ | ⟨rfl, rfl⟩⟩ := updatePlan_cases hr'
    · obtain ⟨e, he, hpre⟩ := hl.complete q _ hr₀ hstarted i c hc
      exact ⟨e, (hother q i hq).trans he, hpre⟩
    · have hrow : l.plans.get? plan.id = some r₀ := hr₀
      rw [hr] at hrow
      cases hrow
      rw [← hchanges] at hc
      obtain ⟨before, _, hdigest, hwritten⟩ := hj.written i c hc
      rw [Nat.zero_add] at hwritten
      exact ⟨_, hwritten, rfl, rfl, rfl, hdigest⟩
  · intro q i e he
    by_cases hq : q = plan.id
    · subst hq
      refine ⟨{ r with status := .applying }, ?_, .inl rfl, ?_⟩
      · rw [Ledger.updatePlan_get?]
        exact congrArg (Option.map _) hr
      · by_contra hlong
        rw [Nat.not_lt] at hlong
        have hkept := hj.kept plan.id i (.inr (.inr (by rw [Nat.zero_add, hchanges]; exact hlong)))
        rw [hfree i] at hkept
        exact absurd (he.symm.trans hkept) (by simp)
    · obtain ⟨r₀, hr₀, hstarted, hi⟩ := hl.started q i e ((hother q i hq).symm.trans he)
      exact ⟨r₀, (Ledger.updatePlan_get?_ne _ _ _ hq).trans hr₀, hstarted, hi⟩
  · rintro ⟨q, i⟩ e he
    have hq : q ≠ plan.id := by
      rintro rfl
      rw [hfree i] at he
      cases he
    exact ⟨e, (hother q i hq).trans he, .refl e⟩

theorem journal_action {a : Action} (hw : Consistent env w) (ha : Legal w a)
    (hl : Journaled env w.ledger) : Journaled env (step env w a).ledger ∧
      Retained EntryKept w.ledger.journal (step env w a).ledger.journal := by
  have hquiet : ∀ {l}, l = w.ledger → Journaled env l ∧ Retained EntryKept w.ledger.journal l.journal := by
    rintro _ rfl
    exact ⟨hl, .refl .refl _⟩
  cases a with
  | command c =>
    have hchain : Chain env True (commandKinds c) w.ledger (step env w (.command c)).ledger :=
      step_chain fun _ => hw.promise ha
    have hkinds : ∀ κ ∈ commandKinds c, κ ≠ .admission ∧ κ ≠ .mark := by
      intro κ hκ
      have hnot : κ ∉ applyKinds := commandKinds_apply hκ
      constructor <;> rintro rfl <;> simp [applyKinds] at hnot
    refine ⟨hchain.invariant (fun κ hκ _ _ hl h => hl.step h (hkinds κ hκ)) hl, ?_⟩
    refine hchain.relation (R := fun l l' => Retained EntryKept l.journal l'.journal) (I := fun _ => True)
      (fun _ => .refl .refl _) (fun _ _ _ => .trans .trans) (fun _ _ _ _ _ _ => trivial)
      (fun κ hκ _ _ _ h => .of_eq .refl (journal_eq h (hkinds κ hκ))) trivial
  | stepApply n chance =>
    rcases stepCall_cases env w n chance with h | ⟨call, hcall, h | ⟨_, l, t, s, _, hwrite, h⟩⟩
    · exact hquiet (by simp only [step, h])
    · exact hquiet (by simp only [step, h.2.2])
    · simp only [step, h]
      cases hwrite with
      | none hsame => exact hquiet hsame
      | mark _ _ heq =>
        rw [heq]
        exact ⟨hl.mark _ _, journal_marked _ _ _⟩
      | admission _ _ heligible _ hwritten heq =>
        obtain ⟨_, _, _, r, hr, hs, _⟩ := id heligible
        -- The call holds the plan that was reviewed.
        have hcore := (hw.calls call (List.mem_of_getElem? hcall)).plan
        have hskeleton := skeleton_plan (Option.mem_def.mp hr)
        rw [hcore] at hskeleton
        have hchanges : call.plan.changes = r.changes :=
          planCore_changes (Option.some.inj hskeleton)
        rw [heq]
        exact hl.admission hr hs hchanges hwritten
      | finalize _ _ heligible heq =>
        rw [heq]
        exact ⟨hl.step (.finalize heligible) (by simp), .refl .refl _⟩
      | uncertain hstage _ heq =>
        rw [heq]
        refine ⟨hl.step (.uncertain fun _ => ?_) (by simp), .refl .refl _⟩
        exact hw.promise (a := .stepApply n chance) ha call hcall hstage
  | startApply | crashApply =>
    simp only [step]
    split <;> exact hquiet rfl
  | tick | external => exact hquiet rfl

theorem Journaled.of_imported (h : ImportedLedger l) : Journaled env l where
  complete := fun p r hr => by
    rw [h.plans] at hr
    cases hr
  started := fun p i j hj => by
    rw [h.journal] at hj
    cases hj

theorem ReachableWorld.journaled (h : ReachableWorld env w) : Journaled env w.ledger := by
  have hboth : Consistent env w ∧ Journaled env w.ledger := by
    refine h.invariant (I := fun w => Consistent env w ∧ Journaled env w.ledger) ?_ ?_
    · exact fun w hw => ⟨.of_init hw, .of_imported hw.ledger⟩
    · exact fun w a hw ha => ⟨hw.1.step ha, (journal_action hw.1 ha hw.2).1⟩
  exact hboth.2

/-- In every reachable ledger a plan has journal entries exactly when it started to be applied,
and then one for each of its changes, with the bytes that the change was reviewed against; and
in every run from there an entry is never removed or rewritten, but for the mark that its
change is done, which stays. -/
theorem preimages_kept {as : List Action} (h : ReachableWorld env w)
    (hrun : Run (step env) Legal w as w') :
    Journaled env w.ledger ∧ Retained EntryKept w.ledger.journal w'.ledger.journal := by
  refine ⟨ReachableWorld.journaled h, ?_⟩
  refine hrun.relation (R := fun w w' => Retained EntryKept w.ledger.journal w'.ledger.journal)
    (I := fun w => Consistent env w ∧ Journaled env w.ledger) (fun _ => .refl .refl _)
    (fun _ _ _ => .trans .trans) (fun w a hw ha => ⟨hw.1.step ha, (journal_action hw.1 ha hw.2).1⟩)
    (fun w a hw ha => (journal_action hw.1 ha hw.2).2) ⟨h.consistent, ReachableWorld.journaled h⟩

theorem preimages_kept_plain : ∃ j r, plainApplying.ledger.journal.get? (5, 0) = some j ∧
    plainApplying.ledger.plans.get? 5 = some r ∧ Started r.status ∧ 0 < r.changes.length := by
  have hentry : (plainApplying.ledger.journal.get? (5, 0)).isSome = true := by decide +kernel
  obtain ⟨j, hj⟩ := Option.isSome_iff_exists.mp hentry
  obtain ⟨r, hr, hs, hlen⟩ := (preimages_kept (plainPlanned_reachable.run plainApply_run)
    (.nil plainApplying)).1.started 5 0 j hj
  exact ⟨j, r, hj, hr, hs, hlen⟩

end NyanyaAgent.Safety
