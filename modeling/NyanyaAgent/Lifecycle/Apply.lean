import NyanyaAgent.Lifecycle.Steps

/-!
# The changes of an apply

What one step of `apply` writes to the ledger: the journal at admission, a journal
mark, the final record, or the record of an uncertain outcome.
-/
namespace NyanyaAgent.Lifecycle
open NyanyaAgent.Schema NyanyaAgent.Relational NyanyaAgent.Operations NyanyaAgent.Plans

variable {env : Environment} {lawful : Prop} {l l' : Ledger}

theorem mapError_eq_ok {ε ε' α : Type} {f : ε → ε'} {r : Except ε α} {a : α} :
    r.mapError f = .ok a ↔ r = .ok a := by
  cases r <;> simp [Except.mapError]

namespace JournalWritten
variable {t : Workspace} {p : PlanId} {c : PlannedChange} {rest : List PlannedChange} {first : ℕ}
  {j j₁ j' : Table JournalEntry.key} {before : Option Bytes}

theorem nil (j : Table JournalEntry.key) : JournalWritten env t p [] first j j :=
  ⟨fun i c h => by simp at h, fun _ _ _ => rfl⟩

theorem cons (hread : readPath t c.path = .ok before) (hdigest : digest env before = c.beforeHash)
    (hins : j.insert { planId := p, ordinal := first, path := c.path, beforeHash := c.beforeHash
                       afterHash := c.afterHash, beforeContent := before } = some j₁)
    (h : JournalWritten env t p rest (first + 1) j₁ j') :
    JournalWritten env t p (c :: rest) first j j' := by
  constructor
  · intro i d hd
    cases i with
    | zero =>
      cases hd
      refine ⟨before, hread, hdigest, ?_⟩
      rw [Nat.add_zero, h.kept p first (by omega), Table.get?_insert hins]
      exact if_pos rfl
    | succ i =>
      have hi := h.written i d hd
      rwa [show first + 1 + i = first + (i + 1) by omega] at hi
  · intro q i hq
    rw [List.length_cons] at hq
    have hrest : q ≠ p ∨ i < first + 1 ∨ first + 1 + rest.length ≤ i :=
      hq.imp_right fun hi => by omega
    rw [h.kept q i hrest, Table.get?_insert hins]
    refine if_neg fun hk => ?_
    obtain ⟨hqp, hi⟩ := Prod.mk.inj hk
    dsimp only at hqp hi
    rcases hq with hq | hq
    · exact hq hqp
    · omega

end JournalWritten

theorem journalChanges_written {t : Workspace} {p : PlanId} {changes : List PlannedChange}
    {first : ℕ} {u : Unit} (h : Tx.Ran (journalChanges env t p changes first) l u l') :
    ∃ j, l' = { l with journal := j } ∧ JournalWritten env t p changes first l.journal j := by
  induction changes generalizing first l with
  | nil =>
    rw [(Tx.ran_pure.mp h).2]
    exact ⟨l.journal, rfl, .nil _⟩
  | cons c rest ih =>
    unfold journalChanges insertJournal at h
    simp only [Tx.ran_lift_bind, Tx.ran_require_bind, Tx.ran_attempt_bind, Option.map_eq_some_iff,
      mapError_eq_ok] at h
    obtain ⟨before, hread, hdigest, _, ⟨j₁, hins, rfl⟩, h⟩ := h
    obtain ⟨j', rfl, hj⟩ := ih h
    exact ⟨j', rfl, .cons hread hdigest hins hj⟩

/-- What the admission transaction has checked, and what it wrote. -/
theorem admitPlan_checks {t : Workspace} {call : ApplyCall} {cancelled : Bool} {now : Time}
    {u : Unit} (h : Tx.Ran (admitPlan env t call cancelled now) l u l') :
    Eligible l call .approved now ∧ planHash env call.plan.changes = call.plan.planHash ∧
      ¬ EarlierApply l call.root call.plan.id ∧
      ∃ j, JournalWritten env t call.plan.id call.plan.changes 0 l.journal j ∧
        l' = { l with journal := j }.updatePlan call.plan.id fun p => { p with status := .applying } := by
  unfold admitPlan at h
  simp only [Tx.ran_select_bind, Tx.ran_require_bind, decide_eq_true_eq,
    decide_eq_false_iff_not] at h
  obtain ⟨⟨_, heligible⟩, hhash, halone, h⟩ := h
  rw [Tx.ran_bind] at h
  obtain ⟨_, l₁, hj, h⟩ := h
  obtain ⟨j, rfl, hwritten⟩ := journalChanges_written hj
  rw [Tx.ran_write] at h
  exact ⟨heligible, hhash, halone, j, hwritten, h⟩

/-- The kinds of changes an apply makes. -/
def applyKinds : List Kind := [.admission, .mark, .finalize, .uncertain]

/-- What one step of an apply wrote, by the stage it was taken in. -/
inductive ApplyWrite (env : Environment) (call : ApplyCall) (t : Workspace) (l l' : Ledger)
    (s : Stage) : Prop
  | none (same : l' = l)
  | admission (stage : call.stage = .admission) (next : s = .item 0) {now : Time}
      {j : Table JournalEntry.key} (eligible : Eligible l call .approved now)
      (alone : ¬ EarlierApply l call.root call.plan.id)
      (written : JournalWritten env t call.plan.id call.plan.changes 0 l.journal j)
      (eq : l' = { l with journal := j }.updatePlan call.plan.id fun p => { p with status := .applying })
  | mark {i : ℕ} (stage : call.stage = .mark i) (next : s = .item (i + 1))
      (eq : l' = markJournal call.plan.id i l)
  | finalize (stage : call.stage = .finalize) (next : s = .returned) {now : Time}
      (eligible : Eligible l call .applying now) (eq : l' = finalizePlan call now l)
  | uncertain (stage : call.stage = .failure) (next : s = .raised)
      (eq : l' = recordUncertain call.plan.id l)

theorem applyStep_writes (chance : Chance) (now : Time) (call : ApplyCall) (l : Ledger)
    (t : Workspace) : ApplyWrite env call t l (applyStep env chance now call l t).1
      (applyStep env chance now call l t).2.2 := by
  unfold applyStep
  split <;> try exact .none rfl
  · next hs =>
    split
    · next l₁ hcommit =>
      obtain ⟨heligible, _, halone, j, hj, rfl⟩ := admitPlan_checks (Tx.commit_ok.mp hcommit)
      exact .admission hs rfl heligible halone hj rfl
    · exact .none rfl
  · split
    · exact .none rfl
    · split_ifs <;> exact .none rfl
  · next i hs =>
    split_ifs
    · exact .none rfl
    · exact .mark hs rfl rfl
  · next hs =>
    split_ifs with h
    · exact .finalize hs rfl h.1.2 rfl
    · exact .none rfl
  · next hs =>
    split_ifs
    · exact .none rfl
    · exact .uncertain hs rfl rfl

/-- A step of an apply makes at most one change. -/
theorem ApplyWrite.step {call : ApplyCall} {t : Workspace} {s : Stage}
    (hp : lawful → call.stage = .failure →
      ∃ plan, l.plans.get? call.plan.id = some plan ∧ plan.status = .applying)
    (h : ApplyWrite env call t l l' s) : l' = l ∨ ∃ κ ∈ applyKinds, Step env lawful κ l l' := by
  cases h with
  | none same => exact .inl same
  | admission _ _ heligible halone hj eq =>
    exact .inr ⟨.admission, by simp [applyKinds], eq ▸ .admission heligible halone hj⟩
  | mark _ _ eq => exact .inr ⟨.mark, by simp [applyKinds], eq ▸ .mark⟩
  | finalize _ _ heligible eq => exact .inr ⟨.finalize, by simp [applyKinds], eq ▸ .finalize heligible⟩
  | uncertain stage _ eq =>
    exact .inr ⟨.uncertain, by simp [applyKinds], eq ▸ .uncertain fun hl => hp hl stage⟩

theorem ApplyWrite.chain {call : ApplyCall} {t : Workspace} {s : Stage}
    (hp : lawful → call.stage = .failure →
      ∃ plan, l.plans.get? call.plan.id = some plan ∧ plan.status = .applying)
    (h : ApplyWrite env call t l l' s) : Chain env lawful applyKinds l l' := by
  rcases h.step hp with rfl | ⟨κ, hκ, hstep⟩
  · exact .refl
  · exact .of_step hstep hκ

end NyanyaAgent.Lifecycle
