import NyanyaAgent.Safety.LedgerHistory

/-!
# The versions of drafts

A draft's revision is the version of its status and plan, its status follows one path,
and the files copied for it stay as they were copied until it is closed.
-/
namespace NyanyaAgent.Safety
open NyanyaAgent.Schema NyanyaAgent.Relational NyanyaAgent.Operations NyanyaAgent.Plans
open NyanyaAgent.Drafts NyanyaAgent.Lifecycle NyanyaAgent.Runs NyanyaAgent.Invariants
open NyanyaAgent.System

variable {env : Environment} {κ : Kind} {l l' : Ledger} {w w' : World}

/-- A draft that nobody continues. -/
def DraftSettled (s : DraftStatus) : Prop := s = .closed ∨ s = .applied

/-- The statuses a draft may have later. -/
def laterStatuses : DraftStatus → List DraftStatus
  | .pending => [.pending, .ready, .applied, .closed]
  | .ready => [.ready, .applied, .closed]
  | .applied => [.applied]
  | .closed => [.closed]

/-- The conversation and the scope that a draft was created for. -/
structure SameDraftScope (r r' : OperationDraft) : Prop where
  core : draftCore r' = draftCore r
  session : r'.sessionId = r.sessionId
  generation : r'.generation = r.generation
  scopeHash : r'.scopeHash = r.scopeHash
  created : r'.createdAt = r.createdAt

/-- What a draft keeps. An applied draft is the one that changed under its revision. -/
structure DraftKept (r r' : OperationDraft) : Prop where
  scope : SameDraftScope r r'
  status : r'.status ∈ laterStatuses r.status
  revision : r.revision ≤ r'.revision
  version : r'.revision = r.revision → r'.planId = r.planId ∧
    (r'.status = r.status ∨ r.status = .ready ∧ r'.status = .applied)
  settled : DraftSettled r.status → r'.revision = r.revision
  copied : r.status ≠ .pending → r'.snapshot = r.snapshot ∨ r'.snapshot = [] ∧ DraftSettled r'.status

theorem mem_laterStatuses_self (s : DraftStatus) : s ∈ laterStatuses s := by
  cases s <;> simp [laterStatuses]

theorem laterStatuses_trans {s₁ s₂ s₃ : DraftStatus} (h₁ : s₂ ∈ laterStatuses s₁)
    (h₂ : s₃ ∈ laterStatuses s₂) : s₃ ∈ laterStatuses s₁ := by
  revert h₁ h₂
  cases s₁ <;> cases s₂ <;> cases s₃ <;> simp [laterStatuses]

theorem DraftSettled.later {s s' : DraftStatus} (h : DraftSettled s) (h' : s' ∈ laterStatuses s) : s' = s := by
  rcases h with rfl | rfl <;> simpa [laterStatuses] using h'

theorem later_not_pending {s s' : DraftStatus} (h : s ≠ .pending) (h' : s' ∈ laterStatuses s) :
    s' ≠ .pending := by
  revert h h'
  cases s <;> cases s' <;> simp [laterStatuses]

theorem SameDraftScope.refl (r : OperationDraft) : SameDraftScope r r := ⟨rfl, rfl, rfl, rfl, rfl⟩

namespace DraftKept
variable {r r' : OperationDraft}

theorem refl (r : OperationDraft) : DraftKept r r :=
  ⟨.refl r, mem_laterStatuses_self _, le_rfl, fun _ => ⟨rfl, .inl rfl⟩, fun _ => rfl, fun _ => .inl rfl⟩

theorem trans (r₁ r₂ r₃ : OperationDraft) (h₁ : DraftKept r₁ r₂) (h₂ : DraftKept r₂ r₃) :
    DraftKept r₁ r₃ where
  scope := ⟨h₂.scope.core.trans h₁.scope.core, h₂.scope.session.trans h₁.scope.session,
    h₂.scope.generation.trans h₁.scope.generation, h₂.scope.scopeHash.trans h₁.scope.scopeHash,
    h₂.scope.created.trans h₁.scope.created⟩
  status := laterStatuses_trans h₁.status h₂.status
  revision := h₁.revision.trans h₂.revision
  version := fun heq => by
    have hsame₂ : r₂.revision = r₁.revision :=
      le_antisymm (heq ▸ h₂.revision) h₁.revision
    obtain ⟨hplan₁, hs₁⟩ := h₁.version hsame₂
    obtain ⟨hplan₂, hs₂⟩ := h₂.version (heq.trans hsame₂.symm)
    refine ⟨hplan₂.trans hplan₁, ?_⟩
    rcases hs₁ with hs₁ | ⟨hready, happlied⟩
    · rw [← hs₁]
      exact hs₂
    · have hstay : r₃.status = r₂.status := DraftSettled.later (.inr happlied) h₂.status
      exact .inr ⟨hready, hstay.trans happlied⟩
  settled := fun hs => by
    have hstay : r₂.status = r₁.status := hs.later h₁.status
    rw [h₂.settled (hstay ▸ hs), h₁.settled hs]
  copied := fun hs => by
    rcases h₂.copied (later_not_pending hs h₁.status) with h | h
    · rcases h₁.copied hs with h' | ⟨h', hsettled⟩
      · exact .inl (h.trans h')
      · exact .inr ⟨h.trans h', (hsettled.later h₂.status).symm ▸ hsettled⟩
    · exact .inr h

/-- A draft that leaves its status for a later one under a new revision. -/
theorem closed (hscope : SameDraftScope r r') (hs : ¬ DraftSettled r.status) (hs' : DraftSettled r'.status)
    (hrevision : r'.revision = r.revision + 1) (hcopied : r'.snapshot = r.snapshot) :
    DraftKept r r' where
  scope := hscope
  status := by
    revert hs hs'
    cases r.status <;> cases r'.status <;> simp [DraftSettled, laterStatuses]
  revision := by omega
  version := fun h => by omega
  settled := fun h => absurd h hs
  copied := fun _ => .inl hcopied

end DraftKept

section Changes
variable {lawful : Prop}

/-- Every change but a closing or a clearing, which the commands that make them account for. -/
theorem drafts_step (h : Step env lawful κ l l') (hclose : κ ≠ .closeDraft)
    (hclear : κ ≠ .clearDrafts) : Retained DraftKept l.drafts l'.drafts := by
  by_cases hκ : κ ∈ draftKinds
  · cases h with
    | @openDraft _ d r t snapshot now hdraft hpending =>
      apply Retained.update (t := l.drafts)
      · exact fun _ => rfl
      · exact DraftKept.refl
      · intro e s hs hid
        have he : e = d := (Table.key_of_get? hs).symm.trans hid
        rw [he, hdraft] at hs
        cases hs
        exact ⟨⟨rfl, rfl, rfl, rfl, rfl⟩, by rw [hpending]; simp [laterStatuses], Nat.le_succ _,
          fun h => absurd h (Nat.succ_ne_self _), fun h => by rw [hpending] at h; simp [DraftSettled] at h,
          fun h => absurd hpending h⟩
    | dropDraft =>
      apply Retained.update (t := l.drafts)
      · exact fun _ => rfl
      · exact DraftKept.refl
      · intro _ r _ hready
        refine .closed ⟨rfl, rfl, rfl, rfl, rfl⟩ (by rw [hready.2]; simp [DraftSettled]) ?_ rfl rfl
        dsimp only
        split_ifs <;> simp [DraftSettled]
    | @linkDraft _ draft row k planId now hlinks =>
      apply Retained.update (t := l.drafts)
      · exact fun _ => rfl
      · exact DraftKept.refl
      · intro e s hs hid
        have he : e = draft.id := (Table.key_of_get? hs).symm.trans hid
        rw [he, hlinks.found] at hs
        cases hs
        exact ⟨⟨rfl, rfl, rfl, rfl, rfl⟩, mem_laterStatuses_self _, Nat.le_succ _,
          fun h => absurd h (Nat.succ_ne_self _),
          fun h => by rw [hlinks.ready] at h; simp [DraftSettled] at h, fun _ => .inl rfl⟩
    | newDraft hins => exact .insert DraftKept.refl hins
    | openTask =>
      apply Retained.update (t := l.drafts)
      · exact fun _ => rfl
      · exact DraftKept.refl
      · exact fun _ r _ _ => ⟨⟨rfl, rfl, rfl, rfl, rfl⟩, mem_laterStatuses_self _, le_rfl, fun _ => ⟨rfl, .inl rfl⟩,
          fun _ => rfl, fun _ => .inl rfl⟩
    | closeDraft => exact absurd rfl hclose
    | clearDrafts => exact absurd rfl hclear
    | finalize =>
      apply Retained.update (t := l.drafts)
      · exact fun _ => rfl
      · exact DraftKept.refl
      · intro _ r _ hready
        exact ⟨⟨rfl, rfl, rfl, rfl, rfl⟩, by rw [hready.2]; simp [laterStatuses], le_rfl,
          fun _ => ⟨rfl, .inr ⟨hready.2, rfl⟩⟩,
          fun h => by simp [hready.2, DraftSettled] at h, fun _ => .inl rfl⟩
    | _ => simp [draftKinds] at hκ
  · exact .of_eq DraftKept.refl (drafts_eq h hκ)

theorem drafts_chain {ks : List Kind} (h : Chain env lawful ks l l')
    (hks : ∀ κ ∈ ks, κ ≠ .closeDraft ∧ κ ≠ .clearDrafts) : Retained DraftKept l.drafts l'.drafts :=
  h.relation (R := fun l l' => Retained DraftKept l.drafts l'.drafts) (I := fun _ => True)
    (fun _ => .refl .refl _) (fun _ _ _ => .trans .trans) (fun _ _ _ _ _ _ => trivial)
    (fun κ hκ _ _ _ h => drafts_step h (hks κ hκ).1 (hks κ hκ).2) trivial

theorem drafts_closed {d : DraftId} {now : Time} {r : OperationDraft}
    (hr : l.drafts.get? d = some r) (hs : ¬ DraftSettled r.status) :
    Retained DraftKept l.drafts (l.updateDraft d fun r =>
      { r with status := .closed, updatedAt := now, revision := r.revision + 1 }).drafts := by
  apply Retained.update (t := l.drafts)
  · exact fun _ => rfl
  · exact DraftKept.refl
  · intro e s hse hid
    have he : e = d := (Table.key_of_get? hse).symm.trans hid
    rw [he, hr] at hse
    cases hse
    exact .closed ⟨rfl, rfl, rfl, rfl, rfl⟩ hs (.inl rfl) rfl rfl

theorem closeReviews_drafts (now : Time) (rows : List AgentTask) (l : Ledger) :
    (rows.foldl (closeReview now) l).drafts = l.drafts := by
  induction rows generalizing l with
  | nil => rfl
  | cons t rows ih =>
    rw [List.foldl_cons, ih, closeReview]
    split_ifs <;> rfl

theorem close_drafts {reg : Registry} {d : DraftId} {owner : String} {key : Option String}
    {seen : ℕ} {now : Time} {u : Unit} (h : Tx.Ran (close env reg d owner key seen now) l u l') :
    Retained DraftKept l.drafts l'.drafts := by
  unfold close at h
  simp only [Tx.ran_select_bind, Tx.ran_demand_bind, Tx.ran_lift_bind] at h
  obtain ⟨draft, hdraft, root, _, h⟩ := h
  rw [Tx.ran_bind] at h
  obtain ⟨_, l₁, hscope, h⟩ := h
  rw [scopeConn_same hscope] at h
  simp only [Tx.ran_require_bind, Tx.ran_select_bind] at h
  obtain ⟨_, _, h⟩ := h
  split_ifs at h with hsettled
  · rw [(Tx.ran_pure.mp h).2]
    exact .refl .refl _
  simp only [Tx.ran_select_bind, Tx.ran_require_bind, Tx.ran_write_bind, Tx.ran_write] at h
  obtain ⟨_, rfl⟩ := h
  -- The revocation and the reviews leave the drafts alone.
  generalize hbefore : List.foldl (closeReview now) _ _ = before
  have hsame : before.drafts = l.drafts := by
    rw [← hbefore, closeReviews_drafts]
    split
    · split_ifs <;> rfl
    · rfl
  rw [← hsame] at hdraft ⊢
  exact drafts_closed hdraft hsettled

theorem expireDraft_drafts {now : Time} {x : OperationDraft} (hx : l.drafts.get? x.id = some x)
    (hs : x.status = .pending) : Retained DraftKept l.drafts (expireDraft now l x).drafts := by
  unfold expireDraft
  split_ifs
  · exact drafts_closed (l := expireReadScope x.sourceTaskId now
      (settleReview x.sourceTaskId false now l)) hx (by rw [hs]; simp [DraftSettled])
  · exact .refl .refl _

theorem expireDraft_get?_ne {now : Time} {x : OperationDraft} {d : DraftId} (hd : d ≠ x.id) :
    (expireDraft now l x).drafts.get? d = l.drafts.get? d := by
  unfold expireDraft
  split_ifs
  · exact Ledger.updateDraft_get?_ne _ _ _ hd
  · rfl

/-- The expiry loop closes each of its drafts as it found it. -/
theorem expireDrafts_drafts {now : Time} {rows : List OperationDraft}
    (hdistinct : rows.Pairwise fun x y => x.id ≠ y.id)
    (h : ∀ x ∈ rows, l.drafts.get? x.id = some x ∧ x.status = .pending) :
    Retained DraftKept l.drafts (rows.foldl (expireDraft now) l).drafts := by
  induction rows generalizing l with
  | nil => exact .refl .refl _
  | cons x rows ih =>
    rw [List.pairwise_cons] at hdistinct
    obtain ⟨hx, hs⟩ := h x List.mem_cons_self
    refine (expireDraft_drafts hx hs).trans .trans (ih hdistinct.2 fun y hy => ?_)
    obtain ⟨hrow, hpending⟩ := h y (List.mem_cons_of_mem _ hy)
    exact ⟨(expireDraft_get?_ne (hdistinct.1 y hy).symm).trans hrow, hpending⟩

theorem drafts_cleared {cleared : List DraftId}
    (h : ∀ d ∈ cleared, ∃ r, l.drafts.get? d = some r ∧ DraftSettled r.status) :
    Retained DraftKept l.drafts (l.drafts.update (fun d => d.id ∈ cleared)
      (fun d => { d with snapshot := [] }) OperationDraft.id_cleared) := by
  refine .update _ .refl fun d r hr hd => ?_
  obtain ⟨r₀, hr₀, hs⟩ := h _ hd
  rw [Table.key_of_get? hr, hr] at hr₀
  cases hr₀
  exact ⟨⟨rfl, rfl, rfl, rfl, rfl⟩, mem_laterStatuses_self _, le_rfl, fun _ => ⟨rfl, .inl rfl⟩, fun _ => rfl,
    fun _ => .inr ⟨rfl, hs⟩⟩

theorem maintain_drafts (now : Time) (l : Ledger) :
    Retained DraftKept l.drafts (maintain now l).drafts := by
  have hexpired : Retained DraftKept l.drafts
      (((l.drafts.rows.filter fun d => d.status = .pending ∧ d.expiresAt < now).take 100).foldl
        (expireDraft now) l).drafts := by
    refine expireDrafts_drafts ?_ fun x hx => ?_
    · exact ((List.pairwise_map.mp l.drafts.nodup).filter _).take
    · obtain ⟨hrow, hpending⟩ := List.mem_filter.mp (List.mem_of_mem_take hx)
      exact ⟨Table.mem_rows_iff.mp hrow, (of_decide_eq_true hpending).1⟩
  refine hexpired.trans .trans (drafts_cleared fun d hd => ?_)
  obtain ⟨r, hr, rfl⟩ := List.mem_map.mp hd
  obtain ⟨hrow, hsettled⟩ := List.mem_filter.mp (List.mem_of_mem_take hr)
  exact ⟨r, Table.mem_rows_iff.mp hrow, (of_decide_eq_true hsettled).1⟩

end Changes

theorem drafts_action (w : World) (a : Action) :
    Retained DraftKept w.ledger.drafts (step env w a).ledger.drafts := by
  have hchain : Chain env False (actionKinds a) w.ledger (step env w a).ledger :=
    step_chain False.elim
  cases a with
  | command c =>
    rcases step_command env w c with ⟨record, l', hran, hstep⟩ | ⟨_, hstep⟩
    · rw [hstep] at hchain ⊢
      cases c
      case closeDraft =>
        simp only [commandOp, ran_dropped] at hran
        exact close_drafts hran.2.choose_spec
      case maintain =>
        simp only [commandOp, Tx.ran_write_bind, Tx.ran_pure] at hran
        rw [hran.2]
        exact maintain_drafts _ _
      case decide p owner hash revoke =>
        refine drafts_chain hchain ?_
        cases revoke <;> simp [actionKinds, commandKinds, settleKinds]
      all_goals exact drafts_chain hchain (by simp only [actionKinds, commandKinds]; decide)
    · rw [hstep]
      exact .refl .refl _
  | stepApply | tick | external | startApply | crashApply =>
    exact drafts_chain hchain (by simp only [actionKinds]; decide)

/-- In every run, from any ledger: a draft keeps its scope and its conversation; its status goes
from waiting to ready to applied or closed and never back; its revision never falls, names one
plan and one status but for the apply of a ready draft, and stays when the draft is settled; and
once the scope was approved the copied files stay as they were until they are cleared from the
settled draft. -/
theorem drafts_kept {as : List Action} (hrun : Run (step env) Legal w as w') :
    Retained DraftKept w.ledger.drafts w'.ledger.drafts :=
  hrun.relation (R := fun w w' => Retained DraftKept w.ledger.drafts w'.ledger.drafts)
    (I := fun _ => True) (fun _ => .refl .refl _) (fun _ _ _ => .trans .trans)
    (fun _ _ _ _ => trivial) (fun w a _ _ => drafts_action w a) trivial

/-- The claimed request of the plain run opens a draft with a file to read. -/
def draftedWorld : World :=
  step plainEnvironment plainRunning
    (.command (.createDraft plainRegistry ⟨7, 1, 9, { workspace := "/w" }, "owner"⟩ ["a"] 6))

theorem plainDrafted_run : Run (step plainEnvironment) Legal draftedWorld [.tick 10, .command .maintain]
    (step plainEnvironment (step plainEnvironment draftedWorld (.tick 10)) (.command .maintain)) :=
  .cons trivial (.cons trivial (.nil _))

theorem drafts_kept_plain : ∃ r r', draftedWorld.ledger.drafts.get? 6 = some r ∧
    (step plainEnvironment (step plainEnvironment draftedWorld (.tick 10))
      (.command .maintain)).ledger.drafts.get? 6 = some r' ∧ DraftKept r r' := by
  have hdraft : (draftedWorld.ledger.drafts.get? 6).isSome = true := by decide +kernel
  obtain ⟨r, hr⟩ := Option.isSome_iff_exists.mp hdraft
  obtain ⟨r', hr', hkept⟩ := drafts_kept plainDrafted_run 6 r hr
  exact ⟨r, r', hr, hr', hkept⟩

end NyanyaAgent.Safety
