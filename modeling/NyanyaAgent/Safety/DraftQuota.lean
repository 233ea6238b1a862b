import NyanyaAgent.Runs.Window
import NyanyaAgent.System.Invariant

/-!
# The quota of open drafts

No owner has more open drafts than the bound, and which drafts past their time the
maintenance closes: those whose source still waits for approval, unless too many others
stand before them.
-/
namespace NyanyaAgent.Safety
open NyanyaAgent.Schema NyanyaAgent.Relational NyanyaAgent.Operations NyanyaAgent.Plans
open NyanyaAgent.Drafts NyanyaAgent.Lifecycle NyanyaAgent.Runs NyanyaAgent.Invariants
open NyanyaAgent.System NyanyaAgent.Memory

variable {env : Environment} {lawful : Prop} {κ : Kind} {l l' : Ledger} {now : Time}

/-- A change other than a new draft leaves no more open drafts than there were. -/
theorem openDrafts_step (h : Step env lawful κ l l') (hκ : κ ≠ .newDraft) (owner : String) :
    openDrafts l' owner ≤ openDrafts l owner := by
  unfold openDrafts
  by_cases hdraft : κ ∈ draftKinds
  · cases h with
    | @openDraft _ d r _ _ _ hrow hpending =>
      simp only [settleReview, fillDraft, Ledger.updateDraft]
      apply Table.length_filter_update_le
      intro r' hr' hd hq
      have hfound : l.drafts.get? d = some r' := hd ▸ Table.mem_rows_iff.mp hr'
      rw [hrow] at hfound
      cases hfound
      exact ⟨hq.1, .inl hpending⟩
    | dropDraft =>
      simp only [closeResolvedDraft]
      apply Table.length_filter_update_le
      intro r _ hd hq
      exact ⟨hq.1, .inr hd.2⟩
    | linkDraft | openTask | clearDrafts =>
      simp only [Ledger.updateDraft]
      apply Table.length_filter_update_le
      exact fun _ _ _ hq => hq
    | closeDraft =>
      simp only [Ledger.updateDraft]
      apply Table.length_filter_update_le
      intro r _ _ hq
      rcases hq.2 with hq | hq <;> cases hq
    | finalize =>
      simp only [finalizePlan, applyDrafts, Ledger.appendEvent]
      apply Table.length_filter_update_le
      intro r _ _ hq
      rcases hq.2 with hq | hq <;> cases hq
    | newDraft => exact absurd rfl hκ
    | _ => simp [draftKinds] at hdraft
  · rw [drafts_eq h hdraft]

/-- `create` opens a draft only below the bound. -/
theorem create_openDrafts {reg : Registry} {record : ClaimRecord} {paths : List String} {d : DraftId}
    {draft : OperationDraft} (h : Tx.Ran (create env reg record paths d now) l draft l')
    (owner : String) (hl : openDrafts l owner ≤ maxOpenDrafts) :
    openDrafts l' owner ≤ maxOpenDrafts := by
  unfold create insertDraft at h
  simp only [Tx.ran_lift_bind, Tx.ran_select_bind] at h
  obtain ⟨root, _, names, _, h⟩ := h
  split at h
  · simp only [Tx.ran_require_bind, Tx.ran_pure] at h
    rw [h.2.2]
    exact hl
  · simp only [Tx.ran_select_bind, Tx.ran_require_bind, Tx.ran_attempt_bind, Tx.ran_pure,
      Option.map_eq_some_iff] at h
    obtain ⟨hcount, _, ⟨drafts, hins, rfl⟩, _, rfl⟩ := h
    unfold openDrafts at hl hcount ⊢
    dsimp only
    rw [Table.rows_insert hins, List.filter_append, List.length_append]
    by_cases howner : record.owner = owner
    · subst howner
      have hone := List.length_filter_le (fun d : OperationDraft =>
        decide (d.ownerKey = record.owner ∧ (d.status = .pending ∨ d.status = .ready)))
        [newDraft env d record.owner root record.taskId (l.turns.get? record.taskId) names now]
      rw [List.length_singleton] at hone
      omega
    · rw [List.filter_cons_of_neg (by simp [newDraft, howner]), List.filter_nil, List.length_nil]
      exact hl

/-- Only `create` opens drafts. -/
theorem newDraft_mem_actionKinds {a : Action} (h : .newDraft ∈ actionKinds a) :
    ∃ reg record paths d, a = .command (.createDraft reg record paths d) := by
  cases a with
  | command c =>
    cases c with
    | createDraft reg record paths d => exact ⟨reg, record, paths, d, rfl⟩
    | decide _ _ _ revoke => cases revoke <;> simp [actionKinds, commandKinds, settleKinds] at h
    | _ =>
      simp [actionKinds, commandKinds, approveKinds, openKinds, cancelKinds, proposeKinds, linkKinds,
        settleKinds, resolveKinds, closeKinds, maintainKinds] at h
  | _ => simp [actionKinds, applyKinds] at h

/-- No owner has more open drafts than the bound. -/
def WithinQuota (l : Ledger) : Prop := ∀ owner, openDrafts l owner ≤ maxOpenDrafts

theorem WithinQuota.action {w : World} {a : Action} (hw : Consistent env w) (ha : Legal w a)
    (hq : WithinQuota w.ledger) : WithinQuota (step env w a).ledger := by
  intro owner
  by_cases hnew : .newDraft ∈ actionKinds a
  · obtain ⟨reg, record, paths, d, rfl⟩ := newDraft_mem_actionKinds hnew
    rcases step_command env w (.createDraft reg record paths d) with ⟨_, l', hran, hstep⟩ | ⟨_, hstep⟩
    · rw [hstep]
      simp only [commandOp, ran_dropped] at hran
      obtain ⟨_, _, hran⟩ := hran
      exact create_openDrafts hran owner (hq owner)
    · rw [hstep]
      exact hq owner
  · have hchain : Chain env True (actionKinds a) w.ledger (step env w a).ledger :=
      step_chain fun _ => hw.promise ha
    refine le_trans ?_ (hq owner)
    exact hchain.relation (R := fun l l' => openDrafts l' owner ≤ openDrafts l owner)
      (I := fun _ => True) (fun _ => le_rfl) (fun _ _ _ h₁ h₂ => h₂.trans h₁)
      (fun _ _ _ _ _ _ => trivial)
      (fun κ hκ _ _ _ hs => openDrafts_step hs (fun he => hnew (he ▸ hκ)) owner) trivial

theorem WithinQuota.of_reachable {w : World} (hw : ReachableWorld env w) : WithinQuota w.ledger := by
  obtain ⟨w₀, as, h₀, hrun⟩ := hw
  have hboth : Consistent env w ∧ WithinQuota w.ledger := by
    refine hrun.invariant (I := fun w => Consistent env w ∧ WithinQuota w.ledger)
      (fun w a hw ha => ⟨hw.1.step ha, hw.2.action hw.1 ha⟩) ⟨.of_init h₀, fun owner => ?_⟩
    have hnone : w₀.ledger.drafts.rows = [] := by
      rw [List.eq_nil_iff_forall_not_mem]
      intro r hr
      have hfound := Table.mem_rows_iff.mp hr
      rw [h₀.ledger.drafts] at hfound
      cases hfound
    simp [openDrafts, hnone]
  exact hboth.2

/-- The drafts that wait for their read scope, in the order they were stored. -/
def pendingDrafts (l : Ledger) : List OperationDraft :=
  l.drafts.rows.filter fun d => d.status = .pending

/-- The maintenance may close the drafts of this source. -/
def Closable (l : Ledger) (s : TaskId) : Prop :=
  (∃ t ∈ l.tasks.get? s, t.status = .awaitingApproval) ∧ ¬ UnresolvedEffects l s

instance (l : Ledger) (s : TaskId) : Decidable (Closable l s) := by
  unfold Closable; infer_instance

/-- No two drafts have one source. -/
def OwnSources (l : Ledger) : Prop :=
  ∀ d ∈ l.drafts.rows, ∀ e ∈ l.drafts.rows, d.sourceTaskId = e.sourceTaskId → d = e

theorem OwnSources.of_good (hg : Good l) : OwnSources l := by
  intro d hd e he hsource
  have hd₀ := Table.mem_rows_iff.mp hd
  have he₀ := Table.mem_rows_iff.mp he
  have hid : d.id = e.id :=
    hg.linked.source d.id e.id _ _ (skeleton_draft hd₀) (skeleton_draft he₀) hsource
  rw [hid, he₀] at hd₀
  exact (Option.some.inj hd₀).symm

theorem expireDraft_sameEffects (now : Time) (l : Ledger) (x : OperationDraft) :
    SameEffects l (expireDraft now l x) := by
  unfold expireDraft
  split_ifs
  · exact (settleReview_sameEffects x.sourceTaskId false now l).trans
      (.of_eq rfl rfl rfl (fun _ _ => .rfl) rfl)
  · exact .refl l

theorem expireDraft_of_not_closable {x : OperationDraft} (h : ¬ Closable l x.sourceTaskId) :
    expireDraft now l x = l := if_neg h

theorem expireDraft_of_closable {x : OperationDraft} (h : Closable l x.sourceTaskId) :
    expireDraft now l x = (expireReadScope x.sourceTaskId now
      (settleReview x.sourceTaskId false now l)).updateDraft x.id fun r =>
        { r with status := .closed, updatedAt := now, revision := r.revision + 1 } := if_pos h

theorem pendingDrafts_expire (now : Time) (l : Ledger) (x : OperationDraft) :
    pendingDrafts (expireDraft now l x) =
      (pendingDrafts l).filter fun d => ¬ (d.id = x.id ∧ Closable l x.sourceTaskId) := by
  by_cases hx : Closable l x.sourceTaskId
  · have hdrafts : pendingDrafts (expireDraft now l x) = (pendingDrafts l).filter fun d =>
        ¬ d.id = x.id := by
      rw [expireDraft_of_closable hx]
      apply Table.filter_update
      · exact fun _ => rfl
      · intro r _ _ hq
        cases hq
    rw [hdrafts]
    simp only [hx, and_true]
  · rw [expireDraft_of_not_closable hx]
    simp [hx]

/-- An expiry leaves the other sources as closable as they were, and its own not. -/
theorem closable_expire (now : Time) (l : Ledger) (x : OperationDraft) (s : TaskId) :
    Closable (expireDraft now l x) s ↔ Closable l s ∧ x.sourceTaskId ≠ s := by
  have heffects : UnresolvedEffects (expireDraft now l x) s ↔ UnresolvedEffects l s :=
    (expireDraft_sameEffects now l x).unresolvedEffects
  by_cases hx : Closable l x.sourceTaskId
  · have htasks : (expireDraft now l x).tasks.get? s = (l.tasks.get? s).map fun t =>
        if t.id = x.sourceTaskId ∧ t.status = .awaitingApproval then
          { t with status := .cancelled, completedAt := some now, updatedAt := now }
        else t := by
      rw [expireDraft_of_closable hx]
      simp only [Ledger.updateDraft, expireReadScope, settleReview, Table.get?_update]
      rfl
    unfold Closable
    rw [heffects, htasks]
    by_cases hs : x.sourceTaskId = s
    · subst hs
      simp only [ne_eq, not_true_eq_false, and_false, iff_false, not_and]
      rintro ⟨t, ht, hawaiting⟩
      rw [Option.mem_def, Option.map_eq_some_iff] at ht
      obtain ⟨t₀, ht₀, rfl⟩ := ht
      have hid : t₀.id = x.sourceTaskId := Table.key_of_get? ht₀
      by_cases hstatus : t₀.status = .awaitingApproval
      · rw [if_pos ⟨hid, hstatus⟩] at hawaiting
        cases hawaiting
      · rw [if_neg fun h => hstatus h.2] at hawaiting
        exact absurd hawaiting hstatus
    · have hkept : ((l.tasks.get? s).map fun t =>
          if t.id = x.sourceTaskId ∧ t.status = .awaitingApproval then
            { t with status := .cancelled, completedAt := some now, updatedAt := now }
          else t) = l.tasks.get? s := by
        cases ht : l.tasks.get? s with
        | none => rfl
        | some t =>
          have hid : t.id = s := Table.key_of_get? ht
          rw [Option.map_some, if_neg fun h => hs (h.1.symm.trans hid)]
      rw [hkept]
      simp only [ne_eq, hs, not_false_eq_true, and_true]
  · rw [expireDraft_of_not_closable hx]
    constructor
    · exact fun hs => ⟨hs, fun he => hx (he ▸ hs)⟩
    · exact And.left

/-- The expiry loop closes exactly the closable drafts it looks at. -/
theorem expire_foldl (now : Time) {rows : List OperationDraft}
    (h : rows.Pairwise fun x y => x.sourceTaskId ≠ y.sourceTaskId) (l : Ledger) :
    pendingDrafts (rows.foldl (expireDraft now) l) =
        (pendingDrafts l).filter (fun d =>
          ¬ ∃ x ∈ rows, d.id = x.id ∧ Closable l x.sourceTaskId) ∧
      ∀ s, Closable (rows.foldl (expireDraft now) l) s ↔
        Closable l s ∧ ∀ x ∈ rows, x.sourceTaskId ≠ s := by
  induction rows generalizing l with
  | nil => exact ⟨by simp, by simp⟩
  | cons x rows ih =>
    obtain ⟨hx, hrows⟩ := List.pairwise_cons.mp h
    obtain ⟨hpending, hclosable⟩ := ih hrows (expireDraft now l x)
    rw [List.foldl_cons]
    constructor
    · rw [hpending, pendingDrafts_expire, List.filter_filter]
      apply List.filter_congr
      intro d _
      have hrest : (∃ y ∈ rows, d.id = y.id ∧ Closable (expireDraft now l x) y.sourceTaskId) ↔
          ∃ y ∈ rows, d.id = y.id ∧ Closable l y.sourceTaskId := by
        constructor
        · rintro ⟨y, hy, hid, hc⟩
          exact ⟨y, hy, hid, ((closable_expire ..).mp hc).1⟩
        · rintro ⟨y, hy, hid, hc⟩
          exact ⟨y, hy, hid, (closable_expire ..).mpr ⟨hc, hx y hy⟩⟩
      simp only [hrest, List.mem_cons, exists_eq_or_imp]
      by_cases h₁ : d.id = x.id ∧ Closable l x.sourceTaskId <;>
        by_cases h₂ : ∃ y ∈ rows, d.id = y.id ∧ Closable l y.sourceTaskId <;> simp [h₁, h₂]
    · intro s
      rw [hclosable, closable_expire, List.forall_mem_cons, and_assoc]

theorem mem_pendingDrafts {d : OperationDraft} :
    d ∈ pendingDrafts l ↔ d ∈ l.drafts.rows ∧ d.status = .pending := by
  rw [pendingDrafts, List.mem_filter, decide_eq_true_eq]

/-- The drafts one maintenance looks at. -/
def expiredDrafts (now : Time) (l : Ledger) : List OperationDraft :=
  (l.drafts.rows.filter fun d => d.status = .pending ∧ d.expiresAt < now).take 100

/-- The drafts whose copy one maintenance clears. -/
def clearedDrafts (now : Time) (l : Ledger) : List DraftId :=
  ((l.drafts.rows.filter fun d => (d.status = .closed ∨ d.status = .applied) ∧
    d.updatedAt < now - days 7 ∧ d.snapshot ≠ []).take 100).map (·.id)

/-- The second half of a maintenance. -/
def clearSnapshots (now : Time) (l : Ledger) : Ledger :=
  { l with
    drafts := l.drafts.update (fun d => d.id ∈ clearedDrafts now l)
      (fun d => { d with snapshot := [] }) OperationDraft.id_cleared }

theorem maintain_eq (now : Time) (l : Ledger) :
    maintain now l = clearSnapshots now ((expiredDrafts now l).foldl (expireDraft now) l) := rfl

theorem expiredDrafts_eq (now : Time) (l : Ledger) :
    expiredDrafts now l = window 100 (fun d => d.expiresAt < now) (pendingDrafts l) := by
  unfold expiredDrafts window pendingDrafts
  rw [List.filter_filter]
  congr 1
  apply List.filter_congr
  intro d _
  rw [← Bool.decide_and]
  exact decide_eq_decide.mpr and_comm

theorem mem_expiredDrafts {x : OperationDraft} (h : x ∈ expiredDrafts now l) :
    x ∈ l.drafts.rows ∧ x.status = .pending := by
  rw [expiredDrafts_eq] at h
  exact mem_pendingDrafts.mp (List.mem_filter.mp (List.mem_of_mem_take h)).1

/-- The rows a maintenance clears are not pending. -/
theorem not_mem_clearedDrafts {r : OperationDraft} (hr : r ∈ l.drafts.rows)
    (hpending : r.status = .pending) : r.id ∉ clearedDrafts now l := by
  intro hc
  obtain ⟨e, he, hid⟩ := List.mem_map.mp hc
  have hmem := List.mem_filter.mp (List.mem_of_mem_take he)
  have hrow := Table.mem_rows_iff.mp hmem.1
  rw [hid, Table.mem_rows_iff.mp hr] at hrow
  cases hrow
  rw [decide_eq_true_eq] at hmem
  rcases hmem.2.1 with h | h <;> rw [hpending] at h <;> cases h

theorem pendingDrafts_clear (now : Time) (l : Ledger) :
    pendingDrafts (clearSnapshots now l) = pendingDrafts l := by
  have hfilter : pendingDrafts (clearSnapshots now l) =
      (pendingDrafts l).filter fun r => r.id ∉ clearedDrafts now l := by
    apply Table.filter_update
    · exact fun _ => rfl
    · exact fun r hr hc hpending => not_mem_clearedDrafts hr hpending hc
  rw [hfilter, List.filter_eq_self]
  intro r hr
  obtain ⟨hrow, hpending⟩ := mem_pendingDrafts.mp hr
  rw [decide_eq_true_eq]
  exact not_mem_clearedDrafts hrow hpending

theorem closable_clear (now : Time) (l : Ledger) (s : TaskId) :
    Closable (clearSnapshots now l) s ↔ Closable l s := by
  have heffects : SameEffects l (clearSnapshots now l) := .of_eq rfl rfl rfl (fun _ _ => .rfl) rfl
  exact and_congr Iff.rfl (not_congr heffects.unresolvedEffects)

/-- Maintenance is one bounded pass over the pending drafts. -/
theorem pendingDrafts_maintain (hs : OwnSources l) (now : Time) :
    pendingDrafts (maintain now l) = pass 100 (fun d => d.expiresAt < now)
        (fun d => Closable l d.sourceTaskId) (pendingDrafts l) ∧
      ∀ d ∈ pendingDrafts (maintain now l),
        (Closable (maintain now l) d.sourceTaskId ↔ Closable l d.sourceTaskId) := by
  have hnodup : (expiredDrafts now l).Nodup :=
    ((l.drafts.nodup.of_map _).filter _).sublist (List.take_sublist _ _)
  have hsources : (expiredDrafts now l).Pairwise fun x y => x.sourceTaskId ≠ y.sourceTaskId := by
    refine List.Pairwise.imp_of_mem ?_ hnodup
    intro x y hx hy hne hsource
    exact hne (hs x (mem_expiredDrafts hx).1 y (mem_expiredDrafts hy).1 hsource)
  obtain ⟨hpending, hclosable⟩ := expire_foldl now hsources l
  have hpass : pendingDrafts (maintain now l) = pass 100 (fun d => d.expiresAt < now)
      (fun d => Closable l d.sourceTaskId) (pendingDrafts l) := by
    rw [maintain_eq, pendingDrafts_clear, hpending, Runs.pass, ← expiredDrafts_eq]
    apply List.filter_congr
    intro d hd
    refine decide_eq_decide.mpr (not_congr ?_)
    constructor
    · rintro ⟨x, hx, hid, hc⟩
      have hrow := Table.mem_rows_iff.mp (mem_expiredDrafts hx).1
      rw [← hid, Table.mem_rows_iff.mp (mem_pendingDrafts.mp hd).1] at hrow
      cases hrow
      exact ⟨hx, hc⟩
    · rintro ⟨hx, hc⟩
      exact ⟨d, hx, rfl, hc⟩
  refine ⟨hpass, fun d hd => ?_⟩
  rw [maintain_eq, closable_clear, hclosable]
  refine ⟨And.left, fun hc => ⟨hc, fun x hx hsource => ?_⟩⟩
  rw [hpass, mem_pass, ← expiredDrafts_eq] at hd
  have hxd : x = d := hs x (mem_expiredDrafts hx).1 d (mem_pendingDrafts.mp hd.1).1 hsource
  exact hd.2 ⟨hxd ▸ hx, hc⟩

/-- A draft that waits is left alone or closed, and a closed one stays closed. -/
def DraftsSettle (l l' : Ledger) : Prop :=
  ∀ d r, l.drafts.get? d = some r → ∃ r', l'.drafts.get? d = some r' ∧
    (r.status = .pending → r' = r ∨ r'.status = .closed) ∧
    (r.status = .closed → r'.status = .closed)

theorem DraftsSettle.refl (l : Ledger) : DraftsSettle l l :=
  fun _ r hr => ⟨r, hr, fun _ => .inl rfl, id⟩

theorem DraftsSettle.trans {l₁ l₂ l₃ : Ledger} (h₁ : DraftsSettle l₁ l₂) (h₂ : DraftsSettle l₂ l₃) :
    DraftsSettle l₁ l₃ := by
  intro d r hr
  obtain ⟨r₂, hr₂, hpending₂, hclosed₂⟩ := h₁ d r hr
  obtain ⟨r₃, hr₃, hpending₃, hclosed₃⟩ := h₂ d r₂ hr₂
  refine ⟨r₃, hr₃, fun hs => ?_, fun hs => hclosed₃ (hclosed₂ hs)⟩
  rcases hpending₂ hs with rfl | hclosed
  · exact hpending₃ hs
  · exact .inr (hclosed₃ hclosed)

theorem draftsSettle_expire (now : Time) (l : Ledger) (x : OperationDraft) :
    DraftsSettle l (expireDraft now l x) := by
  by_cases hx : Closable l x.sourceTaskId
  · intro d r hr
    rw [expireDraft_of_closable hx]
    refine ⟨_, by simp only [Ledger.updateDraft, expireReadScope, settleReview, Table.get?_update, hr]; rfl, ?_⟩
    dsimp only
    split_ifs
    · exact ⟨fun _ => .inr rfl, fun _ => rfl⟩
    · exact ⟨fun _ => .inl rfl, id⟩
  · rw [expireDraft_of_not_closable hx]
    exact .refl l

theorem draftsSettle_clear (now : Time) (l : Ledger) : DraftsSettle l (clearSnapshots now l) := by
  intro d r hr
  refine ⟨_, by rw [clearSnapshots, Table.get?_update, hr]; rfl, fun hpending => .inl ?_, ?_⟩
  · exact if_neg (not_mem_clearedDrafts (Table.get?_eq_some.mp hr).1 hpending)
  · intro hclosed
    dsimp only
    split_ifs <;> exact hclosed

theorem draftsSettle_maintain (now : Time) (l : Ledger) : DraftsSettle l (maintain now l) := by
  have hfold : ∀ (rows : List OperationDraft) (l : Ledger),
      DraftsSettle l (rows.foldl (expireDraft now) l) := by
    intro rows
    induction rows with
    | nil => exact .refl
    | cons x rows ih => exact fun l => (draftsSettle_expire now l x).trans (ih _)
  rw [maintain_eq]
  exact (hfold _ l).trans (draftsSettle_clear now _)

/-- Calls of `maintain` with nothing else between them, each after the given wait. -/
def maintainCalls (waits : List ℕ) : List Action :=
  waits.flatMap fun elapsed => [.tick elapsed, .command .maintain]

/-- The clock at each of these calls. -/
def callTimes : Time → List ℕ → List Time
  | _, [] => []
  | clock, elapsed :: waits => (clock + elapsed) :: callTimes (clock + elapsed) waits

theorem length_callTimes (clock : Time) (waits : List ℕ) :
    (callTimes clock waits).length = waits.length := by
  induction waits generalizing clock with
  | nil => rfl
  | cons elapsed waits ih => simp [callTimes, ih]

theorem le_callTimes {clock t : Time} {waits : List ℕ} (h : t ∈ callTimes clock waits) :
    clock ≤ t := by
  induction waits generalizing clock with
  | nil => cases h
  | cons elapsed waits ih =>
    rw [callTimes, List.mem_cons] at h
    have hstep : clock ≤ clock + elapsed := Int.le_add_of_nonneg_right (Int.natCast_nonneg elapsed)
    rcases h with rfl | h
    · exact hstep
    · exact hstep.trans (ih h)

/-- The world after a wait and a call of `maintain`. -/
def maintained (w : World) (elapsed : ℕ) : World :=
  { w with clock := w.clock + elapsed, ledger := maintain (w.clock + elapsed) w.ledger }

theorem step_maintain (w : World) (elapsed : ℕ) :
    step env (step env w (.tick elapsed)) (.command .maintain) = maintained w elapsed := by
  have hran : Tx.Ran (commandOp env (step env w (.tick elapsed)) .maintain)
      (step env w (.tick elapsed)).ledger none (maintain (w.clock + elapsed) w.ledger) := by
    simp only [commandOp, Tx.ran_write_bind, Tx.ran_pure, step, and_self]
  rw [step_of_ran hran]
  simp [step, maintained]

theorem maintainCalls_cons (w : World) (elapsed : ℕ) (waits : List ℕ) :
    (maintainCalls (elapsed :: waits)).foldl (step env) w =
      (maintainCalls waits).foldl (step env) (maintained w elapsed) := by
  rw [← step_maintain]
  rfl

theorem maintained_good (env : Environment) {w : World} (hg : Good w.ledger) (elapsed : ℕ) :
    Good (maintained w elapsed).ledger := by
  have hchain : Chain env True maintainKinds w.ledger (maintained w elapsed).ledger :=
    maintain_chain _ _
  exact hg.chain hchain

/-- The drafts that still wait after some calls. -/
theorem pendingDrafts_calls {ready : OperationDraft → Prop} [DecidablePred ready] {w : World}
    (hg : Good w.ledger)
    (hready : ∀ d ∈ pendingDrafts w.ledger, Closable w.ledger d.sourceTaskId ↔ ready d)
    (waits : List ℕ) :
    pendingDrafts ((maintainCalls waits).foldl (step env) w).ledger =
      passes 100 (fun now d => d.expiresAt < now) ready (callTimes w.clock waits)
        (pendingDrafts w.ledger) := by
  induction waits generalizing w with
  | nil => rfl
  | cons elapsed waits ih =>
    obtain ⟨hpass, hclosable⟩ :=
      pendingDrafts_maintain (.of_good hg) (w.clock + elapsed)
    have hnext : ∀ d ∈ pendingDrafts (maintained w elapsed).ledger,
        Closable (maintained w elapsed).ledger d.sourceTaskId ↔ ready d := by
      intro d hd
      have hbefore : d ∈ pendingDrafts w.ledger := by
        have hmem := hd
        rw [maintained, hpass, mem_pass] at hmem
        exact hmem.1
      exact (hclosable d hd).trans (hready d hbefore)
    rw [maintainCalls_cons, ih (maintained_good env hg elapsed) hnext]
    have hstep : pendingDrafts (maintained w elapsed).ledger = pass 100
        (fun d => d.expiresAt < w.clock + elapsed) ready (pendingDrafts w.ledger) :=
      hpass.trans (pass_congr hready)
    rw [hstep]
    rfl

theorem draftsSettle_calls (env : Environment) (w : World) (waits : List ℕ) :
    DraftsSettle w.ledger ((maintainCalls waits).foldl (step env) w).ledger := by
  induction waits generalizing w with
  | nil => exact .refl _
  | cons elapsed waits ih =>
    rw [maintainCalls_cons]
    exact (draftsSettle_maintain _ _).trans (ih (maintained w elapsed))

/-- The drafts stored before a draft that wait too and that the maintenance may not close. -/
def heldBefore (l : Ledger) (d : OperationDraft) : ℕ :=
  (((pendingDrafts l).takeWhile fun e => e ≠ d).filter fun e =>
    ¬ Closable l e.sourceTaskId).length

/-- Some number of calls closes the draft, however long they are apart. -/
def ClosedByMaintenance (env : Environment) (w : World) (d : OperationDraft) : Prop :=
  ∃ n, ∀ waits : List ℕ, waits.length = n → ∃ r,
    ((maintainCalls waits).foldl (step env) w).ledger.drafts.get? d.id = some r ∧ r.status = .closed

/-- A pending draft is closed by some calls as soon as it is not pending after them. -/
theorem closed_iff {w : World} {d : OperationDraft} (hd : d ∈ pendingDrafts w.ledger)
    (waits : List ℕ) :
    (∃ r, ((maintainCalls waits).foldl (step env) w).ledger.drafts.get? d.id = some r ∧
      r.status = .closed) ↔
        d ∉ pendingDrafts ((maintainCalls waits).foldl (step env) w).ledger := by
  obtain ⟨hrow, hpending⟩ := mem_pendingDrafts.mp hd
  obtain ⟨r, hr, hsettled, _⟩ :=
    draftsSettle_calls env w waits d.id d (Table.mem_rows_iff.mp hrow)
  constructor
  · rintro ⟨r', hr', hclosed⟩ hafter
    rw [Table.mem_rows_iff.mp (mem_pendingDrafts.mp hafter).1] at hr'
    cases hr'
    rw [hpending] at hclosed
    cases hclosed
  · intro hafter
    refine ⟨r, hr, (hsettled hpending).resolve_left ?_⟩
    rintro rfl
    exact hafter (mem_pendingDrafts.mpr ⟨(Table.get?_eq_some.mp hr).1, hpending⟩)

/-- A wait after which every draft has expired. -/
theorem exists_wait (clock : Time) (drafts : List OperationDraft) :
    ∃ n : ℕ, ∀ d ∈ drafts, d.expiresAt < clock + n := by
  induction drafts with
  | nil => exact ⟨0, by simp⟩
  | cons e drafts ih =>
    obtain ⟨n, hn⟩ := ih
    refine ⟨max n ((e.expiresAt - clock).toNat + 1), fun d hd => ?_⟩
    have hn' : (n : ℤ) ≤ (max n ((e.expiresAt - clock).toNat + 1) : ℕ) := by
      exact_mod_cast Nat.le_max_left ..
    have he : ((e.expiresAt - clock).toNat : ℤ) + 1 ≤
        (max n ((e.expiresAt - clock).toNat + 1) : ℕ) := by
      exact_mod_cast Nat.le_max_right ..
    rcases List.mem_cons.mp hd with rfl | hd
    · have hself : d.expiresAt - clock ≤ (d.expiresAt - clock).toNat := Int.self_le_toNat _
      have hlt := Int.lt_of_le_of_lt hself (Int.lt_of_lt_of_le (Int.lt_succ _) he)
      exact Int.lt_add_of_sub_left_lt hlt
    · exact (hn d hd).trans_le (Int.add_le_add_left hn' clock)

theorem wait_le_callTimes {clock t : Time} {n elapsed : ℕ}
    (h : t ∈ callTimes clock (List.replicate n elapsed)) : clock + elapsed ≤ t := by
  cases n with
  | zero => cases h
  | succ n =>
    rw [List.replicate_succ, callTimes, List.mem_cons] at h
    rcases h with rfl | h
    · exact le_rfl
    · exact le_callTimes h

/-- No owner ever has more than the bound of open drafts; and a draft whose read scope
expired is closed by finitely many maintenances exactly when its source still waits for
approval without uncertain effects and fewer than a hundred drafts that may not be closed
wait before it. -/
theorem draft_quota (env : Environment) (w : World) (hw : ReachableWorld env w) :
    (∀ owner, openDrafts w.ledger owner ≤ maxOpenDrafts) ∧
    ∀ d ∈ w.ledger.drafts.rows, d.status = .pending → d.expiresAt < w.clock →
      (ClosedByMaintenance env w d ↔
        Closable w.ledger d.sourceTaskId ∧ heldBefore w.ledger d < 100) := by
  refine ⟨WithinQuota.of_reachable hw, fun d hrow hpending hexpired => ?_⟩
  have hg : Good w.ledger := hw.consistent.good
  have hd : d ∈ pendingDrafts w.ledger := mem_pendingDrafts.mpr ⟨hrow, hpending⟩
  obtain ⟨before, after, hsplit, hfirst⟩ := List.eq_append_cons_of_mem hd
  have hbefore : (pendingDrafts w.ledger).takeWhile (fun e => e ≠ d) = before := by
    rw [hsplit, List.takeWhile_append_of_pos, List.takeWhile_cons_of_neg (by simp), List.append_nil]
    intro e he
    rw [decide_eq_true_eq]
    rintro rfl
    exact hfirst he
  have hcalls : ∀ waits, pendingDrafts ((maintainCalls waits).foldl (step env) w).ledger =
      passes 100 (fun now d => d.expiresAt < now) (fun e => Closable w.ledger e.sourceTaskId)
        (callTimes w.clock waits) (before ++ d :: after) := by
    intro waits
    rw [← hsplit]
    exact pendingDrafts_calls hg (fun _ _ => .rfl) waits
  rw [heldBefore, hbefore]
  constructor
  · rintro ⟨n, hclosed⟩
    by_contra hnot
    obtain ⟨elapsed, hlater⟩ := exists_wait w.clock before
    have hstay : d ∈ pendingDrafts
        ((maintainCalls (List.replicate n elapsed)).foldl (step env) w).ledger := by
      rw [hcalls]
      by_cases hready : Closable w.ledger d.sourceTaskId
      · refine mem_passes_of_blocked hfirst (fun t ht e he => ?_) ?_
        · exact (hlater e he).trans_le (wait_le_callTimes ht)
        · exact Nat.le_of_not_lt fun hlt => hnot ⟨hready, hlt⟩
      · exact mem_passes_of_not_ready hready (by simp)
    exact (closed_iff hd _).mp (hclosed _ List.length_replicate) hstay
  · rintro ⟨hready, hheld⟩
    refine ⟨before.length + 1, fun waits hlength => (closed_iff hd waits).mpr ?_⟩
    rw [hcalls]
    refine not_mem_passes_of_ready hready (fun t ht => ?_) hheld ?_
    · exact hexpired.trans_le (le_callTimes ht)
    · rw [length_callTimes, hlength]
      exact Nat.lt_succ_self _

/-- A draft that is not closable is closed by no maintenance. -/
theorem not_closedByMaintenance {w : World} (hw : ReachableWorld env w) {d : OperationDraft}
    (hd : d ∈ pendingDrafts w.ledger) (h : ¬ Closable w.ledger d.sourceTaskId) :
    ¬ ClosedByMaintenance env w d := by
  rintro ⟨n, hclosed⟩
  refine (closed_iff hd _).mp (hclosed (List.replicate n 0) List.length_replicate) ?_
  rw [pendingDrafts_calls hw.consistent.good (fun _ _ => .rfl)]
  exact mem_passes_of_not_ready h hd

/-- Rules under which nothing is remembered. -/
def plainRules : MemoryRules where
  enabled := false
  storageDisabled _ := true
  screen _ _ := (.screened, "", "")
  defaultTopic _ := ""
  validateProposals _ := []

/-- A worker asks for a file and waits; the owner cancels the request, and the read scope
expires. -/
def lapsedRun : List Action :=
  [.command (.createDraft plainRegistry ⟨7, 1, 9, { workspace := "/w" }, "owner"⟩ ["a"] 6),
    .command (.finish plainRegistry plainRules ⟨7, 1, 9, { workspace := "/w" }, "owner"⟩ {}
      { status := .awaitingApproval, text := "" } 11 id 0),
    .command (.cancel 7 "owner" {}), .tick 4000000000]

def lapsedWorld : World := lapsedRun.foldl (step plainEnvironment) plainRunning

theorem lapsedRun_run : Run (step plainEnvironment) Legal plainRunning lapsedRun lapsedWorld := by
  refine .cons ?_ (.cons ?_ (.cons trivial (.cons trivial (.nil _))))
  all_goals
    simp only [Legal, LegalCommand]
    decide +kernel

theorem lapsedWorld_reachable : ReachableWorld plainEnvironment lapsedWorld :=
  plainRunning_reachable.run lapsedRun_run

theorem draft_quota_lapsed : ∃ d ∈ lapsedWorld.ledger.drafts.rows,
    (ClosedByMaintenance plainEnvironment lapsedWorld d ↔
      Closable lapsedWorld.ledger d.sourceTaskId ∧ heldBefore lapsedWorld.ledger d < 100) := by
  have hfound : ∃ d ∈ lapsedWorld.ledger.drafts.rows,
      d.status = .pending ∧ d.expiresAt < lapsedWorld.clock := by decide +kernel
  obtain ⟨d, hd, hpending, hexpired⟩ := hfound
  exact ⟨d, hd, (draft_quota plainEnvironment lapsedWorld lapsedWorld_reachable).2 d hd hpending
    hexpired⟩

/-- The expired draft of the cancelled request keeps its place in the quota for good. -/
theorem lapsed_draft : ∃ w, ReachableWorld plainEnvironment w ∧ ∃ d ∈ w.ledger.drafts.rows,
    d.status = .pending ∧ d.expiresAt < w.clock ∧ ¬ UnresolvedEffects w.ledger d.sourceTaskId ∧
    (∃ t ∈ w.ledger.tasks.get? d.sourceTaskId, t.status = .cancelled) ∧
    ¬ ClosedByMaintenance plainEnvironment w d := by
  have hfound : ∃ d ∈ lapsedWorld.ledger.drafts.rows, d.status = .pending ∧
      d.expiresAt < lapsedWorld.clock ∧ ¬ UnresolvedEffects lapsedWorld.ledger d.sourceTaskId ∧
      (∃ t ∈ lapsedWorld.ledger.tasks.get? d.sourceTaskId, t.status = .cancelled) ∧
      ¬ Closable lapsedWorld.ledger d.sourceTaskId := by decide +kernel
  obtain ⟨d, hd, hpending, hexpired, hquiet, hcancelled, hheld⟩ := hfound
  exact ⟨lapsedWorld, lapsedWorld_reachable, d, hd, hpending, hexpired, hquiet, hcancelled,
    not_closedByMaintenance lapsedWorld_reachable (mem_pendingDrafts.mpr ⟨hd, hpending⟩) hheld⟩

end NyanyaAgent.Safety
