import NyanyaAgent.Uploads.Confirmation
import NyanyaAgent.Runs.Invariant

/-!
# Confirmations are exact and used once

What one call may do to the confirmations, and what holds of them after any calls.
-/
namespace NyanyaAgent.Safety
open NyanyaAgent.Schema NyanyaAgent.Relational NyanyaAgent.Runs NyanyaAgent.Commands
open NyanyaAgent.Uploads

variable {digest : UploadScope → Hash} {l l' : CommandLedger} {a : UploadAction}
  {as : List UploadAction} {i j : ApprovalId} {r r' : ApprovalRecord} {c : UploadClaim}
  {owner : String} {now : Time} {status : DecisionStatus} {phase : String}

/-- The phase stored beside a final or pending status. -/
inductive PhaseOf : DecisionStatus → String → Prop
  | pending : PhaseOf .pending "pending"
  | approved : PhaseOf .approved "consumed"
  | rejected : PhaseOf .rejected "rejected"
  | expired : PhaseOf .expired "expired"

/-- A row as the functions of `upload_approval.py` write it. -/
structure Confirmation (digest : UploadScope → Hash) (r : ApprovalRecord) : Prop where
  unbound : r.taskId = none ∧ r.executionId = none
  actor : r.metadata.authorizedActor = some r.requestedBy
  schema : r.metadata.schemaVersion = some 1
  phase : ∃ p, r.metadata.phase = some p ∧ PhaseOf r.status p
  scope : ∃ s, scope? r.metadata = some s ∧ r.metadata.scopeHash = some (digest s)

/-- What a call leaves of a row: a pending confirmation may be closed, and rows of other
actions stay rows of other actions. -/
inductive Kept (r : ApprovalRecord) : ApprovalRecord → Prop
  | same : Kept r r
  | closed {status : DecisionStatus} {phase : String} {now : Time} (ha : r.action = uploadAction)
      (hp : r.status = .pending) (hs : status ≠ .pending) (hphase : PhaseOf status phase) :
      Kept r (close status phase now r)
  | foreign {r' : ApprovalRecord} (ha : r.action ≠ uploadAction) (ha' : r'.action = r.action) :
      Kept r r'

/-- What a call does to the approvals. -/
inductive Change (digest : UploadScope → Hash) (l : CommandLedger) : Table ApprovalRecord.id → Prop
  | same : Change digest l l.records
  | closed {p : ApprovalRecord → Prop} [DecidablePred p] {status : DecisionStatus} {phase : String}
      {now : Time} (hp : ∀ r, p r → r.action = uploadAction ∧ r.status = .pending)
      (hs : status ≠ .pending) (hphase : PhaseOf status phase) :
      Change digest l (l.records.update p (close status phase now) (id_closed status phase now))
  | requested {owner : String} {now : Time} {r : ApprovalRecord} {records : Table ApprovalRecord.id}
      (hcount : pendingCount owner (expirePending owner now l) < maxPendingPerOwner)
      (ha : r.action = uploadAction) (hr : Confirmation digest r) (hp : r.status = .pending)
      (ho : r.requestedBy = owner)
      (hinsert : (expirePending owner now l).records.insert r = some records) :
      Change digest l records
  | foreign {i : ApprovalId} {f : ApprovalRecord → ApprovalRecord} (hf : ∀ r, (f r).id = r.id)
      (hi : ∀ r, l.records.get? i = some r → r.action ≠ uploadAction)
      (ha : ∀ r, (f r).action = r.action) :
      Change digest l (l.records.update (fun r => r.id = i) f hf)

/-- What a call of another module does to the approvals. -/
inductive Foreign (l : CommandLedger) : Table ApprovalRecord.id → Prop
  | same : Foreign l l.records
  | updated {i : ApprovalId} {f : ApprovalRecord → ApprovalRecord} (hf : ∀ r, (f r).id = r.id)
      (hi : ∀ r, l.records.get? i = some r → r.action ≠ uploadAction)
      (ha : ∀ r, (f r).action = r.action) :
      Foreign l (l.records.update (fun r => r.id = i) f hf)

theorem Foreign.change {t : Table ApprovalRecord.id} (h : Foreign l t) : Change digest l t := by
  cases h with
  | same => exact .same
  | updated hf hi ha => exact .foreign hf hi ha

theorem Foreign.untouched {t : Table ApprovalRecord.id} (h : Foreign l t)
    (hr : l.records.get? i = some r) (ha : r.action = uploadAction) : t.get? i = some r := by
  cases h with
  | same => exact hr
  | @updated j f hf hj _ =>
    have hij : i ≠ j := by
      rintro rfl
      exact hj r hr ha
    rw [Table.get?_update_ne _ f hf hij, hr]

theorem scope_actor {r : UploadRequest} {s : UploadScope} (h : r.scope = .ok s) :
    s.authorizedActor = r.ownerKey := by
  unfold UploadRequest.scope at h
  split_ifs at h
  cases howner : text r.ownerKey 512 with
  | error e =>
    rw [howner] at h
    cases h
  | ok v =>
    have hv : v = r.ownerKey := by
      unfold text at howner
      split_ifs at howner
      exact (Except.ok.inj howner).symm
    rw [howner] at h
    simp only [bind, Except.bind] at h
    repeat' split at h
    all_goals cases h
    exact hv

theorem requestUpload_change {r : UploadRequest} {fresh : ApprovalId}
    {answer : Except Err ApprovalId} (h : Tx.Ran (requestUpload digest r fresh now) l answer l') :
    Change digest l l'.records := by
  unfold requestUpload insertRecord at h
  simp only [Tx.ran_lift_bind, Tx.ran_write_bind, Tx.ran_select_bind, Tx.ran_ite, Tx.ran_pure,
    Tx.ran_attempt_bind] at h
  obtain ⟨s, hs, ⟨_, _, rfl⟩ | ⟨hcount, l₁, hinsert, _, rfl⟩⟩ := h
  · exact .closed (fun r hr => ⟨hr.1.1, hr.1.2.2⟩) (by decide) .expired
  · obtain ⟨records, hrow, rfl⟩ := Option.map_eq_some_iff.mp hinsert
    refine .requested (Nat.lt_of_not_le hcount) rfl ?_ rfl rfl hrow
    refine ⟨⟨rfl, rfl⟩, ?_, rfl, ⟨_, rfl, .pending⟩, ⟨s, rfl, rfl⟩⟩
    exact congrArg some (scope_actor hs)

theorem closeRecord_change (i : ApprovalId) (now : Time) (l : CommandLedger)
    (hs : status ≠ .pending) (hphase : PhaseOf status phase) :
    Change digest l (closeRecord i status phase now l).records :=
  .closed (fun _ hr => hr.2) hs hphase

theorem owned_ran (h : Tx.Ran (owned i owner) l r l') :
    l' = l ∧ l.records.get? i = some r ∧ r.action = uploadAction ∧ r.requestedBy = owner := by
  unfold owned at h
  simp only [Tx.ran_select_bind, Tx.ran_demand_bind, Tx.ran_require_bind, Tx.ran_pure] at h
  obtain ⟨r', hr, ⟨ha, ho, _⟩, rfl, rfl⟩ := h
  exact ⟨rfl, hr, ha, ho⟩

/-- A consumption finds the owner's pending confirmation, and expires, rejects or grants it. -/
theorem consumeUpload_ran {answer : Except Err Unit}
    (h : Tx.Ran (consumeUpload digest i c now) l answer l') :
    ∃ r, l.records.get? i = some r ∧ r.action = uploadAction ∧ r.requestedBy = c.ownerKey ∧
      r.status = .pending ∧
      (r.expiresAt ≤ now ∧ answer ≠ .ok () ∧ l' = closeRecord i .expired "expired" now l ∨
        now < r.expiresAt ∧ valid digest r c = false ∧ answer ≠ .ok () ∧
          l' = closeRecord i .rejected "rejected" now l ∨
        now < r.expiresAt ∧ valid digest r c = true ∧ answer = .ok () ∧
          l' = closeRecord i .approved "consumed" now l) := by
  unfold consumeUpload at h
  rw [Tx.ran_bind] at h
  obtain ⟨r, l₁, howned, h⟩ := h
  obtain ⟨rfl, hr, ha, ho⟩ := owned_ran howned
  simp only [Tx.ran_require_bind, Tx.ran_ite, Tx.ran_write_bind, Tx.ran_pure] at h
  obtain ⟨⟨hp, _⟩, h⟩ := h
  refine ⟨r, hr, ha, ho, hp, ?_⟩
  rcases h with ⟨hexpired, rfl, rfl⟩ | ⟨hlive, ⟨hvalid, rfl, rfl⟩ | ⟨hvalid, rfl, rfl⟩⟩
  · exact .inl ⟨hexpired, by simp, rfl⟩
  · exact .inr (.inl ⟨lt_of_not_ge hlive, hvalid, by simp, rfl⟩)
  · exact .inr (.inr ⟨lt_of_not_ge hlive, by simpa using hvalid, rfl, rfl⟩)

theorem rejectUpload_ran {key : String} {answer : Except Err Unit}
    (h : Tx.Ran (rejectUpload i owner key now) l answer l') :
    (∃ r, l.records.get? i = some r ∧ r.requestedBy = owner) ∧
      (l' = l ∨ l' = closeRecord i .expired "expired" now l ∨
        l' = closeRecord i .rejected "rejected" now l) := by
  unfold rejectUpload at h
  rw [Tx.ran_bind] at h
  obtain ⟨r, l₁, howned, h⟩ := h
  obtain ⟨rfl, hr, _, ho⟩ := owned_ran howned
  refine ⟨⟨r, hr, ho⟩, ?_⟩
  simp only [Tx.ran_require_bind, Tx.ran_ite, Tx.ran_write_bind, Tx.ran_pure, Tx.ran_raise,
    and_false, or_false] at h
  rcases h with ⟨_, _, _, rfl⟩ | ⟨_, ⟨_, _, rfl⟩ | ⟨_, _, h⟩⟩
  · exact .inr (.inr rfl)
  · exact .inl rfl
  · rcases h with ⟨_, _, rfl⟩ | ⟨_, _, rfl⟩
    · exact .inr (.inl rfl)
    · exact .inr (.inr rfl)

theorem decideApproval_foreign {decision : Decision} {decidedBy : String} {answer : Except Err Unit}
    (h : Tx.Ran (decideApproval i decision decidedBy now) l answer l') : Foreign l l'.records := by
  unfold decideApproval at h
  simp only [Tx.ran_select_bind, Tx.ran_demand_bind, Tx.ran_require_bind, Tx.ran_ite, Tx.ran_pure,
    Tx.ran_write_bind] at h
  obtain ⟨r, hr, ha, _, hcases⟩ := h
  have hforeign : ∀ r, l.records.get? i = some r → r.action ≠ uploadAction := by
    intro r' hr'
    rw [hr] at hr'
    rw [← Option.some.inj hr']
    exact ha
  rcases hcases with ⟨_, _, _, rfl⟩ | ⟨_, ⟨_, _, rfl⟩ | ⟨_, _, rfl⟩⟩
  · exact .same
  · refine .updated (fun _ => ?_) hforeign fun _ => ?_ <;> rfl
  · refine .updated (fun _ => ?_) hforeign fun _ => ?_ <;> rfl

theorem checkApproval_foreign {k : TaskId} {scopeHash : Hash} {x : Option ExecutionId} {u : Unit}
    (h : Tx.Ran (checkApproval i k scopeHash x now) l u l') : Foreign l l'.records := by
  unfold checkApproval at h
  simp only [Tx.ran_select_bind, Tx.ran_demand_bind, Tx.ran_require_bind] at h
  obtain ⟨r, hr, ⟨_, _, haction, _⟩, h⟩ := h
  have hforeign : ∀ r, l.records.get? i = some r → r.action ≠ uploadAction := by
    intro r' hr'
    rw [hr] at hr'
    rw [← Option.some.inj hr', haction]
    decide
  cases x with
  | none =>
    rw [Tx.ran_pure] at h
    obtain ⟨_, rfl⟩ := h
    exact .same
  | some x =>
    rw [Tx.ran_write] at h
    subst h
    refine .updated (fun _ => ?_) hforeign fun _ => ?_ <;> rfl

theorem rejectUpload_change {key : String} {answer : Except Err Unit}
    (h : Tx.Ran (rejectUpload i owner key now) l answer l') : Change digest l l'.records := by
  obtain ⟨_, rfl | rfl | rfl⟩ := rejectUpload_ran h
  · exact .same
  · exact closeRecord_change i now l (by decide) .expired
  · exact closeRecord_change i now l (by decide) .rejected

theorem consumeUpload_change {answer : Except Err Unit}
    (h : Tx.Ran (consumeUpload digest i c now) l answer l') : Change digest l l'.records := by
  obtain ⟨r, _, _, _, _, ⟨_, _, rfl⟩ | ⟨_, _, _, rfl⟩ | ⟨_, _, _, rfl⟩⟩ := consumeUpload_ran h
  · exact closeRecord_change i now l (by decide) .expired
  · exact closeRecord_change i now l (by decide) .rejected
  · exact closeRecord_change i now l (by decide) .approved

variable (digest) in
theorem step_change (l : CommandLedger) (a : UploadAction) :
    Change digest l (stepUpload digest l a).records := by
  cases a with
  | requestUpload r fresh now =>
    simp only [stepUpload]
    rcases Tx.commit_cases (requestUpload digest r fresh now) l with
      ⟨answer, l', hran, hcommit⟩ | ⟨e, _, hcommit⟩
    · rw [hcommit]
      exact requestUpload_change hran
    · rw [hcommit]
      exact .same
  | consumeUpload i c now =>
    simp only [stepUpload]
    rcases Tx.commit_cases (consumeUpload digest i c now) l with
      ⟨answer, l', hran, hcommit⟩ | ⟨e, _, hcommit⟩
    · rw [hcommit]
      exact consumeUpload_change hran
    · rw [hcommit]
      exact .same
  | rejectUpload i owner key now =>
    simp only [stepUpload]
    rcases Tx.commit_cases (rejectUpload i owner key now) l with
      ⟨answer, l', hran, hcommit⟩ | ⟨e, _, hcommit⟩
    · rw [hcommit]
      exact rejectUpload_change hran
    · rw [hcommit]
      exact .same
  | decideApproval i decision decidedBy now =>
    simp only [stepUpload]
    rcases Tx.commit_cases (Commands.decideApproval i decision decidedBy now) l with
      ⟨answer, l', hran, hcommit⟩ | ⟨e, _, hcommit⟩
    · rw [hcommit]
      exact (decideApproval_foreign hran).change
    · rw [hcommit]
      exact .same
  | checkApproval i k scopeHash x now =>
    simp only [stepUpload]
    rcases Tx.commit_cases (Commands.checkApproval i k scopeHash x now) l with
      ⟨u, l', hran, hcommit⟩ | ⟨e, _, hcommit⟩
    · rw [hcommit]
      exact (checkApproval_foreign hran).change
    · rw [hcommit]
      exact .same

theorem kept_update {p : ApprovalRecord → Prop} [DecidablePred p]
    (hp : ∀ r, p r → r.action = uploadAction ∧ r.status = .pending) (hs : status ≠ .pending)
    (hphase : PhaseOf status phase) (hr : l.records.get? i = some r) :
    ∃ r', (l.records.update p (close status phase now) (id_closed status phase now)).get? i = some r' ∧ Kept r r' := by
  rw [Table.get?_update, hr, Option.map_some]
  split_ifs with hsel
  · exact ⟨_, rfl, .closed (hp r hsel).1 (hp r hsel).2 hs hphase⟩
  · exact ⟨_, rfl, .same⟩

variable {t : Table ApprovalRecord.id}

theorem Change.kept (h : Change digest l t) (hr : l.records.get? i = some r) :
    ∃ r', t.get? i = some r' ∧ Kept r r' := by
  cases h with
  | same => exact ⟨r, hr, .same⟩
  | closed hp hs hphase => exact kept_update hp hs hphase hr
  | requested _ _ _ _ _ hinsert =>
    obtain ⟨r', hr', hkept⟩ := kept_update (fun r (hr : PendingOf _ r ∧ r.expiresAt ≤ _) =>
      ⟨hr.1.1, hr.1.2.2⟩) (by decide) .expired hr
    exact ⟨r', Table.get?_insert_of_some hinsert hr', hkept⟩
  | @foreign j f hf hj ha =>
    obtain ⟨r', hr', rfl | ⟨rfl, rfl⟩⟩ := Table.exists_update_key (k := j) f hf hr
    · exact ⟨_, hr', .same⟩
    · exact ⟨_, hr', .foreign (hj r hr) (ha r)⟩

/-- A row that was not there is a new confirmation. -/
theorem Change.fresh (h : Change digest l t) (hr : l.records.get? i = none)
    (hr' : t.get? i = some r') :
    r'.action = uploadAction ∧ Confirmation digest r' ∧ r'.status = .pending := by
  cases h with
  | same =>
    rw [hr] at hr'
    cases hr'
  | closed =>
    rw [Table.get?_update, hr] at hr'
    cases hr'
  | @requested owner now r records hcount ha hconf hp ho hinsert =>
    rw [Table.get?_insert hinsert] at hr'
    split_ifs at hr' with hkey
    · rw [← Option.some.inj hr']
      exact ⟨ha, hconf, hp⟩
    · unfold expirePending at hr'
      dsimp only at hr'
      rw [Table.get?_update, hr] at hr'
      cases hr'
  | foreign =>
    rw [Table.get?_update, hr] at hr'
    cases hr'

theorem Confirmation.close (h : Confirmation digest r) (hphase : PhaseOf status phase) :
    Confirmation digest (close status phase now r) where
  unbound := h.unbound
  actor := h.actor
  schema := h.schema
  phase := ⟨phase, rfl, hphase⟩
  scope := h.scope

/-- Every confirmation is as `upload_approval.py` writes it. -/
def Exact (digest : UploadScope → Hash) (l : CommandLedger) : Prop :=
  ∀ i r, l.records.get? i = some r → r.action = uploadAction → Confirmation digest r

theorem Exact.step (h : Exact digest l) (a : UploadAction) :
    Exact digest (stepUpload digest l a) := by
  intro i r' hr' ha'
  have hchange := step_change digest l a
  cases hr : l.records.get? i with
  | none => exact (hchange.fresh hr hr').2.1
  | some r =>
    obtain ⟨r'', hr'', hkept⟩ := hchange.kept hr
    rw [hr'] at hr''
    obtain rfl := Option.some.inj hr''
    cases hkept with
    | same => exact h i _ hr ha'
    | closed ha _ _ hphase => exact (h i r hr ha).close hphase
    | foreign ha hsame => exact absurd (hsame ▸ ha') ha

/-- The confirmation and its state: it is the owner's for good, and final once closed. -/
def Final (r : ApprovalRecord) (l : CommandLedger) : Prop :=
  ∃ r', l.records.get? r.id = some r' ∧ r'.action = uploadAction ∧ r'.status = r.status

theorem Final.step (hs : r.status ≠ .pending) (h : Final r l) (a : UploadAction) :
    Final r (stepUpload digest l a) := by
  obtain ⟨r₁, hr₁, ha, hsame⟩ := h
  obtain ⟨r₂, hr₂, hkept⟩ := (step_change digest l a).kept hr₁
  cases hkept with
  | same => exact ⟨r₁, hr₂, ha, hsame⟩
  | closed _ hp => exact absurd (hsame.symm.trans hp) hs
  | foreign hforeign => exact absurd ha hforeign

theorem pendingCount_closed_le {p : ApprovalRecord → Prop} [DecidablePred p]
    (hs : status ≠ .pending) :
    ((l.records.update p (close status phase now) (id_closed status phase now)).rows.filter
      (fun r => PendingOf owner r)).length ≤ pendingCount owner l :=
  Table.length_filter_update_le fun _ _ _ hq => absurd hq.2.2 hs

theorem Change.count (h : Change digest l t)
    (hl : pendingCount owner l ≤ maxPendingPerOwner) :
    (t.rows.filter fun r => PendingOf owner r).length ≤ maxPendingPerOwner := by
  cases h with
  | same => exact hl
  | closed _ hs => exact (pendingCount_closed_le hs).trans hl
  | @requested owner' now r records hcount ha _ _ ho hinsert =>
    rw [Table.rows_insert hinsert, List.filter_append, List.length_append]
    by_cases howner : owner' = owner
    · subst howner
      have hone : ([r].filter fun r => PendingOf owner' r).length ≤ 1 :=
        List.length_filter_le _ _
      have hrest : ((expirePending owner' now l).records.rows.filter
          fun r => PendingOf owner' r).length < maxPendingPerOwner := hcount
      omega
    · have hnone : [r].filter (fun r => PendingOf owner r) = [] := by
        have hr : ¬ PendingOf owner r := fun hr => howner (ho ▸ hr.2.1)
        simp [hr]
      rw [hnone, List.length_nil, Nat.add_zero]
      have hexpire : ((expirePending owner' now l).records.rows.filter
          fun r => PendingOf owner r).length ≤ pendingCount owner l :=
        pendingCount_closed_le (by decide)
      exact hexpire.trans hl
  | @foreign j f hf hj ha =>
    refine le_trans ?_ hl
    apply Table.length_filter_update_le
    intro r hr hkey hq
    have hget := Table.mem_rows_iff.mp hr
    rw [hkey] at hget
    exact absurd ((ha r).symm.trans hq.1) (hj r hget)

theorem agrees_iff {α : Type} [DecidableEq α] {checked : Except Err α} {stored : Option α} :
    agrees checked stored = true ↔ ∃ v, checked = .ok v ∧ stored = some v := by
  cases checked with
  | error e => simp [agrees]
  | ok v => simp [agrees]

/-- For a confirmation the test is that the values are the stored ones. -/
theorem Confirmation.valid_iff (h : Confirmation digest r) :
    valid digest r c = true ↔ ClaimScope r.metadata c := by
  obtain ⟨s, hs, hhash⟩ := h.scope
  have hintact : ∃ s ∈ scope? r.metadata, r.metadata.scopeHash = some (digest s) := ⟨s, hs, hhash⟩
  unfold valid ClaimScope
  simp only [Bool.and_eq_true, decide_eq_true_eq, agrees_iff, h.schema, h.unbound.1, h.unbound.2,
    Option.isNone_none, true_and, hintact, and_true, and_assoc]

theorem granted_ran (h : granted digest l i c now = true) :
    ∃ l', Tx.Ran (consumeUpload digest i c now) l (.ok ()) l' ∧
      stepUpload digest l (.consumeUpload i c now) = l' := by
  unfold granted at h
  simp only [stepUpload]
  rcases Tx.commit_cases (consumeUpload digest i c now) l with
    ⟨answer, l', hran, hcommit⟩ | ⟨e, _, hcommit⟩
  · rw [hcommit] at h ⊢
    cases answer with
    | error e => cases h
    | ok u => exact ⟨l', hran, rfl⟩
  · rw [hcommit] at h
    cases h

/-- A granted consumption finds a pending confirmation and leaves an approved one. -/
theorem granted_spec (h : granted digest l i c now = true) :
    ∃ r, l.records.get? i = some r ∧ r.action = uploadAction ∧ r.requestedBy = c.ownerKey ∧
      r.status = .pending ∧ now < r.expiresAt ∧ valid digest r c = true ∧
      (stepUpload digest l (.consumeUpload i c now)).records.get? i =
        some (close .approved "consumed" now r) := by
  obtain ⟨l', hran, hstep⟩ := granted_ran h
  obtain ⟨r, hr, ha, ho, hp, ⟨_, hanswer, _⟩ | ⟨_, _, hanswer, _⟩ | ⟨hlive, hvalid, _, hl⟩⟩ :=
    consumeUpload_ran hran
  · exact absurd rfl hanswer
  · exact absurd rfl hanswer
  · refine ⟨r, hr, ha, ho, hp, hlive, hvalid, ?_⟩
    have hid : r.id = i := Table.key_of_get? hr
    rw [hstep, hl, closeRecord]
    dsimp only
    rw [Table.get?_update, hr, Option.map_some, if_pos ⟨hid, ha, hp⟩]

/-- One when the call is granted the consumption of a confirmation. -/
def grantedTo (digest : UploadScope → Hash) (i : ApprovalId) (l : CommandLedger) : UploadAction → ℕ
  | .consumeUpload j c now => if j = i ∧ granted digest l j c now = true then 1 else 0
  | _ => 0

/-- How often a sequence of calls is granted the consumption of a confirmation. -/
def grants (digest : UploadScope → Hash) (i : ApprovalId) : CommandLedger → List UploadAction → ℕ
  | _, [] => 0
  | l, a :: as => grantedTo digest i l a + grants digest i (stepUpload digest l a) as

variable (digest) in
theorem grantedTo_cases (i : ApprovalId) (l : CommandLedger) (a : UploadAction) :
    grantedTo digest i l a = 0 ∨ grantedTo digest i l a = 1 ∧
      ∃ c now, a = .consumeUpload i c now ∧ granted digest l i c now = true := by
  cases a with
  | consumeUpload j c now =>
    simp only [grantedTo]
    split_ifs with h
    · obtain ⟨rfl, hgranted⟩ := h
      exact .inr ⟨rfl, c, now, rfl, hgranted⟩
    · exact .inl rfl
  | requestUpload r fresh now => exact .inl rfl
  | rejectUpload j owner key now => exact .inl rfl
  | decideApproval j decision decidedBy now => exact .inl rfl
  | checkApproval j k scopeHash x now => exact .inl rfl

theorem Final.run (hs : r.status ≠ .pending) (as : List UploadAction) :
    ∀ l, Final r l → Final r (as.foldl (stepUpload digest) l) := by
  induction as with
  | nil => exact fun _ h => h
  | cons a as ih => exact fun l h => ih _ (h.step hs a)

variable (digest) in
/-- A closed confirmation is never granted. -/
theorem grants_final (hs : r.status ≠ .pending) (as : List UploadAction) :
    ∀ l, Final r l → grants digest r.id l as = 0 := by
  induction as with
  | nil => exact fun _ _ => rfl
  | cons a as ih =>
    intro l h
    rw [grants, ih _ (h.step hs a)]
    rcases grantedTo_cases digest r.id l a with hzero | ⟨_, c, now, _, hgranted⟩
    · rw [hzero]
    · obtain ⟨r', hr', _, _, hp, _⟩ := granted_spec hgranted
      obtain ⟨r'', hr'', _, hsame⟩ := h
      rw [hr'] at hr''
      rw [Option.some.inj hr''] at hp
      exact absurd (hsame.symm.trans hp) hs

theorem grants_le_one (i : ApprovalId) (as : List UploadAction) :
    ∀ l, grants digest i l as ≤ 1 := by
  induction as with
  | nil => exact fun _ => Nat.zero_le _
  | cons a as ih =>
    intro l
    rw [grants]
    rcases grantedTo_cases digest i l a with hzero | ⟨hone, c, now, rfl, hgranted⟩
    · rw [hzero, Nat.zero_add]
      exact ih _
    · obtain ⟨r, hr, ha, _, _, _, _, hr'⟩ := granted_spec hgranted
      have hid : r.id = i := Table.key_of_get? hr
      have hfinal : Final (close .approved "consumed" now r)
          (stepUpload digest l (.consumeUpload i c now)) := by
        rw [Final, id_closed, hid]
        exact ⟨_, hr', ha, rfl⟩
      have hzero := grants_final digest (by simp [close]) as _ hfinal
      rw [id_closed, hid] at hzero
      rw [hone, hzero]

variable (now) in
/-- A claim about other values closes a pending confirmation of its owner. -/
theorem mismatch_closes (hexact : Exact digest l) (hr : l.records.get? i = some r)
    (ha : r.action = uploadAction) (hp : r.status = .pending) (ho : r.requestedBy = c.ownerKey)
    (hc : ¬ ClaimScope r.metadata c) :
    ∃ r', (stepUpload digest l (.consumeUpload i c now)).records.get? i = some r' ∧
      r'.action = uploadAction ∧ (r'.status = .rejected ∨ r'.status = .expired) := by
  have hconf := hexact i r hr ha
  have hid : r.id = i := Table.key_of_get? hr
  have hvalid : valid digest r c = false := by
    rw [← Bool.not_eq_true, hconf.valid_iff]
    exact hc
  obtain ⟨p, hphase, hpending⟩ := hconf.phase
  rw [hp] at hpending
  cases hpending
  have howned : owned i c.ownerKey l = (.ok r, l) := by
    have hran : Tx.Ran (owned i c.ownerKey) l r l := by
      unfold owned
      simp only [Tx.ran_select_bind, Tx.ran_demand_bind, Tx.ran_require_bind, Tx.ran_pure]
      exact ⟨r, hr, ⟨ha, ho, ho ▸ hconf.actor⟩, rfl, trivial⟩
    exact hran
  have hclosed : ∀ status phase, (closeRecord i status phase now l).records.get? i =
      some (close status phase now r) := by
    intro status phase
    rw [closeRecord]
    dsimp only
    rw [Table.get?_update, hr, Option.map_some, if_pos ⟨hid, ha, hp⟩]
  by_cases hlive : r.expiresAt ≤ now
  · have hran : Tx.Ran (consumeUpload digest i c now) l (.error expiredError)
        (closeRecord i .expired "expired" now l) := by
      unfold consumeUpload
      rw [Tx.ran_bind]
      refine ⟨r, l, howned, ?_⟩
      rw [Tx.ran_require_bind, if_pos hlive, Tx.ran_write_bind, Tx.ran_pure]
      exact ⟨⟨hp, hphase⟩, rfl, rfl⟩
    refine ⟨close .expired "expired" now r, ?_, ha, .inr rfl⟩
    rw [stepUpload, Tx.commit_ok.mpr hran]
    exact hclosed _ _
  · have hran : Tx.Ran (consumeUpload digest i c now) l (.error uploadError)
        (closeRecord i .rejected "rejected" now l) := by
      unfold consumeUpload
      rw [Tx.ran_bind]
      refine ⟨r, l, howned, ?_⟩
      rw [Tx.ran_require_bind, if_neg hlive, if_pos hvalid, Tx.ran_write_bind, Tx.ran_pure]
      exact ⟨⟨hp, hphase⟩, rfl, rfl⟩
    refine ⟨close .rejected "rejected" now r, ?_, ha, .inl rfl⟩
    rw [stepUpload, Tx.commit_ok.mpr hran]
    exact hclosed _ _

variable (owner) in
/-- A call of another owner changes nothing. -/
theorem stranger_unchanged (hr : l.records.get? i = some r) :
    (r.requestedBy ≠ c.ownerKey → stepUpload digest l (.consumeUpload i c now) = l) ∧
      (r.requestedBy ≠ owner → ∀ key, stepUpload digest l (.rejectUpload i owner key now) = l) := by
  constructor
  · intro ho
    simp only [stepUpload]
    rcases Tx.commit_cases (consumeUpload digest i c now) l with
      ⟨answer, l', hran, _⟩ | ⟨e, _, hcommit⟩
    · obtain ⟨r', hr', _, ho', _⟩ := consumeUpload_ran hran
      rw [hr] at hr'
      exact absurd (Option.some.inj hr' ▸ ho') ho
    · rw [hcommit]
  · intro ho key
    simp only [stepUpload]
    rcases Tx.commit_cases (rejectUpload i owner key now) l with
      ⟨answer, l', hran, _⟩ | ⟨e, _, hcommit⟩
    · obtain ⟨⟨r', hr', ho'⟩, _⟩ := rejectUpload_ran hran
      rw [hr] at hr'
      exact absurd (Option.some.inj hr' ▸ ho') ho
    · rw [hcommit]

/-- The other functions that decide or consume approvals do not touch a confirmation. -/
theorem confirmation_untouched (hr : l.records.get? i = some r) (ha : r.action = uploadAction) :
    (∀ j decision decider now,
      (stepUpload digest l (.decideApproval j decision decider now)).records.get? i = some r) ∧
      ∀ j k hash x now,
        (stepUpload digest l (.checkApproval j k hash x now)).records.get? i = some r := by
  constructor
  · intro j decision decider now
    simp only [stepUpload]
    rcases Tx.commit_cases (Commands.decideApproval j decision decider now) l with
      ⟨answer, l', hran, hcommit⟩ | ⟨e, _, hcommit⟩
    · rw [hcommit]
      exact (decideApproval_foreign hran).untouched hr ha
    · rw [hcommit]
      exact hr
  · intro j k hash x now
    simp only [stepUpload]
    rcases Tx.commit_cases (Commands.checkApproval j k hash x now) l with
      ⟨answer, l', hran, hcommit⟩ | ⟨e, _, hcommit⟩
    · rw [hcommit]
      exact (checkApproval_foreign hran).untouched hr ha
    · rw [hcommit]
      exact hr

/-- The confirmations are exact and no owner has too many pending ones. -/
structure Bounded (digest : UploadScope → Hash) (l : CommandLedger) : Prop where
  exact : Exact digest l
  count : ∀ owner, pendingCount owner l ≤ maxPendingPerOwner

theorem Bounded.step (h : Bounded digest l) (a : UploadAction) :
    Bounded digest (stepUpload digest l a) where
  exact := h.exact.step a
  count owner := (step_change digest l a).count (h.count owner)

theorem Bounded.run (as : List UploadAction) :
    ∀ l, Bounded digest l → Bounded digest (as.foldl (stepUpload digest) l) := by
  induction as with
  | nil => exact fun _ h => h
  | cons a as ih => exact fun l h => ih _ (h.step a)

theorem bounded_of_none (h : ∀ i r, l.records.get? i = some r → r.action ≠ uploadAction) :
    Bounded digest l where
  exact i r hr ha := absurd ha (h i r hr)
  count owner := by
    have hnone : l.records.rows.filter (fun r => PendingOf owner r) = [] := by
      rw [List.filter_eq_nil_iff]
      intro r hr
      rw [decide_eq_true_eq]
      exact fun hp => h r.id r (Table.mem_rows_iff.mp hr) hp.1
    rw [pendingCount, hnone]
    exact Nat.zero_le _

/-- After any calls on a ledger that had no confirmations: each is consumed at most once, by its
owner before its expiry with the stored values and an intact hash; other values of the owner
close it for good; other owners and other functions leave it alone; its status agrees with its
phase and is final once it is not pending; and no owner has more than sixteen pending ones. -/
theorem upload_confirmed (digest : UploadScope → Hash) (l₀ : CommandLedger)
    (h₀ : ∀ i r, l₀.records.get? i = some r → r.action ≠ uploadAction) (as : List UploadAction) :
    let l := as.foldl (stepUpload digest) l₀
    (∀ i, grants digest i l₀ as ≤ 1) ∧ (∀ owner, pendingCount owner l ≤ maxPendingPerOwner) ∧
    (∀ i c now, granted digest l i c now = true → ∃ r, l.records.get? i = some r ∧
      r.action = uploadAction ∧ r.requestedBy = c.ownerKey ∧ r.status = .pending ∧
      now < r.expiresAt ∧ ClaimScope r.metadata c ∧
      ∃ s, scope? r.metadata = some s ∧ r.metadata.scopeHash = some (digest s)) ∧
    ∀ i r, l.records.get? i = some r → r.action = uploadAction →
      (∃ p, r.metadata.phase = some p ∧ PhaseOf r.status p) ∧
      (r.status ≠ .pending → ∀ as' : List UploadAction, Final r (as'.foldl (stepUpload digest) l)) ∧
      (∀ c now, r.status = .pending → r.requestedBy = c.ownerKey → ¬ ClaimScope r.metadata c →
        ∃ r', (r'.status = .rejected ∨ r'.status = .expired) ∧ r'.id = i ∧ ∀ as' : List UploadAction,
          Final r' (as'.foldl (stepUpload digest) (stepUpload digest l (.consumeUpload i c now)))) ∧
      (∀ c now, r.requestedBy ≠ c.ownerKey → stepUpload digest l (.consumeUpload i c now) = l) ∧
      (∀ owner key now, r.requestedBy ≠ owner →
        stepUpload digest l (.rejectUpload i owner key now) = l) ∧
      (∀ j decision decider now,
        (stepUpload digest l (.decideApproval j decision decider now)).records.get? i = some r) ∧
      ∀ j k hash x now,
        (stepUpload digest l (.checkApproval j k hash x now)).records.get? i = some r := by
  intro l
  have hbounded : Bounded digest l := .run as l₀ (bounded_of_none h₀)
  refine ⟨fun i => grants_le_one i as l₀, hbounded.count, ?_, ?_⟩
  · intro i c now hgranted
    obtain ⟨r, hr, ha, ho, hp, hlive, hvalid, _⟩ := granted_spec hgranted
    have hconf := hbounded.exact i r hr ha
    exact ⟨r, hr, ha, ho, hp, hlive, hconf.valid_iff.mp hvalid, hconf.scope⟩
  · intro i r hr ha
    have hid : r.id = i := Table.key_of_get? hr
    refine ⟨(hbounded.exact i r hr ha).phase, ?_, ?_, ?_, ?_, confirmation_untouched hr ha⟩
    · intro hs as'
      exact Final.run hs as' l ⟨r, hid.symm ▸ hr, ha, rfl⟩
    · intro c now hp ho hc
      obtain ⟨r', hr', ha', hs⟩ := mismatch_closes now hbounded.exact hr ha hp ho hc
      have hid' : r'.id = i := Table.key_of_get? hr'
      have hclosed : r'.status ≠ .pending := by
        rcases hs with hs | hs <;> rw [hs] <;> decide
      exact ⟨r', hs, hid', fun as' => Final.run hclosed as' _ ⟨r', hid'.symm ▸ hr', ha', rfl⟩⟩
    · exact fun c now ho => (stranger_unchanged c.ownerKey hr).1 ho
    · exact fun owner key now ho => (stranger_unchanged owner (c := ⟨"", "", "", "", "", "", none⟩) hr).2 ho key

def plainUpload : UploadRequest where
  ownerKey := "owner"
  conversationKey := "chat"
  workspace := "/w"
  relativePath := "a"
  destinationId := "d"
  requestChannelId := "c"
  sha256 := String.ofList (List.replicate 64 'a')
  fileIdentity := some ⟨1, 2, 3, 4, 5⟩
  counts := [("email", 1)]

/-- The claim names the file in another spelling of its path. -/
def plainClaim : UploadClaim where
  ownerKey := "owner"
  conversationKey := "chat"
  sha256 := String.ofList (List.replicate 64 'a')
  destinationId := "d"
  workspace := "/w/"
  relativePath := "./a"
  fileIdentity := some ⟨1, 2, 3, 4, 5⟩

def plainUploads : List UploadAction :=
  [.requestUpload plainUpload 1 0, .consumeUpload 1 plainClaim 10, .consumeUpload 1 plainClaim 11]

theorem upload_confirmed_plain : grants (fun _ => []) 1 {} plainUploads = 1 ∧
    grants (fun _ => []) 1 {} plainUploads ≤ 1 ∧
    pendingCount "owner" (plainUploads.foldl (stepUpload fun _ => []) {}) ≤ maxPendingPerOwner := by
  have h := upload_confirmed (fun _ => []) {} (fun i r hr => by cases hr) plainUploads
  exact ⟨by decide +kernel, h.1 1, h.2.1 "owner"⟩

end NyanyaAgent.Safety
