import NyanyaAgent.Control.Selection
import NyanyaAgent.System.Invariant

/-!
# Bulk cancellation keeps to the selection

Each transaction of a bulk cancellation changes the selected task it is for, while that task is
as it was listed, and the apply children of the task's open plans.
-/
namespace NyanyaAgent.Safety
open NyanyaAgent.Schema NyanyaAgent.Relational NyanyaAgent.Operations NyanyaAgent.Lifecycle
open NyanyaAgent.System NyanyaAgent.Control

variable {l l' : Ledger} {j k : TaskId} {p : PlanId} {owner conversation : String} {now : Time}
  {t t' : AgentTask}

/-- The task is the apply task of a plan of its parent. -/
def ChildOf (l : Ledger) (k : TaskId) (p : PlanId) (j : TaskId) : Prop :=
  ∃ o, l.operations.get? j = some o ∧ o.parentTaskId = some k ∧ o.spec.planId = some p

/-- The task is the apply task of a plan of its parent that is still open. -/
def ApplyChild (l : Ledger) (k j : TaskId) : Prop := ∃ p ∈ openPlans l k, ChildOf l k p j

/-- What the stop of its parent makes of a task. -/
def StoppedRow (now : Time) (t t' : AgentTask) : Prop :=
  t.status = .queued ∧
      t' = { t with status := .cancelled, completedAt := some now, updatedAt := now } ∨
    (t.status = .running ∨ t.status = .cancelling) ∧
      t' = { t with status := .cancelling, updatedAt := now }

/-- A task is as it was, or was stopped with its parent. -/
def RowStopped (now : Time) (l l' : Ledger) (j : TaskId) : Prop :=
  ∃ t t', l.tasks.get? j = some t ∧ l'.tasks.get? j = some t' ∧ StoppedRow now t t'

theorem stopChild_links (reason : String) (now : Time) (l : Ledger) (child : TaskId × TaskStatus)
    (j : TaskId) : operationLinks (stopChild reason now l child) j = operationLinks l j := by
  unfold stopChild
  split
  · refine Table.map_get?_update _ _ _ ?_ _ _ ?_
    · exact fun _ => rfl
    · exact fun _ => rfl
  · rfl
  · rfl
  · rfl

theorem stopChild_ne {reason : String} {child : TaskId × TaskStatus} (h : j ≠ child.1) :
    (stopChild reason now l child).tasks.get? j = l.tasks.get? j := by
  unfold stopChild
  split
  · refine Table.get?_update_ne _ _ ?_ h
    exact fun _ => rfl
  · refine Table.get?_update_ne _ _ ?_ h
    exact fun _ => rfl
  · refine Table.get?_update_ne _ _ ?_ h
    exact fun _ => rfl
  · rfl

variable (now) in
/-- The child loop, one child at a time, with the status each had when the loop began. -/
theorem stopChildren_row (reason : String) {rows : List (TaskId × TaskStatus)}
    (hdistinct : rows.Pairwise fun a b => a.1 ≠ b.1)
    (hstatus : ∀ r ∈ rows, ∃ t, l.tasks.get? r.1 = some t ∧ t.status = r.2) (j : TaskId) :
    (rows.foldl (stopChild reason now) l).tasks.get? j = l.tasks.get? j ∨
      (∃ r ∈ rows, r.1 = j) ∧ RowStopped now l (rows.foldl (stopChild reason now) l) j := by
  induction rows generalizing l with
  | nil => exact .inl rfl
  | cons r rows ih =>
    obtain ⟨hfirst, hrest⟩ := List.pairwise_cons.mp hdistinct
    have hnext : ∀ r' ∈ rows, ∃ t, (stopChild reason now l r).tasks.get? r'.1 = some t ∧
        t.status = r'.2 := by
      intro r' hr'
      obtain ⟨t, ht, hs⟩ := hstatus r' (List.mem_cons_of_mem _ hr')
      exact ⟨t, by rw [stopChild_ne (hfirst r' hr').symm, ht], hs⟩
    rw [List.foldl_cons]
    rcases ih hrest hnext with hsame | ⟨⟨r', hr', rfl⟩, t, t', ht, ht', hstopped⟩
    · by_cases hj : j = r.1
      · subst hj
        obtain ⟨t, ht, hs⟩ := hstatus r List.mem_cons_self
        have hhead : (stopChild reason now l r).tasks.get? r.1 = l.tasks.get? r.1 ∨
            RowStopped now l (stopChild reason now l r) r.1 := by
          obtain ⟨k, s⟩ := r
          dsimp only at ht hs ⊢
          unfold stopChild
          split <;> rename_i hkind
          · refine .inr ⟨t, _, ht, (Table.get?_update_key _ _ _ ?_).trans ?_, .inl ⟨hs.trans hkind, rfl⟩⟩
            · exact fun _ => rfl
            · rw [ht, Option.map_some]
          · refine .inr ⟨t, _, ht, (Table.get?_update_key _ _ _ ?_).trans ?_, .inr ⟨.inl (hs.trans hkind), rfl⟩⟩
            · exact fun _ => rfl
            · rw [ht, Option.map_some]
          · refine .inr ⟨t, _, ht, (Table.get?_update_key _ _ _ ?_).trans ?_, .inr ⟨.inr (hs.trans hkind), rfl⟩⟩
            · exact fun _ => rfl
            · rw [ht, Option.map_some]
          · exact .inl rfl
        rcases hhead with hhead | ⟨t, t', ht, ht', hstopped⟩
        · exact .inl (hsame.trans hhead)
        · exact .inr ⟨⟨r, List.mem_cons_self, rfl⟩, t, t', ht, hsame.trans ht', hstopped⟩
      · exact .inl (hsame.trans (stopChild_ne hj))
    · have hne : r'.1 ≠ r.1 := (hfirst r' hr').symm
      rw [stopChild_ne hne] at ht
      exact .inr ⟨⟨r', List.mem_cons_of_mem _ hr', rfl⟩, t, t', ht, ht', hstopped⟩

theorem stopChildren_links (rows : List (TaskId × TaskStatus)) (reason : String) (now : Time)
    (l : Ledger) (j : TaskId) :
    operationLinks (rows.foldl (stopChild reason now) l) j = operationLinks l j := by
  induction rows generalizing l with
  | nil => rfl
  | cons r rows ih => rw [List.foldl_cons, ih, stopChild_links]

theorem childOf_iff : ChildOf l k p j ↔
    ∃ spec, operationLinks l j = some (spec, some k) ∧ spec.planId = some p := by
  constructor
  · rintro ⟨o, ho, hparent, hplan⟩
    exact ⟨o.spec, operationLinks_eq_some.mpr ⟨o, ho, rfl, hparent⟩, hplan⟩
  · rintro ⟨spec, hlinks, hplan⟩
    obtain ⟨o, ho, rfl, hparent⟩ := operationLinks_eq_some.mp hlinks
    exact ⟨o, ho, hparent, hplan⟩

theorem revokePlan_links (j : TaskId) :
    operationLinks (revokePlan k owner now l p) j = operationLinks l j :=
  stopChildren_links _ _ _ _ j

variable (l k p owner now) in
theorem revokePlan_row (j : TaskId) :
    (revokePlan k owner now l p).tasks.get? j = l.tasks.get? j ∨
      ChildOf l k p j ∧ RowStopped now l (revokePlan k owner now l p) j := by
  have hrows := stopChildren_row (l := l.updatePlan p fun r =>
      { r with status := .revoked, decidedBy := owner }) now "parent_cancelled"
    (children_pairwise _ k fun o => o.spec.planId = some p) (fun r hr => by
      obtain ⟨t, _, ht, hs, _⟩ := mem_children hr
      exact ⟨t, ht, hs⟩) j
  rcases hrows with hsame | ⟨⟨r, hr, rfl⟩, hstopped⟩
  · exact .inl hsame
  · obtain ⟨_, o, _, _, ho, hparent, hplan⟩ := mem_children hr
    exact .inr ⟨⟨o, ho, hparent, hplan⟩, hstopped⟩

variable (l k owner now) in
/-- The plan loop of `cancel`: a task has one plan, so it is stopped once at most. -/
theorem revokePlans_stopped {plans : List PlanId} (hdistinct : plans.Pairwise (· ≠ ·)) (j : TaskId) :
    (plans.foldl (revokePlan k owner now) l).tasks.get? j = l.tasks.get? j ∨
      (∃ p ∈ plans, ChildOf l k p j) ∧
        RowStopped now l (plans.foldl (revokePlan k owner now) l) j := by
  induction plans generalizing l with
  | nil => exact .inl rfl
  | cons p plans ih =>
    obtain ⟨hfirst, hrest⟩ := List.pairwise_cons.mp hdistinct
    rw [List.foldl_cons]
    have hchild : ∀ q, ChildOf (revokePlan k owner now l p) k q j → ChildOf l k q j := by
      intro q hq
      rw [childOf_iff] at hq ⊢
      rwa [revokePlan_links] at hq
    rcases ih (revokePlan k owner now l p) hrest with
      hsame | ⟨⟨q, hq, hqchild⟩, t, t', ht, ht', hstopped⟩
    · rcases revokePlan_row l k p owner now j with
        hhead | ⟨hpchild, t, t', ht, ht', hstopped⟩
      · exact .inl (hsame.trans hhead)
      · exact .inr ⟨⟨p, List.mem_cons_self, hpchild⟩, t, t', ht, hsame.trans ht', hstopped⟩
    · have hq' := hchild q hqchild
      rcases revokePlan_row l k p owner now j with
        hhead | ⟨⟨o, ho, _, hplan⟩, _⟩
      · rw [hhead] at ht
        exact .inr ⟨⟨q, List.mem_cons_of_mem _ hq, hq'⟩, t, t', ht, ht', hstopped⟩
      · obtain ⟨o', ho', _, hplan'⟩ := hq'
        obtain rfl := Option.some.inj (ho.symm.trans ho')
        exact absurd (Option.some.inj (hplan.symm.trans hplan')) (hfirst q hq)

/-- The listed task is its owner's, and as it was listed. -/
def AsListed (l : Ledger) (owner : String) (x : Target) : Prop :=
  ∃ t, l.tasks.get? x.id = some t ∧ t.requestedBy = owner ∧ t.status = x.status ∧
    t.updatedAt = x.updatedAt

/-- Every other task is as it was, or was stopped with its parent. -/
def Spared (now : Time) (l l' : Ledger) (k : TaskId) : Prop :=
  ∀ j, j ≠ k → l'.tasks.get? j = l.tasks.get? j ∨ ApplyChild l k j ∧ RowStopped now l l' j

theorem Spared.of_eq (h : ∀ j, j ≠ k → l'.tasks.get? j = l.tasks.get? j) : Spared now l l' k :=
  fun j hj => .inl (h j hj)

theorem dismissConn_spared {s : TaskStatus} (h : Tx.Ran (dismissConn t now) l s l') :
    Spared now l l' t.id := by
  unfold dismissConn at h
  simp only [Tx.ran_select_bind, Tx.ran_require_bind] at h
  obtain ⟨_, h⟩ := h
  split_ifs at h
  · obtain ⟨_, rfl⟩ := Tx.ran_pure.mp h
    exact .of_eq fun _ _ => rfl
  · simp only [Tx.ran_write_bind, Tx.ran_pure] at h
    obtain ⟨_, rfl⟩ := h
    refine .of_eq fun j hj => Table.get?_update_ne _ _ ?_ hj
    exact fun _ => rfl

theorem dismiss_spared {selection : Selection} {s : TaskStatus}
    (h : Tx.Ran (dismiss k owner selection now) l s l') :
    (∃ t, l.tasks.get? k = some t ∧ t.requestedBy = owner ∧ SelectedRevision selection t) ∧
      Spared now l l' k := by
  unfold dismiss at h
  simp only [Tx.ran_select_bind, Tx.ran_demand_bind, Tx.ran_require_bind] at h
  obtain ⟨t, ht, hrevision, h⟩ := h
  rw [Option.filter_eq_some_iff, decide_eq_true_eq] at ht
  have hspared := dismissConn_spared h
  rw [Table.key_of_get? ht.1] at hspared
  exact ⟨⟨t, ht.1, ht.2, hrevision⟩, hspared⟩

theorem cancel_spared {selection : Selection} {s : TaskStatus}
    (h : Tx.Ran (cancel k owner selection now) l s l') :
    (∃ t, l.tasks.get? k = some t ∧ t.requestedBy = owner ∧ SelectedRevision selection t) ∧
      Spared now l l' k := by
  unfold cancel at h
  simp only [Tx.ran_select_bind, Tx.ran_demand_bind, Tx.ran_require_bind] at h
  obtain ⟨t, ht, hrevision, _, h⟩ := h
  rw [Option.filter_eq_some_iff, decide_eq_true_eq] at ht
  refine ⟨⟨t, ht.1, ht.2, hrevision⟩, ?_⟩
  split_ifs at h
  · have hspared := dismissConn_spared h
    rwa [Table.key_of_get? ht.1] at hspared
  · simp only [Tx.ran_require_bind, Tx.ran_pure] at h
    obtain ⟨_, _, rfl⟩ := h
    exact .of_eq fun _ _ => rfl
  · obtain ⟨_, rfl⟩ := Tx.ran_pure.mp h
    exact .of_eq fun _ _ => rfl
  · simp only [Tx.ran_select_bind, Tx.ran_write_bind] at h
    intro j hj
    have hloop := revokePlans_stopped (rejectApprovals k owner now l) k owner now
      (openPlans_pairwise l k) j
    have hfinish : l'.tasks.get? j = ((openPlans l k).foldl (revokePlan k owner now)
        (rejectApprovals k owner now l)).tasks.get? j → l'.tasks.get? j = l.tasks.get? j ∨
          ApplyChild l k j ∧ RowStopped now l l' j := by
      intro hlast
      rcases hloop with hsame | ⟨⟨p, hp, hchild⟩, t₁, t₂, h₁, h₂, hstopped⟩
      · exact .inl (hlast.trans hsame)
      · exact .inr ⟨⟨p, hp, hchild⟩, t₁, t₂, h₁, hlast.trans h₂, hstopped⟩
    apply hfinish
    split at h
    · simp only [Tx.ran_write_bind, Tx.ran_pure] at h
      obtain ⟨_, rfl⟩ := h
      refine Table.get?_update_ne _ _ ?_ hj
      exact fun _ => rfl
    · simp only [Tx.ran_select_bind, Tx.ran_write_bind, Tx.ran_pure] at h
      obtain ⟨_, rfl⟩ := h
      refine Table.get?_update_ne _ _ ?_ hj
      exact fun _ => rfl

theorem cancelTarget_spared {x : Target} {s : TaskStatus}
    (h : Tx.Ran (cancelTarget owner x now) l s l') : AsListed l owner x ∧ Spared now l l' x.id := by
  unfold cancelTarget at h
  rw [Tx.ran_ite] at h
  rcases h with ⟨_, h⟩ | ⟨_, h⟩
  · obtain ⟨⟨t, ht, howner, hstatus, htime⟩, hspared⟩ := dismiss_spared h
    exact ⟨⟨t, ht, howner, hstatus _ rfl, htime _ rfl⟩, hspared⟩
  · obtain ⟨⟨t, ht, howner, hstatus, htime⟩, hspared⟩ := cancel_spared h
    exact ⟨⟨t, ht, howner, hstatus _ rfl, htime _ rfl⟩, hspared⟩

variable {others : ℕ → ControlState → ControlState} {clock : ℕ → Time} {s : ControlState}
  {step : CancelStep}

/-- A transaction of the loop is the one for its target. -/
theorem mem_cancelTargets {targets : List Target} {i : ℕ}
    (h : step ∈ cancelTargets owner others clock i targets s) : step.target ∈ targets ∧
      Tx.commit (cancelTarget owner step.target step.now) step.before =
        (step.answer, step.after) := by
  induction targets generalizing i s with
  | nil => cases h
  | cons x rest ih =>
    rcases List.mem_cons.mp h with rfl | h
    · exact ⟨List.mem_cons_self, rfl⟩
    · obtain ⟨hmem, hcommit⟩ := ih h
      exact ⟨List.mem_cons_of_mem _ hmem, hcommit⟩

/-- Whatever the rest of the program does in between: every transaction is for a target of the
latest unexpired selection of the owner in the conversation, the list that was read first shows
that selection, and the transaction changes nothing, or the target is as it was listed and
besides it only apply children of its open plans are stopped. -/
theorem selection_respected (env : Environment) (owner conversation : String)
    (others : ℕ → ControlState → ControlState) (clock : ℕ → Time) (s : ControlState) :
    (∀ step ∈ (cancelSelection env owner conversation others clock s).2, ∃ selected,
      latestSelection env s owner conversation = some selected ∧ clock 0 < selected.expiresAt ∧
      openList (others 0 s).ledger owner = selected.targets ∧ step.target ∈ selected.targets ∧
      (step.after = step.before ∨ AsListed step.before owner step.target ∧
        Spared step.now step.before step.after step.target.id)) ∧
    ((cancelSelection env owner conversation others clock s).2 = [] ∨ ∃ selected,
      selection env s owner conversation (clock 0) = some selected ∧
      openList (others 0 s).ledger owner = selected.targets) := by
  unfold cancelSelection
  split
  · exact ⟨fun step h => absurd h List.not_mem_nil, .inl rfl⟩
  · rename_i selected hselected
    split_ifs with hnil
    · exact ⟨fun step h => absurd h List.not_mem_nil, .inl rfl⟩
    dsimp only
    split_ifs with hlist
    · exact ⟨fun step h => absurd h List.not_mem_nil, .inl rfl⟩
    · refine ⟨fun step h => ?_, .inr ⟨selected, hselected, not_not.mp hlist⟩⟩
      obtain ⟨hmem, hcommit⟩ := mem_cancelTargets h
      unfold selection at hselected
      rw [Option.filter_eq_some_iff, decide_eq_true_eq] at hselected
      refine ⟨selected, hselected.1, hselected.2, not_not.mp hlist, hmem, ?_⟩
      rcases Tx.commit_cases (cancelTarget owner step.target step.now) step.before with
        ⟨_, l', hran, hok⟩ | ⟨_, _, herror⟩
      · rw [hok, Prod.mk.injEq] at hcommit
        rw [← hcommit.2]
        exact .inr (cancelTarget_spared hran)
      · rw [herror, Prod.mk.injEq] at hcommit
        exact .inl hcommit.2.symm

def waitingParent : AgentTask :=
  { id := 1, status := .awaitingApproval, requestedBy := "owner"
    metadata := { workspaceRoot := "/w" }, createdAt := 0, updatedAt := 2 }

def queuedChild : AgentTask :=
  { id := 2, status := .queued, requestedBy := "owner", metadata := { workspaceRoot := "/w" }
    createdAt := 3, updatedAt := 3 }

def openPlan : ChangePlan :=
  { id := 8, taskId := 1, ownerKey := "owner", workspace := "/w", planHash := [], changes := []
    status := .approved, expiresAt := 99, createdAt := 1 }

/-- A request that waits for its plan, and the queued task that applies the plan, both listed. -/
def listedTasks : ControlState :=
  listAndSelect plainEnvironment true "owner" "here" 4
    { ledger := {
        tasks := ⟨[waitingParent, queuedChild], by decide⟩
        operations := ⟨[{ taskId := 1, spec := { workspace := "/w" }, workerGeneration := 1 },
          { taskId := 2, spec := { kind := .apply, workspace := "/w", planId := some 8 }
            workerGeneration := 1, parentTaskId := some 1 }], by decide⟩
        plans := ⟨[openPlan], by decide⟩ } }

/-- A worker claims the apply task right before the first of the two is cancelled. -/
def claimBetween (i : ℕ) (s : ControlState) : ControlState :=
  if i = 1 then { s with ledger := (Tx.commit (claim 1 4 9 5 5) s.ledger).2 } else s

/-- The task that was claimed after the listing is stopped with its parent. -/
theorem claimed_child_stopped : ¬ ∀ step ∈
    (cancelSelection plainEnvironment "owner" "here" claimBetween (fun _ => 6) listedTasks).2,
    ∀ j t, step.before.tasks.get? j = some t → step.after.tasks.get? j = some t ∨
      ∃ x ∈ openList listedTasks.ledger "owner", x.id = j ∧ x.status = t.status ∧
        x.updatedAt = t.updatedAt := by
  have hfails : ∃ step ∈
      (cancelSelection plainEnvironment "owner" "here" claimBetween (fun _ => 6) listedTasks).2,
      ∃ t ∈ step.before.tasks.rows, t.id = 2 ∧ step.after.tasks.get? 2 ≠ some t ∧
        ¬ ∃ x ∈ openList listedTasks.ledger "owner", x.id = 2 ∧ x.status = t.status ∧
          x.updatedAt = t.updatedAt := by decide +kernel
  obtain ⟨step, hstep, t, ht, hid, hchanged, hunlisted⟩ := hfails
  intro h
  rcases h step hstep 2 t (Table.get?_eq_some.mpr ⟨ht, hid⟩) with hsame | hlisted
  · exact hchanged hsame
  · exact hunlisted hlisted

end NyanyaAgent.Safety
