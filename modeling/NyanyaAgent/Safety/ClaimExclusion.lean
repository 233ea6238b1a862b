import Mathlib.Data.List.Perm.Subperm
import NyanyaAgent.Invariants.Claims
import NyanyaAgent.System.Invariant

/-!
# The exclusion of claims

An apply holds its workspace alone, the unreleased claims never outnumber the slots,
and an older claim of a task never makes a new one fail.
-/
namespace NyanyaAgent.Safety
open NyanyaAgent.Schema NyanyaAgent.Relational NyanyaAgent.Operations NyanyaAgent.Plans
open NyanyaAgent.Drafts NyanyaAgent.Lifecycle NyanyaAgent.Runs NyanyaAgent.Invariants
open NyanyaAgent.System

variable {env : Environment} {κ : Kind} {l l' : Ledger} {k : TaskId} {spec : OperationSpec}

/-- While an apply holds a claim, no other operation holds one of its workspace. -/
def ApplyAlone (l : Ledger) : Prop :=
  ∀ j k spec spec', Holds l j spec → Holds l k spec' → spec.kind = .apply →
    spec'.workspace = spec.workspace → j = k

theorem busy_of_holds {spec' : OperationSpec} (h : Holds l k spec')
    (hroot : spec'.workspace = spec.workspace) (hkind : spec.kind = .apply ∨ spec'.kind = .apply) :
    WorkspaceBusy l spec := by
  obtain ⟨⟨_, c, hc, hr, _⟩, parent, ho⟩ := h
  obtain ⟨o, ho, hlink⟩ := of_skeleton_operation ho
  have hspec : o.spec = spec' := hlink.1
  obtain ⟨hmem, hkey⟩ := Table.get?_eq_some.mp hc
  obtain ⟨hmem', hkey'⟩ := Table.get?_eq_some.mp ho
  exact ⟨c, hmem, hr, o, hmem', hkey'.trans hkey.symm, hspec ▸ hroot, hspec ▸ hkind⟩

theorem ApplyAlone.step (ha : ApplyAlone l) (hg : Good l) (h : Step env True κ l l') :
    ApplyAlone l' := by
  intro j k spec spec' hj hk hkind hroot
  rcases holds_step hg.linked hg.sound h hk with hk₀ | ⟨_, hothers, hfree⟩
  · rcases holds_step hg.linked hg.sound h hj with hj₀ | ⟨_, hothers, hfree⟩
    · exact ha j k spec spec' hj₀ hk₀ hkind hroot
    · rcases hothers k spec' hk with rfl | hk₀
      · rfl
      · exact absurd (busy_of_holds hk₀ hroot (.inl hkind)) hfree
  · rcases hothers j spec hj with rfl | hj₀
    · rfl
    · exact absurd (busy_of_holds hj₀ hroot.symm (.inr hkind)) hfree

/-- The operation tasks with an unreleased claim. -/
def heldTasks (l : Ledger) : List TaskId :=
  (l.claims.rows.filter fun c => c.released = false ∧ (l.operations.get? c.taskId).isSome).map
    TaskClaim.taskId

theorem length_heldTasks (l : Ledger) : (heldTasks l).length = activeClaims l :=
  List.length_map _

theorem nodup_heldTasks (l : Ledger) : (heldTasks l).Nodup :=
  l.claims.nodup.sublist (List.filter_sublist.map _)

theorem mem_heldTasks : k ∈ heldTasks l ↔ ∃ spec, Holds l k spec := by
  constructor
  · intro h
    obtain ⟨c, hc, rfl⟩ := List.mem_map.mp h
    rw [List.mem_filter, decide_eq_true_eq] at hc
    obtain ⟨hmem, hr, ho⟩ := hc
    obtain ⟨o, ho⟩ := Option.isSome_iff_exists.mp ho
    exact ⟨o.spec, ⟨_, c, Table.mem_rows_iff.mp hmem, hr, rfl⟩, _, skeleton_operation ho⟩
  · rintro ⟨spec, ⟨_, c, hc, hr, _⟩, parent, ho⟩
    obtain ⟨o, ho, _⟩ := of_skeleton_operation ho
    obtain ⟨hmem, hkey⟩ := Table.get?_eq_some.mp hc
    refine List.mem_map.mpr ⟨c, List.mem_filter.mpr ⟨hmem, ?_⟩, hkey⟩
    rw [decide_eq_true_eq, hkey, ho]
    exact ⟨hr, rfl⟩

/-- Without a start, the count of unreleased claims does not grow. -/
theorem activeClaims_step (hg : Good l) (h : Step env True κ l l') (hκ : κ ≠ .start) :
    activeClaims l' ≤ activeClaims l := by
  rw [← length_heldTasks, ← length_heldTasks]
  refine (List.subperm_of_subset (nodup_heldTasks l') fun k hk => ?_).length_le
  obtain ⟨spec, hk⟩ := mem_heldTasks.mp hk
  rcases holds_step hg.linked hg.sound h hk with hk₀ | ⟨hstart, _⟩
  · exact mem_heldTasks.mpr ⟨spec, hk₀⟩
  · exact absurd hstart hκ

/-- A change adds at most one unreleased claim. -/
theorem activeClaims_succ (hg : Good l) (h : Step env True κ l l') :
    activeClaims l' ≤ activeClaims l + 1 := by
  by_cases hnew : ∃ k ∈ heldTasks l', k ∉ heldTasks l
  · obtain ⟨k, hk, hnot⟩ := hnew
    obtain ⟨spec, hk⟩ := mem_heldTasks.mp hk
    rcases holds_step hg.linked hg.sound h hk with hk₀ | ⟨_, hothers, _⟩
    · exact absurd (mem_heldTasks.mpr ⟨spec, hk₀⟩) hnot
    · rw [← length_heldTasks, ← length_heldTasks, ← List.length_cons (a := k)]
      refine (List.subperm_of_subset (nodup_heldTasks l') fun j hj => ?_).length_le
      obtain ⟨spec', hj⟩ := mem_heldTasks.mp hj
      rcases hothers j spec' hj with rfl | hj₀
      · exact List.mem_cons_self
      · exact List.mem_cons_of_mem _ (mem_heldTasks.mpr ⟨spec', hj₀⟩)
  · rw [← length_heldTasks, ← length_heldTasks]
    refine Nat.le_succ_of_le (List.subperm_of_subset (nodup_heldTasks l') fun k hk => ?_).length_le
    by_contra hnot
    exact hnew ⟨k, hk, hnot⟩

/-- The slots a `claim` was called with. -/
def slotsOf : Action → ℕ
  | .command (.claim _ slots _ _) => slots
  | _ => 0

theorem activeClaims_action {w : World} {a : Action} (hw : Consistent env w) (ha : Legal w a) :
    activeClaims (step env w a).ledger ≤ max (activeClaims w.ledger) (slotsOf a) := by
  by_cases hstart : .start ∈ actionKinds a
  · obtain ⟨generation, slots, x, entry, rfl⟩ := start_mem_actionKinds hstart
    rcases step_command env w (.claim generation slots x entry) with ⟨record, l', hran, hstep⟩ | ⟨_, hstep⟩
    · rw [hstep]
      rcases claim_cases hran with ⟨_, rfl⟩ | ⟨hslots, r, t, o, _, hc, hs⟩
      · exact le_max_left _ _
      · have hstart : Step env True .start w.ledger l' := hc.step hs
        have hsucc : activeClaims l' ≤ activeClaims w.ledger + 1 := activeClaims_succ hw.good hstart
        exact (hsucc.trans hslots).trans (le_max_right _ _)
    · rw [hstep]
      exact le_max_left _ _
  · have hchain : Chain env True (actionKinds a) w.ledger (step env w a).ledger :=
      step_chain fun _ => hw.promise ha
    refine le_trans ?_ (le_max_left _ _)
    exact hchain.relation (R := fun l l' => activeClaims l' ≤ activeClaims l) (I := Good)
      (fun _ => le_rfl) (fun _ _ _ h₁ h₂ => h₂.trans h₁) (fun _ _ _ _ hg hs => hg.step hs)
      (fun κ hκ _ _ hg hs => activeClaims_step hg hs fun he => hstart (he ▸ hκ)) hw.good

theorem activeClaims_run {w w' : World} {as : List Action} (hw : Consistent env w)
    (h : Run (step env) Legal w as w') :
    activeClaims w'.ledger ≤ max (activeClaims w.ledger) ((as.map slotsOf).foldr max 0) := by
  induction h with
  | nil => exact le_max_left _ _
  | @cons w w' a as ha _ ih =>
    have hstep := activeClaims_action hw ha
    have hrest := ih (hw.step ha)
    simp only [List.map_cons, List.foldr_cons]
    omega

theorem startAttempt_ran {t : AgentTask} {spec : OperationSpec} {worker : WorkerId} {x : ExecutionId}
    {entry now : Time} (hx : l.executions.get? x = none) (hc : ¬ Unreleased l t.id) :
    ∃ l', Tx.Ran (startAttempt t spec worker x entry now) l () l' := by
  let e : Execution :=
    { id := x, taskId := t.id, adapterType := "operation", status := .running
      workdir := spec.workspace, createdAt := entry, startedAt := some entry, updatedAt := entry
      lastHeartbeatAt := some entry }
  let c : TaskClaim :=
    { taskId := t.id, workerId := worker, ownerKey := t.requestedBy, executionId := x
      expiresAt := now + seconds 30 }
  obtain ⟨executions, hexecutions⟩ : ∃ t', l.executions.insert e = some t' :=
    Table.exists_insert (r := e) hx
  have hfree : (l.claims.delete fun c => c.taskId = t.id ∧ c.released = true).get? c.taskId = none := by
    rw [Table.get?_delete]
    cases hold : l.claims.get? c.taskId with
    | none => rfl
    | some c' =>
      have hkey : c'.taskId = t.id := Table.key_of_get? hold
      have hreleased : c'.released = true := by
        by_contra hr
        exact hc ⟨_, c', hold, Bool.eq_false_of_not_eq_true hr, rfl⟩
      simp [Option.filter, hkey, hreleased]
  obtain ⟨claims, hclaims⟩ := Table.exists_insert (r := c) hfree
  unfold startAttempt insertExecution insertClaim
  simp only [Tx.ran_attempt_bind, Tx.ran_write_bind, Tx.ran_write, Option.map_eq_some_iff]
  exact ⟨_, _, ⟨executions, hexecutions, rfl⟩, _, ⟨claims, hclaims, rfl⟩, rfl⟩

/-- An unused execution identifier is enough for `claim` to commit. -/
theorem claim_ran (hg : Good l) {generation : WorkerId} {slots : ℕ} {x : ExecutionId}
    {entry now : Time} (hx : l.executions.get? x = none) :
    ∃ record l', Tx.Ran (claim generation slots x entry now) l record l' := by
  unfold claim
  by_cases hslots : slots ≤ activeClaims l
  · exact ⟨none, l, by rw [Tx.ran_select_bind, if_pos hslots, Tx.ran_pure]; exact ⟨rfl, rfl⟩⟩
  · simp only [Tx.ran_select_bind, if_neg hslots]
    cases hrow : (claimable l generation).find? fun r =>
      ¬ Conversation.HasEarlierWork l r.1.id ∧ ¬ WorkspaceBusy l r.2.spec with
    | none => exact ⟨none, l, Tx.ran_pure.mpr ⟨rfl, rfl⟩⟩
    | some row =>
      obtain ⟨t, o⟩ := row
      obtain ⟨ht, ho, hq, _⟩ := mem_claimable (List.mem_of_find?_eq_some hrow)
      have hfree : ¬ Unreleased l t.id := by
        rintro ⟨_, c, hc, hr, _⟩
        obtain ⟨_, t', ht', _, hrest⟩ := (hg.sound t.id).held c o hc hr ho
        rw [ht] at ht'
        cases ht'
        rcases hrest with ⟨hs | hs, _⟩ | ⟨hs, _⟩ <;> rw [hq] at hs <;> cases hs
      obtain ⟨l', hs⟩ : ∃ l', Tx.Ran (startAttempt t o.spec generation x entry now) l () l' :=
        startAttempt_ran hx hfree
      exact ⟨_, l', Tx.ran_bind.mpr ⟨(), l', hs, Tx.ran_pure.mpr ⟨rfl, rfl⟩⟩⟩

/-- Over any interleaving: a task has one claim at most, an apply holds its workspace alone,
the unreleased claims never outnumber the most slots any `claim` was called with, and a
`claim` with an unused execution identifier never raises. -/
theorem claim_exclusion (env : Environment) (w₀ w : World) (as : List Action) (h₀ : Init w₀)
    (hrun : Run (step env) Legal w₀ as w) :
    (∀ c ∈ w.ledger.claims.rows, ∀ c' ∈ w.ledger.claims.rows, c.taskId = c'.taskId → c = c') ∧
    ApplyAlone w.ledger ∧
    activeClaims w.ledger ≤ (as.map slotsOf).foldr max 0 ∧
    ∀ generation slots x entry, w.ledger.executions.get? x = none →
      ∃ record l', Tx.Ran (commandOp env w (.claim generation slots x entry)) w.ledger record l' := by
  have hcons₀ : Consistent env w₀ := .of_init h₀
  have hcons : Consistent env w := ReachableWorld.consistent ⟨w₀, as, h₀, hrun⟩
  have hnone : ∀ j spec, ¬ Holds w₀.ledger j spec := by
    rintro j spec ⟨_, parent, ho⟩
    obtain ⟨o, ho, _⟩ := of_skeleton_operation ho
    rw [h₀.ledger.operations] at ho
    cases ho
  refine ⟨fun c hc c' hc' hk => ?_, ?_, ?_, fun _ _ _ _ hx => claim_ran hcons.good hx⟩
  · have hrow := Table.mem_rows_iff.mp hc
    rw [hk, Table.mem_rows_iff.mp hc'] at hrow
    exact (Option.some.inj hrow).symm
  · have hboth : Consistent env w ∧ ApplyAlone w.ledger := by
      refine hrun.invariant (I := fun w => Consistent env w ∧ ApplyAlone w.ledger)
        (fun w a hw ha => ⟨hw.1.step ha, ?_⟩) ⟨hcons₀, fun j _ spec _ hj => absurd hj (hnone j spec)⟩
      have hchain : Chain env True (actionKinds a) w.ledger (step env w a).ledger :=
        step_chain fun _ => hw.1.promise ha
      exact (hchain.invariant (I := fun l => Good l ∧ ApplyAlone l)
        (fun _ _ _ _ hl hs => ⟨hl.1.step hs, hl.2.step hl.1 hs⟩) ⟨hw.1.good, hw.2⟩).2
    exact hboth.2
  · have hempty : activeClaims w₀.ledger = 0 := by
      rw [← length_heldTasks, List.length_eq_zero_iff, List.eq_nil_iff_forall_not_mem]
      intro j hj
      obtain ⟨spec, hj⟩ := mem_heldTasks.mp hj
      exact hnone j spec hj
    have hle := activeClaims_run hcons₀ hrun
    rwa [hempty, Nat.zero_max] at hle

/-- Three requests, and a worker with two slots that claims three times. -/
def slotsRun : List Action :=
  [.command (.registerWorker 1),
    .command (.submit plainRegistry { workspace := "/w" } "owner" 1 none none none 7 3),
    .command (.submit plainRegistry { workspace := "/w" } "owner" 1 none none none 8 3),
    .command (.submit plainRegistry { workspace := "/w" } "owner" 1 none none none 11 3),
    .command (.claim 1 2 9 0), .command (.claim 1 2 10 0), .command (.claim 1 2 12 0)]

def plainSlots : World := slotsRun.foldl (step plainEnvironment) plainWorld

theorem slotsRun_run : Run (step plainEnvironment) Legal plainWorld slotsRun plainSlots := by
  refine .cons trivial (.cons ⟨by decide +kernel, ?_, ?_⟩ (.cons ⟨by decide +kernel, ?_, ?_⟩
    (.cons ⟨by decide +kernel, ?_, ?_⟩ (.cons ?_ (.cons ?_ (.cons ?_ (.nil _)))))))
  iterate 6 exact fun _ => rfl
  all_goals
    simp only [Legal, LegalCommand]
    decide +kernel

theorem claim_exclusion_plain : activeClaims plainSlots.ledger = 2 ∧
    activeClaims plainSlots.ledger ≤ (slotsRun.map slotsOf).foldr max 0 := by
  have hactive : activeClaims plainSlots.ledger = 2 := by decide +kernel
  exact ⟨hactive, (claim_exclusion plainEnvironment plainWorld plainSlots slotsRun plainWorld_init
    slotsRun_run).2.2.1⟩

end NyanyaAgent.Safety
