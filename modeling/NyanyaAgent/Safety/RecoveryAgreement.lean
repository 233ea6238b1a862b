import NyanyaAgent.Operations.Inventory
import NyanyaAgent.Relational.Passes
import NyanyaAgent.System.Invariant

/-!
# The inventory and the recovery agree

What the inventory hides as healthy is what `recover` leaves alone at the same instant, and
`recover` does one thing to each operation it holds: it blocks the task, loses its open
attempt and releases its claim.
-/
namespace NyanyaAgent.Safety
open NyanyaAgent.Schema NyanyaAgent.Relational NyanyaAgent.Operations NyanyaAgent.Lifecycle
open NyanyaAgent.Invariants NyanyaAgent.System NyanyaAgent.Runs

variable {env : Environment} {l : Ledger} {k : TaskId} {x : ExecutionId} {cutoff now : Time}

section Recover

def heldOperation (o : TaskOperation) : TaskOperation :=
  { o with eligible := false, holdReason := "worker_interrupted", diagnosis := interruptionReason }

def heldTask (now : Time) (t : AgentTask) : AgentTask :=
  { t with status := .blocked, updatedAt := now }

def heldExecution (now : Time) (e : Execution) : Execution :=
  if e.status.Terminal then e else
    { e with status := .lost, error := interruptionReason, endedAt := some now, updatedAt := now }

def heldClaim (c : TaskClaim) : TaskClaim := { c with released := true }

theorem heldExecution_twice (now : Time) (e : Execution) :
    heldExecution now (heldExecution now e) = heldExecution now e := by
  by_cases h : e.status.Terminal <;> simp [heldExecution, h]

theorem interruptTask_rows (l : Ledger) (now : Time) (r : TaskId × Option ExecutionId) :
    (interruptTask now l r).tasks.get? k =
        (if r.1 = k then (l.tasks.get? k).map (heldTask now) else l.tasks.get? k) ∧
      (interruptTask now l r).operations.get? k =
        (if r.1 = k then (l.operations.get? k).map heldOperation else l.operations.get? k) ∧
      (interruptTask now l r).executions.get? x =
        (if r.2 = some x then (l.executions.get? x).map (heldExecution now)
          else l.executions.get? x) ∧
      (interruptTask now l r).claims.get? k =
        if r.1 = k ∧ r.2 ≠ none then (l.claims.get? k).map heldClaim else l.claims.get? k := by
  obtain ⟨j, y⟩ := r
  cases y with
  | none =>
    refine ⟨Table.get?_update_ite l.tasks j k (heldTask now) fun _ => rfl,
      Table.get?_update_ite l.operations j k heldOperation fun _ => rfl, ?_, ?_⟩
    · simp [interruptTask]
    · simp [interruptTask]
  | some y =>
    refine ⟨Table.get?_update_ite l.tasks j k (heldTask now) fun _ => rfl,
      Table.get?_update_ite l.operations j k heldOperation fun _ => rfl, ?_, ?_⟩
    · simp only [interruptTask, loseAttempt, Ledger.updateTask, Ledger.updateOperation,
        Ledger.appendEvent, Table.get?_update, Option.some.injEq]
      cases he : l.executions.get? x with
      | none => simp
      | some e =>
        have hid := Table.key_of_get? he
        by_cases hy : y = x
        · subst hy
          rw [if_pos rfl, Option.map_some, Option.map_some, heldExecution]
          by_cases hterm : e.status.Terminal
          · rw [if_pos hterm, if_neg fun h => h.2 hterm]
          · rw [if_neg hterm, if_pos ⟨hid, hterm⟩]
        · have hne : ¬ e.id = y := fun h => hy (h.symm.trans hid)
          simp [hy, hne]
    · have hboth : (j = k ∧ some y ≠ none) ↔ j = k := by simp
      simp only [hboth]
      exact Table.get?_update_ite l.claims j k heldClaim fun _ => rfl

theorem recover_rows (l : Ledger) (entry now : Time) :
    (recover entry now l).tasks.get? k =
        (if ∃ r ∈ recoverable l (entry - seconds 30) now, r.1 = k
          then (l.tasks.get? k).map (heldTask now) else l.tasks.get? k) ∧
      (recover entry now l).operations.get? k =
        (if ∃ r ∈ recoverable l (entry - seconds 30) now, r.1 = k
          then (l.operations.get? k).map heldOperation else l.operations.get? k) ∧
      (recover entry now l).executions.get? x =
        (if ∃ r ∈ recoverable l (entry - seconds 30) now, r.2 = some x
          then (l.executions.get? x).map (heldExecution now) else l.executions.get? x) ∧
      (recover entry now l).claims.get? k =
        if ∃ r ∈ recoverable l (entry - seconds 30) now, r.1 = k ∧ r.2 ≠ none
          then (l.claims.get? k).map heldClaim else l.claims.get? k := by
  have hmap : ∀ {α : Type} (c : Prop) [Decidable c] (f : α → α) (o : Option α),
      (o.map fun a => if c then f a else a) = if c then o.map f else o := by
    intro α c _ f o
    by_cases hc : c <;> cases o <;> simp [hc]
  refine ⟨?_, ?_, ?_, ?_⟩
  · refine (foldl_get? (fun l => l.tasks.get? k) (interruptTask now) (fun _ => True)
      (fun _ _ => id) (fun r _ => r.1 = k)
      (heldTask now) (fun _ _ _ => rfl) (recoverable l (entry - seconds 30) now)
      (fun l _ r _ => ?_) l trivial).trans (hmap ..)
    exact (interruptTask_rows (k := k) (x := 0) l now r).1.trans (hmap ..).symm
  · refine (foldl_get? (fun l => l.operations.get? k) (interruptTask now) (fun _ => True)
      (fun _ _ => id) (fun r _ => r.1 = k)
      heldOperation (fun _ _ _ => rfl) (recoverable l (entry - seconds 30) now)
      (fun l _ r _ => ?_) l trivial).trans (hmap ..)
    exact (interruptTask_rows (k := k) (x := 0) l now r).2.1.trans (hmap ..).symm
  · refine (foldl_get? (fun l => l.executions.get? x) (interruptTask now) (fun _ => True)
      (fun _ _ => id) (fun r _ => r.2 = some x)
      (heldExecution now) (fun _ e _ => heldExecution_twice now e)
      (recoverable l (entry - seconds 30) now) (fun l _ r _ => ?_) l trivial).trans (hmap ..)
    exact (interruptTask_rows (k := 0) (x := x) l now r).2.2.1.trans (hmap ..).symm
  · refine (foldl_get? (fun l => l.claims.get? k) (interruptTask now) (fun _ => True)
      (fun _ _ => id) (fun r _ => r.1 = k ∧ r.2 ≠ none) heldClaim (fun _ _ _ => rfl)
      (recoverable l (entry - seconds 30) now) (fun l _ r _ => ?_) l trivial).trans (hmap ..)
    exact (interruptTask_rows (k := k) (x := 0) l now r).2.2.2.trans (hmap ..).symm

theorem recover_workers (l : Ledger) (entry now : Time) :
    (recover entry now l).workers = l.workers := by
  refine foldl_eq Ledger.workers (interruptTask now) (fun l r => ?_)
    (recoverable l (entry - seconds 30) now) l
  obtain ⟨j, y⟩ := r
  cases y <;> rfl

end Recover

section Hidden
variable {w : World} {t : AgentTask} {o : TaskOperation}

/-- Nothing of a task differs between two ledgers. -/
structure LeftAlone (l l' : Ledger) (k : TaskId) : Prop where
  task : l'.tasks.get? k = l.tasks.get? k
  operation : l'.operations.get? k = l.operations.get? k
  claim : l'.claims.get? k = l.claims.get? k
  executions : ∀ x e, l.executions.get? x = some e → e.taskId = k →
    l'.executions.get? x = some e

/-- What `recover` makes of a task it holds. -/
structure Held (now : Time) (l l' : Ledger) (k : TaskId) : Prop where
  task : l'.tasks.get? k = (l.tasks.get? k).map (heldTask now)
  operation : l'.operations.get? k = (l.operations.get? k).map heldOperation
  claim : ∀ c, l'.claims.get? k = some c → c.released = true
  current : ∀ t x e, l.tasks.get? k = some t → t.currentExecutionId = some x →
    l.executions.get? x = some e → l'.executions.get? x = some (heldExecution now e)
  others : ∀ t x e, l.tasks.get? k = some t → t.currentExecutionId ≠ some x →
    l.executions.get? x = some e → e.taskId = k → l'.executions.get? x = some e

/-- The current attempt that a held row names belongs to its task. -/
theorem current_of_row (hs : ∀ j, Sound l j) {j : TaskId} {e : Execution}
    (h : (j, some x) ∈ recoverable l cutoff now) (he : l.executions.get? x = some e) :
    e.taskId = j := by
  obtain ⟨t, o, ht, ho, _, hx, _⟩ := mem_recoverable.mp h
  obtain ⟨_, ha⟩ := (hs j).current t o x ht ho hx
  obtain ⟨e', he', hk, _⟩ := attemptView_eq_some.mp ha
  rw [he] at he'
  cases he'
  exact hk

theorem untouched_of_not_recoverable (hs : ∀ j, Sound l j) {entry : Time}
    (h : ∀ r ∈ recoverable l (entry - seconds 30) now, r.1 ≠ k) :
    LeftAlone l (recover entry now l) k := by
  have hno : ¬ ∃ r ∈ recoverable l (entry - seconds 30) now, r.1 = k := by
    rintro ⟨r, hr, hk⟩
    exact h r hr hk
  refine ⟨?_, ?_, ?_, fun x e he hk => ?_⟩
  · rw [(recover_rows (x := 0) l entry now).1, if_neg hno]
  · rw [(recover_rows (x := 0) l entry now).2.1, if_neg hno]
  · rw [(recover_rows (x := 0) l entry now).2.2.2, if_neg]
    rintro ⟨r, hr, hk, _⟩
    exact h r hr hk
  · rw [(recover_rows (k := 0) l entry now).2.2.1, if_neg, he]
    rintro ⟨⟨j, y⟩, hr, hy⟩
    cases hy
    exact h _ hr ((current_of_row hs hr he).symm.trans hk)

theorem held_of_recoverable (hs : ∀ j, Sound l j) {entry : Time} {y : Option ExecutionId}
    (h : (k, y) ∈ recoverable l (entry - seconds 30) now) : Held now l (recover entry now l) k := by
  obtain ⟨t, o, ht, ho, _, hy, _, _⟩ := mem_recoverable.mp h
  have hhit : ∃ r ∈ recoverable l (entry - seconds 30) now, r.1 = k := ⟨_, h, rfl⟩
  refine ⟨?_, ?_, fun c hc => ?_, fun t' x e ht' hx he => ?_, fun t' x e ht' hx he hk => ?_⟩
  · rw [(recover_rows (x := 0) l entry now).1, if_pos hhit]
  · rw [(recover_rows (x := 0) l entry now).2.1, if_pos hhit]
  · rw [(recover_rows (x := 0) l entry now).2.2.2] at hc
    split_ifs at hc with hrelease
    · obtain ⟨c', _, rfl⟩ := Option.map_eq_some_iff.mp hc
      rfl
    · -- a claim that is not released belongs to a current attempt, which the row would name
      by_contra hopen
      obtain ⟨_, t', ht', hx, _⟩ := (hs k).held c o hc (by simpa using hopen) ho
      rw [ht] at ht'
      cases ht'
      refine hrelease ⟨_, h, rfl, ?_⟩
      rw [← hy, hx]
      simp
  · rw [ht] at ht'
    cases ht'
    rw [(recover_rows (k := 0) l entry now).2.2.1, if_pos ⟨_, h, hy.symm.trans hx⟩, he]
    rfl
  · rw [ht] at ht'
    cases ht'
    rw [(recover_rows (k := 0) l entry now).2.2.1, if_neg, he]
    rintro ⟨⟨j, z⟩, hr, hz⟩
    cases hz
    have hj := (current_of_row hs hr he).symm.trans hk
    cases hj
    obtain ⟨t', _, ht', _, _, hx', _⟩ := mem_recoverable.mp hr
    rw [ht] at ht'
    cases ht'
    exact hx hx'

/-- A hidden queue entry has a live worker and no claim; a hidden attempt a live claim too. -/
theorem not_interrupted_of_hidden (hs : Sound l k) (ht : l.tasks.get? k = some t)
    (ho : l.operations.get? k = some o)
    (h : t.status = .queued ∧ HealthyQueue l t cutoff ∨
      (t.status = .running ∨ t.status = .cancelling) ∧ InventoryLive l t cutoff now) :
    ¬ Interrupted l o cutoff now := by
  have hid : t.id = k := Table.key_of_get? ht
  have hok : o.taskId = k := Table.key_of_get? ho
  rintro ⟨r, hr, hworker, hcase⟩
  have hrow := hworker ▸ Table.mem_rows_iff.mp hr
  have hclaimed : ∀ c ∈ l.claims.rows, c.taskId = o.taskId → l.claims.get? k = some c :=
    fun c hc hk => Table.get?_eq_some.mpr ⟨hc, hk.trans hok⟩
  rcases h with ⟨hq, ⟨o', ho', _, _, _, r', hr', hopen, halive⟩, _⟩ |
    ⟨_, c, hc, hfree, hexpiry, _, hgeneration⟩
  · rw [hid, ho] at ho'
    cases ho'
    rw [hrow] at hr'
    cases hr'
    rcases hcase with hclosed | hsilent | ⟨c, hc, hk, hfree, _⟩
    · rw [hopen] at hclosed
      cases hclosed
    · exact Int.lt_irrefl _ (Int.lt_trans halive hsilent)
    · obtain ⟨_, t', ht', _, hstatus⟩ := hs.held c o (hclaimed c hc hk) hfree ho
      rw [ht] at ht'
      cases ht'
      rw [hq] at hstatus
      simp at hstatus
  · obtain ⟨_, _, _, r', hr', hopen, halive⟩ := hgeneration o (by rw [hid]; exact ho)
    rw [hrow] at hr'
    cases hr'
    rcases hcase with hclosed | hsilent | ⟨c', hc', hk, _, hexpired⟩
    · rw [hopen] at hclosed
      cases hclosed
    · exact Int.lt_irrefl _ (Int.lt_trans halive hsilent)
    · obtain ⟨hrow', _⟩ := Option.filter_eq_some_iff.mp hc
      rw [hid, hclaimed c' hc' hk] at hrow'
      cases hrow'
      exact Int.not_lt.mpr hexpired hexpiry

/-- A later recovery holds what became due since, and nothing twice. -/
theorem mem_recoverable_recover {entry later : Time} {cut : Time}
    {r : TaskId × Option ExecutionId} (h : r ∈ recoverable (recover entry now l) cut later) :
    r ∈ recoverable l cut later ∧ ∀ s ∈ recoverable l (entry - seconds 30) now, s.1 ≠ r.1 := by
  obtain ⟨t, o, ht, ho, he, hx, hstatus, w, hw, hid, hcase⟩ := mem_recoverable.mp h
  rw [(recover_rows (x := 0) l entry now).1] at ht
  rw [(recover_rows (x := 0) l entry now).2.1] at ho
  have hno : ¬ ∃ s ∈ recoverable l (entry - seconds 30) now, s.1 = r.1 := by
    intro hhit
    rw [if_pos hhit] at ho
    obtain ⟨o', _, rfl⟩ := Option.map_eq_some_iff.mp ho
    cases he
  rw [if_neg hno] at ht ho
  refine ⟨mem_recoverable.mpr ⟨t, o, ht, ho, he, hx, hstatus, w, ?_, hid, ?_⟩, fun s hs hk =>
    hno ⟨s, hs, hk⟩⟩
  · rwa [recover_workers] at hw
  · refine hcase.imp_right (Or.imp_right ?_)
    rintro ⟨c, hc, hk, hfree, hexpired⟩
    have hrow := Table.mem_rows_iff.mp hc
    have hid : o.taskId = r.1 := Table.key_of_get? ho
    rw [(recover_rows (x := 0) l entry now).2.2.2, if_neg] at hrow
    · exact ⟨c, Table.mem_rows_iff.mpr hrow, hk, hfree, hexpired⟩
    · rintro ⟨s, hs, hkey, _⟩
      exact hno ⟨s, hs, hkey.trans (hk.trans hid)⟩

theorem mem_recoveryInventory {requests : RequestId → Option (String × String)}
    {owner : Option String} {exclude : Option TaskId} (ht : l.tasks.get? k = some t)
    (hscope : InventoryScope l owner exclude t)
    (hshown : ¬ InventoryHidden l t (now - seconds 30) now) :
    inventoryRow requests l t ∈ recoveryInventory requests owner exclude now l := by
  unfold recoveryInventory
  refine List.mem_map.mpr ⟨t, List.mem_filter.mpr ⟨?_, by simpa using hshown⟩, rfl⟩
  rw [List.mem_insertionSort, List.mem_filter]
  exact ⟨(Table.get?_eq_some.mp ht).1, by simpa using hscope⟩

end Hidden

/-- At one instant of a reachable world: what the inventory hides as a healthy queue entry or a
live claim is left alone by `recover`; what `recover` would hold is listed for its owner; and
`recover` holds exactly the operations whose worker is gone or whose lease ran out, blocks
them, loses their open attempt and releases their claim. A second recovery holds nothing at
that instant, and at a later one only what became due since. -/
theorem recovery_agreement (env : Environment) (w : World) (h : ReachableWorld env w) :
    (∀ k t o, w.ledger.tasks.get? k = some t → w.ledger.operations.get? k = some o →
      (t.status = .queued ∧ HealthyQueue w.ledger t (w.clock - seconds 30) ∨
        (t.status = .running ∨ t.status = .cancelling) ∧
          InventoryLive w.ledger t (w.clock - seconds 30) w.clock) →
      LeftAlone w.ledger (recover w.clock w.clock w.ledger) k) ∧
    (∀ k t o requests owner exclude, w.ledger.tasks.get? k = some t →
      w.ledger.operations.get? k = some o →
      ¬ LeftAlone w.ledger (recover w.clock w.clock w.ledger) k →
      (∀ own ∈ owner, taskOwner t = own) → exclude ≠ some k →
      ∃ row ∈ recoveryInventory requests owner exclude w.clock w.ledger, row.task = t) ∧
    (∀ k t o, w.ledger.tasks.get? k = some t → w.ledger.operations.get? k = some o →
      (o.eligible = true ∧ (t.status = .queued ∨ t.status = .running ∨ t.status = .cancelling) ∧
          Interrupted w.ledger o (w.clock - seconds 30) w.clock →
        Held w.clock w.ledger (recover w.clock w.clock w.ledger) k) ∧
      (¬ (o.eligible = true ∧
          (t.status = .queued ∨ t.status = .running ∨ t.status = .cancelling) ∧
          Interrupted w.ledger o (w.clock - seconds 30) w.clock) →
        LeftAlone w.ledger (recover w.clock w.clock w.ledger) k)) ∧
    (∀ k, w.ledger.operations.get? k = none →
      LeftAlone w.ledger (recover w.clock w.clock w.ledger) k) ∧
    recover w.clock w.clock (recover w.clock w.clock w.ledger) =
      recover w.clock w.clock w.ledger ∧
    ∀ cut later r, r ∈ recoverable (recover w.clock w.clock w.ledger) cut later →
      r ∈ recoverable w.ledger cut later ∧
        ∀ s ∈ recoverable w.ledger (w.clock - seconds 30) w.clock, s.1 ≠ r.1 := by
  have hs := h.consistent.good.sound
  have hrow : ∀ {k t o}, w.ledger.tasks.get? k = some t → w.ledger.operations.get? k = some o →
      ∀ {y}, (k, y) ∈ recoverable w.ledger (w.clock - seconds 30) w.clock →
      o.eligible = true ∧ (t.status = .queued ∨ t.status = .running ∨ t.status = .cancelling) ∧
        Interrupted w.ledger o (w.clock - seconds 30) w.clock := by
    intro k t o ht ho y hy
    obtain ⟨t', o', ht', ho', he, _, hstatus, hi⟩ := mem_recoverable.mp hy
    rw [ht] at ht'
    rw [ho] at ho'
    cases ht'
    cases ho'
    exact ⟨he, hstatus, hi⟩
  have hkept : ∀ {k t o}, w.ledger.tasks.get? k = some t → w.ledger.operations.get? k = some o →
      ¬ (o.eligible = true ∧
        (t.status = .queued ∨ t.status = .running ∨ t.status = .cancelling) ∧
        Interrupted w.ledger o (w.clock - seconds 30) w.clock) →
      LeftAlone w.ledger (recover w.clock w.clock w.ledger) k := by
    intro k t o ht ho hno
    refine untouched_of_not_recoverable hs fun r hr hk => hno ?_
    obtain ⟨j, y⟩ := r
    cases hk
    exact hrow ht ho hr
  refine ⟨fun k t o ht ho hhidden => ?_, fun k t o requests owner exclude ht ho htouched howner
    hexclude => ?_, fun k t o ht ho => ⟨fun hdue => ?_, hkept ht ho⟩, fun k ho => ?_, ?_,
    fun cut later r hr => mem_recoverable_recover hr⟩
  · exact hkept ht ho fun hdue => not_interrupted_of_hidden (hs k) ht ho hhidden hdue.2.2
  · have hdue : o.eligible = true ∧
        (t.status = .queued ∨ t.status = .running ∨ t.status = .cancelling) ∧
        Interrupted w.ledger o (w.clock - seconds 30) w.clock := by
      by_contra hno
      exact htouched (hkept ht ho hno)
    have hid : t.id = k := Table.key_of_get? ht
    refine ⟨inventoryRow requests w.ledger t, mem_recoveryInventory ht ⟨.inl ?_, howner, ?_⟩ ?_, rfl⟩
    · rcases hdue.2.1 with hq | hq | hq <;> simp [hq]
    · rwa [hid]
    · rintro ⟨_, hhidden | hhidden | ⟨hfailed, _⟩⟩
      · exact not_interrupted_of_hidden (hs k) ht ho (.inl hhidden) hdue.2.2
      · exact not_interrupted_of_hidden (hs k) ht ho (.inr hhidden) hdue.2.2
      · rcases hdue.2.1 with hq | hq | hq <;> simp [hq] at hfailed
  · exact held_of_recoverable hs (y := t.currentExecutionId)
      (mem_recoverable.mpr ⟨t, o, ht, ho, hdue.1, rfl, hdue.2.1, hdue.2.2⟩)
  · refine untouched_of_not_recoverable hs fun r hr hk => ?_
    obtain ⟨_, o, _, ho', _⟩ := mem_recoverable.mp hr
    rw [hk, ho] at ho'
    cases ho'
  · have hnone : recoverable (recover w.clock w.clock w.ledger) (w.clock - seconds 30) w.clock =
        [] := by
      refine List.eq_nil_iff_forall_not_mem.mpr fun r hr => ?_
      obtain ⟨hmem, hother⟩ := mem_recoverable_recover hr
      exact hother r hmem rfl
    conv_lhs => rw [recover, hnone, List.foldl_nil]

section Plain

/-- The lease of the running request ends while its worker is silent. -/
def silentWorld : World := step plainEnvironment plainRunning (.tick 31000000)

theorem recovery_agreement_plain : Held silentWorld.clock silentWorld.ledger
    (recover silentWorld.clock silentWorld.clock silentWorld.ledger) 7 := by
  have hrun : Run (step plainEnvironment) Legal plainRunning [.tick 31000000] silentWorld :=
    .cons trivial (.nil _)
  have hreach : ReachableWorld plainEnvironment silentWorld := plainRunning_reachable.run hrun
  have hrow : ∃ t ∈ silentWorld.ledger.tasks.get? 7, ∃ o ∈ silentWorld.ledger.operations.get? 7,
      o.eligible = true ∧ (t.status = .queued ∨ t.status = .running ∨ t.status = .cancelling) ∧
        Interrupted silentWorld.ledger o (silentWorld.clock - seconds 30) silentWorld.clock := by
    decide +kernel
  obtain ⟨t, ht, o, ho, hdue⟩ := hrow
  exact ((recovery_agreement plainEnvironment silentWorld hreach).2.2.1 7 t o ht ho).1 hdue

end Plain
end NyanyaAgent.Safety
