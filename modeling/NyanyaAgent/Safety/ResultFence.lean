import NyanyaAgent.Invariants.Claims
import NyanyaAgent.Invariants.Results
import NyanyaAgent.System.Invariant

/-!
# The fence around results

A result is saved only by the worker that holds the claim of the current attempt, at
most once for an attempt, and never again once the attempt was taken away.
-/
namespace NyanyaAgent.Safety
open NyanyaAgent.Schema NyanyaAgent.Relational NyanyaAgent.Operations NyanyaAgent.Plans
open NyanyaAgent.Drafts NyanyaAgent.Lifecycle NyanyaAgent.Runs NyanyaAgent.Invariants
open NyanyaAgent.System

variable {env : Environment} {lawful : Prop} {κ : Kind} {l l' : Ledger} {k : TaskId} {x : ExecutionId}

/-- The attempt exists, and its task holds no claim for it any more. -/
structure Retired (l : Ledger) (k : TaskId) (x : ExecutionId) : Prop where
  attempt : (skeleton l).attempt x = some k
  claim : ¬ ClaimedFor l k x

theorem Retired.step (hr : Retired l k x) (h : Step env lawful κ l l') : Retired l' k x := by
  refine ⟨(Extends.step h).attempt x k hr.attempt, fun hc => hr.claim ?_⟩
  by_cases hκ : κ = .start
  · subst hκ
    cases h with
    | start _ _ _ _ _ _ hx hins =>
      rcases ClaimedFor.start hins rfl hc with ⟨_, rfl⟩ | hbefore
      · obtain ⟨e, he, _⟩ := of_skeleton_attempt hr.attempt
        rw [Table.get?_of_insert hx] at he
        cases he
      · exact hbefore
  · exact hc.before h hκ

theorem result_step (h : Step env lawful κ l l') (hx : (l.results.get? x).isSome = true) :
    (l'.results.get? x).isSome = true := by
  by_cases hκ : κ = .deliver
  · subst hκ
    cases h with
    | deliver _ hkept => exact hkept x hx
  · obtain ⟨r, hr⟩ := Option.isSome_iff_exists.mp hx
    exact Option.isSome_iff_exists.mpr ⟨r, result_kept h hκ hr⟩

/-- The retired attempts and the saved results stay. -/
structure Settles (l l' : Ledger) : Prop where
  retired : ∀ k x, Retired l k x → Retired l' k x
  result : ∀ x, (l.results.get? x).isSome = true → (l'.results.get? x).isSome = true

theorem Settles.refl (l : Ledger) : Settles l l := ⟨fun _ _ => id, fun _ => id⟩

theorem Settles.trans {l₁ l₂ l₃ : Ledger} (h₁ : Settles l₁ l₂) (h₂ : Settles l₂ l₃) :
    Settles l₁ l₃ :=
  ⟨fun k x hr => h₂.retired k x (h₁.retired k x hr), fun x hr => h₂.result x (h₁.result x hr)⟩

theorem Settles.of_step (h : Step env lawful κ l l') : Settles l l' :=
  ⟨fun _ _ hr => hr.step h, fun _ hr => result_step h hr⟩

theorem Settles.chain {ks : List Kind} (h : Chain env lawful ks l l') : Settles l l' :=
  h.relation (R := Settles) (I := fun _ => True) .refl (fun _ _ _ => .trans)
    (fun _ _ _ _ _ _ => trivial) (fun _ _ _ _ _ => .of_step) trivial

theorem Settles.run {w w' : World} {as : List Action} (h : Run (step env) Legal w as w') :
    Settles w.ledger w'.ledger := by
  refine h.relation (R := fun w w' => Settles w.ledger w'.ledger) (I := fun _ => True)
    (fun _ => .refl _) (fun _ _ _ => .trans) (fun _ _ _ _ => trivial) (fun w a _ _ => ?_) trivial
  have hchain : Chain env False (actionKinds a) w.ledger (step env w a).ledger :=
    step_chain False.elim
  exact .chain hchain

/-- The rows that a result is saved under. -/
structure Fence (l : Ledger) (record : ClaimRecord) (entry : Time) : Prop where
  attempt : ∃ e, l.executions.get? record.executionId = some e ∧ ¬ e.status.Terminal
  claim : ∃ c, l.claims.get? record.taskId = some c ∧ c.workerId = record.workerId ∧
    c.executionId = record.executionId ∧ c.released = false ∧ entry < c.expiresAt
  task : ∃ t, l.tasks.get? record.taskId = some t ∧
    t.currentExecutionId = some record.executionId

theorem Fence.of_fenced {record : ClaimRecord} {entry : Time} {e : Execution}
    (h : Fenced l record entry e) : Fence l record entry := by
  obtain ⟨he, hs, c, hc, hw, hx, hr, hlive, t, ht, hcur⟩ := h
  exact ⟨⟨e, he, hs⟩, ⟨c, hc, hw, hx, hr, hlive⟩, t, ht, hcur⟩

/-- What a `finish` that commits has found and leaves. -/
theorem finish_fence {reg : Registry} {rules : Memory.MemoryRules} {record : ClaimRecord}
    {reply : Memory.Reply} {outcome : TaskOutcome} {freshApproval : ApprovalId}
    {freshWiki : ℕ → WikiId} {entry now : Time} {u : Unit}
    (h : Tx.Ran (finish env reg rules record reply outcome freshApproval freshWiki entry now)
      l u l') : Fence l record entry ∧ l.results.get? record.executionId = none ∧
        (l'.results.get? record.executionId).isSome = true := by
  obtain ⟨e, results, hfenced, hins, hrest⟩ := finish_cases h
  have hchain : Chain env False _ _ _ := hrest
  refine ⟨.of_fenced hfenced, Table.get?_of_insert hins, ?_⟩
  refine (Settles.chain hchain).result _ ?_
  change (results.get? record.executionId).isSome = true
  rw [Table.get?_insert hins, if_pos rfl]
  rfl

/-- No task holds a claim for a retired attempt. -/
theorem Retired.not_claimed {j : TaskId} (hr : Retired l k x) (hs : ∀ j, Sound l j) :
    ¬ ClaimedFor l j x := by
  rintro ⟨c, hc, hreleased, hcx⟩
  obtain ⟨a, ha⟩ := (hs j).claim c hc
  obtain ⟨e, he, hek, _⟩ := attemptView_eq_some.mp ha
  have hattempt := skeleton_attempt he
  rw [hcx, hr.attempt] at hattempt
  have hk : k = j := (Option.some.inj hattempt).trans hek
  exact hr.claim ⟨c, hk ▸ hc, hreleased, hcx⟩

/-- A renewal that extends a claim has found it. -/
theorem renew_claimed {record : ClaimRecord} {entry : Time}
    (h : Tx.Ran (renew record entry) l true l') :
    ∃ c, l.claims.get? record.taskId = some c ∧ c.executionId = record.executionId ∧
      c.released = false ∧ entry < c.expiresAt := by
  unfold renew at h
  rw [Tx.ran_select_bind] at h
  split_ifs at h with hc
  · obtain ⟨c, hmem, hk, _, hx, hr, hlive⟩ := of_decide_eq_true hc
    exact ⟨c, hk ▸ Table.mem_rows_iff.mp hmem, hx, hr, hlive⟩
  · cases (Tx.ran_pure.mp h).1

/-- Holding back tasks keeps a claim only where it was. -/
theorem claimed_foldl_interrupt {now : Time} (rows : List (TaskId × Option ExecutionId))
    (h : ClaimedFor (rows.foldl (interruptTask now) l) k x) : ClaimedFor l k x := by
  induction rows generalizing l with
  | nil => exact h
  | cons row rest ih => exact claimed_interrupt (ih h)

theorem not_claimed_interrupt {now : Time} {y : ExecutionId} :
    ¬ ClaimedFor (interruptTask now l (k, some y)) k x := by
  rintro ⟨c, hc, hr, _⟩
  have hrow : (l.claims.update (fun c => c.taskId = k) fun c => { c with released := true }).get? k =
    some c := hc
  rw [Table.get?_update_key, Option.map_eq_some_iff] at hrow
  obtain ⟨_, _, rfl⟩ := hrow
  cases hr

theorem not_claimed_closeTask {now : Time} {uncertain : Bool} :
    ¬ ClaimedFor (closeTask k uncertain now l) k x := by
  rintro ⟨c, hc, hr, _⟩
  have hrow : (l.claims.update (fun c => c.taskId = k) fun c => { c with released := true }).get? k =
    some c := hc
  rw [Table.get?_update_key, Option.map_eq_some_iff] at hrow
  obtain ⟨_, _, rfl⟩ := hrow
  cases hr

/-- `recover` takes the current attempt of every task it holds back. -/
theorem recover_retires {w : World} {entry : Time} (hw : Consistent env w)
    (h : (k, some x) ∈ recoverable w.ledger (entry - seconds 30) w.clock) :
    Retired (recover entry w.clock w.ledger) k x := by
  obtain ⟨t, o, ht, ho, _, hx, _⟩ := mem_recoverable.mp h
  obtain ⟨a, ha⟩ := (hw.good.sound k).current t o x ht ho hx
  obtain ⟨e, he, hek, _⟩ := attemptView_eq_some.mp ha
  have hchain : Chain env False [.interrupt] w.ledger (recover entry w.clock w.ledger) :=
    recover_chain ..
  refine ⟨(Extends.chain hchain).attempt x k (hek ▸ skeleton_attempt he), fun hc => ?_⟩
  obtain ⟨pre, post, hsplit⟩ := List.append_of_mem h
  unfold recover at hc
  rw [hsplit, List.foldl_append, List.foldl_cons] at hc
  exact not_claimed_interrupt (claimed_foldl_interrupt post hc)

/-- A cancellation that finds no live claim takes every attempt of the task. -/
theorem cancel_retires {w : World} {owner : String} {selection : Selection} {t : AgentTask}
    {s : TaskStatus} (ht : w.ledger.tasks.get? k = some t) (hopen : ¬ t.status.Terminal)
    (hlive : ¬ LiveClaim w.ledger t w.clock)
    (hheld : ¬ (t.status = .blocked ∧ UnresolvedEffects w.ledger k))
    (hx : (skeleton l').attempt x = some k)
    (h : Tx.Ran (cancel k owner selection w.clock) w.ledger s l') : Retired l' k x := by
  refine ⟨hx, fun hc => ?_⟩
  unfold cancel at h
  simp only [Tx.ran_select_bind, Tx.ran_demand_bind, Tx.ran_require_bind] at h
  obtain ⟨t', ht', _, _, h⟩ := h
  rw [Option.filter_eq_some_iff, ht] at ht'
  cases ht'.1
  simp only [not_or] at hopen
  rw [if_neg hopen.2.1, if_neg (not_or.mpr ⟨hopen.1, hopen.2.2⟩), Tx.ran_select_bind,
    if_neg (by simpa using hheld)] at h
  simp only [Tx.ran_select_bind, Tx.ran_write_bind, decide_eq_false hlive] at h
  simp only [Tx.ran_pure] at h
  obtain ⟨_, rfl⟩ := h
  exact not_claimed_closeTask hc

/-- A result is saved only under the unreleased and unexpired claim of the task's current
open attempt, and once for the attempt; an attempt that `recover` or a cancellation without
a live claim took can neither save a result nor renew its claim in any later world; and a
result that is refused leaves everything as it was. -/
theorem result_fence (env : Environment) (w : World) (hw : ReachableWorld env w) :
    (∀ reg rules record reply outcome freshApproval freshWiki entry r l',
      Tx.Ran (commandOp env w
        (.finish reg rules record reply outcome freshApproval freshWiki entry)) w.ledger r l' →
      Fence w.ledger record entry ∧ ∀ as w', Legal w
          (.command (.finish reg rules record reply outcome freshApproval freshWiki entry)) →
        Run (step env) Legal (step env w
          (.command (.finish reg rules record reply outcome freshApproval freshWiki entry))) as w' →
        ∀ reg' rules' record' reply' outcome' approval' wiki' entry' r' l'',
          record'.executionId = record.executionId → ¬ Tx.Ran (commandOp env w'
            (.finish reg' rules' record' reply' outcome' approval' wiki' entry')) w'.ledger r' l'') ∧
    (∀ k x, Retired w.ledger k x → ∀ as w', Run (step env) Legal w as w' → ∀ record,
      record.executionId = x →
      (∀ reg rules reply outcome freshApproval freshWiki entry r l', ¬ Tx.Ran (commandOp env w'
        (.finish reg rules record reply outcome freshApproval freshWiki entry)) w'.ledger r l') ∧
      ∀ entry l', ¬ Tx.Ran (renew record entry) w'.ledger true l') ∧
    (∀ entry k x, (k, some x) ∈ recoverable w.ledger (entry - seconds 30) w.clock →
      Retired (step env w (.command (.recover entry))).ledger k x) ∧
    (∀ k owner selection s l' t x, Tx.Ran (cancel k owner selection w.clock) w.ledger s l' →
      w.ledger.tasks.get? k = some t → ¬ t.status.Terminal → ¬ LiveClaim w.ledger t w.clock →
      ¬ (t.status = .blocked ∧ UnresolvedEffects w.ledger k) →
      (skeleton w.ledger).attempt x = some k →
        Retired (step env w (.command (.cancel k owner selection))).ledger k x) ∧
    ∀ c, (∀ record l', ¬ Tx.Ran (commandOp env w c) w.ledger record l') →
      step env w (.command c) = w := by
  have hcons : Consistent env w := hw.consistent
  refine ⟨?_, ?_, ?_, ?_, fun c => step_of_refused⟩
  · intro reg rules record reply outcome freshApproval freshWiki entry r l' hran
    have hran' := hran
    simp only [commandOp, ran_dropped] at hran'
    obtain ⟨_, _, hran'⟩ := hran'
    obtain ⟨hfence, _, hsaved⟩ := finish_fence hran'
    refine ⟨hfence, ?_⟩
    intro as w' hlegal hrun reg' rules' record' reply' outcome' approval' wiki' entry' r' l'' hx hagain
    simp only [commandOp, ran_dropped] at hagain
    obtain ⟨_, _, hagain⟩ := hagain
    obtain ⟨_, hnone, _⟩ := finish_fence hagain
    have hkept := (Settles.run hrun).result record.executionId
    rw [step_of_ran hran] at hkept
    have := hkept hsaved
    rw [← hx, hnone] at this
    cases this
  · intro k x hretired as w' hrun record hx
    have hcons' : Consistent env w' := ReachableWorld.consistent (hw.run hrun)
    have hretired' : Retired w'.ledger k x := (Settles.run hrun).retired k x hretired
    constructor
    · intro reg rules reply outcome freshApproval freshWiki entry r l' hran
      simp only [commandOp, ran_dropped] at hran
      obtain ⟨_, _, hran⟩ := hran
      obtain ⟨c, hc, _, hcx, hreleased, _⟩ := (finish_fence hran).1.claim
      exact hretired'.not_claimed hcons'.good.sound ⟨c, hc, hreleased, hcx.trans hx⟩
    · intro entry l' hran
      obtain ⟨c, hc, hcx, hreleased, _⟩ := renew_claimed hran
      exact hretired'.not_claimed hcons'.good.sound ⟨c, hc, hreleased, hcx.trans hx⟩
  · intro entry k x h
    have hran : Tx.Ran (commandOp env w (.recover entry)) w.ledger none
        (recover entry w.clock w.ledger) := by
      simp only [commandOp, Tx.ran_write_bind, Tx.ran_pure, and_self]
    rw [step_of_ran hran]
    exact recover_retires hcons h
  · intro k owner selection s l' t x hran ht hopen hlive hheld hx
    have hran' : Tx.Ran (commandOp env w (.cancel k owner selection)) w.ledger none l' := by
      simp only [commandOp, ran_dropped]
      exact ⟨trivial, s, hran⟩
    rw [step_of_ran hran']
    have hchain : Chain env False cancelKinds w.ledger l' := cancel_chain False.elim hran
    exact cancel_retires ht hopen hlive hheld ((Extends.chain hchain).attempt x k hx) hran

/-- The lease of the running claim has run out. -/
def plainLapsed : World := step plainEnvironment plainRunning (.tick 31000000)

theorem result_fence_plain :
    Retired (step plainEnvironment plainLapsed (.command (.recover 31000000))).ledger 7 9 := by
  have hrun : Run (step plainEnvironment) Legal plainRunning [.tick 31000000] plainLapsed :=
    .cons trivial (.nil _)
  exact (result_fence plainEnvironment plainLapsed (plainRunning_reachable.run hrun)).2.2.1
    31000000 7 9 (by decide +kernel)

end NyanyaAgent.Safety
