import NyanyaAgent.Queue.Services
import NyanyaAgent.System.Invariant

/-!
# Exclusion and finality in the local queue

An owner has one claim at a time, a task is claimed once, and a result needs the claim.
A task that a cancellation has answered for as cancelled stays cancelled, unless another
process claimed it between the read of the cancellation and its forced transition.
-/
namespace NyanyaAgent.Safety
open NyanyaAgent.Schema NyanyaAgent.Relational NyanyaAgent.Operations NyanyaAgent.Runs
open NyanyaAgent.Queue NyanyaAgent.System

variable {env : Environment} {w w' : QueueWorld} {k : TaskId}

/-- A cancellation has answered for the task as cancelled. -/
def AnsweredCancelled (w : QueueWorld) (k : TaskId) : Prop :=
  (k, .returned .cancelled) ∈ w.cancels ∨ (k, .returnedAttempt .cancelled) ∈ w.cancels

theorem queueSound_run {bs : List QueueAction} {legal : QueueWorld → QueueAction → Prop}
    (hw : QueueSound w) (h : Run (stepQueue env) legal w bs w') : QueueSound w' :=
  h.invariant (I := QueueSound) (fun _ a hw _ => hw.step a) hw

theorem queueFinal_run {bs : List QueueAction} (hw : QueueSound w) (hf : QueueFinal w)
    (h : Run (stepQueue env) Unraced w bs w') : QueueFinal w' := by
  have hboth : QueueSound w' ∧ QueueFinal w' := by
    apply h.invariant (I := fun w => QueueSound w ∧ QueueFinal w)
    · intro w a hw ha
      exact ⟨hw.1.step a, hw.2.step hw.1 ha⟩
    · exact ⟨hw, hf⟩
  exact hboth.2

/-- A claim row is never deleted. -/
theorem claimed_run {bs : List QueueAction} (hw : QueueSound w)
    (h : Run (stepQueue env) (fun _ _ => True) w bs w') {c : TaskClaim}
    (hc : w.ledger.claims.get? k = some c) : ∃ c', w'.ledger.claims.get? k = some c' := by
  have hboth : QueueSound w' ∧ ∃ c', w'.ledger.claims.get? k = some c' := by
    apply h.invariant (I := fun w => QueueSound w ∧ ∃ c', w.ledger.claims.get? k = some c')
    · rintro w a ⟨hw, c', hc'⟩ _
      refine ⟨hw.step a, ?_⟩
      have hmove : Move False (view w.ledger) (view (stepQueue env w a).ledger) :=
        step_move hw False.elim
      have hbefore : (view w.ledger).claim k =
          some (c'.ownerKey, c'.executionId, c'.released) := by
        simp only [view, hc', Option.map_some]
      obtain ⟨b, hb, _⟩ := hmove.claim hbefore
      obtain ⟨row, hrow, _⟩ := Option.map_eq_some_iff.mp hb
      exact ⟨row, hrow⟩
    · exact ⟨hw, c, hc⟩
  exact hboth.2

theorem cancelled_run {bs : List QueueAction} (hw : QueueSound w) (hf : QueueFinal w)
    (h : Run (stepQueue env) Unraced w bs w') (hk : Cancelled (view w.ledger) k) :
    Cancelled (view w'.ledger) k := by
  have hall : (QueueSound w' ∧ QueueFinal w') ∧ Cancelled (view w'.ledger) k := by
    apply h.invariant (I := fun w => (QueueSound w ∧ QueueFinal w) ∧ Cancelled (view w.ledger) k)
    · rintro w a ⟨⟨hw, hf⟩, y, hy⟩ ha
      have hmove : Move True (view w.ledger) (view (stepQueue env w a).ledger) :=
        step_move hw fun _ => ha
      exact ⟨⟨hw.step a, hf.step hw ha⟩, hf.final.cancelled hmove hy⟩
    · exact ⟨⟨hw, hf⟩, hk⟩
  exact hall.2

/-- What `finish` needs of the claim it is handed. -/
theorem finish_claim {c : LocalClaim} {outcome : TaskOutcome} {fresh : ApprovalId}
    {entry now : Time} {u : Unit} {l l' : Ledger}
    (h : Tx.Ran (finish env c outcome fresh entry now) l u l') :
    ∃ row t, l.claims.get? c.taskId = some row ∧ row.workerId = c.workerId ∧
      row.executionId = c.executionId ∧ row.released = false ∧ entry < row.expiresAt ∧
      l.tasks.get? c.taskId = some t ∧ t.currentExecutionId = some c.executionId := by
  obtain ⟨e, _, ⟨_, _, row, hrow, hworker, hx, hreleased, hlease, t, ht, hcurrent⟩, _⟩ :=
    finish_move h
  exact ⟨row, t, hrow, hworker, hx, hreleased, hlease, ht, hcurrent⟩

/-- The queue of the local tasks is exclusive per owner in every run, and a cancellation is
final in every run that forces no task but an unclaimed one. -/
theorem local_queue (env : Environment) :
    (∀ w₀ as w, QueueInit w₀ → Run (stepQueue env) (fun _ _ => True) w₀ as w →
      (∀ j k c c', w.ledger.claims.get? j = some c → w.ledger.claims.get? k = some c' →
        c.released = false → c'.released = false → c.ownerKey = c'.ownerKey → j = k) ∧
      (∀ k c, w.ledger.claims.get? k = some c → ∀ bs w',
        Run (stepQueue env) (fun _ _ => True) w bs w' → ∀ worker owner adapter x entry record l',
          ¬ Tx.Ran (Queue.claim k worker owner adapter x entry) w'.ledger (some record) l') ∧
      (∀ k worker owner adapter x entry record l',
        Tx.Ran (Queue.claim k worker owner adapter x entry) w.ledger (some record) l' →
          ∃ c, l'.claims.get? k = some c ∧ c.executionId = x) ∧
      (∀ c outcome fresh entry u l',
        Tx.Ran (Queue.finish env c outcome fresh entry w.clock) w.ledger u l' →
          ∃ row t, w.ledger.claims.get? c.taskId = some row ∧ row.workerId = c.workerId ∧
            row.executionId = c.executionId ∧ row.released = false ∧ entry < row.expiresAt ∧
            w.ledger.tasks.get? c.taskId = some t ∧ t.currentExecutionId = some c.executionId) ∧
      ∀ c outcome fresh entry,
        (∀ u l', ¬ Tx.Ran (Queue.finish env c outcome fresh entry w.clock) w.ledger u l') →
          stepQueue env w (.finish c outcome fresh entry) = w) ∧
    ∀ w₀ as w, QueueInit w₀ → Run (stepQueue env) Unraced w₀ as w → ∀ k, AnsweredCancelled w k →
      ∀ bs w', Run (stepQueue env) Unraced w bs w' →
        (∃ t, w'.ledger.tasks.get? k = some t ∧ t.status = .cancelled) ∧
        (∀ x r, w'.ledger.results.get? x = some r → r.taskId = k → r.outcome ≠ .succeeded) ∧
        ∀ c outcome fresh entry u l', c.taskId = k →
          ¬ Tx.Ran (Queue.finish env c outcome fresh entry w'.clock) w'.ledger u l' := by
  constructor
  · intro w₀ as w h₀ hrun
    have hw : QueueSound w := queueSound_run h₀.sound hrun
    refine ⟨?_, ?_, ?_, fun _ _ _ _ _ _ => finish_claim, ?_⟩
    · intro j k c c' hc hc' hr hr' howner
      apply hw.sound.alone j k c.ownerKey c.executionId c'.executionId
      · simp only [view, hc, Option.map_some, hr]
      · simp only [view, hc', Option.map_some, hr', howner]
    · intro k c hc bs w' hrun' worker owner adapter x entry record l' hran
      obtain ⟨c', hc'⟩ := claimed_run hw hrun' hc
      rcases claim_move hran with ⟨hnone, _⟩ | ⟨_, ⟨_, hfree, _⟩, _⟩
      · cases hnone
      · rw [hfree] at hc'
        cases hc'
    · intro k worker owner adapter x entry record l' hran
      rcases claim_move hran with ⟨hnone, _⟩ | ⟨_, _, _, hview⟩
      · cases hnone
      · have hclaim : (view l').claim k = some (owner, x, false) := by
          rw [hview]
          exact Function.update_self ..
        obtain ⟨c, hc, hrow⟩ := Option.map_eq_some_iff.mp hclaim
        exact ⟨c, hc, (Prod.mk.inj (Prod.mk.inj hrow).2).1⟩
    · intro c outcome fresh entry hno
      rcases Tx.commit_cases (Queue.finish env c outcome fresh entry w.clock) w.ledger with
        ⟨u, l', hran, _⟩ | ⟨e, _, hcommit⟩
      · exact absurd hran (hno u l')
      · simp only [stepQueue, hcommit]
  · intro w₀ as w h₀ hrun k hanswer bs w' hrun'
    have hw : QueueSound w := queueSound_run h₀.sound hrun
    have hf : QueueFinal w := queueFinal_run h₀.sound h₀.final hrun
    have hf' : QueueFinal w' := queueFinal_run hw hf hrun'
    have hcancelled : Cancelled (view w.ledger) k := by
      rcases hanswer with hs | hs
      · exact hf.ended k _ hs rfl
      · exact hf.ended k _ hs rfl
    obtain ⟨y, hy⟩ := cancelled_run hw hf hrun' hcancelled
    obtain ⟨hidle, hnothing⟩ := hf'.final k y hy
    refine ⟨?_, ?_, ?_⟩
    · obtain ⟨t, ht, hrow⟩ := Option.map_eq_some_iff.mp hy
      exact ⟨t, ht, (Prod.mk.inj hrow).1⟩
    · intro x r hr hk hout
      apply hnothing x
      simp only [view, hr, Option.map_some, hk, hout]
    · intro c outcome fresh entry u l' hk hran
      obtain ⟨row, t, hrow, _, hx, hreleased, _⟩ := finish_claim hran
      apply hidle row.ownerKey row.executionId
      rw [← hk]
      simp only [view, hrow, Option.map_some, hreleased]

/-- A task is cancelled before anybody has claimed it. -/
def unracedRun : List QueueAction :=
  [.submit { requestedBy := "owner", ownerKey := "owner" } 1, .cancelTask 1, .cancelStep 0,
    .cancelStep 0]

theorem unracedRun_run : Run (stepQueue plainEnvironment) Unraced {} unracedRun
    (unracedRun.foldl (stepQueue plainEnvironment) {}) := by
  refine .cons trivial (.cons trivial (.cons ?_ (.cons ?_ (.nil _))))
  · intro k hk
    rfl
  · intro k hk
    rfl

theorem emptyQueue_init : QueueInit {} where
  claims := rfl
  executions := rfl
  results := rfl
  tasks k t ht := by cases ht
  cancels := rfl

theorem local_queue_plain :
    AnsweredCancelled (unracedRun.foldl (stepQueue plainEnvironment) {}) 1 ∧
      ∃ t, (unracedRun.foldl (stepQueue plainEnvironment) {}).ledger.tasks.get? 1 = some t ∧
        t.status = .cancelled := by
  have hanswer : AnsweredCancelled (unracedRun.foldl (stepQueue plainEnvironment) {}) 1 :=
    .inl (by decide +kernel)
  exact ⟨hanswer, ((local_queue plainEnvironment).2 {} unracedRun _ emptyQueue_init unracedRun_run 1
    hanswer [] _ (.nil _)).1⟩

/-- Between the read of a cancellation and its transition another service claims the task. -/
def racedRun : List QueueAction :=
  [.submit { requestedBy := "owner", ownerKey := "owner" } 1, .cancelTask 1, .cancelStep 0,
    .dispatch 5 [1] "owner", .claim 0 "provider" 9 0, .cancelStep 0]

/-- The task that was answered for as cancelled completes, with a success to show for it. -/
theorem raced_cancel : ∃ w bs w', Run (stepQueue plainEnvironment) (fun _ _ => True) {} racedRun w ∧
    AnsweredCancelled w 1 ∧ Run (stepQueue plainEnvironment) (fun _ _ => True) w bs w' ∧
    (∃ t ∈ w'.ledger.tasks.get? 1, t.status = .completed) ∧
      ∃ r ∈ w'.ledger.results.rows, r.taskId = 1 ∧ r.outcome = .succeeded :=
  ⟨racedRun.foldl (stepQueue plainEnvironment) {}, [.finish ⟨1, 5, 9⟩ ⟨.succeeded, "done"⟩ 3 0], _,
    .of_total (fun _ _ => trivial) _ _, .inl (by decide +kernel),
    .of_total (fun _ _ => trivial) _ _, by decide +kernel, by decide +kernel⟩

end NyanyaAgent.Safety
