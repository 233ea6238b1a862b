import NyanyaAgent.Operations.Completion
import Mathlib.Logic.Function.Basic

/-!
# The queue as its owners see it

The columns of the ledger that decide who may run a task, the moves the operations of
the queue make on them, and the invariants every move keeps.
-/
namespace NyanyaAgent.Queue
open NyanyaAgent.Schema NyanyaAgent.Relational NyanyaAgent.Operations

/-- The status and current attempt of each task; the owner, attempt and release of each
claim; the task and status of each attempt; the task and outcome of each result. -/
structure View where
  task : TaskId → Option (TaskStatus × Option ExecutionId)
  claim : TaskId → Option (String × ExecutionId × Bool)
  attempt : ExecutionId → Option (TaskId × ExecutionStatus)
  result : ExecutionId → Option (TaskId × OutcomeStatus)

namespace View
variable (v : View) (k j : TaskId) (o : String) (x : ExecutionId)

def enter : View := { v with task := Function.update v.task k (some (.queued, none)) }

def start : View :=
  { v with
    task := Function.update v.task k (some (.running, some x))
    claim := Function.update v.claim k (some (o, x, false))
    attempt := Function.update v.attempt x (some (k, .running)) }

def settle (out : OutcomeStatus) : View where
  task := Function.update v.task k (some (outcomeTaskStatus out, some x))
  claim := Function.update v.claim k (some (o, x, true))
  attempt := Function.update v.attempt x (some (j, outcomeExecutionStatus out))
  result := Function.update v.result x (some (k, out))

def stop : View := { v with attempt := Function.update v.attempt x (some (k, .cancelling)) }

def dismiss : View :=
  { v with
    task := Function.update v.task k (some (.cancelled, some x))
    attempt := Function.update v.attempt x (some (k, .cancelled)) }

def force (y : Option ExecutionId) : View :=
  { v with task := Function.update v.task k (some (.cancelled, y)) }

end View

variable {P : Prop} {v v' : View} {k j : TaskId} {o : String} {x : ExecutionId}

/-- The moves of the operations. Under `P` a task is forced only while it is unclaimed. -/
inductive Move (P : Prop) : View → View → Prop
  | same (v : View) : Move P v v
  | enter {v : View} {k : TaskId} (hk : v.task k = none) : Move P v (v.enter k)
  | start {v : View} {k : TaskId} {o : String} {x : ExecutionId} {y : Option ExecutionId}
      (ht : v.task k = some (.queued, y)) (hc : v.claim k = none)
      (halone : ∀ j z, v.claim j ≠ some (o, z, false)) (hx : v.attempt x = none) :
      Move P v (v.start k o x)
  | settle {v : View} {k j : TaskId} {o : String} {x : ExecutionId} {s : TaskStatus}
      {es : ExecutionStatus} {out : OutcomeStatus} (ht : v.task k = some (s, some x))
      (hc : v.claim k = some (o, x, false)) (he : v.attempt x = some (j, es))
      (hr : v.result x = none) : Move P v (v.settle k j o x out)
  | stop {v : View} {k : TaskId} {x : ExecutionId} {s : TaskStatus} {es : ExecutionStatus}
      (ht : v.task k = some (s, some x)) (he : v.attempt x = some (k, es))
      (hes : ¬ es.Terminal) : Move P v (v.stop k x)
  | dismiss {v : View} {k : TaskId} {x : ExecutionId} {s : TaskStatus} {es : ExecutionStatus}
      {o : String} (ht : v.task k = some (s, some x)) (he : v.attempt x = some (k, es))
      (hes : es ≠ .succeeded) (hc : v.claim k = some (o, x, true)) : Move P v (v.dismiss k x)
  | force {v : View} {k : TaskId} {s : TaskStatus} {y : Option ExecutionId}
      (ht : v.task k = some (s, y)) (hP : P → v.claim k = none) : Move P v (v.force k y)

/-- What holds of the queue whatever the order of its operations. -/
structure Sound (v : View) : Prop where
  /-- An owner has one unreleased claim. -/
  alone : ∀ j k o x y, v.claim j = some (o, x, false) → v.claim k = some (o, y, false) → j = k
  task : ∀ k o x b, v.claim k = some (o, x, b) → (v.task k).map Prod.snd = some (some x)
  attempt : ∀ k o x b, v.claim k = some (o, x, b) → (v.attempt x).map Prod.fst = some k
  /-- An attempt under an unreleased claim waits for nobody. -/
  busy : ∀ k o x j es, v.claim k = some (o, x, false) → v.attempt x = some (j, es) →
    es = .running ∨ es = .cancelling
  current : ∀ k s x, v.task k = some (s, some x) → (v.claim k).map (fun c => c.2.1) = some x
  result : ∀ x k out, v.result x = some (k, out) → (v.claim k).map Prod.snd = some (x, true)
  success : ∀ x k j es, v.result x = some (k, .succeeded) → v.attempt x = some (j, es) →
    es = .succeeded

/-- A cancelled task has nobody at work and nothing to show for. -/
def Final (v : View) : Prop :=
  ∀ k y, v.task k = some (.cancelled, y) →
    (∀ o x, v.claim k ≠ some (o, x, false)) ∧ ∀ x, v.result x ≠ some (k, .succeeded)

theorem outcomeExecutionStatus_succeeded {out : OutcomeStatus} :
    outcomeExecutionStatus out = .succeeded ↔ out = .succeeded := by
  cases out <;> simp [outcomeExecutionStatus]

/-- A claim is never taken back: its owner and attempt stay, and so does its release. -/
theorem Move.claim (h : Move P v v') {b : Bool} (hc : v.claim k = some (o, x, b)) :
    ∃ b', v'.claim k = some (o, x, b') ∧ (b = true → b' = true) := by
  cases h with
  | same => exact ⟨b, hc, id⟩
  | enter => exact ⟨b, hc, id⟩
  | @start j _ _ _ _ hnone =>
    have hne : k ≠ j := by
      rintro rfl
      rw [hnone] at hc
      cases hc
    exact ⟨b, by simpa [View.start, hne] using hc, id⟩
  | @settle j _ _ _ _ _ _ _ hj =>
    by_cases hk : k = j
    · subst hk
      rw [hj] at hc
      cases hc
      exact ⟨true, by simp [View.settle], fun _ => rfl⟩
    · exact ⟨b, by simpa [View.settle, hk] using hc, id⟩
  | stop => exact ⟨b, hc, id⟩
  | dismiss => exact ⟨b, hc, id⟩
  | force => exact ⟨b, hc, id⟩

theorem Sound.move (hs : Sound v) (h : Move P v v') : Sound v' := by
  obtain ⟨halone, htask, hattempt, hbusy, hcurrent, hresult, hsuccess⟩ := hs
  cases h with
  | same => exact ⟨halone, htask, hattempt, hbusy, hcurrent, hresult, hsuccess⟩
  | enter hk =>
    constructor <;> simp only [View.enter, Function.update_apply] <;> grind
  | @start _ _ x _ ht hc hfree hx =>
    -- An attempt without a row has no result.
    have hnone : ∀ k out, v.result x ≠ some (k, out) := by
      intro k out hr
      obtain ⟨⟨o, y, b⟩, hclaim, hy⟩ := Option.map_eq_some_iff.mp (hresult x k out hr)
      cases hy
      have hrow := hattempt k o x true hclaim
      rw [hx] at hrow
      cases hrow
    constructor <;> simp only [View.start, Function.update_apply] <;> grind
  | @settle _ _ _ _ _ _ out ht hc he hr =>
    have hout := @outcomeExecutionStatus_succeeded out
    constructor <;> simp only [View.settle, Function.update_apply] <;> grind
  | stop ht he hes =>
    constructor <;> simp only [View.stop, Function.update_apply] <;> grind
  | dismiss ht he hes hc =>
    constructor <;> simp only [View.dismiss, Function.update_apply] <;> grind
  | force ht hP =>
    constructor <;> simp only [View.force, Function.update_apply] <;> grind

theorem outcomeTaskStatus_cancelled {out : OutcomeStatus} :
    outcomeTaskStatus out = .cancelled ↔ out = .cancelled := by
  cases out <;> simp [outcomeTaskStatus]

theorem Final.move (hf : Final v) (hs : Sound v) (h : Move True v v') : Final v' := by
  obtain ⟨halone, htask, hattempt, hbusy, hcurrent, hresult, hsuccess⟩ := hs
  unfold Final at hf ⊢
  cases h with
  | same => exact hf
  | enter hk => simp only [View.enter, Function.update_apply]; grind
  | start ht hc hfree hx => simp only [View.start, Function.update_apply]; grind
  | @settle _ _ _ _ _ _ out ht hc he hr =>
    have hout := @outcomeTaskStatus_cancelled out
    simp only [View.settle, Function.update_apply]
    grind
  | stop ht he hes => exact hf
  | dismiss ht he hes hc => simp only [View.dismiss, Function.update_apply]; grind
  | force ht hP => simp only [View.force, Function.update_apply]; grind

/-- A cancelled task stays cancelled. -/
theorem Final.cancelled (hf : Final v) (h : Move P v v') {y : Option ExecutionId}
    (hk : v.task k = some (.cancelled, y)) : ∃ y', v'.task k = some (.cancelled, y') := by
  unfold Final at hf
  cases h with
  | same => exact ⟨y, hk⟩
  | enter => simp only [View.enter, Function.update_apply]; grind
  | start => simp only [View.start, Function.update_apply]; grind
  | settle => simp only [View.settle, Function.update_apply]; grind
  | stop => exact ⟨y, hk⟩
  | dismiss => simp only [View.dismiss, Function.update_apply]; grind
  | force => simp only [View.force, Function.update_apply]; grind

end NyanyaAgent.Queue
