import NyanyaAgent.Queue.Moves
import NyanyaAgent.Runs.Invariant

/-!
# Runs of the local queue

Any number of services over one ledger: their dispatches, workers and cancellations in
any order, each transaction whole.
-/
namespace NyanyaAgent.Queue
open NyanyaAgent.Schema NyanyaAgent.Relational NyanyaAgent.Operations NyanyaAgent.Runs

/-- A ledger, what the services have chosen to claim, and the cancellations under way. -/
structure QueueWorld where
  ledger : Ledger := {}
  clock : Time := 0
  dispatched : List (WorkerId × String × TaskId) := []
  cancels : List (TaskId × CancelStage) := []

inductive QueueAction
  | submit (s : Submission) (fresh : TaskId)
  | dispatch (worker : WorkerId) (handlers : List TaskId) (owner : String)
  | claim (n : ℕ) (adapter : String) (x : ExecutionId) (entry : Time)
  | renew (c : LocalClaim) (entry : Time)
  | finish (c : LocalClaim) (outcome : TaskOutcome) (freshApproval : ApprovalId) (entry : Time)
  | cancelTask (k : TaskId)
  | cancelStep (n : ℕ)
  | tick (elapsed : ℕ)

variable (env : Environment)

def stepQueue (w : QueueWorld) : QueueAction → QueueWorld
  | .submit s fresh => { w with ledger := ((submit s fresh w.clock).commit w.ledger).2 }
  | .dispatch worker handlers owner =>
    match dispatch handlers owner w.ledger with
    | some k => { w with dispatched := w.dispatched ++ [(worker, owner, k)] }
    | none => w
  | .claim n adapter x entry =>
    match w.dispatched[n]? with
    | some (worker, owner, k) =>
      { w with ledger := ((claim k worker owner adapter x entry).commit w.ledger).2 }
    | none => w
  | .renew c entry => { w with ledger := ((renew c.record entry).commit w.ledger).2 }
  | .finish c outcome freshApproval entry =>
    { w with ledger := ((finish env c outcome freshApproval entry w.clock).commit w.ledger).2 }
  | .cancelTask k => { w with cancels := w.cancels ++ [(k, .reading)] }
  | .cancelStep n =>
    match w.cancels[n]? with
    | some (k, stage) =>
      { w with
        ledger := (cancelStep k w.clock w.ledger stage).2
        cancels := w.cancels.set n (k, (cancelStep k w.clock w.ledger stage).1) }
    | none => w
  | .tick elapsed => { w with clock := w.clock + elapsed }

/-- A ledger whose tasks nobody has claimed yet. -/
structure QueueInit (w : QueueWorld) : Prop where
  claims : w.ledger.claims = .empty
  executions : w.ledger.executions = .empty
  results : w.ledger.results = .empty
  tasks : ∀ k t, w.ledger.tasks.get? k = some t → t.currentExecutionId = none
  cancels : w.cancels = []

/-- A cancellation moves the task itself only while it is still unclaimed. -/
def Unraced (w : QueueWorld) : QueueAction → Prop
  | .cancelStep n => ∀ k, w.cancels[n]? = some (k, .forcing) → w.ledger.claims.get? k = none
  | _ => True

variable {env : Environment} {P : Prop} {w w' : QueueWorld} {v v' : View} {k : TaskId}

/-- What a cancellation knows of the task it is about to change. -/
def CallSound (v : View) (k : TaskId) : CancelStage → Prop
  | .attempt x => (v.claim k).map (fun c => c.2.1) = some x
  | .stopping x held => held = true → (v.claim k).map Prod.snd = some (x, true)
  | _ => True

structure QueueSound (w : QueueWorld) : Prop where
  sound : Sound (view w.ledger)
  calls : ∀ k s, (k, s) ∈ w.cancels → CallSound (view w.ledger) k s

theorem CallSound.move {s : CancelStage} (hs : CallSound v k s) (h : Move P v v') :
    CallSound v' k s := by
  cases s with
  | attempt x =>
    obtain ⟨⟨o, y, b⟩, hc, rfl⟩ := Option.map_eq_some_iff.mp hs
    obtain ⟨b', hc', _⟩ := h.claim hc
    exact Option.map_eq_some_iff.mpr ⟨_, hc', rfl⟩
  | stopping x held =>
    intro hheld
    obtain ⟨⟨o, y, b⟩, hc, hy⟩ := Option.map_eq_some_iff.mp (hs hheld)
    cases hy
    obtain ⟨b', hc', hb⟩ := h.claim hc
    rw [hb rfl] at hc'
    exact Option.map_eq_some_iff.mpr ⟨_, hc', rfl⟩
  | reading | forcing | settling | settlingAttempt | returned | returnedAttempt | raised =>
    exact trivial

theorem commit_move {α : Type} {op : Op α} {l : Ledger}
    (h : ∀ a l', Tx.Ran op l a l' → Move P (view l) (view l')) :
    Move P (view l) (view (op.commit l).2) := by
  rcases Tx.commit_cases op l with ⟨a, l', hran, hc⟩ | ⟨e, _, hc⟩
  · rw [hc]
    exact h a l' hran
  · rw [hc]
    exact .same _

theorem claim_moves {l : Ledger} {worker : WorkerId} {owner adapter : String} {x : ExecutionId}
    {entry : Time} {r : Option LocalClaim} {l' : Ledger}
    (h : Tx.Ran (claim k worker owner adapter x entry) l r l') : Move P (view l) (view l') := by
  rcases claim_move h with ⟨_, rfl⟩ | ⟨_, hfree, hx, hview⟩
  · exact .same _
  · rw [hview]
    exact hfree.start hx

theorem finish_moves {l l' : Ledger} {c : LocalClaim} {outcome : TaskOutcome}
    {freshApproval : ApprovalId} {entry now : Time} {u : Unit}
    (h : Tx.Ran (finish env c outcome freshApproval entry now) l u l') :
    Move P (view l) (view l') := by
  obtain ⟨e, row, ⟨he, hopen, row', hrow', _, hx, hreleased, _, t, ht, hcurrent⟩, hrow, hr, hview⟩ :=
    finish_move h
  have hclaim : l.claims.get? c.taskId = some row' := hrow'
  rw [hrow] at hclaim
  cases hclaim
  have hx' : row.executionId = c.executionId := hx
  have ht' : l.tasks.get? c.taskId = some t := ht
  have he' : l.executions.get? c.executionId = some e := he
  have hcurrent' : t.currentExecutionId = some c.executionId := hcurrent
  have htask : (view l).task c.taskId = some (t.status, some c.executionId) := by
    simp only [view, ht', Option.map_some, hcurrent']
  have hheld : (view l).claim c.taskId = some (row.ownerKey, c.executionId, false) := by
    simp only [view, hrow, Option.map_some, hx', hreleased]
  have hattempt : (view l).attempt c.executionId = some (e.taskId, e.status) := by
    simp only [view, he', Option.map_some]
  have hresult : (view l).result c.executionId = none := by
    simp only [view, hr, Option.map_none]
  rw [hview]
  exact .settle htask hheld hattempt hresult

theorem stopAttempt_moves {l : Ledger} {x : ExecutionId} {held : Bool} {now : Time}
    (hs : Sound (view l)) (hc : CallSound (view l) k (.stopping x held)) :
    Move P (view l) (view (stopAttempt x held now l).2) := by
  have hmoves : Move P (view l) (view ((transitionExecution x
      (if held then .cancelled else .cancelling) (! held) now).commit l).2) := by
    apply commit_move
    intro u l' hran
    obtain ⟨e, t, he, ht, hcurrent, hterminal, hstop, hdismiss⟩ := transitionExecution_view hran
    have htask : (view l).task e.taskId = some (t.status, some x) := by
      simp only [view, ht, Option.map_some, hcurrent]
    have hattempt : (view l).attempt x = some (e.taskId, e.status) := by
      simp only [view, he, Option.map_some]
    cases held with
    | false =>
      rw [hstop rfl]
      apply Move.stop htask hattempt
      intro hes
      refine hterminal ⟨hes, ?_⟩
      rintro heq
      rw [← heq] at hes
      exact absurd hes (by decide)
    | true =>
      rw [hdismiss rfl]
      obtain ⟨⟨o, y, b⟩, hclaim, hy⟩ := Option.map_eq_some_iff.mp (hc rfl)
      cases hy
      have htask' : e.taskId = k := by
        have := hs.attempt k o x true hclaim
        rw [hattempt] at this
        simpa using this
      apply Move.dismiss htask hattempt
      · intro hes
        exact hterminal ⟨.inl hes, by rw [hes]; decide⟩
      · rw [htask']
        exact hclaim
  unfold stopAttempt
  rcases hcommit : (transitionExecution x (if held then .cancelled else .cancelling) (! held)
    now).commit l with ⟨_ | _, l'⟩ <;> rw [hcommit] at hmoves <;> exact hmoves

theorem step_move (hw : QueueSound w) {a : QueueAction} (hP : P → Unraced w a) :
    Move P (view w.ledger) (view (stepQueue env w a).ledger) := by
  cases a with
  | submit s fresh => exact commit_move fun _ _ => submit_move
  | dispatch worker handlers owner =>
    simp only [stepQueue]
    split <;> exact .same _
  | claim n adapter x entry =>
    simp only [stepQueue]
    split
    · exact commit_move fun _ _ => claim_moves
    · exact .same _
  | renew c entry =>
    apply commit_move
    intro b l' hran
    rw [renew_view hran]
    exact .same _
  | finish c outcome freshApproval entry => exact commit_move fun _ _ => finish_moves
  | cancelTask k => exact .same _
  | cancelStep n =>
    simp only [stepQueue]
    split
    · rename_i k stage hcall
      have hcall' : CallSound (view w.ledger) k stage :=
        hw.calls k stage (List.mem_of_getElem? hcall)
      cases stage with
      | stopping x held => exact stopAttempt_moves hw.sound hcall'
      | forcing =>
        have hmoves : Move P (view w.ledger)
            (view ((transitionTask k .cancelled w.clock).commit w.ledger).2) := by
          apply commit_move
          intro u l' hran
          obtain ⟨t, ht, hview⟩ := transitionTask_view hran
          rw [hview]
          apply Move.force (s := t.status)
          · simp only [view, ht, Option.map_some]
          · intro hp
            simp only [view, hP hp k hcall, Option.map_none]
        simp only [cancelStep]
        rcases hcommit : (transitionTask k .cancelled w.clock).commit w.ledger with ⟨_ | _, l'⟩ <;>
          rw [hcommit] at hmoves <;> exact hmoves
      | reading =>
        simp only [cancelStep]
        split
        · exact .same _
        · split_ifs
          · exact .same _
          · split <;> exact .same _
      | attempt x =>
        simp only [cancelStep]
        split
        · exact .same _
        · split_ifs <;> exact .same _
      | settling x =>
        simp only [cancelStep]
        split <;> exact .same _
      | settlingAttempt x t =>
        simp only [cancelStep]
        split
        · exact .same _
        · split_ifs <;> exact .same _
      | returned | returnedAttempt | raised => exact .same _
    · exact .same _
  | tick elapsed => exact .same _

theorem cancelStep_calls {l : Ledger} {now : Time} {s : CancelStage} (hs : Sound (view l))
    (hc : CallSound (view l) k s) :
    CallSound (view (cancelStep k now l s).2) k (cancelStep k now l s).1 := by
  cases s with
  | reading =>
    simp only [cancelStep]
    split
    · exact trivial
    · rename_i t ht
      split_ifs
      · exact trivial
      · split
        · rename_i x hx
          apply hs.current k t.status x
          simp only [view, ht, Option.map_some, hx]
        · exact trivial
  | attempt x =>
    simp only [cancelStep]
    split
    · exact trivial
    · rename_i e he
      split_ifs
      · exact trivial
      · -- A worker that still holds its claim does not await approval.
        intro hheld
        obtain ⟨⟨o, y, b⟩, hclaim, rfl⟩ := Option.map_eq_some_iff.mp hc
        have hawaiting : e.status = .awaitingApproval := of_decide_eq_true hheld
        cases b with
        | true => exact Option.map_eq_some_iff.mpr ⟨_, hclaim, rfl⟩
        | false =>
          have hattempt : (view l).attempt y = some (e.taskId, e.status) := by
            simp only [view, he, Option.map_some]
          rw [hawaiting] at hattempt
          rcases hs.busy k o y _ _ hclaim hattempt with h | h <;> cases h
      · exact trivial
  | stopping x held =>
    simp only [cancelStep, stopAttempt]
    split
    · exact trivial
    · split_ifs <;> exact trivial
  | forcing =>
    simp only [cancelStep]
    split <;> exact trivial
  | settling x =>
    simp only [cancelStep]
    split <;> exact trivial
  | settlingAttempt x t =>
    simp only [cancelStep]
    split
    · exact trivial
    · split_ifs <;> exact trivial
  | returned | returnedAttempt | raised => exact trivial

/-- What a step leaves of the cancellations: each as it was, a new one about to read, or
the next stage of the one that moved. -/
theorem step_cancels {a : QueueAction} {s : CancelStage}
    (h : (k, s) ∈ (stepQueue env w a).cancels) : (k, s) ∈ w.cancels ∨ s = .reading ∨
      ∃ s₀, (k, s₀) ∈ w.cancels ∧ s = (cancelStep k w.clock w.ledger s₀).1 ∧
        (stepQueue env w a).ledger = (cancelStep k w.clock w.ledger s₀).2 := by
  cases a with
  | submit | renew | finish | tick => exact .inl h
  | dispatch worker handlers owner =>
    simp only [stepQueue] at h
    split at h <;> exact .inl h
  | claim n adapter x entry =>
    simp only [stepQueue] at h
    split at h <;> exact .inl h
  | cancelTask j =>
    rcases List.mem_append.mp h with h | h
    · exact .inl h
    · rw [List.mem_singleton] at h
      cases h
      exact .inr (.inl rfl)
  | cancelStep n =>
    simp only [stepQueue] at h ⊢
    split at h
    · rename_i j stage hcall
      rcases List.mem_or_eq_of_mem_set h with h | h
      · exact .inl h
      · cases h
        exact .inr (.inr ⟨stage, List.mem_of_getElem? hcall, rfl, rfl⟩)
    · exact .inl h

theorem QueueSound.step (hw : QueueSound w) (a : QueueAction) : QueueSound (stepQueue env w a) := by
  have hmove : Move False (view w.ledger) (view (stepQueue env w a).ledger) :=
    step_move hw False.elim
  refine ⟨hw.sound.move hmove, ?_⟩
  intro k s hs
  rcases step_cancels hs with hs | rfl | ⟨s₀, hs₀, rfl, hledger⟩
  · exact (hw.calls k s hs).move hmove
  · exact trivial
  · rw [hledger]
    exact cancelStep_calls hw.sound (hw.calls k s₀ hs₀)

/-- The task is recorded as cancelled. -/
def Cancelled (v : View) (k : TaskId) : Prop := ∃ y, v.task k = some (.cancelled, y)

/-- A cancellation that answers with a cancelled task found it so or made it so. -/
def Ended (v : View) (k : TaskId) : CancelStage → Prop
  | .returned s => s = .cancelled → Cancelled v k
  | .returnedAttempt s => s = .cancelled → Cancelled v k
  | .settlingAttempt _ t => t.status = .cancelled → Cancelled v k
  | _ => True

structure QueueFinal (w : QueueWorld) : Prop where
  final : Final (view w.ledger)
  ended : ∀ k s, (k, s) ∈ w.cancels → Ended (view w.ledger) k s

theorem Ended.move {s : CancelStage} (hs : Ended v k s) (hf : Final v) (h : Move P v v') :
    Ended v' k s := by
  have hkept : Cancelled v k → Cancelled v' k := by
    rintro ⟨y, hk⟩
    exact hf.cancelled h hk
  cases s with
  | returned | returnedAttempt | settlingAttempt => exact fun heq => hkept (hs heq)
  | reading | attempt | stopping | forcing | settling | raised => exact trivial

theorem cancelStep_ended {l : Ledger} {now : Time} {s : CancelStage} (hs : Sound (view l))
    (hc : CallSound (view l) k s) (he : Ended (view l) k s) :
    Ended (view (cancelStep k now l s).2) k (cancelStep k now l s).1 := by
  have hread : ∀ t, l.tasks.get? k = some t → t.status = .cancelled → Cancelled (view l) k := by
    intro t ht hcancelled
    refine ⟨t.currentExecutionId, ?_⟩
    simp only [view, ht, Option.map_some, hcancelled]
  cases s with
  | reading =>
    simp only [cancelStep]
    split
    · exact trivial
    · rename_i t ht
      split_ifs
      · exact hread t ht
      · split <;> exact trivial
  | attempt x =>
    simp only [cancelStep]
    split
    · exact trivial
    · split_ifs <;> exact trivial
  | stopping x held =>
    simp only [cancelStep, stopAttempt]
    split
    · rename_i l' hcommit
      intro hheld
      cases held with
      | false => cases hheld
      | true =>
        obtain ⟨e, t, hrow, _, _, _, _, hdismiss⟩ := transitionExecution_view (Tx.commit_ok.mp hcommit)
        obtain ⟨⟨o, y, b⟩, hclaim, hy⟩ := Option.map_eq_some_iff.mp (hc rfl)
        cases hy
        have htask : e.taskId = k := by
          have hattempt := hs.attempt k o x true hclaim
          simpa only [view, hrow, Option.map_some, Option.some.injEq] using hattempt
        refine ⟨some x, ?_⟩
        rw [hdismiss rfl, htask]
        exact Function.update_self ..
    · split_ifs <;> exact trivial
  | forcing =>
    simp only [cancelStep]
    split
    · rename_i l' hcommit
      obtain ⟨t, _, hview⟩ := transitionTask_view (Tx.commit_ok.mp hcommit)
      intro _
      refine ⟨t.currentExecutionId, ?_⟩
      rw [hview]
      exact Function.update_self ..
    · exact trivial
  | settling x =>
    simp only [cancelStep]
    split
    · exact trivial
    · rename_i t ht
      exact hread t ht
  | settlingAttempt x t =>
    simp only [cancelStep]
    split
    · exact trivial
    · split_ifs
      · exact he
      · exact trivial
  | returned | returnedAttempt => exact he
  | raised => exact trivial

theorem QueueFinal.step {a : QueueAction} (hf : QueueFinal w) (hw : QueueSound w)
    (ha : Unraced w a) : QueueFinal (stepQueue env w a) := by
  have hmove : Move True (view w.ledger) (view (stepQueue env w a).ledger) :=
    step_move hw fun _ => ha
  refine ⟨hf.final.move hw.sound hmove, ?_⟩
  intro k s hs
  rcases step_cancels hs with hs | rfl | ⟨s₀, hs₀, rfl, hledger⟩
  · exact (hf.ended k s hs).move hf.final hmove
  · exact trivial
  · rw [hledger]
    exact cancelStep_ended hw.sound (hw.calls k s₀ hs₀) (hf.ended k s₀ hs₀)

theorem QueueInit.sound (h : QueueInit w) : QueueSound w := by
  have hclaim : ∀ k, (view w.ledger).claim k = none := fun k => by
    simp only [view, h.claims, Table.get?_empty, Option.map_none]
  have hattempt : ∀ x, (view w.ledger).attempt x = none := fun x => by
    simp only [view, h.executions, Table.get?_empty, Option.map_none]
  have hresult : ∀ x, (view w.ledger).result x = none := fun x => by
    simp only [view, h.results, Table.get?_empty, Option.map_none]
  refine ⟨⟨?_, ?_, ?_, ?_, ?_, ?_, ?_⟩, ?_⟩
  · intro j k o x y hj
    simp [hclaim] at hj
  · intro k o x b hk
    simp [hclaim] at hk
  · intro k o x b hk
    simp [hclaim] at hk
  · intro k o x j es hk
    simp [hclaim] at hk
  · intro k s x hk
    obtain ⟨t, ht, hrow⟩ := Option.map_eq_some_iff.mp hk
    rw [h.tasks k t ht] at hrow
    cases hrow
  · intro x k out hx
    simp [hresult] at hx
  · intro x k j es hx
    simp [hresult] at hx
  · intro k s hs
    rw [h.cancels] at hs
    cases hs

theorem QueueInit.final (h : QueueInit w) : QueueFinal w := by
  constructor
  · intro k y _
    constructor
    · intro o x
      simp [view, h.claims]
    · intro x
      simp [view, h.results]
  · intro k s hs
    rw [h.cancels] at hs
    cases hs

end NyanyaAgent.Queue
