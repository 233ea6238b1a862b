import NyanyaAgent.System.Steps

/-!
# Delivery watchers

`OperationService.deliver` as a thread beside the world: it polls the task, prepares a
notice, claims the saved result, calls the responder and settles the result. Any
action of the world may happen between two of its steps.
-/
namespace NyanyaAgent.System
open NyanyaAgent.Schema NyanyaAgent.Relational NyanyaAgent.Operations NyanyaAgent.Runs

variable (env : Environment)

/-- `watch_attempt`: the next attempt of a queued task, or the started one. -/
def watchAttempt (l : Ledger) (k : TaskId) (owner : String) : Option ℕ :=
  match l.operations.get? k, (l.tasks.get? k).filter fun t => t.requestedBy = owner with
  | some o, some t => some (o.attempts + if t.status = .queued then 1 else 0)
  | _, _ => none

/-- `delivery_state`: the task's status and attempts, and its saved current result. -/
structure DeliveryState where
  status : TaskStatus
  attempts : ℕ
  result : Option TaskResult

def deliveryState (l : Ledger) (k : TaskId) (owner : String) : Option DeliveryState :=
  match l.operations.get? k, (l.tasks.get? k).filter fun t => t.requestedBy = owner with
  | some o, some t => some ⟨t.status, o.attempts, t.currentExecutionId.bind l.results.get?⟩
  | _, _ => none

/-- Where a watcher is; a text is what the responder gets, an error what it raised. -/
inductive WatchStage
  | polling
  | prepared (x : ExecutionId) (text : String)
  | claimed (x : ExecutionId) (text : String)
  | responded (x : ExecutionId) (error : Option String)
  | done
  deriving DecidableEq

structure Watcher where
  taskId : TaskId
  owner : String
  attempt : ℕ
  stage : WatchStage := .polling
  deriving DecidableEq

/-- One pass of the loop, up to the claim; `notice` is the text `prepare` would add. -/
def pollStage (l : Ledger) (w : Watcher) (notice : String) : WatchStage :=
  match deliveryState l w.taskId w.owner with
  | none => .done
  | some state =>
    if w.attempt < state.attempts then .done
    else match state.result with
    | some r =>
      if state.attempts = w.attempt ∧ state.status ≠ .queued ∧ state.status ≠ .running then
        if r.deliveryStatus ≠ .pending then .done
        else .prepared r.executionId
          (r.response ++ if r.outcome = .succeeded then notice else "")
      else if state.status = .blocked ∨ state.status = .cancelled ∨ state.status = .failed then .done
      else .polling
    | none =>
      if state.status = .blocked ∨ state.status = .cancelled ∨ state.status = .failed then .done
      else .polling

/-- The world, its watchers, and what responders have been called with. -/
structure Delivery where
  world : World
  watchers : List Watcher := []
  sent : List (ExecutionId × String) := []

inductive DeliveryAction
  | act (a : Action)
  | watch (k : TaskId) (owner : String) (attempt : Option ℕ)
  | poll (n : ℕ) (notice : String)
  | claim (n : ℕ)
  /-- The responder is called; it returns, or raises the error. -/
  | respond (n : ℕ) (error : Option String)
  | settle (n : ℕ)
  | crash (n : ℕ)

def Delivery.restage (d : Delivery) (n : ℕ) (w : Watcher) (s : WatchStage) : Delivery :=
  { d with watchers := d.watchers.set n { w with stage := s } }

/-- A watcher takes the step it is at; every other request leaves it alone. -/
def stepWatcher (d : Delivery) (n : ℕ) (w : Watcher) : DeliveryAction → Delivery
  | .poll _ notice =>
    match w.stage with
    | .polling => d.restage n w (pollStage d.world.ledger w notice)
    | _ => d
  | .claim _ =>
    match w.stage with
    | .prepared x text =>
      match Tx.commit (claimDelivery w.taskId w.owner x w.attempt d.world.clock) d.world.ledger with
      | (.ok true, l) =>
        { d.restage n w (.claimed x text) with world := { d.world with ledger := l } }
      | (_, l) => { d.restage n w .done with world := { d.world with ledger := l } }
    | _ => d
  | .respond _ error =>
    match w.stage with
    | .claimed x text => { d.restage n w (.responded x error) with sent := d.sent ++ [(x, text)] }
    | _ => d
  | .settle _ =>
    match w.stage with
    | .responded x error =>
      { d.restage n w .done with
        world := { d.world with
          ledger := settleDelivery x error.isNone (error.getD "") d.world.clock d.world.ledger } }
    | _ => d
  | .crash _ => d.restage n w .done
  | _ => d

def stepDelivery (d : Delivery) : DeliveryAction → Delivery
  | .act a => { d with world := step env d.world a }
  | .watch k owner (some attempt) =>
    { d with watchers := d.watchers ++ [{ taskId := k, owner, attempt }] }
  | .watch k owner none =>
    match watchAttempt d.world.ledger k owner with
    | some attempt => { d with watchers := d.watchers ++ [{ taskId := k, owner, attempt }] }
    | none => d
  | .poll n notice => (d.watchers[n]?.map fun w => stepWatcher d n w (.poll n notice)).getD d
  | .claim n => (d.watchers[n]?.map fun w => stepWatcher d n w (.claim n)).getD d
  | .respond n error => (d.watchers[n]?.map fun w => stepWatcher d n w (.respond n error)).getD d
  | .settle n => (d.watchers[n]?.map fun w => stepWatcher d n w (.settle n)).getD d
  | .crash n => (d.watchers[n]?.map fun w => stepWatcher d n w (.crash n)).getD d

end NyanyaAgent.System
