import NyanyaAgent.Operations.Cancellation
import NyanyaAgent.Operations.Environment
import Mathlib.Data.List.Sort

/-!
# Bulk control of an owner's tasks

`_list_and_select` and `_cancel_selection` of `operation_service.py`: a listing records
what it showed, and a later cancellation stops those tasks one transaction at a time.
-/
namespace NyanyaAgent.Control
open NyanyaAgent.Schema NyanyaAgent.Relational NyanyaAgent.Operations

structure Target where
  id : TaskId
  status : TaskStatus
  updatedAt : Time
  deriving DecidableEq, Repr

/-- A `control.selection` event, with whether its request is a control request. -/
structure SelectionEvent where
  control : Bool
  actor : Hash
  conversation : Hash
  targets : List Target
  expiresAt : Time

/-- The ledger with the selections recorded so far, the latest last. -/
structure ControlState where
  ledger : Ledger := {}
  selections : List SelectionEvent := []

/-- The tasks a listing shows to their owner. -/
def Unfinished (owner : String) (t : AgentTask) : Prop :=
  t.metadata.ownerKey.getD t.requestedBy = owner ∧ t.status ≠ .completed ∧
    t.status ≠ .cancelled ∧ ¬ (t.status = .failed ∧ t.metadata.userDisposition ≠ none)

instance (owner : String) : DecidablePred (Unfinished owner) := fun t => by
  unfold Unfinished; infer_instance

/-- `ORDER BY created_at, rowid`. -/
def openList (l : Ledger) (owner : String) : List Target :=
  ((l.tasks.rows.filter (Unfinished owner)).insertionSort
    fun a b => a.createdAt ≤ b.createdAt).map fun t => ⟨t.id, t.status, t.updatedAt⟩

variable (env : Environment)

def scopeHash (value : String) : Hash := env.sha256 (env.encode value)

def listAndSelect (control : Bool) (owner conversation : String) (now : Time)
    (s : ControlState) : ControlState :=
  { s with selections := s.selections ++
      [{ control := control, actor := scopeHash env owner
         conversation := scopeHash env conversation, targets := openList s.ledger owner
         expiresAt := now + seconds (30 * 60) }] }

def latestSelection (s : ControlState) (owner conversation : String) : Option SelectionEvent :=
  (s.selections.filter fun e => e.control = true ∧ e.actor = scopeHash env owner ∧
    e.conversation = scopeHash env conversation).getLast?

def selection (s : ControlState) (owner conversation : String) (now : Time) :
    Option SelectionEvent :=
  (latestSelection env s owner conversation).filter fun e => now < e.expiresAt

def cancelTarget (owner : String) (x : Target) (now : Time) : Op TaskStatus :=
  if x.status = .failed then
    dismiss x.id owner { status := some x.status, updatedAt := some x.updatedAt } now
  else cancel x.id owner { status := some x.status, updatedAt := some x.updatedAt } now

/-- A transaction of a bulk cancellation, with the ledger on both sides of it. -/
structure CancelStep where
  target : Target
  now : Time
  before : Ledger
  after : Ledger
  answer : Except Err TaskStatus

/-- The loop over the targets; before each transaction the rest of the program has acted. -/
def cancelTargets (owner : String) (others : ℕ → ControlState → ControlState) (clock : ℕ → Time) :
    ℕ → List Target → ControlState → List CancelStep
  | _, [], _ => []
  | i, x :: rest, s =>
    let s := others i s
    let r := Tx.commit (cancelTarget owner x (clock i)) s.ledger
    ⟨x, clock i, s.ledger, r.2, r.1⟩ ::
      cancelTargets owner others clock (i + 1) rest { s with ledger := r.2 }

inductive CancelReply
  | refused (message : String)
  | processed (selected processed : ℕ)
  deriving DecidableEq

/-- `_cancel_selection`: the selection is read at the first clock reading, the list after the
rest of the program has acted once more. -/
def cancelSelection (owner conversation : String) (others : ℕ → ControlState → ControlState)
    (clock : ℕ → Time) (s : ControlState) : CancelReply × List CancelStep :=
  match selection env s owner conversation (clock 0) with
  | none => (.refused
      "취소할 대상이 확정되지 않았습니다. 먼저 작업목록을 조회한 뒤 다시 취소를 요청하세요.", [])
  | some selected =>
    if selected.targets = [] then (.refused "취소할 미완료 작업이 없습니다.", [])
    else
      let s := others 0 s
      if openList s.ledger owner ≠ selected.targets then
        (.refused "목록 이후 작업 상태가 바뀌었습니다. 작업목록을 다시 조회하고 취소 범위를 확인하세요.", [])
      else
        let steps := cancelTargets owner others clock 1 selected.targets s
        (.processed selected.targets.length
          (steps.filter fun step => step.answer.isOk).length, steps)

end NyanyaAgent.Control
