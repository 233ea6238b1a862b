import NyanyaAgent.Drafts.Merge
import NyanyaAgent.FileTree.Overlay
import Mathlib.Algebra.Ring.Nat

/-!
# Rounds of feedback

The tree a draft stands for, the operations a model's delta asks for, and the plans that
follow each other while feedback is merged and recorded.
-/
namespace NyanyaAgent.Drafts
open NyanyaAgent.Schema NyanyaAgent.Relational NyanyaAgent.Operations NyanyaAgent.Plans
open NyanyaAgent.FileTree

variable (env : Environment)

def originalTree (original : List (Path × SnapshotItem)) : Path → Option Bytes :=
  fun p => (baselineItem original p).map (·.content)

def DraftChange.leaves (c : DraftChange) : Option Bytes :=
  if c.action = .delete then none else some c.content

def pendingChanges (changes : List DraftChange) : Path → Option (Option Bytes) :=
  fun p => (combinedGet changes p).map DraftChange.leaves

/-- The approved files with the created and modified contents, without the deleted paths. -/
def effectiveTree (original : List (Path × SnapshotItem)) (changes : List DraftChange) :
    Path → Option Bytes :=
  overlay (originalTree original) (pendingChanges changes)

/-- The path a delta names, below the draft's directory for a creation. -/
def deltaPath (d : DraftId) (delta : ProposedChange) : Option Path :=
  match relative env delta.path with
  | .ok parsed => some (deltaName (draftDirectory d) parsed delta.action)
  | .error _ => none

def perform (d : DraftId) (tree : Path → Option Bytes) (delta : ProposedChange) :
    Path → Option Bytes :=
  match deltaPath env d delta with
  | some p => Function.update tree p (postimage delta.action delta.content)
  | none => tree

def performAll (d : DraftId) (deltas : List ProposedChange) (tree : Path → Option Bytes) :
    Path → Option Bytes :=
  deltas.foldl (perform env d) tree

/-- A plan keeps the path, the action and the content that is left of what was merged; a deletion
loses its content, and a reason may be cut. -/
def Records (c : DraftChange) (r : PlannedChange) : Prop :=
  r.path = c.path ∧ r.action = c.action ∧ r.content = (postimage c.action c.content).getD []

/-- The changes a draft has accumulated after the deltas of its rounds. -/
inductive FeedbackRounds (d : DraftId) (original : List (Path × SnapshotItem)) :
    List (List ProposedChange) → List PlannedChange → Prop
  | opened : FeedbackRounds d original [] []
  | feedback {rounds : List (List ProposedChange)} {changes recorded : List PlannedChange}
      {deltas : List ProposedChange} {combined : List DraftChange}
      (h : FeedbackRounds d original rounds changes)
      (merged : merge env d original changes deltas = .ok combined)
      (plan : List.Forall₂ Records combined recorded) :
      FeedbackRounds d original (rounds ++ [deltas]) recorded

/-- An entry of `values` is replaced in place or appended. -/
def snapshotSet (values : List (Path × SnapshotItem)) (name : Path) (item : SnapshotItem) :
    List (Path × SnapshotItem) :=
  if ∃ b ∈ values, b.1 = name then values.map fun b => if b.1 = name then (name, item) else b
  else values ++ [(name, item)]

def applyChange (values : List (Path × SnapshotItem)) (c : PlannedChange) :
    Except Err (List (Path × SnapshotItem)) :=
  if c.action = .delete then
    match baselineItem values c.path with
    | none => .error (.value "KeyError")
    | some item => .ok (snapshotSet values c.path { item with pendingDeletion := true })
  else .ok (snapshotSet values c.path { content := c.content, sha256 := env.sha256 c.content })

def applyChanges : List PlannedChange → List (Path × SnapshotItem) →
    Except Err (List (Path × SnapshotItem))
  | [], values => .ok values
  | c :: rest, values => (applyChange env values c).bind (applyChanges rest)

def currentSnapshot (original : List (Path × SnapshotItem)) (changes : List PlannedChange) :
    Except Err (List (Path × SnapshotItem)) := do
  let values ← applyChanges env changes original
  if 2000000 < (values.map fun b => b.2.content.length).sum then
    .error (.safeOperation "Draft contents exceed the working-copy limit")
  else .ok values

/-- What the working directory holds of a snapshot. -/
def visible (values : List (Path × SnapshotItem)) : Path → Option Bytes :=
  fun p => (baselineItem values p).bind fun item =>
    if item.pendingDeletion then none else some item.content

end NyanyaAgent.Drafts
