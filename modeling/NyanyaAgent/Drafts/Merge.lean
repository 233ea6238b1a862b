import NyanyaAgent.Plans.PrivatePaths

/-!
# Draft feedback

`merge`: a model's changes over the changes a draft already proposes. A file the owner
approved can be modified or deleted, any other only created below the draft's directory.
-/
namespace NyanyaAgent.Drafts
open NyanyaAgent.Schema NyanyaAgent.Relational NyanyaAgent.Operations NyanyaAgent.Plans

variable (env : Environment)

structure DraftChange where
  path : Path
  action : ChangeAction
  content : Bytes
  reason : String
  deriving DecidableEq

def combinedGet (combined : List DraftChange) (name : Path) : Option DraftChange :=
  combined.find? fun c => c.path = name

/-- An assignment keeps the place of a present path. -/
def combinedSet (combined : List DraftChange) (change : DraftChange) : List DraftChange :=
  if ∃ c ∈ combined, c.path = change.path then
    combined.map fun c => if c.path = change.path then change else c
  else combined ++ [change]

def combinedPop (combined : List DraftChange) (name : Path) : List DraftChange :=
  combined.filter fun c => c.path ≠ name

/-- `name.startswith(prefix)` for a path and a directory with its slash. -/
def Below (directory name : Path) : Prop := directory <+: name ∧ directory ≠ name

instance (directory name : Path) : Decidable (Below directory name) := by
  unfold Below; infer_instance

/-- The name a delta is merged under. -/
def deltaName (directory parsed : Path) (action : ChangeAction) : Path :=
  if action = .create ∧ ¬ Below directory parsed then directory ++ parsed else parsed

def blankReason (reason : String) : Prop := reason.toList.all isSpace = true

instance (reason : String) : Decidable (blankReason reason) := by
  unfold blankReason; infer_instance

def mergeNew (directory : Path) (combined : List DraftChange) (name : Path)
    (delta : ProposedChange) : Except Err (List DraftChange) :=
  if ¬ Below directory name then
    .error (.safeOperation "A new input needs a separately approved read scope")
  else if delta.action ≠ .create ∧ ¬ ∃ c ∈ combinedGet combined name, c.action = .create then
    .error (.safeOperation "Draft target does not exist")
  else if delta.action = .delete then .ok (combinedPop combined name)
  else if blankReason delta.reason then
    .error (.safeOperation "Draft text and rationale are required")
  else .ok (combinedSet combined ⟨name, .create, delta.content, delta.reason⟩)

def mergeOriginal (combined : List DraftChange) (name : Path) (item : SnapshotItem)
    (delta : ProposedChange) : Except Err (List DraftChange) :=
  if delta.action = .create then
    .error (.safeOperation "Creation cannot replace an existing input")
  else if blankReason delta.reason then
    .error (.safeOperation "Draft text and rationale are required")
  else if delta.action = .modify ∧ delta.content = item.content then
    .ok (combinedPop combined name)
  else .ok (combinedSet combined ⟨name, delta.action, delta.content, delta.reason⟩)

def mergeDelta (directory : Path) (original : List (Path × SnapshotItem))
    (combined : List DraftChange) (name : Path) (delta : ProposedChange) :
    Except Err (List DraftChange) :=
  match baselineItem original name with
  | none => mergeNew directory combined name delta
  | some item => mergeOriginal combined name item delta

/-- The loop of `merge`, with the names seen so far. -/
def mergeDeltas (directory : Path) (original : List (Path × SnapshotItem)) :
    List ProposedChange → List DraftChange → List Path → Except Err (List DraftChange)
  | [], combined, _ => .ok combined
  | delta :: rest, combined, seen => do
    let parsed ← relative env delta.path
    let name := deltaName directory parsed delta.action
    if name ∈ seen then .error (.safeOperation "Duplicate draft delta")
    else do
      let combined ← mergeDelta directory original combined name delta
      mergeDeltas directory original rest combined (seen ++ [name])

theorem mergeDeltas_cons (directory : Path) (original : List (Path × SnapshotItem))
    (delta : ProposedChange) (rest : List ProposedChange) (combined : List DraftChange)
    (seen : List Path) :
    mergeDeltas env directory original (delta :: rest) combined seen =
      (relative env delta.path).bind fun parsed =>
        if deltaName directory parsed delta.action ∈ seen then
          .error (.safeOperation "Duplicate draft delta")
        else
          (mergeDelta directory original combined (deltaName directory parsed delta.action)
            delta).bind fun next =>
              mergeDeltas env directory original rest next
                (seen ++ [deltaName directory parsed delta.action]) := rfl

/-- What `merge` starts from: the changes of the draft's plan. -/
def planned (c : PlannedChange) : DraftChange := ⟨c.path, c.action, c.content, c.reason⟩

def merge (d : DraftId) (original : List (Path × SnapshotItem)) (changes : List PlannedChange)
    (deltas : List ProposedChange) : Except Err (List DraftChange) :=
  if 40 < deltas.length then .error (.safeOperation "Invalid draft delta")
  else do
    let combined ← mergeDeltas env (draftDirectory d) original deltas (changes.map planned) []
    if 40 < combined.length then .error (.safeOperation "Draft plan exceeds the file limit")
    else .ok combined

def DraftChange.proposed (c : DraftChange) : ProposedChange :=
  ⟨pathText c.path, c.action, c.content, c.reason⟩

end NyanyaAgent.Drafts
