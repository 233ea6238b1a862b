import NyanyaAgent.Bridges.Messages
import Mathlib.Logic.Function.Basic

/-!
# Home workspaces

`set_home`, `unset_home` and `workspace_for_owner` of `bridge_store.py`. The bridges are processes
of their own and share one file of assignments, which each of them replaces through the same
temporary file; the lock is one of threads.
-/
namespace NyanyaAgent.Bridges
open NyanyaAgent.Text NyanyaAgent.EnvFile

abbrev HomeOwner := List Char

/-- The names of a path below the root of the file system. -/
abbrev HomePath := List String

structure HomeHost where
  /-- `workspace_roots`. -/
  roots : List HomePath
  /-- Whether `Path(value).expanduser()` is absolute, and its names. -/
  parse : List Char → Bool × HomePath
  /-- `resolve(strict=False)`. -/
  resolve : HomePath → HomePath
  /-- `Path(value).expanduser().resolve(strict=False)`. -/
  locate : List Char → HomePath
  text : HomePath → List Char

structure HomeEntry where
  workspace : List Char
  setBy : HomeOwner
  setAt : List Char
  deriving DecidableEq

/-- The `users` of the file; `none` also for an entry that is no object. -/
abbrev HomeUsers := HomeOwner → Option HomeEntry

/-- What a file holds: the text of an object, or what `json.loads` refuses. -/
abbrev HomeText := Option HomeUsers

section Paths
variable (H : HomeHost)

def isAllowedWorkspacePath (path : HomePath) : Bool :=
  H.roots.any fun root => root.isPrefixOf (H.resolve path)

/-- `resolve_workspace_path`; without a text where a relative path finds no root at all. -/
def resolveWorkspacePath (value : List Char) : Except (Option String) HomePath :=
  if strip pySpace value = [] then .error (some "워크스페이스 경로가 비어 있습니다.")
  else do
    let (absolute, parts) := H.parse (strip pySpace value)
    let candidate ←
      if absolute then .ok parts
      else
        match H.roots.find? fun root => parts ≠ [] ∧ root.getLast? = parts.head? with
        | some root => .ok (root ++ parts.tail)
        | none =>
          match H.roots.head? with
          | some root => .ok (root ++ parts)
          | none => .error none
    let resolved := H.resolve candidate
    if isAllowedWorkspacePath H resolved = false then
      .error (some ("워크스페이스는 다음 경로 하위여야 합니다: " ++
        ", ".intercalate (H.roots.map fun root => String.ofList (H.text root))))
    else if resolved = [] then
      .error (some "파일시스템 루트(/)는 워크스페이스로 지정할 수 없습니다.")
    else .ok resolved

/-- `workspace_for_owner`, of what the file holds. -/
def workspaceForOwner (users : HomeUsers) (owner : HomeOwner) : Option HomePath :=
  match users owner with
  | none => none
  | some entry =>
    if strip pySpace entry.workspace = [] then none
    else
      let path := H.locate (strip pySpace entry.workspace)
      if isAllowedWorkspacePath H path then some path else none

/-- `execution_workspace`; `isDir` is the answer of the host. -/
def executionWorkspace (users : HomeUsers) (owner : HomeOwner) (isDir : Bool) :
    Except String HomePath :=
  match workspaceForOwner H users owner with
  | none =>
    .error "등록된 사용자 작업공간이 없습니다. 관리자가 홈워크스페이스를 등록한 뒤 다시 요청하세요."
  | some path => if isDir then .ok path else .error "등록된 작업공간이 없거나 디렉터리가 아닙니다."

end Paths

/-- A call of `set_home`, or of `unset_home` without an entry. -/
structure HomeChange where
  owner : HomeOwner
  entry : Option HomeEntry

def HomeChange.apply (c : HomeChange) (users : HomeUsers) : HomeUsers :=
  Function.update users c.owner c.entry

/-- Where a call stands between two calls of the system. -/
inductive HomeStage
  | loading
  | opening (users : HomeUsers)
  /-- The temporary file is open and empty. -/
  | writing (users : HomeUsers) (inode : ℕ)
  | replacing
  | returned
  | raised

structure HomeCall where
  change : HomeChange
  stage : HomeStage := .loading

/-- The disk, the calls, and what was answered to work. -/
structure HomeWorld where
  /-- What the files hold, by inode. -/
  files : List HomeText := []
  config : Option ℕ := none
  temp : Option ℕ := none
  calls : List HomeCall := []
  answers : List (HomeOwner × HomePath) := []

/-- `_load_workspace_config_unlocked`. -/
def loadConfig (w : HomeWorld) : HomeUsers :=
  match w.config.bind fun i => w.files[i]? with
  | some (some users) => users
  | _ => fun _ => none

/-- The next call of the system of a call. What is in the file after a write is up to the system:
another text that is longer may be under the written one, or the write stops halfway. -/
def homeStep (call : HomeCall) (left : HomeText) (fails : Bool) (w : HomeWorld) :
    HomeStage × HomeWorld :=
  match call.stage with
  | .loading => (.opening (call.change.apply (loadConfig w)), w)
  | .opening users =>
    match w.temp with
    | some i => (.writing users i, { w with files := w.files.set i none })
    | none =>
      (.writing users w.files.length,
        { w with files := w.files ++ [none], temp := some w.files.length })
  | .writing _ i =>
    (if fails then .raised else .replacing,
      { w with files := w.files.set i left })
  | .replacing =>
    match w.temp with
    | some i => (.returned, { w with config := some i, temp := none })
    | none => (.raised, w)
  | .returned => (.returned, w)
  | .raised => (.raised, w)

section Homes
variable (H : HomeHost)

inductive HomeAction
  | setHome (target : HomeOwner) (value : List Char) (setBy : HomeOwner) (setAt : List Char)
  | unsetHome (target : HomeOwner)
  | step (n : ℕ) (left : HomeText) (fails : Bool)
  /-- The process ends. -/
  | die (n : ℕ)
  | work (owner : HomeOwner) (isDir : Bool)

def stepHomes (w : HomeWorld) : HomeAction → HomeWorld
  | .setHome target value setBy setAt =>
    match resolveWorkspacePath H value with
    | .error _ => w
    | .ok workspace =>
      { w with calls := w.calls ++ [{ change := ⟨target, some ⟨H.text workspace, setBy, setAt⟩⟩ }] }
  | .unsetHome target => { w with calls := w.calls ++ [{ change := ⟨target, none⟩ }] }
  | .step n left fails =>
    match w.calls[n]? with
    | none => w
    | some call =>
      let (stage, w') := homeStep call left fails w
      { w' with calls := w.calls.set n { call with stage } }
  | .die n =>
    match w.calls[n]? with
    | none => w
    | some call => { w with calls := w.calls.set n { call with stage := .raised } }
  | .work owner isDir =>
    match executionWorkspace H (loadConfig w) owner isDir with
    | .error _ => w
    | .ok path => { w with answers := w.answers ++ [(owner, path)] }

/-- What is assumed of a write that lies over another text or stops halfway: it leaves no JSON object,
where it does not leave the text that was written. -/
def Unmixed (w : HomeWorld) : HomeAction → Prop
  | .step n left _ => ∀ call ∈ w.calls[n]?, ∀ users i, call.stage = .writing users i →
      left = some users ∨ left = none
  | _ => True

end Homes
end NyanyaAgent.Bridges
