import NyanyaAgent.EnvFile.Readers
import NyanyaAgent.Runs.Invariant

/-!
# The dashboard token

`dashboard_token.py`: every start of a service makes sure that there is a token, and several may do
so at once.
-/
namespace NyanyaAgent.EnvFile
open NyanyaAgent.Text

inductive TokenNode
  | file (content : List UInt8) (mode links : ℕ) (mine : Bool)
  | link
  | directory
  /-- A pipe or a device. -/
  | special
  /-- What the process cannot open. -/
  | closed
  deriving DecidableEq

/-- The libraries: paths and texts. -/
structure TokenHost where
  /-- `expanduser`, under the state root when relative, and `abspath`. -/
  resolve : List Char → List Char
  /-- The directories above a path, the highest one first. -/
  parents : List Char → List (List Char)
  /-- `bytes.decode("utf-8")`. -/
  decode : List UInt8 → Option (List Char)
  encode : List Char → List UInt8
  decode_nil : decode [] = some []

inductive TokenStatus
  | configured | present | created
  deriving DecidableEq

inductive TokenErr
  | emptyPath | directory | link | notSingle | notPrivate | invalid | undecodable | os
  deriving DecidableEq

def TokenErr.message : TokenErr → Option String
  | .emptyPath => some "Dashboard token file path must not be empty"
  | .directory => some "Dashboard token directory must not contain links"
  | .link => some "Dashboard token must not be a link"
  | .notSingle => some "Dashboard token must be a single regular file"
  | .notPrivate => some "Existing dashboard token must be owner-only; contents were preserved"
  | .invalid => some "Existing dashboard token is empty or invalid; contents were preserved"
  | .undecodable => none
  | .os => none

/-- Where a call of `ensure_dashboard_token` stands between two calls of the system. -/
inductive TokenStage
  | entered
  /-- The directories that are still to be made, and then the file. -/
  | preparing (path : List Char) (parts : List (List Char))
  /-- The exclusive creation has found something. -/
  | found (path : List Char)
  /-- The file is there and still empty. -/
  | made (path : List Char)
  | returned (status : TokenStatus)
  | raised (e : TokenErr)
  deriving DecidableEq

structure TokenCall where
  environ : Settings
  text : List Char
  /-- `secrets.token_urlsafe(32)`. -/
  token : List Char
  stage : TokenStage := .entered

abbrev TokenFiles := List Char → Option TokenNode

def tokenKey : List Char := "NYANYA_DASHBOARD_CONTROL_TOKEN".toList

def tokenFileKey : List Char := "NYANYA_DASHBOARD_CONTROL_TOKEN_FILE".toList

/-- The file that `os.open` makes. -/
def newToken : TokenNode := .file [] 384 1 true

section Calls
variable (S : TokenHost)

def existingToken (node : Option TokenNode) : Except TokenErr (List UInt8) :=
  match node with
  | none | some .directory | some .closed => .error .os
  | some .link => .error .link
  | some .special => .error .notSingle
  | some (.file content mode links mine) =>
    if links ≠ 1 then .error .notSingle
    else if mine = false ∨ mode % 64 ≠ 0 then .error .notPrivate
    else if 4096 < content.length then .error .invalid
    else
      match S.decode content with
      | none => .error .undecodable
      | some text => if strip pySpace text = [] then .error .invalid else .ok content

/-- `ensure_dashboard_token` up to its first directory. -/
def enterToken (call : TokenCall) : TokenStage :=
  let settings := configuration call.environ call.text
  if strip pySpace ((settings tokenKey).getD []) ≠ [] then .returned .configured
  else
    let value := (settings tokenFileKey).getD "data/dashboard_control.token".toList
    if strip pySpace value = [] then .raised .emptyPath
    else .preparing (S.resolve value) (S.parents (S.resolve value))

/-- One round of `_prepare_parent`. -/
def preparePart (path part : List Char) (parts : List (List Char)) (files : TokenFiles) :
    TokenStage × TokenFiles :=
  match files part with
  | none => (.preparing path parts, Function.update files part (some .directory))
  | some .directory => (.preparing path parts, files)
  | some _ => (.raised .directory, files)

/-- The exclusive creation. -/
def createToken (path : List Char) (files : TokenFiles) : TokenStage × TokenFiles :=
  match files path with
  | none => (.made path, Function.update files path (some newToken))
  | some _ => (.found path, files)

def tokenBytes (call : TokenCall) : List UInt8 := S.encode (call.token ++ ['\n'])

def writtenToken (call : TokenCall) (written : ℕ) : TokenNode :=
  .file ((tokenBytes S call).take written) 384 1 true

/-- A call that ended well, with what the file held then. -/
structure TokenAnswer where
  path : List Char
  created : Bool
  content : List UInt8

structure TokenWorld where
  files : TokenFiles
  calls : List TokenCall := []
  answers : List TokenAnswer := []

inductive TokenAction
  | start (environ : Settings) (text token : List Char)
  | step (n : ℕ)
  /-- A call of the system fails, or the process ends, after some bytes if it was writing. -/
  | fail (n written : ℕ)

/-- The next call of the system: the stage it leads to, the files, and the answer if it is the last
one. -/
def tokenStep (call : TokenCall) (files : TokenFiles) :
    TokenStage × TokenFiles × Option TokenAnswer :=
  match call.stage with
  | .entered => (enterToken S call, files, none)
  | .preparing path (part :: parts) =>
    let (stage, files) := preparePart path part parts files
    (stage, files, none)
  | .preparing path [] =>
    let (stage, files) := createToken path files
    (stage, files, none)
  | .found path =>
    match existingToken S (files path) with
    | .error e => (.raised e, files, none)
    | .ok content => (.returned .present, files, some ⟨path, false, content⟩)
  | .made path =>
    (.returned .created,
      Function.update files path (some (writtenToken S call (tokenBytes S call).length)),
      some ⟨path, true, tokenBytes S call⟩)
  | .returned status => (.returned status, files, none)
  | .raised e => (.raised e, files, none)

def tokenFail (call : TokenCall) (written : ℕ) (files : TokenFiles) : TokenStage × TokenFiles :=
  match call.stage with
  | .made path => (.raised .os, Function.update files path (some (writtenToken S call written)))
  | .returned status => (.returned status, files)
  | .raised e => (.raised e, files)
  | _ => (.raised .os, files)

def stepToken (w : TokenWorld) : TokenAction → TokenWorld
  | .start environ text token => { w with calls := w.calls ++ [{ environ, text, token }] }
  | .step n =>
    match w.calls[n]? with
    | none => w
    | some call =>
      let (stage, files, answer) := tokenStep S call w.files
      { files, calls := w.calls.set n { call with stage },
        answers := w.answers ++ answer.toList }
  | .fail n written =>
    match w.calls[n]? with
    | none => w
    | some call =>
      let (stage, files) := tokenFail S call written w.files
      { w with files, calls := w.calls.set n { call with stage } }

end Calls
end NyanyaAgent.EnvFile
