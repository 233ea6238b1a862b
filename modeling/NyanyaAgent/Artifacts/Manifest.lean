import NyanyaAgent.Text.Reader
import Mathlib.Data.List.Sort
import Mathlib.Logic.Function.Basic

/-!
# Artifact manifests

`artifact_manifest.py`: the record of a source tree, and its verification. A path is the text of
a relative path, as code points.
-/
namespace NyanyaAgent.Artifacts
open NyanyaAgent.Text

local instance lawfulPaths : LawfulBEq (List ℕ) := inferInstance

abbrev Bytes := List UInt8

/-- What a path names, without following links. -/
inductive Node
  | dir
  | file (content : Bytes) (mode links : ℕ)
  | symlink
  | special

section Paths

/-- The slashes in front of a path that `PurePosixPath` keeps. -/
def rootOf (path : Codes) : Codes :=
  match (path.takeWhile (· == 47)).length with
  | 0 => []
  | 2 => [47, 47]
  | _ => [47]

/-- The components of a path, without its root. -/
def partsOf (path : Codes) : List Codes := (path.splitOn 47).filter fun p => p ≠ [] ∧ p ≠ [46]

def joined (parts : List Codes) : Codes := [47].intercalate parts

/-- `PurePosixPath(path).as_posix()`. -/
def posixText (path : Codes) : Codes :=
  if rootOf path = [] ∧ partsOf path = [] then [46] else rootOf path ++ joined (partsOf path)

/-- The path of something under a directory. -/
structure RelativePath (path : Codes) : Prop where
  posix : posixText path = path
  relative : rootOf path = []
  parts : partsOf path ≠ []
  inside : [46, 46] ∉ partsOf path

instance (path : Codes) : Decidable (RelativePath path) :=
  decidable_of_iff (posixText path = path ∧ rootOf path = [] ∧ partsOf path ≠ [] ∧
      [46, 46] ∉ partsOf path)
    ⟨fun h => ⟨h.1, h.2.1, h.2.2.1, h.2.2.2⟩, fun h => ⟨h.1, h.2, h.3, h.4⟩⟩

def startsWith (text : String) (path : Codes) : Bool := (codes text).isPrefixOf path

def endsWith (text : String) (path : Codes) : Bool := (codes text).isSuffixOf path

def isAny (texts : List String) (path : Codes) : Bool := texts.any fun t => codes t == path

/-- A text is somewhere in another. -/
def has (text : String) (path : Codes) : Bool := path.tails.any fun rest => startsWith text rest

/-- The end of a name for a pattern: with or without a newline. -/
def atNameEnd (rest : Codes) : Bool := rest == [] || rest == [10]

/-- The last pattern of `is_private_distribution_path`. -/
def privateName (name : Codes) : Bool :=
  ["id_rsa", "id_dsa", "id_ecdsa", "id_ed25519"].any (fun w => startsWith w name &&
    (atNameEnd (name.drop w.length) || (name.drop w.length).head? == some 46)) ||
  name.tails.any fun rest =>
    [".pem", ".key", ".p12", ".pfx", ".db", ".sqlite", ".sqlite3"].any (fun w =>
      startsWith w rest && (atNameEnd (rest.drop w.length) || (rest.drop w.length).head? == some 46 ||
        (rest.drop w.length).head? == some 45)) ||
    [".log", ".pid", ".bak", ".backup"].any fun w =>
      startsWith w rest && atNameEnd (rest.drop w.length)

def privateDirectories : List String :=
  [".git", ".venv", "node_modules", "__pycache__", ".pytest_cache", ".ruff_cache", "data", "logs",
    "run", "sessions", ".dev-state", "downloads", "tmp", "private", ".secrets", "backups",
    "credentials", "secrets", "keys", "reports"]

def privateFiles : List String :=
  ["credentials", "credentials.json", "credentials.yaml", "credentials.yml", "secrets.json",
    "secrets.yaml", "secrets.yml", "auth.json", "cookies.txt"]

def isPrivateDistributionPath (lower : Codes → Codes) (path : Codes) : Bool :=
  let path := path.map fun c => if c == 92 then 47 else c
  let original := partsOf path
  let parts := original.map lower
  match parts.getLast?, original.getLast? with
  | some name, some originalName =>
    let normalized := joined parts
    let first := parts.head?.getD []
    decide (rootOf path ≠ []) || parts.any (fun p => p == [46, 46]) ||
      parts.dropLast.any (isAny privateDirectories) ||
      isAny ["agents.md", "agents.override.md"] name ||
      startsWith ".env" name && ! isAny [".env.example", ".env.sample"] originalName ||
      isAny ["config/user_workspaces.json", "prompts/local_system.md",
        "docs/operational_rollout_20260913.md"] normalized ||
      ["docs/nyanya_orca_remote_agent_office_plan_", "docs/phase0_baseline_",
        "docs/nyanya_remote_access_security_build_plan_"].any (startsWith · normalized) ||
      first == codes "docs" && endsWith ".html" name ||
      first == codes "config" && (startsWith "local." name || startsWith "private." name ||
        has ".local." name || has ".private." name || startsWith "user_workspaces.json." name ||
        (startsWith "credentials" name || startsWith "secrets" name) && endsWith ".json" name) ||
      first == codes "prompts" && startsWith "local_" name && endsWith ".md" name ||
      isAny privateFiles name || privateName name
  | _, _ => true

end Paths

/-- The libraries: hashing, JSON, case, and the magic number of bytecode. -/
structure Library where
  /-- `hashlib.sha256(...).hexdigest()`. -/
  sha256 : Bytes → Codes
  /-- `json.loads` of the text that bytes decode to; an object has no member twice. -/
  loads : Bytes → Option Json
  /-- `_canonical`. -/
  canonical : Json → Bytes
  /-- `json.dump(..., sort_keys=True, indent=2)` and a newline. -/
  indented : Json → Bytes
  lower : Codes → Codes
  magicNumber : Bytes

def hexCodeOf (c : ℕ) : Bool := 48 ≤ c && c ≤ 57 || 97 ≤ c && c ≤ 102

def isHex (length : ℕ) (text : Codes) : Bool := text.length == length && text.all hexCodeOf

/-- The order in which `sort_keys` writes the members of an object. -/
def codesLe : Codes → Codes → Bool
  | [], _ => true
  | _ :: _, [] => false
  | a :: as, b :: bs => a < b || a == b && codesLe as bs

/-- The tree under a root, with the paths that `rglob` finds. -/
structure SourceTree where
  paths : List Codes
  node : Codes → Option Node
  listed : ∀ p, node p ≠ none ↔ p ∈ paths
  once : paths.Nodup
  named : ∀ p ∈ paths, RelativePath p
  /-- Everything is in directories. -/
  inside : ∀ p ∈ paths, ∀ n, 0 < n → n < (partsOf p).length →
    node (joined ((partsOf p).take n)) = some .dir

/-- The two kinds of exceptions, which a verification treats alike. -/
inductive Err
  | value
  | os
  deriving DecidableEq

structure Entry where
  sha256 : Codes
  size : ℕ
  mode : ℕ
  deriving DecidableEq

def isSymlink (node : Option Node) : Bool :=
  match node with
  | some .symlink => true
  | _ => false

def isFile (node : Option Node) : Bool :=
  match node with
  | some (.file ..) => true
  | _ => false

variable (L : Library)

/-- `_entry`. -/
def entryOf (tree : SourceTree) (relative : Codes) : Except Err Entry :=
  let parts := partsOf relative
  if parts = [] ∧ rootOf relative = [] ∨ rootOf relative ≠ [] ∨ [46, 46] ∈ parts ∨
      92 ∈ relative then
    .error .value
  else if (List.range parts.length).any (fun n =>
      isSymlink (tree.node (joined (parts.take (n + 1))))) = true then .error .value
  else
    match tree.node (joined parts) with
    | none => .error .os
    | some (.file content mode _) => .ok ⟨L.sha256 content, content.length, mode % 4096⟩
    | some _ => .error .value

def manifestName : Codes := codes "artifact-manifest.json"

def packageName : Codes := codes "package.json"

/-- The files of a tree, path by path; which of the refused ones comes first does not matter. -/
def collect (tree : SourceTree) : List Codes → Except Err (List (Codes × Entry))
  | [] => .ok []
  | p :: paths =>
    match tree.node p with
    | some .symlink => .error .value
    | some (.file ..) =>
      if p = manifestName then collect tree paths
      else if isPrivateDistributionPath L.lower p = true then .error .value
      else (entryOf L tree p).bind fun entry =>
        (collect tree paths).map fun files => (p, entry) :: files
    | _ => collect tree paths

/-- `source_revision`: a full object name and whether the tree is changed, when `git` answers. -/
structure Revision where
  commit : Option Codes
  dirty : Option Bool
  named : ∀ c ∈ commit, isHex 40 c = true ∨ isHex 64 c = true

def member (key : String) (members : List (Codes × Json)) : Option Json :=
  (members.find? fun m => m.1 == codes key).map (·.2)

def textOrNull : Option Codes → Json
  | some s => .text s
  | none => .null

def boolOrNull : Option Bool → Json
  | some b => .bool b
  | none => .null

def entryJson (e : Entry) : Json :=
  .object [(codes "mode", .int e.mode), (codes "sha256", .text e.sha256),
    (codes "size", .int e.size)]

def filesJson (files : List (Codes × Entry)) : Json :=
  .object ((files.insertionSort fun a b => codesLe a.1 b.1 = true).map fun f =>
    (f.1, entryJson f.2))

def sourceJson (source : Revision) : Json :=
  .object [(codes "commit", textOrNull source.commit), (codes "dirty", boolOrNull source.dirty)]

def recordMembers (version : Json) (source : Revision) (files : List (Codes × Entry)) :
    List (Codes × Json) :=
  [(codes "files", filesJson files), (codes "schema_version", .int 1),
    (codes "source", sourceJson source), (codes "version", version)]

def recordJson (version : Json) (source : Revision) (files : List (Codes × Entry)) : Json :=
  .object ((codes "artifact_id",
      .text (L.sha256 (L.canonical (.object (recordMembers version source files))))) ::
    recordMembers version source files)

def packageVersion (tree : SourceTree) : Except Err Json :=
  match tree.node packageName with
  | some (.file content _ _) =>
    match L.loads content with
    | some (.object members) =>
      match member "version" members with
      | some version => .ok version
      | none => .error .value
    | _ => .error .value
  | _ => .error .os

/-- The bytes of the manifest that `write_manifest` leaves in a tree. -/
def writeManifest (tree : SourceTree) (source : Revision) : Except Err Bytes :=
  (collect L tree tree.paths).bind fun files => (packageVersion L tree).bind fun version =>
    if tree.node manifestName = none then
      .ok (L.indented (recordJson L version source files))
    else .error .os

/-- What the code relies on: a digest is 64 hexadecimal digits, and the record that is written for a
tree is read again. -/
structure Library.Documented (tree : SourceTree) (source : Revision) : Prop where
  sha256_hex : ∀ content, isHex 64 (L.sha256 content) = true
  loads_indented : ∀ files version, collect L tree tree.paths = .ok files →
    packageVersion L tree = .ok version →
    L.loads (L.indented (recordJson L version source files)) =
      some (recordJson L version source files)

/-- What a generated path may be. -/
inductive Generated
  | metadata
  | bytecode
  | copy (source : Codes)

def eggMetadata : List String :=
  ["PKG-INFO", "SOURCES.txt", "dependency_links.txt", "entry_points.txt", "requires.txt",
    "top_level.txt"]

/-- A text in front of an end it has. -/
def beforeEnd (ending : String) (text : Codes) : Option Codes :=
  if endsWith ending text = true then some (text.take (text.length - ending.length)) else none

/-- The group of the pattern for the name of bytecode, from the end of the name on: what stands
behind the group can be read in one way only. -/
def pycModule (name : Codes) : Option Codes :=
  (beforeEnd ".pyc" name).bind fun name =>
    let name := ((beforeEnd ".opt-1" name).or (beforeEnd ".opt-2" name)).getD name
    let digits := name.reverse.takeWhile fun c => 48 ≤ c && c ≤ 57
    if digits = [] then none
    else (beforeEnd ".cpython-" (name.take (name.length - digits.length))).bind fun module =>
      if module = [] ∨ 10 ∈ module then none else some module

/-- `'src/' + path.removeprefix('build/lib/')`. -/
def builtFrom (path : Codes) : Codes := codes "src/" ++ path.drop 10

/-- The source of the bytecode that a path names. -/
def bytecodeSource (relative : Codes) : Option Codes :=
  let parts := partsOf relative
  if parts.dropLast.getLast? = some (codes "__pycache__") then
    (parts.getLast?.bind pycModule).map fun module =>
      joined (parts.dropLast.dropLast ++ [module ++ codes ".py"])
  else none

def isEggMetadata (relative : Codes) : Bool :=
  match partsOf relative with
  | [a, b, c] => a == codes "src" && b == codes "nyanya_agent.egg-info" && isAny eggMetadata c
  | _ => false

/-- A recorded source, or the built copy of one. -/
def recordedSource (expected : List Codes) (source : Codes) : Bool :=
  expected.any (fun p => p == source) ||
    startsWith "build/lib/" source && expected.any (fun p => p == builtFrom source)

def generatedEntry (relative : Codes) (expected : List Codes) : Option Generated :=
  if isEggMetadata relative = true then some .metadata
  else if (bytecodeSource relative).any (recordedSource expected) = true then some .bytecode
  else if (startsWith "build/lib/" relative &&
      expected.any fun p => p == builtFrom relative) = true then some (.copy (builtFrom relative))
  else none

/-- The members of an object are those with some names. -/
def keysAre (names : List String) (members : List (Codes × Json)) : Bool :=
  members.all (fun m => isAny names m.1) &&
    names.all fun name => members.any fun m => m.1 == codes name

/-- The checks of `_valid_record` for an entry, and the entry. -/
def readEntry (value : Json) : Option Entry :=
  match value with
  | .object members =>
    match member "sha256" members, member "size" members, member "mode" members with
    | some (.text sha256), some (.int size), some (.int mode) =>
      if keysAre ["sha256", "size", "mode"] members = true ∧ isHex 64 sha256 = true ∧ 0 ≤ size ∧
          0 ≤ mode ∧ mode ≤ 0o7777 then
        some ⟨sha256, size.toNat, mode.toNat⟩
      else none
    | _, _, _ => none
  | _ => none

def readFiles : List (Codes × Json) → Option (List (Codes × Entry))
  | [] => some []
  | m :: members =>
    if posixText m.1 ≠ m.1 ∨ isPrivateDistributionPath L.lower m.1 = true then none
    else (readEntry m.2).bind fun entry =>
      (readFiles members).map fun files => (m.1, entry) :: files

def validSource (value : Json) : Bool :=
  match value with
  | .object members =>
    keysAre ["commit", "dirty"] members &&
      (match member "commit" members with
        | some (.text commit) => isHex 40 commit || isHex 64 commit
        | some .null => true
        | _ => false) &&
      match member "dirty" members with
      | some (.bool _) => true
      | some .null => true
      | _ => false
  | _ => false

/-- `_valid_record`, with the identity and the files of a valid record. -/
def readRecord (members : List (Codes × Json)) : Option (Codes × List (Codes × Entry)) :=
  match member "schema_version" members, member "version" members, member "artifact_id" members,
      member "source" members, member "files" members with
  | some (.int schema), some (.text version), some (.text identity), some source,
      some (.object files) =>
    if keysAre ["schema_version", "version", "source", "files", "artifact_id"] members = true ∧
        schema = 1 ∧ version ≠ [] ∧ isHex 64 identity = true ∧ validSource source = true ∧
        packageName ∈ files.map (·.1) ∧ manifestName ∉ files.map (·.1) then
      (readFiles L files).map fun files => (identity, files)
    else none
  | _, _, _, _, _ => none

def withoutIdentity (members : List (Codes × Json)) : List (Codes × Json) :=
  members.filter fun m => ! (m.1 == codes "artifact_id")

def invalidManifest : Codes := codes "Invalid or incomplete artifact manifest"

def fileSetDiffers : Codes := codes "Artifact file set differs"

def isDir (node : Option Node) : Bool :=
  match node with
  | some .dir => true
  | _ => false

/-- What is in a tree besides directories and the manifest. -/
def actualPaths (tree : SourceTree) : List Codes :=
  tree.paths.filter fun p => ! isDir (tree.node p) && ! (p == manifestName)

/-- The recorded files whose content or mode differs. -/
def checkExpected (tree : SourceTree) : List (Codes × Entry) → Except Err (List Codes)
  | [] => .ok []
  | f :: files => (entryOf L tree f.1).bind fun entry =>
    (checkExpected tree files).map fun errors =>
      (if entry ≠ f.2 then [codes "Artifact content or mode differs: " ++ f.1] else []) ++ errors

/-- The mode of a built copy that is not writable by others and not special. -/
def safeMode (mode original : ℕ) : Bool :=
  decide (mode &&& 0o7022 = 0) && (decide (mode = original) || decide (mode = 0o644))

def contentOf (node : Option Node) : Bytes :=
  match node with
  | some (.file content _ _) => content
  | _ => []

/-- The errors of a path that is not recorded. -/
def checkExtra (tree : SourceTree) (expected : List (Codes × Entry)) (relative : Codes) :
    Except Err (List Codes) :=
  match generatedEntry relative (expected.map (·.1)) with
  | none => .ok [fileSetDiffers]
  | some generated => (entryOf L tree relative).bind fun entry =>
    match generated with
    | .metadata => .ok []
    | .bytecode =>
      if (contentOf (tree.node relative)).take 4 = L.magicNumber then .ok []
      else .ok [codes "Invalid generated Python bytecode: " ++ relative]
    | .copy source =>
      match expected.find? fun f => f.1 == source with
      | none => .error .value
      | some original =>
        if safeMode entry.mode original.2.mode = true ∧ entry.sha256 = original.2.sha256 ∧
            entry.size = original.2.size then .ok []
        else .ok [codes "Generated build copy differs: " ++ relative]

def checkExtras (tree : SourceTree) (expected : List (Codes × Entry)) :
    List Codes → Except Err (List Codes)
  | [] => .ok []
  | p :: paths => (checkExtra L tree expected p).bind fun errors =>
    (checkExtras tree expected paths).map fun rest => errors ++ rest

/-- The paths that are not recorded, in the order of `sorted`. -/
def extraPaths (tree : SourceTree) (expected : List (Codes × Entry)) : List Codes :=
  ((actualPaths tree).filter fun p => ! (expected.map (·.1)).any fun q => q == p).insertionSort
    fun a b => codesLe a b = true

/-- The comparison of a tree with the files of its record. -/
def compareFiles (tree : SourceTree) (expected : List (Codes × Entry)) : Except Err (List Codes) :=
  (checkExpected L tree expected).bind fun changed =>
    (checkExtras L tree expected (extraPaths tree expected)).map fun extra =>
      (if (expected.any fun f => ! (actualPaths tree).any fun p => p == f.1) = true then
        [fileSetDiffers] else []) ++ changed ++ extra

def verifyRecord (tree : SourceTree) (members : List (Codes × Json)) : Except Err (List Codes) :=
  match readRecord L members with
  | none => .ok [invalidManifest]
  | some (identity, expected) =>
    if L.sha256 (L.canonical (.object (withoutIdentity members))) ≠ identity then
      .ok [codes "Manifest identity mismatch"]
    else compareFiles L tree expected

def maxManifestBytes : ℕ := 4000000

/-- `verify_manifest` in front of its handler. -/
def verifyTree (tree : SourceTree) : Except Err (List Codes) :=
  match tree.node manifestName with
  | none => .error .os
  | some (.file content _ links) =>
    if links ≠ 1 ∨ maxManifestBytes < content.length then .ok [invalidManifest]
    else
      match L.loads content with
      | none => .error .value
      | some (.object members) => verifyRecord L tree members
      | some _ => .ok [invalidManifest]
  | some _ => .ok [invalidManifest]

/-- `verify_manifest`: the errors, each of them once. -/
def verifyManifest (tree : SourceTree) : List Codes :=
  match verifyTree L tree with
  | .error _ => [invalidManifest]
  | .ok errors => errors.eraseDups

end NyanyaAgent.Artifacts
