import NyanyaAgent.FileTree.Copy

/-!
# State copies

`state.ts`: the copy of the state directory that `nyanya state backup` and `nyanya state migrate`
make.
-/
namespace NyanyaAgent.Cli
open NyanyaAgent.FileTree

abbrev Name := List Char

def durableItems : List Name := [".env".toList, "config".toList, "data".toList, "sessions".toList]

def migrationItems : List Name := durableItems ++ ["downloads".toList, "logs".toList]

/-- A file with what can be read of it, and what a consistent backup of it gives, if it is a database
and that succeeds. -/
structure SourceFile where
  content : Option (List UInt8)
  snapshot : Option (List UInt8)
  deriving DecidableEq

def endsIn (mark : String) (name : Name) : Bool :=
  decide (name.drop (name.length - mark.toList.length) = mark.toList)

def sideFile (name : Name) : Bool := endsIn "-wal" name || endsIn "-shm" name

def isDatabase (name : Name) : Bool :=
  [".db", ".sqlite", ".sqlite3"].any fun mark => endsIn mark (name.map Char.toLower)

/-- What `copyStateEntry` copies; the mode is 0600. -/
def stateRule : CopyRule Name SourceFile UInt8 where
  keep name := !sideFile name
  mode := 384
  image name file :=
    if isDatabase name then file.snapshot.elim (.error .content) .ok
    else file.content.elim (.error .unreadable) .ok

/-- The entry of a name, alone, in front of more entries. -/
def pickOnto (item : Name) (tail : Listing Name SourceFile) :
    Listing Name SourceFile → Listing Name SourceFile
  | .done | .barred => tail
  | .file name content rest =>
    if name = item then .file name content tail else pickOnto item tail rest
  | .dir name inner rest => if name = item then .dir name inner tail else pickOnto item tail rest
  | .link name rest => if name = item then .link name tail else pickOnto item tail rest
  | .special name rest => if name = item then .special name tail else pickOnto item tail rest

def gather (items : List Name) (source : Listing Name SourceFile) : Listing Name SourceFile :=
  items.foldr (fun item tail => pickOnto item tail source) .done

inductive StateErr
  | inside
  | exists
  | directory (e : FsErr)
  | copy (e : CopyErr)
  deriving DecidableEq

def StateErr.message : StateErr → Option String
  | .inside => some "State copy destination must be outside the source state directory"
  | .copy .link => some "State backup refuses symlinks"
  | .copy .special => some "State backup refuses special files"
  | .copy .content => some "Consistent database backup failed; source state was preserved"
  | _ => none

/-- The files, and the modes of the directories; those of directories that the copy makes under its
target are left out. -/
structure StateDisk where
  tree : Tree Name UInt8
  modes : List Name → ℕ

def chmodDirOwnerOnly (path : List Name) (modes : List Name → ℕ) : List Name → ℕ :=
  Function.update modes path 448

/-- `copyItems`, of the entries that exist under the source root (a link that leads nowhere does not),
between canonical paths. The last step gives the copy of `.env` the mode that it has. -/
def copyItems (items : List Name) (source : Listing Name SourceFile)
    (sourceRoot targetRoot : List Name) (d : StateDisk) :
    StateDisk × Except StateErr (List Name) :=
  if sourceRoot <+: targetRoot then (d, .error .inside)
  else
    match makeDirs [] targetRoot d.tree with
    | (t, some e) => ({ d with tree := t }, .error (.directory e))
    | (t, none) =>
      let modes := chmodDirOwnerOnly targetRoot d.modes
      match (gather items source).copy stateRule targetRoot t with
      | (t', some e) => (⟨t', modes⟩, .error (.copy e))
      | (t', none) => (⟨t', modes⟩, .ok ((gather items source).names stateRule))

/-- `backup`, to a target that must not exist. -/
def backup (source : Listing Name SourceFile) (sourceRoot target : List Name) (d : StateDisk) :
    StateDisk × Except StateErr (List Name) :=
  if d.tree.node target ≠ none then (d, .error .exists)
  else copyItems durableItems source sourceRoot target d

end NyanyaAgent.Cli
