import Mathlib.Data.List.Induction
import Mathlib.Logic.Function.Basic

/-!
# File trees

A file tree as the nodes under each path, together with the proof that every
node lies in a directory. The operations are those a directory handle offers
without following links; each either refuses or changes the named entries only.
-/
namespace NyanyaAgent.FileTree

/-- A directory, a regular file with its mode and link count, or anything else. -/
inductive Node (β : Type)
  | dir
  | file (content : List β) (mode : ℕ) (links : ℕ)
  | other
  deriving DecidableEq

inductive FsErr
  | notFound | exists | notDirectory | isDirectory | unsupported | tooLarge | fault
  deriving DecidableEq, Repr

/-- Nodes under a root directory, each inside a directory. -/
structure Tree (ν β : Type) where
  node : List ν → Option (Node β)
  root : node [] = some .dir
  parent : ∀ p a, node (p ++ [a]) ≠ none → node p = some .dir

namespace Tree
variable {ν β : Type}

theorem ne_append_singleton (p : List ν) (a : ν) : p ≠ p ++ [a] := by
  intro h
  have := congrArg List.length h
  simp at this

theorem append_singleton_inj {p q : List ν} {a b : ν} (h : p ++ [a] = q ++ [b]) :
    p = q ∧ a = b := by
  obtain ⟨hp, ha⟩ := List.append_inj' h rfl
  exact ⟨hp, List.singleton_inj.mp ha⟩

/-- Every proper prefix of a present node is a directory. -/
theorem node_prefix (t : Tree ν β) {p q : List ν} (h : t.node (p ++ q) ≠ none) (hq : q ≠ []) :
    t.node p = some .dir := by
  induction q using List.reverseRecOn with
  | nil => exact absurd rfl hq
  | append_singleton q a ih =>
    rw [← List.append_assoc] at h
    have hdir := t.parent _ a h
    by_cases hq' : q = []
    · simpa [hq'] using hdir
    · exact ih (by simp [hdir]) hq'

/-- Open a directory without following links. -/
def openDir (t : Tree ν β) (p : List ν) : Except FsErr Unit :=
  match t.node p with
  | none => .error .notFound
  | some .dir => .ok ()
  | some _ => .error .notDirectory

/-- Open every directory of a path in turn, from a directory already open. -/
def walk (t : Tree ν β) (base : List ν) : List ν → Except FsErr Unit
  | [] => .ok ()
  | a :: rest =>
    match t.openDir (base ++ [a]) with
    | .ok _ => walk t (base ++ [a]) rest
    | .error e => .error e

/-- Read a bounded, single-link regular file; a missing entry has no content. -/
def readAt (limit : ℕ) (t : Tree ν β) (p : List ν) (a : ν) : Except FsErr (Option (List β)) :=
  match t.node (p ++ [a]) with
  | none => .ok none
  | some (.file content _ links) =>
    if links ≠ 1 then .error .unsupported
    else if limit < content.length then .error .tooLarge
    else .ok (some content)
  | some _ => .error .unsupported

/-- Read a file through its directories; a missing directory has no content either. -/
def readFile (limit : ℕ) (t : Tree ν β) (p : List ν) (a : ν) : Except FsErr (Option (List β)) :=
  match t.walk [] p with
  | .ok _ => t.readAt limit p a
  | .error .notFound => .ok none
  | .error e => .error e

variable [DecidableEq ν]

/-- Replace one entry of a directory that is not itself a directory. -/
def put (t : Tree ν β) (p : List ν) (a : ν) (n : Option (Node β)) (hp : t.node p = some .dir)
    (ha : t.node (p ++ [a]) ≠ some .dir) : Tree ν β where
  node := Function.update t.node (p ++ [a]) n
  root := by
    rw [Function.update_of_ne (by simp)]
    exact t.root
  parent q b hb := by
    by_cases hq : q = p ++ [a]
    · have hne : q ++ [b] ≠ p ++ [a] := by
        rw [hq]
        exact (ne_append_singleton _ b).symm
      rw [Function.update_of_ne hne] at hb
      exact absurd (hq ▸ t.parent q b hb) ha
    · rw [Function.update_of_ne hq]
      by_cases he : q ++ [b] = p ++ [a]
      · rw [(append_singleton_inj he).1]
        exact hp
      · rw [Function.update_of_ne he] at hb
        exact t.parent q b hb

@[simp] theorem put_node (t : Tree ν β) (p : List ν) (a : ν) (n : Option (Node β)) (hp ha) :
    (t.put p a n hp ha).node = Function.update t.node (p ++ [a]) n := rfl

/-- Write through an open file; when the entry is gone the write is seen by nobody. -/
def appendFile (t : Tree ν β) (p : List ν) (a : ν) (chunk : List β) : Tree ν β :=
  match h : t.node (p ++ [a]) with
  | some (.file content mode links) =>
    t.put p a (some (.file (content ++ chunk) mode links)) (t.parent p a (by simp [h]))
      (by simp [h])
  | _ => t

def chmod (t : Tree ν β) (p : List ν) (a : ν) (mode : ℕ) : Tree ν β :=
  match h : t.node (p ++ [a]) with
  | some (.file content _ links) =>
    t.put p a (some (.file content mode links)) (t.parent p a (by simp [h])) (by simp [h])
  | _ => t

def unlink (t : Tree ν β) (p : List ν) (a : ν) : Except FsErr (Tree ν β) :=
  match h : t.node (p ++ [a]) with
  | none => .error .notFound
  | some .dir => .error .isDirectory
  | some (.file ..) => .ok (t.put p a none (t.parent p a (by simp [h])) (by simp [h]))
  | some .other => .ok (t.put p a none (t.parent p a (by simp [h])) (by simp [h]))

variable [DecidableEq β]

/-- Create an entry that must be absent from a present directory. -/
def create (t : Tree ν β) (p : List ν) (a : ν) (n : Node β) : Except FsErr (Tree ν β) :=
  if hp : t.node p = some .dir then
    if ha : t.node (p ++ [a]) = none then .ok (t.put p a (some n) hp (by simp [ha]))
    else .error .exists
  else .error .notFound

def mkdir (t : Tree ν β) (p : List ν) (a : ν) : Except FsErr (Tree ν β) := t.create p a .dir

def createFile (t : Tree ν β) (p : List ν) (a : ν) (mode : ℕ) : Except FsErr (Tree ν β) :=
  t.create p a (.file [] mode 1)

theorem create_ok {t t' : Tree ν β} {p : List ν} {a : ν} {n : Node β}
    (h : t.create p a n = .ok t') :
    t.node p = some .dir ∧ t.node (p ++ [a]) = none ∧
      t'.node = Function.update t.node (p ++ [a]) (some n) := by
  unfold create at h
  split_ifs at h with hp ha
  cases h
  exact ⟨hp, ha, rfl⟩

/-- Move one entry of a directory over another. -/
def replace (t : Tree ν β) (p : List ν) (a b : ν) : Except FsErr (Tree ν β) :=
  match h : t.node (p ++ [a]) with
  | none => .error .notFound
  | some n =>
    if hab : a = b then .ok t
    else if hd : n = .dir ∨ t.node (p ++ [b]) = some .dir then .error .isDirectory
    else
      have hp := t.parent p a (by simp [h])
      .ok ((t.put p b (some n) hp fun e => hd (.inr e)).put p a none
        (by
          rw [put_node, Function.update_of_ne (ne_append_singleton p b)]
          exact hp)
        (by
          rw [put_node, Function.update_of_ne fun e => hab (append_singleton_inj e).2, h]
          exact fun e => hd (.inl (Option.some.inj e))))

end Tree
end NyanyaAgent.FileTree
