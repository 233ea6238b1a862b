import NyanyaAgent.Artifacts.Manifest
import NyanyaAgent.FileTree.Place

/-!
# Source installations

`distribution_copy.py`: the copy of the assets that the package manifest names. A path is the list
of its components.
-/
namespace NyanyaAgent.Artifacts
open NyanyaAgent.Text
open NyanyaAgent.FileTree (Tree FsErr Filing makeDirs placeFiles)

/-- The source tree, as the copy reads it. -/
structure Package where
  /-- `manifest["files"]`. -/
  files : List Codes
  node : List Codes → Option Node
  /-- What can be read of a file that cannot be opened, or not be read to its end. -/
  broken : List Codes → Option Bytes
  /-- `source.glob(pattern)`. -/
  glob : Codes → List (List Codes)
  /-- The resolved path is not in the tree. -/
  escapes : List Codes → Bool
  /-- What the package's `write_manifest` writes for a copy. -/
  record : Tree Codes UInt8 → Except Err Bytes
  root : node [] = some .dir
  /-- Nothing is under a file. -/
  below : ∀ p q, isFile (node p) = true → p <+: q → q ≠ p → node q = none

inductive DistributionErr
  | destination | pattern | symlink | escape | privatePath
  | unreadable
  | record (e : Err)
  | fs (e : FsErr)
  deriving DecidableEq

def DistributionErr.message : DistributionErr → Option String
  | .destination => some "Install destination must be outside the source tree"
  | .pattern => some "Invalid package asset pattern"
  | .symlink => some "Symlinked package assets are not supported"
  | .escape => some "Package asset escapes the source tree"
  | .privatePath => some "Private state cannot be a package asset"
  | .unreadable | .record _ | .fs _ => none

/-- The patterns, in the order in which they are taken. -/
def Package.patterns (S : Package) : List Codes :=
  S.files ++ ["package.json", "package-lock.json", "LICENSE", "README.md"].map codes

/-- A pattern is absolute, or leads up. -/
def badPattern (pattern : Codes) : Bool := rootOf pattern ≠ [] ∨ [46, 46] ∈ partsOf pattern

/-- The loop over the items of a pattern, with what is selected before it. -/
def selectItems (S : Package) :
    List (List Codes) → List (List Codes) → Except DistributionErr (List (List Codes))
  | [], selected => .ok selected
  | item :: rest, selected =>
    if isSymlink (S.node item) then .error .symlink
    else selectItems S rest (if isFile (S.node item) then selected.insert item else selected)

/-- The loop over the patterns. -/
def selectAssets (S : Package) :
    List Codes → List (List Codes) → Except DistributionErr (List (List Codes))
  | [], selected => .ok selected
  | pattern :: rest, selected =>
    if badPattern pattern then .error .pattern
    else
      match selectItems S (S.glob pattern) selected with
      | .error e => .error e
      | .ok selected => selectAssets S rest selected

/-- The loop that validates everything before anything is written. -/
def checkAssets (S : Package) (lower : Codes → Codes) :
    List (List Codes) → Except DistributionErr Unit
  | [] => .ok ()
  | item :: rest =>
    if S.escapes item then .error .escape
    else if isPrivateDistributionPath lower (joined item) then .error .privatePath
    else checkAssets S lower rest

def pathLe : List Codes → List Codes → Bool
  | [], _ => true
  | _ :: _, [] => false
  | a :: as, b :: bs => if a = b then pathLe as bs else codesLe a b

/-- The content and the mode of the copy of an asset: `copymode` comes after the content, so that a
copy that stops halfway has the mode of a new file. -/
def assetContent (S : Package) (umode : ℕ) (item : List Codes) (content : Bytes) (mode : ℕ) :
    Bytes × ℕ :=
  (S.broken item).elim (content, mode % 4096) fun part => (part, umode)

def assetFiling (S : Package) (umode : ℕ) (item : List Codes) : Option (Filing Codes UInt8) :=
  match item.getLast?, S.node item with
  | some name, some (.file content mode _) =>
    let c := assetContent S umode item content mode
    some ⟨item.dropLast, name, c.1, c.2⟩
  | _, _ => none

/-- The assets up to the first one that cannot be read. -/
def untilBroken (S : Package) : List (List Codes) → List (List Codes)
  | [] => []
  | item :: rest => if S.broken item ≠ none then [item] else item :: untilBroken S rest

def sortAssets (selected : List (List Codes)) : List (List Codes) :=
  selected.insertionSort fun p q => pathLe p q = true

def assetFilings (S : Package) (umode : ℕ) (selected : List (List Codes)) :
    List (Filing Codes UInt8) :=
  (untilBroken S (sortAssets selected)).filterMap (assetFiling S umode)

def recorderPath : List Codes := ["src", "nyanya_agent", "artifact_manifest.py"].map codes

def copiedFile (t : Tree Codes UInt8) (path : List Codes) : Bool :=
  match t.node path with
  | some (.file ..) => true
  | _ => false

/-- The manifest of the copy, if the copy has the module that writes it. -/
def recordCopy (S : Package) (umode : ℕ) (destination : List Codes) (t : Tree Codes UInt8) :
    Tree Codes UInt8 × Except DistributionErr Unit :=
  if copiedFile t (destination ++ recorderPath) then
    match S.record t with
    | .error e => (t, .error (.record e))
    | .ok bytes =>
      match t.create destination manifestName (.file bytes umode 1) with
      | .error e => (t, .error (.fs e))
      | .ok t' => (t', .ok ())
  else (t, .ok ())

/-- `copy_distribution` between resolved paths; `umode` is the mode of new files. -/
def copyDistribution (S : Package) (lower : Codes → Codes) (umode : ℕ)
    (source destination : List Codes) (t : Tree Codes UInt8) :
    Tree Codes UInt8 × Except DistributionErr Unit :=
  if source <+: destination then (t, .error .destination)
  else
    match selectAssets S S.patterns [] with
    | .error e => (t, .error e)
    | .ok selected =>
      match checkAssets S lower selected with
      | .error e => (t, .error e)
      | .ok _ =>
        match makeDirs [] destination t with
        | (t', some e) => (t', .error (.fs e))
        | (t', none) =>
          match placeFiles destination (assetFilings S umode selected) t' with
          | (t'', some e) => (t'', .error (.fs e))
          | (t'', none) =>
            if ∃ item ∈ selected, S.broken item ≠ none then (t'', .error .unreadable)
            else recordCopy S umode destination t''

/-- The package names the asset. -/
def Selected (S : Package) (item : List Codes) : Prop :=
  ∃ pattern ∈ S.patterns, item ∈ S.glob pattern ∧ isFile (S.node item) = true

/-- What the copy demands of a package. -/
structure Sendable (S : Package) (lower : Codes → Codes) : Prop where
  patterns : ∀ pattern ∈ S.patterns, badPattern pattern = false
  plain : ∀ pattern ∈ S.patterns, ∀ item ∈ S.glob pattern, isSymlink (S.node item) = false
  contained : ∀ item, Selected S item → S.escapes item = false
  released : ∀ item, Selected S item → isPrivateDistributionPath lower (joined item) = false

variable {S : Package} {lower : Codes → Codes} {items selected selected' : List (List Codes)}

theorem selectItems_ok (h : selectItems S items selected = .ok selected') :
    (∀ item ∈ items, isSymlink (S.node item) = false) ∧ (selected.Nodup → selected'.Nodup) ∧
      ∀ q, q ∈ selected' ↔ q ∈ selected ∨ q ∈ items ∧ isFile (S.node q) = true := by
  induction items generalizing selected with
  | nil =>
    obtain rfl := Except.ok.inj h
    simp
  | cons item rest ih =>
    rw [selectItems] at h
    split_ifs at h with hlink hfile
    · obtain ⟨hplain, hnodup, hmem⟩ := ih h
      refine ⟨?_, fun hs => hnodup (hs.insert), fun q => ?_⟩
      · simpa [hlink] using hplain
      · rw [hmem, List.mem_insert_iff, List.mem_cons]
        by_cases hq : q = item
        · simp [hq, hfile]
        · simp [hq]
    · obtain ⟨hplain, hnodup, hmem⟩ := ih h
      refine ⟨?_, hnodup, fun q => ?_⟩
      · simpa [hlink] using hplain
      · rw [hmem, List.mem_cons]
        by_cases hq : q = item
        · simp [hq, hfile]
        · simp [hq]

theorem selectItems_complete (h : ∀ item ∈ items, isSymlink (S.node item) = false) :
    ∃ selected', selectItems S items selected = .ok selected' := by
  induction items generalizing selected with
  | nil => exact ⟨selected, rfl⟩
  | cons item rest ih =>
    rw [selectItems, if_neg (by simp [h item List.mem_cons_self])]
    exact ih fun q hq => h q (List.mem_cons_of_mem _ hq)

theorem selectAssets_ok {patterns : List Codes} (h : selectAssets S patterns selected = .ok selected') :
    (∀ pattern ∈ patterns, badPattern pattern = false ∧
      ∀ item ∈ S.glob pattern, isSymlink (S.node item) = false) ∧
    (selected.Nodup → selected'.Nodup) ∧
    ∀ q, q ∈ selected' ↔ q ∈ selected ∨
      ∃ pattern ∈ patterns, q ∈ S.glob pattern ∧ isFile (S.node q) = true := by
  induction patterns generalizing selected with
  | nil =>
    obtain rfl := Except.ok.inj h
    simp
  | cons pattern rest ih =>
    rw [selectAssets] at h
    split_ifs at h with hbad
    split at h
    · cases h
    · next selected₁ hitems =>
      obtain ⟨hplain, hnodup, hmem⟩ := selectItems_ok hitems
      obtain ⟨hrest, hnodup', hmem'⟩ := ih h
      refine ⟨?_, fun hs => hnodup' (hnodup hs), fun q => ?_⟩
      · intro p hp
        rcases List.mem_cons.mp hp with rfl | hp
        · exact ⟨by simpa using hbad, hplain⟩
        · exact hrest p hp
      · rw [hmem', hmem, List.exists_mem_cons_iff, or_assoc]

theorem selectAssets_complete {patterns : List Codes} (h : ∀ pattern ∈ patterns,
    badPattern pattern = false ∧ ∀ item ∈ S.glob pattern, isSymlink (S.node item) = false) :
    ∃ selected', selectAssets S patterns selected = .ok selected' := by
  induction patterns generalizing selected with
  | nil => exact ⟨selected, rfl⟩
  | cons pattern rest ih =>
    obtain ⟨hbad, hplain⟩ := h pattern List.mem_cons_self
    have hcomplete : ∃ selected₁, selectItems S (S.glob pattern) selected = .ok selected₁ :=
      selectItems_complete hplain
    obtain ⟨selected₁, hitems⟩ := hcomplete
    rw [selectAssets, if_neg (by simp [hbad]), hitems]
    exact ih fun p hp => h p (List.mem_cons_of_mem _ hp)

theorem checkAssets_ok : checkAssets S lower items = .ok () ↔ ∀ item ∈ items,
    S.escapes item = false ∧ isPrivateDistributionPath lower (joined item) = false := by
  induction items with
  | nil => simp [checkAssets]
  | cons item rest ih =>
    rw [checkAssets, List.forall_mem_cons, ← ih]
    split_ifs with hescape hprivate
    · simp [hescape]
    · simp [hprivate]
    · simp [hescape, hprivate]

/-- A filing is the copy of an asset, as far as it can be read. -/
theorem assetFiling_eq_some {umode : ℕ} {item : List Codes} {f : Filing Codes UInt8} :
    assetFiling S umode item = some f ↔
      ∃ content mode links, S.node item = some (.file content mode links) ∧ f.path = item ∧
        f.node = .file (assetContent S umode item content mode).1
          (assetContent S umode item content mode).2 1 := by
  unfold assetFiling
  rcases List.eq_nil_or_concat item with rfl | ⟨way, name, rfl⟩
  · simp [S.root]
  · rw [List.concat_eq_append, List.getLast?_concat]
    cases hnode : S.node (way ++ [name]) with
    | none => simp
    | some n =>
      cases n with
      | file content mode links =>
        obtain ⟨fway, fname, fcontent, fmode⟩ := f
        simp only [List.dropLast_concat, Filing.path, Filing.node, Option.some.injEq,
          Filing.mk.injEq, Node.file.injEq, FileTree.Node.file.injEq]
        constructor
        · rintro ⟨rfl, rfl, rfl, rfl⟩
          exact ⟨content, mode, links, ⟨rfl, rfl, rfl⟩, rfl, rfl, rfl, trivial⟩
        · rintro ⟨_, _, _, ⟨rfl, rfl, rfl⟩, hpath, rfl, rfl, _⟩
          obtain ⟨rfl, rfl⟩ := Tree.append_singleton_inj hpath
          exact ⟨rfl, rfl, rfl, rfl⟩
      | _ => simp

theorem mem_sortAssets {item : List Codes} : item ∈ sortAssets selected ↔ item ∈ selected :=
  List.mem_insertionSort _

theorem untilBroken_sublist (items : List (List Codes)) : (untilBroken S items).Sublist items := by
  induction items with
  | nil => exact .refl []
  | cons item rest ih =>
    rw [untilBroken]
    split_ifs
    · exact (List.nil_sublist rest).cons_cons item
    · exact ih.cons_cons item

theorem untilBroken_eq (h : ∀ item ∈ items, S.broken item = none) : untilBroken S items = items := by
  induction items with
  | nil => rfl
  | cons item rest ih =>
    rw [untilBroken, if_neg (by simp [h item List.mem_cons_self]),
      ih fun q hq => h q (List.mem_cons_of_mem _ hq)]

end NyanyaAgent.Artifacts
