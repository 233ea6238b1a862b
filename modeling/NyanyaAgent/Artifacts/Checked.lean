import NyanyaAgent.Artifacts.Manifest
import NyanyaAgent.Relational.Transaction
import Mathlib.Data.List.Perm.Basic

/-!
# What a verified manifest says

The records that are written can be read, and what it means that a tree is verified without an
error.
-/
namespace NyanyaAgent.Artifacts
open NyanyaAgent.Text
open NyanyaAgent.Relational (bind_eq_ok map_eq_ok)

local instance lawfulChecked : LawfulBEq (List ℕ) := inferInstance

section Trees

variable (L : Library)

/-- The path that `_entry` opens is the one it is given. -/
theorem joined_parts {p : Codes} (h : posixText p = p) (hroot : rootOf p = [])
    (hparts : partsOf p ≠ []) : joined (partsOf p) = p := by
  unfold posixText at h
  rw [if_neg (fun hc => hparts hc.2), hroot, List.nil_append] at h
  exact h

theorem RelativePath.joined {p : Codes} (h : RelativePath p) : joined (partsOf p) = p :=
  joined_parts h.posix h.relative h.parts

theorem entryOf_ok {tree : SourceTree} {p : Codes} {e : Entry} (h : entryOf L tree p = .ok e) :
    (rootOf p = [] ∧ partsOf p ≠ []) ∧
      ∃ content mode links, tree.node (joined (partsOf p)) = some (.file content mode links) ∧
        e = ⟨L.sha256 content, content.length, mode % 4096⟩ := by
  unfold entryOf at h
  dsimp only at h
  split at h
  · contradiction
  · rename_i hpath
    split at h
    · contradiction
    · split at h
      · contradiction
      · rename_i content mode links hnode
        refine ⟨?_, content, mode, links, hnode, (Except.ok.inj h).symm⟩
        have hroot : rootOf p = [] := by
          by_contra hne
          exact hpath (Or.inr (Or.inl hne))
        exact ⟨hroot, fun hc => hpath (Or.inl ⟨hc, hroot⟩)⟩
      · contradiction

/-- Where the nodes on the way are the same, so is what `_entry` says. -/
theorem entryOf_congr {tree other : SourceTree} {p : Codes}
    (h : ∀ n, n < (partsOf p).length →
      tree.node (joined ((partsOf p).take (n + 1))) =
        other.node (joined ((partsOf p).take (n + 1)))) :
    entryOf L tree p = entryOf L other p := by
  unfold entryOf
  dsimp only
  have hany : (List.range (partsOf p).length).any (fun n =>
        isSymlink (tree.node (joined ((partsOf p).take (n + 1))))) =
      (List.range (partsOf p).length).any (fun n =>
        isSymlink (other.node (joined ((partsOf p).take (n + 1))))) := by
    rw [Bool.eq_iff_iff]
    simp only [List.any_eq_true, List.mem_range]
    exact exists_congr fun n => and_congr_right fun hn => by rw [h n hn]
  rw [hany]
  by_cases hparts : partsOf p = []
  · have hroot : partsOf p = [] ∧ rootOf p = [] ∨ rootOf p ≠ [] ∨ [46, 46] ∈ partsOf p ∨
        92 ∈ p := by
      by_cases hr : rootOf p = []
      · exact Or.inl ⟨hparts, hr⟩
      · exact Or.inr (Or.inl hr)
    rw [if_pos hroot, if_pos hroot]
  · have hlast := h ((partsOf p).length - 1) (by
      have := List.length_pos_of_ne_nil hparts; omega)
    rw [Nat.sub_add_cancel (List.length_pos_of_ne_nil hparts), List.take_length] at hlast
    rw [hlast]

/-- What a collection of files says of the tree. -/
structure Collected (tree : SourceTree) (paths : List Codes) (files : List (Codes × Entry)) :
    Prop where
  names : files.map (·.1) =
    paths.filter fun p => isFile (tree.node p) && ! (p == manifestName)
  entries : ∀ f ∈ files, entryOf L tree f.1 = .ok f.2
  open_to_all : ∀ f ∈ files, isPrivateDistributionPath L.lower f.1 = false
  no_links : ∀ p ∈ paths, isSymlink (tree.node p) = false

theorem collect_spec {tree : SourceTree} {paths : List Codes} {files : List (Codes × Entry)}
    (h : collect L tree paths = .ok files) : Collected L tree paths files := by
  induction paths generalizing files with
  | nil =>
    cases h
    exact ⟨rfl, by simp, by simp, by simp⟩
  | cons p paths ih =>
    unfold collect at h
    split at h
    · contradiction
    · rename_i content mode links hnode
      have hfile : isFile (tree.node p) = true := by rw [hnode]; rfl
      have hlink : isSymlink (tree.node p) = false := by rw [hnode]; rfl
      split at h
      · rename_i hp
        obtain ⟨hn, he, ho, hl⟩ := ih h
        refine ⟨?_, he, ho, List.forall_mem_cons.2 ⟨hlink, hl⟩⟩
        rw [hn, List.filter_cons_of_neg (by simp [hp])]
      · rename_i hp
        split at h
        · contradiction
        · rename_i hprivate
          obtain ⟨entry, hentry, h⟩ := bind_eq_ok.1 h
          obtain ⟨rest, hrest, rfl⟩ := map_eq_ok.1 h
          obtain ⟨hn, he, ho, hl⟩ := ih hrest
          refine ⟨?_, List.forall_mem_cons.2 ⟨hentry, he⟩,
            List.forall_mem_cons.2 ⟨Bool.eq_false_iff.2 hprivate, ho⟩,
            List.forall_mem_cons.2 ⟨hlink, hl⟩⟩
          rw [List.filter_cons_of_pos (by simp [hfile, hp]), List.map_cons, hn]
    · rename_i hsym hfile
      obtain ⟨hn, he, ho, hl⟩ := ih h
      have hlink : isSymlink (tree.node p) = false := by
        unfold isSymlink
        split
        · rename_i hs
          exact absurd hs hsym
        · rfl
      have hno : isFile (tree.node p) = false := by
        unfold isFile
        split
        · rename_i hs
          exact absurd hs (hfile _ _ _)
        · rfl
      refine ⟨?_, he, ho, List.forall_mem_cons.2 ⟨hlink, hl⟩⟩
      rw [hn, List.filter_cons_of_neg (by simp [hno])]

theorem checkExpected_nil (tree : SourceTree) (expected : List (Codes × Entry)) :
    checkExpected L tree expected = .ok [] ↔ ∀ f ∈ expected, entryOf L tree f.1 = .ok f.2 := by
  induction expected with
  | nil => simp [checkExpected]
  | cons f files ih =>
    rw [checkExpected, bind_eq_ok, List.forall_mem_cons, ← ih]
    constructor
    · rintro ⟨entry, hentry, h⟩
      obtain ⟨errors, herrors, h⟩ := map_eq_ok.1 h
      obtain ⟨hone, rfl⟩ := List.append_eq_nil_iff.1 h
      have : entry = f.2 := by
        by_contra hne
        rw [if_pos hne] at hone
        simp at hone
      exact ⟨this ▸ hentry, herrors⟩
    · rintro ⟨hentry, herrors⟩
      refine ⟨f.2, hentry, map_eq_ok.2 ⟨[], herrors, ?_⟩⟩
      rw [if_neg (fun h => h rfl)]
      rfl

theorem checkExtras_nil (tree : SourceTree) (expected : List (Codes × Entry))
    (paths : List Codes) :
    checkExtras L tree expected paths = .ok [] ↔
      ∀ p ∈ paths, checkExtra L tree expected p = .ok [] := by
  induction paths with
  | nil => simp [checkExtras]
  | cons p paths ih =>
    rw [checkExtras, bind_eq_ok, List.forall_mem_cons, ← ih]
    constructor
    · rintro ⟨errors, herrors, h⟩
      obtain ⟨rest, hrest, h⟩ := map_eq_ok.1 h
      obtain ⟨rfl, rfl⟩ := List.append_eq_nil_iff.1 h
      exact ⟨herrors, hrest⟩
    · rintro ⟨herrors, hrest⟩
      exact ⟨[], herrors, map_eq_ok.2 ⟨[], hrest, rfl⟩⟩

/-- A path that may be there without being recorded: what it is, and that it is fine. -/
inductive AllowedExtra (expected : List (Codes × Entry)) (p : Codes) (content : Bytes) (mode : ℕ) :
    Prop
  | metadata (h : isEggMetadata p = true)
  | bytecode {source : Codes} (named : bytecodeSource p = some source)
      (recorded : recordedSource (expected.map (·.1)) source = true)
      (magic : content.take 4 = L.magicNumber)
  | copy {original : Entry} (named : startsWith "build/lib/" p = true)
      (recorded : (builtFrom p, original) ∈ expected) (digest : L.sha256 content = original.sha256)
      (size : content.length = original.size) (safe : safeMode (mode % 4096) original.mode = true)

theorem generatedEntry_cases {p : Codes} {expected : List Codes} {g : Generated}
    (h : generatedEntry p expected = some g) :
    (g = .metadata ∧ isEggMetadata p = true) ∨
    (g = .bytecode ∧ ∃ source, bytecodeSource p = some source ∧
      recordedSource expected source = true) ∨
    (g = .copy (builtFrom p) ∧ startsWith "build/lib/" p = true) := by
  unfold generatedEntry at h
  split at h
  · rename_i hegg
    exact Or.inl ⟨(Option.some.inj h).symm, hegg⟩
  · split at h
    · rename_i hcode
      obtain ⟨source, hsource, hrecorded⟩ := Option.any_eq_true _ _ |>.1 hcode
      exact Or.inr (Or.inl ⟨(Option.some.inj h).symm, source, hsource, hrecorded⟩)
    · split at h
      · rename_i hcopy
        exact Or.inr (Or.inr ⟨(Option.some.inj h).symm, (Bool.and_eq_true_iff.1 hcopy).1⟩)
      · contradiction

/-- A path without an error, though it is not recorded, is a file that may be there. -/
theorem checkExtra_nil {tree : SourceTree} {expected : List (Codes × Entry)} {p : Codes}
    (hp : joined (partsOf p) = p) (h : checkExtra L tree expected p = .ok []) :
    ∃ content mode links, tree.node p = some (.file content mode links) ∧
      AllowedExtra L expected p content mode := by
  unfold checkExtra at h
  cases hg : generatedEntry p (expected.map (·.1)) with
  | none => simp [hg] at h
  | some g =>
    simp only [hg] at h
    obtain ⟨entry, hentry, h⟩ := bind_eq_ok.1 h
    obtain ⟨-, content, mode, links, hnode, rfl⟩ := entryOf_ok L hentry
    rw [hp] at hnode
    refine ⟨content, mode, links, hnode, ?_⟩
    rcases generatedEntry_cases hg with ⟨rfl, hegg⟩ | ⟨rfl, source, hnamed, hrecorded⟩ |
      ⟨rfl, hbuild⟩
    · exact .metadata hegg
    · simp only [hnode, contentOf] at h
      refine .bytecode hnamed hrecorded ?_
      by_contra hne
      rw [if_neg hne] at h
      simp at h
    · dsimp only at h
      cases hfind : expected.find? fun f => f.1 == builtFrom p with
      | none => simp [hfind] at h
      | some original =>
        simp only [hfind] at h
        have hmem : original ∈ expected := List.mem_of_find?_eq_some hfind
        have hname := List.find?_some hfind
        rw [beq_iff_eq] at hname
        split at h
        · rename_i hsame
          exact .copy hbuild (by rw [← hname]; exact hmem) hsame.2.1
            hsame.2.2 hsame.1
        · simp at h

/-- The names of a record are paths, and none of them is private. -/
theorem readFiles_spec {members : List (Codes × Json)} {files : List (Codes × Entry)}
    (h : readFiles L members = some files) :
    ∀ f ∈ files, posixText f.1 = f.1 ∧ isPrivateDistributionPath L.lower f.1 = false := by
  induction members generalizing files with
  | nil =>
    cases h
    simp
  | cons m members ih =>
    unfold readFiles at h
    split at h
    · contradiction
    · rename_i hm
      obtain ⟨entry, -, h⟩ := Option.bind_eq_some_iff.1 h
      obtain ⟨rest, hrest, rfl⟩ := Option.map_eq_some_iff.1 h
      have hposix : posixText m.1 = m.1 := by
        by_contra hne
        exact hm (Or.inl hne)
      have hopen : isPrivateDistributionPath L.lower m.1 = false :=
        Bool.eq_false_iff.2 fun hp => hm (Or.inr hp)
      exact List.forall_mem_cons.2 ⟨⟨hposix, hopen⟩, ih hrest⟩

theorem readRecord_files {members : List (Codes × Json)} {identity : Codes}
    {expected : List (Codes × Entry)} (h : readRecord L members = some (identity, expected)) :
    ∃ files, readFiles L files = some expected := by
  unfold readRecord at h
  split at h
  · split at h
    · obtain ⟨files, hfiles, heq⟩ := Option.map_eq_some_iff.1 h
      cases heq
      exact ⟨_, hfiles⟩
    · contradiction
  · contradiction

/-- A tree is the one that the record in its manifest describes. -/
structure Described (tree : SourceTree) (members : List (Codes × Json))
    (expected : List (Codes × Entry)) : Prop where
  record : readRecord L members =
    some (L.sha256 (L.canonical (.object (withoutIdentity members))), expected)
  recorded : ∀ f ∈ expected, ∃ content mode links,
    tree.node f.1 = some (.file content mode links) ∧ L.sha256 content = f.2.sha256 ∧
      content.length = f.2.size ∧ mode % 4096 = f.2.mode
  others : ∀ p ∈ tree.paths, p ≠ manifestName → p ∉ expected.map (·.1) →
    isDir (tree.node p) = false → ∃ content mode links,
      tree.node p = some (.file content mode links) ∧ AllowedExtra L expected p content mode

theorem mem_actualPaths (tree : SourceTree) (p : Codes) :
    p ∈ actualPaths tree ↔ p ∈ tree.paths ∧ isDir (tree.node p) = false ∧ p ≠ manifestName := by
  unfold actualPaths
  rw [List.mem_filter, Bool.and_eq_true, Bool.not_eq_true', Bool.not_eq_true',
    beq_eq_false_iff_ne]

theorem mem_extraPaths (tree : SourceTree) (expected : List (Codes × Entry)) (p : Codes) :
    p ∈ extraPaths tree expected ↔ p ∈ actualPaths tree ∧ p ∉ expected.map (·.1) := by
  unfold extraPaths
  rw [List.mem_insertionSort, List.mem_filter, Bool.not_eq_true', List.any_eq_false]
  simp only [beq_iff_eq]
  exact and_congr_right fun _ => ⟨fun h hm => h p hm rfl, fun h q hq he => h (he ▸ hq)⟩

/-- A comparison finds nothing when the recorded files are there, as they are recorded, and the
others may be there. -/
theorem compareFiles_nil (tree : SourceTree) (expected : List (Codes × Entry)) :
    compareFiles L tree expected = .ok [] ↔
      (∀ f ∈ expected, f.1 ∈ actualPaths tree) ∧ (∀ f ∈ expected, entryOf L tree f.1 = .ok f.2) ∧
        ∀ p ∈ extraPaths tree expected, checkExtra L tree expected p = .ok [] := by
  have hmissing : (expected.any fun f => ! (actualPaths tree).any fun p => p == f.1) = true ↔
      ¬ ∀ f ∈ expected, f.1 ∈ actualPaths tree := by
    simp only [List.any_eq_true, Bool.not_eq_true', List.any_eq_false, beq_iff_eq, not_forall]
    constructor
    · rintro ⟨f, hf, h⟩
      exact ⟨f, hf, fun hm => h f.1 hm rfl⟩
    · rintro ⟨f, hf, h⟩
      exact ⟨f, hf, fun p hp he => h (he ▸ hp)⟩
  unfold compareFiles
  rw [← checkExpected_nil, ← checkExtras_nil, bind_eq_ok]
  constructor
  · rintro ⟨changed, hchanged, h⟩
    obtain ⟨extra, hextra, h⟩ := map_eq_ok.1 h
    obtain ⟨hfront, rfl⟩ := List.append_eq_nil_iff.1 h
    obtain ⟨hset, rfl⟩ := List.append_eq_nil_iff.1 hfront
    refine ⟨?_, hchanged, hextra⟩
    by_contra hnot
    rw [if_pos (hmissing.2 hnot)] at hset
    simp at hset
  · rintro ⟨hall, hchanged, hextra⟩
    refine ⟨[], hchanged, map_eq_ok.2 ⟨[], hextra, ?_⟩⟩
    rw [if_neg (fun h => hmissing.1 h hall)]
    rfl

theorem verifyRecord_described {tree : SourceTree} {members : List (Codes × Json)}
    (h : verifyRecord L tree members = .ok []) : ∃ expected, Described L tree members expected := by
  unfold verifyRecord at h
  split at h
  · simp at h
  · rename_i identity expected hread
    split at h
    · simp at h
    · rename_i hidentity
      rw [not_not] at hidentity
      obtain ⟨-, hrecorded, hextra⟩ := (compareFiles_nil L _ _).1 h
      obtain ⟨files, hfiles⟩ := readRecord_files L hread
      refine ⟨expected, ?_, ?_, ?_⟩
      · rw [hread, hidentity]
      · intro f hf
        obtain ⟨⟨hroot, hparts⟩, content, mode, links, hnode, he⟩ := entryOf_ok L (hrecorded f hf)
        rw [joined_parts (readFiles_spec L hfiles f hf).1 hroot hparts] at hnode
        exact ⟨content, mode, links, hnode, by rw [he], by rw [he], by rw [he]⟩
      · intro p hp hmanifest hnew hdir
        have hmem : p ∈ extraPaths tree expected := by
          rw [mem_extraPaths, mem_actualPaths]
          exact ⟨⟨hp, hdir, hmanifest⟩, hnew⟩
        exact checkExtra_nil L (tree.named p hp).joined (hextra p hmem)

theorem eraseDups_nil {α : Type*} [BEq α] (l : List α) : l.eraseDups = [] ↔ l = [] := by
  cases l <;> simp [List.eraseDups_cons]

theorem verifyManifest_nil (tree : SourceTree) :
    verifyManifest L tree = [] ↔ verifyTree L tree = .ok [] := by
  unfold verifyManifest
  cases verifyTree L tree with
  | error e => simp
  | ok errors => simp [eraseDups_nil]

/-- What it means that no error is found. -/
theorem verified_described {tree : SourceTree} (h : verifyManifest L tree = []) :
    ∃ bytes mode members expected, tree.node manifestName = some (.file bytes mode 1) ∧
      bytes.length ≤ maxManifestBytes ∧ L.loads bytes = some (.object members) ∧
      Described L tree members expected := by
  rw [verifyManifest_nil] at h
  unfold verifyTree at h
  split at h
  · contradiction
  · rename_i bytes mode links hnode
    split at h
    · simp at h
    · rename_i hok
      have hlinks : links = 1 := by
        by_contra hne
        exact hok (Or.inl hne)
      have hsize : bytes.length ≤ maxManifestBytes := by
        by_contra hlt
        exact hok (Or.inr (Nat.lt_of_not_le hlt))
      split at h
      · contradiction
      · rename_i members hloads
        obtain ⟨expected, hd⟩ := verifyRecord_described L h
        exact ⟨bytes, mode, members, expected, hlinks ▸ hnode, hsize, hloads, hd⟩
      · simp at h
  · simp at h

end Trees

section Records

variable (L : Library)

/-- An entry that `_entry` can have made. -/
structure Entry.Made (e : Entry) : Prop where
  digest : isHex 64 e.sha256 = true
  bits : e.mode ≤ 0o7777

theorem readEntry_entryJson {e : Entry} (h : e.Made) : readEntry (entryJson e) = some e := by
  have hread : readEntry (entryJson e) =
      if keysAre ["sha256", "size", "mode"] [(codes "mode", .int e.mode),
          (codes "sha256", .text e.sha256), (codes "size", .int e.size)] = true ∧
        isHex 64 e.sha256 = true ∧ (0 : ℤ) ≤ (e.size : ℤ) ∧ (0 : ℤ) ≤ (e.mode : ℤ) ∧
          (e.mode : ℤ) ≤ 0o7777 then
        some ⟨e.sha256, (e.size : ℤ).toNat, (e.mode : ℤ).toNat⟩
      else none := rfl
  rw [hread, if_pos ⟨rfl, h.digest, by omega, by omega, by have := h.bits; omega⟩]
  rfl

theorem readFiles_written {files : List (Codes × Entry)}
    (h : ∀ f ∈ files, posixText f.1 = f.1 ∧ isPrivateDistributionPath L.lower f.1 = false ∧
      f.2.Made) :
    readFiles L (files.map fun f => (f.1, entryJson f.2)) = some files := by
  induction files with
  | nil => rfl
  | cons f files ih =>
    obtain ⟨hf, hfiles⟩ := List.forall_mem_cons.1 h
    rw [List.map_cons, readFiles, if_neg (by simp [hf.1, hf.2.1]), readEntry_entryJson hf.2.2,
      ih hfiles]
    rfl

theorem validSource_sourceJson (source : Revision) : validSource (sourceJson source) = true := by
  obtain ⟨commit, dirty, hnamed⟩ := source
  cases commit with
  | none => cases dirty <;> rfl
  | some commit =>
    have hhex : (isHex 40 commit || isHex 64 commit) = true := by
      simpa using hnamed commit rfl
    cases dirty with
    | none => exact Bool.and_eq_true_iff.2 ⟨Bool.and_eq_true_iff.2 ⟨rfl, hhex⟩, rfl⟩
    | some dirty => exact Bool.and_eq_true_iff.2 ⟨Bool.and_eq_true_iff.2 ⟨rfl, hhex⟩, rfl⟩

/-- The files of a record, in the order of their paths. -/
def inOrder (files : List (Codes × Entry)) : List (Codes × Entry) :=
  files.insertionSort fun a b => codesLe a.1 b.1 = true

theorem mem_inOrder (files : List (Codes × Entry)) (f : Codes × Entry) :
    f ∈ inOrder files ↔ f ∈ files := List.mem_insertionSort _

theorem readRecord_written {identity version : Codes} {source : Revision}
    {files : List (Codes × Entry)} (hidentity : isHex 64 identity = true) (hversion : version ≠ [])
    (hpackage : packageName ∈ files.map (·.1)) (hmanifest : manifestName ∉ files.map (·.1))
    (h : ∀ f ∈ files, posixText f.1 = f.1 ∧ isPrivateDistributionPath L.lower f.1 = false ∧
      f.2.Made) :
    readRecord L ((codes "artifact_id", .text identity) ::
      recordMembers (.text version) source files) = some (identity, inOrder files) := by
  have hnames : ((inOrder files).map fun f => (f.1, entryJson f.2)).map (·.1) =
      (inOrder files).map (·.1) := by
    rw [List.map_map]
    rfl
  have hmem : ∀ p, p ∈ (inOrder files).map (·.1) ↔ p ∈ files.map (·.1) := by
    intro p
    simp only [List.mem_map, mem_inOrder]
  have hread : readRecord L ((codes "artifact_id", .text identity) ::
        recordMembers (.text version) source files) =
      if keysAre ["schema_version", "version", "source", "files", "artifact_id"]
          ((codes "artifact_id", .text identity) :: recordMembers (.text version) source files) =
            true ∧ (1 : ℤ) = 1 ∧ version ≠ [] ∧ isHex 64 identity = true ∧
          validSource (sourceJson source) = true ∧
          packageName ∈ ((inOrder files).map fun f => (f.1, entryJson f.2)).map (·.1) ∧
          manifestName ∉ ((inOrder files).map fun f => (f.1, entryJson f.2)).map (·.1) then
        (readFiles L ((inOrder files).map fun f => (f.1, entryJson f.2))).map fun files =>
          (identity, files)
      else none := rfl
  rw [hread, hnames, if_pos ⟨rfl, rfl, hversion, hidentity, validSource_sourceJson source,
      (hmem _).2 hpackage, fun hm => hmanifest ((hmem _).1 hm)⟩,
    readFiles_written L fun f hf => h f ((mem_inOrder files f).1 hf)]
  rfl

end Records
end NyanyaAgent.Artifacts
