import NyanyaAgent.Artifacts.Checked
import Mathlib.Data.Set.Function

/-!
# What is written is verified, and what is verified is as it was recorded

A tree with the manifest that was written for it is verified unless it has a special file, which
the writer passes over, or its manifest is too long. A tree that is verified has the files of its
record, and no others but generated ones.
-/
namespace NyanyaAgent.Safety
open NyanyaAgent.Artifacts NyanyaAgent.Text
open NyanyaAgent.Relational (bind_eq_ok)

section Written

variable (L : Library) {tree written : SourceTree} {source : Revision}
  {files : List (Codes × Entry)} {version : Codes} {bytes : Bytes} {mode : ℕ}

theorem writeManifest_ok (h : writeManifest L tree source = .ok bytes) :
    ∃ files version, collect L tree tree.paths = .ok files ∧ packageVersion L tree = .ok version ∧
      tree.node manifestName = none ∧ bytes = L.indented (recordJson L version source files) := by
  obtain ⟨files, hfiles, h⟩ := bind_eq_ok.1 h
  obtain ⟨version, hversion, h⟩ := bind_eq_ok.1 h
  split at h
  · rename_i hnone
    exact ⟨files, version, hfiles, hversion, hnone, (Except.ok.inj h).symm⟩
  · contradiction

/-- The record of a collection can be read. -/
theorem collected_recordable (hsha : ∀ content, isHex 64 (L.sha256 content) = true)
    (hc : Collected L tree tree.paths files) :
    ∀ f ∈ files, posixText f.1 = f.1 ∧ isPrivateDistributionPath L.lower f.1 = false ∧
      f.2.Made := by
  intro f hf
  have hp : f.1 ∈ tree.paths := by
    have : f.1 ∈ files.map (·.1) := List.mem_map_of_mem hf
    rw [hc.names] at this
    exact (List.mem_filter.1 this).1
  obtain ⟨-, content, mode, links, -, he⟩ := entryOf_ok L (hc.entries f hf)
  refine ⟨(tree.named f.1 hp).posix, hc.open_to_all f hf, ?_⟩
  rw [he]
  refine ⟨hsha content, ?_⟩
  have := Nat.mod_lt mode (show 0 < 4096 by omega)
  dsimp only
  omega

theorem packageVersion_file {version : Json} (h : packageVersion L tree = .ok version) :
    isFile (tree.node packageName) = true := by
  unfold packageVersion at h
  split at h
  · rename_i hnode
    rw [hnode]
    rfl
  · contradiction

/-- The manifest is no directory on the way to anything, nor anything that was there. -/
theorem entryOf_written (hnone : tree.node manifestName = none)
    (hnode : written.node = Function.update tree.node manifestName (some (.file bytes mode 1)))
    {p : Codes} (hp : p ∈ tree.paths) : entryOf L written p = entryOf L tree p := by
  refine entryOf_congr L fun n hn => ?_
  have hthere : tree.node (joined ((partsOf p).take (n + 1))) ≠ none := by
    rcases Nat.lt_or_ge (n + 1) (partsOf p).length with hlt | hge
    · rw [tree.inside p hp (n + 1) (Nat.succ_pos n) hlt]
      simp
    · rw [List.take_of_length_le hge, (tree.named p hp).joined]
      exact (tree.listed p).2 hp
  rw [hnode, Function.update_of_ne]
  intro he
  exact hthere (he ▸ hnone)

theorem verifyTree_written (hd : L.Documented tree source)
    (hfiles : collect L tree tree.paths = .ok files)
    (hversion : packageVersion L tree = .ok (.text version)) (hne : version ≠ [])
    (hbytes : bytes = L.indented (recordJson L (.text version) source files))
    (hnode : written.node = Function.update tree.node manifestName (some (.file bytes mode 1)))
    (hsize : bytes.length ≤ maxManifestBytes) :
    verifyTree L written = compareFiles L written (inOrder files) := by
  have hc := collect_spec L hfiles
  have hmanifest : written.node manifestName = some (.file bytes mode 1) := by
    rw [hnode, Function.update_self]
  have hloads : L.loads bytes = some (recordJson L (.text version) source files) := by
    rw [hbytes]
    exact hd.loads_indented files _ hfiles hversion
  have hpackage : packageName ∈ files.map (·.1) := by
    have hfile := packageVersion_file L hversion
    rw [hc.names, List.mem_filter]
    refine ⟨(tree.listed packageName).1 fun h => ?_, Bool.and_eq_true_iff.2 ⟨hfile, by decide⟩⟩
    rw [h] at hfile
    exact Bool.false_ne_true hfile
  have habsent : manifestName ∉ files.map (·.1) := by
    rw [hc.names, List.mem_filter]
    rintro ⟨-, h⟩
    simp at h
  have hread : readRecord L ((codes "artifact_id", .text (L.sha256 (L.canonical
        (.object (recordMembers (.text version) source files))))) ::
          recordMembers (.text version) source files) =
      some (L.sha256 (L.canonical (.object (recordMembers (.text version) source files))),
        inOrder files) :=
    readRecord_written L (hd.sha256_hex _) hne hpackage habsent
      (collected_recordable L hd.sha256_hex hc)
  have hrecord : verifyTree L written = verifyRecord L written
      ((codes "artifact_id", .text (L.sha256 (L.canonical
        (.object (recordMembers (.text version) source files))))) ::
          recordMembers (.text version) source files) := by
    unfold verifyTree
    rw [hmanifest]
    dsimp only
    rw [if_neg (by omega), hloads]
    rfl
  rw [hrecord]
  unfold verifyRecord
  rw [hread]
  dsimp only
  rw [if_neg]
  exact not_not.2 rfl

/-- Nothing is found in a tree with its manifest exactly when it has no special file. -/
theorem compareFiles_written (hc : Collected L tree tree.paths files)
    (hnone : tree.node manifestName = none)
    (hnode : written.node = Function.update tree.node manifestName (some (.file bytes mode 1))) :
    compareFiles L written (inOrder files) = .ok [] ↔ ∀ p, tree.node p ≠ some .special := by
  have hsame : ∀ p, p ≠ manifestName → written.node p = tree.node p := by
    intro p hp
    rw [hnode, Function.update_of_ne hp]
  have hnames : ∀ p, p ∈ (inOrder files).map (·.1) ↔
      p ∈ tree.paths ∧ isFile (tree.node p) = true ∧ p ≠ manifestName := by
    intro p
    have : p ∈ (inOrder files).map (·.1) ↔ p ∈ files.map (·.1) := by
      simp only [List.mem_map, mem_inOrder]
    rw [this, hc.names, List.mem_filter, Bool.and_eq_true, Bool.not_eq_true', beq_eq_false_iff_ne]
  have hthere : ∀ p, p ≠ manifestName → (p ∈ written.paths ↔ p ∈ tree.paths) := by
    intro p hp
    rw [← written.listed, ← tree.listed, hsame p hp]
  rw [compareFiles_nil]
  constructor
  · rintro ⟨-, -, hextra⟩ p hspecial
    have hp : p ≠ manifestName := by
      rintro rfl
      rw [hnone] at hspecial
      contradiction
    have hmem : p ∈ extraPaths written (inOrder files) := by
      rw [mem_extraPaths, mem_actualPaths, hsame p hp, hspecial, hnames, hspecial]
      refine ⟨⟨(hthere p hp).2 ((tree.listed p).1 (by simp [hspecial])), rfl, hp⟩, ?_⟩
      rintro ⟨-, h, -⟩
      exact Bool.false_ne_true h
    have hpath := written.named p ((mem_actualPaths _ _).1 ((mem_extraPaths _ _ _).1 hmem).1).1
    obtain ⟨content, mode, links, hfile, -⟩ := checkExtra_nil L hpath.joined (hextra p hmem)
    rw [hsame p hp, hspecial] at hfile
    simp at hfile
  · intro hspecial
    refine ⟨?_, ?_, ?_⟩
    · intro f hf
      obtain ⟨hp, hfile, hmanifest⟩ := (hnames f.1).1 (List.mem_map_of_mem hf)
      rw [mem_actualPaths, hsame _ hmanifest]
      refine ⟨(hthere _ hmanifest).2 hp, ?_, hmanifest⟩
      cases hn : tree.node f.1 with
      | none => rfl
      | some node =>
        rw [hn] at hfile
        cases node with
        | dir => exact absurd hfile Bool.false_ne_true
        | _ => rfl
    · intro f hf
      have hp := ((hnames f.1).1 (List.mem_map_of_mem hf)).1
      rw [entryOf_written L hnone hnode hp]
      exact hc.entries f ((mem_inOrder files f).1 hf)
    · intro p hp
      rw [mem_extraPaths, mem_actualPaths, hnames] at hp
      obtain ⟨⟨hthere', hdir, hmanifest⟩, hnew⟩ := hp
      rw [hsame p hmanifest] at hdir
      have hin : p ∈ tree.paths := (hthere p hmanifest).1 hthere'
      exfalso
      cases hn : tree.node p with
      | none => exact (tree.listed p).2 hin hn
      | some node =>
        cases node with
        | dir =>
          rw [hn] at hdir
          exact absurd hdir.symm Bool.false_ne_true
        | file content mode links => exact hnew ⟨hin, by rw [hn]; rfl, hmanifest⟩
        | symlink =>
          have := hc.no_links p hin
          rw [hn] at this
          exact absurd this.symm Bool.false_ne_true
        | special => exact hspecial p hn

/-- The tree with the manifest that was written for it is verified exactly when it has no special
file and its manifest is not too long. -/
theorem verifyManifest_written (hd : L.Documented tree source)
    (hwrite : writeManifest L tree source = .ok bytes)
    (hversion : packageVersion L tree = .ok (.text version)) (hne : version ≠ [])
    (hnode : written.node = Function.update tree.node manifestName (some (.file bytes mode 1))) :
    verifyManifest L written = [] ↔
      bytes.length ≤ maxManifestBytes ∧ ∀ p, tree.node p ≠ some .special := by
  obtain ⟨files, version', hfiles, hversion', hnone, hbytes⟩ := writeManifest_ok L hwrite
  rw [hversion, Except.ok.injEq] at hversion'
  subst hversion'
  rw [verifyManifest_nil]
  by_cases hsize : bytes.length ≤ maxManifestBytes
  · rw [verifyTree_written L hd hfiles hversion hne hbytes hnode hsize,
      compareFiles_written L (collect_spec L hfiles) hnone hnode]
    exact ⟨fun h => ⟨hsize, h⟩, fun h => h.2⟩
  · have hlong : verifyTree L written = .ok [invalidManifest] := by
      unfold verifyTree
      rw [hnode, Function.update_self]
      dsimp only
      rw [if_pos (Or.inr (Nat.lt_of_not_le hsize))]
    rw [hlong]
    constructor
    · intro h
      simp at h
    · intro h
      exact absurd h.1 hsize

end Written

section Changed

variable (L : Library)

/-- The contents of the files of a tree are among some bytes. -/
def ContentsIn (S : Set Bytes) (tree : SourceTree) : Prop :=
  ∀ p content mode links, tree.node p = some (.file content mode links) → content ∈ S

/-- Two regular files of one content and of the same mode bits. -/
def SameFile (a b : Option Node) : Prop :=
  ∃ content mode mode' links links', a = some (.file content mode links) ∧
    b = some (.file content mode' links') ∧ mode % 4096 = mode' % 4096

/-- What the record says of itself, without its identity. -/
def recordText (members : List (Codes × Json)) : Bytes :=
  L.canonical (.object (withoutIdentity members))

theorem readRecord_identity {members : List (Codes × Json)} {identity : Codes}
    {expected : List (Codes × Entry)} (h : readRecord L members = some (identity, expected)) :
    member "artifact_id" members = some (.text identity) := by
  unfold readRecord at h
  split at h
  · rename_i hidentity _ _
    split at h
    · obtain ⟨files, -, heq⟩ := Option.map_eq_some_iff.1 h
      cases heq
      exact hidentity
    · contradiction
  · contradiction

variable {L} {tree other : SourceTree} {members members' : List (Codes × Json)}
  {expected expected' : List (Codes × Entry)} {S : Set Bytes}

theorem record_of_identity (hS : Set.InjOn L.sha256 S) (hm : recordText L members ∈ S)
    (hm' : recordText L members' ∈ S) (h : Described L tree members expected)
    (h' : Described L other members' expected')
    (hid : member "artifact_id" members = member "artifact_id" members') :
    recordText L members = recordText L members' := by
  rw [readRecord_identity L h.record, readRecord_identity L h'.record, Option.some.injEq,
    Json.text.injEq] at hid
  exact hS hm hm' hid

theorem sameFile_of_recorded (hS : Set.InjOn L.sha256 S) (hc : ContentsIn S tree)
    (hc' : ContentsIn S other) (h : Described L tree members expected)
    (h' : Described L other members' expected') {f : Codes × Entry} (hf : f ∈ expected)
    (hf' : f ∈ expected') : SameFile (tree.node f.1) (other.node f.1) := by
  obtain ⟨content, mode, links, hnode, hdigest, -, hmode⟩ := h.recorded f hf
  obtain ⟨content', mode', links', hnode', hdigest', -, hmode'⟩ := h'.recorded f hf'
  have : content = content' :=
    hS (hc _ _ _ _ hnode) (hc' _ _ _ _ hnode') (hdigest.trans hdigest'.symm)
  subst this
  exact ⟨content, mode, mode', links, links', hnode, hnode', hmode.trans hmode'.symm⟩

end Changed

/-- A manifest that was written is verified, in a tree without special files and when it is not
longer than what is read. A tree that is verified is the one that its record describes; where no
two digests of what is compared are equal, two trees have the same record when they have the same
identity, and the same file where they have the same entry. -/
theorem artifact_manifest (L : Library) :
    (∀ tree written source version bytes mode, L.Documented tree source →
      writeManifest L tree source = .ok bytes → packageVersion L tree = .ok (.text version) →
      version ≠ [] →
      written.node = Function.update tree.node manifestName (some (.file bytes mode 1)) →
      (verifyManifest L written = [] ↔
        bytes.length ≤ maxManifestBytes ∧ ∀ p, tree.node p ≠ some .special)) ∧
    (∀ tree, verifyManifest L tree = [] → ∃ bytes mode members expected,
      tree.node manifestName = some (.file bytes mode 1) ∧ bytes.length ≤ maxManifestBytes ∧
        L.loads bytes = some (.object members) ∧ Described L tree members expected) ∧
    ∀ (S : Set Bytes) tree other members members' expected expected', Set.InjOn L.sha256 S →
      ContentsIn S tree → ContentsIn S other → recordText L members ∈ S →
      recordText L members' ∈ S → Described L tree members expected →
      Described L other members' expected' →
      (member "artifact_id" members = member "artifact_id" members' →
        recordText L members = recordText L members') ∧
      ∀ f ∈ expected, f ∈ expected' → SameFile (tree.node f.1) (other.node f.1) := by
  refine ⟨?_, fun tree h => verified_described L h, ?_⟩
  · intro tree written source version bytes mode hd hwrite hversion hne hnode
    exact verifyManifest_written L hd hwrite hversion hne hnode
  · intro S tree other members members' expected expected' hS hc hc' hm hm' h h'
    refine ⟨record_of_identity hS hm hm' h h', fun f hf hf' => ?_⟩
    exact sameFile_of_recorded hS hc hc' h h' hf hf'

section Examples

/-- `{"version": "1"}` and a newline. -/
@[irreducible] def packageBytes : Bytes := List.map UInt8.ofNat
  [123, 34, 118, 101, 114, 115, 105, 111, 110, 34, 58, 32, 34, 49, 34, 125, 10]

def packageDigest : Codes :=
  codes "6200e96753e53d2b76e84c74644cc74e30fe85a9af45e4d458f1fa5e054bd973"

/-- The canonical text of the record of that file at version 1, of no known revision. -/
@[irreducible] def recordBytes : Bytes := List.map UInt8.ofNat
  [123, 34, 102, 105, 108, 101, 115, 34, 58, 123, 34, 112, 97, 99, 107, 97, 103, 101, 46, 106,
    115, 111, 110, 34, 58, 123, 34, 109, 111, 100, 101, 34, 58, 52, 50, 48, 44, 34, 115, 104,
    97, 50, 53, 54, 34, 58, 34, 54, 50, 48, 48, 101, 57, 54, 55, 53, 51, 101, 53, 51, 100, 50,
    98, 55, 54, 101, 56, 52, 99, 55, 52, 54, 52, 52, 99, 99, 55, 52, 101, 51, 48, 102, 101, 56,
    53, 97, 57, 97, 102, 52, 53, 101, 52, 100, 52, 53, 56, 102, 49, 102, 97, 53, 101, 48, 53,
    52, 98, 100, 57, 55, 51, 34, 44, 34, 115, 105, 122, 101, 34, 58, 49, 55, 125, 125, 44, 34,
    115, 99, 104, 101, 109, 97, 95, 118, 101, 114, 115, 105, 111, 110, 34, 58, 49, 44, 34, 115,
    111, 117, 114, 99, 101, 34, 58, 123, 34, 99, 111, 109, 109, 105, 116, 34, 58, 110, 117, 108,
    108, 44, 34, 100, 105, 114, 116, 121, 34, 58, 110, 117, 108, 108, 125, 44, 34, 118, 101,
    114, 115, 105, 111, 110, 34, 58, 34, 49, 34, 125]

def recordDigest : Codes :=
  codes "1b98bb13fb16dd50749b58f045a934f6b43ac5e257cb5d4fc1a08120e099bd02"

/-- The same record with its identity, as it is written. -/
@[irreducible] def manifestBytes : Bytes := List.map UInt8.ofNat
  [123, 10, 32, 32, 34, 97, 114, 116, 105, 102, 97, 99, 116, 95, 105, 100, 34, 58, 32, 34, 49,
    98, 57, 56, 98, 98, 49, 51, 102, 98, 49, 54, 100, 100, 53, 48, 55, 52, 57, 98, 53, 56, 102,
    48, 52, 53, 97, 57, 51, 52, 102, 54, 98, 52, 51, 97, 99, 53, 101, 50, 53, 55, 99, 98, 53,
    100, 52, 102, 99, 49, 97, 48, 56, 49, 50, 48, 101, 48, 57, 57, 98, 100, 48, 50, 34, 44, 10,
    32, 32, 34, 102, 105, 108, 101, 115, 34, 58, 32, 123, 10, 32, 32, 32, 32, 34, 112, 97, 99,
    107, 97, 103, 101, 46, 106, 115, 111, 110, 34, 58, 32, 123, 10, 32, 32, 32, 32, 32, 32, 34,
    109, 111, 100, 101, 34, 58, 32, 52, 50, 48, 44, 10, 32, 32, 32, 32, 32, 32, 34, 115, 104,
    97, 50, 53, 54, 34, 58, 32, 34, 54, 50, 48, 48, 101, 57, 54, 55, 53, 51, 101, 53, 51, 100,
    50, 98, 55, 54, 101, 56, 52, 99, 55, 52, 54, 52, 52, 99, 99, 55, 52, 101, 51, 48, 102, 101,
    56, 53, 97, 57, 97, 102, 52, 53, 101, 52, 100, 52, 53, 56, 102, 49, 102, 97, 53, 101, 48,
    53, 52, 98, 100, 57, 55, 51, 34, 44, 10, 32, 32, 32, 32, 32, 32, 34, 115, 105, 122, 101, 34,
    58, 32, 49, 55, 10, 32, 32, 32, 32, 125, 10, 32, 32, 125, 44, 10, 32, 32, 34, 115, 99, 104,
    101, 109, 97, 95, 118, 101, 114, 115, 105, 111, 110, 34, 58, 32, 49, 44, 10, 32, 32, 34,
    115, 111, 117, 114, 99, 101, 34, 58, 32, 123, 10, 32, 32, 32, 32, 34, 99, 111, 109, 109,
    105, 116, 34, 58, 32, 110, 117, 108, 108, 44, 10, 32, 32, 32, 32, 34, 100, 105, 114, 116,
    121, 34, 58, 32, 110, 117, 108, 108, 10, 32, 32, 125, 44, 10, 32, 32, 34, 118, 101, 114,
    115, 105, 111, 110, 34, 58, 32, 34, 49, 34, 10, 125, 10]

def manifestDigest : Codes :=
  codes "046c043ff3b4754aba4a42f8590e063b965d77de0f7cdb5832c711786daebf6e"

def noRevision : Revision := ⟨none, none, by simp⟩

/-- The only file of the record. -/
def packageEntry : Entry := ⟨packageDigest, 17, 420⟩

/-- The libraries, on what is asked of them here. -/
def sampleLibrary : Library where
  sha256 content :=
    if content = packageBytes then packageDigest
    else if content = recordBytes then recordDigest
    else if content = manifestBytes then manifestDigest
    else List.replicate 64 48
  loads content :=
    if content = packageBytes then some (.object [(codes "version", .text (codes "1"))])
    else if content = manifestBytes then
      some (.object ((codes "artifact_id", .text recordDigest) ::
        recordMembers (.text (codes "1")) noRevision [(packageName, packageEntry)]))
    else none
  canonical _ := recordBytes
  indented _ := manifestBytes
  lower path := path.map fun c => if 65 ≤ c ∧ c ≤ 90 then c + 32 else c
  magicNumber := [167, 13, 13, 10]

/-- A tree without directories. -/
def flatTree (nodes : List (Codes × Node)) (once : (nodes.map (·.1)).Nodup)
    (named : ∀ p ∈ nodes.map (·.1), RelativePath p ∧ (partsOf p).length = 1) : SourceTree where
  paths := nodes.map (·.1)
  node p := (nodes.find? fun n => n.1 == p).map (·.2)
  listed p := by
    rw [ne_eq, Option.map_eq_none_iff, List.find?_eq_none, List.mem_map]
    simp
  once := once
  named p hp := (named p hp).1
  inside p hp n hn hlt := by
    rw [(named p hp).2] at hlt
    omega

def packageNode : Node := .file packageBytes 0o100644 1

def manifestNode : Node := .file manifestBytes 0o100644 1

def plainTree : SourceTree := flatTree [(packageName, packageNode)] (by decide) (by decide)

def plainWritten : SourceTree :=
  flatTree [(packageName, packageNode), (manifestName, manifestNode)] (by decide) (by decide)

/-- A tree with a FIFO. -/
def fifoTree : SourceTree :=
  flatTree [(packageName, packageNode), (codes "pipe", .special)] (by decide) (by decide)

def fifoWritten : SourceTree :=
  flatTree [(packageName, packageNode), (codes "pipe", .special), (manifestName, manifestNode)]
    (by decide) (by decide)

theorem plain_run :
    collect sampleLibrary plainTree plainTree.paths = .ok [(packageName, packageEntry)] ∧
      writeManifest sampleLibrary plainTree noRevision = .ok manifestBytes := by
  decide +kernel

theorem sample_version {tree : SourceTree} (h : tree.node packageName = some packageNode) :
    packageVersion sampleLibrary tree = .ok (.text (codes "1")) := by
  have hloads : sampleLibrary.loads packageBytes =
      some (.object [(codes "version", .text (codes "1"))]) := if_pos rfl
  unfold packageVersion
  rw [h]
  dsimp only [packageNode]
  rw [hloads]
  rfl

theorem plain_version : packageVersion sampleLibrary plainTree = .ok (.text (codes "1")) :=
  sample_version rfl

/-- The contents differ, and so do their digests. -/
theorem sample_digests :
    (packageBytes ≠ recordBytes ∧ packageBytes ≠ manifestBytes ∧ recordBytes ≠ manifestBytes) ∧
      packageDigest ≠ recordDigest ∧ packageDigest ≠ manifestDigest ∧
        recordDigest ≠ manifestDigest := by
  decide +kernel

theorem sample_package : sampleLibrary.sha256 packageBytes = packageDigest := if_pos rfl

theorem sample_record : sampleLibrary.sha256 recordBytes = recordDigest := by
  obtain ⟨⟨hpackage, -, -⟩, -⟩ := sample_digests
  exact (if_neg hpackage.symm).trans (if_pos rfl)

theorem sample_manifest : sampleLibrary.sha256 manifestBytes = manifestDigest := by
  obtain ⟨⟨-, hpackage, hrecord⟩, -⟩ := sample_digests
  exact (if_neg hpackage.symm).trans ((if_neg hrecord.symm).trans (if_pos rfl))

theorem sample_loads : sampleLibrary.loads manifestBytes =
    some (recordJson sampleLibrary (.text (codes "1")) noRevision
      [(packageName, packageEntry)]) := by
  have hne : manifestBytes ≠ packageBytes := sample_digests.1.2.1.symm
  have hrecord : recordJson sampleLibrary (.text (codes "1")) noRevision
        [(packageName, packageEntry)] =
      .object ((codes "artifact_id", .text (sampleLibrary.sha256 recordBytes)) ::
        recordMembers (.text (codes "1")) noRevision [(packageName, packageEntry)]) := rfl
  rw [hrecord, sample_record]
  exact (if_neg hne).trans (if_pos rfl)

theorem sample_documented : sampleLibrary.Documented plainTree noRevision := by
  refine ⟨fun content => ?_, fun files version hfiles hversion => ?_⟩
  · dsimp only [sampleLibrary]
    split
    · decide
    · split
      · decide
      · split <;> decide
  · rw [plain_run.1, Except.ok.injEq] at hfiles
    rw [plain_version, Except.ok.injEq] at hversion
    subst hfiles hversion
    exact sample_loads

theorem plain_node (p : Codes) :
    plainTree.node p = if packageName = p then some packageNode else none := by
  by_cases hp : packageName = p <;> simp [plainTree, flatTree, hp]

theorem plain_written : plainWritten.node =
    Function.update plainTree.node manifestName (some (.file manifestBytes 0o100644 1)) := by
  funext p
  by_cases hp : p = manifestName
  · subst hp
    rw [Function.update_self]
    rfl
  · rw [Function.update_of_ne hp, plain_node]
    by_cases hpackage : packageName = p <;>
      simp [plainWritten, flatTree, hpackage, Ne.symm hp]

theorem plain_no_special : ∀ p, plainTree.node p ≠ some .special := by
  intro p h
  rw [plain_node] at h
  split at h
  · injection h with h
    contradiction
  · contradiction

theorem plain_contents : ContentsIn {packageBytes, recordBytes, manifestBytes} plainWritten := by
  intro p content mode links h
  rw [plain_written] at h
  by_cases hp : p = manifestName
  · subst hp
    rw [Function.update_self] at h
    injection h with h
    injection h with h
    exact Or.inr (Or.inr h.symm)
  · rw [Function.update_of_ne hp, plain_node] at h
    split at h
    · injection h with h
      injection h with h
      exact Or.inl h.symm
    · contradiction

theorem sample_distinguishes :
    Set.InjOn sampleLibrary.sha256 {packageBytes, recordBytes, manifestBytes} := by
  obtain ⟨-, hpr, hpm, hrm⟩ := sample_digests
  rintro a (rfl | rfl | rfl) b (rfl | rfl | rfl) h
  · rfl
  · exact absurd (sample_package.symm.trans (h.trans sample_record)) hpr
  · exact absurd (sample_package.symm.trans (h.trans sample_manifest)) hpm
  · exact absurd (sample_package.symm.trans (h.symm.trans sample_record)) hpr
  · rfl
  · exact absurd (sample_record.symm.trans (h.trans sample_manifest)) hrm
  · exact absurd (sample_package.symm.trans (h.symm.trans sample_manifest)) hpm
  · exact absurd (sample_record.symm.trans (h.symm.trans sample_manifest)) hrm
  · rfl

theorem fifo_node (p : Codes) : fifoTree.node p =
    if packageName = p then some packageNode
    else if codes "pipe" = p then some .special else none := by
  by_cases hp : packageName = p
  · simp [fifoTree, flatTree, hp]
  · by_cases hpipe : codes "pipe" = p <;> simp [fifoTree, flatTree, hp, hpipe]

/-- A manifest that is written for a tree of one file is verified, and describes it. -/
theorem artifact_manifest_plain :
    verifyManifest sampleLibrary plainWritten = [] ∧
      ∃ members expected, Described sampleLibrary plainWritten members expected ∧
        ∀ f ∈ expected, SameFile (plainWritten.node f.1) (plainWritten.node f.1) := by
  have hwritten : verifyManifest sampleLibrary plainWritten = [] :=
    ((artifact_manifest sampleLibrary).1 plainTree plainWritten noRevision (codes "1") manifestBytes
      0o100644 sample_documented plain_run.2 plain_version (by decide) plain_written).2
      ⟨by decide +kernel, plain_no_special⟩
  obtain ⟨bytes, mode, members, expected, -, -, -, hd⟩ :=
    (artifact_manifest sampleLibrary).2.1 plainWritten hwritten
  refine ⟨hwritten, members, expected, hd, fun f hf => ?_⟩
  exact ((artifact_manifest sampleLibrary).2.2 {packageBytes, recordBytes, manifestBytes}
    plainWritten plainWritten members members expected expected sample_distinguishes plain_contents
    plain_contents (Or.inr (Or.inl rfl)) (Or.inr (Or.inl rfl)) hd hd).2 f hf hf

/-- A manifest that is written for a tree with a FIFO is reported. -/
theorem fifo_reported :
    writeManifest sampleLibrary fifoTree noRevision = .ok manifestBytes ∧
      packageVersion sampleLibrary fifoTree = .ok (.text (codes "1")) ∧
      fifoWritten.node =
        Function.update fifoTree.node manifestName (some (.file manifestBytes 0o100644 1)) ∧
      verifyManifest sampleLibrary fifoWritten = [fileSetDiffers] := by
  refine ⟨by decide +kernel, sample_version rfl, ?_, by decide +kernel⟩
  funext p
  by_cases hp : p = manifestName
  · subst hp
    rw [Function.update_self]
    rfl
  · rw [Function.update_of_ne hp, fifo_node]
    by_cases hpackage : packageName = p
    · simp [fifoWritten, flatTree, hpackage]
    · by_cases hpipe : codes "pipe" = p <;>
        simp [fifoWritten, flatTree, hpackage, hpipe, Ne.symm hp]

end Examples

end NyanyaAgent.Safety
