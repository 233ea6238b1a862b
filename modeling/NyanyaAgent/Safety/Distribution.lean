import NyanyaAgent.Artifacts.Distribution

/-!
# What an installation copies

A source installation copies the public assets of a package, all of them when it succeeds, and
touches nothing that is there.
-/
namespace NyanyaAgent.Safety
open NyanyaAgent.Text NyanyaAgent.Artifacts
open NyanyaAgent.FileTree (Tree Filing FilesAdded DirsMade HaveRoom makeDirs placeFiles)

variable {S : Package} {lower : Codes → Codes} {umode : ℕ} {source destination : List Codes}
  {t t₁ t₂ : Tree Codes UInt8} {selected : List (List Codes)}

/-- The node is the copy of an asset. -/
def CopyOf (S : Package) (item : List Codes) (n : Option (FileTree.Node UInt8)) : Prop :=
  ∃ content mode links, S.node item = some (.file content mode links) ∧ S.broken item = none ∧
    n = some (.file content (mode % 4096) 1)

/-- The node is what could be read of an asset. -/
def PartOf (S : Package) (umode : ℕ) (item : List Codes) (n : Option (FileTree.Node UInt8)) : Prop :=
  ∃ part, S.broken item = some part ∧ n = some (.file part umode 1)

/-- Something new is the copy of an asset in its place, as far as the asset can be read, or a
directory on the way to one. -/
def Added (S : Package) (umode : ℕ) (destination : List Codes) (t' : Tree Codes UInt8)
    (q : List Codes) : Prop :=
  q <+: destination ∧ t'.node q = some .dir ∨
    ∃ item, Selected S item ∧ (q = destination ++ item ∧
        (CopyOf S item (t'.node q) ∨ PartOf S umode item (t'.node q)) ∨
      q <+: destination ++ item ∧ t'.node q = some .dir)

/-- The manifest of a copy in which every asset is in its place. -/
def ManifestOf (S : Package) (umode : ℕ) (destination : List Codes)
    (n : Option (FileTree.Node UInt8)) : Prop :=
  ∃ t₂ bytes, (∀ item, Selected S item → CopyOf S item (t₂.node (destination ++ item))) ∧
    S.record t₂ = .ok bytes ∧ n = some (.file bytes umode 1)

/-- The manifest of a copy can be written: it is recorded when all assets are in their places, and no
asset takes its place. -/
def Recordable (S : Package) (destination : List Codes) : Prop :=
  (∀ t₂ : Tree Codes UInt8, (∀ item, Selected S item → CopyOf S item (t₂.node (destination ++ item))) →
    ∃ bytes, S.record t₂ = .ok bytes) ∧ ∀ item, Selected S item → ¬ [manifestName] <+: item

/-- What an installation leaves, and how it ends. -/
structure Installed (S : Package) (lower : Codes → Codes) (umode : ℕ)
    (source destination : List Codes) (t t' : Tree Codes UInt8) (r : Except DistributionErr Unit) :
    Prop where
  kept : ∀ q, t.node q ≠ none → t'.node q = t.node q
  new : ∀ q, t'.node q ≠ t.node q → ¬ source <+: destination ∧ Sendable S lower ∧
    (Added S umode destination t' q ∨
      q = destination ++ [manifestName] ∧ ManifestOf S umode destination (t'.node q))
  succeeds : r = .ok () → (∀ item, Selected S item →
    t.node (destination ++ item) = none ∧ CopyOf S item (t'.node (destination ++ item))) ∧
    (copiedFile t' (destination ++ recorderPath) = true →
      t.node (destination ++ [manifestName]) = none ∧
        ManifestOf S umode destination (t'.node (destination ++ [manifestName])))
  completes : ¬ source <+: destination → Sendable S lower →
    (∀ item, Selected S item → S.broken item = none) →
    (Selected S recorderPath → Recordable S destination) →
    (∀ q, q <+: destination → t.node q = none ∨ t.node q = some .dir) →
    (∀ a, t.node (destination ++ [a]) = none) → r = .ok ()

/-- What the two loops in front of the copy establish. -/
structure Chosen (S : Package) (lower : Codes → Codes) (selected : List (List Codes)) : Prop where
  nodup : selected.Nodup
  mem : ∀ item, item ∈ selected ↔ Selected S item
  sendable : Sendable S lower

theorem chosen_of_ok (hselect : selectAssets S S.patterns [] = .ok selected)
    (hcheck : checkAssets S lower selected = .ok ()) : Chosen S lower selected := by
  obtain ⟨hpatterns, hnodup, hmem⟩ := selectAssets_ok hselect
  have hchecked := checkAssets_ok.mp hcheck
  have hselected : ∀ item, item ∈ selected ↔ Selected S item := by
    intro item
    rw [hmem, Selected]
    simp
  refine ⟨hnodup List.nodup_nil, hselected, ?_⟩
  exact {
    patterns := fun p hp => (hpatterns p hp).1
    plain := fun p hp => (hpatterns p hp).2
    contained := fun item hitem => (hchecked item ((hselected item).mpr hitem)).1
    released := fun item hitem => (hchecked item ((hselected item).mpr hitem)).2 }

theorem chosen_of_sendable (h : Sendable S lower) : ∃ selected,
    selectAssets S S.patterns [] = .ok selected ∧ checkAssets S lower selected = .ok () := by
  have hcomplete : ∃ selected, selectAssets S S.patterns [] = .ok selected :=
    selectAssets_complete fun p hp => ⟨h.patterns p hp, h.plain p hp⟩
  obtain ⟨selected, hselect⟩ := hcomplete
  refine ⟨selected, hselect, checkAssets_ok.mpr fun item hitem => ?_⟩
  have hselected : Selected S item := by
    simpa [Selected] using ((selectAssets_ok hselect).2.2 item).mp hitem
  exact ⟨h.contained item hselected, h.released item hselected⟩

theorem Chosen.isFile (h : Chosen S lower selected) :
    ∀ item ∈ selected, Artifacts.isFile (S.node item) = true := by
  intro item hitem
  obtain ⟨_, _, _, hfile⟩ := (h.mem item).mp hitem
  exact hfile

theorem mem_assetFilings {f : Filing Codes UInt8} (hf : f ∈ assetFilings S umode selected) :
    ∃ item ∈ selected, assetFiling S umode item = some f := by
  obtain ⟨item, hitem, hfiling⟩ := List.mem_filterMap.mp hf
  exact ⟨item, mem_sortAssets.mp ((untilBroken_sublist _).subset hitem), hfiling⟩

/-- Where everything can be read, every asset has a filing, under its own path. -/
theorem filing_of_selected (hbroken : ∀ item ∈ selected, S.broken item = none) {item : List Codes}
    (hitem : item ∈ selected) (h : isFile (S.node item) = true) :
    ∃ f ∈ assetFilings S umode selected, f.path = item ∧ CopyOf S item (some f.node) := by
  have hsorted : item ∈ untilBroken S (sortAssets selected) := by
    rw [untilBroken_eq fun q hq => hbroken q (mem_sortAssets.mp hq)]
    exact mem_sortAssets.mpr hitem
  cases hnode : S.node item with
  | none =>
    rw [hnode] at h
    cases h
  | some n =>
    cases n with
    | file content mode links =>
      rcases List.eq_nil_or_concat item with rfl | ⟨way, name, rfl⟩
      · rw [S.root] at hnode
        cases hnode
      · rw [List.concat_eq_append] at hnode hitem hsorted ⊢
        refine ⟨⟨way, name, content, mode % 4096⟩, List.mem_filterMap.mpr ⟨_, hsorted, ?_⟩, rfl,
          content, mode, links, hnode, hbroken _ hitem, rfl⟩
        simp [assetFiling, assetContent, hnode, hbroken _ hitem]
    | _ =>
      rw [hnode] at h
      cases h

/-- The assets of a tree are not in each other's way. -/
theorem filings_apart (hnodup : selected.Nodup)
    (hfile : ∀ item ∈ selected, isFile (S.node item) = true) :
    (assetFilings S umode selected).Pairwise fun f g =>
      f.path ≠ g.path ∧ ¬ f.path <+: g.way ∧ ¬ g.path <+: f.way := by
  have hbelow : ∀ p q : Filing Codes UInt8, isFile (S.node p.path) = true →
      isFile (S.node q.path) = true → ¬ p.path <+: q.way := by
    intro p q hp hq hprefix
    have hpath : p.path <+: q.path := hprefix.trans (List.prefix_append _ _)
    have hne : q.path ≠ p.path := by
      intro heq
      have hlength := hprefix.length_le
      rw [← heq] at hlength
      simp only [Filing.path, List.length_append, List.length_singleton] at hlength
      omega
    rw [S.below _ _ hp hpath hne] at hq
    cases hq
  have hsorted : (sortAssets selected).Nodup :=
    (List.perm_insertionSort _ selected).nodup_iff.mpr hnodup
  rw [assetFilings, List.pairwise_filterMap]
  refine (hsorted.sublist (untilBroken_sublist _)).imp_of_mem ?_
  intro p q hp hq hne f hf g hg
  have hpmem : p ∈ selected := mem_sortAssets.mp ((untilBroken_sublist _).subset hp)
  have hqmem : q ∈ selected := mem_sortAssets.mp ((untilBroken_sublist _).subset hq)
  obtain ⟨_, _, _, _, hfp, _⟩ := assetFiling_eq_some.mp hf
  obtain ⟨_, _, _, _, hgq, _⟩ := assetFiling_eq_some.mp hg
  have hfp' : isFile (S.node f.path) = true := by
    rw [hfp]
    exact hfile p hpmem
  have hgq' : isFile (S.node g.path) = true := by
    rw [hgq]
    exact hfile q hqmem
  exact ⟨fun heq => hne (by rw [← hfp, ← hgq, heq]), hbelow f g hfp' hgq', hbelow g f hgq' hfp'⟩

/-- Where nothing is under the destination, all assets have room. -/
theorem filings_have_room (hnodup : selected.Nodup)
    (hfile : ∀ item ∈ selected, isFile (S.node item) = true)
    (hempty : ∀ a, t₁.node (destination ++ [a]) = none)
    (hdir : t₁.node destination = some .dir) :
    HaveRoom destination (assetFilings S umode selected) t₁ := by
  have hbelow : ∀ a rel, t₁.node (destination ++ a :: rel) = none := fun a rel =>
    FileTree.Listing.node_below_absent (hempty a) rel
  refine ⟨fun f hf => ?_, fun f hf q hq => ?_, filings_apart hnodup hfile⟩
  · obtain ⟨a, rel, hpath⟩ := List.exists_cons_of_ne_nil (l := f.path) (by simp [Filing.path])
    rw [hpath]
    exact hbelow a rel
  · cases q with
    | nil => exact .inr (by rw [List.append_nil, hdir])
    | cons a rel => exact .inl (hbelow a rel)

/-- What the directories of the destination and then the files add. -/
theorem added_of_placed {t' : Tree Codes UInt8} (hchosen : Chosen S lower selected)
    (hmade : DirsMade destination t t₁)
    (hadded : FilesAdded destination (assetFilings S umode selected) t₁ t') {q : List Codes}
    (hq : t'.node q ≠ t.node q) : Added S umode destination t' q := by
  by_cases heq : t'.node q = t₁.node q
  · rw [heq] at hq
    rw [Added, heq]
    exact .inl (hmade.new q hq)
  · obtain ⟨f, hf, hnew⟩ := hadded.new q heq
    obtain ⟨item, hitem, hfiling⟩ := mem_assetFilings hf
    obtain ⟨content, mode, links, hnode, hpath, hfnode⟩ := assetFiling_eq_some.mp hfiling
    refine .inr ⟨item, (hchosen.mem item).mp hitem, ?_⟩
    rcases hnew with ⟨hplace, hhere⟩ | ⟨hway, hhere⟩
    · rw [hpath] at hplace
      refine .inl ⟨hplace, ?_⟩
      rw [hhere, hfnode]
      cases hbroken : S.broken item with
      | none => exact .inl ⟨content, mode, links, hnode, hbroken, by simp [assetContent, hbroken]⟩
      | some part => exact .inr ⟨part, hbroken, by simp [assetContent, hbroken]⟩
    · refine .inr ⟨hway.trans ?_, hhere⟩
      rw [← hpath, Filing.append_path]
      exact List.prefix_append _ _

theorem empty_of_made (hmade : DirsMade destination t t₁)
    (hempty : ∀ a, t.node (destination ++ [a]) = none) (a : Codes) :
    t₁.node (destination ++ [a]) = none := by
  rw [hmade.below ⟨a, [], rfl⟩]
  exact hempty a

/-- An installation that is refused before it starts. -/
theorem Installed.refused {e : DistributionErr}
    (h : ¬ source <+: destination → Sendable S lower → False) :
    Installed S lower umode source destination t t (.error e) where
  kept _ _ := rfl
  new _ hq := absurd rfl hq
  succeeds he := by cases he
  completes hout hsend := absurd (h hout hsend) id

/-- What the last step, which records the copy, finds and leaves. -/
structure Placed (S : Package) (lower : Codes → Codes) (umode : ℕ)
    (source destination : List Codes) (t t₂ : Tree Codes UInt8) : Prop where
  outside : ¬ source <+: destination
  sendable : Sendable S lower
  kept : ∀ q, t.node q ≠ none → t₂.node q = t.node q
  added : ∀ q, t₂.node q ≠ t.node q → Added S umode destination t₂ q
  copies : ∀ item, Selected S item →
    t.node (destination ++ item) = none ∧ CopyOf S item (t₂.node (destination ++ item))
  /-- Where nothing was, the place of the manifest is only taken by an asset. -/
  room : (∀ item, Selected S item → ¬ [manifestName] <+: item) →
    (∀ a, t.node (destination ++ [a]) = none) → t₂.node (destination ++ [manifestName]) = none
  dir : t₂.node destination = some .dir

namespace Placed

theorem ended (h : Placed S lower umode source destination t t₂) {r : Except DistributionErr Unit}
    (hrecorded : r = .ok () → copiedFile t₂ (destination ++ recorderPath) = false)
    (hcomplete : (Selected S recorderPath → Recordable S destination) →
      (∀ a, t.node (destination ++ [a]) = none) → r = .ok ()) :
    Installed S lower umode source destination t t₂ r where
  kept := h.kept
  new q hq := ⟨h.outside, h.sendable, .inl (h.added q hq)⟩
  succeeds hr := ⟨h.copies, fun hrecorder => by simp [hrecorded hr] at hrecorder⟩
  completes _ _ _ hrecordable _ hempty := hcomplete hrecordable hempty

/-- In an empty place the module that writes manifests is there as an asset. -/
theorem recorder (h : Placed S lower umode source destination t t₂)
    (hempty : ∀ a, t.node (destination ++ [a]) = none)
    (hfile : copiedFile t₂ (destination ++ recorderPath) = true) : Selected S recorderPath := by
  have hbefore : t.node (destination ++ recorderPath) = none :=
    FileTree.Listing.node_below_absent (hempty _) _
  have hnew : t₂.node (destination ++ recorderPath) ≠ t.node (destination ++ recorderPath) := by
    intro heq
    rw [copiedFile, heq, hbefore] at hfile
    cases hfile
  have hdir : t₂.node (destination ++ recorderPath) ≠ some .dir := by
    intro heq
    rw [copiedFile, heq] at hfile
    cases hfile
  rcases h.added _ hnew with ⟨_, heq⟩ | ⟨item, hitem, ⟨hplace, _⟩ | ⟨_, heq⟩⟩
  · exact absurd heq hdir
  · rw [List.append_cancel_left hplace]
    exact hitem
  · exact absurd heq hdir

theorem recorded (h : Placed S lower umode source destination t t₂) {bytes : Bytes}
    (hbytes : S.record t₂ = .ok bytes) {t' : Tree Codes UInt8}
    (hcreate : t₂.create destination manifestName (.file bytes umode 1) = .ok t') :
    Installed S lower umode source destination t t' (.ok ()) := by
  obtain ⟨_, habsent, hnode⟩ := Tree.create_ok hcreate
  have hother : ∀ q, q ≠ destination ++ [manifestName] → t'.node q = t₂.node q := by
    intro q hq
    rw [hnode, Function.update_of_ne hq]
  have hself : t'.node (destination ++ [manifestName]) = some (.file bytes umode 1) := by
    rw [hnode, Function.update_self]
  have hmanifest : ManifestOf S umode destination (t'.node (destination ++ [manifestName])) :=
    ⟨t₂, bytes, fun item hitem => (h.copies item hitem).2, hbytes, hself⟩
  have hbefore : t.node (destination ++ [manifestName]) = none := by
    by_contra hne
    rw [h.kept _ hne] at habsent
    exact hne habsent
  refine ⟨fun q hq => ?_, fun q hq => ⟨h.outside, h.sendable, ?_⟩,
    fun _ => ⟨fun item hitem => ?_, fun _ => ⟨hbefore, hmanifest⟩⟩, fun _ _ _ _ _ _ => rfl⟩
  · rw [hother q fun heq => hq (heq ▸ hbefore)]
    exact h.kept q hq
  · by_cases hplace : q = destination ++ [manifestName]
    · rw [hplace]
      exact .inr ⟨rfl, hmanifest⟩
    · rw [hother q hplace] at hq
      rw [Added, hother q hplace]
      exact .inl (h.added q hq)
  · obtain ⟨hnone, hcopy⟩ := h.copies item hitem
    refine ⟨hnone, ?_⟩
    rw [hother _ fun heq => ?_]
    · exact hcopy
    · obtain ⟨_, _, _, _, _, hfile⟩ := hcopy
      rw [heq, habsent] at hfile
      cases hfile

/-- The last step ends an installation as it should. -/
theorem finished (h : Placed S lower umode source destination t t₂) :
    Installed S lower umode source destination t (recordCopy S umode destination t₂).1
      (recordCopy S umode destination t₂).2 := by
  unfold recordCopy
  split_ifs with hrecorder
  · split
    · next e hrecord =>
      refine h.ended (fun hr => by cases hr) fun hrecordable hempty => ?_
      obtain ⟨bytes, hbytes⟩ := (hrecordable (h.recorder hempty hrecorder)).1 t₂
        fun item hitem => (h.copies item hitem).2
      rw [hrecord] at hbytes
      cases hbytes
    · next bytes hrecord =>
      split
      · next e hcreate =>
        refine h.ended (fun hr => by cases hr) fun hrecordable hempty => ?_
        have hfree := (hrecordable (h.recorder hempty hrecorder)).2
        rw [Tree.create, dif_pos h.dir, dif_pos (h.room hfree hempty)] at hcreate
        cases hcreate
      · next t' hcreate => exact h.recorded hrecord hcreate
  · exact h.ended (fun _ => by simpa using hrecorder) fun _ _ => rfl

end Placed

/-- Whatever the package names and however the copy ends: nothing that was there is touched; when
anything is new, everything that the package names was checked before, and what is new is the copy
of an asset that it names, in its place and with its mode, or as much of it as can be read, or a
directory on the way to one, or the manifest of a copy that has every asset; a copy that succeeds has
all assets, and a manifest if it has the module that writes it; and it succeeds for every package that
passes the checks, can be read and, if it has that module, can be recorded, into an empty place
outside of the source tree. -/
theorem installed : Installed S lower umode source destination t
    (copyDistribution S lower umode source destination t).1
    (copyDistribution S lower umode source destination t).2 := by
  unfold copyDistribution
  split_ifs with hinside
  · exact .refused fun hout _ => hout hinside
  split
  · next e hselect =>
    refine .refused fun _ hsend => ?_
    obtain ⟨_, hok, _⟩ := chosen_of_sendable hsend
    rw [hselect] at hok
    cases hok
  next selected hselect =>
  split
  · next e hcheck =>
    refine .refused fun _ hsend => ?_
    obtain ⟨_, hok, hok'⟩ := chosen_of_sendable hsend
    rw [hselect] at hok
    cases hok
    rw [hcheck] at hok'
    cases hok'
  next u hcheck =>
  have hchosen : Chosen S lower selected := chosen_of_ok hselect hcheck
  have hmade := FileTree.makeDirs_made destination t.root
  have hdirs := FileTree.makeDirs_ok destination t.root
  simp only [List.nil_append] at hmade hdirs
  split
  · next t₁ e heq =>
    rw [heq] at hmade hdirs
    refine ⟨hmade.kept, fun q hq => ⟨hinside, hchosen.sendable, .inl (.inl (hmade.new q hq))⟩,
      fun h => (by cases h), fun _ _ _ _ hway _ => ?_⟩
    cases hdirs.mpr hway
  next t₁ heq =>
  rw [heq] at hmade
  have hdir : t₁.node destination = some .dir := FileTree.makeDirs_dir t.root heq
  have hadded := FileTree.placeFiles_added (assetFilings S umode selected) hdir
  have hkept : ∀ q, t.node q ≠ none →
      (placeFiles destination (assetFilings S umode selected) t₁).1.node q = t.node q := by
    intro q hq
    rw [hadded.kept q (by rw [hmade.kept q hq]; exact hq), hmade.kept q hq]
  split
  · next t₂ e hplace =>
    rw [hplace] at hkept hadded
    refine ⟨hkept, fun q hq =>
      ⟨hinside, hchosen.sendable, .inl (added_of_placed hchosen hmade hadded hq)⟩,
      fun h => (by cases h), fun _ _ _ _ _ hempty => ?_⟩
    obtain ⟨t₃, hdone⟩ := FileTree.placeFiles_complete hdir
      (filings_have_room hchosen.nodup hchosen.isFile (empty_of_made hmade hempty) hdir)
    rw [hplace] at hdone
    cases hdone
  next t₂ hplace =>
  rw [hplace] at hkept hadded
  have hnew : ∀ q, t₂.node q ≠ t.node q → Added S umode destination t₂ q :=
    fun q hq => added_of_placed hchosen hmade hadded hq
  split_ifs with hbroken
  · obtain ⟨item, hitem, hpart⟩ := hbroken
    refine ⟨hkept, fun q hq => ⟨hinside, hchosen.sendable, .inl (hnew q hq)⟩,
      fun h => (by cases h), fun _ _ hreadable _ _ _ => ?_⟩
    exact absurd (hreadable item ((hchosen.mem item).mp hitem)) hpart
  · have hreadable : ∀ item ∈ selected, S.broken item = none := by
      intro item hitem
      by_contra hpart
      exact hbroken ⟨item, hitem, hpart⟩
    refine Placed.finished ⟨hinside, hchosen.sendable, hkept, hnew, ?_, ?_, ?_⟩
    · intro item hitem
      have hmem := (hchosen.mem item).mpr hitem
      obtain ⟨f, hf, hpath, hcopy⟩ :=
        filing_of_selected hreadable hmem (hchosen.isFile item hmem)
      obtain ⟨hhere, habsent⟩ := FileTree.placeFiles_ok hdir hplace f hf
      rw [hpath] at hhere habsent
      refine ⟨?_, by rw [hhere]; exact hcopy⟩
      by_contra hne
      rw [hmade.kept _ hne] at habsent
      exact hne habsent
    · intro hfree hempty
      by_contra hne
      rcases hnew _ (by rw [hempty]; exact hne) with ⟨hway, _⟩ | ⟨item, hitem, hplaced⟩
      · exact FileTree.not_below_of_prefix hway ⟨manifestName, [], rfl⟩
      · refine hfree item hitem ((List.prefix_append_right_inj destination).mp ?_)
        rcases hplaced with ⟨heq, _⟩ | ⟨hway, _⟩
        · exact heq ▸ List.prefix_rfl
        · exact hway
    · rw [hadded.kept destination (by simp [hdir]), hdir]

section Examples

def readme : List Codes := [codes "README.md"]

/-- A package with its readme alone. -/
def readmePackage : Package where
  files := []
  node p := if p = [] then some .dir else if p = readme then some (.file [65] 420 1) else none
  broken _ := none
  glob pattern := if pattern = codes "README.md" then [readme] else []
  escapes _ := false
  record _ := .error .value
  root := if_pos rfl
  below p q hp hprefix hne := by
    have hreadme : p = readme := by
      by_contra h
      rw [if_neg h] at hp
      split at hp <;> cases hp
    rw [if_neg, if_neg (hreadme ▸ hne)]
    rintro rfl
    rw [List.prefix_nil.mp hprefix] at hreadme
    cases hreadme

example : selectAssets readmePackage readmePackage.patterns [] = .ok [readme] := by
  decide +kernel

end Examples
end NyanyaAgent.Safety
