import NyanyaAgent.Cli.State

/-!
# State copies

A copy of the state directory is the state as it can be copied, and touches nothing else.
-/
namespace NyanyaAgent.Safety
open NyanyaAgent.FileTree NyanyaAgent.Cli

variable {items : List Name} {source : Listing Name SourceFile} {sourceRoot target : List Name}
  {d : StateDisk} {t₁ : Tree Name UInt8}

/-- What a copy of the items leaves, and how it ends. -/
structure StateCopied (items : List Name) (source : Listing Name SourceFile)
    (sourceRoot target : List Name) (d d' : StateDisk) (r : Except StateErr (List Name)) : Prop where
  kept : ∀ q, d.tree.node q ≠ none → d'.tree.node q = d.tree.node q
  inside : ∀ q, d'.tree.node q ≠ d.tree.node q →
    target <+: q ∨ q <+: target ∧ d'.tree.node q = some .dir
  modes : ∀ q, q ≠ target → d'.modes q = d.modes q
  closed : (∀ q, Below target q → d'.tree.node q = d.tree.node q) ∧ d'.modes = d.modes ∨
    d'.modes target = 448
  succeeds : (∃ copied, r = .ok copied) ↔ ¬ sourceRoot <+: target ∧
    (∀ q, q <+: target → d.tree.node q = none ∨ d.tree.node q = some .dir) ∧
    (gather items source).Copyable stateRule
  exactly : ∀ copied, r = .ok copied → copied = (gather items source).names stateRule ∧
    d'.modes target = 448 ∧
    ∀ a rel, d'.tree.node (target ++ a :: rel) = (gather items source).node stateRule (a :: rel)

/-- A copy that ends before it has a target. -/
theorem StateCopied.failed {e : StateErr} (h : DirsMade target d.tree t₁)
    (hfails : ¬ (¬ sourceRoot <+: target ∧
      (∀ q, q <+: target → d.tree.node q = none ∨ d.tree.node q = some .dir) ∧
        (gather items source).Copyable stateRule)) :
    StateCopied items source sourceRoot target d { d with tree := t₁ } (.error e) where
  kept := h.kept
  inside q hq := .inr (h.new q hq)
  modes _ _ := rfl
  closed := .inl ⟨fun _ hq => h.below hq, rfl⟩
  succeeds := ⟨fun ⟨_, h⟩ => (by cases h), fun h => absurd h hfails⟩
  exactly _ h := by cases h

/-- Whatever the state holds and however the copy ends: nothing that was there is touched but the mode
of the target, which is its owner's alone before anything is put into it, and what is new lies under
the target or is a directory on the way to it. It succeeds exactly when the target is outside of the
state, can be made a directory, and the items can all be read, have no links, no special files and
databases that can be backed up; then the target holds the items, file by file, without the side files
of databases, and nothing else. -/
theorem state_copied (habsent : ∀ a, d.tree.node (target ++ [a]) = none) :
    StateCopied items source sourceRoot target d
      (copyItems items source sourceRoot target d).1
      (copyItems items source sourceRoot target d).2 := by
  unfold copyItems
  split_ifs with hroot
  · exact .failed (.refl target d.tree) fun h => h.1 hroot
  have hmade := makeDirs_made target d.tree.root
  have hdirs := makeDirs_ok target d.tree.root
  simp only [List.nil_append] at hmade hdirs
  split
  · next t₁ e heq =>
    rw [heq] at hmade hdirs
    exact .failed hmade fun h => by cases hdirs.mpr h.2.1
  · next t₁ heq =>
    rw [heq] at hmade hdirs
    have hway := hdirs.mp rfl
    have hgrown := Listing.copy_grown stateRule (gather items source) target t₁
    have hkept : ∀ q, d.tree.node q ≠ none →
        ((gather items source).copy stateRule target t₁).1.node q = d.tree.node q := by
      intro q hq
      rw [hgrown.kept q (by rw [hmade.kept q hq]; exact hq), hmade.kept q hq]
    have hinside : ∀ q, ((gather items source).copy stateRule target t₁).1.node q ≠ d.tree.node q →
        target <+: q ∨ q <+: target ∧
          ((gather items source).copy stateRule target t₁).1.node q = some .dir := by
      intro q hq
      by_cases hbelow : Below target q
      · obtain ⟨a, rel, rfl⟩ := hbelow
        exact .inl (List.prefix_append _ _)
      · rw [hgrown.below q hbelow] at hq ⊢
        exact .inr (hmade.new q hq)
    have hmodes : ∀ q, q ≠ target → chmodDirOwnerOnly target d.modes q = d.modes q :=
      fun q hq => Function.update_of_ne hq _ _
    have hclosed : chmodDirOwnerOnly target d.modes target = 448 := Function.update_self _ _ _
    have hnew : ∀ a, t₁.node (target ++ [a]) = none := by
      intro a
      rw [hmade.below ⟨a, [], rfl⟩]
      exact habsent a
    have htarget : t₁.node target = some .dir := makeDirs_dir d.tree.root heq
    dsimp only
    split
    · next t₂ e hcopy =>
      rw [hcopy] at hkept hinside
      refine ⟨hkept, hinside, hmodes, .inr hclosed, ?_, fun _ h => (by cases h)⟩
      refine ⟨fun ⟨_, h⟩ => (by cases h), fun h => ?_⟩
      obtain ⟨t₃, hdone⟩ := Listing.copy_complete htarget h.2.2 fun a _ => hnew a
      rw [hcopy] at hdone
      cases hdone
    · next t₂ hcopy =>
      rw [hcopy] at hkept hinside
      have hcopied := Listing.copy_ok htarget hcopy
      refine ⟨hkept, hinside, hmodes, .inr hclosed,
        ⟨fun _ => ⟨hroot, hway, hcopied.copyable⟩, fun _ => ⟨_, rfl⟩⟩, ?_⟩
      intro copied h
      refine ⟨(Except.ok.inj h).symm, hclosed, fun a rel => ?_⟩
      by_cases ha : a ∈ (gather items source).names stateRule
      · exact hcopied.inside a ha rel
      · rw [hcopied.beside a ha, Listing.node_not_mem ha]
        exact Listing.node_below_absent (hnew a) rel

section Examples

/-- A state with its settings, a database beside its log, and a link in a directory that is not
copied. -/
def plainState : Listing Name SourceFile :=
  .file ".env".toList ⟨some [65], none⟩ <| .dir "run".toList (.link "pid".toList .done) <|
    .dir "data".toList (.file "a.db".toList ⟨some [1], some [2]⟩ <|
      .file "a.db-wal".toList ⟨none, none⟩ .done) .done

/-- A disk with an empty directory that others may read. -/
def plainDisk : StateDisk where
  tree := {
    node := fun p => if p = [] ∨ p = ["b".toList] then some .dir else none
    root := if_pos (.inl rfl)
    parent := fun p a h => by
      by_cases hb : p ++ [a] = ["b".toList]
      · obtain ⟨rfl, _⟩ := Tree.append_singleton_inj (p := []) hb.symm
        exact if_pos (.inl rfl)
      · exact absurd (if_neg (not_or.mpr ⟨by simp, hb⟩)) h }
  modes _ := 493

theorem state_copied_plain :
    StateCopied durableItems plainState ["s".toList] ["b".toList] plainDisk
      (copyItems durableItems plainState ["s".toList] ["b".toList] plainDisk).1
      (copyItems durableItems plainState ["s".toList] ["b".toList] plainDisk).2 :=
  state_copied fun _ => by simp [plainDisk]

/-- The copy has the database as it was backed up, and is its owner's alone. -/
example : (copyItems durableItems plainState ["s".toList] ["b".toList] plainDisk).1.tree.node
      ["b".toList, "data".toList, "a.db".toList] = some (.file [2] 384 1) ∧
    (copyItems durableItems plainState ["s".toList] ["b".toList] plainDisk).1.modes ["b".toList] =
      448 := by
  decide +kernel

end Examples
end NyanyaAgent.Safety
