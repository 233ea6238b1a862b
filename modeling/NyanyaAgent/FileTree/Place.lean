import NyanyaAgent.FileTree.Copy

/-!
# Files put into a tree

A list of files is written under a directory, each exclusively and after the directories on its
way.
-/
namespace NyanyaAgent.FileTree

variable {ν β : Type}

/-- A file, and where it goes under a directory. -/
structure Filing (ν β : Type) where
  way : List ν
  name : ν
  content : List β
  mode : ℕ

namespace Filing

def path (f : Filing ν β) : List ν := f.way ++ [f.name]

def node (f : Filing ν β) : Node β := .file f.content f.mode 1

theorem append_path (base : List ν) (f : Filing ν β) :
    base ++ f.path = base ++ f.way ++ [f.name] := by
  rw [path, List.append_assoc]

end Filing

/-- What filing adds: nothing that was there is touched, and what is new is one of the files or a
directory on the way to one. -/
structure FilesAdded (base : List ν) (fs : List (Filing ν β)) (t t' : Tree ν β) : Prop where
  kept : ∀ q, t.node q ≠ none → t'.node q = t.node q
  new : ∀ q, t'.node q ≠ t.node q → ∃ f ∈ fs, q = base ++ f.path ∧ t'.node q = some f.node ∨
    q <+: base ++ f.way ∧ t'.node q = some .dir

/-- The files have room: where each goes there is nothing, on its way nothing but directories, and
no two of them are in each other's way. -/
structure HaveRoom (base : List ν) (fs : List (Filing ν β)) (t : Tree ν β) : Prop where
  absent : ∀ f ∈ fs, t.node (base ++ f.path) = none
  ways : ∀ f ∈ fs, ∀ q, q <+: f.way → t.node (base ++ q) = none ∨ t.node (base ++ q) = some .dir
  apart : fs.Pairwise fun f g => f.path ≠ g.path ∧ ¬ f.path <+: g.way ∧ ¬ g.path <+: f.way

namespace FilesAdded
variable {base : List ν} {fs : List (Filing ν β)} {f : Filing ν β} {t t₁ t' : Tree ν β}

theorem refl (base : List ν) (fs : List (Filing ν β)) (t : Tree ν β) : FilesAdded base fs t t :=
  ⟨fun _ _ => rfl, fun _ hq => absurd rfl hq⟩

theorem trans (h₁ : FilesAdded base fs t t₁) (h₂ : FilesAdded base fs t₁ t') :
    FilesAdded base fs t t' where
  kept q hq := by rw [h₂.kept q (by rw [h₁.kept q hq]; exact hq), h₁.kept q hq]
  new q hq := by
    by_cases heq : t'.node q = t₁.node q
    · rw [heq] at hq ⊢
      exact h₁.new q hq
    · exact h₂.new q heq

theorem cons (h : FilesAdded base fs t t') : FilesAdded base (f :: fs) t t' where
  kept := h.kept
  new q hq := by
    obtain ⟨g, hg, hnew⟩ := h.new q hq
    exact ⟨g, List.mem_cons_of_mem _ hg, hnew⟩

theorem of_dirs (h : DirsMade (base ++ f.way) t t') : FilesAdded base (f :: fs) t t' where
  kept := h.kept
  new q hq := ⟨f, List.mem_cons_self, .inr (h.new q hq)⟩

variable [DecidableEq ν] [DecidableEq β]

theorem of_create (h : t.create (base ++ f.way) f.name f.node = .ok t') :
    FilesAdded base (f :: fs) t t' where
  kept := (TreeGrown.create h).kept
  new q hq := by
    obtain ⟨_, _, hnode⟩ := Tree.create_ok h
    have hpath : q = base ++ f.way ++ [f.name] := by
      by_contra hne
      rw [hnode, Function.update_of_ne hne] at hq
      exact hq rfl
    refine ⟨f, List.mem_cons_self, .inl ⟨?_, ?_⟩⟩
    · rw [hpath, Filing.append_path]
    · rw [hpath, hnode, Function.update_self]

end FilesAdded

section Place
variable [DecidableEq ν] [DecidableEq β] {base : List ν} {fs : List (Filing ν β)} {f : Filing ν β}
  {t t₁ t' : Tree ν β}

/-- Writes the files in turn; the first failure ends it. -/
def placeFiles (base : List ν) : List (Filing ν β) → Tree ν β → Tree ν β × Option FsErr
  | [], t => (t, none)
  | f :: rest, t =>
    match makeDirs base f.way t with
    | (t', some e) => (t', some e)
    | (t', none) =>
      match t'.create (base ++ f.way) f.name f.node with
      | .error e => (t', some e)
      | .ok t'' => placeFiles base rest t''

theorem placeFiles_added (fs : List (Filing ν β)) (hb : t.node base = some .dir) :
    FilesAdded base fs t (placeFiles base fs t).1 := by
  induction fs generalizing t with
  | nil => exact .refl base [] t
  | cons f rest ih =>
    have hmade := makeDirs_made f.way hb
    rw [placeFiles]
    split
    · next t₁ e heq =>
      rw [heq] at hmade
      exact .of_dirs hmade
    · next t₁ heq =>
      rw [heq] at hmade
      split
      · exact .of_dirs hmade
      · next t₂ hcreate =>
        have hfile : FilesAdded base (f :: rest) t t₂ := (FilesAdded.of_dirs hmade).trans
          (.of_create hcreate)
        exact hfile.trans (ih (by rw [hfile.kept base (by simp [hb]), hb])).cons

/-- The files that were written without a failure are all there, where nothing was before. -/
theorem placeFiles_ok (hb : t.node base = some .dir) (h : placeFiles base fs t = (t', none)) :
    ∀ f ∈ fs, t'.node (base ++ f.path) = some f.node ∧ t.node (base ++ f.path) = none := by
  induction fs generalizing t with
  | nil => simp
  | cons f rest ih =>
    have hmade := makeDirs_made f.way hb
    rw [placeFiles] at h
    split at h
    · cases h
    · next t₁ heq =>
      rw [heq] at hmade
      split at h
      · cases h
      · next t₂ hcreate =>
        have hfile : FilesAdded base (f :: rest) t t₂ := (FilesAdded.of_dirs hmade).trans
          (.of_create hcreate)
        have hb₂ : t₂.node base = some .dir := by rw [hfile.kept base (by simp [hb]), hb]
        have hrest := placeFiles_added rest hb₂
        rw [h] at hrest
        obtain ⟨_, habsent, hnode⟩ := Tree.create_ok hcreate
        have hhere : t₂.node (base ++ f.path) = some f.node := by
          rw [Filing.append_path, hnode, Function.update_self]
        have hbefore : ∀ q, t₂.node q = none → t.node q = none := by
          intro q hq
          by_contra hne
          rw [hfile.kept q hne] at hq
          exact hne hq
        intro g hg
        rcases List.mem_cons.mp hg with rfl | hg
        · refine ⟨by rw [hrest.kept _ (by simp [hhere]), hhere], ?_⟩
          by_contra hne
          rw [Filing.append_path] at hne
          rw [hmade.kept _ hne] at habsent
          exact hne habsent
        · exact ⟨(ih hb₂ h g hg).1, hbefore _ (ih hb₂ h g hg).2⟩

/-- Where one file was written there is room for the others. -/
theorem HaveRoom.rest {rest : List (Filing ν β)} (h : HaveRoom base (f :: rest) t)
    (hmade : DirsMade (base ++ f.way) t t₁)
    (hcreate : t₁.create (base ++ f.way) f.name f.node = .ok t') : HaveRoom base rest t' := by
  obtain ⟨_, _, hnode⟩ := Tree.create_ok hcreate
  obtain ⟨hapart, hrest⟩ := List.pairwise_cons.mp h.apart
  -- A path that is neither the file nor on its way is as it was.
  have hother : ∀ q, q ≠ f.path → t'.node (base ++ q) = t₁.node (base ++ q) := by
    intro q hq
    rw [hnode, ← Filing.append_path, Function.update_of_ne]
    exact fun heq => hq (List.append_cancel_left heq)
  refine ⟨fun g hg => ?_, fun g hg q hq => ?_, hrest⟩
  · rw [hother _ (hapart g hg).1.symm]
    by_contra hne
    have hchanged : t₁.node (base ++ g.path) ≠ t.node (base ++ g.path) := by
      rw [h.absent g (List.mem_cons_of_mem _ hg)]
      exact hne
    have hway := (hmade.new _ hchanged).1
    exact (hapart g hg).2.2 ((List.prefix_append_right_inj base).mp hway)
  · have hne : q ≠ f.path := fun heq => (hapart g hg).2.1 (heq ▸ hq)
    rw [hother q hne]
    by_cases hchanged : t₁.node (base ++ q) = t.node (base ++ q)
    · rw [hchanged]
      exact h.ways g (List.mem_cons_of_mem _ hg) q hq
    · exact .inr (hmade.new _ hchanged).2

theorem placeFiles_complete (hb : t.node base = some .dir) (h : HaveRoom base fs t) :
    ∃ t', placeFiles base fs t = (t', none) := by
  induction fs generalizing t with
  | nil => exact ⟨t, rfl⟩
  | cons f rest ih =>
    have hmade := makeDirs_made f.way hb
    have hok := (makeDirs_ok f.way hb).mpr (h.ways f List.mem_cons_self)
    obtain ⟨t₁, hdirs⟩ : ∃ t₁, makeDirs base f.way t = (t₁, none) := ⟨_, Prod.ext rfl hok⟩
    rw [hdirs] at hmade
    have hdir : t₁.node (base ++ f.way) = some .dir := makeDirs_dir hb hdirs
    have habsent : t₁.node (base ++ f.way ++ [f.name]) = none := by
      rw [hmade.below ⟨f.name, [], rfl⟩, ← Filing.append_path]
      exact h.absent f List.mem_cons_self
    obtain ⟨t₂, hcreate⟩ : ∃ t₂, t₁.create (base ++ f.way) f.name f.node = .ok t₂ :=
      ⟨_, by rw [Tree.create, dif_pos hdir, dif_pos habsent]⟩
    have hb₂ : t₂.node base = some .dir := by
      have hfile : FilesAdded base (f :: rest) t t₂ := (FilesAdded.of_dirs hmade).trans
        (.of_create hcreate)
      rw [hfile.kept base (by simp [hb]), hb]
    rw [placeFiles, hdirs]
    dsimp only
    rw [hcreate]
    exact ih hb₂ (h.rest hmade hcreate)

end Place
end NyanyaAgent.FileTree
