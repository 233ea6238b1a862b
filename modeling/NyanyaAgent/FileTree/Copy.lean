import NyanyaAgent.FileTree.Tree

/-!
# Copies of directory trees

A recursive copy into a file tree: what it leaves when it succeeds, when it does, and that it
never touches what was there.
-/
namespace NyanyaAgent.FileTree

variable {ν γ β : Type}

/-- The entries of a directory as a walk finds them, each directory with its own. -/
inductive Listing (ν γ : Type)
  | done
  /-- From here on nothing can be read: the directory itself, or its next entry. -/
  | barred
  | file (name : ν) (content : γ) (rest : Listing ν γ)
  | dir (name : ν) (inner rest : Listing ν γ)
  | link (name : ν) (rest : Listing ν γ)
  | special (name : ν) (rest : Listing ν γ)

inductive CopyErr
  | link | special | unreadable | content
  | fs (e : FsErr)
  deriving DecidableEq

/-- Which entries are copied, and the mode and the content of the copy of a file. -/
structure CopyRule (ν γ β : Type) where
  keep : ν → Bool
  mode : ℕ
  image : ν → γ → Except CopyErr (List β)

namespace Listing
variable (rule : CopyRule ν γ β)

/-- The names that are copied, of the outer directory. -/
def names : Listing ν γ → List ν
  | .done | .barred => []
  | .file a _ rest | .dir a _ rest | .link a rest | .special a rest =>
    if rule.keep a then a :: names rest else names rest

variable [DecidableEq ν]

/-- What a copy has under a path. -/
def node : Listing ν γ → List ν → Option (Node β)
  | _, [] => none
  | .done, _ | .barred, _ => none
  | .file b content rest, a :: q =>
    if rule.keep b ∧ b = a then
      if q = [] then (rule.image b content).toOption.map fun c => .file c rule.mode 1 else none
    else node rest (a :: q)
  | .dir b inner rest, a :: q =>
    if rule.keep b ∧ b = a then if q = [] then some .dir else node inner q
    else node rest (a :: q)
  | .link _ rest, a :: q | .special _ rest, a :: q => node rest (a :: q)

/-- What can be copied: everything can be read, there are no links or special files, contents have
an image, and in every directory there is one entry of a name. -/
def Copyable : Listing ν γ → Prop
  | .done => True
  | .barred => False
  | .file a content rest =>
    (rule.keep a → (∃ c, rule.image a content = .ok c) ∧ a ∉ rest.names rule) ∧ Copyable rest
  | .dir a inner rest =>
    (rule.keep a → Copyable inner ∧ a ∉ rest.names rule) ∧ Copyable rest
  | .link a rest | .special a rest => rule.keep a = false ∧ Copyable rest

variable [DecidableEq β]

/-- The copy of the entries into a directory, as far as it gets. -/
def copy : Listing ν γ → List ν → Tree ν β → Tree ν β × Option CopyErr
  | .done, _, t => (t, none)
  | .barred, _, t => (t, some .unreadable)
  | .file a content rest, p, t =>
    if rule.keep a then
      match rule.image a content with
      | .error e => (t, some e)
      | .ok c =>
        match t.create p a (.file c rule.mode 1) with
        | .error e => (t, some (.fs e))
        | .ok t' => copy rest p t'
    else copy rest p t
  | .dir a inner rest, p, t =>
    if rule.keep a then
      match t.mkdir p a with
      | .error e => (t, some (.fs e))
      | .ok t' =>
        match copy inner (p ++ [a]) t' with
        | (t'', none) => copy rest p t''
        | (t'', some e) => (t'', some e)
    else copy rest p t
  | .link a rest, p, t => if rule.keep a then (t, some .link) else copy rest p t
  | .special a rest, p, t => if rule.keep a then (t, some .special) else copy rest p t

variable {rule}

omit [DecidableEq β] in
theorem node_not_mem {f : Listing ν γ} {a : ν} {q : List ν} (h : a ∉ f.names rule) :
    f.node rule (a :: q) = none := by
  induction f with
  | done | barred => rfl
  | file b content rest ih =>
    rw [names] at h
    rw [node]
    split_ifs at h ⊢ with hk hb hq
    all_goals grind
  | dir b inner rest _ ih =>
    rw [names] at h
    rw [node]
    split_ifs at h ⊢ with hk hb hq
    all_goals grind
  | link b rest ih | special b rest ih =>
    rw [names] at h
    rw [node]
    apply ih
    split_ifs at h
    · exact fun hmem => h (List.mem_cons_of_mem _ hmem)
    · exact h

end Listing

/-- What lies under the directory, or the rest. -/
def Below (p q : List ν) : Prop := ∃ a rel, q = p ++ a :: rel

/-- Nothing that was there is touched, and what is new lies below. -/
structure TreeGrown (p : List ν) (t t' : Tree ν β) : Prop where
  kept : ∀ q, t.node q ≠ none → t'.node q = t.node q
  below : ∀ q, ¬ Below p q → t'.node q = t.node q

namespace TreeGrown
variable {p : List ν} {t t₁ t' : Tree ν β}

theorem refl (p : List ν) (t : Tree ν β) : TreeGrown p t t := ⟨fun _ _ => rfl, fun _ _ => rfl⟩

theorem trans (h₁ : TreeGrown p t t₁) (h₂ : TreeGrown p t₁ t') : TreeGrown p t t' where
  kept q hq := by
    rw [h₂.kept q (by rw [h₁.kept q hq]; exact hq), h₁.kept q hq]
  below q hq := (h₂.below q hq).trans (h₁.below q hq)

/-- What grows below an entry grows below its directory. -/
theorem of_child {a : ν} (h : TreeGrown (p ++ [a]) t t') : TreeGrown p t t' where
  kept := h.kept
  below q hq := by
    refine h.below q fun hb => hq ?_
    obtain ⟨b, rel, rfl⟩ := hb
    exact ⟨a, b :: rel, by simp⟩

variable [DecidableEq ν] [DecidableEq β]

theorem create {a : ν} {n : Node β} (h : t.create p a n = .ok t') : TreeGrown p t t' := by
  obtain ⟨_, habsent, hnode⟩ := Tree.create_ok h
  constructor
  · intro q hq
    rw [hnode, Function.update_of_ne]
    rintro rfl
    exact hq habsent
  · intro q hq
    rw [hnode, Function.update_of_ne]
    rintro rfl
    exact hq ⟨a, [], rfl⟩

end TreeGrown

namespace Listing
variable [DecidableEq ν] [DecidableEq β] {rule : CopyRule ν γ β} {f : Listing ν γ} {p : List ν}
  {t t' : Tree ν β}

variable (rule) in
/-- A copy, however it ends, overwrites nothing and stays in its directory. -/
theorem copy_grown (f : Listing ν γ) (p : List ν) (t : Tree ν β) :
    TreeGrown p t (f.copy rule p t).1 := by
  induction f generalizing p t with
  | done | barred => exact .refl p t
  | file a content rest ih =>
    rw [copy]
    split_ifs
    · split
      · exact .refl p t
      · split
        · exact .refl p t
        · next hc => exact (TreeGrown.create hc).trans (ih p _)
    · exact ih p t
  | dir a inner rest ihinner ih =>
    rw [copy]
    split_ifs
    · split
      · exact .refl p t
      · next t₁ hc =>
        have hmade : TreeGrown p t t₁ := .create hc
        have hinner := (ihinner (p ++ [a]) t₁).of_child
        split
        · next t₂ heq =>
          rw [heq] at hinner
          exact (hmade.trans hinner).trans (ih p t₂)
        · next t₂ e heq =>
          rw [heq] at hinner
          exact hmade.trans hinner
    · exact ih p t
  | link a rest ih | special a rest ih =>
    rw [copy]
    split_ifs
    · exact .refl p t
    · exact ih p t

omit [DecidableEq ν] [DecidableEq β] in
theorem node_below_absent {a : ν} (h : t.node (p ++ [a]) = none) (rel : List ν) :
    t.node (p ++ a :: rel) = none := by
  cases rel with
  | nil => exact h
  | cons b rel =>
    by_contra hne
    have hdir : t.node (p ++ [a]) = some .dir :=
      t.node_prefix (q := b :: rel) (by simpa using hne) (List.cons_ne_nil _ _)
    rw [h] at hdir
    cases hdir

/-- What a successful copy into a directory leaves there. -/
structure Copied (rule : CopyRule ν γ β) (f : Listing ν γ) (p : List ν) (t t' : Tree ν β) : Prop where
  copyable : f.Copyable rule
  absent : ∀ a ∈ f.names rule, t.node (p ++ [a]) = none
  inside : ∀ a ∈ f.names rule, ∀ rel, t'.node (p ++ a :: rel) = f.node rule (a :: rel)
  beside : ∀ a, a ∉ f.names rule → ∀ rel, t'.node (p ++ a :: rel) = t.node (p ++ a :: rel)

omit [DecidableEq β] in
theorem Copied.skip {g : Listing ν γ} (h : Copied rule f p t t')
    (hc : f.Copyable rule → g.Copyable rule) (hn : g.names rule = f.names rule)
    (hq : ∀ q, g.node rule q = f.node rule q) : Copied rule g p t t' where
  copyable := hc h.copyable
  absent a ha := h.absent a (hn ▸ ha)
  inside a ha rel := by rw [h.inside a (hn ▸ ha), hq]
  beside a ha rel := h.beside a (hn ▸ ha) rel

/-- One entry was put into a directory, with what lies under it. -/
structure Placed (p : List ν) (a : ν) (content : List ν → Option (Node β)) (t t' : Tree ν β) :
    Prop where
  absent : t.node (p ++ [a]) = none
  here : ∀ rel, t'.node (p ++ a :: rel) = content rel
  other : ∀ b rel, b ≠ a → t'.node (p ++ b :: rel) = t.node (p ++ b :: rel)

omit [DecidableEq ν] [DecidableEq β] in
/-- The names of different entries lead to different paths. -/
theorem append_cons_ne {a b : ν} {rel rel' : List ν} (h : b ≠ a) : p ++ b :: rel ≠ p ++ a :: rel' :=
  fun heq => h (List.cons.inj (List.append_cancel_left heq)).1

theorem Placed.create {a : ν} {n : Node β} (h : t.create p a n = .ok t') :
    Placed p a (fun rel => if rel = [] then some n else none) t t' := by
  obtain ⟨_, habsent, hnode⟩ := Tree.create_ok h
  refine ⟨habsent, fun rel => ?_, fun b rel hb => ?_⟩
  · by_cases hrel : rel = []
    · rw [if_pos hrel, hrel, hnode, Function.update_self]
    · rw [if_neg hrel, hnode, Function.update_of_ne (by simpa using hrel)]
      exact node_below_absent habsent rel
  · rw [hnode, Function.update_of_ne (append_cons_ne hb)]

theorem Placed.fill {a : ν} {inner : Listing ν γ} {t₁ : Tree ν β}
    (hmkdir : t.mkdir p a = .ok t₁) (hgrown : TreeGrown (p ++ [a]) t₁ t')
    (hinner : Copied rule inner (p ++ [a]) t₁ t') :
    Placed p a (fun rel => if rel = [] then some .dir else inner.node rule rel) t t' := by
  have hmade : Placed p a (fun rel => if rel = [] then some .dir else none) t t₁ := .create hmkdir
  refine ⟨hmade.absent, fun rel => ?_, fun b rel hb => ?_⟩
  · cases rel with
    | nil => rw [if_pos rfl, hgrown.kept _ (by simp [hmade.here]), hmade.here, if_pos rfl]
    | cons c rel =>
      have happend : p ++ a :: c :: rel = p ++ [a] ++ c :: rel := by simp
      rw [if_neg (List.cons_ne_nil _ _)]
      by_cases hc : c ∈ inner.names rule
      · rw [happend]
        exact hinner.inside c hc rel
      · rw [happend, hinner.beside c hc, node_not_mem hc, ← happend, hmade.here,
          if_neg (List.cons_ne_nil _ _)]
  · rw [hgrown.below, hmade.other b rel hb]
    rintro ⟨c, rel', heq⟩
    rw [List.append_assoc] at heq
    exact append_cons_ne hb heq

omit [DecidableEq β] in
/-- An entry and the rest of its directory. -/
theorem Copied.cons {a : ν} {rest : Listing ν γ} {content : List ν → Option (Node β)}
    {t₁ : Tree ν β} (hplaced : Placed p a content t t₁) (hcontent : content [] ≠ none)
    (hrest : Copied rule rest p t₁ t') (hnames : f.names rule = a :: rest.names rule)
    (hc : a ∉ rest.names rule → f.Copyable rule) (hhere : ∀ rel, f.node rule (a :: rel) = content rel)
    (hother : ∀ b rel, b ≠ a → f.node rule (b :: rel) = rest.node rule (b :: rel)) :
    Copied rule f p t t' := by
  have hfresh : a ∉ rest.names rule := by
    intro ha
    have hnone := hrest.absent a ha
    rw [hplaced.here] at hnone
    exact hcontent hnone
  refine ⟨hc hfresh, fun b hb => ?_, fun b hb rel => ?_, fun b hb rel => ?_⟩
  · rw [hnames, List.mem_cons] at hb
    by_cases hba : b = a
    · rw [hba]
      exact hplaced.absent
    · rw [← hplaced.other b [] hba]
      exact hrest.absent b (hb.resolve_left hba)
  · rw [hnames, List.mem_cons] at hb
    by_cases hba : b = a
    · rw [hba, hrest.beside a hfresh, hplaced.here, hhere]
    · rw [hother b rel hba]
      exact hrest.inside b (hb.resolve_left hba) rel
  · rw [hnames, List.mem_cons, not_or] at hb
    rw [hrest.beside b hb.2, hplaced.other b rel hb.1]

theorem copy_ok (hp : t.node p = some .dir) (h : f.copy rule p t = (t', none)) :
    Copied rule f p t t' := by
  induction f generalizing p t t' with
  | done =>
    obtain ⟨rfl, _⟩ := Prod.mk.inj h
    exact ⟨trivial, by simp [names], by simp [names], fun _ _ _ => rfl⟩
  | barred => cases h
  | file a content rest ih =>
    rw [copy] at h
    split_ifs at h with hk
    · split at h
      · cases h
      · next c himage =>
        split at h
        · cases h
        · next t₁ hcreate =>
          have hp₁ : t₁.node p = some .dir := by
            rw [(TreeGrown.create hcreate).kept p (by simp [hp]), hp]
          have hrest : Copied rule rest p t₁ t' := ih hp₁ h
          apply Copied.cons (.create hcreate) (by simp) hrest
          · simp [names, hk]
          · exact fun hfresh => ⟨fun _ => ⟨⟨c, himage⟩, hfresh⟩, hrest.copyable⟩
          · simp [node, hk, himage, Except.toOption]
          · intro b rel hb
            rw [node, if_neg fun hab => hb hab.2.symm]
    · apply (ih hp h).skip
      · exact fun hc => ⟨fun hk' => absurd hk' hk, hc⟩
      · simp [names, hk]
      · intro q
        cases q with
        | nil => cases rest <;> rfl
        | cons b q => rw [node, if_neg fun hb => hk hb.1]
  | dir a inner rest ihinner ih =>
    rw [copy] at h
    split_ifs at h with hk
    · split at h
      · cases h
      · next t₁ hmkdir =>
        split at h
        · next t₂ hcopy =>
          have hgrown := copy_grown rule inner (p ++ [a]) t₁
          rw [hcopy] at hgrown
          have hmade := TreeGrown.create hmkdir
          have hinner : Copied rule inner (p ++ [a]) t₁ t₂ :=
            ihinner ((Placed.create hmkdir).here []) hcopy
          have hp₂ : t₂.node p = some .dir := by
            rw [(hmade.trans hgrown.of_child).kept p (by simp [hp]), hp]
          have hrest : Copied rule rest p t₂ t' := ih hp₂ h
          apply Copied.cons (.fill hmkdir hgrown hinner) (by simp) hrest
          · simp [names, hk]
          · exact fun hfresh => ⟨fun _ => ⟨hinner.copyable, hfresh⟩, hrest.copyable⟩
          · simp [node, hk]
          · intro b rel hb
            rw [node, if_neg fun hab => hb hab.2.symm]
        · cases h
    · apply (ih hp h).skip
      · exact fun hc => ⟨fun hk' => absurd hk' hk, hc⟩
      · simp [names, hk]
      · intro q
        cases q with
        | nil => cases rest <;> rfl
        | cons b q => rw [node, if_neg fun hb => hk hb.1]
  | link a rest ih | special a rest ih =>
    rw [copy] at h
    split_ifs at h with hk
    · cases h
    · apply (ih hp h).skip
      · exact fun hc => ⟨Bool.not_eq_true _ ▸ hk, hc⟩
      · simp [names, hk]
      · intro q
        cases q with
        | nil => cases rest <;> rfl
        | cons b q => rw [node]

omit [DecidableEq ν] [DecidableEq β] in
/-- The rest of a directory finds it as it was, but for the entry before. -/
theorem Placed.rest {a : ν} {rest : Listing ν γ} {content : List ν → Option (Node β)}
    (h : Placed p a content t t') (hfresh : a ∉ rest.names rule)
    (habsent : ∀ b ∈ rest.names rule, t.node (p ++ [b]) = none) :
    ∀ b ∈ rest.names rule, t'.node (p ++ [b]) = none := by
  intro b hb
  rw [h.other b [] (ne_of_mem_of_not_mem hb hfresh)]
  exact habsent b hb

/-- What can be copied is copied, into a directory without entries of these names. -/
theorem copy_complete (hp : t.node p = some .dir) (hc : f.Copyable rule)
    (habsent : ∀ a ∈ f.names rule, t.node (p ++ [a]) = none) :
    ∃ t', f.copy rule p t = (t', none) := by
  induction f generalizing p t with
  | done => exact ⟨t, rfl⟩
  | barred => exact hc.elim
  | file a content rest ih =>
    rw [copy]
    split_ifs with hk
    · obtain ⟨⟨⟨c, himage⟩, hfresh⟩, hrest⟩ := And.imp_left (fun h => h hk) hc
      simp only [names, hk, if_true, List.forall_mem_cons] at habsent
      obtain ⟨t₁, hcreate⟩ : ∃ t₁, t.create p a (.file c rule.mode 1) = .ok t₁ :=
        ⟨_, by rw [Tree.create, dif_pos hp, dif_pos habsent.1]⟩
      simp only [himage, hcreate]
      apply ih
      · rw [(TreeGrown.create hcreate).kept p (by simp [hp]), hp]
      · exact hrest
      · exact (Placed.create hcreate).rest hfresh habsent.2
    · exact ih hp hc.2 fun b hb => habsent b (by simpa [names, hk] using hb)
  | dir a inner rest ihinner ih =>
    rw [copy]
    split_ifs with hk
    · obtain ⟨⟨hinner, hfresh⟩, hrest⟩ := And.imp_left (fun h => h hk) hc
      simp only [names, hk, if_true, List.forall_mem_cons] at habsent
      obtain ⟨t₁, hmkdir⟩ : ∃ t₁, t.mkdir p a = .ok t₁ :=
        ⟨_, by rw [Tree.mkdir, Tree.create, dif_pos hp, dif_pos habsent.1]⟩
      have hmade : Placed p a _ t t₁ := .create hmkdir
      obtain ⟨t₂, hcopy⟩ : ∃ t₂, inner.copy rule (p ++ [a]) t₁ = (t₂, none) := by
        apply ihinner (hmade.here []) hinner
        intro b _
        simpa using hmade.here [b]
      have hgrown := copy_grown rule inner (p ++ [a]) t₁
      rw [hcopy] at hgrown
      have hfilled := (TreeGrown.create hmkdir).trans hgrown.of_child
      simp only [hmkdir, hcopy]
      apply ih
      · rw [hfilled.kept p (by simp [hp]), hp]
      · exact hrest
      · exact (Placed.fill hmkdir hgrown (copy_ok (hmade.here []) hcopy)).rest hfresh habsent.2
    · exact ih hp hc.2 fun b hb => habsent b (by simpa [names, hk] using hb)
  | link a rest ih | special a rest ih =>
    rw [copy, if_neg (by simp [hc.1])]
    exact ih hp hc.2 fun b hb => habsent b (by simpa [names, hc.1] using hb)

end Listing

section MakeDirs
variable [DecidableEq ν] [DecidableEq β] {base rest : List ν} {t t' : Tree ν β}

/-- Makes the directories of a path that are missing. -/
def makeDirs : List ν → List ν → Tree ν β → Tree ν β × Option FsErr
  | _, [], t => (t, none)
  | base, a :: rest, t =>
    match t.node (base ++ [a]) with
    | some .dir => makeDirs (base ++ [a]) rest t
    | some _ => (t, some .notDirectory)
    | none =>
      match t.mkdir base a with
      | .error e => (t, some e)
      | .ok t' => makeDirs (base ++ [a]) rest t'

/-- What making directories changes: some that were missing on the way are there. -/
structure DirsMade (target : List ν) (t t' : Tree ν β) : Prop where
  kept : ∀ q, t.node q ≠ none → t'.node q = t.node q
  new : ∀ q, t'.node q ≠ t.node q → q <+: target ∧ t'.node q = some .dir

omit [DecidableEq ν] [DecidableEq β] in
theorem DirsMade.refl (target : List ν) (t : Tree ν β) : DirsMade target t t :=
  ⟨fun _ _ => rfl, fun _ hq => absurd rfl hq⟩

omit [DecidableEq ν] [DecidableEq β] in
theorem DirsMade.trans {target : List ν} {t t₁ t' : Tree ν β} (h₁ : DirsMade target t t₁)
    (h₂ : DirsMade target t₁ t') : DirsMade target t t' where
  kept q hq := by rw [h₂.kept q (by rw [h₁.kept q hq]; exact hq), h₁.kept q hq]
  new q hq := by
    by_cases heq : t'.node q = t₁.node q
    · rw [heq] at hq ⊢
      exact h₁.new q hq
    · exact h₂.new q heq

omit [DecidableEq ν] [DecidableEq β] in
theorem not_below_of_prefix {p q : List ν} (h : q <+: p) : ¬ Below p q := by
  rintro ⟨a, rel, rfl⟩
  have hlength := h.length_le
  simp only [List.length_append, List.length_cons] at hlength
  omega

omit [DecidableEq ν] [DecidableEq β] in
/-- Making directories changes nothing below the last one. -/
theorem DirsMade.below {target q : List ν} (h : DirsMade target t t') (hq : Below target q) :
    t'.node q = t.node q := by
  by_contra hne
  exact not_below_of_prefix (h.new q hne).1 hq

theorem mkdir_made {a : ν} (rest : List ν) (h : t.mkdir base a = .ok t') :
    DirsMade (base ++ a :: rest) t t' ∧ t'.node (base ++ [a]) = some .dir := by
  obtain ⟨_, habsent, hnode⟩ := Tree.create_ok h
  have hself : t'.node (base ++ [a]) = some .dir := by rw [hnode, Function.update_self]
  refine ⟨⟨(TreeGrown.create h).kept, fun q hq => ?_⟩, hself⟩
  have hqa : q = base ++ [a] := by
    by_contra hne
    rw [hnode, Function.update_of_ne hne] at hq
    exact hq rfl
  rw [hqa]
  exact ⟨⟨rest, by simp⟩, hself⟩

theorem makeDirs_made (rest : List ν) (hb : t.node base = some .dir) :
    DirsMade (base ++ rest) t (makeDirs base rest t).1 := by
  induction rest generalizing base t with
  | nil => exact .refl _ t
  | cons a rest ih =>
    have happend : base ++ a :: rest = base ++ [a] ++ rest := by simp
    rw [makeDirs]
    split
    · next hdir =>
      rw [happend]
      exact ih hdir
    · exact .refl _ t
    · split
      · exact .refl _ t
      · next t₁ hmkdir =>
        obtain ⟨hmade, hdir⟩ := mkdir_made rest hmkdir
        refine hmade.trans ?_
        rw [happend]
        exact ih hdir

/-- The directories can be made exactly when nothing else is on the way. -/
theorem makeDirs_ok (rest : List ν) (hb : t.node base = some .dir) :
    (makeDirs base rest t).2 = none ↔
      ∀ q, q <+: rest → t.node (base ++ q) = none ∨ t.node (base ++ q) = some .dir := by
  induction rest generalizing base t with
  | nil =>
    refine ⟨fun _ q hq => .inr ?_, fun _ => rfl⟩
    rw [List.prefix_nil.mp hq, List.append_nil, hb]
  | cons a rest ih =>
    have hcons : ∀ t₁ : Tree ν β, (∀ q, t₁.node (base ++ a :: q) = none ∨ t₁.node (base ++ a :: q) =
        some .dir ↔ t.node (base ++ a :: q) = none ∨ t.node (base ++ a :: q) = some .dir) →
        ((∀ q, q <+: rest → t₁.node (base ++ [a] ++ q) = none ∨ t₁.node (base ++ [a] ++ q) =
          some .dir) ↔
        ∀ q, q <+: a :: rest → t.node (base ++ q) = none ∨ t.node (base ++ q) = some .dir) := by
      intro t₁ ht
      constructor
      · intro h q hq
        cases q with
        | nil => exact .inr (by rw [List.append_nil, hb])
        | cons b q =>
          obtain ⟨rfl, hrest⟩ := List.cons_prefix_cons.mp hq
          exact (ht q).mp (by simpa using h q hrest)
      · intro h q hq
        have := (ht q).mpr (h (a :: q) (List.cons_prefix_cons.mpr ⟨rfl, hq⟩))
        simpa using this
    rw [makeDirs]
    split
    · next hdir => exact (ih hdir).trans (hcons t fun _ => Iff.rfl)
    · next n hne hn =>
      refine ⟨fun h => (by cases h), fun h => ?_⟩
      rcases h [a] (List.cons_prefix_cons.mpr ⟨rfl, List.nil_prefix⟩) with hnone | hdir
      · rw [hn] at hnone
        cases hnone
      · rw [hn] at hdir
        exact absurd (Option.some.inj hdir) hne
    · next habsent =>
      obtain ⟨t₁, hmkdir⟩ : ∃ t₁, t.mkdir base a = .ok t₁ :=
        ⟨_, by rw [Tree.mkdir, Tree.create, dif_pos hb, dif_pos habsent]⟩
      rw [hmkdir]
      obtain ⟨_, _, hnode⟩ := Tree.create_ok hmkdir
      refine (ih (by rw [hnode, Function.update_self])).trans (hcons t₁ fun q => ?_)
      by_cases hq : q = []
      · rw [hq, hnode, Function.update_self, habsent]
        simp
      · rw [hnode, Function.update_of_ne (by simpa using hq)]

theorem makeDirs_dir (hb : t.node base = some .dir) (h : makeDirs base rest t = (t', none)) :
    t'.node (base ++ rest) = some .dir := by
  induction rest generalizing base t with
  | nil =>
    rw [← (Prod.mk.inj h).1, List.append_nil, hb]
  | cons a rest ih =>
    have happend : base ++ a :: rest = base ++ [a] ++ rest := by simp
    rw [makeDirs] at h
    rw [happend]
    split at h
    · next hdir => exact ih hdir h
    · cases h
    · split at h
      · cases h
      · next hmkdir => exact ih (mkdir_made rest hmkdir).2 h

end MakeDirs
end NyanyaAgent.FileTree
