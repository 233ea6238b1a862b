import NyanyaAgent.Drafts.Rounds
import NyanyaAgent.System.Invariant

/-!
# Merging is performing a delta

The accumulated changes of a draft stand for a tree, and `merge` acts on it as the
operations of the delta do, one after the other. No entry repeats an original file, so a
draft whose tree is the original one has no changes left.
-/
namespace NyanyaAgent.Safety
open NyanyaAgent.Schema NyanyaAgent.Relational NyanyaAgent.Operations NyanyaAgent.Plans
open NyanyaAgent.Drafts NyanyaAgent.FileTree NyanyaAgent.System

variable {env : Environment} {d : DraftId} {original : List (Path × SnapshotItem)}
  {combined next : List DraftChange} {name : Path} {delta : ProposedChange}

section Entries

theorem combinedGet_cons (c : DraftChange) (cs : List DraftChange) (p : Path) :
    combinedGet (c :: cs) p = if c.path = p then some c else combinedGet cs p := by
  by_cases h : c.path = p <;> simp [combinedGet, h]

theorem combinedGet_append (cs : List DraftChange) (c : DraftChange) (p : Path)
    (h : ∀ x ∈ cs, x.path ≠ c.path) :
    combinedGet (cs ++ [c]) p = if p = c.path then some c else combinedGet cs p := by
  unfold combinedGet
  rw [List.find?_append]
  by_cases hp : p = c.path
  · subst hp
    have hnone : cs.find? (fun x => decide (x.path = c.path)) = none := by
      rw [List.find?_eq_none]
      simpa using h
    simp [hnone]
  · have hc : ¬ c.path = p := fun e => hp e.symm
    simp [hp, hc]

theorem combinedGet_replace (cs : List DraftChange) (c : DraftChange) (p : Path)
    (h : ∃ x ∈ cs, x.path = c.path) :
    combinedGet (cs.map fun x => if x.path = c.path then c else x) p =
      if p = c.path then some c else combinedGet cs p := by
  induction cs with
  | nil =>
    obtain ⟨x, hx, _⟩ := h
    cases hx
  | cons x cs ih =>
    rw [List.map_cons, combinedGet_cons, combinedGet_cons]
    by_cases hx : x.path = c.path
    · by_cases hp : p = c.path
      · simp [hx, hp]
      · have hc : ¬ c.path = p := fun e => hp e.symm
        simp only [hx, if_true, hc, hp, if_false]
        clear ih h
        induction cs with
        | nil => rfl
        | cons y cs ih =>
          rw [List.map_cons, combinedGet_cons, combinedGet_cons]
          by_cases hy : y.path = c.path
          · simp [hy, hc, ih]
          · simp [hy, ih]
    · have hrest : ∃ y ∈ cs, y.path = c.path := by
        obtain ⟨y, hy, he⟩ := h
        rcases List.mem_cons.mp hy with rfl | hy
        · exact absurd he hx
        · exact ⟨y, hy, he⟩
      rw [if_neg hx, ih hrest]
      by_cases hp : p = c.path
      · subst hp
        simp [hx]
      · simp [hp]

theorem combinedGet_set (cs : List DraftChange) (c : DraftChange) (p : Path) :
    combinedGet (combinedSet cs c) p = if p = c.path then some c else combinedGet cs p := by
  unfold combinedSet
  by_cases h : ∃ x ∈ cs, x.path = c.path
  · rw [if_pos h]
    exact combinedGet_replace cs c p h
  · rw [if_neg h]
    exact combinedGet_append cs c p fun x hx he => h ⟨x, hx, he⟩

theorem combinedGet_pop (cs : List DraftChange) (n p : Path) :
    combinedGet (combinedPop cs n) p = if p = n then none else combinedGet cs p := by
  induction cs with
  | nil => simp [combinedPop, combinedGet]
  | cons x cs ih =>
    have hpop : combinedPop (x :: cs) n =
        if x.path = n then combinedPop cs n else x :: combinedPop cs n := by
      by_cases hx : x.path = n <;> simp [combinedPop, hx]
    rw [hpop, combinedGet_cons]
    by_cases hx : x.path = n
    · rw [if_pos hx, ih]
      by_cases hp : p = n
      · rw [if_pos hp, if_pos hp]
      · have hn : ¬ x.path = p := fun e => hp (e.symm.trans hx)
        rw [if_neg hp, if_neg hp, if_neg hn]
    · rw [if_neg hx, combinedGet_cons, ih]
      by_cases hp : p = n
      · subst hp
        rw [if_neg hx, if_pos rfl, if_pos rfl]
      · rw [if_neg hp, if_neg hp]

theorem pendingChanges_set (cs : List DraftChange) (c : DraftChange) :
    pendingChanges (combinedSet cs c) =
      Function.update (pendingChanges cs) c.path (some c.leaves) := by
  funext p
  unfold pendingChanges
  rw [combinedGet_set]
  by_cases h : p = c.path <;> simp [h]

theorem pendingChanges_pop (cs : List DraftChange) (n : Path) :
    pendingChanges (combinedPop cs n) = Function.update (pendingChanges cs) n none := by
  funext p
  unfold pendingChanges
  rw [combinedGet_pop]
  by_cases h : p = n <;> simp [h]

theorem pendingChanges_eq_none {cs : List DraftChange} {p : Path} :
    pendingChanges cs p = none ↔ combinedGet cs p = none := by
  simp [pendingChanges]

/-- Without a pending path there is no change. -/
theorem eq_nil_of_pending {cs : List DraftChange} (h : ∀ p, pendingChanges cs p = none) :
    cs = [] := by
  cases cs with
  | nil => rfl
  | cons c cs =>
    have hc := pendingChanges_eq_none.mp (h c.path)
    simp [combinedGet_cons] at hc

theorem pathsNodup_set {cs : List DraftChange} (c : DraftChange)
    (h : (cs.map DraftChange.path).Nodup) : ((combinedSet cs c).map DraftChange.path).Nodup := by
  unfold combinedSet
  split_ifs with hc
  · have hpaths : (cs.map fun x => if x.path = c.path then c else x).map DraftChange.path =
        cs.map DraftChange.path := by
      rw [List.map_map]
      apply List.map_congr_left
      intro x _
      by_cases hx : x.path = c.path <;> simp [hx]
    rwa [hpaths]
  · rw [List.map_append, List.nodup_append]
    refine ⟨h, by simp, ?_⟩
    intro a ha b hb
    obtain ⟨x, hx, rfl⟩ := List.mem_map.mp ha
    rw [List.map_singleton, List.mem_singleton] at hb
    exact fun e => hc ⟨x, hx, e.trans hb⟩

theorem pathsNodup_pop {cs : List DraftChange} (n : Path) (h : (cs.map DraftChange.path).Nodup) :
    ((combinedPop cs n).map DraftChange.path).Nodup :=
  h.sublist (List.filter_sublist.map DraftChange.path)

end Entries

section Merge

/-- What every list of accumulated changes keeps: one entry a path, none without effect. -/
structure Accumulated (original : List (Path × SnapshotItem)) (changes : List DraftChange) : Prop
    where
  effective : Effective (originalTree original) (pendingChanges changes)
  nodup : (changes.map DraftChange.path).Nodup

theorem Accumulated.set {c : DraftChange} (h : Accumulated original combined)
    (hc : c.leaves ≠ originalTree original c.path) :
    Accumulated original (combinedSet combined c) :=
  ⟨by rw [pendingChanges_set]; exact h.effective.assign hc, pathsNodup_set c h.nodup⟩

theorem Accumulated.pop (h : Accumulated original combined) (n : Path) :
    Accumulated original (combinedPop combined n) :=
  ⟨by rw [pendingChanges_pop]; exact h.effective.retract, pathsNodup_pop n h.nodup⟩

theorem effectiveTree_set (c : DraftChange) :
    effectiveTree original (combinedSet combined c) =
      Function.update (effectiveTree original combined) c.path c.leaves := by
  unfold effectiveTree
  rw [pendingChanges_set, overlay_assign]

theorem effectiveTree_pop (n : Path) :
    effectiveTree original (combinedPop combined n) =
      Function.update (effectiveTree original combined) n (originalTree original n) := by
  unfold effectiveTree
  rw [pendingChanges_pop, overlay_retract]

/-- A merged delta: what it does to the tree and to the entry of every path. -/
structure Merges (original : List (Path × SnapshotItem)) (combined next : List DraftChange)
    (name : Path) (left : Option Bytes) : Prop where
  tree : effectiveTree original next = Function.update (effectiveTree original combined) name left
  entries : ∀ p, p ≠ name → combinedGet next p = combinedGet combined p
  accumulated : Accumulated original next

theorem merges_set {c : DraftChange} (h : Accumulated original combined)
    (hc : c.leaves ≠ originalTree original c.path) :
    Merges original combined (combinedSet combined c) c.path c.leaves where
  tree := effectiveTree_set c
  entries p hp := by rw [combinedGet_set, if_neg hp]
  accumulated := h.set hc

theorem merges_pop (h : Accumulated original combined) (n : Path) :
    Merges original combined (combinedPop combined n) n (originalTree original n) where
  tree := effectiveTree_pop n
  entries p hp := by rw [combinedGet_pop, if_neg hp]
  accumulated := h.pop n

/-- A path outside the approved files is created, rewritten or dropped. -/
theorem merges_new {directory : Path} (h : Accumulated original combined)
    (hbase : originalTree original name = none)
    (hm : mergeNew directory combined name delta = .ok next) :
    Merges original combined next name (postimage delta.action delta.content) := by
  unfold mergeNew at hm
  split_ifs at hm with _ _ hdelete _
  · cases hm
    have hleft : postimage delta.action delta.content = originalTree original name := by
      rw [hbase, postimage, if_pos hdelete]
    rw [hleft]
    exact merges_pop h name
  · cases hm
    have hleft : postimage delta.action delta.content =
        DraftChange.leaves ⟨name, .create, delta.content, delta.reason⟩ := by
      rw [postimage, if_neg hdelete]
      rfl
    rw [hleft]
    refine merges_set (c := ⟨name, .create, delta.content, delta.reason⟩) h ?_
    rw [hbase]
    simp [DraftChange.leaves]

/-- An approved file is rewritten, deleted or restored. -/
theorem merges_original {item : SnapshotItem} (h : Accumulated original combined)
    (hbase : originalTree original name = some item.content)
    (hm : mergeOriginal combined name item delta = .ok next) :
    Merges original combined next name (postimage delta.action delta.content) := by
  unfold mergeOriginal at hm
  split_ifs at hm with hcreate _ hsame
  · cases hm
    have hleft : postimage delta.action delta.content = originalTree original name := by
      rw [hbase, postimage, hsame.1, hsame.2]
      rfl
    rw [hleft]
    exact merges_pop h name
  · cases hm
    have hleft : postimage delta.action delta.content =
        DraftChange.leaves ⟨name, delta.action, delta.content, delta.reason⟩ := rfl
    rw [hleft]
    refine merges_set (c := ⟨name, delta.action, delta.content, delta.reason⟩) h ?_
    rw [hbase]
    intro he
    cases haction : delta.action with
    | create => exact hcreate haction
    | modify =>
      simp only [DraftChange.leaves, haction, reduceCtorEq, if_false, Option.some.injEq] at he
      exact hsame ⟨haction, he⟩
    | delete => simp [DraftChange.leaves, haction] at he

theorem merges_delta {directory : Path} (h : Accumulated original combined)
    (hm : mergeDelta directory original combined name delta = .ok next) :
    Merges original combined next name (postimage delta.action delta.content) := by
  unfold mergeDelta at hm
  cases hitem : baselineItem original name with
  | none =>
    rw [hitem] at hm
    exact merges_new h (by rw [originalTree, hitem, Option.map_none]) hm
  | some item =>
    rw [hitem] at hm
    exact merges_original h (by rw [originalTree, hitem, Option.map_some]) hm

/-- A merged list of deltas. -/
structure MergesAll (env : Environment) (d : DraftId) (original : List (Path × SnapshotItem))
    (combined next : List DraftChange) (deltas : List ProposedChange) : Prop where
  tree : effectiveTree original next = performAll env d deltas (effectiveTree original combined)
  entries : ∀ p, (∀ delta ∈ deltas, deltaPath env d delta ≠ some p) →
    combinedGet next p = combinedGet combined p
  accumulated : Accumulated original next

theorem merges_deltas {deltas : List ProposedChange} {seen : List Path}
    (h : Accumulated original combined)
    (hm : mergeDeltas env (draftDirectory d) original deltas combined seen = .ok next) :
    MergesAll env d original combined next deltas := by
  induction deltas generalizing combined seen with
  | nil =>
    cases hm
    exact ⟨rfl, fun _ _ => rfl, h⟩
  | cons delta deltas ih =>
    rw [mergeDeltas_cons] at hm
    cases hrel : relative env delta.path with
    | error e =>
      rw [hrel] at hm
      cases hm
    | ok parsed =>
      have hpath : deltaPath env d delta =
          some (deltaName (draftDirectory d) parsed delta.action) := by rw [deltaPath, hrel]
      rw [hrel] at hm
      dsimp only [Except.bind] at hm
      split_ifs at hm
      cases hdelta : mergeDelta (draftDirectory d) original combined
          (deltaName (draftDirectory d) parsed delta.action) delta with
      | error e =>
        rw [hdelta] at hm
        cases hm
      | ok middle =>
        rw [hdelta] at hm
        have hone := merges_delta h hdelta
        have hrest := ih hone.accumulated hm
        refine ⟨?_, fun p hp => ?_, hrest.accumulated⟩
        · rw [hrest.tree, hone.tree]
          simp only [performAll, List.foldl_cons, perform, hpath]
        · rw [hrest.entries p fun x hx => hp x (List.mem_cons_of_mem _ hx)]
          refine hone.entries p fun he => hp delta List.mem_cons_self ?_
          rw [hpath, he]

theorem merges_merge {changes : List PlannedChange} {deltas : List ProposedChange}
    (h : Accumulated original (changes.map planned))
    (hm : merge env d original changes deltas = .ok combined) :
    MergesAll env d original (changes.map planned) combined deltas := by
  unfold merge at hm
  split_ifs at hm
  cases hd : mergeDeltas env (draftDirectory d) original deltas (changes.map planned) [] with
  | error e =>
    rw [hd] at hm
    cases hm
  | ok merged =>
    rw [hd] at hm
    dsimp only [bind, Except.bind] at hm
    split_ifs at hm
    cases hm
    exact merges_deltas h hd

end Merge

section Rounds
variable {rounds : List (List ProposedChange)} {changes : List PlannedChange}

theorem planned_recorded {combined : List DraftChange} {recorded : List PlannedChange}
    (h : List.Forall₂ Records combined recorded) :
    pendingChanges (recorded.map planned) = pendingChanges combined ∧
      (recorded.map planned).map DraftChange.path = combined.map DraftChange.path := by
  induction h with
  | nil => exact ⟨rfl, rfl⟩
  | @cons c r cs rs hc _ ih =>
    obtain ⟨hpath, haction, hcontent⟩ := hc
    refine ⟨?_, ?_⟩
    · funext p
      have hrest := congrFun ih.1 p
      unfold pendingChanges at hrest ⊢
      rw [List.map_cons, combinedGet_cons, combinedGet_cons]
      have hleaves : (planned r).leaves = c.leaves := by
        by_cases hdelete : c.action = .delete <;>
          simp [planned, DraftChange.leaves, postimage, haction, hcontent, hdelete]
      by_cases hp : c.path = p
      · simp [planned, hpath, hp, ← hleaves]
      · simp [planned, hpath, hp, hrest]
    · rw [List.map_cons, List.map_cons, List.map_cons, ih.2]
      simp [planned, hpath]

/-- Every round leaves an accumulated plan whose tree has all deltas performed in order. -/
theorem rounds_tree (h : FeedbackRounds env d original rounds changes) :
    Accumulated original (changes.map planned) ∧
      effectiveTree original (changes.map planned) =
        rounds.foldl (fun tree deltas => performAll env d deltas tree) (originalTree original) := by
  induction h with
  | opened =>
    refine ⟨⟨fun k v hv => ?_, List.nodup_nil⟩, ?_⟩
    · cases hv
    · funext p
      rfl
  | @feedback rounds changes recorded deltas combined _ merged plan ih =>
    obtain ⟨hacc, htree⟩ := ih
    have hall := merges_merge hacc merged
    obtain ⟨hpending, hpaths⟩ := planned_recorded plan
    refine ⟨⟨?_, ?_⟩, ?_⟩
    · rw [hpending]
      exact hall.accumulated.effective
    · rw [hpaths]
      exact hall.accumulated.nodup
    · rw [List.foldl_append, List.foldl_cons, List.foldl_nil, ← htree, ← hall.tree]
      unfold effectiveTree
      rw [hpending]

end Rounds

section Snapshot
variable {changes : List PlannedChange}

theorem baselineItem_cons (b : Path × SnapshotItem) (bs : List (Path × SnapshotItem)) (p : Path) :
    baselineItem (b :: bs) p = if b.1 = p then some b.2 else baselineItem bs p := by
  by_cases h : b.1 = p <;> simp [baselineItem, h]

theorem baselineItem_map_ne (values : List (Path × SnapshotItem)) {n p : Path} (item : SnapshotItem)
    (h : p ≠ n) : baselineItem (values.map fun b => if b.1 = n then (n, item) else b) p =
      baselineItem values p := by
  induction values with
  | nil => rfl
  | cons b values ih =>
    have hn : ¬ n = p := fun e => h e.symm
    rw [List.map_cons, baselineItem_cons, baselineItem_cons, ih]
    by_cases hb : b.1 = n <;> simp [hb, hn]

theorem baselineItem_set (values : List (Path × SnapshotItem)) (n : Path) (item : SnapshotItem)
    (p : Path) : baselineItem (snapshotSet values n item) p =
      if p = n then some item else baselineItem values p := by
  unfold snapshotSet
  split_ifs with hmem hp hp
  · subst hp
    induction values with
    | nil =>
      obtain ⟨b, hb, _⟩ := hmem
      cases hb
    | cons b values ih =>
      rw [List.map_cons, baselineItem_cons]
      by_cases hb : b.1 = p
      · simp [hb]
      · rw [if_neg hb, if_neg hb]
        obtain ⟨x, hx, he⟩ := hmem
        rcases List.mem_cons.mp hx with rfl | hx
        · exact absurd he hb
        · exact ih ⟨x, hx, he⟩
  · exact baselineItem_map_ne values item hp
  · subst hp
    have hnone : values.find? (fun b => decide (b.1 = p)) = none := by
      rw [List.find?_eq_none]
      intro b hb
      simpa using fun e => hmem ⟨b, hb, e⟩
    simp [baselineItem, List.find?_append, hnone]
  · have hn : ¬ n = p := fun e => hp e.symm
    simp [baselineItem, List.find?_append, hn]

/-- One change of a plan over the copied files. -/
theorem visible_applyChange {values values' : List (Path × SnapshotItem)} {c : PlannedChange}
    (h : applyChange env values c = .ok values') :
    visible values' = Function.update (visible values) c.path (planned c).leaves := by
  have hset : ∀ item, visible (snapshotSet values c.path item) =
      Function.update (visible values) c.path
        (if item.pendingDeletion then none else some item.content) := by
    intro item
    funext p
    unfold visible
    rw [baselineItem_set]
    by_cases hp : p = c.path <;> simp [hp]
  unfold applyChange at h
  split_ifs at h with hdelete
  · split at h
    · cases h
    · cases h
      rw [hset]
      simp [planned, DraftChange.leaves, hdelete]
  · cases h
    rw [hset]
    simp [planned, DraftChange.leaves, hdelete]

theorem visible_applyChanges {values values' : List (Path × SnapshotItem)}
    (h : applyChanges env changes values = .ok values') :
    visible values' =
      changes.foldl (fun tree c => Function.update tree c.path (planned c).leaves)
        (visible values) := by
  induction changes generalizing values with
  | nil =>
    cases h
    rfl
  | cons c changes ih =>
    rw [applyChanges] at h
    cases hc : applyChange env values c with
    | error e =>
      rw [hc] at h
      cases h
    | ok middle =>
      rw [hc] at h
      rw [ih h, visible_applyChange hc, List.foldl_cons]

/-- Changes of different paths, one after the other, are their overlay. -/
theorem foldl_changes_eq_overlay (base : Path → Option Bytes)
    (h : ((changes.map planned).map DraftChange.path).Nodup) :
    changes.foldl (fun tree c => Function.update tree c.path (planned c).leaves) base =
      overlay base (pendingChanges (changes.map planned)) := by
  induction changes generalizing base with
  | nil =>
    funext p
    rfl
  | cons c changes ih =>
    rw [List.map_cons, List.map_cons, List.nodup_cons] at h
    rw [List.foldl_cons, ih _ h.2]
    funext p
    unfold overlay pendingChanges
    rw [List.map_cons, combinedGet_cons]
    have hpath : (planned c).path = c.path := rfl
    by_cases hp : c.path = p
    · subst hp
      have hnone : combinedGet (changes.map planned) c.path = none := by
        rw [combinedGet, List.find?_eq_none]
        intro x hx
        have hne : x.path ≠ c.path := fun e => h.1 (List.mem_map.mpr ⟨x, hx, e⟩)
        simpa using hne
      simp [hpath, hnone]
    · have hne : p ≠ c.path := fun e => hp e.symm
      simp [hpath, hp, Function.update_of_ne hne]

/-- The working directory of a worker holds the effective tree. -/
theorem visible_currentSnapshot {values : List (Path × SnapshotItem)}
    (hcopied : ∀ b ∈ original, b.2.pendingDeletion = false)
    (hnodup : ((changes.map planned).map DraftChange.path).Nodup)
    (h : currentSnapshot env original changes = .ok values) :
    visible values = effectiveTree original (changes.map planned) := by
  unfold currentSnapshot at h
  cases ha : applyChanges env changes original with
  | error e =>
    rw [ha] at h
    cases h
  | ok out =>
    rw [ha] at h
    dsimp only [bind, Except.bind] at h
    split_ifs at h
    cases h
    have hbase : visible original = originalTree original := by
      funext p
      unfold visible originalTree
      cases hitem : baselineItem original p with
      | none => rfl
      | some item =>
        obtain ⟨b, hb, rfl⟩ := Option.map_eq_some_iff.mp hitem
        simp [hcopied b (List.mem_of_find?_eq_some hb)]
    rw [visible_applyChanges ha, foldl_changes_eq_overlay _ hnodup, hbase]
    rfl

end Snapshot

/-- A merged draft stands for the tree on which the deltas of all rounds were performed. -/
theorem draft_delta {rounds : List (List ProposedChange)} {changes : List PlannedChange}
    {deltas : List ProposedChange} (hrounds : FeedbackRounds env d original rounds changes)
    (hmerge : merge env d original changes deltas = .ok combined) :
    effectiveTree original combined =
        performAll env d deltas (effectiveTree original (changes.map planned)) ∧
      (∀ p, (∀ delta ∈ deltas, deltaPath env d delta ≠ some p) →
        combinedGet combined p = combinedGet (changes.map planned) p ∧
        effectiveTree original combined p = effectiveTree original (changes.map planned) p) ∧
      (∀ p, effectiveTree original combined p = originalTree original p →
        combinedGet combined p = none) ∧
      (effectiveTree original combined = originalTree original → combined = []) ∧
      effectiveTree original combined =
        (rounds ++ [deltas]).foldl (fun tree deltas => performAll env d deltas tree)
          (originalTree original) ∧
      ((∀ b ∈ original, b.2.pendingDeletion = false) → ∀ values,
        currentSnapshot env original changes = .ok values →
        visible values = effectiveTree original (changes.map planned)) := by
  obtain ⟨hacc, htree⟩ := rounds_tree hrounds
  have hall := merges_merge hacc hmerge
  have heffective := hall.accumulated.effective
  refine ⟨hall.tree, fun p hp => ?_, fun p hp => ?_, fun he => ?_, ?_, fun hcopied values hv => ?_⟩
  · have hentry := hall.entries p hp
    refine ⟨hentry, ?_⟩
    simp only [effectiveTree, overlay, pendingChanges, hentry]
  · exact pendingChanges_eq_none.mp (heffective.pending_none hp)
  · exact eq_nil_of_pending (heffective.overlay_eq_base.mp he)
  · rw [List.foldl_append, List.foldl_cons, List.foldl_nil, ← htree, hall.tree]
  · exact visible_currentSnapshot hcopied hacc.nodup hv

section Plain

/-- One approved file, deleted in a round, with a content that is not recorded, and restored in the
next. -/
def copiedFiles : List (Path × SnapshotItem) := [(["a"], ⟨[1], [1], false⟩)]

def deletingDelta : List ProposedChange := [⟨"a", .delete, [2], "drop"⟩]

def restoringDelta : List ProposedChange := [⟨"a", .modify, [1], "keep"⟩]

def deletedPlan : List PlannedChange := [{ path := ["a"], action := .delete, reason := "drop" }]

theorem deleted_rounds : FeedbackRounds plainEnvironment 6 copiedFiles [deletingDelta] deletedPlan := by
  have hmerge : merge plainEnvironment 6 copiedFiles [] deletingDelta =
      .ok [⟨["a"], .delete, [2], "drop"⟩] := by decide +kernel
  exact .feedback .opened hmerge (.cons ⟨rfl, rfl, rfl⟩ .nil)

theorem draft_delta_plain :
    merge plainEnvironment 6 copiedFiles deletedPlan restoringDelta = .ok [] ∧
      effectiveTree copiedFiles [] = [deletingDelta, restoringDelta].foldl
        (fun tree deltas => performAll plainEnvironment 6 deltas tree)
        (originalTree copiedFiles) := by
  have hmerge : merge plainEnvironment 6 copiedFiles deletedPlan restoringDelta = .ok [] := by
    decide +kernel
  exact ⟨hmerge, (draft_delta deleted_rounds hmerge).2.2.2.2.1⟩

end Plain
end NyanyaAgent.Safety
