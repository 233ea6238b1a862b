import NyanyaAgent.Drafts.Merge
import NyanyaAgent.System.Invariant

/-!
# The confinement of drafts

Round after round of feedback, a draft's plans change only the files its owner approved
and create files only below the draft's own directory.
-/
namespace NyanyaAgent.Safety
open NyanyaAgent.Schema NyanyaAgent.Relational NyanyaAgent.Operations NyanyaAgent.Plans
open NyanyaAgent.Drafts NyanyaAgent.Lifecycle NyanyaAgent.Invariants NyanyaAgent.System

variable {env : Environment} {d : DraftId} {original : List (Path × SnapshotItem)}
  {l l' : Ledger} {path : Path}

/-- A path part that names an entry of its directory and is not private. -/
structure SafePart (env : Environment) (part : String) : Prop where
  named : part ≠ "" ∧ part ≠ "." ∧ part ≠ ".."
  slash : '/' ∉ part.toList
  backslash : '\\' ∉ part.toList
  shared : env.privatePart part = false

/-- A relative path that stays below the root it is taken from. -/
def SafePath (env : Environment) (path : Path) : Prop :=
  path ≠ [] ∧ ∀ part ∈ path, SafePart env part

/-- The pieces of a list have its items, and not the one it was split at. -/
theorem mem_of_mem_splitOn {a c : Char} {xs piece : List Char} (h : piece ∈ xs.splitOn a)
    (hc : c ∈ piece) : c ∈ xs ∧ c ≠ a := by
  induction xs generalizing piece with
  | nil =>
    rw [List.splitOn_nil, List.mem_singleton] at h
    rw [h] at hc
    cases hc
  | cons x xs ih =>
    rw [List.splitOn_cons_eq_if_modifyHead] at h
    split_ifs at h with hx
    · rcases List.mem_cons.mp h with rfl | h
      · cases hc
      · exact ⟨List.mem_cons_of_mem _ (ih h hc).1, (ih h hc).2⟩
    · cases hs : xs.splitOn a with
      | nil => exact absurd hs (List.splitOn_ne_nil a xs)
      | cons first rest =>
        rw [hs] at h ih
        rw [List.modifyHead_cons, List.mem_cons] at h
        rcases h with rfl | h
        · rcases List.mem_cons.mp hc with rfl | hc
          · exact ⟨List.mem_cons_self, by simpa using hx⟩
          · have hin := ih List.mem_cons_self hc
            exact ⟨List.mem_cons_of_mem _ hin.1, hin.2⟩
        · have hin := ih (List.mem_cons_of_mem _ h) hc
          exact ⟨List.mem_cons_of_mem _ hin.1, hin.2⟩

theorem relative_eq {value : String} (h : relative env value = .ok path) :
    path = pathParts value := by
  unfold relative at h
  dsimp only at h
  split_ifs at h
  cases h
  rfl

theorem relative_safe {value : String} (h : relative env value = .ok path) : SafePath env path := by
  have heq := relative_eq h
  subst heq
  unfold relative at h
  dsimp only at h
  split_ifs at h with hbad
  push Not at hbad
  obtain ⟨_, hne, _, hup, hback, hprivate⟩ := hbad
  refine ⟨hne, fun part hpart => ?_⟩
  have hmem := List.mem_filter.mp hpart
  obtain ⟨piece, hpiece, rfl⟩ := List.mem_map.mp hmem.1
  have hnamed := hmem.2
  rw [decide_eq_true_eq] at hnamed
  refine ⟨⟨hnamed.1, hnamed.2, fun hd => hup (hd ▸ hpart)⟩, fun hs => ?_, fun hb => ?_, ?_⟩
  · rw [String.toList_ofList] at hs
    exact (mem_of_mem_splitOn hpiece hs).2 rfl
  · rw [String.toList_ofList] at hb
    exact hback (mem_of_mem_splitOn hpiece hb).1
  · simpa using hprivate _ hpart

/-- A safe path is what its text is read as. -/
theorem pathParts_pathText (h : SafePath env path) : pathParts (pathText path) = path := by
  have hsplit : (pathText path).toList.splitOn '/' = path.map String.toList := by
    rw [pathText, String.toList_intercalate]
    apply List.splitOn_intercalate
    · intro piece hpiece
      obtain ⟨part, hpart, rfl⟩ := List.mem_map.mp hpiece
      exact (h.2 part hpart).slash
    · simpa using h.1
  unfold pathParts
  rw [hsplit, List.map_map]
  have hself : path.map (String.ofList ∘ String.toList) = path := by
    refine (List.map_congr_left fun part _ => ?_).trans (List.map_id path)
    exact String.ofList_toList
  rw [hself, List.filter_eq_self]
  intro part hpart
  rw [decide_eq_true_eq]
  exact ⟨(h.2 part hpart).named.1, (h.2 part hpart).named.2.1⟩

section Directory
variable (hdir : ∀ part ∈ draftDirectory d, env.privatePart part = false)
include hdir

theorem draftDirectory_safe {part : String} (h : part ∈ draftDirectory d) : SafePart env part := by
  have hfolded := folded_draftDirectory h
  have hout : ∀ c, ¬ FoldedChar c → c ∉ part.toList := fun c hc hmem => hc (hfolded c hmem)
  refine ⟨⟨?_, ?_, ?_⟩, hout _ (by decide), hout _ (by decide), hdir part h⟩
  · rintro rfl
    simp only [draftDirectory, List.mem_cons, List.not_mem_nil, or_false] at h
    rcases h with h | h | h
    · exact absurd h (by decide)
    · exact absurd h (by decide)
    · have hlist := congrArg String.toList h
      rw [toList_draftName] at hlist
      cases hlist
  · rintro rfl
    exact hout '.' (by decide) (by decide)
  · rintro rfl
    exact hout '.' (by decide) (by decide)

theorem safe_append (h : SafePath env path) : SafePath env (draftDirectory d ++ path) := by
  refine ⟨by simp [draftDirectory], fun part hpart => ?_⟩
  rcases List.mem_append.mp hpart with hpart | hpart
  · exact draftDirectory_safe hdir hpart
  · exact h.2 part hpart

theorem deltaName_safe {action : ChangeAction} (h : SafePath env path) :
    SafePath env (deltaName (draftDirectory d) path action) := by
  unfold deltaName
  split_ifs
  · exact safe_append hdir h
  · exact h

end Directory

theorem below_append {directory : Path} (h : path ≠ []) : Below directory (directory ++ path) := by
  refine ⟨List.prefix_append _ _, fun he => h ?_⟩
  exact List.self_eq_append_right.mp he

theorem deltaName_below {directory : Path} (h : path ≠ []) :
    Below directory (deltaName directory path .create) := by
  unfold deltaName
  by_cases hb : Below directory path
  · rwa [if_neg fun hc => hc.2 hb]
  · rw [if_pos ⟨rfl, hb⟩]
    exact below_append h

theorem changeName_eq {draft : OperationDraft} {directory : Path} {action : ChangeAction} :
    changeName (some draft) directory path action = deltaName directory path action := by
  unfold changeName deltaName Below
  by_cases ha : action = .create
  · by_cases hb : directory <+: path ∧ directory ≠ path
    · simp [ha, hb]
    · simp [ha, hb]
  · simp [ha]

/-- A path a draft may propose to change. -/
def Confined (env : Environment) (d : DraftId) (path : Path) (action : ChangeAction) : Prop :=
  SafePath env path ∧ (action = .create → Below (draftDirectory d) path)

def AllConfined (env : Environment) (d : DraftId) (combined : List DraftChange) : Prop :=
  ∀ c ∈ combined, Confined env d c.path c.action

theorem AllConfined.pop {combined : List DraftChange} (h : AllConfined env d combined)
    (name : Path) : AllConfined env d (combinedPop combined name) :=
  fun c hc => h c (List.mem_filter.mp hc).1

theorem AllConfined.set {combined : List DraftChange} {change : DraftChange}
    (h : AllConfined env d combined) (hc : Confined env d change.path change.action) :
    AllConfined env d (combinedSet combined change) := by
  intro c hmem
  unfold combinedSet at hmem
  split_ifs at hmem
  · obtain ⟨c₀, hc₀, rfl⟩ := List.mem_map.mp hmem
    split_ifs
    · exact hc
    · exact h c₀ hc₀
  · rcases List.mem_append.mp hmem with hmem | hmem
    · exact h c hmem
    · rw [List.mem_singleton] at hmem
      exact hmem ▸ hc

theorem AllConfined.delta {combined combined' : List DraftChange} {name : Path}
    {delta : ProposedChange} (h : AllConfined env d combined) (hname : SafePath env name)
    (hm : mergeDelta (draftDirectory d) original combined name delta = .ok combined') :
    AllConfined env d combined' := by
  unfold mergeDelta at hm
  split at hm
  · unfold mergeNew at hm
    split_ifs at hm with hbelow _ _ _
    · cases hm
      exact h.pop name
    · cases hm
      exact h.set ⟨hname, fun _ => hbelow⟩
  · unfold mergeOriginal at hm
    split_ifs at hm with hcreate _ _
    · cases hm
      exact h.pop name
    · cases hm
      exact h.set ⟨hname, fun hc => absurd hc hcreate⟩

/-- So does the loop over a model's deltas. -/
theorem AllConfined.deltas (hdir : ∀ part ∈ draftDirectory d, env.privatePart part = false)
    {deltas : List ProposedChange} {combined combined' : List DraftChange} {seen : List Path}
    (h : AllConfined env d combined)
    (hm : mergeDeltas env (draftDirectory d) original deltas combined seen = .ok combined') :
    AllConfined env d combined' := by
  induction deltas generalizing combined seen with
  | nil =>
    cases hm
    exact h
  | cons delta deltas ih =>
    rw [mergeDeltas_cons] at hm
    cases hrel : relative env delta.path with
    | error e =>
      rw [hrel] at hm
      cases hm
    | ok parsed =>
      rw [hrel] at hm
      dsimp only [bind, Except.bind] at hm
      split_ifs at hm
      cases hdelta : mergeDelta (draftDirectory d) original combined
          (deltaName (draftDirectory d) parsed delta.action) delta with
      | error e =>
        rw [hdelta] at hm
        cases hm
      | ok next =>
        rw [hdelta] at hm
        exact ih (h.delta (deltaName_safe hdir (relative_safe hrel)) hdelta) hm

theorem merge_confined (hdir : ∀ part ∈ draftDirectory d, env.privatePart part = false)
    {changes : List PlannedChange} {deltas : List ProposedChange} {merged : List DraftChange}
    (h : ∀ c ∈ changes, Confined env d c.path c.action)
    (hm : merge env d original changes deltas = .ok merged) : AllConfined env d merged := by
  unfold merge at hm
  split_ifs at hm
  cases hdeltas : mergeDeltas env (draftDirectory d) original deltas (changes.map planned) [] with
  | error e =>
    rw [hdeltas] at hm
    cases hm
  | ok combined =>
    rw [hdeltas] at hm
    dsimp only [bind, Except.bind] at hm
    split_ifs at hm
    cases hm
    refine AllConfined.deltas hdir (fun c hc => ?_) hdeltas
    obtain ⟨c₀, hc₀, rfl⟩ := List.mem_map.mp hc
    exact h c₀ hc₀

/-- What `propose` records for one change of a draft. -/
structure RecordedFor (env : Environment) (d : DraftId) (original : List (Path × SnapshotItem))
    (item : ProposedChange) (change : PlannedChange) : Prop where
  named : ∃ parsed, relative env item.path = .ok parsed ∧
    change.path = deltaName (draftDirectory d) parsed item.action
  action : change.action = item.action
  created : change.action = .create → change.beforeHash = none
  reviewed : change.action ≠ .create → ∃ b, baselineItem original change.path = some b ∧
    change.beforeHash = some (env.sha256 b.content)

theorem prepareChange_recorded {t : Workspace} {draft : OperationDraft} {seen : List Path}
    {item : ProposedChange} {change : PlannedChange}
    (h : Tx.Ran (prepareChange env t (some draft) (draftDirectory d) original seen item)
      l change l') : RecordedFor env d original item change ∧ change.path ∉ seen := by
  unfold prepareChange at h
  simp only [Tx.ran_lift_bind, Tx.ran_require_bind, Tx.ran_pure] at h
  obtain ⟨parsed, hrel, _, hseen, before, hbefore, hcreate, hmodify, _, rfl, _⟩ := h
  cases hbefore
  refine ⟨⟨⟨parsed, hrel, changeName_eq⟩, rfl, fun ha => ?_, fun ha => ?_⟩, hseen⟩
  · rw [hcreate ha]
    rfl
  · obtain ⟨_, b, hb, _⟩ := hmodify ha
    rw [Option.mem_def] at hb
    exact ⟨b, hb, by rw [hb]; rfl⟩

theorem prepareChanges_recorded {t : Workspace} {draft : OperationDraft}
    {items : List ProposedChange} {seen : List Path} {total : ℕ} {changes : List PlannedChange}
    (h : Tx.Ran (prepareChanges env t (some draft) (draftDirectory d) original items seen total)
      l changes l') :
    List.Forall₂ (RecordedFor env d original) items changes ∧ (changes.map (·.path)).Nodup ∧
      ∀ c ∈ changes, c.path ∉ seen := by
  induction items generalizing seen total changes l l' with
  | nil =>
    obtain ⟨rfl, _⟩ := Tx.ran_pure.mp h
    exact ⟨.nil, .nil, by simp⟩
  | cons item items ih =>
    unfold prepareChanges at h
    rw [Tx.ran_bind] at h
    obtain ⟨change, l₁, hc, h⟩ := h
    rw [Tx.ran_require_bind, Tx.ran_bind] at h
    obtain ⟨_, more, l₂, hm, h⟩ := h
    obtain ⟨rfl, _⟩ := Tx.ran_pure.mp h
    obtain ⟨hrecorded, hseen⟩ := prepareChange_recorded hc
    obtain ⟨hrest, hnodup, hfresh⟩ := ih hm
    refine ⟨.cons hrecorded hrest, ?_, ?_⟩
    · rw [List.map_cons, List.nodup_cons]
      refine ⟨fun hmem => ?_, hnodup⟩
      obtain ⟨c, hc, hpath⟩ := List.mem_map.mp hmem
      exact hfresh c hc (by simp [hpath])
    · intro c hc
      rcases List.mem_cons.mp hc with rfl | hc
      · exact hseen
      · exact fun hmem => hfresh c hc (List.mem_append_left _ hmem)

/-- The plan a draft's proposal leaves is of the prepared changes. -/
theorem recordPlan_changes {k : TaskId} {owner root : String} {changes : List PlannedChange}
    {draft : OperationDraft} {record : ClaimRecord} {p : PlanId} {now : Time} {u : Unit}
    {plan : ChangePlan}
    (h : Tx.Ran (recordPlan env k owner root changes (some (draft, record)) p now) l u l')
    (hplan : l'.plans.get? p = some plan) :
    plan.changes = changes ∧ plan.planHash = planHash env changes := by
  unfold recordPlan insertPlan at h
  simp only [Tx.ran_select_bind, Tx.ran_demand_bind, Tx.ran_write_bind, Tx.ran_attempt_bind,
    Option.map_eq_some_iff] at h
  obtain ⟨_, _, _, ⟨plans, hins, rfl⟩, h⟩ := h
  rw [Tx.ran_bind] at h
  obtain ⟨_, l₁, hlink, h⟩ := h
  rw [Tx.ran_write] at h
  rw [h, Ledger.appendEvent_plans] at hplan
  have hrow := Table.get?_insert hins p
  rw [if_pos rfl] at hrow
  have hchain : Chain env False linkKinds { revokeOpenPlans k l with plans } l₁ := by
    refine linkPlanConn_chain ?_ hlink
    intro q hq
    cases hq
    exact ⟨_, hrow, rfl⟩
  have hkept := (Extends.chain hchain).plan p _ (skeleton_plan hrow)
  obtain ⟨r, hr, hcore⟩ := of_skeleton_plan hkept
  rw [hplan] at hr
  cases hr
  exact ⟨congrArg ChangePlan.changes hcore, congrArg ChangePlan.planHash hcore⟩

/-- One round of feedback on the draft: a model's deltas are merged with the changes of the
draft's plan, and what remains is proposed over the approved snapshot. -/
def Proposes (env : Environment) (d : DraftId) (original : List (Path × SnapshotItem))
    (changes : List PlannedChange) (merged : List DraftChange) (plan : ChangePlan) : Prop :=
  ∃ deltas, merge env d original changes deltas = .ok merged ∧
    ∃ (reg : Registry) (tree : String → Workspace) (k : TaskId) (owner root taskKind stamp : String)
      (draft : OperationDraft) (record : ClaimRecord) (p : PlanId) (now : Time) (l l' : Ledger),
      draft.id = d ∧ draft.snapshot = original ∧
        Tx.Ran (propose env reg tree k owner root (merged.map (·.proposed)) draft.snapshot taskKind
          stamp (some (draft, record)) p now) l () l' ∧ l'.plans.get? p = some plan

/-- The changes a draft proposes after any number of rounds. -/
inductive Rounds (env : Environment) (d : DraftId) (original : List (Path × SnapshotItem)) :
    List PlannedChange → Prop
  | opened : Rounds env d original []
  | emptied {changes : List PlannedChange} {deltas : List ProposedChange} :
      Rounds env d original changes → merge env d original changes deltas = .ok [] →
        Rounds env d original []
  | proposed {changes : List PlannedChange} {merged : List DraftChange} {plan : ChangePlan} :
      Rounds env d original changes → Proposes env d original changes merged plan →
        Rounds env d original plan.changes

/-- A plan within the approved files and the directory of the draft. -/
structure ConfinedPlan (env : Environment) (d : DraftId) (original : List (Path × SnapshotItem))
    (plan : ChangePlan) : Prop where
  bounded : 1 ≤ plan.changes.length ∧ plan.changes.length ≤ 40
  distinct : (plan.changes.map (·.path)).Nodup
  safe : ∀ c ∈ plan.changes, SafePath env c.path
  scope : ∀ c ∈ plan.changes,
    c.action = .create ∧ Below (draftDirectory d) c.path ∧ c.beforeHash = none ∨
    (c.action = .modify ∨ c.action = .delete) ∧ ∃ item, baselineItem original c.path = some item ∧
      c.beforeHash = some (env.sha256 item.content)
  hashed : plan.planHash = planHash env plan.changes

/-- The prepared changes of a proposal are what its plan holds. -/
theorem Proposes.prepared {changes : List PlannedChange} {merged : List DraftChange}
    {plan : ChangePlan} (h : Proposes env d original changes merged plan) :
    (1 ≤ merged.length ∧ merged.length ≤ 40) ∧
      List.Forall₂ (RecordedFor env d original) (merged.map (·.proposed)) plan.changes ∧
      (plan.changes.map (·.path)).Nodup ∧ plan.planHash = planHash env plan.changes := by
  obtain ⟨_, _, reg, tree, k, owner, root, taskKind, stamp, draft, record, p, now, l, l', rfl, rfl,
    hran, hplan⟩ := h
  unfold propose at hran
  simp only [Tx.ran_lift_bind, Tx.ran_require_bind, Option.map_some, planDirectory_draft] at hran
  obtain ⟨_, _, hlength, _, hran⟩ := hran
  rw [Tx.ran_bind] at hran
  obtain ⟨prepared, l₁, hprepare, hran⟩ := hran
  obtain ⟨hrecorded, hnodup, _⟩ := prepareChanges_recorded hprepare
  obtain ⟨hchanges, hhash⟩ := recordPlan_changes hran hplan
  rw [List.length_map] at hlength
  rw [hchanges]
  exact ⟨hlength, hrecorded, hnodup, hhash⟩

theorem Proposes.confinedPlan (hdir : ∀ part ∈ draftDirectory d, env.privatePart part = false)
    {changes : List PlannedChange} {merged : List DraftChange} {plan : ChangePlan}
    (h : Proposes env d original changes merged plan) : ConfinedPlan env d original plan := by
  obtain ⟨hlength, hrecorded, hnodup, hhash⟩ := h.prepared
  have hsame : plan.changes.length = merged.length := by
    rw [← hrecorded.length_eq, List.length_map]
  have heach : ∀ c ∈ plan.changes, ∃ item, RecordedFor env d original item c := by
    intro c hc
    obtain ⟨i, hi, rfl⟩ := List.getElem_of_mem hc
    exact ⟨_, hrecorded.get (hrecorded.length_eq ▸ hi) hi⟩
  refine ⟨hsame ▸ hlength, hnodup, fun c hc => ?_, fun c hc => ?_, hhash⟩
  · obtain ⟨item, ⟨parsed, hrel, hpath⟩, _, _, _⟩ := heach c hc
    rw [hpath]
    exact deltaName_safe hdir (relative_safe hrel)
  · obtain ⟨item, ⟨parsed, hrel, hpath⟩, haction, hcreated, hreviewed⟩ := heach c hc
    cases ha : c.action with
    | create =>
      refine .inl ⟨rfl, ?_, hcreated ha⟩
      rw [hpath, ← haction, ha]
      exact deltaName_below (relative_safe hrel).1
    | modify => exact .inr ⟨.inl rfl, hreviewed (by simp [ha])⟩
    | delete => exact .inr ⟨.inr rfl, hreviewed (by simp [ha])⟩

/-- Every change a draft proposes is confined, whatever the rounds before it were. -/
theorem Rounds.confined (hdir : ∀ part ∈ draftDirectory d, env.privatePart part = false)
    {changes : List PlannedChange} (h : Rounds env d original changes) :
    ∀ c ∈ changes, Confined env d c.path c.action := by
  cases h with
  | opened | emptied => simp
  | proposed _ hp =>
    have hplan := hp.confinedPlan hdir
    intro c hc
    refine ⟨hplan.safe c hc, fun ha => ?_⟩
    rcases hplan.scope c hc with ⟨_, hbelow, _⟩ | ⟨hother, _⟩
    · exact hbelow
    · rw [ha] at hother
      rcases hother with hother | hother <;> cases hother

/-- `propose` records a merged change under the path it was merged under. -/
theorem recorded_path {c : DraftChange} {change : PlannedChange}
    (hc : Confined env d c.path c.action) (h : RecordedFor env d original c.proposed change) :
    (change.path, change.action) = (c.path, c.action) := by
  obtain ⟨⟨parsed, hrel, hpath⟩, haction, _, _⟩ := h
  have hparsed : parsed = c.path := (relative_eq hrel).trans (pathParts_pathText hc.1)
  rw [hpath, haction, hparsed]
  unfold deltaName
  rw [if_neg fun hn => hn.2 (hc.2 hn.1)]
  rfl

/-- Whatever deltas a model sends in any number of rounds, an accepted plan of a draft only
changes approved files as they were approved and creates files below the draft's directory;
its paths are distinct and safe, and are those the merged working copy proposes. -/
theorem draft_confinement (env : Environment) (casefold : String → String)
    (hfold : KeepsFolded casefold) (d : DraftId) (original : List (Path × SnapshotItem))
    (changes : List PlannedChange)
    (hrounds : Rounds { env with privatePart := privatePathPart casefold } d original changes)
    (merged : List DraftChange) (plan : ChangePlan)
    (h : Proposes { env with privatePart := privatePathPart casefold } d original changes merged
      plan) :
    ConfinedPlan { env with privatePart := privatePathPart casefold } d original plan ∧
      (plan.changes.map fun c => (c.path, c.action)) = merged.map fun c => (c.path, c.action) := by
  have hdir : ∀ part ∈ draftDirectory d, privatePathPart casefold part = false :=
    fun _ hp => draftDirectory_not_private hfold hp
  refine ⟨h.confinedPlan hdir, ?_⟩
  obtain ⟨-, hrecorded, -, -⟩ := h.prepared
  obtain ⟨deltas, hmerge, -⟩ := h
  have hmerged := merge_confined hdir (hrounds.confined hdir) hmerge
  rw [List.forall₂_map_left_iff] at hrecorded
  clear hmerge
  generalize plan.changes = recorded at hrecorded ⊢
  induction hrecorded with
  | nil => rfl
  | @cons c change cs more hc _ ih =>
    rw [List.map_cons, List.map_cons]
    congr 1
    · exact recorded_path (hmerged c List.mem_cons_self) hc
    · exact ih fun x hx => hmerged x (List.mem_cons_of_mem _ hx)

section Plain

/-- Case folding of the letters without accents. -/
def plainFold (s : String) : String := String.ofList (s.toList.map Char.toLower)

theorem toLower_of_folded {c : Char} (h : FoldedChar c) : c.toLower = c := by
  have hA : 'A'.val.toNat = 65 := rfl
  have hZ : 'Z'.val.toNat = 90 := rfl
  have ha : 'a'.val.toNat = 97 := rfl
  have h9 : '9'.val.toNat = 57 := rfl
  unfold Char.toLower
  rcases h with h | h | rfl | rfl
  · have hlower : c.isLower = (decide (c.val ≥ 'a'.val) && decide (c.val ≤ 'z'.val)) := rfl
    rw [hlower] at h
    simp only [Bool.and_eq_true, decide_eq_true_eq, ge_iff_le, UInt32.le_iff_toNat_le] at h ⊢
    rw [dif_neg (by omega)]
  · simp only [Char.isDigit, Bool.and_eq_true, decide_eq_true_eq, ge_iff_le,
      UInt32.le_iff_toNat_le] at h ⊢
    rw [dif_neg (by omega)]
  · rfl
  · rfl

theorem plainFold_keeps : KeepsFolded plainFold := by
  intro s hs
  have hself : s.toList.map Char.toLower = s.toList :=
    (List.map_congr_left fun c hc => toLower_of_folded (hs c hc)).trans (List.map_id _)
  rw [plainFold, hself, String.ofList_toList]

def foldingEnvironment : Environment :=
  { plainEnvironment with privatePart := privatePathPart plainFold }

/-- The worker has opened a draft without files to read. -/
def readyLedger : Ledger :=
  (step plainEnvironment plainRunning
    (.command (.createDraft plainRegistry plainRecord [] 6))).ledger

def offeredMerge : Except Err (List DraftChange) :=
  merge foldingEnvironment 6 [] [] [⟨"a/./b", .create, [120], "new"⟩]

def offeredChanges : List DraftChange := offeredMerge.toOption.getD []

def offered (draft : OperationDraft) : Except Err Unit × Ledger :=
  propose foldingEnvironment plainRegistry plainWorld.tree 7 "owner" "/w"
    (offeredChanges.map (·.proposed)) draft.snapshot "code" "" (some (draft, plainRecord)) 5 0
    readyLedger

theorem offeredMerge_ok : offeredMerge = .ok offeredChanges := by
  have hok : offeredMerge.isOk = true := by decide +kernel
  unfold offeredChanges
  cases hm : offeredMerge with
  | error e =>
    rw [hm] at hok
    cases hok
  | ok merged => rfl

theorem draft_confinement_plain : ∃ plan : ChangePlan,
    ConfinedPlan foldingEnvironment 6 [] plan ∧
      (plan.changes.map fun c => (c.path, c.action)) =
        offeredChanges.map fun c => (c.path, c.action) := by
  have hfound : ∃ draft ∈ readyLedger.drafts.rows, draft.id = 6 ∧ draft.snapshot = [] ∧
      (offered draft).1.isOk = true ∧ ((offered draft).2.plans.get? 5).isSome = true := by
    decide +kernel
  obtain ⟨draft, _, hid, hsnapshot, hok, hsome⟩ := hfound
  obtain ⟨plan, hplan⟩ := Option.isSome_iff_exists.mp hsome
  have hran : offered draft = (.ok (), (offered draft).2) := by
    cases hr : (offered draft).1 with
    | error e =>
      rw [hr] at hok
      cases hok
    | ok u => exact Prod.ext hr rfl
  exact ⟨plan, draft_confinement plainEnvironment plainFold plainFold_keeps 6 [] [] .opened
    offeredChanges plan ⟨_, offeredMerge_ok, plainRegistry, plainWorld.tree, 7, "owner", "/w", "code",
      "", draft, plainRecord, 5, 0, readyLedger, _, hid, hsnapshot, hran, hplan⟩⟩

end Plain

end NyanyaAgent.Safety
