import NyanyaAgent.ServiceLogs.Maintenance
import NyanyaAgent.System.Invariant

/-!
# Service logs are conserved

A run of the maintenance removes a raw segment only behind a verified archive with the same
bytes, removes an archive only when it is old and no raw segment of its month is left, and
reports exactly what it does.
-/
namespace NyanyaAgent.Safety
open NyanyaAgent.Schema NyanyaAgent.Relational NyanyaAgent.Operations NyanyaAgent.ServiceLogs
open NyanyaAgent.System

variable {env : Environment} {stamp : String → Option Instant} {now : Instant} {apply : Bool}
  {s s' : LogState} {m : Month} {name : String} {g : Segment} {a : Archive} {report : Report}
  {records : List Record} {e : Effect} {es es' : List Effect} {c : Performed}

/-- A copy of the segment is a member of the archive. -/
def CopyIn (a : Archive) (g : Segment) : Prop :=
  ∃ content ∈ a.content, (g.name, g.bytes) ∈ content.members

theorem verifyArchive_ok (h : verifyArchive env stamp a = .ok records) :
    ∃ content ∈ a.content, content.files = records ∧
      ∀ r ∈ records, ∃ x ∈ content.members, record env x.1 x.2 = r := by
  unfold verifyArchive at h
  split_ifs at h
  split at h
  · cases h
  · rename_i content hcontent
    split_ifs at h with hnames hmembers htotal hmanifest hlength hfiles
    obtain rfl := Except.ok.inj h
    push Not at hfiles
    exact ⟨content, hcontent, rfl, fun r hr => List.mem_map.mp (hfiles.2 r hr)⟩

/-- The bytes that a run compares: those of the segments and of the members of the archives. -/
def LogBytes (s : LogState) : Set Bytes :=
  {bytes | (∃ g ∈ s.segments.rows, g.bytes = bytes) ∨
    ∃ a ∈ s.archives.rows, ∃ content ∈ a.content, ∃ x ∈ content.members, x.2 = bytes}

/-- A listed record is that of identical bytes. -/
theorem copyIn_of_record (hdigests : Set.InjOn env.sha256 (LogBytes s))
    (hsegment : g ∈ s.segments.rows) (harchive : a ∈ s.archives.rows)
    (h : verifyArchive env stamp a = .ok records) (hg : digestFile env g ∈ records) : CopyIn a g := by
  obtain ⟨content, hcontent, _, hcopies⟩ := verifyArchive_ok h
  obtain ⟨x, hx, hrecord⟩ := hcopies _ hg
  unfold record digestFile at hrecord
  rw [record, Record.mk.injEq] at hrecord
  obtain ⟨hname, _, hbytes⟩ := hrecord
  refine ⟨content, hcontent, ?_⟩
  rw [← hname, ← hdigests (.inr ⟨a, harchive, content, hcontent, x, hx, rfl⟩)
    (.inl ⟨g, hsegment, rfl⟩) hbytes]
  exact hx

theorem collect_mem {α β : Type} {f : α → Except String β} {as : List α} {bs : List β}
    (h : collect f as = .ok bs) :
    (∀ b ∈ bs, ∃ a ∈ as, f a = .ok b) ∧ ∀ a ∈ as, ∃ b ∈ bs, f a = .ok b := by
  induction as generalizing bs with
  | nil =>
    unfold collect at h
    obtain rfl := Except.ok.inj h
    exact ⟨fun b hb => absurd hb List.not_mem_nil, fun a ha => absurd ha List.not_mem_nil⟩
  | cons a as ih =>
    unfold collect at h
    split at h
    · rename_i b rest hb hrest
      obtain rfl := Except.ok.inj h
      obtain ⟨hback, hforth⟩ := ih hrest
      refine ⟨fun x hx => ?_, fun x hx => ?_⟩
      · rcases List.mem_cons.mp hx with rfl | hx
        · exact ⟨a, List.mem_cons_self, hb⟩
        · obtain ⟨y, hy, hxy⟩ := hback x hx
          exact ⟨y, List.mem_cons_of_mem _ hy, hxy⟩
      · rcases List.mem_cons.mp hx with rfl | hx
        · exact ⟨b, List.mem_cons_self, hb⟩
        · obtain ⟨y, hy, hxy⟩ := hforth x hx
          exact ⟨y, List.mem_cons_of_mem _ hy, hxy⟩
    · cases h
    · cases h

/-- Older than thirty days by the instant in its name. -/
def OldSegment (stamp : String → Option Instant) (now : Instant) (name : String) : Prop :=
  ∃ t ∈ stamp name, t + 30 * dayMicros < now

/-- Why a plan retires a segment: its month is over, it is old, and its month's archive has a copy
of it, or there is no such archive and the month is recent enough to be archived first. -/
structure RetireReason (env : Environment) (stamp : String → Option Instant) (now : Instant)
    (s : LogState) (g : Segment) : Prop where
  old : OldSegment stamp now g.name
  month : ∃ m, monthOf stamp g.name = some m ∧ m < kstMonth now ∧
    ((∃ a, s.archives.get? m = some a ∧ CopyIn a g) ∨
      s.archives.get? m = none ∧ monthsBefore (kstMonth now) 3 ≤ m)

theorem mem_segmentsOf : g ∈ segmentsOf stamp s m ↔
    g ∈ s.segments.rows ∧ monthOf stamp g.name = some m := by
  unfold segmentsOf
  rw [List.mem_insertionSort, List.mem_filter, decide_eq_true_eq]

theorem planMonth_expire {plan : MonthPlan} (hdigests : Set.InjOn env.sha256 (LogBytes s))
    (h : planMonth env stamp now s m = .ok plan) (hname : name ∈ plan.expire) :
    ∃ g ∈ s.segments.rows, g.name = name ∧ RetireReason env stamp now s g := by
  have hsplit : ∀ {create : List (Month × List Record)} {paths : List Segment},
      name ∈ (splitByAge stamp now create paths).expire →
      ∃ g ∈ paths, g.name = name ∧ OldSegment stamp now g.name := by
    intro create paths hmem
    obtain ⟨g, hg, rfl⟩ := List.mem_map.mp hmem
    rw [List.mem_filter, decide_eq_true_eq] at hg
    exact ⟨g, hg.1, rfl, hg.2⟩
  unfold planMonth at h
  dsimp only at h
  split at h
  · obtain rfl := Except.ok.inj h
    cases hname
  rename_i hcurrent
  split at h
  · rename_i a harchive
    split at h
    · cases h
    · rename_i records hverified
      split_ifs at h with hcopies
      obtain rfl := Except.ok.inj h
      obtain ⟨g, hg, rfl, hold⟩ := hsplit hname
      have hmem := mem_segmentsOf.mp hg
      exact ⟨g, hmem.1, rfl, hold, m, hmem.2, Nat.lt_of_not_le hcurrent,
        .inl ⟨a, harchive, copyIn_of_record hdigests hmem.1 (Table.get?_eq_some.mp harchive).1 hverified
          (hcopies g hg)⟩⟩
  · rename_i harchive
    split_ifs at h with hfloor
    · obtain rfl := Except.ok.inj h
      obtain ⟨g, hg, rfl, hold⟩ := hsplit hname
      have hmem := mem_segmentsOf.mp hg
      exact ⟨g, hmem.1, rfl, hold, m, hmem.2, Nat.lt_of_not_le hcurrent, .inr ⟨harchive, hfloor⟩⟩
    · obtain rfl := Except.ok.inj h
      cases hname

theorem planMonth_create {plan : MonthPlan} {x : Month × List Record}
    (h : planMonth env stamp now s m = .ok plan) (hx : x ∈ plan.create) :
    x.1 < kstMonth now ∧ monthsBefore (kstMonth now) 3 ≤ x.1 ∧ s.archives.get? x.1 = none ∧
      x.2 = (segmentsOf stamp s x.1).map (digestFile env) := by
  unfold planMonth at h
  dsimp only at h
  split at h
  · obtain rfl := Except.ok.inj h
    cases hx
  rename_i hcurrent
  split at h
  · split at h
    · cases h
    · split_ifs at h
      obtain rfl := Except.ok.inj h
      cases hx
  · rename_i harchive
    split_ifs at h with hfloor
    · obtain rfl := Except.ok.inj h
      rw [splitByAge, List.mem_singleton] at hx
      subst hx
      exact ⟨Nat.lt_of_not_le hcurrent, hfloor, harchive, rfl⟩
    · obtain rfl := Except.ok.inj h
      cases hx

/-- What a plan is made of. -/
structure PlannedRun (env : Environment) (stamp : String → Option Instant) (now : Instant)
    (s : LogState) (report : Report) : Prop where
  create : ∀ x ∈ report.archivesCreate, x.1 < kstMonth now ∧
    monthsBefore (kstMonth now) 3 ≤ x.1 ∧ s.archives.get? x.1 = none ∧
    x.2 = (segmentsOf stamp s x.1).map (digestFile env)
  retire : ∀ name ∈ report.rawExpire,
    ∃ g ∈ s.segments.rows, g.name = name ∧ RetireReason env stamp now s g
  expire : ∀ m ∈ report.archivesExpire, m < monthsBefore (kstMonth now) 3 ∧
    ∀ g ∈ s.segments.rows, monthOf stamp g.name = some m → g.name ∈ report.rawExpire

theorem makePlan_planned (hdigests : Set.InjOn env.sha256 (LogBytes s))
    (h : makePlan env stamp now apply s = .ok report) :
    PlannedRun env stamp now s report := by
  unfold makePlan at h
  split_ifs at h
  · obtain rfl := Except.ok.inj h
    exact ⟨fun _ hx => absurd hx List.not_mem_nil, fun _ hx => absurd hx List.not_mem_nil,
      fun _ hx => absurd hx List.not_mem_nil⟩
  split at h
  · cases h
  split at h
  · cases h
  rename_i plans hplans
  obtain rfl := Except.ok.inj h
  refine ⟨fun x hx => ?_, fun name hname => ?_, fun m hm => ?_⟩
  · obtain ⟨plan, hplan, hx⟩ := List.mem_flatMap.mp hx
    obtain ⟨m, _, hmonth⟩ := (collect_mem hplans).1 plan hplan
    exact planMonth_create hmonth hx
  · obtain ⟨plan, hplan, hname⟩ := List.mem_flatMap.mp hname
    obtain ⟨m, _, hmonth⟩ := (collect_mem hplans).1 plan hplan
    exact planMonth_expire hdigests hmonth hname
  · rw [List.mem_filter, decide_eq_true_eq] at hm
    exact ⟨hm.2.1, fun g hg hmonth => hm.2.2 g (mem_segmentsOf.mpr ⟨hg, hmonth⟩)⟩

/-- A run whose archives are not all valid, or whose raw segments of a past month conflict with
its archive, has no plan. -/
theorem makePlan_sound (hdigests : Set.InjOn env.sha256 (LogBytes s)) (hpresent : s.present = true)
    (h : makePlan env stamp now apply s = .ok report) :
    (∀ a ∈ s.archives.rows, ∃ records, verifyArchive env stamp a = .ok records) ∧
      ∀ g ∈ s.segments.rows, ∃ m, monthOf stamp g.name = some m ∧
        ∀ a, s.archives.get? m = some a → m < kstMonth now → CopyIn a g := by
  unfold makePlan at h
  rw [if_neg (by rw [hpresent]; decide)] at h
  split_ifs at h with _ _ hstamp
  split at h
  · cases h
  rename_i verified hverified
  split at h
  · cases h
  rename_i plans hplans
  refine ⟨fun a ha => ?_, fun g hg => ?_⟩
  · obtain ⟨records, _, hrecords⟩ := (collect_mem hverified).2 a ha
    exact ⟨records, hrecords⟩
  · have hsome : ∃ t, stamp g.name = some t := by
      cases ht : stamp g.name with
      | none => exact absurd ⟨g, hg, ht⟩ hstamp
      | some t => exact ⟨t, rfl⟩
    obtain ⟨t, ht⟩ := hsome
    have hmonth : monthOf stamp g.name = some (kstMonth t) := by
      unfold monthOf
      rw [ht, Option.map_some]
    refine ⟨kstMonth t, hmonth, fun a ha hcurrent => ?_⟩
    have hmem : kstMonth t ∈ segmentMonths stamp s := by
      unfold segmentMonths
      rw [List.mem_insertionSort, List.mem_dedup, List.mem_filterMap]
      exact ⟨g, hg, hmonth⟩
    obtain ⟨plan, _, hplan⟩ := (collect_mem hplans).2 _ hmem
    unfold planMonth at hplan
    dsimp only at hplan
    rw [if_neg (Nat.not_le_of_lt hcurrent), ha] at hplan
    dsimp only at hplan
    split at hplan
    · cases hplan
    · rename_i records hrecords
      split_ifs at hplan with hcopies
      exact copyIn_of_record hdigests hg (Table.get?_eq_some.mp ha).1 hrecords
        (hcopies g (mem_segmentsOf.mpr ⟨hg, hmonth⟩))

theorem verifiedRecords_ok (h : verifiedRecords env stamp s m = .ok records) :
    ∃ a, s.archives.get? m = some a ∧ verifyArchive env stamp a = .ok records := by
  unfold verifiedRecords at h
  split at h
  · cases h
  · rename_i a ha
    exact ⟨a, ha, h⟩

theorem perform_publish (h : perform env stamp s (.publish m records) = .ok s') :
    s'.segments = s.segments ∧ s.archives.get? m = none ∧ ∃ a, s'.archives.get? m = some a ∧
      ∃ verified, verifyArchive env stamp a = .ok verified := by
  dsimp only [perform] at h
  split_ifs at h
  split at h
  · cases h
  rename_i members hmembers
  split at h
  · cases h
  rename_i verified hverified
  split at h
  · cases h
  rename_i t ht
  obtain rfl := Except.ok.inj h
  refine ⟨rfl, Table.get?_of_insert ht, newArchive m records members, ?_, verified, hverified⟩
  exact (Table.get?_insert ht m).trans (if_pos rfl)

theorem perform_pin (h : perform env stamp s (.pin m) = .ok s') : s' = s := by
  obtain ⟨_, _, rfl⟩ := map_eq_ok.mp h
  rfl

theorem perform_retire (h : perform env stamp s (.retire name) = .ok s') :
    ∃ g m a, s.segments.get? name = some g ∧ monthOf stamp name = some m ∧
      s.archives.get? m = some a ∧ (∃ records, verifyArchive env stamp a = .ok records ∧
        digestFile env g ∈ records) ∧
      s' = { s with segments := s.segments.delete fun r => r.name = name } := by
  dsimp only [perform] at h
  split at h
  · rename_i g m hg hm
    split at h
    · cases h
    · rename_i records hrecords
      split_ifs at h with hcopy
      obtain ⟨a, ha, hverified⟩ := verifiedRecords_ok hrecords
      exact ⟨g, m, a, hg, hm, ha, ⟨records, hverified, hcopy⟩, (Except.ok.inj h).symm⟩
  · cases h

theorem perform_expire (h : perform env stamp s (.expire m) = .ok s') :
    s' = { s with archives := s.archives.delete fun a => a.month = m } := by
  obtain ⟨_, _, rfl⟩ := map_eq_ok.mp h
  rfl

/-- A segment goes by its own retirement only, and none comes. -/
theorem perform_segments (h : perform env stamp s e = .ok s') :
    (∀ g ∈ s'.segments.rows, g ∈ s.segments.rows) ∧
      ∀ g ∈ s.segments.rows, e ≠ .retire g.name → g ∈ s'.segments.rows := by
  cases e with
  | publish m records =>
    obtain ⟨hsame, _⟩ := perform_publish h
    rw [hsame]
    exact ⟨fun g hg => hg, fun g hg _ => hg⟩
  | pin m =>
    obtain rfl := perform_pin h
    exact ⟨fun g hg => hg, fun g hg _ => hg⟩
  | retire name =>
    obtain ⟨_, _, _, _, _, _, _, rfl⟩ := perform_retire h
    refine ⟨fun g hg => (List.mem_filter.mp hg).1, fun g hg hne => List.mem_filter.mpr ⟨hg, ?_⟩⟩
    rw [decide_eq_true_eq]
    exact fun heq => hne (heq ▸ rfl)
  | expire m =>
    obtain rfl := perform_expire h
    exact ⟨fun g hg => hg, fun g hg _ => hg⟩

/-- The changes lead from one state of the directories to another. -/
inductive Chained : LogState → List Performed → LogState → Prop
  | nil (s : LogState) : Chained s [] s
  | cons {c : Performed} {cs : List Performed} {s' : LogState} (h : Chained c.after cs s') :
      Chained c.before (c :: cs) s'

theorem execute_cons (h : perform env stamp s e = .ok s') : execute env stamp (e :: es) s =
    (⟨e, s, s'⟩ :: (execute env stamp es s').1, (execute env stamp es s').2) := by
  conv_lhs => unfold execute
  rw [h]

theorem execute_chained (es : List Effect) (s : LogState) :
    Chained s (execute env stamp es s).1 (execute env stamp es s).2.2 := by
  induction es generalizing s with
  | nil => exact .nil s
  | cons e es ih =>
    unfold execute
    split
    · exact .nil s
    · rename_i s' _
      exact .cons (c := ⟨e, s, s'⟩) (ih s')

/-- A change is one of the operations, performed on segments that were there from the start. -/
theorem mem_execute (h : c ∈ (execute env stamp es s).1) :
    c.effect ∈ es ∧ perform env stamp c.before c.effect = .ok c.after ∧
      ∀ g ∈ c.before.segments.rows, g ∈ s.segments.rows := by
  induction es generalizing s with
  | nil => cases h
  | cons e es ih =>
    unfold execute at h
    split at h
    · cases h
    · rename_i s' hperform
      rcases List.mem_cons.mp h with rfl | h
      · exact ⟨List.mem_cons_self, hperform, fun g hg => hg⟩
      · obtain ⟨hmem, hok, hrows⟩ := ih h
        exact ⟨List.mem_cons_of_mem _ hmem, hok,
          fun g hg => (perform_segments hperform).1 g (hrows g hg)⟩

theorem execute_segments (es : List Effect) (s : LogState) :
    (∀ g ∈ (execute env stamp es s).2.2.segments.rows, g ∈ s.segments.rows) ∧
      ∀ g ∈ s.segments.rows, Effect.retire g.name ∉ es →
        g ∈ (execute env stamp es s).2.2.segments.rows := by
  induction es generalizing s with
  | nil => exact ⟨fun g hg => hg, fun g hg _ => hg⟩
  | cons e es ih =>
    unfold execute
    split
    · exact ⟨fun g hg => hg, fun g hg _ => hg⟩
    · rename_i s' hperform
      obtain ⟨hback, hforth⟩ := perform_segments hperform
      obtain ⟨hback', hforth'⟩ := ih s'
      refine ⟨fun g hg => hback g (hback' g hg), fun g hg hkept => ?_⟩
      rw [List.mem_cons, not_or] at hkept
      exact hforth' g (hforth g hg (Ne.symm hkept.1)) hkept.2

/-- A run of operations that did not raise performed them all. -/
theorem execute_all (h : (execute env stamp es s).2.1 = none) :
    (execute env stamp es s).1.map (·.effect) = es ∧
      ∀ g ∈ (execute env stamp es s).2.2.segments.rows, Effect.retire g.name ∉ es := by
  induction es generalizing s with
  | nil => exact ⟨rfl, fun g _ => List.not_mem_nil⟩
  | cons e es ih =>
    unfold execute at h ⊢
    split at h
    · cases h
    · rename_i s' hperform
      obtain ⟨hall, hgone⟩ := ih h
      refine ⟨by rw [List.map_cons, hall], fun g hg => ?_⟩
      rw [List.mem_cons, not_or]
      refine ⟨?_, hgone g hg⟩
      rintro rfl
      obtain ⟨_, _, _, _, _, _, _, hafter⟩ := perform_retire hperform
      have hkept := (execute_segments es s').1 g hg
      rw [hafter] at hkept
      have hne := (List.mem_filter.mp hkept).2
      rw [decide_eq_true_eq] at hne
      exact hne rfl

/-- A change by the second of two runs of operations, when none of the first is of its kind. -/
theorem mem_execute_append (h : c ∈ (execute env stamp (es ++ es') s).1) (hfirst : c.effect ∉ es) :
    (execute env stamp es s).2.1 = none ∧
      c ∈ (execute env stamp es' (execute env stamp es s).2.2).1 := by
  induction es generalizing s with
  | nil => exact ⟨rfl, h⟩
  | cons e es ih =>
    rw [List.mem_cons, not_or] at hfirst
    rw [List.cons_append] at h
    cases hperform : perform env stamp s e with
    | error message =>
      unfold execute at h
      rw [hperform] at h
      cases h
    | ok s' =>
      rw [execute_cons hperform] at h ⊢
      rcases List.mem_cons.mp h with rfl | h
      · exact absurd rfl hfirst.1
      · exact ih h hfirst.2

/-- What justifies a change, at the moment it is made. -/
def Justified (env : Environment) (stamp : String → Option Instant) (now : Instant)
    (c : Performed) : Prop :=
  match c.effect with
  | .publish m _ => m < kstMonth now ∧ monthsBefore (kstMonth now) 3 ≤ m ∧
      c.after.segments = c.before.segments ∧ c.before.archives.get? m = none ∧
      ∃ a, c.after.archives.get? m = some a ∧
        ∃ records, verifyArchive env stamp a = .ok records
  | .pin _ => c.after = c.before
  | .retire name => ∃ g m a, c.before.segments.get? name = some g ∧
      monthOf stamp name = some m ∧ m < kstMonth now ∧ OldSegment stamp now name ∧
      c.before.archives.get? m = some a ∧
      (∃ records, verifyArchive env stamp a = .ok records) ∧ CopyIn a g ∧
      c.after = { c.before with segments := c.before.segments.delete fun r => r.name = name }
  | .expire m => m < monthsBefore (kstMonth now) 3 ∧
      (∀ g ∈ c.before.segments.rows, monthOf stamp g.name ≠ some m) ∧
      c.after = { c.before with archives := c.before.archives.delete fun a => a.month = m }

theorem mem_effectsOf (h : e ∈ effectsOf stamp report) :
    (∃ x ∈ report.archivesCreate, e = .publish x.1 x.2) ∨ (∃ m, e = .pin m) ∨
      (∃ name ∈ report.rawExpire, e = .retire name) ∨ ∃ m ∈ report.archivesExpire, e = .expire m := by
  unfold effectsOf at h
  simp only [List.mem_append, List.mem_map] at h
  rcases h with ((⟨x, hx, rfl⟩ | ⟨m, _, rfl⟩) | ⟨name, hname, rfl⟩) | ⟨m, hm, rfl⟩
  · exact .inl ⟨x, hx, rfl⟩
  · exact .inr (.inl ⟨m, rfl⟩)
  · exact .inr (.inr (.inl ⟨name, hname, rfl⟩))
  · exact .inr (.inr (.inr ⟨m, hm, rfl⟩))

/-- No segment of an expired archive's month is left when the archive goes. -/
theorem expire_last (hplan : PlannedRun env stamp now s report) (hm : m ∈ report.archivesExpire)
    (h : c ∈ (execute env stamp (effectsOf stamp report) s).1) (he : c.effect = .expire m) :
    ∀ g ∈ c.before.segments.rows, monthOf stamp g.name ≠ some m := by
  have hfirst : c.effect ∉ (report.archivesCreate.map fun x => Effect.publish x.1 x.2) ++
      ((report.rawExpire.filterMap (monthOf stamp)).dedup.insertionSort (· ≤ ·)).map Effect.pin ++
        report.rawExpire.map Effect.retire := by
    rw [he]
    simp
  obtain ⟨hall, hlate⟩ := mem_execute_append h hfirst
  have hgone := (execute_all hall).2
  intro g hg hmonth
  have hthen := (mem_execute hlate).2.2 g hg
  have hstart := (execute_segments _ s).1 g hthen
  refine hgone g hthen ?_
  rw [List.mem_append, List.mem_map]
  exact .inr ⟨g.name, (hplan.expire m hm).2 g hstart hmonth, rfl⟩

theorem execute_justified (hplan : PlannedRun env stamp now s report)
    (hdigests : Set.InjOn env.sha256 (LogBytes c.before))
    (h : c ∈ (execute env stamp (effectsOf stamp report) s).1) : Justified env stamp now c := by
  obtain ⟨hmem, hperform, _⟩ := mem_execute h
  have hlast := fun m hm => expire_last (m := m) hplan hm h
  obtain ⟨effect, before, after⟩ := c
  dsimp only at hmem hperform hlast hdigests
  unfold Justified
  rcases mem_effectsOf hmem with ⟨x, hx, rfl⟩ | ⟨m, rfl⟩ | ⟨name, hname, rfl⟩ | ⟨m, hm, rfl⟩
  · obtain ⟨hcurrent, hfloor, _, _⟩ := hplan.create x hx
    obtain ⟨hsame, hnew, hverified⟩ := perform_publish hperform
    exact ⟨hcurrent, hfloor, hsame, hnew, hverified⟩
  · exact perform_pin hperform
  · obtain ⟨g₀, _, rfl, hold, m₀, hm₀, hcurrent, _⟩ := hplan.retire name hname
    obtain ⟨g, m, a, hg, hm, ha, ⟨records, hverified, hcopy⟩, hafter⟩ := perform_retire hperform
    obtain rfl := Option.some.inj (hm₀.symm.trans hm)
    exact ⟨g, _, a, hg, hm, hcurrent, hold, ha, ⟨records, hverified⟩,
      copyIn_of_record hdigests (Table.get?_eq_some.mp hg).1 (Table.get?_eq_some.mp ha).1 hverified hcopy, hafter⟩
  · exact ⟨(hplan.expire m hm).1, hlast m hm rfl, perform_expire hperform⟩

/-- The archives are valid, and the raw segments of past months agree with their archives. -/
def Consonant (env : Environment) (stamp : String → Option Instant) (now : Instant)
    (s : LogState) : Prop :=
  (∀ a ∈ s.archives.rows, ∃ records, verifyArchive env stamp a = .ok records) ∧
    ∀ g ∈ s.segments.rows, ∃ m, monthOf stamp g.name = some m ∧
      ∀ a, s.archives.get? m = some a → m < kstMonth now → CopyIn a g

/-- No two of the contents that a run compares have one digest. -/
def DigestsDiffer (env : Environment) (stamp : String → Option Instant) (now : Instant)
    (apply : Bool) (s : LogState) : Prop :=
  Set.InjOn env.sha256 (LogBytes s) ∧
    ∀ c ∈ (maintainServiceLogs env stamp now apply s).changes,
      Set.InjOn env.sha256 (LogBytes c.before)

/-- What a run does to the two directories, whatever they hold. -/
theorem service_logs_conserved (env : Environment) (stamp : String → Option Instant)
    (now : Instant) (apply : Bool) (s : LogState)
    (hdigests : DigestsDiffer env stamp now apply s) :
    let out := maintainServiceLogs env stamp now apply s
    Chained s out.changes out.state ∧
    (∀ c ∈ out.changes, Justified env stamp now c) ∧
    (∀ g ∈ s.segments.rows, g ∈ out.state.segments.rows ∨ RetireReason env stamp now s g) ∧
    (apply = true ∨ out.changes = [] ∧ out.state = s) ∧
    (s.present = false ∨ Consonant env stamp now s ∨
      out.changes = [] ∧ out.state = s ∧ ∃ e, out.answer = .error e) ∧
    ((∃ e, out.answer = .error e) ∨ ∃ report, out.answer = .ok report ∧
      report.dryRun = !apply ∧ (apply = false ∨
        out.changes.map (·.effect) = effectsOf stamp report)) := by
  intro out
  cases hplan : makePlan env stamp now apply s with
  | error e =>
    have hout : out = ⟨.error e, [], s⟩ := by
      simp only [out, maintainServiceLogs, hplan]
    rw [hout]
    exact ⟨.nil s, fun c hc => absurd hc List.not_mem_nil, fun g hg => .inl hg, .inr ⟨rfl, rfl⟩,
      .inr (.inr ⟨rfl, rfl, e, rfl⟩), .inl ⟨e, rfl⟩⟩
  | ok report =>
    have hplanned := makePlan_planned hdigests.1 hplan
    have hsound : s.present = false ∨ Consonant env stamp now s := by
      cases hpresent : s.present with
      | false => exact .inl rfl
      | true => exact .inr (makePlan_sound hdigests.1 hpresent hplan)
    have hdry : report.dryRun = !apply := by
      unfold makePlan at hplan
      split_ifs at hplan
      · rw [← Except.ok.inj hplan]
      split at hplan
      · cases hplan
      split at hplan
      · cases hplan
      rw [← Except.ok.inj hplan]
    cases happly : apply with
    | false =>
      subst happly
      have hout : out = ⟨.ok report, [], s⟩ := by
        simp only [out, maintainServiceLogs, hplan, Bool.false_eq_true, if_false]
      rw [hout]
      refine ⟨.nil s, fun c hc => absurd hc List.not_mem_nil, fun g hg => .inl hg, .inr ⟨rfl, rfl⟩,
        ?_, .inr ⟨report, rfl, hdry, .inl rfl⟩⟩
      exact hsound.imp_right .inl
    | true =>
      subst happly
      have hchanges : out.changes = (execute env stamp (effectsOf stamp report) s).1 ∧
          out.state = (execute env stamp (effectsOf stamp report) s).2.2 := by
        constructor
        all_goals simp only [out, maintainServiceLogs, hplan, if_true]
      have hraised : ∀ message, (execute env stamp (effectsOf stamp report) s).2.1 = some message →
          out.answer = .error message := by
        intro message hend
        simp only [out, maintainServiceLogs, hplan, if_true, hend]
      have hdone : (execute env stamp (effectsOf stamp report) s).2.1 = none →
          out.answer = .ok report := by
        intro hend
        simp only [out, maintainServiceLogs, hplan, if_true, hend]
      obtain ⟨hchanges, hstate⟩ := hchanges
      have hbefore : ∀ c ∈ (execute env stamp (effectsOf stamp report) s).1,
          Set.InjOn env.sha256 (LogBytes c.before) := by
        rw [← hchanges]
        exact hdigests.2
      rw [hchanges, hstate]
      refine ⟨execute_chained _ s, fun c hc => execute_justified hplanned (hbefore c hc) hc,
        fun g hg => ?_,
        .inl rfl, hsound.imp_right .inl, ?_⟩
      · by_cases hretired : Effect.retire g.name ∈ effectsOf stamp report
        · rcases mem_effectsOf hretired with ⟨_, _, h⟩ | ⟨_, h⟩ | ⟨name, hname, h⟩ | ⟨_, _, h⟩
          · cases h
          · cases h
          · cases h
            obtain ⟨g', hg', hsame, hexpirable⟩ := hplanned.retire _ hname
            have hrow := Table.mem_rows_iff.mp hg
            rw [← hsame, Table.mem_rows_iff.mp hg'] at hrow
            exact .inr (Option.some.inj hrow ▸ hexpirable)
          · cases h
        · exact .inl ((execute_segments _ s).2 g hg hretired)
      · cases hend : (execute env stamp (effectsOf stamp report) s).2.1 with
        | none => exact .inr ⟨report, hdone hend, hdry, .inr (execute_all hend).1⟩
        | some message => exact .inl ⟨message, hraised message hend⟩

/-- A segment of day 3 and an archive with its bytes. -/
def archivedSegment : LogState :=
  { segments := ⟨[{ name := "a", bytes := [1] }], List.nodup_singleton _⟩
    archives := ⟨[newArchive 101 [⟨"a", 1, [1]⟩] [("a", [1])]], List.nodup_singleton _⟩ }

theorem plain_digests_differ (stamp : String → Option Instant) (now : Instant) (apply : Bool)
    (s : LogState) : DigestsDiffer plainEnvironment stamp now apply s :=
  ⟨fun _ _ _ _ h => h, fun _ _ _ _ _ _ h => h⟩

/-- On day 70 it is retired. -/
theorem service_logs_conserved_plain :
    (maintainServiceLogs plainEnvironment (fun _ => some (3 * dayMicros)) (70 * dayMicros) true
      archivedSegment).changes.map (·.effect) = [.pin 101, .retire "a"] ∧
    ∀ c ∈ (maintainServiceLogs plainEnvironment (fun _ => some (3 * dayMicros)) (70 * dayMicros) true
        archivedSegment).changes,
      Justified plainEnvironment (fun _ => some (3 * dayMicros)) (70 * dayMicros) c :=
  ⟨by decide +kernel, (service_logs_conserved plainEnvironment _ _ true archivedSegment
    (plain_digests_differ _ _ _ _)).2.1⟩

/-- A segment of day 3 and an archive of the first month with other bytes under its name. -/
def currentConflict : LogState :=
  { segments := ⟨[{ name := "a", bytes := [1] }], List.nodup_singleton _⟩
    archives := ⟨[newArchive 101 [⟨"a", 1, [2]⟩] [("a", [2])]], List.nodup_singleton _⟩ }

/-- In the month the archive is of, the conflict is passed over. -/
theorem current_conflict_passed :
    (∃ g ∈ currentConflict.segments.rows, ∃ a, currentConflict.archives.get? 101 = some a ∧
      monthOf (fun _ => some (3 * dayMicros)) g.name = some 101 ∧
      ∀ content ∈ a.content, (g.name, g.bytes) ∉ content.members) ∧
    ¬ ∃ e, (maintainServiceLogs plainEnvironment (fun _ => some (3 * dayMicros)) (20 * dayMicros) true
      currentConflict).answer = .error e := by
  refine ⟨⟨{ name := "a", bytes := [1] }, List.mem_singleton_self _, _, rfl, by decide +kernel, ?_⟩, ?_⟩
  · rintro content hcontent
    cases hcontent
    decide
  · have hok : (maintainServiceLogs plainEnvironment (fun _ => some (3 * dayMicros)) (20 * dayMicros)
        true currentConflict).answer.isOk = true := by decide +kernel
    rintro ⟨e, he⟩
    rw [he] at hok
    cases hok

end NyanyaAgent.Safety
