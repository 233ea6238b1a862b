import NyanyaAgent.Relational.Triples
import NyanyaAgent.Runs.Invariant
import NyanyaAgent.ServiceLogs.Stream

/-!
# Service output is not lost

Whatever the clock shows, however short the writes are and wherever a process dies: the closed
segments and the current file are the bytes that were written, in their order.
-/
namespace NyanyaAgent.Safety
open NyanyaAgent.Schema NyanyaAgent.Relational NyanyaAgent.ServiceLogs NyanyaAgent.Runs

variable {env : Answers} {segmentBytes n : ℕ} {d : StreamDir} {w : Bytes} {f : FileId}

/-- The bytes of a write. -/
def FileEvent.bytes : FileEvent → Bytes
  | .opened _ => []
  | .wrote _ _ bytes => bytes

/-- The bytes that an event adds to a file. -/
def FileEvent.bytesOf (f : FileId) : FileEvent → Bytes
  | .opened _ => []
  | .wrote g _ bytes => if g = f then bytes else []

/-- Every byte that was written, in order. -/
def writtenBytes (d : StreamDir) : Bytes := d.events.flatMap FileEvent.bytes

/-- The current file, unless it is a link of a closed segment. -/
def openBytes (d : StreamDir) : Bytes :=
  match d.current with
  | none => []
  | some f => if linksOf d f = [] then d.files f else []

theorem openBytes_unlinked (hcurrent : d.current = some f) (h : linksOf d f = []) :
    openBytes d = d.files f := by
  rw [openBytes, hcurrent]
  exact if_pos h

theorem openBytes_linked (hcurrent : d.current = some f) (h : linksOf d f ≠ []) :
    openBytes d = [] := by
  rw [openBytes, hcurrent]
  exact if_neg h

/-- The closed segments in the order of closing, and the current file. -/
def keptBytes (d : StreamDir) : Bytes := (d.closed.flatMap fun c => d.files c.file) ++ openBytes d

/-- The process writes to the current file, which is not closed, on its day. -/
structure WritesOn (d : StreamDir) (s : LogStream) (f : FileId) : Prop where
  current : d.current = some f
  unclosed : linksOf d f = []
  size : s.size = (d.files f).length
  day : ∀ day bytes, FileEvent.wrote f day bytes ∈ d.events → day = s.day

/-- No byte is lost or doubled; a file is within the limit, and has the bytes written behind its
opening on one day. -/
structure Segmented (env : Answers) (segmentBytes : ℕ) (d : StreamDir) : Prop where
  kept : keptBytes d = writtenBytes d
  limit : ∀ f, (d.files f).length ≤ segmentBytes
  bytes : ∀ f, d.files f = d.events.flatMap (FileEvent.bytesOf f)
  opened : ∀ pre f day bytes, pre ++ [FileEvent.wrote f day bytes] <+: d.events →
    FileEvent.opened f ∈ pre
  once : ∀ f, d.events.count (.opened f) ≤ 1
  day : ∀ f, ∃ day, ∀ day' bytes, FileEvent.wrote f day' bytes ∈ d.events → day' = day
  segmentFresh : ∀ c ∈ d.closed, c.file < d.fresh
  currentFresh : ∀ f, d.current = some f → f < d.fresh
  currentOpened : ∀ f, d.current = some f → FileEvent.opened f ∈ d.events
  openedFresh : ∀ f, FileEvent.opened f ∈ d.events → f < d.fresh
  named : ∀ c ∈ d.closed, ∃ k, k < d.calls ∧ c.uuid = env.uuid k
  linked : ∀ f, (linksOf d f).length ≤ 1
  writer : ∀ s, d.stream = some s →
    s.size ≤ segmentBytes ∧ ∀ f, s.fd = .on f → WritesOn d s f

/-- The process has no open file. -/
def NoneOpen (d : StreamDir) : Prop := ∀ s f, d.stream = some s → s.fd ≠ .on f

theorem Segmented.openedOf (h : Segmented env segmentBytes d) {day : ℕ} {bytes : Bytes}
    (hwrote : FileEvent.wrote f day bytes ∈ d.events) : FileEvent.opened f ∈ d.events := by
  obtain ⟨pre, post, hevents⟩ := List.append_of_mem hwrote
  have hprefix : pre ++ [FileEvent.wrote f day bytes] <+: d.events := by
    rw [hevents]
    exact ⟨post, by simp⟩
  rw [hevents]
  exact List.mem_append_left _ (h.opened _ _ _ _ hprefix)

/-- A file that is not there yet has no bytes. -/
theorem Segmented.fresh_unwritten (h : Segmented env segmentBytes d) {day : ℕ} {bytes : Bytes} :
    FileEvent.wrote d.fresh day bytes ∉ d.events :=
  fun hwrote => absurd (h.openedFresh _ (h.openedOf hwrote)) (Nat.lt_irrefl _)

theorem bytesOf_eq_nil {events : List FileEvent}
    (h : ∀ day bytes, FileEvent.wrote f day bytes ∉ events) :
    events.flatMap (FileEvent.bytesOf f) = [] := by
  rw [List.flatMap_eq_nil_iff]
  intro e he
  cases e with
  | opened g => rfl
  | wrote g day bytes =>
    rw [FileEvent.bytesOf, if_neg]
    rintro rfl
    exact h day bytes he

theorem Segmented.files_fresh (h : Segmented env segmentBytes d) : d.files d.fresh = [] := by
  rw [h.bytes]
  exact bytesOf_eq_nil fun _ _ => h.fresh_unwritten

/-- Later calls and the clock leave the files as they are. -/
theorem Segmented.outside (h : Segmented env segmentBytes d) {calls : ℕ} (hcalls : d.calls ≤ calls)
    (reading : ℕ) : Segmented env segmentBytes { d with calls := calls, reading := reading } :=
  { h with
    named := fun c hc => (h.named c hc).imp fun _ hk => ⟨hk.1.trans_le hcalls, hk.2⟩
    writer := fun s hs => ⟨(h.writer s hs).1, fun f hf =>
      have hon := (h.writer s hs).2 f hf
      ⟨hon.current, hon.unclosed, hon.size, hon.day⟩⟩ }

theorem Segmented.idle (h : Segmented env segmentBytes d) (stream : Option LogStream)
    (hsize : ∀ s, stream = some s → s.size ≤ segmentBytes ∧ ∀ f, s.fd ≠ .on f) :
    Segmented env segmentBytes { d with stream := stream } :=
  { h with
    writer := fun s hs => ⟨(hsize s hs).1, fun f hf => absurd hf ((hsize s hs).2 f)⟩ }

/-- The link of a closed segment takes the place of the current file. -/
theorem Segmented.link (h : Segmented env segmentBytes d) (hidle : NoneOpen d)
    {segment : ClosedSegment} (hcurrent : d.current = some segment.file)
    (hnone : linksOf d segment.file = []) (hnamed : ∃ k, k < d.calls ∧ segment.uuid = env.uuid k) :
    Segmented env segmentBytes { d with closed := d.closed ++ [segment] } :=
  { h with
    kept := by
      have hsome : linksOf { d with closed := d.closed ++ [segment] } segment.file ≠ [] := by
        simp [linksOf]
      have hopen := openBytes_linked (d := { d with closed := d.closed ++ [segment] }) hcurrent hsome
      have hkept := h.kept
      rw [keptBytes, openBytes_unlinked hcurrent hnone] at hkept
      rw [keptBytes, hopen, List.append_nil, List.flatMap_append, List.flatMap_singleton]
      exact hkept
    segmentFresh := by
      intro c hc
      rcases List.mem_append.mp hc with hc | hc
      · exact h.segmentFresh c hc
      · rw [List.mem_singleton.mp hc]
        exact h.currentFresh _ hcurrent
    named := by
      intro c hc
      rcases List.mem_append.mp hc with hc | hc
      · exact h.named c hc
      · rwa [List.mem_singleton.mp hc]
    linked := by
      intro f
      by_cases hf : segment.file = f
      · subst hf
        rw [linksOf, List.filter_append, ← linksOf, hnone]
        exact List.length_filter_le _ _
      · have hle := h.linked f
        rwa [linksOf, List.filter_append, List.filter_singleton, decide_eq_false hf,
          cond_false, List.append_nil]
    writer := fun s hs => ⟨(h.writer s hs).1, fun f hf => absurd hf (hidle s f hs)⟩ }

/-- The current file goes when a segment keeps its bytes, or it has none. -/
theorem Segmented.unlink (h : Segmented env segmentBytes d) (hidle : NoneOpen d)
    (hcurrent : d.current = some f) (hsafe : linksOf d f ≠ [] ∨ d.files f = []) :
    Segmented env segmentBytes { d with current := none } :=
  { h with
    kept := by
      have hopen : openBytes d = [] := by
        by_cases hnone : linksOf d f = []
        · rw [openBytes_unlinked hcurrent hnone]
          exact hsafe.resolve_left fun hsome => hsome hnone
        · exact openBytes_linked hcurrent hnone
      have hkept := h.kept
      rwa [keptBytes, hopen] at hkept
    currentFresh := fun g hg => by cases hg
    currentOpened := fun g hg => by cases hg
    writer := fun s hs => ⟨(h.writer s hs).1, fun f hf => absurd hf (hidle s f hs)⟩ }

theorem mem_snoc_opened {events : List FileEvent} {day : ℕ} {bytes : Bytes} {g : FileId} :
    FileEvent.wrote f day bytes ∈ events ++ [.opened g] ↔
      FileEvent.wrote f day bytes ∈ events := by
  simp

theorem Segmented.create (h : Segmented env segmentBytes d) (hidle : NoneOpen d)
    (hcurrent : d.current = none) :
    Segmented env segmentBytes { d with
      current := some d.fresh, files := Function.update d.files d.fresh []
      fresh := d.fresh + 1, events := d.events ++ [.opened d.fresh] } := by
  have hfiles : Function.update d.files d.fresh [] = d.files := by
    rw [Function.update_eq_self_iff, h.files_fresh]
  have hunclosed : linksOf d d.fresh = [] := by
    rw [linksOf, List.filter_eq_nil_iff]
    intro c hc
    have hlt := h.segmentFresh c hc
    rw [decide_eq_true_eq]
    exact Nat.ne_of_lt hlt
  rw [hfiles]
  constructor
  · have hkept := h.kept
    rw [keptBytes, openBytes, hcurrent] at hkept
    have hnew : openBytes { d with
        current := some d.fresh, files := d.files, fresh := d.fresh + 1
        events := d.events ++ [.opened d.fresh] } = [] := by
      rw [openBytes]
      dsimp only
      split_ifs
      · exact h.files_fresh
      · rfl
    rw [keptBytes, hnew, writtenBytes, List.flatMap_append]
    simpa [FileEvent.bytes, writtenBytes] using hkept
  · exact h.limit
  · intro f
    rw [List.flatMap_append, ← h.bytes]
    simp [FileEvent.bytesOf]
  · intro pre f day bytes hpre
    rcases List.prefix_concat_iff.mp hpre with heq | hpre
    · have hlast := (List.append_inj' heq rfl).2
      cases hlast
    · exact h.opened _ _ _ _ hpre
  · intro f
    rw [List.count_append]
    by_cases hf : f = d.fresh
    · subst hf
      have hzero : d.events.count (.opened d.fresh) = 0 := List.count_eq_zero.mpr fun hopened =>
        absurd (h.openedFresh _ hopened) (Nat.lt_irrefl _)
      rw [hzero]
      simp
    · have hne : ¬ d.fresh = f := fun heq => hf heq.symm
      simpa [List.count_singleton, hne] using h.once f
  · intro f
    obtain ⟨day, hday⟩ := h.day f
    exact ⟨day, fun day' bytes hwrote => hday day' bytes (mem_snoc_opened.mp hwrote)⟩
  · exact fun c hc => Nat.lt_succ_of_lt (h.segmentFresh c hc)
  · intro f hf
    cases hf
    exact Nat.lt_succ_self _
  · intro f hf
    cases hf
    exact List.mem_append_right _ List.mem_cons_self
  · intro f hf
    rcases List.mem_append.mp hf with hf | hf
    · exact Nat.lt_succ_of_lt (h.openedFresh f hf)
    · cases List.mem_singleton.mp hf
      exact Nat.lt_succ_self _
  · exact h.named
  · exact h.linked
  · exact fun s hs => ⟨(h.writer s hs).1, fun f hf => absurd hf (hidle s f hs)⟩

/-- A write to the file that is open. -/
theorem Segmented.wrote (h : Segmented env segmentBytes d) {s : LogStream} {portion : Bytes}
    (hstream : d.stream = some s) (hfd : s.fd = .on f) (hday : s.day = d.reading)
    (hroom : s.size + portion.length ≤ segmentBytes) :
    Segmented env segmentBytes { d with
      files := Function.update d.files f (d.files f ++ portion)
      events := d.events ++ [.wrote f d.reading portion]
      stream := some { s with size := s.size + portion.length } } := by
  have hon := (h.writer s hstream).2 f hfd
  have hsegments : ∀ c ∈ d.closed, c.file ≠ f := by
    intro c hc heq
    have hmem : c ∈ linksOf d f := List.mem_filter.mpr ⟨hc, decide_eq_true heq⟩
    rw [hon.unclosed] at hmem
    cases hmem
  have hclosed : (d.closed.flatMap fun c =>
      Function.update d.files f (d.files f ++ portion) c.file) =
      d.closed.flatMap fun c => d.files c.file := by
    refine List.flatMap_congr fun c hc => ?_
    rw [Function.update_of_ne (hsegments c hc)]
  constructor
  · have hkept := h.kept
    rw [keptBytes, openBytes_unlinked hon.current hon.unclosed] at hkept
    have hopen := openBytes_unlinked (d := { d with
      files := Function.update d.files f (d.files f ++ portion)
      events := d.events ++ [.wrote f d.reading portion]
      stream := some { s with size := s.size + portion.length } }) hon.current hon.unclosed
    rw [keptBytes, hopen]
    dsimp only
    rw [hclosed, Function.update_self, ← List.append_assoc, hkept, writtenBytes, writtenBytes,
      List.flatMap_append, List.flatMap_singleton]
    rfl
  · intro g
    by_cases hg : g = f
    · subst hg
      have hsize := hon.size
      simp only [Function.update_self, List.length_append]
      omega
    · simp only [Function.update_of_ne hg]
      exact h.limit g
  · intro g
    rw [List.flatMap_append, ← h.bytes, List.flatMap_singleton, FileEvent.bytesOf]
    by_cases hg : g = f
    · subst hg
      simp
    · have hne : ¬ f = g := fun heq => hg heq.symm
      simp [Function.update_of_ne hg, hne]
  · intro pre g day bytes hpre
    rcases List.prefix_concat_iff.mp hpre with heq | hpre
    · obtain ⟨rfl, hlast⟩ := List.append_inj' heq rfl
      cases hlast
      exact h.currentOpened _ hon.current
    · exact h.opened _ _ _ _ hpre
  · intro g
    rw [List.count_append]
    simpa using h.once g
  · intro g
    obtain ⟨day, hg⟩ := h.day g
    by_cases hgf : g = f
    · subst hgf
      refine ⟨s.day, fun day' bytes hwrote => ?_⟩
      rcases List.mem_append.mp hwrote with hwrote | hwrote
      · exact hon.day day' bytes hwrote
      · cases List.mem_singleton.mp hwrote
        exact hday.symm
    · refine ⟨day, fun day' bytes hwrote => ?_⟩
      rcases List.mem_append.mp hwrote with hwrote | hwrote
      · exact hg day' bytes hwrote
      · cases List.mem_singleton.mp hwrote
        exact absurd rfl hgf
  · exact h.segmentFresh
  · exact h.currentFresh
  · exact fun g hg => List.mem_append_left _ (h.currentOpened g hg)
  · intro g hg
    rcases List.mem_append.mp hg with hg | hg
    · exact h.openedFresh g hg
    · cases List.mem_singleton.mp hg
  · exact h.named
  · exact h.linked
  · intro s' hs'
    cases hs'
    refine ⟨hroom, fun g hg => ?_⟩
    have hgf : g = f := by
      rw [show s.fd = .on g from hg] at hfd
      cases hfd
      rfl
    subst hgf
    refine ⟨hon.current, hon.unclosed, ?_, fun day bytes hwrote => ?_⟩
    · simp [hon.size]
    · rcases List.mem_append.mp hwrote with hwrote | hwrote
      · exact hon.day day bytes hwrote
      · cases List.mem_singleton.mp hwrote
        exact hday.symm

/-- The files are in order, with these bytes written. -/
def WithBytes (env : Answers) (segmentBytes : ℕ) (w : Bytes) (d : StreamDir) : Prop :=
  Segmented env segmentBytes d ∧ writtenBytes d = w

/-- An exception on the way, which is not that of a loop cut off. -/
def FailedWith (env : Answers) (segmentBytes : ℕ) (w : Bytes) (e : StreamError) (d : StreamDir) : Prop :=
  e ≠ .unfinished ∧ WithBytes env segmentBytes w d

/-- As `FailedWith`, with a first part of the data written. -/
def Partly (env : Answers) (segmentBytes : ℕ) (w data : Bytes) (e : StreamError) (d : StreamDir) : Prop :=
  e ≠ .unfinished ∧ ∃ p, p <+: data ∧ WithBytes env segmentBytes (w ++ p) d

/-- The process has its file open, on the day of the latest reading, with room for more. -/
def OpenFor (env : Answers) (segmentBytes room : ℕ) (w : Bytes) (d : StreamDir) : Prop :=
  WithBytes env segmentBytes w d ∧
    ∃ s, d.stream = some s ∧ s.day = d.reading ∧ s.size + room ≤ segmentBytes

/-- What later calls leave. -/
def Uncounted (P : StreamDir → Prop) : Prop :=
  ∀ d calls, d.calls ≤ calls → P d → P { d with calls := calls }

/-- What does not depend on the clock either. -/
def Timeless (P : StreamDir → Prop) : Prop :=
  ∀ d calls reading, d.calls ≤ calls → P d → P { d with calls := calls, reading := reading }

theorem Timeless.uncounted {P : StreamDir → Prop} (h : Timeless P) : Uncounted P :=
  fun d calls hle hd => h d calls d.reading hle hd

theorem written_timeless (w : Bytes) : Timeless (WithBytes env segmentBytes w) :=
  fun _ _ reading hle h => ⟨h.1.outside hle reading, h.2⟩

section Calls

variable {P : StreamDir → Prop} {E : StreamError → StreamDir → Prop}

theorem nextCall_rule {Q : ℕ → StreamDir → Prop}
    (h : ∀ d, P d → Q d.calls { d with calls := d.calls + 1 }) : Tx.Triple P nextCall Q E := by
  refine .bind (R := fun n d => P d ∧ d.calls = n) (.select fun _ h => ⟨h, rfl⟩) fun n => ?_
  refine .bind (R := fun _ => Q n) (.write fun d hd => ?_) fun _ => .pure fun _ h => h
  rw [← hd.2]
  exact h d hd.1

theorem nextCall_numbered {first : ℕ} (hP : Uncounted P) (hfirst : ∀ d, P d → first ≤ d.calls) :
    Tx.Triple P nextCall (fun n d => P d ∧ first ≤ n ∧ n < d.calls) E :=
  nextCall_rule fun d h => ⟨hP d _ (Nat.le_succ _) h, hfirst d h, Nat.lt_succ_self _⟩

theorem nextCall_keeps (hP : Uncounted P) : Tx.Triple P nextCall (fun _ => P) E :=
  (nextCall_numbered hP fun _ _ => Nat.zero_le _).post fun _ _ h => h.1

theorem systemCall_keeps (hP : Uncounted P) (hE : ∀ d, P d → E .os d) :
    Tx.Triple P (systemCall env) (fun _ => P) E :=
  .bind (nextCall_keeps hP) fun _ => .require (fun _ h _ => h) fun d h _ => hE d h

theorem readClock_keeps (hP : Timeless P) :
    Tx.Triple P (readClock env) (fun now d => P d ∧ d.reading = kstDay now) E := by
  refine .bind (nextCall_keeps hP.uncounted) fun n => ?_
  refine .bind (R := fun _ d => P d ∧ d.reading = kstDay (env.clock n)) (.write fun d h => ?_)
    fun _ => .pure fun _ h => h
  exact ⟨hP d d.calls _ (Nat.le_refl _) h, rfl⟩

theorem currentFile_keeps (hE : ∀ d, P d → E .os d) :
    Tx.Triple P currentFile (fun file d => P d ∧ d.current = some file) E :=
  .bind (R := fun current d => P d ∧ d.current = current) (.select fun _ h => ⟨h, rfl⟩) fun _ =>
    .demand (fun _ _ h hsome => ⟨h.1, h.2.trans hsome⟩) fun d h _ => hE d h.1

theorem theStream_keeps (hE : ∀ d, P d → E .os d) :
    Tx.Triple P theStream (fun s d => P d ∧ d.stream = some s) E :=
  .bind (R := fun stream d => P d ∧ d.stream = stream) (.select fun _ h => ⟨h, rfl⟩) fun _ =>
    .demand (fun _ _ h hsome => ⟨h.1, h.2.trans hsome⟩) fun d h _ => hE d h.1

/-- A file with one link is in no segment. -/
theorem linkCount_keeps (hP : Uncounted P) (file : FileId) :
    Tx.Triple P (linkCount env file)
      (fun links d => P d ∧ (linksOf d file).length + 1 ≤ links) E := by
  refine .bind (nextCall_keeps hP) fun n => ?_
  refine .bind (R := fun segments d => P d ∧ linksOf d file = segments) (.select fun _ h => ⟨h, rfl⟩)
    fun segments => .pure fun d h => ⟨h.1, ?_⟩
  rw [h.2]
  omega

theorem safeCurrent_keeps (hP : Uncounted P) (hE : ∀ d, P d → ∀ e, e ≠ .unfinished → E e d) :
    Tx.Triple P (safeCurrent env)
      (fun _ d => P d ∧ ∃ file, d.current = some file ∧ linksOf d file = []) E := by
  have hcurrent : ∀ file, Uncounted fun d => P d ∧ d.current = some file :=
    fun file d calls hle h => ⟨hP d calls hle h.1, h.2⟩
  refine .bind (currentFile_keeps fun d h => hE d h _ (by simp)) fun file => ?_
  refine .bind (linkCount_keeps (hcurrent file) file) fun links => ?_
  refine .require (fun d h hone => ⟨h.1.1, file, h.1.2, ?_⟩) fun d h _ => hE d h.1.1 _ (by simp)
  rw [← List.length_eq_zero_iff]
  omega

end Calls

/-- In order, with no file open. -/
def Resting (env : Answers) (segmentBytes : ℕ) (w : Bytes) (d : StreamDir) : Prop :=
  WithBytes env segmentBytes w d ∧ NoneOpen d

theorem resting_timeless (w : Bytes) : Timeless (Resting env segmentBytes w) :=
  fun d calls reading hle h => ⟨written_timeless w d calls reading hle h.1, h.2⟩

theorem Resting.stopped {e : StreamError} (h : Resting env segmentBytes w d) (he : e ≠ .unfinished) :
    FailedWith env segmentBytes w e d :=
  ⟨he, h.1⟩

theorem unlinkCurrent_rests : Tx.Triple
    (fun d => Resting env segmentBytes w d ∧
      ∃ f, d.current = some f ∧ (linksOf d f ≠ [] ∨ d.files f = []))
    (unlinkCurrent env) (fun _ d => Resting env segmentBytes w d ∧ d.current = none)
    (FailedWith env segmentBytes w) := by
  refine .bind (systemCall_keeps ?_ fun d h => h.1.stopped (by simp)) fun _ => .attempt ?_ ?_
  · exact fun d calls hle h => ⟨(resting_timeless w).uncounted d calls hle h.1, h.2⟩
  · rintro d d' ⟨⟨⟨h, hw⟩, hidle⟩, f, hf, hsafe⟩ hd'
    rw [hf] at hd'
    cases hd'
    exact ⟨⟨⟨h.unlink hidle hf hsafe, hw⟩, hidle⟩, rfl⟩
  · exact fun d h _ => h.1.stopped (by simp)

theorem closeSegment_rests : Tx.Triple (Resting env segmentBytes w) (closeSegment env)
    (fun _ d => Resting env segmentBytes w d ∧ d.current = none) (FailedWith env segmentBytes w) := by
  have hfree : Timeless fun d => Resting env segmentBytes w d ∧
      ∃ file, d.current = some file ∧ linksOf d file = [] :=
    fun d calls reading hle h => ⟨resting_timeless w d calls reading hle h.1, h.2⟩
  refine .bind (safeCurrent_keeps (resting_timeless w).uncounted fun d h e he => h.stopped he)
    fun _ => ?_
  refine .bind (readClock_keeps hfree) fun stamp => ?_
  refine .bind ((nextCall_numbered hfree.uncounted fun _ _ => Nat.zero_le _).pre fun d h => h.1)
    fun n => ?_
  refine .bind (currentFile_keeps fun d h => h.1.1.stopped (by simp)) fun file => ?_
  refine .bind (systemCall_keeps ?_ fun d h => h.1.1.1.stopped (by simp)) fun _ => ?_
  · exact fun d calls hle h =>
      ⟨⟨hfree.uncounted d calls hle h.1.1, h.1.2.1, h.1.2.2.trans_le hle⟩, h.2⟩
  refine .bind (.attempt (Q := fun _ d => Resting env segmentBytes w d ∧
    ∃ f, d.current = some f ∧ (linksOf d f ≠ [] ∨ d.files f = [])) ?_ ?_) fun _ =>
      unlinkCurrent_rests
  · rintro d d' ⟨⟨⟨⟨⟨h, hw⟩, hidle⟩, f, hf, hnone⟩, -, hn⟩, hfile⟩ hd'
    rw [hfile] at hf
    cases hf
    split_ifs at hd'
    cases hd'
    refine ⟨⟨⟨h.link hidle hfile hnone ⟨n, hn, rfl⟩, hw⟩, hidle⟩, file, hfile, .inl ?_⟩
    simp [linksOf]
  · exact fun d h _ => h.1.1.1.stopped (by simp)

theorem openCurrent_ready : Tx.Triple
    (fun d => Resting env segmentBytes w d ∧ d.current = none) (openCurrent env)
    (fun _ => OpenFor env segmentBytes segmentBytes w) (FailedWith env segmentBytes w) := by
  have hopen : Tx.Triple (fun d => Resting env segmentBytes w d ∧ d.current = none)
      (createCurrent env) (fun file d => Resting env segmentBytes w d ∧ d.current = some file ∧
        linksOf d file = [] ∧ d.files file = [] ∧
        ∀ day bytes, FileEvent.wrote file day bytes ∉ d.events) (FailedWith env segmentBytes w) := by
    refine .bind (systemCall_keeps ?_ fun d h => h.1.stopped (by simp)) fun _ => ?_
    · exact fun d calls hle h => ⟨(resting_timeless w).uncounted d calls hle h.1, h.2⟩
    refine .bind (R := fun file d => (Resting env segmentBytes w d ∧ d.current = none) ∧
      d.fresh = file) (.select fun _ h => ⟨h, rfl⟩) fun file => ?_
    refine .bind (.attempt (Q := fun _ d => Resting env segmentBytes w d ∧ d.current = some file ∧
        linksOf d file = [] ∧ d.files file = [] ∧
        ∀ day bytes, FileEvent.wrote file day bytes ∉ d.events) ?_ ?_) fun _ => .pure fun _ h => h
    · rintro d d' ⟨⟨⟨⟨h, hw⟩, hidle⟩, hnone⟩, rfl⟩ hd'
      rw [hnone] at hd'
      cases hd'
      refine ⟨⟨⟨h.create hidle hnone, ?_⟩, hidle⟩, rfl, ?_, Function.update_self .., ?_⟩
      · rw [← hw, writtenBytes, List.flatMap_append]
        simp [FileEvent.bytes, writtenBytes]
      · rw [linksOf, List.filter_eq_nil_iff]
        intro c hc
        rw [decide_eq_true_eq]
        exact Nat.ne_of_lt (h.segmentFresh c hc)
      · exact fun day bytes hwrote => h.fresh_unwritten (mem_snoc_opened.mp hwrote)
    · exact fun d h _ => h.1.1.stopped (by simp)
  refine .bind hopen fun file => .bind (readClock_keeps ?_) fun now => .write ?_
  · exact fun d calls reading hle h => ⟨resting_timeless w d calls reading hle h.1, h.2⟩
  · rintro d ⟨⟨⟨⟨h, hw⟩, hidle⟩, hcurrent, hlinks, hfiles, hevents⟩, hreading⟩
    refine ⟨⟨{ h with writer := fun s hs => ?_ }, hw⟩, _, rfl, hreading.symm, ?_⟩
    · cases hs
      refine ⟨Nat.zero_le _, fun f hf => ?_⟩
      cases hf
      exact ⟨hcurrent, hlinks, by simp [hfiles], fun day bytes hwrote =>
        absurd hwrote (hevents day bytes)⟩
    · exact Nat.le_of_eq (Nat.zero_add _)

/-- A closed descriptor leaves the current file with the size that the process counted. -/
theorem closeDescriptor_rests {s : LogStream} {after : Descriptor} (hafter : ∀ f, after ≠ .on f) :
    Tx.Triple (fun d => WithBytes env segmentBytes w d ∧ d.stream = some s)
      (closeDescriptor env s after)
      (fun _ d => Resting env segmentBytes w d ∧ ∃ f, d.current = some f ∧ s.size = (d.files f).length)
      (FailedWith env segmentBytes w) := by
  refine .bind (systemCall_keeps ?_ fun d h => ⟨by simp, h.1⟩) fun _ => ?_
  · exact fun d calls hle h => ⟨(written_timeless w).uncounted d calls hle h.1, h.2⟩
  cases hfd : s.fd with
  | none => exact .raise fun d h => ⟨by simp, h.1⟩
  | stale => exact .raise fun d h => ⟨by simp, h.1⟩
  | on f =>
    refine .write ?_
    rintro d ⟨⟨h, hw⟩, hs⟩
    obtain ⟨hsize, hon⟩ := h.writer s hs
    refine ⟨⟨⟨h.idle _ fun s' hs' => ?_, hw⟩, fun s' g hs' => ?_⟩, f, (hon f hfd).current,
      (hon f hfd).size⟩
    · cases hs'
      exact ⟨hsize, hafter⟩
    · cases hs'
      exact hafter g

theorem rotate_ready : Tx.Triple (WithBytes env segmentBytes w) (rotate env)
    (fun _ => OpenFor env segmentBytes segmentBytes w) (FailedWith env segmentBytes w) := by
  refine .bind (theStream_keeps fun d h => ⟨by simp, h⟩) fun s => ?_
  refine .bind (closeDescriptor_rests fun f => by simp) fun _ => ?_
  exact .bind (closeSegment_rests.pre fun d h => h.1) fun _ => openCurrent_ready

/-- A write takes a first part of the portion, of at least one byte. -/
theorem osWrite_ready (portion : Bytes) : Tx.Triple (OpenFor env segmentBytes portion.length w)
    (osWrite env portion)
    (fun count d => (0 < count ∧ count ≤ portion.length) ∧
      OpenFor env segmentBytes (portion.drop count).length (w ++ portion.take count) d)
    (FailedWith env segmentBytes w) := by
  have hcounts : Uncounted (OpenFor env segmentBytes portion.length w) :=
    fun d calls hle h => ⟨(written_timeless w).uncounted d calls hle h.1, h.2⟩
  refine .bind (systemCall_keeps hcounts fun d h => ⟨by simp, h.1⟩) fun _ => ?_
  refine .bind (nextCall_keeps hcounts) fun n => ?_
  refine .bind (theStream_keeps fun d h => ⟨by simp, h.1⟩) fun s => ?_
  dsimp only
  cases hfd : s.fd with
  | none => exact .raise fun d h => ⟨by simp, h.1.1⟩
  | stale => exact .raise fun d h => ⟨by simp, h.1.1⟩
  | on f =>
    have hle := Nat.min_le_right (env.count n) portion.length
    generalize min (env.count n) portion.length = count at hle
    dsimp only
    refine .bind (.require (Q := fun _ d => (OpenFor env segmentBytes portion.length w d ∧
      d.stream = some s) ∧ 0 < count) (fun d h hcount => ⟨h, hcount⟩)
      fun d h _ => ⟨by simp, h.1.1⟩) fun _ => ?_
    refine .bind (R := fun _ d => 0 < count ∧
      OpenFor env segmentBytes (portion.drop count).length (w ++ portion.take count) d)
      (.write ?_) fun _ => .pure fun d h => ⟨⟨h.1, hle⟩, h.2⟩
    rintro d ⟨⟨⟨⟨h, hw⟩, s', hs', hday, hroom⟩, hs⟩, hcount⟩
    rw [hs] at hs'
    cases hs'
    have htake : (portion.take count).length = count := List.length_take_of_le hle
    have hroom' : s.size + (portion.take count).length ≤ segmentBytes := by omega
    have hwrote := h.wrote hs hfd hday hroom'
    rw [htake, hfd] at hwrote
    refine ⟨hcount, ⟨hwrote, ?_⟩, _, rfl, hday, ?_⟩
    · rw [← hw, writtenBytes, List.flatMap_append, List.flatMap_singleton]
      rfl
    · rw [List.length_drop]
      dsimp only
      omega

theorem FailedWith.partly {data : Bytes} {e : StreamError} (h : FailedWith env segmentBytes w e d) :
    Partly env segmentBytes w data e d :=
  ⟨h.1, [], List.nil_prefix, by rw [List.append_nil]; exact h.2⟩

/-- What was written of the rest, behind a first part. -/
theorem Partly.behind {part rest : Bytes} {e : StreamError}
    (h : Partly env segmentBytes (w ++ part) rest e d) : Partly env segmentBytes w (part ++ rest) e d := by
  obtain ⟨he, p, hp, hw⟩ := h
  refine ⟨he, part ++ p, (List.prefix_append_right_inj part).mpr hp, ?_⟩
  rwa [← List.append_assoc]

theorem writePortion_ready (turns : ℕ) : ∀ (portion : Bytes) (w : Bytes), portion.length ≤ turns →
    Tx.Triple (OpenFor env segmentBytes portion.length w) (writePortion env turns portion)
      (fun _ => WithBytes env segmentBytes (w ++ portion)) (Partly env segmentBytes w portion) := by
  induction turns with
  | zero =>
    intro portion w hturns
    cases portion with
    | nil => exact .pure fun d h => by rw [List.append_nil]; exact h.1
    | cons b portion => exact absurd hturns (Nat.not_succ_le_zero _)
  | succ turns ih =>
    intro portion w hturns
    cases hportion : portion with
    | nil => exact .pure fun d h => by rw [List.append_nil]; exact h.1
    | cons b bs =>
      rw [← hportion]
      have hbody : writePortion env (turns + 1) portion =
          (osWrite env portion >>= fun count => writePortion env turns (portion.drop count)) := by
        rw [hportion]
        rfl
      rw [hbody]
      refine .bind ((osWrite_ready portion).mono (fun _ h => h) (fun _ _ h => h)
        fun _ _ h => h.partly) fun count => ?_
      refine .given (fun d h => h.1) fun hcount => ?_
      have hlength : (portion.drop count).length ≤ turns := by
        rw [List.length_drop]
        omega
      have hrest := ih (portion.drop count) (w ++ portion.take count) hlength
      refine hrest.mono (fun d h => h.2) (fun _ d h => ?_) fun e d h => ?_
      · rwa [List.append_assoc, List.take_append_drop] at h
      · have hbehind := h.behind
        rwa [List.take_append_drop] at hbehind

/-- After the check there is room in the file, and its day is that of the latest reading. -/
theorem rotateIfDue_ready (hsegment : 1 ≤ segmentBytes) :
    Tx.Triple (WithBytes env segmentBytes w) (rotateIfDue env segmentBytes)
      (fun _ => OpenFor env segmentBytes 1 w) (FailedWith env segmentBytes w) := by
  have hrotate : Tx.Triple (WithBytes env segmentBytes w) (rotate env)
      (fun _ => OpenFor env segmentBytes 1 w) (FailedWith env segmentBytes w) :=
    rotate_ready.post fun _ d h => ⟨h.1, h.2.imp fun s hs => ⟨hs.1, hs.2.1, by omega⟩⟩
  refine .bind (theStream_keeps fun d h => ⟨by simp, h⟩) fun s => ?_
  refine .ite (fun _ => hrotate.pre fun d h => h.1) fun hsize => ?_
  refine .bind (readClock_keeps ?_) fun now => .ite (fun _ => hrotate.pre fun d h => h.1.1) ?_
  · exact fun d calls reading hle h => ⟨written_timeless w d calls reading hle h.1, h.2⟩
  · intro hday
    refine .pure fun d h => ⟨h.1.1, s, h.1.2, ?_, ?_⟩
    · rw [h.2]
      exact (not_not.mp hday).symm
    · have hle := (h.1.1.1.writer s h.1.2).1
      omega

theorem take_append_rest (view : Bytes) (room : ℕ) :
    view.take room ++ view.drop (view.take room).length = view := by
  rw [List.length_take]
  rcases Nat.le_total room view.length with h | h
  · rw [Nat.min_eq_left h, List.take_append_drop]
  · rw [Nat.min_eq_right h, List.take_of_length_le h, List.drop_length, List.append_nil]

theorem writeLoop_written (hsegment : 1 ≤ segmentBytes) (turns : ℕ) :
    ∀ (view : Bytes) (w : Bytes), view.length ≤ turns →
      Tx.Triple (WithBytes env segmentBytes w) (writeLoop env segmentBytes turns view)
        (fun _ => WithBytes env segmentBytes (w ++ view)) (Partly env segmentBytes w view) := by
  induction turns with
  | zero =>
    intro view w hturns
    cases view with
    | nil => exact .pure fun d h => by rwa [List.append_nil]
    | cons b view => exact absurd hturns (Nat.not_succ_le_zero _)
  | succ turns ih =>
    intro view w hturns
    cases hview : view with
    | nil => exact .pure fun d h => by rwa [List.append_nil]
    | cons b bs =>
      rw [← hview]
      have hbody : writeLoop env segmentBytes (turns + 1) view = (do
          rotateIfDue env segmentBytes
          let s ← theStream
          let part := view.take (segmentBytes - s.size)
          writePortion env part.length part
          writeLoop env segmentBytes turns (view.drop part.length)) := by
        rw [hview]
        rfl
      rw [hbody]
      refine .bind ((rotateIfDue_ready hsegment).mono (fun _ h => h) (fun _ _ h => h)
        fun _ _ h => h.partly) fun _ => ?_
      refine .bind (theStream_keeps fun d h =>
        FailedWith.partly ⟨by simp, h.1⟩) fun s => ?_
      refine .given (p := s.size + 1 ≤ segmentBytes) ?_ fun hroom => ?_
      · rintro d ⟨⟨_, s', hs', _, hroom⟩, hs⟩
        rw [hs] at hs'
        cases hs'
        exact hroom
      dsimp only
      generalize hpart : view.take (segmentBytes - s.size) = part
      have hsplit : part ++ view.drop part.length = view := by
        rw [← hpart]
        exact take_append_rest view _
      have hlength : part.length = min (segmentBytes - s.size) view.length := by
        rw [← hpart, List.length_take]
      have hpositive : 0 < view.length := by
        rw [hview]
        exact Nat.succ_pos _
      refine .bind (R := fun _ => WithBytes env segmentBytes (w ++ part))
        ((writePortion_ready part.length part w (Nat.le_refl _)).mono ?_ (fun _ _ h => h) ?_)
        fun _ => ?_
      · rintro d ⟨⟨hw, s', hs', hday, _⟩, hs⟩
        rw [hs] at hs'
        cases hs'
        exact ⟨hw, s, hs, hday, by omega⟩
      · rintro e d ⟨he, p, hp, hw⟩
        refine ⟨he, p, hp.trans ?_, hw⟩
        rw [← hpart]
        exact List.take_prefix _ _
      · have hrest := ih (view.drop part.length) (w ++ part) (by rw [List.length_drop]; omega)
        refine hrest.mono (fun _ h => h) (fun _ d h => ?_) fun e d h => ?_
        · rwa [List.append_assoc, hsplit] at h
        · have hbehind := h.behind
          rwa [hsplit] at hbehind

theorem close_written : Tx.Triple (WithBytes env segmentBytes w) (close env)
    (fun _ => WithBytes env segmentBytes w) (FailedWith env segmentBytes w) := by
  refine .bind (theStream_keeps fun d h => ⟨by simp, h⟩) fun s => ?_
  refine .ite (fun _ => .pure fun d h => h.1) fun _ => ?_
  refine .bind (closeDescriptor_rests fun f => by simp) fun _ => .ite (fun _ => ?_) fun hempty => ?_
  · exact closeSegment_rests.mono (fun d h => h.1) (fun _ d h => h.1.1) fun _ _ h => h
  · refine unlinkCurrent_rests.mono (fun d h => ⟨h.1, h.2.imp fun f hf => ⟨hf.1, .inr ?_⟩⟩)
      (fun _ d h => h.1.1) fun _ _ h => h
    rw [← List.length_eq_zero_iff, ← hf.2]
    exact not_not.mp hempty

theorem recoverCurrent_rests : Tx.Triple (Resting env segmentBytes w) (recoverCurrent env)
    (fun _ d => Resting env segmentBytes w d ∧ d.current = none) (FailedWith env segmentBytes w) := by
  refine .bind (R := fun current d => Resting env segmentBytes w d ∧ d.current = current)
    (.select fun _ h => ⟨h, rfl⟩) fun current => ?_
  cases current with
  | none => exact .pure fun d h => h
  | some file =>
    have hcounts : Uncounted fun d => Resting env segmentBytes w d ∧ d.current = some file :=
      fun d calls hle h => ⟨(resting_timeless w).uncounted d calls hle h.1, h.2⟩
    refine .bind ((linkCount_keeps hcounts file).post fun _ d h => h.1) fun links => ?_
    refine .ite (fun _ => ?_) fun _ => ?_
    · refine .bind (R := fun segments d => (Resting env segmentBytes w d ∧ d.current = some file) ∧
        linksOf d file = segments) (.select fun _ h => ⟨h, rfl⟩) fun segments => ?_
      refine .bind (.require (Q := fun _ d => Resting env segmentBytes w d ∧
        ∃ f, d.current = some f ∧ (linksOf d f ≠ [] ∨ d.files f = [])) (fun d h hone => ?_)
        fun d h _ => h.1.1.stopped (by simp)) fun _ => unlinkCurrent_rests
      refine ⟨h.1.1, file, h.1.2, .inl fun hnone => ?_⟩
      rw [← h.2, hnone] at hone
      cases hone
    · refine .bind (safeCurrent_keeps hcounts fun d h e he => h.1.stopped he) fun _ => ?_
      exact closeSegment_rests.pre fun d h => h.1.1

theorem start_ready : Tx.Triple (WithBytes env segmentBytes w) (start env)
    (fun _ => OpenFor env segmentBytes segmentBytes w) (FailedWith env segmentBytes w) := by
  refine .bind (R := fun _ => Resting env segmentBytes w) (.write fun d h => ?_) fun _ =>
    .bind recoverCurrent_rests fun _ => openCurrent_ready
  refine ⟨⟨h.1.idle none fun s hs => ?_, h.2⟩, fun s f hs => ?_⟩
  · cases hs
  · cases hs

/-- Every operation keeps the files in order, wherever it ends. -/
theorem Segmented.step (h : Segmented env segmentBytes d) (hsegment : 1 ≤ segmentBytes)
    (a : StreamAction) : Segmented env segmentBytes (stepStream env segmentBytes d a) := by
  have hout : Tx.Triple (WithBytes env segmentBytes (writtenBytes d)) (runStream env segmentBytes a)
      (fun _ => Segmented env segmentBytes) fun _ => Segmented env segmentBytes := by
    cases a with
    | start => exact start_ready.mono (fun _ h => h) (fun _ _ h => h.1.1) fun _ _ h => h.2.1
    | write data =>
      refine (writeLoop_written hsegment data.length data _ (Nat.le_refl _)).mono (fun _ h => h)
        (fun _ _ h => h.1) fun _ _ h => ?_
      obtain ⟨_, _, _, hw⟩ := h
      exact hw.1
    | rotate => exact rotate_ready.mono (fun _ h => h) (fun _ _ h => h.1.1) fun _ _ h => h.2.1
    | close => exact close_written.mono (fun _ h => h) (fun _ _ h => h.1) fun _ _ h => h.2.1
  have hstate := hout d ⟨h, rfl⟩
  unfold stepStream
  split at hstate
  · next heq => rwa [heq]
  · next heq => rwa [heq]

theorem segmented_empty : Segmented env segmentBytes {} where
  kept := rfl
  limit _ := Nat.zero_le _
  bytes _ := rfl
  opened pre f day bytes hpre := by
    have hnil := List.prefix_nil.mp hpre
    simp at hnil
  once _ := Nat.zero_le _
  named _ hc := by cases hc
  linked _ := Nat.zero_le _
  day _ := ⟨0, fun _ _ hwrote => by cases hwrote⟩
  segmentFresh _ hc := by cases hc
  currentFresh _ hf := by cases hf
  currentOpened _ hf := by cases hf
  openedFresh _ hf := by cases hf
  writer _ hs := by cases hs

/-- From the call with this number on no call fails, every write makes progress, no link is made
outside the directory, and no uuid comes twice. -/
structure AnsweringFrom (env : Answers) (first : ℕ) : Prop where
  alive : ∀ n, first ≤ n → env.alive n = true
  count : ∀ n, first ≤ n → 0 < env.count n
  foreign : ∀ n, first ≤ n → env.foreign n = 0
  uuid : ∀ m n, env.uuid m = env.uuid n → m = n

/-- The process has a file open. -/
def Serving (d : StreamDir) : Prop := ∃ s f, d.stream = some s ∧ s.fd = .on f

/-- The current file is there and in no segment. -/
def Unclosed (d : StreamDir) : Prop := ∃ f, d.current = some f ∧ linksOf d f = []

/-- The segments have the uuids of earlier calls. -/
def SegmentsNamed (env : Answers) (first : ℕ) (d : StreamDir) : Prop :=
  first ≤ d.calls ∧ ∀ c ∈ d.closed, ∃ k, k < d.calls ∧ c.uuid = env.uuid k

theorem Segmented.unclosed (h : Segmented env segmentBytes d) (hserving : Serving d) :
    Unclosed d := by
  obtain ⟨s, f, hs, hf⟩ := hserving
  have hon := (h.writer s hs).2 f hf
  exact ⟨f, hon.current, hon.unclosed⟩

section Answering

variable {first : ℕ} {P : StreamDir → Prop} {E : StreamError → StreamDir → Prop}

theorem systemCall_answers (ha : AnsweringFrom env first) (hP : Uncounted P)
    (hfirst : ∀ d, P d → first ≤ d.calls) : Tx.Triple P (systemCall env) (fun _ => P) E :=
  .bind (nextCall_numbered hP hfirst) fun n =>
    .require (fun _ h _ => h.1) fun _ h hdead => absurd (ha.alive n h.2.1) hdead

theorem linkCount_answers (ha : AnsweringFrom env first) (hP : Uncounted P)
    (hfirst : ∀ d, P d → first ≤ d.calls) (file : FileId) :
    Tx.Triple P (linkCount env file) (fun links d => P d ∧ links = 1 + (linksOf d file).length) E := by
  refine .bind (nextCall_numbered hP hfirst) fun n => ?_
  refine .bind (R := fun segments d => (P d ∧ first ≤ n) ∧ linksOf d file = segments)
    (.select fun _ h => ⟨⟨h.1, h.2.1⟩, rfl⟩) fun segments => .pure fun d h => ⟨h.1.1, ?_⟩
  rw [h.2, ha.foreign n h.1.2, Nat.add_zero]

theorem currentFile_answers (hcurrent : ∀ d, P d → Unclosed d) :
    Tx.Triple P currentFile (fun file d => P d ∧ d.current = some file ∧ linksOf d file = []) E := by
  refine .bind (R := fun current d => P d ∧ d.current = current) (.select fun _ h => ⟨h, rfl⟩)
    fun _ => .demand (fun d file h hsome => ⟨h.1, h.2.trans hsome, ?_⟩) fun d h hnone => ?_
  · obtain ⟨f, hf, hlinks⟩ := hcurrent d h.1
    rw [h.2, hsome] at hf
    cases hf
    exact hlinks
  · obtain ⟨f, hf, _⟩ := hcurrent d h.1
    rw [h.2, hnone] at hf
    cases hf

theorem safeCurrent_answers (ha : AnsweringFrom env first) (hP : Uncounted P)
    (hfirst : ∀ d, P d → first ≤ d.calls) (hcurrent : ∀ d, P d → Unclosed d) :
    Tx.Triple P (safeCurrent env) (fun _ => P) E := by
  refine .bind (currentFile_answers hcurrent) fun file => ?_
  refine .bind (linkCount_answers ha ?_ (fun d h => hfirst d h.1) file)
    fun links => .require (fun _ h _ => h.1.1) fun d h hmore => absurd ?_ hmore
  · exact fun d calls hle h => ⟨hP d calls hle h.1, h.2⟩
  · rw [h.2, h.1.2.2]
    rfl

theorem unlinkCurrent_answers (ha : AnsweringFrom env first) :
    Tx.Triple (fun d => first ≤ d.calls ∧ ∃ f, d.current = some f) (unlinkCurrent env)
      (fun _ d => first ≤ d.calls ∧ d.current = none) E := by
  refine .bind (systemCall_answers ha (fun d calls hle h => ⟨h.1.trans hle, h.2⟩) fun _ h => h.1)
    fun _ => .attempt ?_ ?_
  · rintro d d' ⟨hfirst, f, hf⟩ hd'
    rw [hf] at hd'
    cases hd'
    exact ⟨hfirst, rfl⟩
  · rintro d ⟨_, f, hf⟩ hd'
    rw [hf] at hd'
    cases hd'

/-- The name of the new segment is not that of an older one. -/
theorem closeSegment_answers (ha : AnsweringFrom env first) :
    Tx.Triple (fun d => SegmentsNamed env first d ∧ Unclosed d) (closeSegment env)
      (fun _ d => first ≤ d.calls ∧ d.current = none) E := by
  have hfree : Timeless fun d => SegmentsNamed env first d ∧ Unclosed d :=
    fun d calls reading hle h => ⟨⟨h.1.1.trans hle,
      fun c hc => (h.1.2 c hc).imp fun _ hk => ⟨hk.1.trans_le hle, hk.2⟩⟩, h.2⟩
  refine .bind (safeCurrent_answers ha hfree.uncounted (fun _ h => h.1.1) fun _ h => h.2) fun _ => ?_
  refine .bind ((readClock_keeps hfree).post fun _ _ h => h.1) fun stamp => ?_
  refine .bind (R := fun n d => first ≤ d.calls ∧ Unclosed d ∧ ∀ c ∈ d.closed, c.uuid ≠ env.uuid n)
    (nextCall_rule fun d h => ⟨h.1.1.trans (Nat.le_succ _), h.2, fun c hc heq => ?_⟩) fun n => ?_
  · obtain ⟨k, hk, hname⟩ := h.1.2 c hc
    exact absurd (ha.uuid _ _ (hname.symm.trans heq)) (Nat.ne_of_lt hk)
  have hnew : Uncounted fun d => first ≤ d.calls ∧ Unclosed d ∧ ∀ c ∈ d.closed, c.uuid ≠ env.uuid n :=
    fun d calls hle h => ⟨h.1.trans hle, h.2⟩
  refine .bind (currentFile_answers fun _ h => h.2.1) fun file => ?_
  refine .bind (systemCall_answers ha ?_ fun _ h => h.1.1) fun _ => ?_
  · exact fun d calls hle h => ⟨hnew d calls hle h.1, h.2⟩
  refine .bind (.attempt ?_ ?_) fun _ => unlinkCurrent_answers ha
  · rintro d d' ⟨⟨hfirst, _⟩, hfile, _⟩ hd'
    split_ifs at hd'
    cases hd'
    exact ⟨hfirst, file, hfile⟩
  · rintro d ⟨⟨_, _, hfresh⟩, _⟩ hd'
    split_ifs at hd' with hclash
    obtain ⟨c, hc, _, huuid⟩ := hclash
    exact absurd huuid (hfresh c hc)

theorem openCurrent_answers (ha : AnsweringFrom env first) :
    Tx.Triple (fun d => first ≤ d.calls ∧ d.current = none) (openCurrent env)
      (fun _ d => first ≤ d.calls ∧ Serving d) E := by
  have hcreate : Tx.Triple (fun d => first ≤ d.calls ∧ d.current = none) (createCurrent env)
      (fun _ d => first ≤ d.calls) E := by
    refine .bind (systemCall_answers ha (fun d calls hle h => ⟨h.1.trans hle, h.2⟩) fun _ h => h.1)
      fun _ => ?_
    refine .bind (R := fun _ d => first ≤ d.calls ∧ d.current = none) (.select fun _ h => h)
      fun file => .bind (R := fun _ d => first ≤ d.calls) (.attempt ?_ ?_) fun _ => .pure fun _ h => h
    · rintro d d' ⟨hfirst, hnone⟩ hd'
      rw [hnone] at hd'
      cases hd'
      exact hfirst
    · rintro d ⟨_, hnone⟩ hd'
      rw [hnone] at hd'
      cases hd'
  refine .bind hcreate fun file => ?_
  refine .bind ((readClock_keeps fun d calls _ hle h => Nat.le_trans h hle).post fun _ _ h => h.1)
    fun now => .write fun d h => ⟨h, _, file, rfl, rfl⟩

theorem closeDescriptor_answers (ha : AnsweringFrom env first) {s : LogStream}
    (hfd : s.fd = .on f) (after : Descriptor) :
    Tx.Triple (fun d => SegmentsNamed env first d ∧ Unclosed d) (closeDescriptor env s after)
      (fun _ d => (SegmentsNamed env first d ∧ Unclosed d) ∧ d.stream = some { s with fd := after }) E := by
  refine .bind (systemCall_answers ha ?_ fun _ h => h.1.1) fun _ => ?_
  · exact fun d calls hle h => ⟨⟨h.1.1.trans hle,
      fun c hc => (h.1.2 c hc).imp fun _ hk => ⟨hk.1.trans_le hle, hk.2⟩⟩, h.2⟩
  · rw [hfd]
    exact .write fun d h => ⟨h, rfl⟩

theorem theStream_answers (hserving : ∀ d, P d → Serving d) :
    Tx.Triple P theStream (fun s d => (P d ∧ d.stream = some s) ∧ ∃ f, s.fd = .on f) E := by
  refine .bind (R := fun stream d => P d ∧ d.stream = stream) (.select fun _ h => ⟨h, rfl⟩)
    fun stream => .demand (fun d s h hsome => ⟨⟨h.1, h.2.trans hsome⟩, ?_⟩) fun d h hnone => ?_
  · obtain ⟨s', f, hs', hf⟩ := hserving d h.1
    rw [h.2, hsome] at hs'
    cases hs'
    exact ⟨f, hf⟩
  · obtain ⟨s, f, hs, _⟩ := hserving d h.1
    rw [h.2, hnone] at hs
    cases hs

/-- In order, with a file open. -/
def InService (env : Answers) (segmentBytes first : ℕ) (w : Bytes) (d : StreamDir) : Prop :=
  WithBytes env segmentBytes w d ∧ first ≤ d.calls ∧ Serving d

theorem InService.unclosed (h : InService env segmentBytes first w d) :
    SegmentsNamed env first d ∧ Unclosed d :=
  ⟨⟨h.2.1, h.1.1.named⟩, h.1.1.unclosed h.2.2⟩

theorem rotate_answers (ha : AnsweringFrom env first) :
    Tx.Triple (InService env segmentBytes first w) (rotate env)
      (fun _ d => first ≤ d.calls ∧ Serving d) E := by
  refine .bind (theStream_answers fun _ h => h.2.2) fun s => .given (fun _ h => h.2) fun hon => ?_
  obtain ⟨f, hf⟩ := hon
  refine .bind ((closeDescriptor_answers ha hf .stale).mono (fun _ h => h.1.1.unclosed)
    (fun _ _ h => h.1) fun _ _ h => h) fun _ => ?_
  exact .bind (closeSegment_answers ha) fun _ => openCurrent_answers ha

theorem close_answers (ha : AnsweringFrom env first) :
    Tx.Triple (InService env segmentBytes first w) (close env)
      (fun _ d => first ≤ d.calls ∧ d.current = none) E := by
  refine .bind (theStream_answers fun _ h => h.2.2) fun s => .given (fun _ h => h.2) fun hon => ?_
  obtain ⟨f, hf⟩ := hon
  refine .ite (fun hnone => ?_) fun _ => ?_
  · rw [hf] at hnone
    cases hnone
  refine .bind ((closeDescriptor_answers ha hf .none).mono (fun _ h => h.1.1.unclosed)
    (fun _ _ h => h.1) fun _ _ h => h) fun _ => .ite (fun _ => closeSegment_answers ha) fun _ => ?_
  exact (unlinkCurrent_answers ha).pre fun d h => ⟨h.1.1, h.2.imp fun _ hf => hf.1⟩

/-- A current file that is in a segment already is in one only. -/
theorem recoverCurrent_answers (ha : AnsweringFrom env first) :
    Tx.Triple (fun d => SegmentsNamed env first d ∧ ∀ f, (linksOf d f).length ≤ 1) (recoverCurrent env)
      (fun _ d => first ≤ d.calls ∧ d.current = none) E := by
  have hcounts : Uncounted fun d => SegmentsNamed env first d ∧ ∀ f, (linksOf d f).length ≤ 1 :=
    fun d calls hle h => ⟨⟨h.1.1.trans hle,
      fun c hc => (h.1.2 c hc).imp fun _ hk => ⟨hk.1.trans_le hle, hk.2⟩⟩, h.2⟩
  refine .bind (R := fun current d => (SegmentsNamed env first d ∧ ∀ f, (linksOf d f).length ≤ 1) ∧
    d.current = current) (.select fun _ h => ⟨h, rfl⟩) fun current => ?_
  cases current with
  | none => exact .pure fun d h => ⟨h.1.1.1, h.2⟩
  | some file =>
    have hfile : Uncounted fun d => (SegmentsNamed env first d ∧ ∀ f, (linksOf d f).length ≤ 1) ∧
        d.current = some file :=
      fun d calls hle h => ⟨hcounts d calls hle h.1, h.2⟩
    refine .bind (linkCount_answers ha hfile (fun _ h => h.1.1.1) file) fun links => ?_
    refine .ite (fun htwo => ?_) fun hother => ?_
    · refine .bind (R := fun segments d => (first ≤ d.calls ∧ d.current = some file) ∧
        segments.length = 1) (.select fun d h => ⟨⟨h.1.1.1.1, h.1.2⟩, ?_⟩) fun segments => ?_
      · have hlinks := h.2
        omega
      · exact .bind (.require (fun d h _ => ⟨h.1.1, file, h.1.2⟩) fun d h hne => absurd h.2 hne)
          fun _ => unlinkCurrent_answers ha
    · refine .pre (P := fun d => SegmentsNamed env first d ∧ Unclosed d) ?_ fun d h => ⟨h.1.1.1, file, h.1.2, ?_⟩
      · exact .bind (safeCurrent_answers ha (fun d calls hle h => ⟨⟨h.1.1.trans hle,
          fun c hc => (h.1.2 c hc).imp fun _ hk => ⟨hk.1.trans_le hle, hk.2⟩⟩, h.2⟩)
          (fun _ h => h.1.1) fun _ h => h.2) fun _ => closeSegment_answers ha
      · have hle := h.1.1.2 file
        have hlinks := h.2
        rw [← List.length_eq_zero_iff]
        omega

theorem start_answers (ha : AnsweringFrom env first) :
    Tx.Triple (fun d => SegmentsNamed env first d ∧ ∀ f, (linksOf d f).length ≤ 1) (start env)
      (fun _ d => first ≤ d.calls ∧ Serving d) E :=
  .bind (R := fun _ d => SegmentsNamed env first d ∧ ∀ f, (linksOf d f).length ≤ 1) (.write fun _ h => h)
    fun _ => .bind (recoverCurrent_answers ha) fun _ => openCurrent_answers ha

theorem osWrite_answers (ha : AnsweringFrom env first) {portion : Bytes} (hportion : portion ≠ []) :
    Tx.Triple (fun d => first ≤ d.calls ∧ Serving d) (osWrite env portion)
      (fun _ d => first ≤ d.calls ∧ Serving d) E := by
  have hcounts : Uncounted fun d => first ≤ d.calls ∧ Serving d :=
    fun d calls hle h => ⟨h.1.trans hle, h.2⟩
  refine .bind (systemCall_answers ha hcounts fun _ h => h.1) fun _ => ?_
  refine .bind (nextCall_numbered hcounts fun _ h => h.1) fun n => ?_
  refine .bind (theStream_answers fun _ h => h.1.2) fun s => .given (fun _ h => h.2) fun hon => ?_
  obtain ⟨f, hf⟩ := hon
  refine .given (fun _ h => h.1.1.2.1) fun hn => ?_
  have hpositive : 0 < min (env.count n) portion.length :=
    lt_min (ha.count n hn) (List.length_pos_iff.mpr hportion)
  dsimp only
  rw [hf]
  refine .bind (R := fun _ d => first ≤ d.calls) (.require (fun d h _ => h.1.1.1.1)
    fun d h hzero => absurd hpositive hzero) fun _ => ?_
  exact .bind (R := fun _ d => first ≤ d.calls ∧ Serving d) (.write fun d h => ⟨h, _, f, rfl, rfl⟩)
    fun _ => .pure fun _ h => h

theorem writePortion_answers (ha : AnsweringFrom env first) (turns : ℕ) : ∀ portion : Bytes,
    Tx.Triple (fun d => first ≤ d.calls ∧ Serving d) (writePortion env turns portion)
      (fun _ d => first ≤ d.calls ∧ Serving d) fun e _ => e = .unfinished := by
  induction turns with
  | zero =>
    intro portion
    cases portion with
    | nil => exact .pure fun _ h => h
    | cons b portion => exact .raise fun _ _ => rfl
  | succ turns ih =>
    intro portion
    cases portion with
    | nil => exact .pure fun _ h => h
    | cons b portion =>
      exact .bind (osWrite_answers ha (List.cons_ne_nil b portion)) fun count => ih _

theorem rotateIfDue_answers (ha : AnsweringFrom env first) :
    Tx.Triple (InService env segmentBytes first w) (rotateIfDue env segmentBytes)
      (fun _ d => first ≤ d.calls ∧ Serving d) E := by
  have hcounts : Timeless (InService env segmentBytes first w) :=
    fun d calls reading hle h => ⟨written_timeless w d calls reading hle h.1, h.2.1.trans hle, h.2.2⟩
  refine .bind (theStream_answers fun _ h => h.2.2) fun s => ?_
  refine .ite (fun _ => (rotate_answers ha).pre fun _ h => h.1.1) fun _ => ?_
  refine .bind ((readClock_keeps hcounts).pre fun _ h => h.1.1) fun now => ?_
  exact .ite (fun _ => (rotate_answers ha).pre fun _ h => h.1) fun _ => .pure fun _ h => h.1.2

theorem writeLoop_answers (ha : AnsweringFrom env first) (hsegment : 1 ≤ segmentBytes) (turns : ℕ) :
    ∀ (view : Bytes) (w : Bytes),
      Tx.Triple (InService env segmentBytes first w) (writeLoop env segmentBytes turns view)
        (fun _ d => first ≤ d.calls ∧ Serving d) fun e _ => e = .unfinished := by
  induction turns with
  | zero =>
    intro view w
    cases view with
    | nil => exact .pure fun _ h => h.2
    | cons b view => exact .raise fun _ _ => rfl
  | succ turns ih =>
    intro view w
    cases view with
    | nil => exact .pure fun _ h => h.2
    | cons b bs =>
      refine .bind (R := fun _ d => OpenFor env segmentBytes 1 w d ∧ first ≤ d.calls ∧ Serving d)
        (((rotateIfDue_ready hsegment).and (rotateIfDue_answers ha)).mono
          (fun _ h => ⟨h.1, h⟩) (fun _ _ h => h) fun _ _ h => h.2) fun _ => ?_
      refine .bind (theStream_answers fun _ h => h.2.2) fun s => ?_
      dsimp only
      generalize hpart : (b :: bs).take (segmentBytes - s.size) = part
      refine .bind (R := fun _ => InService env segmentBytes first (w ++ part))
        (((writePortion_ready part.length part w (Nat.le_refl _)).and
          (writePortion_answers ha part.length part)).mono ?_ (fun _ _ h => h) fun _ _ h => h.2)
        fun _ => ih _ _
      rintro d ⟨⟨⟨⟨hw, s', hs', hday, hroom⟩, hserving⟩, hs⟩, _⟩
      rw [hs] at hs'
      cases hs'
      refine ⟨⟨hw, s, hs, hday, ?_⟩, hserving⟩
      rw [← hpart, List.length_take]
      omega

end Answering

/-- What an operation does when no call fails. -/
structure Unfailing (env : Answers) (segmentBytes : ℕ) (d : StreamDir) : Prop where
  started : (start env d).1 = .ok () ∧ Serving (start env d).2
  wrote : Serving d → ∀ data, (write env segmentBytes data d).1 = .ok () ∧
    Serving (write env segmentBytes data d).2
  rotated : Serving d → (rotate env d).1 = .ok () ∧ Serving (rotate env d).2
  closed : Serving d → (close env d).1 = .ok () ∧ (close env d).2.current = none

theorem Segmented.unfailing (h : Segmented env segmentBytes d) (hsegment : 1 ≤ segmentBytes)
    (ha : AnsweringFrom env d.calls) : Unfailing env segmentBytes d where
  started := by
    obtain ⟨_, hok, hout⟩ := (start_answers ha).answers ⟨⟨Nat.le_refl _, h.named⟩, h.linked⟩
    exact ⟨hok, hout.2⟩
  wrote hserving data := by
    have hrun : Tx.Triple
        (fun d' => WithBytes env segmentBytes (writtenBytes d) d' ∧
          InService env segmentBytes d.calls (writtenBytes d) d')
        (write env segmentBytes data) (fun _ d' => d.calls ≤ d'.calls ∧ Serving d')
        fun _ _ => False :=
      ((writeLoop_written hsegment data.length data _ (Nat.le_refl _)).and
        (writeLoop_answers ha hsegment data.length data _)).mono (fun _ h => h) (fun _ _ h => h.2)
          fun _ _ h => h.1.1 h.2
    obtain ⟨_, hok, hout⟩ := hrun.answers ⟨⟨h, rfl⟩, ⟨h, rfl⟩, Nat.le_refl _, hserving⟩
    exact ⟨hok, hout.2⟩
  rotated hserving := by
    obtain ⟨_, hok, hout⟩ := (rotate_answers ha).answers ⟨⟨h, rfl⟩, Nat.le_refl _, hserving⟩
    exact ⟨hok, hout.2⟩
  closed hserving := by
    obtain ⟨_, hok, hout⟩ := (close_answers ha).answers ⟨⟨h, rfl⟩, Nat.le_refl _, hserving⟩
    exact ⟨hok, hout.2⟩

/-- Whatever the system answers: the closed segments and the current file are the bytes
written, and a write ends, with all its bytes written where it returns. When no call fails any
more, a start, and the operations of the process that it leaves, return. -/
theorem output_segments (env : Answers) (hsegment : 1 ≤ segmentBytes)
    (h : Reachable (stepStream env segmentBytes) (fun _ _ => True) (fun d => d = {}) d) :
    Segmented env segmentBytes d ∧
      (∀ data, (write env segmentBytes data d).1 ≠ .error .unfinished ∧ ∃ p, p <+: data ∧
        writtenBytes (stepStream env segmentBytes d (.write data)) = writtenBytes d ++ p ∧
        ((write env segmentBytes data d).1 = .ok () → p = data)) ∧
      (AnsweringFrom env d.calls → Unfailing env segmentBytes d) := by
  have hd : Segmented env segmentBytes d := by
    refine h.invariant (fun d hinit => ?_) fun d a hd _ => hd.step hsegment a
    rw [hinit]
    exact segmented_empty
  refine ⟨hd, fun data => ?_, hd.unfailing hsegment⟩
  have hrun : Tx.Triple (WithBytes env segmentBytes (writtenBytes d)) (write env segmentBytes data)
      (fun _ => WithBytes env segmentBytes (writtenBytes d ++ data))
      (Partly env segmentBytes (writtenBytes d) data) :=
    writeLoop_written hsegment data.length data _ (Nat.le_refl _)
  have hstep : stepStream env segmentBytes d (.write data) = (write env segmentBytes data d).2 := rfl
  rw [hstep]
  rcases hout : write env segmentBytes data d with ⟨e | _, d'⟩
  · obtain ⟨he, p, hp, hw⟩ := hrun.error ⟨hd, rfl⟩ hout
    exact ⟨by simpa using he, p, hp, hw.2, fun hok => by cases hok⟩
  · have hw := hrun.ok ⟨hd, rfl⟩ hout
    exact ⟨by simp, data, List.prefix_rfl, hw.2, fun _ => rfl⟩

/-- Every write takes one byte, and the process dies before the unlink of a rotation. -/
def plainAnswers : Answers where
  clock _ := 0
  uuid n := n
  count _ := 1
  foreign _ := 0
  alive n := n ≠ 12

def interruptedRun : List StreamAction := [.start, .write [1, 2, 3], .start]

theorem plainAnswers_answering {first : ℕ} (h : 12 < first) : AnsweringFrom plainAnswers first where
  alive _ hn := decide_eq_true (Nat.ne_of_gt (h.trans_le hn))
  count _ _ := Nat.one_pos
  foreign _ _ := rfl
  uuid _ _ heq := heq

/-- The file that is a link of the first segment already is not closed twice, and the process
that found it goes on writing. -/
theorem output_segments_plain :
    (((interruptedRun.foldl (stepStream plainAnswers 2) {}).closed.map fun c =>
        (interruptedRun.foldl (stepStream plainAnswers 2) {}).files c.file) = [[1, 2]] ∧
      keptBytes (interruptedRun.foldl (stepStream plainAnswers 2) {}) = [1, 2] ∧
      12 < (interruptedRun.foldl (stepStream plainAnswers 2) {}).calls) ∧
      Segmented plainAnswers 2 (interruptedRun.foldl (stepStream plainAnswers 2) {}) ∧
      Unfailing plainAnswers 2 (interruptedRun.foldl (stepStream plainAnswers 2) {}) :=
  have hrun : ((interruptedRun.foldl (stepStream plainAnswers 2) {}).closed.map fun c =>
        (interruptedRun.foldl (stepStream plainAnswers 2) {}).files c.file) = [[1, 2]] ∧
      keptBytes (interruptedRun.foldl (stepStream plainAnswers 2) {}) = [1, 2] ∧
      12 < (interruptedRun.foldl (stepStream plainAnswers 2) {}).calls := by decide +kernel
  have hall := output_segments plainAnswers (by decide)
    ⟨{}, interruptedRun, rfl, .of_total (fun _ _ => trivial) _ _⟩
  ⟨hrun, hall.1, hall.2.2 (plainAnswers_answering hrun.2.2)⟩

end NyanyaAgent.Safety
