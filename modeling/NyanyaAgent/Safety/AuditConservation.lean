import NyanyaAgent.AuditLogs.Archive

/-!
# Audit rows and archives are conserved

A row goes only behind a verified copy, an archive only when nothing it holds or should hold
is evidence, and what a crash leaves the next run finishes.
-/
namespace NyanyaAgent.Safety
open NyanyaAgent.Schema NyanyaAgent.Relational NyanyaAgent.Runs NyanyaAgent.Calendar
open NyanyaAgent.ServiceLogs NyanyaAgent.AuditLogs

variable {text : AuditText} {now : Instant} {apply named : Bool} {d d' d₁ : AuditState}
  {m : Month} {ms : List Month} {r : AuditRow} {live archived : List AuditRow} {s : Session}

section Months
/-!
### Months and days
-/

theorem daysInMonth_ge (year month : ℕ) : 28 ≤ daysInMonth year month := by
  unfold daysInMonth
  split_ifs <;> omega

/-- Days as if every month had twenty-eight. -/
def shortDays (d : Date) : ℕ := 28 * (12 * d.year + d.month) + min d.day 28

theorem shortDays_next (d : Date) (h : d.Valid) : shortDays d.next ≤ shortDays d + 1 := by
  have hlong := daysInMonth_ge d.year d.month
  obtain ⟨hm₁, hm₂, hd₁, hd₂⟩ := h
  unfold Date.next shortDays
  split_ifs <;> dsimp only <;> omega

theorem iterate_valid (n : ℕ) {d : Date} (h : d.Valid) : (Date.next^[n] d).Valid := by
  induction n with
  | zero => exact h
  | succ n ih =>
    rw [Function.iterate_succ_apply']
    exact ih.next

theorem shortDays_iterate (n : ℕ) {d : Date} (h : d.Valid) :
    shortDays (Date.next^[n] d) ≤ shortDays d + n := by
  induction n with
  | zero => exact Nat.le_refl _
  | succ n ih =>
    rw [Function.iterate_succ_apply']
    have hstep := shortDays_next _ (iterate_valid n h)
    omega

theorem month_mono (n : ℕ) : ∀ d : Date, d.Valid →
    d.year * 100 + d.month ≤ (Date.next^[n] d).year * 100 + (Date.next^[n] d).month := by
  induction n with
  | zero => exact fun d _ => Nat.le_refl _
  | succ n ih =>
    intro d hd
    refine (?_ : _ ≤ d.next.year * 100 + d.next.month).trans (ih d.next hd.next)
    obtain ⟨hm₁, hm₂, _, _⟩ := hd
    unfold Date.next
    split_ifs <;> dsimp only <;> omega

/-- Days whose months are more than a year apart are more than ninety days apart. -/
theorem lt_of_month_lt {i j : ℕ} {d : Date} (hd : d.Valid)
    (h : (Date.next^[i] d).year * 100 + (Date.next^[i] d).month <
      (Date.next^[j] d).year * 100 + (Date.next^[j] d).month - 100) : i + 90 < j := by
  have hearlier := iterate_valid i hd
  have hlater := iterate_valid j hd
  by_contra hnot
  rcases Nat.le_total i j with hle | hle
  · obtain ⟨n, rfl⟩ := Nat.exists_eq_add_of_le hle
    rw [Nat.add_comm i n, Function.iterate_add_apply] at h hlater
    have hshort := shortDays_iterate n hearlier
    obtain ⟨hm₁, hm₂, hd₁, hd₂⟩ := hearlier
    obtain ⟨hm₁', hm₂', hd₁', hd₂'⟩ := hlater
    unfold shortDays at hshort
    omega
  · obtain ⟨n, rfl⟩ := Nat.exists_eq_add_of_le hle
    rw [Nat.add_comm j n, Function.iterate_add_apply] at h
    have hmono := month_mono n _ hlater
    omega

/-- An instant of a month before the last twelve is older than ninety days. -/
theorem old_of_month {t : Instant} (h : kstMonth t < expiration now) : t + 90 * dayMicros < now := by
  have hvalid : Date.Valid ⟨1, 1, 1⟩ := ⟨by decide, by decide, by decide, by decide⟩
  have hday : 0 < dayMicros := by decide
  have hlt : (t + 9 * hourMicros) / dayMicros + 90 < (now + 9 * hourMicros) / dayMicros :=
    lt_of_month_lt hvalid h
  rw [← Nat.add_mul_div_right _ _ hday] at hlt
  have hdays : t + 9 * hourMicros + 90 * dayMicros < now + 9 * hourMicros := by
    by_contra hnot
    exact Nat.not_le_of_lt hlt (Nat.div_le_div_right (Nat.le_of_not_lt hnot))
  exact Nat.lt_of_add_lt_add_right ((Nat.add_right_comm _ _ _).trans_lt hdays)

end Months

/-- The archive can be read under one of the two states a run leaves it in. -/
def Complete (text : AuditText) (d : AuditState) (m : Month) (archived : List AuditRow) : Prop :=
  readArchive text d m .single = some archived ∨ readArchive text d m .temporary = some archived

/-- A live row of the month is not in its archive. -/
def Conflicts (text : AuditText) (d : AuditState) (m : Month) (archived : List AuditRow) : Prop :=
  ∃ r ∈ d.rows.rows, monthOf text r = some m ∧ r ∉ archived

/-- What one change of a run may do. -/
structure Warranted (text : AuditText) (now : Instant) (d d' : AuditState) : Prop where
  rows : ∀ r ∈ d'.rows.rows, r ∈ d.rows.rows
  removed : ∀ r ∈ d.rows.rows, r ∉ d'.rows.rows → Housekeeping r ∧ Old text now r ∧
    ∃ m archived, monthOf text r = some m ∧ readArchive text d m .single = some archived ∧
      r ∈ archived ∧ ¬ Conflicts text d m archived
  archives : ∀ m a, d.archives.get? m = some a →
    (∃ a', d'.archives.get? m = some a' ∧ a'.content = a.content) ∨
      m < expiration now ∧ ∃ archived, readArchive text d m .single = some archived ∧
        (∀ r ∈ archived, Housekeeping r) ∧ ∀ r ∈ d.rows.rows, monthOf text r ≠ some m

/-- A change of the disk that keeps the rows and every archive's content. -/
theorem Warranted.of_kept (hrows : d'.rows = d.rows)
    (harchives : ∀ m a, d.archives.get? m = some a →
      ∃ a', d'.archives.get? m = some a' ∧ a'.content = a.content) : Warranted text now d d' where
  rows := fun _ hr => hrows ▸ hr
  removed := fun _ hr hnot => absurd (hrows ▸ hr) hnot
  archives := fun m a ha => .inl (harchives m a ha)

theorem Warranted.of_archives_eq (hrows : d'.rows = d.rows) (harchives : d'.archives = d.archives) :
    Warranted text now d d' :=
  .of_kept hrows fun _ a ha => ⟨a, harchives ▸ ha, rfl⟩

theorem get?_unlinkTemporary (m j : Month) (d : AuditState) :
    (unlinkTemporary m d).archives.get? j = (d.archives.get? j).map fun a =>
      if a.month = m then { a with links := .single } else a := by
  exact Table.get?_update d.archives (fun a => a.month = m)
    (fun a => { a with links := .single }) (fun _ => rfl) j

theorem unlinkTemporary_ne {j : Month} (h : j ≠ m) :
    (unlinkTemporary m d).archives.get? j = d.archives.get? j := by
  rw [get?_unlinkTemporary]
  cases ha : d.archives.get? j with
  | none => rfl
  | some a =>
    have hkey : a.month = j := Table.key_of_get? ha
    rw [Option.map_some, if_neg (hkey ▸ h)]

theorem warranted_unlinkTemporary : Warranted text now d (unlinkTemporary m d) := by
  refine .of_kept rfl fun j a ha => ?_
  refine ⟨if a.month = m then { a with links := .single } else a, ?_, ?_⟩
  · rw [get?_unlinkTemporary, ha, Option.map_some]
  · split_ifs <;> rfl

theorem publish_get? {j : Month} {rows : List AuditRow} (h : j ≠ m) :
    (publish text m rows now d).archives.get? j = d.archives.get? j := by
  unfold publish
  split
  · rename_i archives hinsert
    exact (Table.get?_insert hinsert j).trans (if_neg h)
  · rfl

theorem publish_rows {rows : List AuditRow} : (publish text m rows now d).rows = d.rows := by
  unfold publish
  split <;> rfl

theorem warranted_publish {rows : List AuditRow} :
    Warranted text now d (publish text m rows now d) := by
  refine .of_kept publish_rows fun j a ha => ⟨a, ?_, rfl⟩
  unfold publish
  split
  · rename_i archives hinsert
    exact Table.get?_insert_of_some hinsert ha
  · exact ha

theorem readArchive_congr {links : Links} (h : d'.archives.get? m = d.archives.get? m) :
    readArchive text d' m links = readArchive text d m links := by
  unfold readArchive
  rw [h]

section Loop
/-!
### One month
-/

/-- The rows are among those of the start, and the months ahead have their archives. -/
structure Ahead (d₁ : AuditState) (ms : List Month) (s : Session) : Prop where
  rows : ∀ r ∈ s.disk.rows.rows, r ∈ d₁.rows.rows
  archives : ∀ m ∈ ms, s.disk.archives.get? m = d₁.archives.get? m

/-- The change of a session's disk is justified. -/
def Changes (text : AuditText) (now : Instant) (s s' : Session) : Prop :=
  Warranted text now s.disk s'.disk

theorem keeps_verified {R : Session → Session → Prop} {P : Session → Prop}
    {X : String → Session → Prop}
    (hX : ∀ s, P s → readArchive text s.disk m .single = none → X verificationFailed s) :
    Durable.Ensures R P (verified text m)
      (fun rows s => P s ∧ readArchive text s.disk m .single = some rows) X := by
  unfold verified
  refine .bind (M := fun s₀ s => P s ∧ s₀ = s) (.of_select fun s hs => ⟨hs, rfl⟩) fun s₀ => ?_
  split
  · rename_i rows hrows
    refine .of_pure fun s hs => ⟨hs.1, ?_⟩
    rw [← hs.2]
    exact hrows
  · rename_i hnone
    refine .of_raise fun s hs => hX s hs.1 ?_
    rw [← hs.2]
    exact hnone

/-- A change of the disk by a function that is justified everywhere. -/
theorem keeps_changeDisk {P : Session → Prop} {X : String → Session → Prop} {Q : Unit → Session → Prop}
    {f : AuditState → AuditState} (hf : ∀ d, Warranted text now d (f d))
    (hQ : ∀ s, P s → Q () { s with disk := f s.disk }) :
    Durable.Ensures (Changes text now) P (changeDisk f) Q X :=
  .of_change fun s hs => ⟨hf s.disk, hQ s hs⟩

theorem keeps_writeArchive {X : String → Session → Prop} (hm : m ∉ ms)
    (hX : ∀ e s, Ahead d₁ ms s → X e s) :
    Durable.Ensures (Changes text now) (Ahead d₁ ms) (writeArchive text m live now)
      (fun _ s => Ahead d₁ ms s) X := by
  have hsame : ∀ d n, Warranted text now d { d with others := n } :=
    fun d n => .of_archives_eq rfl rfl
  have hothers : ∀ (s : Session) (n : ℕ), Ahead d₁ ms s →
      Ahead d₁ ms { s with disk := { s.disk with others := n } } := fun s n h => ⟨h.rows, h.archives⟩
  have hne : ∀ j ∈ ms, j ≠ m := fun j hj heq => hm (heq ▸ hj)
  unfold writeArchive
  refine .bind (M := fun _ s => Ahead d₁ ms s)
    (.of_require (fun s hs _ => hs) fun s hs _ => hX _ s hs) fun _ => ?_
  refine .bind (M := fun _ s => Ahead d₁ ms s)
    (keeps_changeDisk (fun d => hsame d _) fun s hs => hothers s _ hs) fun _ => ?_
  refine .bind (M := fun _ s => Ahead d₁ ms s) (.of_select fun s hs => hs) fun s₀ => ?_
  refine .of_ite (fun _ => ?_) fun _ => .of_ite (fun _ => ?_) fun _ => ?_
  · refine .bind (M := fun _ s => Ahead d₁ ms s)
      (keeps_changeDisk (fun d => hsame d _) fun s hs => hothers s _ hs) fun _ => ?_
    exact .of_raise fun s hs => hX _ s hs
  · refine .bind (M := fun _ s => Ahead d₁ ms s)
      (keeps_changeDisk (fun d => hsame d _) fun s hs => hothers s _ hs) fun _ => ?_
    exact .of_raise fun s hs => hX _ s hs
  · refine .bind (M := fun _ s => Ahead d₁ ms s) ?_ fun _ => ?_
    · refine keeps_changeDisk (fun d => warranted_publish) fun s hs => ⟨?_, fun j hj => ?_⟩
      · dsimp only
        rw [publish_rows]
        exact hs.rows
      · exact (publish_get? (hne j hj)).trans (hs.archives j hj)
    · refine keeps_changeDisk (fun d => warranted_unlinkTemporary) fun s hs => ⟨hs.rows, fun j hj => ?_⟩
      exact (unlinkTemporary_ne (hne j hj)).trans (hs.archives j hj)

/-- The month's archive can be read and has all of the live rows. -/
def SoundArchive (text : AuditText) (d : AuditState) (m : Month) (live : List AuditRow) : Prop :=
  ∃ archived, readArchive text d m .single = some archived ∧ ∀ r ∈ live, r ∈ archived

/-- Between the archiving and the retention of a month. -/
structure Archived (text : AuditText) (d₁ : AuditState) (ms : List Month) (m : Month)
    (live archived : List AuditRow) (s : Session) : Prop where
  ahead : Ahead d₁ ms s
  read : readArchive text s.disk m .single = some archived
  copies : ∀ r ∈ live, r ∈ archived

theorem keeps_archivedRows (hm : m ∉ ms) :
    Durable.Ensures (Changes text now) (Ahead d₁ (m :: ms))
      (archivedRows text now apply m live named)
      (fun archived s => Ahead d₁ ms s ∧
        (apply = true ∨ named = true → Archived text d₁ ms m live archived s))
      (fun _ s => Ahead d₁ ms s ∧ (named = true → ¬ SoundArchive text d₁ m live)) := by
  have htail : ∀ s, Ahead d₁ (m :: ms) s → Ahead d₁ ms s :=
    fun s hs => ⟨hs.rows, fun j hj => hs.archives j (List.mem_cons_of_mem _ hj)⟩
  have hread : ∀ s, Ahead d₁ (m :: ms) s →
      readArchive text s.disk m .single = readArchive text d₁ m .single :=
    fun s hs => readArchive_congr (hs.archives m List.mem_cons_self)
  unfold archivedRows
  refine .of_ite (fun hnamed => ?_) fun hnamed => ?_
  · refine .bind (keeps_verified (P := Ahead d₁ (m :: ms)) fun s hs hnone => ?_) fun archived => ?_
    · refine ⟨htail s hs, ?_⟩
      rintro _ ⟨archived, harchived, _⟩
      rw [← hread s hs, hnone] at harchived
      cases harchived
    · refine .bind (M := fun _ s => Archived text d₁ ms m live archived s)
        (.of_require (fun s hs hcopies => ⟨htail s hs.1, hs.2, hcopies⟩) fun s hs hnot => ?_) fun _ => ?_
      · refine ⟨htail s hs.1, ?_⟩
        rintro _ ⟨archived', harchived', hcopies⟩
        rw [← hread s hs.1, hs.2] at harchived'
        obtain rfl := Option.some.inj harchived'
        exact hnot hcopies
      · exact .of_pure fun s hs => ⟨hs.ahead, fun _ => hs⟩
  · have hX : ∀ s, Ahead d₁ ms s → Ahead d₁ ms s ∧ (named = true → ¬ SoundArchive text d₁ m live) :=
      fun s hs => ⟨hs, fun h => absurd h hnamed⟩
    refine .bind (M := fun _ s => Ahead d₁ ms s)
      (.of_require (fun s hs _ => htail s hs) fun s hs _ => hX s (htail s hs)) fun _ => ?_
    refine .of_ite (fun happly => ?_) fun happly => ?_
    · refine .bind (keeps_writeArchive hm fun e s hs => hX s hs) fun _ => ?_
      refine .bind (keeps_verified (P := Ahead d₁ ms) fun s hs _ => hX s hs) fun checked => ?_
      refine .bind (M := fun _ s => Archived text d₁ ms m live live s)
        (.of_require (fun s hs hsame => ⟨hs.1, hsame ▸ hs.2, fun r hr => hr⟩)
          fun s hs _ => hX s hs.1) fun _ => ?_
      exact .of_pure fun s hs => ⟨hs.ahead, fun _ => hs⟩
    · exact .of_pure fun s hs => ⟨hs, fun h => by
        rcases h with h | h
        · exact absurd h happly
        · exact absurd h hnamed⟩

theorem Archived.rows_changed {batch : List AuditRow} {n : ℕ}
    (h : Archived text d₁ ms m live archived s) :
    Archived text d₁ ms m live archived
      { disk := { s.disk with rows := s.disk.rows.delete fun r => r ∈ batch }, deletedRows := n } where
  ahead := ⟨fun r hr => h.ahead.rows r (List.mem_filter.mp hr).1, h.ahead.archives⟩
  read := h.read
  copies := h.copies

/-- The rows of a month that its run may prune. -/
structure Prunable (text : AuditText) (now : Instant) (d₁ : AuditState) (m : Month)
    (live : List AuditRow) (r : AuditRow) : Prop where
  live : r ∈ live
  present : r ∈ d₁.rows.rows
  month : monthOf text r = some m
  housekeeping : Housekeeping r
  old : Old text now r

theorem mem_delete {batch : List AuditRow} {t : Table AuditRow.id} :
    r ∈ (t.delete fun r => r ∈ batch).rows ↔ r ∈ t.rows ∧ r ∉ batch := by
  unfold Table.delete
  rw [List.mem_filter, decide_eq_true_eq]

/-- The month's live rows are those of the start. -/
def LiveOf (text : AuditText) (d₁ : AuditState) (m : Month) (live : List AuditRow) : Prop :=
  ∀ r, r ∈ live ↔ r ∈ d₁.rows.rows ∧ monthOf text r = some m

theorem Archived.no_conflict (h : Archived text d₁ ms m live archived s)
    (hlive : LiveOf text d₁ m live) : ¬ Conflicts text s.disk m archived := by
  rintro ⟨r, hr, hmonth, hnot⟩
  exact hnot (h.copies r ((hlive r).mpr ⟨h.ahead.rows r hr, hmonth⟩))

theorem keeps_pruneBatch {batch : List AuditRow} {X : String → Session → Prop} {k : ℕ}
    {gone : List AuditRow} (hlive : LiveOf text d₁ m live)
    (hbatch : ∀ r ∈ batch, Prunable text now d₁ m live r) :
    Durable.Ensures (Changes text now)
      (fun s => Archived text d₁ ms m live archived s ∧ s.deletedRows ≤ k ∧
        ∀ r ∈ gone, r ∉ s.disk.rows.rows)
      (pruneBatch batch)
      (fun _ s => Archived text d₁ ms m live archived s ∧ s.deletedRows ≤ k + batch.length ∧
        ∀ r ∈ gone ++ batch, r ∉ s.disk.rows.rows) X := by
  unfold pruneBatch
  refine .bind (M := fun s₀ s => (Archived text d₁ ms m live archived s ∧ s.deletedRows ≤ k ∧
    ∀ r ∈ gone, r ∉ s.disk.rows.rows) ∧ s₀ = s) (.of_select fun s hs => ⟨hs, rfl⟩) fun s₀ => ?_
  refine .bind (M := fun _ s => Archived text d₁ ms m live archived s ∧ s.deletedRows ≤ k ∧
    ∀ r ∈ gone, r ∉ s.disk.rows.rows) (.of_require (fun s hs _ => hs.1) fun s hs hnot => ?_) fun _ => ?_
  · -- A row with the key of a live row is that row.
    refine absurd (fun r hr r' hr' => ?_) hnot
    rw [hs.2] at hr'
    have hold := hs.1.1.ahead.rows r' (Table.get?_eq_some.mp hr').1
    have hkey := (Table.get?_eq_some.mp hr').2
    have hsame := Table.mem_rows_iff.mp (hbatch r hr).present
    rw [← hkey, Table.mem_rows_iff.mp hold] at hsame
    exact Option.some.inj hsame
  · refine .of_change fun s hs => ⟨⟨?_, ?_, ?_⟩, hs.1.rows_changed, ?_, ?_⟩
    · exact fun r hr => (mem_delete.mp hr).1
    · intro r hr hnot
      have hmem : r ∈ batch := by
        by_contra hno
        exact hnot (mem_delete.mpr ⟨hr, hno⟩)
      have hprunable := hbatch r hmem
      exact ⟨hprunable.housekeeping, hprunable.old, m, archived, hprunable.month, hs.1.read,
        hs.1.copies r hprunable.live, hs.1.no_conflict hlive⟩
    · exact fun j a ha => .inl ⟨a, ha, rfl⟩
    · exact Nat.add_le_add hs.2.1 (List.length_filter_le _ _)
    · intro r hr hmem
      obtain ⟨hrow, hnot⟩ := mem_delete.mp hmem
      rcases List.mem_append.mp hr with hgone | hnew
      · exact hs.2.2 r hgone hrow
      · exact hnot hnew

theorem keeps_pruneBatches {X : String → Session → Prop} (hlive : LiveOf text d₁ m live)
    (batches : List (List AuditRow)) : ∀ (k : ℕ) (gone : List AuditRow),
    (∀ b ∈ batches, ∀ r ∈ b, Prunable text now d₁ m live r) →
    Durable.Ensures (Changes text now)
      (fun s => Archived text d₁ ms m live archived s ∧ s.deletedRows ≤ k ∧
        ∀ r ∈ gone, r ∉ s.disk.rows.rows)
      (pruneBatches batches)
      (fun _ s => Archived text d₁ ms m live archived s ∧
        s.deletedRows ≤ k + batches.flatten.length ∧
        ∀ r ∈ gone ++ batches.flatten, r ∉ s.disk.rows.rows) X := by
  induction batches with
  | nil =>
    intro k gone _
    exact .of_pure fun s hs => ⟨hs.1, hs.2.1, fun r hr => hs.2.2 r (by simpa using hr)⟩
  | cons b bs ih =>
    intro k gone hall
    refine .bind (keeps_pruneBatch hlive (hall b List.mem_cons_self)) fun _ => ?_
    refine (ih (k + b.length) (gone ++ b) fun b' hb' => hall b' (List.mem_cons_of_mem _ hb')).mono
      (fun s hs => hs) (fun _ s hs => ?_) fun _ _ hx => hx
    refine ⟨hs.1, ?_, ?_⟩
    · rw [List.flatten_cons, List.length_append]
      have hcount := hs.2.1
      omega
    · rw [List.flatten_cons, ← List.append_assoc]
      exact hs.2.2

theorem flatten_batchesOf (n : ℕ) : ∀ rows : List AuditRow, rows.length ≤ n →
    (batchesOf n rows).flatten = rows := by
  induction n with
  | zero =>
    intro rows h
    rw [List.length_eq_zero_iff.mp (Nat.le_zero.mp h)]
    rfl
  | succ n ih =>
    intro rows h
    unfold batchesOf
    split_ifs with hempty
    · rw [hempty]
      rfl
    · have hpos := List.length_pos_iff.mpr hempty
      have hrest : (rows.drop deleteBatch).length ≤ n := by
        rw [List.length_drop]
        unfold deleteBatch
        omega
      rw [List.flatten_cons, ih _ hrest, List.take_append_drop]

/-- Pruning leaves none of the rows, or counts what it leaves. -/
theorem keeps_pruneMonth {X : String → Session → Prop} {prunable : List AuditRow}
    (hlive : LiveOf text d₁ m live) (hprunable : ∀ r ∈ prunable, Prunable text now d₁ m live r) :
    Durable.Ensures (Changes text now) (Archived text d₁ ms m live archived)
      (pruneMonth text apply m archived prunable)
      (fun remaining s => Archived text d₁ ms m live archived s ∧
        (apply = true → remaining = 0 → ∀ r ∈ prunable, r ∉ s.disk.rows.rows)) X := by
  unfold pruneMonth
  refine .of_ite (fun hrun => ?_) fun hskip => ?_
  · refine .bind (M := fun s₀ s => Archived text d₁ ms m live archived s ∧ s₀ = s)
      (.of_select fun s hs => ⟨hs, rfl⟩) fun s₀ => ?_
    refine .bind (M := fun _ s => Archived text d₁ ms m live archived s ∧
      (prunable.length ≤ s.deletedRows - s₀.deletedRows → ∀ r ∈ prunable, r ∉ s.disk.rows.rows))
      ?_ fun _ => ?_
    · unfold prune
      refine .bind (M := fun s₁ s => Archived text d₁ ms m live archived s ∧ s₀ = s ∧ s₁ = s)
        (.of_select fun s hs => ⟨hs.1, hs.2, rfl⟩) fun s₁ => ?_
      refine .bind (keeps_verified (P := fun s => Archived text d₁ ms m live archived s ∧ s₀ = s ∧
        s₁ = s) fun s hs hnone => ?_) fun checked => ?_
      · rw [hs.1.read] at hnone
        cases hnone
      refine .bind (M := fun _ s => Archived text d₁ ms m live archived s ∧ s₀ = s ∧ s₁ = s)
        (.of_require (fun s hs _ => hs.1) fun s hs hnot => ?_) fun _ => ?_
      · have hread := hs.2
        rw [hs.1.1.read] at hread
        exact absurd (Option.some.inj hread).symm hnot
      · generalize hchosen : prunable.take (maxPruneRows - s₁.deletedRows) = chosen
        have hflat := flatten_batchesOf _ chosen le_rfl
        have hsub : ∀ b ∈ batchesOf chosen.length chosen, ∀ r ∈ b, Prunable text now d₁ m live r := by
          intro b hb r hr
          have hmem := List.mem_flatten.mpr ⟨b, hb, hr⟩
          rw [hflat, ← hchosen] at hmem
          exact hprunable r (List.mem_of_mem_take hmem)
        have hpruned : Durable.Ensures (Changes text now)
            (fun s => Archived text d₁ ms m live archived s ∧ s.deletedRows ≤ s₀.deletedRows ∧
              ∀ r ∈ ([] : List AuditRow), r ∉ s.disk.rows.rows)
            (pruneBatches (batchesOf chosen.length chosen))
            (fun _ s => Archived text d₁ ms m live archived s ∧
              s.deletedRows ≤ s₀.deletedRows + (batchesOf chosen.length chosen).flatten.length ∧
              ∀ r ∈ [] ++ (batchesOf chosen.length chosen).flatten, r ∉ s.disk.rows.rows) X :=
          keeps_pruneBatches hlive _ s₀.deletedRows [] hsub
        refine hpruned.mono (fun s hs => ?_) (fun _ s hs => ?_) fun _ _ hx => hx
        · exact ⟨hs.1, hs.2.1 ▸ Nat.le_refl _, fun r hr => by cases hr⟩
        · refine ⟨hs.1, fun hcount r hr => ?_⟩
          obtain ⟨_, hdeleted, hgone⟩ := hs
          rw [hflat] at hdeleted hgone
          have hall : chosen = prunable := by
            rw [← hchosen] at hdeleted ⊢
            rw [List.length_take] at hdeleted
            apply List.take_of_length_le
            omega
          rw [hall, List.nil_append] at hgone
          exact hgone r hr
    · refine .bind (M := fun s₁ s => (Archived text d₁ ms m live archived s ∧
        (prunable.length ≤ s.deletedRows - s₀.deletedRows → ∀ r ∈ prunable, r ∉ s.disk.rows.rows)) ∧
        s₁ = s) (.of_select fun s hs => ⟨hs, rfl⟩) fun s₁ => ?_
      refine .of_pure fun s hs => ⟨hs.1.1, fun _ hzero => hs.1.2 ?_⟩
      rw [hs.2] at hzero
      exact Nat.le_of_sub_eq_zero hzero
  · refine .of_pure fun s hs => ⟨hs, fun happly _ r hr => ?_⟩
    rw [not_and_not_right] at hskip
    rw [hskip happly] at hr
    cases hr

theorem keeps_expire {X : String → Session → Prop} (hm : m ∉ ms)
    (hremove : ∀ s, Archived text d₁ ms m live archived s →
      (∀ r ∈ s.disk.rows.rows, monthOf text r ≠ some m) → m < expiration now ∧
        ∀ r ∈ archived, Housekeeping r) :
    Durable.Ensures (Changes text now)
      (fun s => Archived text d₁ ms m live archived s ∧
        ∀ r ∈ s.disk.rows.rows, monthOf text r ≠ some m)
      (expire text m archived) (fun _ s => Ahead d₁ ms s) X := by
  unfold expire
  refine .bind (keeps_verified (P := fun s => Archived text d₁ ms m live archived s ∧
    ∀ r ∈ s.disk.rows.rows, monthOf text r ≠ some m) fun s hs hnone => ?_) fun checked => ?_
  · rw [hs.1.read] at hnone
    cases hnone
  refine .bind (M := fun _ s => Archived text d₁ ms m live archived s ∧
    ∀ r ∈ s.disk.rows.rows, monthOf text r ≠ some m)
    (.of_require (fun s hs _ => hs.1) fun s hs hnot => ?_) fun _ => ?_
  · have hread := hs.2
    rw [hs.1.1.read] at hread
    exact absurd (Option.some.inj hread).symm hnot
  refine .bind (M := fun _ s => Archived text d₁ ms m live archived s ∧
    ∀ r ∈ s.disk.rows.rows, monthOf text r ≠ some m) (.of_select fun s hs => hs) fun s₀ => ?_
  refine .of_ite (fun _ => .of_pure fun s hs => hs.1.ahead) fun _ => ?_
  refine .bind (M := fun _ s => Ahead d₁ ms s) ?_ fun _ => .of_pure fun s hs => hs
  refine .of_change fun s hs => ⟨⟨fun r hr => hr, fun r hr hnot => absurd hr hnot, ?_⟩, ?_, ?_⟩
  · intro j a ha
    by_cases hj : j = m
    · subst hj
      obtain ⟨hold, hhousekeeping⟩ := hremove s hs.1 hs.2
      exact .inr ⟨hold, archived, hs.1.read, hhousekeeping, hs.2⟩
    · refine .inl ⟨a, ?_, rfl⟩
      have hkey : a.month = j := Table.key_of_get? ha
      show (s.disk.archives.delete fun a => a.month = m).get? j = some a
      rw [Table.get?_delete, ha, Option.filter_some, if_pos]
      rw [decide_eq_true_eq, hkey]
      exact hj
  · exact hs.1.ahead.rows
  · intro j hj
    have hne : j ≠ m := fun heq => hm (heq ▸ hj)
    show (s.disk.archives.delete fun a => a.month = m).get? j = _
    rw [Table.get?_delete, hs.1.ahead.archives j hj]
    cases ha : d₁.archives.get? j with
    | none => rfl
    | some a =>
      have hkey : a.month = j := Table.key_of_get? ha
      rw [Option.filter_some, if_pos]
      rw [decide_eq_true_eq, hkey]
      exact hne

theorem keeps_retainMonth {X : String → Session → Prop} {remaining : ℕ} (hm : m ∉ ms)
    (hlive : LiveOf text d₁ m live) :
    Durable.Ensures (Changes text now)
      (fun s => Archived text d₁ ms m live archived s ∧ (true = true → remaining = 0 →
        ∀ r ∈ live.filter fun r => Housekeeping r ∧ Old text now r, r ∉ s.disk.rows.rows))
      (retainMonth text now true m archived remaining) (fun _ s => Ahead d₁ ms s) X := by
  unfold retainMonth
  refine .of_ite (fun hmonth => ?_) fun _ => .of_pure fun s hs => hs.1.ahead
  refine .of_ite (fun _ => .of_pure fun s hs => hs.1.ahead) fun hpinned => ?_
  refine .of_ite (fun _ => .of_pure fun s hs => hs.1.ahead) fun hzero => ?_
  refine .of_ite (fun _ => ?_) fun hnot => absurd rfl hnot
  push Not at hpinned
  rw [not_not] at hzero
  refine .bind ((keeps_expire hm fun s _ _ => ⟨hmonth, hpinned⟩).mono (fun s hs => ⟨hs.1, ?_⟩)
    (fun _ _ h => h) fun _ _ h => h) fun expired => .of_pure fun s hs => hs
  -- A row of so old a month is a live one that was pruned.
  intro r hr hrmonth
  have hmem : r ∈ live := (hlive r).mpr ⟨hs.1.ahead.rows r hr, hrmonth⟩
  unfold AuditLogs.monthOf at hrmonth
  obtain ⟨t, ht, htmonth⟩ := Option.map_eq_some_iff.mp hrmonth
  have hold : Old text now r := ⟨t, ht, old_of_month (htmonth ▸ hmonth)⟩
  refine hs.2 rfl hzero r (List.mem_filter.mpr ⟨hmem, ?_⟩) hr
  rw [decide_eq_true_eq]
  exact ⟨hpinned r (hs.1.copies r hmem), hold⟩

theorem keeps_runMonth (hm : m ∉ ms) (hlive : LiveOf text d₁ m live) :
    Durable.Ensures (Changes text now) (Ahead d₁ (m :: ms)) (runMonth text now true m live named)
      (fun item s => Ahead d₁ ms s ∧ (named = true → item.status = .verified))
      (fun _ s => Ahead d₁ ms s ∧ (named = true → ¬ SoundArchive text d₁ m live)) := by
  unfold runMonth
  refine .bind ((keeps_archivedRows hm).mono (fun _ h => h) (fun archived s hs => hs.2 (.inl rfl))
    fun _ _ h => h) fun archived => ?_
  have hprunable : ∀ r ∈ live.filter fun r => Housekeeping r ∧ Old text now r,
      Prunable text now d₁ m live r := by
    intro r hr
    rw [List.mem_filter, decide_eq_true_eq] at hr
    have hrow := (hlive r).mp hr.1
    exact ⟨hr.1, hrow.1, hrow.2, hr.2.1, hr.2.2⟩
  refine .bind (keeps_pruneMonth hlive hprunable) fun remaining => ?_
  refine .bind (keeps_retainMonth hm hlive) fun answer => ?_
  obtain ⟨expired, retention⟩ := answer
  exact .of_pure fun s hs => ⟨hs, fun hnamed => if_pos hnamed⟩

/-- Each month with an archive is verified, unless its archive is not sound. -/
def SettledMonth (text : AuditText) (d₁ : AuditState) (rows : List AuditRow) (named : List Month)
    (items : List (Month × Except String MonthItem)) (m : Month) : Prop :=
  m ∈ named → ∃ item, (m, item) ∈ items ∧
    ((∃ i, item = .ok i ∧ i.status = .verified) ∨
      ¬ SoundArchive text d₁ m (rows.filter fun r => monthOf text r = some m))

theorem keeps_runMonths {X : String → Session → Prop} {rows : List AuditRow} {names : List Month}
    (hrows : ∀ r, r ∈ rows ↔ r ∈ d₁.rows.rows) (ms : List Month) : ms.Nodup →
    Durable.Ensures (Changes text now) (Ahead d₁ ms) (runMonths text now true rows names ms)
      (fun items _ => ∀ m ∈ ms, SettledMonth text d₁ rows names items m) X := by
  induction ms with
  | nil => exact fun _ => .of_pure fun s _ m hm => by cases hm
  | cons m ms ih =>
    intro hnodup
    obtain ⟨hm, hrest⟩ := List.nodup_cons.mp hnodup
    have hlive : LiveOf text d₁ m (rows.filter fun r => monthOf text r = some m) := by
      intro r
      rw [List.mem_filter, decide_eq_true_eq, hrows]
    unfold runMonths
    refine .bind (M := fun item s => Ahead d₁ ms s ∧ (m ∈ names →
      (∃ i, item = .ok i ∧ i.status = .verified) ∨
        ¬ SoundArchive text d₁ m (rows.filter fun r => monthOf text r = some m)))
      (.of_attempt (keeps_runMonth hm hlive) (fun i s hs => ⟨hs.1, fun hnamed => ?_⟩)
        fun e s hs => ⟨hs.1, fun hnamed => .inr (hs.2 (decide_eq_true hnamed))⟩) fun item => ?_
    · exact .inl ⟨i, rfl, hs.2 (decide_eq_true hnamed)⟩
    · refine .of_fact (fun s hs => hs.2) fun hitem => ?_
      refine .bind ((ih hrest).mono (fun s hs => hs.1) (fun _ _ h => h) fun _ _ h => h)
        fun items => .of_pure fun s hs j hj hnamed => ?_
      rcases List.mem_cons.mp hj with rfl | hj
      · exact ⟨item, List.mem_cons_self, hitem hnamed⟩
      · obtain ⟨item', hmem, hwhy⟩ := hs j hj hnamed
        exact ⟨item', List.mem_cons_of_mem _ hmem, hwhy⟩

end Loop
section Recovery
/-!
### After a crash
-/

/-- The rows are those of `d`, and its complete archives can be read, or still can be recovered. -/
structure Recovered (text : AuditText) (d : AuditState) (ms : List Month) (s : Session) : Prop where
  rows : s.disk.rows = d.rows
  present : s.disk.present = true
  read : ∀ m archived, Complete text d m archived →
    readArchive text s.disk m .single = some archived ∨
      m ∈ ms ∧ readArchive text s.disk m .temporary = some archived

theorem readArchive_unlinked {links : Links} (h : readArchive text d m links = some archived) :
    readArchive text (unlinkTemporary m d) m .single = some archived := by
  unfold readArchive at h ⊢
  simp only [Option.bind_eq_bind, Option.bind_eq_some_iff, Option.ite_none_right_eq_some,
    Option.some.injEq] at h ⊢
  obtain ⟨a, ha, c, hc, ⟨hprivate, _, hsize, hverified⟩, hrows⟩ := h
  have hkey : a.month = m := Table.key_of_get? ha
  refine ⟨{ a with links := .single }, ?_, c, hc, ⟨hprivate, rfl, hsize, hverified⟩, hrows⟩
  rw [get?_unlinkTemporary, ha, Option.map_some, if_pos hkey]

theorem keeps_recoverEach {X : String → Session → Prop} (ms : List Month) :
    Durable.Ensures (Changes text now) (Recovered text d ms) (recoverEach text ms)
      (fun _ s => Recovered text d [] s) X := by
  induction ms with
  | nil => exact .of_pure fun s hs => hs
  | cons m ms ih =>
    unfold recoverEach
    refine .bind (M := fun s₀ s => Recovered text d (m :: ms) s ∧ s₀ = s)
      (.of_select fun s hs => ⟨hs, rfl⟩) fun s₀ => ?_
    refine .of_ite (fun _ => .bind (M := fun _ s => Recovered text d ms s) ?_ fun _ => ih)
      fun hnone => ih.mono (fun s hs => ?_) (fun _ _ h => h) fun _ _ h => h
    · refine keeps_changeDisk (fun _ => warranted_unlinkTemporary) fun s hs => ⟨hs.1.rows, hs.1.present, ?_⟩
      intro j archived hcomplete
      rcases hs.1.read j archived hcomplete with hsingle | ⟨hj, htemporary⟩
      · left
        by_cases hjm : j = m
        · subst hjm
          exact readArchive_unlinked hsingle
        · exact (readArchive_congr (unlinkTemporary_ne hjm)).trans hsingle
      · rcases List.mem_cons.mp hj with rfl | hj
        · exact .inl (readArchive_unlinked htemporary)
        · by_cases hjm : j = m
          · subst hjm
            exact .inl (readArchive_unlinked htemporary)
          · exact .inr ⟨hj, (readArchive_congr (unlinkTemporary_ne hjm)).trans htemporary⟩
    · refine ⟨hs.1.rows, hs.1.present, fun j archived hcomplete => ?_⟩
      rcases hs.1.read j archived hcomplete with hsingle | ⟨hj, htemporary⟩
      · exact .inl hsingle
      · rcases List.mem_cons.mp hj with rfl | hj
        · rw [hs.2] at hnone
          exact absurd (Option.isSome_of_eq_some htemporary) hnone
        · exact .inr ⟨hj, htemporary⟩

/-- An archive that can be read is there. -/
theorem Complete.exists (h : Complete text d m archived) : m ∈ d.archives.rows.map (·.month) := by
  have hsome : ∃ a, d.archives.get? m = some a := by
    rcases h with h | h
    all_goals
      unfold readArchive at h
      obtain ⟨a, ha, _⟩ := Option.bind_eq_some_iff.mp h
      exact ⟨a, ha⟩
  obtain ⟨a, ha⟩ := hsome
  exact List.mem_map.mpr ⟨a, Table.get?_eq_some.mp ha⟩

/-- The disk before the recovery. -/
structure Entered (d : AuditState) (s : Session) : Prop where
  rows : s.disk.rows = d.rows
  archives : s.disk.archives = d.archives

theorem Entered.read {links : Links} (h : Entered d s) :
    readArchive text s.disk m links = readArchive text d m links :=
  readArchive_congr (by rw [h.archives])

theorem keeps_enterDirectory {X : String → Session → Prop} :
    Durable.Ensures (Changes text now) (Entered d) enterDirectory
      (fun _ s => Entered d s ∧ s.disk.present = true) X := by
  unfold enterDirectory
  refine .bind (M := fun s₀ s => Entered d s ∧ s₀ = s) (.of_select fun s hs => ⟨hs, rfl⟩) fun s₀ => ?_
  have hlock : ∀ p : Prop, [Decidable p] → Durable.Ensures (Changes text now)
      (fun s => Entered d s ∧ s.disk.present = true)
      (if p then changeDisk fun d => { d with lock := true } else pure ())
      (fun _ s => Entered d s ∧ s.disk.present = true) X := by
    intro p _
    refine .of_ite (fun _ => ?_) fun _ => .of_pure fun s hs => hs
    exact keeps_changeDisk (fun _ => .of_archives_eq rfl rfl)
      fun s hs => ⟨⟨hs.1.rows, hs.1.archives⟩, hs.2⟩
  refine .of_ite (fun _ => .bind ?_ fun _ => hlock _) fun hpresent =>
    (hlock _).mono (fun s hs => ⟨hs.1, ?_⟩) (fun _ _ h => h) fun _ _ h => h
  · exact keeps_changeDisk (fun _ => .of_archives_eq rfl rfl)
      fun s hs => ⟨⟨hs.1.rows, hs.1.archives⟩, rfl⟩
  · rw [hs.2, Bool.not_eq_false] at hpresent
    exact hpresent

theorem keeps_recoverPublication :
    Durable.Ensures (Changes text now) (fun s => Entered d s ∧ s.disk.present = true)
      (recoverPublication text) (fun _ s => Recovered text d [] s) (fun _ _ => True) := by
  unfold recoverPublication
  refine .bind (M := fun s₀ s => (Entered d s ∧ s.disk.present = true) ∧ s₀ = s)
    (.of_select fun s hs => ⟨hs, rfl⟩) fun s₀ => ?_
  refine .bind (M := fun _ s => (Entered d s ∧ s.disk.present = true) ∧ s₀ = s)
    (.of_require (fun s hs _ => hs) fun _ _ _ => trivial) fun _ => ?_
  refine (keeps_recoverEach _).mono (fun s hs => ⟨hs.1.1.rows, hs.1.2, fun m archived h => ?_⟩)
    (fun _ _ h => h) fun _ _ h => h
  rcases h with hsingle | htemporary
  · exact .inl (hs.1.1.read.trans hsingle)
  · refine .inr ⟨?_, hs.1.1.read.trans htemporary⟩
    rw [hs.2, hs.1.1.archives]
    exact Complete.exists (.inr htemporary)

/-- What a run that ends well says of each complete archive of a past month. -/
def Processed (text : AuditText) (now : Instant) (d : AuditState)
    (items : List (Month × Except String MonthItem)) : Prop :=
  ∀ m archived, m < kstMonth now → Complete text d m archived → ∃ item, (m, item) ∈ items ∧
    ((∃ i, item = .ok i ∧ i.status = .verified) ∨ Conflicts text d m archived)

theorem mem_pastMonths {months : List Month} :
    m ∈ pastMonths now months ↔ m ∈ months ∧ m < kstMonth now := by
  unfold pastMonths
  rw [List.mem_insertionSort, List.mem_dedup, List.mem_filter, decide_eq_true_eq]

theorem nodup_pastMonths (now : Instant) (months : List Month) : (pastMonths now months).Nodup :=
  (List.perm_insertionSort _ _).nodup_iff.mpr (List.nodup_dedup _)

theorem mem_readRows {rows : List AuditRow} (h : readRows text d = .ok rows) :
    r ∈ rows ↔ r ∈ d.rows.rows := by
  unfold readRows at h
  split_ifs at h
  rw [← Except.ok.inj h, List.mem_insertionSort]

theorem keeps_runArchives : Durable.Ensures (Changes text now) (Recovered text d [])
    (runArchives text now true) (fun items _ => Processed text now d items) (fun _ _ => True) := by
  unfold runArchives
  refine .bind (M := fun s₀ s => Recovered text d [] s ∧ s₀ = s)
    (.of_select fun s hs => ⟨hs, rfl⟩) fun s₀ => ?_
  refine .bind (M := fun rows s => (Recovered text d [] s ∧ s₀ = s) ∧
    readRows text s₀.disk = .ok rows) (.of_lift (fun rows h s hs => ⟨hs, h⟩) fun _ _ _ _ => trivial)
    fun rows => ?_
  refine .of_fact (fun s hs => (⟨hs.1.2 ▸ hs.1.1, hs.2⟩ : Recovered text d [] s₀ ∧
    readRows text s₀.disk = .ok rows)) fun hfact => ?_
  obtain ⟨hrecovered, hrows⟩ := hfact
  refine .bind (M := fun _ s => s₀ = s) (.of_require (fun s hs _ => hs.1.2) fun _ _ _ => trivial)
    fun _ => ?_
  refine .bind (M := fun _ s => s₀ = s) (.of_require (fun s hs _ => hs) fun _ _ _ => trivial)
    fun _ => ?_
  refine .bind (M := fun _ s => s₀ = s) (.of_require (fun s hs _ => hs) fun _ _ _ => trivial)
    fun _ => ?_
  refine (keeps_runMonths (fun r => mem_readRows hrows) _ (nodup_pastMonths now _)).mono
    (fun s hs => ?_) (fun items s hs m archived hm hcomplete => ?_) fun _ _ h => h
  · subst hs
    exact ⟨fun r hr => hr, fun m _ => rfl⟩
  · have hread : readArchive text s₀.disk m .single = some archived :=
      (hrecovered.read m archived hcomplete).resolve_right fun h => by cases h.1
    have hnamed : m ∈ s₀.disk.archives.rows.map (·.month) := Complete.exists (.inl hread)
    rw [if_pos hrecovered.present] at hs
    obtain ⟨item, hitem, hwhy⟩ := hs m (mem_pastMonths.mpr ⟨List.mem_append_right _ hnamed, hm⟩) hnamed
    refine ⟨item, hitem, hwhy.imp_right fun hunsound => ?_⟩
    by_contra hnone
    refine hunsound ⟨archived, hread, fun r hr => ?_⟩
    rw [List.mem_filter, decide_eq_true_eq, mem_readRows hrows, hrecovered.rows] at hr
    by_contra hnot
    exact hnone ⟨r, hr.1, hr.2, hnot⟩

theorem keeps_runArchive : Durable.Ensures (Changes text now) (fun s => s.disk = d)
    (runArchive text now true) (fun items _ => Processed text now d items) (fun _ _ => True) := by
  unfold runArchive
  refine .bind (M := fun _ s => s.disk = d) (.of_select fun s hs => hs) fun s₀ => ?_
  refine .bind (M := fun _ s => s.disk = d) (.of_lift (fun _ _ s hs => hs) fun _ _ _ _ => trivial)
    fun _ => ?_
  refine .of_ite (fun _ => ?_) fun hnot => absurd rfl hnot
  refine .bind (keeps_enterDirectory.mono (fun s hs => ⟨by rw [hs], by rw [hs]⟩) (fun _ _ h => h)
    fun _ _ h => h) fun _ => ?_
  exact .bind keeps_recoverPublication fun _ => keeps_runArchives

end Recovery

section DryRun
/-!
### Dry runs
-/

/-- The program changes nothing. -/
def Dry {α : Type} (m : Audit α) : Prop :=
  Durable.Ensures (fun _ _ => False) (fun _ => True) m (fun _ _ => True) fun _ _ => True

theorem Dry.of_pure {α : Type} (a : α) : Dry (pure a) :=
  Durable.Ensures.of_pure fun _ _ => True.intro

theorem Dry.bind {α β : Type} {m : Audit α} {f : α → Audit β} (hm : Dry m) (hf : ∀ a, Dry (f a)) :
    Dry (m >>= f) :=
  Durable.Ensures.bind hm hf

theorem Dry.of_ite {α : Type} {p : Prop} [Decidable p] {m n : Audit α} (hm : p → Dry m)
    (hn : ¬ p → Dry n) : Dry (if p then m else n) :=
  Durable.Ensures.of_ite hm hn

theorem Dry.of_require (p : Prop) [Decidable p] (e : String) : Dry (Durable.require p e) :=
  Durable.Ensures.of_require (fun _ _ _ => True.intro) fun _ _ _ => True.intro

theorem Dry.of_select {α : Type} (f : Session → α) : Dry (Durable.select f) :=
  Durable.Ensures.of_select fun _ _ => True.intro

theorem dry_verified (m : Month) : Dry (verified text m) :=
  (keeps_verified (P := fun _ => True) fun _ _ _ => True.intro).mono (fun _ h => h)
    (fun _ _ _ => True.intro) fun _ _ h => h

theorem dry_archivedRows : Dry (archivedRows text now false m live named) := by
  unfold archivedRows
  refine .of_ite (fun _ => ?_) fun _ => ?_
  · exact .bind (dry_verified m) fun _ => .bind (.of_require _ _) fun _ => .of_pure _
  · refine .bind (.of_require _ _) fun _ => .of_ite (fun h => ?_) fun _ => .of_pure _
    cases h

theorem dry_pruneMonth {prunable : List AuditRow} :
    Dry (pruneMonth text false m archived prunable) := by
  unfold pruneMonth
  refine .of_ite (fun h => ?_) fun _ => .of_pure _
  cases h.1

theorem dry_retainMonth {remaining : ℕ} : Dry (retainMonth text now false m archived remaining) := by
  unfold retainMonth
  refine .of_ite (fun _ => .of_ite (fun _ => .of_pure _) fun _ => ?_) fun _ => .of_pure _
  refine .of_ite (fun _ => .of_pure _) fun _ => .of_ite (fun h => ?_) fun _ => .of_pure _
  cases h

theorem dry_runMonth : Dry (runMonth text now false m live named) := by
  unfold runMonth
  exact .bind dry_archivedRows fun _ => .bind dry_pruneMonth fun _ =>
    .bind dry_retainMonth fun _ => .of_pure _

theorem dry_runMonths {rows : List AuditRow} {names : List Month} (ms : List Month) :
    Dry (runMonths text now false rows names ms) := by
  induction ms with
  | nil => exact .of_pure _
  | cons m ms ih =>
    have hitem : Dry (Durable.attempt (runMonth text now false m
        (rows.filter fun r => monthOf text r = some m) (m ∈ names))) :=
      Durable.Ensures.of_attempt dry_runMonth (fun _ _ _ => True.intro) fun _ _ _ => True.intro
    exact .bind hitem fun _ => .bind ih fun _ => .of_pure _

theorem dry_readRows (d : AuditState) : Dry (Durable.lift (readRows text d)) :=
  Durable.Ensures.of_lift (fun _ _ _ _ => True.intro) fun _ _ _ _ => True.intro

theorem dry_runArchives : Dry (runArchives text now false) := by
  unfold runArchives
  refine .bind (.of_select _) fun s => .bind (dry_readRows _) fun rows => ?_
  exact .bind (.of_require _ _) fun _ => .bind (.of_require _ _) fun _ =>
    .bind (.of_require _ _) fun _ => dry_runMonths _

theorem dry_runArchive : Dry (runArchive text now false) := by
  unfold runArchive
  refine .bind (.of_select _) fun s => .bind (dry_readRows _) fun rows => ?_
  refine .of_ite (fun h => ?_) fun _ => dry_runArchives
  cases h

end DryRun

section Conservation

theorem readArchive_content {links : Links} {a : ArchiveFile}
    (h : readArchive text d m links = some archived) (ha : d.archives.get? m = some a) :
    ∃ c, a.content = some c ∧ c.rows = archived := by
  unfold readArchive at h
  simp only [Option.bind_eq_bind, Option.bind_eq_some_iff, Option.ite_none_right_eq_some,
    Option.some.injEq] at h
  obtain ⟨a', ha', c, hc, _, hrows⟩ := h
  rw [ha] at ha'
  obtain rfl := Option.some.inj ha'
  exact ⟨c, hc, hrows⟩

theorem Complete.eq_of_read {archived' : List AuditRow} (h : Complete text d m archived)
    (h' : readArchive text d m .single = some archived') : archived' = archived := by
  obtain ⟨a, ha, hkey⟩ := List.mem_map.mp h.exists
  have hget : d.archives.get? m = some a := Table.get?_eq_some.mpr ⟨ha, hkey⟩
  obtain ⟨c', hc', rfl⟩ := readArchive_content h' hget
  rcases h with h | h
  all_goals
    obtain ⟨c, hc, rfl⟩ := readArchive_content h hget
    rw [hc] at hc'
    obtain rfl := Option.some.inj hc'
    rfl

theorem Warranted.evidence (h : Warranted text now d d') (hr : r ∈ d.rows.rows)
    (hpinned : ¬ Housekeeping r) : r ∈ d'.rows.rows := by
  by_contra hnot
  exact hpinned (h.removed r hr hnot).1

/-- An archive with evidence stays as it is. -/
theorem Warranted.evidenceArchive {a : ArchiveFile} {c : AuditLogs.ArchiveContent}
    (h : Warranted text now d d') (ha : d.archives.get? m = some a) (hc : a.content = some c)
    (hpinned : ∃ r ∈ c.rows, ¬ Housekeeping r) :
    ∃ a', d'.archives.get? m = some a' ∧ a'.content = some c := by
  rcases h.archives m a ha with ⟨a', ha', hsame⟩ | ⟨_, archived, hread, hall, _⟩
  · exact ⟨a', ha', hsame.trans hc⟩
  · obtain ⟨c', hc', rfl⟩ := readArchive_content hread ha
    rw [hc] at hc'
    obtain rfl := Option.some.inj hc'
    obtain ⟨r, hr, hnot⟩ := hpinned
    exact absurd (hall r hr) hnot

/-- Where live rows conflict with their archive, both stay as they are. -/
theorem Warranted.untouched {a : ArchiveFile} (h : Warranted text now d d')
    (hcomplete : Complete text d m archived) (hconflict : Conflicts text d m archived)
    (ha : d.archives.get? m = some a) :
    (∀ r ∈ d.rows.rows, monthOf text r = some m → r ∈ d'.rows.rows) ∧
      ∃ a', d'.archives.get? m = some a' ∧ a'.content = a.content := by
  constructor
  · intro r hr hmonth
    by_contra hnot
    obtain ⟨_, _, m', archived', hmonth', hread, _, hno⟩ := h.removed r hr hnot
    rw [hmonth] at hmonth'
    obtain rfl := Option.some.inj hmonth'
    rw [hcomplete.eq_of_read hread] at hno
    exact hno hconflict
  · rcases h.archives m a ha with hkept | ⟨_, _, _, _, hnone⟩
    · exact hkept
    · obtain ⟨r, hr, hmonth, _⟩ := hconflict
      exact absurd hmonth (hnone r hr)

/-- What one run does to a disk, wherever it is stopped. -/
structure RunConserves (text : AuditText) (now : Instant) (apply : Bool) (d : AuditState) : Prop where
  warranted : ∀ c ∈ (runArchive text now apply ⟨d, 0⟩).1, Warranted text now c.1.disk c.2.disk
  untouched : ∀ c ∈ (runArchive text now apply ⟨d, 0⟩).1, ∀ m a archived,
    c.1.disk.archives.get? m = some a → Complete text c.1.disk m archived →
    Conflicts text c.1.disk m archived →
    (∀ r ∈ c.1.disk.rows.rows, monthOf text r = some m → r ∈ c.2.disk.rows.rows) ∧
      ∃ a', c.2.disk.archives.get? m = some a' ∧ a'.content = a.content
  dry : apply = false → (runArchive text now apply ⟨d, 0⟩).1 = []
  processed : apply = true → ∀ items, (runArchive text now apply ⟨d, 0⟩).2.1 = .ok items →
    Processed text now d items

theorem dry_changes (text : AuditText) (now : Instant) (d : AuditState) :
    (runArchive text now false ⟨d, 0⟩).1 = [] := by
  rw [List.eq_nil_iff_forall_not_mem]
  exact fun c hc => (dry_runArchive.changes ⟨d, 0⟩ True.intro).mem c hc

theorem run_conserves (text : AuditText) (now : Instant) (apply : Bool) (d : AuditState) :
    RunConserves text now apply d := by
  have hwarranted : ∀ c ∈ (runArchive text now apply ⟨d, 0⟩).1,
      Warranted text now c.1.disk c.2.disk := by
    cases apply with
    | false =>
      rw [dry_changes]
      exact fun c hc => by cases hc
    | true => exact (keeps_runArchive.changes ⟨d, 0⟩ rfl).mem
  refine ⟨hwarranted, fun c hc m a archived ha hcomplete hconflict => ?_, fun hdry => ?_,
    fun happly items hitems => ?_⟩
  · exact (hwarranted c hc).untouched hcomplete hconflict ha
  · subst hdry
    exact dry_changes text now d
  · subst happly
    exact keeps_runArchive.answer ⟨d, 0⟩ rfl items hitems

/-- What every justified change keeps is kept by a run, wherever it is stopped. -/
theorem stopped_keeps {I : AuditState → Prop} (hI : ∀ d d', Warranted text now d d' → I d → I d')
    (hd : I d) (apply : Bool) (stop : ℕ) : I (stopped text now apply stop d) := by
  cases apply with
  | false =>
    have hsame : stopped text now false stop d = d := by
      unfold stopped
      dsimp only
      rw [dry_changes, List.take_nil]
      rfl
    rw [hsame]
    exact hd
  | true =>
    exact (keeps_runArchive.changes ⟨d, 0⟩ rfl).stopped (I := fun s => I s.disk)
      (fun a b hab => hI a.disk b.disk hab) hd stop

theorem stepAudit_evidence (hpinned : ¬ Housekeeping r) (hr : r ∈ d.rows.rows) (a : AuditAction) :
    r ∈ (stepAudit text d a).rows.rows := by
  cases a with
  | insert r' =>
    simp only [stepAudit]
    split
    · rename_i rows hrows
      dsimp only
      rw [Table.rows_insert hrows]
      exact List.mem_append_left _ hr
    · exact hr
  | run now apply stop =>
    exact stopped_keeps (I := fun d => r ∈ d.rows.rows) (fun _ _ h hr => h.evidence hr hpinned) hr
      apply stop

theorem stepAudit_evidenceArchive {c : AuditLogs.ArchiveContent} (hpinned : ∃ r ∈ c.rows, ¬ Housekeeping r)
    (ha : ∃ a, d.archives.get? m = some a ∧ a.content = some c) (action : AuditAction) :
    ∃ a, (stepAudit text d action).archives.get? m = some a ∧ a.content = some c := by
  cases action with
  | insert r' =>
    simp only [stepAudit]
    split <;> exact ha
  | run now apply stop =>
    refine stopped_keeps (I := fun d => ∃ a, d.archives.get? m = some a ∧ a.content = some c)
      (fun _ _ h ha => ?_) ha apply stop
    obtain ⟨a, ha, hc⟩ := ha
    exact h.evidenceArchive ha hc hpinned

/-- After any insertions and runs, stopped anywhere, the evidence of the start is still there, and
the next run conserves what it finds. -/
theorem audit_conserved (text : AuditText) (d₀ : AuditState) (as : List AuditAction) :
    (∀ r ∈ d₀.rows.rows, ¬ Housekeeping r → r ∈ (as.foldl (stepAudit text) d₀).rows.rows) ∧
      (∀ m a c, d₀.archives.get? m = some a → a.content = some c →
        (∃ r ∈ c.rows, ¬ Housekeeping r) →
        ∃ a', (as.foldl (stepAudit text) d₀).archives.get? m = some a' ∧ a'.content = some c) ∧
      ∀ now apply, RunConserves text now apply (as.foldl (stepAudit text) d₀) := by
  refine ⟨fun r hr hpinned => ?_, fun m a c ha hc hpinned => ?_,
    fun now apply => run_conserves text now apply _⟩
  · induction as generalizing d₀ with
    | nil => exact hr
    | cons action as ih => exact ih _ (stepAudit_evidence hpinned hr action)
  · have hstart : ∃ a, d₀.archives.get? m = some a ∧ a.content = some c := ⟨a, ha, hc⟩
    clear ha hc
    induction as generalizing d₀ with
    | nil => exact hstart
    | cons action as ih => exact ih _ (stepAudit_evidenceArchive hpinned hstart action)

end Conservation

def plainText : AuditText where
  stamp := fun _ => some (3 * dayMicros)
  sqlMonth := fun _ => none
  lineBytes := fun _ => 1
  manifestBytes := fun _ => 1
  gzipBytes := fun _ _ => 1
  digest := fun _ => []
  source := []

def plainRow : AuditRow := ⟨"a", "owner", "host.updated", "host", "h", "", "0001-01-04"⟩

/-- A row of the first month, and a directory with room for one entry more. -/
def fullDirectory : AuditState where
  rows := ⟨[plainRow], List.nodup_singleton _⟩
  lock := true
  others := 1022

/-- A crash between the publication of the archive and the removal of its temporary name leaves
a complete archive, and more entries than the next run accepts. -/
theorem full_directory_blocked :
    let d := stepAudit plainText fullDirectory (.run (40 * dayMicros) true 2)
    readArchive plainText d 101 .temporary = some [plainRow] ∧
      (runArchive plainText (40 * dayMicros) true ⟨d, 0⟩).2.1.isOk = false := by
  decide +kernel

end NyanyaAgent.Safety
