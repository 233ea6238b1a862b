import NyanyaAgent.Memory.Recall
import NyanyaAgent.System.Invariant

/-!
# Work memory shows proved work of one scope

Every record that is read satisfies, at the time of the read, the ledger facts it stands
for, and the text it is shown in keeps to its bounds.
-/
namespace NyanyaAgent.Safety
open NyanyaAgent.Schema NyanyaAgent.Relational NyanyaAgent.Operations NyanyaAgent.Conversation
open NyanyaAgent.Memory NyanyaAgent.Text NyanyaAgent.System

variable {env : Environment} {reg : Registry} {text : RecallText} {l l' : Ledger}
  {owner root workspace : String} {project : Option ProjectId} {o : RecallOptions} {now : Time}
  {m : WorkRecord} {i : RecordItem} {items taken rest : List RecordItem} {limit maxBytes : ℕ}
  {k : TaskId}

/-- The ledger facts behind a record that is shown. -/
structure Entitled (l : Ledger) (owner root : String) (project : Option ProjectId) (now : Time)
    (m : WorkRecord) : Prop where
  stored : l.workRecords.get? m.executionId = some m
  scope : m.ownerKey = owner ∧ m.workspaceRoot = root ∧ m.projectId = project
  live : m.status = .retained ∧ now < m.expiresAt
  attempt : ∃ t e r, l.tasks.get? m.taskId = some t ∧ t.requestedBy = owner ∧
    t.currentExecutionId = some m.executionId ∧ t.status = .completed ∧
    l.executions.get? m.executionId = some e ∧ e.status = .succeeded ∧
    l.results.get? m.executionId = some r ∧ r.outcome = .succeeded
  provenance : m.provenance = .reviewedApply → ∃ evidence p source, m.evidence = some evidence ∧
    l.plans.get? evidence.planId = some p ∧ p.status = .applied ∧ p.ownerKey = owner ∧
    p.workspace = root ∧ p.taskId = m.sourceTaskId ∧ journalOf l p.id ≠ [] ∧
    (∀ j ∈ journalOf l p.id, j.state = .applied) ∧ l.tasks.get? m.sourceTaskId = some source ∧
    source.status = .completed ∧ source.requestedBy = owner

/-- The record is of a turn of the session, not older than the session's memory reset. -/
def InSession (l : Ledger) (c : ConversationTurn) (m : WorkRecord) : Prop :=
  ∃ prior, l.turns.get? prior.taskId = some prior ∧ prior.sessionId = c.sessionId ∧
    OfRecord m prior ∧
    ∀ s, l.sessions.get? c.sessionId = some s → s.memoryResetGeneration ≤ prior.generation

theorem recordJoin_eq {j : RecordJoin} (h : recordJoin l m = some j) :
    l.tasks.get? m.taskId = some j.task ∧ l.operations.get? m.taskId = some j.operation ∧
      l.tasks.get? m.sourceTaskId = some j.source ∧
      l.operations.get? m.sourceTaskId = some j.sourceOperation ∧
      l.executions.get? m.executionId = some j.execution ∧
      l.results.get? m.executionId = some j.result ∧
      j.plan = m.evidence.bind fun e => l.plans.get? e.planId := by
  unfold recordJoin at h
  simp only [Option.pure_def, Option.bind_eq_bind, Option.bind_eq_some_iff, Option.some.injEq] at h
  obtain ⟨t, ht, p, hp, s, hs, q, hq, e, he, r, hr, rfl⟩ := h
  exact ⟨ht, hp, hs, hq, he, hr, rfl⟩

theorem entitled_of_listed {j : RecordJoin} (hm : m ∈ l.workRecords.rows)
    (hj : recordJoin l m = some j) (h : Listed l owner root project now m j) :
    Entitled l owner root project now m := by
  obtain ⟨ht, _, hs, _, he, hr, hplan⟩ := recordJoin_eq hj
  obtain ⟨rfl, rfl, rfl, hretained, hlive, htask, hcurrent, hcompleted, hexecution, hresult, _, _,
    hsource, hdone, _, _, _, _, _, hprovenance⟩ := h
  refine ⟨Table.mem_rows_iff.mp hm, ⟨rfl, rfl, rfl⟩, ⟨hretained, hlive⟩,
    ⟨j.task, j.execution, j.result, ht, htask, hcurrent, hcompleted, he, hexecution, hr, hresult⟩, ?_⟩
  intro hreviewed
  rcases hprovenance with hmodel | ⟨p, hp, happlied, howner, hworkspace, htaskId, hjournal, hstates⟩
  · rw [hreviewed] at hmodel
    cases hmodel
  · rw [hplan, Option.mem_def, Option.bind_eq_some_iff] at hp
    obtain ⟨evidence, hevidence, hp⟩ := hp
    exact ⟨evidence, p, j.source, hevidence, hp, happlied, howner, hworkspace, htaskId, hjournal,
      hstates, hs, hdone, hsource⟩

theorem mem_recordItems (h : i ∈ recordItems text l owner root o now) :
    Entitled l owner root o.projectId now i.record ∧ OptionsAdmit l o i.record := by
  unfold recordItems at h
  obtain ⟨m, hm, hitem⟩ := List.mem_filterMap.mp (List.mem_of_mem_take h)
  rw [List.mem_insertionSort] at hm
  unfold recordItem at hitem
  split at hitem
  · cases hitem
  · rename_i j hj
    split_ifs at hitem with hsel
    rw [← Option.some.inj hitem]
    exact ⟨entitled_of_listed hm hj hsel.1, hsel.2⟩

theorem mem_fill (h : i ∈ fill text limit maxBytes taken rest) : i ∈ taken ∨ i ∈ rest := by
  induction rest generalizing taken with
  | nil => exact .inl h
  | cons j rest ih =>
    unfold fill at h
    split_ifs at h
    · exact .inl h
    · rcases ih h with htaken | hrest
      · rcases List.mem_append.mp htaken with htaken | hj
        · exact .inl htaken
        · rw [List.mem_singleton] at hj
          exact .inr (hj ▸ List.mem_cons_self)
      · exact .inr (List.mem_cons_of_mem _ hrest)
    · rcases ih h with htaken | hrest
      · exact .inl htaken
      · exact .inr (List.mem_cons_of_mem _ hrest)

theorem length_fill (h : taken.length ≤ limit) :
    (fill text limit maxBytes taken rest).length ≤ limit := by
  induction rest generalizing taken with
  | nil => exact h
  | cons j rest ih =>
    unfold fill
    split_ifs with hfull
    · exact h
    · apply ih
      rw [List.length_append, List.length_singleton]
      omega
    · exact ih h

theorem size_fill (h : byteSize (renderArray (taken.map (renderItem text))) ≤ maxBytes) :
    byteSize (renderArray ((fill text limit maxBytes taken rest).map (renderItem text))) ≤
      maxBytes := by
  induction rest generalizing taken with
  | nil => exact h
  | cons j rest ih =>
    unfold fill
    split_ifs with hfull hfits
    · exact h
    · exact ih hfits
    · exact ih h

theorem mem_dropLast (h : i ∈ dropLast text maxBytes rest) : i ∈ rest := by
  induction rest with
  | nil => cases h
  | cons j rest ih =>
    unfold dropLast at h
    split_ifs at h
    · exact List.mem_reverse.mp h
    · exact List.mem_cons_of_mem _ (ih h)

theorem length_dropLast (rest : List RecordItem) :
    (dropLast text maxBytes rest).length ≤ rest.length := by
  induction rest with
  | nil => exact Nat.le_refl _
  | cons j rest ih =>
    unfold dropLast
    split_ifs
    · rw [List.length_reverse]
    · exact ih.trans (Nat.le_succ _)

theorem fits_dropLast (h : dropLast text maxBytes rest ≠ []) :
    (renderRecords text (dropLast text maxBytes rest)).utf8ByteSize ≤ maxBytes ∧
      text.sensitive (renderRecords text (dropLast text maxBytes rest)) = false := by
  induction rest with
  | nil => exact absurd rfl h
  | cons j rest ih =>
    unfold dropLast at h ⊢
    split_ifs at h ⊢ with hfits
    · exact hfits
    · exact ih h

/-- A record kept apart from a task bound to a conversation is of its session. -/
theorem inSession_of_apart {c : ConversationTurn} (h : Apart l k m) (hc : l.turns.get? k = some c) :
    InSession l c m := by
  obtain ⟨_, _, hreset, hunbound | ⟨prior, hprior, ⟨current, hcurrent, hk, hsession⟩, hrecord⟩⟩ := h
  · obtain ⟨hmem, hk⟩ := Table.get?_eq_some.mp hc
    exact absurd ⟨c, hmem, hk⟩ hunbound
  · have hsame : current = c := by
      have hget := Table.mem_rows_iff.mp hcurrent
      rw [hk, hc] at hget
      exact (Option.some.inj hget).symm
    subst hsame
    refine ⟨prior, Table.mem_rows_iff.mp hprior, hsession.symm, hrecord, ?_⟩
    intro s hs
    by_contra hlt
    obtain ⟨hmem, hid⟩ := Table.get?_eq_some.mp hs
    have hbefore : BeforeReset l prior :=
      ⟨s, hmem, hid.trans hsession, Nat.lt_of_not_le hlt⟩
    exact hreset ⟨prior, hprior, ⟨current, hcurrent, hk, hsession⟩, hbefore, hrecord⟩

/-- What a read returns. -/
structure Recalled (text : RecallText) (l : Ledger) (owner root : String) (o : RecallOptions)
    (now : Time) (items : List RecordItem) : Prop where
  entitled : ∀ i ∈ items, Entitled l owner root o.projectId now i.record
  admitted : ∀ i ∈ items, OptionsAdmit l o i.record
  screened : ∀ i ∈ items, text.sensitive (String.ofList (renderItem text i)) = false
  length : items.length ≤ o.limit.toNat
  size : byteSize (renderArray (items.map (renderItem text))) ≤ o.maxBytes.toNat

theorem byteSize_nil : byteSize (renderArray []) = 2 := by decide +kernel

theorem listRecords_recalled (h : listRecords env reg text l owner workspace o now = .ok items) :
    ∃ root, memoryWorkspace env reg owner workspace = .ok root ∧
      Recalled text l owner root o now items := by
  unfold listRecords at h
  split_ifs at h with hlimit hbytes hquery hexcluded
  split at h
  · cases h
  · rename_i root hroot
    split_ifs at h
    obtain rfl := Except.ok.inj h
    have hmem : ∀ i, i ∈ fill text o.limit.toNat o.maxBytes.toNat []
        (((recordItems text l owner root o now).filter (Presentable text o.query)).insertionSort
          fun a b => rank text o.query b.record ≤ rank text o.query a.record) →
        i ∈ recordItems text l owner root o now ∧ Presentable text o.query i := by
      intro i hi
      rcases mem_fill hi with hnil | hsorted
      · cases hnil
      · rw [List.mem_insertionSort, List.mem_filter, decide_eq_true_eq] at hsorted
        exact hsorted
    refine ⟨root, hroot, ⟨?_, ?_, ?_, ?_, ?_⟩⟩
    · exact fun i hi => (mem_recordItems (hmem i hi).1).1
    · exact fun i hi => (mem_recordItems (hmem i hi).1).2
    · exact fun i hi => (hmem i hi).2.2.2
    · exact length_fill (Nat.zero_le _)
    · apply size_fill
      rw [List.map_nil, byteSize_nil]
      omega

theorem empty_le {maxBytes : ℤ} (h : 2 ≤ maxBytes ∧ maxBytes ≤ maxRecordContextBytes) :
    emptyContext.utf8ByteSize ≤ maxBytes.toNat := by
  have hsize : emptyContext.utf8ByteSize = 2 := by decide +kernel
  rw [hsize]
  omega

/-- Every record read is entitled to its scope when it is read, keeps apart from the task it is
read for, and the reads and the context text keep to their bounds. -/
theorem work_memory_scoped (env : Environment) (reg : Registry) (text : RecallText) (l : Ledger)
    (owner workspace : String) (now : Time) :
    (∀ o items, listRecords env reg text l owner workspace o now = .ok items →
      ∃ root, memoryWorkspace env reg owner workspace = .ok root ∧
        Recalled text l owner root o now items ∧
        ∀ k ∈ o.excludeTaskId, ∀ i ∈ items, i.record.taskId ≠ k ∧ i.record.sourceTaskId ≠ k ∧
          ∀ c, l.turns.get? k = some c → InSession l c i.record) ∧
    (∀ query project limit maxBytes exclude excludes items,
      searchRecords env reg text l owner workspace query project limit maxBytes exclude excludes now =
        .ok items →
      ∃ root, memoryWorkspace env reg owner workspace = .ok root ∧ items.length ≤ limit.toNat ∧
        byteSize (renderArray (items.map (renderItem text))) ≤ maxBytes.toNat ∧
        ∀ i ∈ items, Entitled l owner root project now i.record ∧
          text.sensitive (String.ofList (renderItem text i)) = false ∧
          i.record.taskId ∉ excludes ∧ i.record.sourceTaskId ∉ excludes ∧
          ∀ k ∈ exclude, i.record.taskId ≠ k ∧ i.record.sourceTaskId ≠ k ∧
            ∀ c, l.turns.get? k = some c → InSession l c i.record) ∧
    ∀ l₀ k prompt maxBytes excludes out,
      recordContext env reg text l₀ l k owner workspace prompt maxBytes excludes now = .ok out →
      out.utf8ByteSize ≤ maxBytes.toNat ∧ (out = emptyContext ∨ ∃ t scope root items,
        memoryWorkspace env reg owner workspace = .ok scope ∧
        memoryWorkspace env reg owner scope = .ok root ∧
        l₀.tasks.get? k = some t ∧ t.requestedBy = owner ∧ out = renderRecords text items ∧
        text.sensitive out = false ∧ items.length ≤ 5 ∧
        ∀ i ∈ items, Entitled l owner root t.projectId now i.record ∧
          i.record.taskId ≠ k ∧ i.record.sourceTaskId ≠ k ∧
          i.record.taskId ∉ excludes ∧ i.record.sourceTaskId ∉ excludes ∧
          ∀ c, l.turns.get? k = some c → InSession l c i.record) := by
  have happart : ∀ {o : RecallOptions} {i : RecordItem}, OptionsAdmit l o i.record →
      ∀ k ∈ o.excludeTaskId, i.record.taskId ≠ k ∧ i.record.sourceTaskId ≠ k ∧
        ∀ c, l.turns.get? k = some c → InSession l c i.record := by
    intro o i hadmitted k hk
    have hapart := hadmitted.2.1 k hk
    exact ⟨hapart.1, hapart.2.1, fun c hc => inSession_of_apart hapart hc⟩
  refine ⟨?_, ?_, ?_⟩
  · intro o items h
    obtain ⟨root, hroot, hrecalled⟩ := listRecords_recalled h
    exact ⟨root, hroot, hrecalled, fun k hk i hi => happart (hrecalled.admitted i hi) k hk⟩
  · intro query project limit maxBytes exclude excludes items h
    obtain ⟨root, hroot, hrecalled⟩ := listRecords_recalled h
    refine ⟨root, hroot, hrecalled.length, hrecalled.size, ?_⟩
    intro i hi
    have hadmitted := hrecalled.admitted i hi
    exact ⟨hrecalled.entitled i hi, hrecalled.screened i hi, hadmitted.2.2.1,
      hadmitted.2.2.2, fun k hk => happart hadmitted k hk⟩
  · intro l₀ k prompt maxBytes excludes out h
    unfold recordContext at h
    split at h
    · cases h
    rename_i hbytes
    have hempty := empty_le (not_not.mp hbytes)
    split at h
    · obtain rfl := Except.ok.inj h
      exact ⟨hempty, .inl rfl⟩
    split at h
    · cases h
    rename_i scope hscope
    split at h
    · rename_i t op ht hop
      split at h
      · cases h
      rename_i hrequested
      split at h
      · obtain rfl := Except.ok.inj h
        exact ⟨hempty, .inl rfl⟩
      split at h
      · obtain rfl := Except.ok.inj h
        exact ⟨hempty, .inl rfl⟩
      split at h
      · cases h
      rename_i items hitems
      dsimp only at h
      split at h
      · obtain rfl := Except.ok.inj h
        exact ⟨hempty, .inl rfl⟩
      rename_i hnil
      obtain rfl := Except.ok.inj h
      obtain ⟨root, hroot, hrecalled⟩ := listRecords_recalled hitems
      have hfits := fits_dropLast hnil
      have howner : t.requestedBy = owner := by
        by_contra hne
        exact hrequested (.inl hne)
      refine ⟨hfits.1, .inr ⟨t, scope, root, _, hscope, hroot, ht, howner, rfl, hfits.2, ?_, ?_⟩⟩
      · refine (length_dropLast _).trans ?_
        rw [List.length_reverse]
        exact hrecalled.length
      · intro i hi
        have hmem := List.mem_reverse.mp (mem_dropLast hi)
        have hadmitted := hrecalled.admitted i hmem
        obtain ⟨hk, hk', hsession⟩ := happart hadmitted k rfl
        exact ⟨hrecalled.entitled i hmem, hk, hk', hadmitted.2.2.1, hadmitted.2.2.2, hsession⟩
    · cases h

/-- Text functions that screen nothing and name everything alike. -/
def plainRecall : RecallText where
  enabled := true
  inputDisabled _ := false
  sensitive _ := false
  words _ := []
  casefold := id
  clip q _ := q
  taskName _ := "task"
  executionName _ := "execution"
  timeName _ := "now"
  evidence _ := []

def plainWorkRecord : WorkRecord :=
  { executionId := 4, taskId := 1, sourceTaskId := 1
    ownerKey := "owner", workspaceRoot := "/w"
    projectId := none, replyKind := .answer, provenance := .modelResult
    requestSummary := "hi", resultSummary := "ok", textStatus := .screened
    evidence := none, createdAt := 0, expiresAt := 9 }

def doneTask : AgentTask :=
  { id := 1, prompt := "hi", status := .completed, requestedBy := "owner"
    currentExecutionId := some 4, metadata := { workspaceRoot := "/w" }, createdAt := 0
    updatedAt := 0 }

def doneExecution : Execution :=
  { id := 4, taskId := 1, adapterType := "worker", status := .succeeded, createdAt := 0
    updatedAt := 0 }

def doneResult : TaskResult :=
  { executionId := 4, taskId := 1, outcome := .succeeded, response := "ok", createdAt := 0
    updatedAt := 0 }

/-- One completed task with the record of its work. -/
def plainRecords : Ledger :=
  { tasks := ⟨[doneTask], by decide⟩
    operations := ⟨[{ taskId := 1, spec := { workspace := "/w" }, workerGeneration := 1 }], by decide⟩
    executions := ⟨[doneExecution], by decide⟩
    results := ⟨[doneResult], by decide⟩
    workRecords := ⟨[plainWorkRecord], by decide⟩ }

theorem work_memory_scoped_plain :
    memoryWorkspace plainEnvironment plainRegistry "owner" "/w" = .ok "/w" ∧
      Recalled plainRecall plainRecords "owner" "/w" {} 5 [⟨plainWorkRecord, .completed, .pending, none⟩] := by
  have hlist : listRecords plainEnvironment plainRegistry plainRecall plainRecords "owner" "/w" {} 5 =
      .ok [⟨plainWorkRecord, .completed, .pending, none⟩] := by decide +kernel
  obtain ⟨root, hroot, hrecalled, _⟩ := (work_memory_scoped plainEnvironment plainRegistry plainRecall
    plainRecords "owner" "/w" 5).1 {} _ hlist
  have hplain : memoryWorkspace plainEnvironment plainRegistry "owner" "/w" = .ok "/w" := by
    decide +kernel
  obtain rfl : root = "/w" := Except.ok.inj (hroot.symm.trans hplain)
  exact ⟨hplain, hrecalled⟩

end NyanyaAgent.Safety
