import NyanyaAgent.Commands.Reconcile
import NyanyaAgent.Safety.ApprovalUse
import NyanyaAgent.Safety.DeclaredTransitions

/-!
# What is said of a command

However the calls that watch commands interleave with each other and with the rest of the program:
an end is only recorded of an attempt that has none, with an answer of the adapter behind it, and no
lease is let go while its attempt may still run.
-/
namespace NyanyaAgent.Safety
open NyanyaAgent.Schema NyanyaAgent.Relational NyanyaAgent.Queue NyanyaAgent.Leases
open NyanyaAgent.Commands NyanyaAgent.Runs

variable {adapters : List String} {timeout : ExecutionId → ℤ} {w w₀ : WatchWorld}
  {asked : List Asked} {l l' : CommandLedger} {x : ExecutionId} {status : ExecutionStatus}

/-- What must have been answered before an end is recorded: nothing for `lost`, the end itself for
the others, or that the command was cancelled when its time was over. -/
def Backed (timeout : ExecutionId → ℤ) (asked : List Asked) (x : ExecutionId)
    (status : ExecutionStatus) : Prop :=
  status = .lost ∨ ∃ a ∈ asked, a.executionId = x ∧
    (a.answer.status = status ∧ (a.answer.running = false ∨ a.question = .cancel) ∨
      status = .timedOut ∧ a.question = .expire ∧ a.answer.status = .cancelled ∧
        TimeOver timeout x a.read a.time)

/-- What a step may do to the attempts and the leases. -/
structure Careful (timeout : ExecutionId → ℤ) (asked : List Asked) (l l' : CommandLedger) :
    Prop where
  attempts : ∀ y e, l.base.executions.get? y = some e → ∃ e', l'.base.executions.get? y = some e' ∧
    (e'.status = e.status ∨
      ¬ e.status.Terminal ∧ (e'.status.Terminal → Backed timeout asked y e'.status))
  leases : ∀ key c, l.leases.get? key = some c →
    l'.leases.get? key = some c ∨ Concluded l.base c.ownerId

/-- What holds of a call where it stands. -/
def Grounded (timeout : ExecutionId → ℤ) (asked : List Asked) (l : CommandLedger) (now : Time)
    (call : WatchCall) : Prop :=
  match call.stage with
  | .asking .expire e _ _ => TimeOver timeout call.executionId e now
  | .noting status => ¬ status.Terminal
  | .concluding _ status _ => status.Terminal ∧ Backed timeout asked call.executionId status
  | .closing .. => Concluded l.base call.executionId
  | .releasing _ => Concluded l.base call.executionId
  | _ => True

/-- The rest of the program does not change how an attempt has ended. -/
def EndsStay (w : WatchWorld) : WatchAction → Prop
  | .other ledger _ => ∀ y e, w.ledger.base.executions.get? y = some e → e.status.Terminal →
      ∃ e', ledger.base.executions.get? y = some e' ∧ e'.status = e.status
  | _ => True

/-- What keeps to the declared transitions may come in between. -/
theorem endsStay_of_lawful {P : Prop} {clock : Time} {ledger : CommandLedger}
    (h : Lawful P clock w.ledger ledger) (sessions : List RuntimeSession) :
    EndsStay w (.other ledger sessions) :=
  h.settled.execution

theorem Backed.mono {more : List Asked} (h : Backed timeout asked x status) :
    Backed timeout (asked ++ more) x status := by
  rcases h with hlost | ⟨a, ha, hanswer⟩
  · exact .inl hlost
  · exact .inr ⟨a, List.mem_append_left _ ha, hanswer⟩

theorem Careful.refl (timeout : ExecutionId → ℤ) (asked : List Asked) (l : CommandLedger) :
    Careful timeout asked l l where
  attempts := fun _ e he => ⟨e, he, .inl rfl⟩
  leases := fun _ _ hc => .inl hc

theorem Careful.concluded (h : Careful timeout asked l l') (hx : Concluded l.base x) :
    Concluded l'.base x := by
  obtain ⟨e, he, hterminal⟩ := hx
  obtain ⟨e', he', hsame | ⟨hopen, _⟩⟩ := h.attempts x e he
  · exact ⟨e', he', hsame ▸ hterminal⟩
  · exact absurd hterminal hopen

/-- A transition leaves an attempt that has ended as it is. -/
theorem transition_terminal {force : Bool} {now : Time} {b b' : Ledger} {e : Execution}
    (h : Tx.Ran (transitionExecution x status force now) b () b')
    (he : b.executions.get? x = some e) (hterminal : e.status.Terminal) : status = e.status := by
  unfold transitionExecution at h
  simp only [Tx.ran_select_bind, Tx.ran_demand_bind, Tx.ran_require_bind, Tx.ran_write] at h
  obtain ⟨row, hrow, _, hkept, _⟩ := h
  obtain rfl := Option.some.inj (hrow.symm.trans he)
  by_contra hne
  exact hkept ⟨hterminal, hne⟩

theorem careful_transition {force : Bool} {now : Time} {b' : Ledger}
    (h : Tx.Ran (transitionExecution x status force now) l.base () b')
    (hbacked : status.Terminal → Backed timeout asked x status) :
    Careful timeout asked l { l with base := b' } where
  attempts := by
    intro y e he
    have hmoved := transition_movedTo h
    by_cases hy : y = x
    · subst hy
      obtain ⟨_, e', _, he', _, hstatus⟩ := hmoved.row
      refine ⟨e', he', ?_⟩
      by_cases hterminal : e.status.Terminal
      · exact .inl (hstatus.trans (transition_terminal h he hterminal))
      · exact .inr ⟨hterminal, fun hend => hstatus ▸ hbacked (hstatus ▸ hend)⟩
    · exact ⟨e, (hmoved.others y hy).trans he, .inl rfl⟩
  leases := fun _ _ hc => .inl hc

theorem careful_heartbeat (timeout : ExecutionId → ℤ) (asked : List Asked) (x : ExecutionId)
    (now : Time) (l : CommandLedger) : Careful timeout asked l (heartbeatSession x now l) where
  attempts := by
    intro y e he
    by_cases hy : y = x
    · subst hy
      have hrow := Table.get?_update_key l.base.executions y
        (fun e => { e with lastHeartbeatAt := some now, updatedAt := now }) (fun _ => rfl)
      rw [he, Option.map_some] at hrow
      exact ⟨_, hrow, .inl rfl⟩
    · have hsame := Table.get?_update_ne l.base.executions
        (fun e => { e with lastHeartbeatAt := some now, updatedAt := now }) (fun _ => rfl) hy
      exact ⟨e, hsame.trans he, .inl rfl⟩
  leases := fun _ _ hc => .inl hc

/-- A release lets go of the leases of one attempt. -/
theorem careful_release {key : ResourceKey} {token : ℕ} (hx : Concluded l.base x) :
    Careful timeout asked l (onLeases (releaseWriterLease key x token) l).2 := by
  rcases onLeases_cases (releaseWriterLease key x token) l with
    ⟨answer, t, hran, hcommit⟩ | ⟨_, _, hcommit⟩
  · rw [hcommit, release_cases hran]
    refine ⟨(Careful.refl timeout asked l).attempts, fun k c hc => ?_⟩
    dsimp only
    rw [Table.get?_update, hc, Option.map_some]
    split_ifs with hreleasable
    · rw [hreleasable.2.1]
      exact .inr hx
    · exact .inl rfl
  · rw [hcommit]
    exact .refl timeout asked l

/-- A transition of a call: it is recorded, or nothing happens. -/
theorem transition_cases (asked : List Asked) (x : ExecutionId) (status : ExecutionStatus)
    (force : Bool) (now : Time) (l : CommandLedger)
    (hbacked : status.Terminal → Backed timeout asked x status) :
    (∃ l', (onBase (transitionExecution x status force now)).commit l = (.ok (), l') ∧
        Careful timeout asked l l' ∧ (status.Terminal → Concluded l'.base x)) ∨
      ∃ e, (onBase (transitionExecution x status force now)).commit l = (.error e, l) := by
  rcases commit_onBase_cases (transitionExecution x status force now) l with
    ⟨b', hran, hcommit⟩ | ⟨e, _, hcommit⟩
  · exact .inl ⟨_, hcommit, careful_transition hran hbacked, (transition_movedTo hran).concluded⟩
  · exact .inr ⟨e, hcommit⟩

/-- A step of a call is careful, and the call is grounded after it. -/
structure StepKept (timeout : ExecutionId → ℤ) (w : WatchWorld) (call : WatchCall)
    (next : WatchStage × WatchWorld) : Prop where
  careful : Careful timeout w.asked w.ledger next.2.ledger
  asked : ∃ more, next.2.asked = w.asked ++ more
  grounded : Grounded timeout next.2.asked next.2.ledger w.clock { call with stage := next.1 }
  clock : next.2.clock = w.clock

theorem StepKept.quiet {call : WatchCall} {stage : WatchStage}
    (h : Grounded timeout w.asked w.ledger w.clock { call with stage }) :
    StepKept timeout w call (stage, w) :=
  ⟨.refl _ _ _, ⟨[], (List.append_nil _).symm⟩, h, rfl⟩

theorem StepKept.moved {call : WatchCall} {stage : WatchStage} {ledger : CommandLedger}
    {sessions : List RuntimeSession} (hcareful : Careful timeout w.asked w.ledger ledger)
    (h : Grounded timeout w.asked ledger w.clock { call with stage }) :
    StepKept timeout w call (stage, { w with ledger, sessions }) :=
  ⟨hcareful, ⟨[], (List.append_nil _).symm⟩, h, rfl⟩

theorem grounded_applyObservation (e : Execution) (s : RuntimeSession) {o : AdapterObservation}
    {call : WatchCall} {h : Handle} {q : Question} {now : Time} :
    Grounded timeout (w.asked ++ [⟨call.executionId, h, e, now, q, o⟩]) l now
      { call with stage := applyObservation e s o } := by
  unfold applyObservation
  by_cases hrunning : o.running = true
  · rw [if_pos hrunning]
    exact trivial
  · rw [if_neg hrunning]
    by_cases hterminal : o.status.Terminal
    · simp only [if_pos hterminal]
      refine ⟨hterminal, .inr ⟨_, List.mem_append_right _ (List.mem_singleton.mpr rfl), rfl, ?_⟩⟩
      exact .inl ⟨rfl, .inl (Bool.not_eq_true _ ▸ hrunning)⟩
    · simp only [if_neg hterminal]
      exact ⟨by decide, .inl rfl⟩

theorem grounded_afterAnswer {e : Execution} {s : RuntimeSession} {o : AdapterObservation}
    {call : WatchCall} {h : Handle} {q : Question} {now : Time}
    (hasking : Grounded timeout w.asked l now { call with stage := .asking q e s h }) :
    Grounded timeout (w.asked ++ [⟨call.executionId, h, e, now, q, o⟩]) l now
      { call with stage := afterAnswer e s o q } := by
  have hlast : ⟨call.executionId, h, e, now, q, o⟩ ∈
      w.asked ++ [⟨call.executionId, h, e, now, q, o⟩] :=
    List.mem_append_right _ (List.mem_singleton.mpr rfl)
  cases q with
  | observe => exact grounded_applyObservation e s
  | expire =>
    simp only [afterAnswer]
    split_ifs with hcancelled
    · exact grounded_applyObservation e s
    · refine ⟨by decide, .inr ⟨_, hlast, rfl, .inr ⟨rfl, rfl, not_not.mp hcancelled, ?_⟩⟩⟩
      exact hasking
  | cancel =>
    simp only [afterAnswer]
    split_ifs with hcancelled
    · exact ⟨by decide, .inr ⟨_, hlast, rfl, .inl ⟨hcancelled, .inr rfl⟩⟩⟩
    · exact ⟨by decide, .inl rfl⟩

theorem grounded_afterSession (cancels : Bool) (e : Execution) (now : Time)
    (s : Option RuntimeSession) (call : WatchCall) :
    Grounded timeout asked l now { call with
      stage := afterSession adapters timeout call.executionId cancels e now s } := by
  cases s with
  | none =>
    simp only [afterSession]
    split_ifs <;> exact trivial
  | some s =>
    simp only [afterSession]
    split
    · exact trivial
    · split_ifs with hadapter hcancels hover
      · exact trivial
      · exact hover
      · exact trivial
      · exact trivial

theorem watchStep_kept (adapters : List String) {call : WatchCall}
    (h : Grounded timeout w.asked w.ledger w.clock call)
    (answer : Option AdapterObservation) :
    StepKept timeout w call (watchStep adapters timeout call answer w) := by
  obtain ⟨x, cancels, stage⟩ := call
  cases stage with
  | reading =>
    simp only [watchStep]
    split
    · exact .quiet trivial
    · split_ifs <;> exact .quiet trivial
  | finding e => exact .quiet (grounded_afterSession cancels e _ _ ⟨x, cancels, .finding e⟩)
  | losing =>
    simp only [watchStep]
    rcases transition_cases w.asked x .lost true w.clock w.ledger fun _ => .inl rfl with
      ⟨l', hcommit, hcareful, _⟩ | ⟨e, hcommit⟩
    · rw [hcommit]
      exact .moved hcareful trivial
    · rw [hcommit]
      exact .quiet trivial
  | marking e s handle =>
    simp only [watchStep]
    rcases transition_cases w.asked x .cancelling true w.clock w.ledger
      (fun hend => absurd hend (by decide)) with ⟨l', hcommit, hcareful, _⟩ | ⟨e, hcommit⟩
    · rw [hcommit]
      exact .moved hcareful trivial
    · rw [hcommit]
      exact .quiet trivial
  | asking q e s handle =>
    simp only [watchStep]
    cases answer with
    | none => exact .quiet trivial
    | some o => exact ⟨.refl _ _ _, ⟨_, rfl⟩, grounded_afterAnswer h, rfl⟩
  | beating e s o =>
    simp only [watchStep]
    refine .moved (careful_heartbeat _ _ _ _ _) ?_
    split_ifs
    · change ¬ ExecutionStatus.Terminal _
      decide
    · change ¬ ExecutionStatus.Terminal _
      decide
    · exact trivial
  | noting status =>
    simp only [watchStep]
    rcases transition_cases w.asked x status false w.clock w.ledger
      (fun hend => absurd hend h) with ⟨l', hcommit, hcareful, _⟩ | ⟨e, hcommit⟩
    · rw [hcommit]
      exact .moved hcareful trivial
    · rw [hcommit]
      exact .quiet trivial
  | concluding s status shown =>
    simp only [watchStep]
    rcases transition_cases w.asked x status true w.clock w.ledger (fun _ => h.2) with
      ⟨l', hcommit, hcareful, hconcluded⟩ | ⟨e, hcommit⟩
    · rw [hcommit]
      exact .moved hcareful (hconcluded h.1)
    · rw [hcommit]
      exact .quiet trivial
  | closing s shown held =>
    have hcareful := careful_heartbeat timeout w.asked x w.clock w.ledger
    exact .moved hcareful (hcareful.concluded h)
  | releasing held =>
    cases held with
    | none => exact .quiet trivial
    | some held => exact .moved (careful_release h) trivial
  | returned => exact .quiet trivial
  | raised => exact .quiet trivial

/-- What holds of the calls. -/
def Watching (timeout : ExecutionId → ℤ) (w : WatchWorld) : Prop :=
  ∀ call ∈ w.calls, Grounded timeout w.asked w.ledger w.clock call

/-- What a call stands on stays, as answers are kept, ends stay and time goes on. -/
theorem Grounded.mono {call : WatchCall} {now now' : Time}
    (h : Grounded timeout asked l now call) (more : List Asked)
    (hends : ∀ y, Concluded l.base y → Concluded l'.base y) (hnow : now ≤ now') :
    Grounded timeout (asked ++ more) l' now' call := by
  obtain ⟨x, cancels, stage⟩ := call
  cases stage with
  | asking q e s handle =>
    cases q with
    | observe => exact trivial
    | cancel => exact trivial
    | expire =>
      obtain ⟨hactive, t, ht, hover⟩ := h
      exact ⟨hactive, t, ht, Int.lt_of_lt_of_le hover (Int.sub_le_sub_right hnow t)⟩
  | concluding s status shown => exact ⟨h.1, h.2.mono⟩
  | closing => exact hends _ h
  | releasing => exact hends _ h
  | _ => exact h

theorem Watching.enter (h : Watching timeout w) (x : ExecutionId) (cancels : Bool) :
    Watching timeout { w with calls := w.calls ++ [⟨x, cancels, .reading⟩] } := by
  intro call hcall
  rcases List.mem_append.mp hcall with hcall | hcall
  · exact h call hcall
  · obtain rfl := List.mem_singleton.mp hcall
    exact trivial

theorem Watching.step (h : Watching timeout w) {a : WatchAction} (ha : EndsStay w a) :
    Watching timeout (stepWatch adapters timeout w a) := by
  cases a with
  | observe x => exact h.enter x false
  | cancel x => exact h.enter x true
  | advance n answer =>
    simp only [stepWatch]
    cases hn : w.calls[n]? with
    | none => exact h
    | some call =>
      have hkept := watchStep_kept adapters (h call (List.mem_of_getElem? hn)) answer
      obtain ⟨more, hasked⟩ := hkept.asked
      intro call' hcall'
      dsimp only
      rw [hkept.clock]
      rcases List.mem_or_eq_of_mem_set hcall' with hcall' | rfl
      · rw [hasked]
        exact (h call' hcall').mono more (fun _ => hkept.careful.concluded) (le_refl _)
      · exact hkept.grounded
  | other ledger sessions =>
    intro call hcall
    have hends : ∀ y, Concluded w.ledger.base y → Concluded ledger.base y := by
      rintro y ⟨e, he, hterminal⟩
      obtain ⟨e', he', hstatus⟩ := ha y e he hterminal
      exact ⟨e', he', hstatus ▸ hterminal⟩
    have hgrounded := (h call hcall).mono [] hends (le_refl _)
    rw [List.append_nil] at hgrounded
    exact hgrounded
  | tick elapsed =>
    intro call hcall
    have hgrounded := (h call hcall).mono [] (fun _ hy => hy)
      (Int.le_add_of_nonneg_right (Int.natCast_nonneg elapsed))
    rw [List.append_nil] at hgrounded
    exact hgrounded

/-- In every world that calls of `observe` and `cancel` reach, in any order of their steps and with
whatever the rest of the program writes in between as long as it changes no recorded end: the next
step of any call changes the status of an attempt only if it had not ended, records an end only with
an answer of the adapter behind it, and lets go of a lease only if its attempt has ended. -/
theorem command_watched {actions : List WatchAction} (hcalls : w₀.calls = [])
    (hrun : Run (stepWatch adapters timeout) EndsStay w₀ actions w) (n : ℕ)
    (answer : Option AdapterObservation) :
    Careful timeout w.asked w.ledger (stepWatch adapters timeout w (.advance n answer)).ledger := by
  have hwatching : Watching timeout w := by
    refine hrun.invariant (I := Watching timeout) (fun w a hw ha => hw.step ha) ?_
    intro call hcall
    rw [hcalls] at hcall
    cases hcall
  simp only [stepWatch]
  cases hn : w.calls[n]? with
  | none => exact .refl _ _ _
  | some call =>
    have hcall := hwatching call (List.mem_of_getElem? hn)
    exact (watchStep_kept adapters hcall answer).careful

section Examples

def watchedSession : RuntimeSession where
  id := 3
  executionId := some 2
  handle := some 7
  status := .running
  lastHeartbeatAt := 0
  updatedAt := 0

def watchedLease : WriterLease where
  resourceKey := "r"
  ownerId := 2
  fenceToken := 1
  metadata := ""
  acquiredAt := "2026-01-01T00:00:00+00:00".toList
  heartbeatAt := "2026-01-01T00:00:00+00:00".toList
  expiresAt := "2026-01-01T00:11:00+00:00".toList

/-- A command that has run since 0, with its lease. -/
def watchedCommand : WatchWorld where
  ledger := {
    base := {
      tasks := ⟨[{ id := 1, status := .running, requestedBy := "o", currentExecutionId := some 2
                   createdAt := 0, updatedAt := 0 }], by decide⟩
      executions := ⟨[{ id := 2, taskId := 1, adapterType := "subprocess", status := .running
                        createdAt := 0, startedAt := some 0, updatedAt := 0 }], by decide⟩ }
    leases := ⟨[watchedLease], by decide⟩
    writerLease := fun _ => some ("r", 1) }
  sessions := [watchedSession]

/-- One call finds that its time is over, another one is told that it succeeded; the first one is
about to let go of the lease. -/
def twoWatchers : List WatchAction :=
  [.other watchedCommand.ledger [watchedSession], .observe 2, .advance 0 none, .advance 0 none,
    .tick 601, .observe 2, .advance 1 none, .advance 1 none, .advance 0 (some ⟨.succeeded, false⟩),
    .advance 1 (some ⟨.cancelled, false⟩), .advance 1 none, .advance 0 none, .advance 1 none]

def plainWatch (actions : List WatchAction) : WatchWorld :=
  actions.foldl (stepWatch ["subprocess"] fun _ => 600) watchedCommand

theorem twoWatchers_run : Run (stepWatch ["subprocess"] fun _ => 600) EndsStay watchedCommand
    twoWatchers (plainWatch twoWatchers) := by
  refine .cons (endsStay_of_lawful (.refl True 0 _) _) (.cons trivial (.cons trivial
    (.cons trivial (.cons trivial (.cons trivial (.cons trivial (.cons trivial (.cons trivial
      (.cons trivial (.cons trivial (.cons trivial (.cons trivial (.nil _)))))))))))))

/-- The lease of the attempt, which has ended, is let go. -/
theorem command_watched_plain :
    ((plainWatch twoWatchers).ledger.leases.get? "r").map (·.expiresAt) =
      some watchedLease.expiresAt ∧
    ((stepWatch ["subprocess"] (fun _ => 600) (plainWatch twoWatchers)
      (.advance 1 none)).ledger.leases.get? "r").map (·.expiresAt) = some releasedAt ∧
    Careful (fun _ => 600) (plainWatch twoWatchers).asked (plainWatch twoWatchers).ledger
      (stepWatch ["subprocess"] (fun _ => 600) (plainWatch twoWatchers) (.advance 1 none)).ledger :=
  ⟨by decide +kernel, by decide +kernel, command_watched rfl twoWatchers_run 1 none⟩

example : ((plainWatch twoWatchers).ledger.base.executions.get? 2).map (fun e => e.status) =
      some .timedOut ∧
    (plainWatch twoWatchers).calls.map (fun c => c.stage) =
      [.raised, .releasing (some ("r", 1))] := by
  decide +kernel

end Examples
end NyanyaAgent.Safety
