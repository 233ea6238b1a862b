import NyanyaAgent.Worker.Process

/-!
# Ownership of processes

A command that was started is waited for, or its caller learns that its end is not known; and a
command that was stopped leaves nobody of its group behind.
-/
namespace NyanyaAgent.Safety
open NyanyaAgent.Schema NyanyaAgent.Worker

variable {h : Host} {w w' : Processes} {m m' : Moment} {r : Except Raised CommandOutput}

/-- The leader was waited for, and the rest of its group is gone or killed. -/
structure Quiet (w : Processes) : Prop where
  reaped : w.leader.Reaped
  group : w.group ≠ .live

theorem Leader.Reaped.not_running {leader : Leader} (h : leader.Reaped) : leader ≠ .running := by
  intro hrunning
  rw [hrunning] at h
  exact h

theorem leader_kept (hd : Drift w w') (hr : w.leader.Reaped) : w'.leader = w.leader := by
  rcases hd.leader with heq | ⟨hrunning, _⟩
  · exact heq
  · exact absurd hrunning (Leader.Reaped.not_running hr)

theorem Quiet.drift (h : Quiet w) (hd : Drift w w') : Quiet w' := by
  constructor
  · rw [leader_kept hd h.reaped]
    exact h.reaped
  · cases hg : w.group with
    | live => exact absurd hg h.group
    | empty =>
      rw [hd.empty hg (Leader.Reaped.not_running h.reaped)]
      decide
    | doomed =>
      rw [hd.doomed hg]
      decide

theorem found_drift (m : Moment) : Drift m.processes (h.found m) := h.lawful m.tick m.processes

theorem processes_wait_some {code : ℤ} (hw : w.wait.1 = some code) :
    w.wait.2 = { w with leader := .reaped code } := by
  unfold Processes.wait at hw ⊢
  cases hl : w.leader with
  | running => simp [hl] at hw
  | exited c | reaped c =>
    simp only [hl, Option.some.injEq] at hw
    simp [hw]

theorem processes_wait_reaped {code : ℤ} (hl : w.leader = .reaped code) :
    w.wait = (some code, w) := by
  unfold Processes.wait
  cases w
  simp only at hl
  subst hl
  rfl

theorem wait_some {code : ℤ} (hw : h.wait m = (some code, m')) :
    m'.processes.leader = .reaped code := by
  obtain ⟨hcode, rfl⟩ := Prod.mk.inj hw
  dsimp only
  rw [processes_wait_some hcode]

theorem wait_none (hw : h.wait m = (none, m')) : m'.tick = m.tick + 1 := by
  obtain ⟨_, rfl⟩ := Prod.mk.inj hw
  rfl

/-- To wait for a leader again changes nothing. -/
theorem wait_reaped {code : ℤ} (hl : m.processes.leader = .reaped code) :
    ∃ m', h.wait m = (some code, m') ∧ Drift m.processes m'.processes := by
  have hd : Drift m.processes (h.found m) := found_drift m
  have hfound : (h.found m).wait = (some code, h.found m) := by
    apply processes_wait_reaped
    rw [leader_kept hd (by rw [hl]; trivial), hl]
  exact ⟨⟨m.tick + 1, h.found m⟩, by rw [Host.wait, hfound], hd⟩

/-- A group whose leader was waited for is quiet after the last signal. -/
theorem killpg_quiet (hr : m.processes.leader.Reaped) (hk : h.killpg .kill m = some m') :
    Quiet m'.processes := by
  have hleader : (h.found m).leader.Reaped := by
    rw [leader_kept (found_drift m) hr]
    exact hr
  unfold Host.killpg at hk
  split_ifs at hk
  rw [← Option.some.inj hk]
  simp only [Processes.signal]
  split
  · next hg => exact ⟨hleader, by rw [hg]; decide⟩
  · exact ⟨hleader, Members.noConfusion⟩

theorem terminateWith_spec {signals : List Signal} {res : Except Raised Unit}
    (ht : h.terminateWith signals m = (res, m')) :
    res = .ok () ∧ Quiet m'.processes ∨ res = .error noPermission ∨ res = .error unconfirmed ∨
      res = .error .permissionError ∧ m'.processes.leader.Reaped := by
  induction signals generalizing m with
  | nil =>
    rw [Host.terminateWith, Prod.mk.injEq] at ht
    exact .inr (.inr (.inl ht.1.symm))
  | cons signal rest ih =>
    rw [Host.terminateWith] at ht
    split at ht
    · exact .inr (.inl (Prod.mk.inj ht).1.symm)
    · next m₁ _ =>
      split at ht
      · exact ih ht
      · next code m₂ hw =>
        have hreaped : m₂.processes.leader.Reaped := by
          rw [wait_some hw]
          trivial
        split at ht
        · obtain ⟨rfl, rfl⟩ := Prod.mk.inj ht
          exact .inr (.inr (.inr ⟨rfl, hreaped⟩))
        · next m₃ hk =>
          obtain ⟨rfl, rfl⟩ := Prod.mk.inj ht
          exact .inl ⟨rfl, killpg_quiet hreaped hk⟩

/-- The exceptions of a command that the loop stopped. -/
def Stops (e : Raised) : Prop :=
  e = outputRefused ∨ e = .outcome ⟨.cancelled, "실행을 취소했습니다."⟩ ∨
    e = .outcome ⟨.timedOut, "실행 제한시간을 초과했습니다."⟩

instance (e : Raised) : Decidable (Stops e) := by
  unfold Stops; infer_instance

/-- What `run_command` leaves when it returns or raises. -/
structure Owned (r : Except Raised CommandOutput) (w : Processes) : Prop where
  known : w.leader.Reaped ∨ r = .error noPermission ∨ r = .error unconfirmed
  returned : ∀ out, r = .ok out → w.leader = .reaped out.returncode ∧
    out.output.length ≤ maxOutputBytes ∧ out.errors.length ≤ maxOutputBytes
  stopped : ∀ e, r = .error e → Stops e → Quiet w

/-- How the loop of `run_command` ends. -/
inductive LoopEnd (h : Host) : Except Raised CommandOutput → Moment → Prop
  | ended {code : ℤ} {m : Moment} (leader : m.processes.leader = .reaped code) :
      LoopEnd h (h.collect code m) m
  | stopped {e : Raised} {m : Moment} (quiet : Quiet m.processes) : LoopEnd h (.error e) m
  | failed {e : Raised} {m : Moment} (known : e = noPermission ∨ e = unconfirmed ∨
      e = .permissionError ∧ m.processes.leader.Reaped) : LoopEnd h (.error e) m
  | refused {e : Raised} {m : Moment} (file : e = fileFault ∨ e = fileRefused) :
      LoopEnd h (.error e) m

theorem checkResultFile_error {file : FileState} {e : Raised}
    (hc : checkResultFile file = .error e) : e = fileFault ∨ e = fileRefused := by
  cases file with
  | absent => cases hc
  | fault => exact .inl (Except.error.inj hc).symm
  | found regular links size =>
    rw [checkResultFile] at hc
    split_ifs at hc
    · exact .inr (Except.error.inj hc).symm

theorem loop_end {n : ℕ} (hl : h.loop n m = some (r, m')) : LoopEnd h r m' := by
  induction n generalizing m with
  | zero => cases hl
  | succ n ih =>
    rw [Host.loop] at hl
    split at hl
    · next e hfile =>
      obtain ⟨rfl, rfl⟩ := Prod.mk.inj (Option.some.inj hl)
      exact .refused (checkResultFile_error hfile)
    · split at hl
      · next e _ =>
        split at hl
        · next e' m₁ ht =>
          obtain ⟨rfl, rfl⟩ := Prod.mk.inj (Option.some.inj hl)
          rcases terminateWith_spec ht with ⟨hok, _⟩ | he | he | ⟨he, hr⟩
          · cases hok
          · exact .failed (.inl (Except.error.inj he))
          · exact .failed (.inr (.inl (Except.error.inj he)))
          · exact .failed (.inr (.inr ⟨Except.error.inj he, hr⟩))
        · next m₁ ht =>
          obtain ⟨rfl, rfl⟩ := Prod.mk.inj (Option.some.inj hl)
          rcases terminateWith_spec ht with ⟨_, hquiet⟩ | he | he | ⟨he, _⟩
          · exact .stopped hquiet
          · cases he
          · cases he
          · cases he
      · split at hl
        · exact ih hl
        · next code m₁ hw =>
          obtain ⟨rfl, rfl⟩ := Prod.mk.inj (Option.some.inj hl)
          exact .ended (wait_some hw)

/-- A turn of the loop passes a moment of the clock, so that it ends with the deadline. -/
theorem loop_ends {deadline n : ℕ} (hlate : ∀ t, deadline ≤ t → h.late t = true)
    (hn : deadline ≤ m.tick + n) : ∃ r m', h.loop (n + 1) m = some (r, m') := by
  induction n generalizing m with
  | zero =>
    have hstop : ∃ e, h.stop m = some e := by
      unfold Host.stop Host.reason
      rw [hlate m.tick hn, if_pos rfl]
      split_ifs <;> exact ⟨_, rfl⟩
    obtain ⟨e, hstop⟩ := hstop
    rw [Host.loop, hstop]
    split
    · exact ⟨_, _, rfl⟩
    · dsimp only
      split <;> exact ⟨_, _, rfl⟩
  | succ n ih =>
    rw [Host.loop]
    split
    · exact ⟨_, _, rfl⟩
    · split
      · split <;> exact ⟨_, _, rfl⟩
      · split
        · next m₁ hw =>
          have htick : m₁.tick = m.tick + 1 := wait_none hw
          exact ih (by omega)
        · exact ⟨_, _, rfl⟩

/-- What the `finally` adds: the leader was waited for, or its end is not known. -/
theorem finish_spec (r : Except Raised CommandOutput) (m : Moment) :
    (h.finish r m).1 = r ∧ (h.finish r m).2.processes.leader.Reaped ∨
      (h.finish r m).1 = .error noPermission ∨ (h.finish r m).1 = .error unconfirmed ∨
      (h.finish r m).1 = .error .permissionError ∧
        (h.finish r m).2.processes.leader.Reaped := by
  unfold Host.finish
  split
  · next code m₁ hw =>
    refine .inl ⟨rfl, ?_⟩
    rw [wait_some hw]
    trivial
  · split
    · next e m₂ ht =>
      rcases terminateWith_spec ht with ⟨he, _⟩ | he | he | ⟨he, hr⟩
      · cases he
      · exact .inr (.inl (congrArg Except.error (Except.error.inj he)))
      · exact .inr (.inr (.inl (congrArg Except.error (Except.error.inj he))))
      · exact .inr (.inr (.inr ⟨congrArg Except.error (Except.error.inj he), hr⟩))
    · next ht =>
      rcases terminateWith_spec ht with ⟨_, hquiet⟩ | he | he | ⟨he, _⟩
      · exact .inl ⟨rfl, hquiet.reaped⟩
      · cases he
      · cases he
      · cases he

theorem finish_reaped {code : ℤ} (hl : m.processes.leader = .reaped code) :
    (h.finish r m).1 = r ∧ Drift m.processes (h.finish r m).2.processes := by
  obtain ⟨m', hw, hd⟩ := wait_reaped (h := h) hl
  rw [Host.finish, hw]
  exact ⟨rfl, hd⟩

theorem Leader.Reaped.code {leader : Leader} (hr : leader.Reaped) : ∃ code, leader = .reaped code := by
  cases leader with
  | reaped code => exact ⟨code, rfl⟩
  | running | exited => exact hr.elim

theorem collect_ok {code : ℤ} {out : CommandOutput} (hc : h.collect code m = .ok out) :
    out.returncode = code ∧ out.output.length ≤ maxOutputBytes ∧
      out.errors.length ≤ maxOutputBytes := by
  unfold Host.collect at hc
  cases hfile : checkResultFile (h.resultFile m.tick) with
  | error e =>
    rw [hfile] at hc
    cases hc
  | ok u =>
    rw [hfile] at hc
    simp only [bind, Except.bind] at hc
    split_ifs at hc
    rw [← Except.ok.inj hc]
    exact ⟨rfl, List.length_take_le _ _, List.length_take_le _ _⟩

theorem collect_error {code : ℤ} {e : Raised} (hc : h.collect code m = .error e) : ¬ Stops e := by
  unfold Host.collect at hc
  cases hfile : checkResultFile (h.resultFile m.tick) with
  | error e' =>
    rw [hfile] at hc
    rw [← Except.error.inj hc]
    rcases checkResultFile_error hfile with rfl | rfl <;> decide
  | ok u =>
    rw [hfile] at hc
    simp only [bind, Except.bind] at hc
    split_ifs at hc
    rw [← Except.error.inj hc]
    decide

theorem Owned.drift (ho : Owned r w) (hd : Drift w w') : Owned r w' where
  known := ho.known.imp_left fun hr => by
    rw [leader_kept hd hr]
    exact hr
  returned out hout := by
    have hreturned := ho.returned out hout
    rw [leader_kept hd (by rw [hreturned.1]; trivial)]
    exact hreturned
  stopped e he hstops := (ho.stopped e he hstops).drift hd

theorem Owned.later (ho : Owned r w) (hd : Relation.ReflTransGen Drift w w') : Owned r w' := by
  induction hd with
  | refl => exact ho
  | tail _ hstep ih => exact ih.drift hstep

theorem Owned.of_error {e : Raised}
    (hknown : w.leader.Reaped ∨ e = noPermission ∨ e = unconfirmed) (he : ¬ Stops e) :
    Owned (.error e) w where
  known := hknown.imp_right (.imp (congrArg _) (congrArg _))
  returned _ hr := by cases hr
  stopped e' hr hstops := by
    rw [← Except.error.inj hr] at hstops
    exact absurd hstops he

/-- An exception that is not the loop's own stop keeps to what the `finally` finds. -/
theorem finish_error {e : Raised} (he : ¬ Stops e) (m : Moment) :
    Owned (h.finish (.error e) m).1 (h.finish (.error e) m).2.processes := by
  rcases finish_spec (h := h) (.error e) m with ⟨heq, hr⟩ | heq | heq | ⟨heq, hr⟩
  · rw [heq]
    exact .of_error (.inl hr) he
  · rw [heq]
    exact .of_error (.inr (.inl rfl)) (by decide)
  · rw [heq]
    exact .of_error (.inr (.inr rfl)) (by decide)
  · rw [heq]
    exact .of_error (.inl hr) (by decide)

theorem LoopEnd.owned (he : LoopEnd h r m) :
    Owned (h.finish r m).1 (h.finish r m).2.processes := by
  cases he with
  | @ended code _ hl =>
    obtain ⟨heq, hd⟩ := finish_reaped (h := h) (r := h.collect code m) hl
    have hreaped : (h.finish (h.collect code m) m).2.processes.leader = .reaped code := by
      rw [leader_kept hd (by rw [hl]; trivial), hl]
    rw [heq]
    refine ⟨.inl (by rw [hreaped]; trivial), fun out hout => ?_, fun e herror hstops => ?_⟩
    · rw [(collect_ok hout).1]
      exact ⟨hreaped, (collect_ok hout).2⟩
    · exact absurd hstops (collect_error herror)
  | @stopped e _ hquiet =>
    obtain ⟨code, hl⟩ := Leader.Reaped.code hquiet.reaped
    obtain ⟨heq, hd⟩ := finish_reaped (h := h) (r := .error e) hl
    have hquiet' : Quiet (h.finish (.error e) m).2.processes := hquiet.drift hd
    rw [heq]
    exact ⟨.inl hquiet'.reaped, fun _ hout => (by cases hout), fun _ _ _ => hquiet'⟩
  | failed hknown =>
    apply finish_error
    rcases hknown with rfl | rfl | ⟨rfl, _⟩ <;> decide
  | refused hfile =>
    apply finish_error
    rcases hfile with rfl | rfl <;> decide

/-- Every command ends by its deadline, whatever it does. Then its leader was waited for, unless
the exception says that its end is not known; what is returned is the code that the leader ended
with and outputs within their bound; and a command that the loop stopped (it was cancelled, was
late, or had written too much while it ran) has nobody left in its group, then or later. -/
theorem command_owned {deadline n : ℕ} (hlate : ∀ t, deadline ≤ t → h.late t = true)
    (hn : deadline < n) : ∃ r m, h.runCommand n = some (r, m) ∧
      ∀ w, Relation.ReflTransGen Drift m.processes w → Owned r w := by
  obtain ⟨k, rfl⟩ : ∃ k, n = k + 1 := ⟨n - 1, by omega⟩
  obtain ⟨r, m, hloop⟩ := loop_ends (h := h) (m := {}) (n := k) hlate (by
    change deadline ≤ 0 + k
    omega)
  refine ⟨(h.finish r m).1, (h.finish r m).2, by rw [Host.runCommand, hloop]; rfl, ?_⟩
  exact fun w hw => (loop_end hloop).owned.later hw

section Examples

/-- A system where a command writes nothing and ends when it is killed. -/
def plainHost : Host where
  drift _ w :=
    if w.group = .doomed ∧ w.leader = .running then { w with leader := .exited (-9) } else w
  lawful _ w := by
    split_ifs with hw
    · exact ⟨.inr ⟨hw.2, -9, rfl⟩, id, fun h _ => h⟩
    · exact ⟨.inl rfl, id, fun h _ => h⟩
  denied _ := false
  resultFile _ := .absent
  cancelled _ := false
  late t := decide (3 ≤ t)
  output _ := []
  errors _ := []

theorem command_owned_plain : ∃ r m, plainHost.runCommand 4 = some (r, m) ∧
    ∀ w, Relation.ReflTransGen Drift m.processes w → Owned r w :=
  command_owned (fun _ ht => decide_eq_true ht) (by decide)

/-- It is killed at its deadline. -/
example : plainHost.runCommand 4 = some (.error (.outcome ⟨.timedOut, "실행 제한시간을 초과했습니다."⟩),
    ⟨9, ⟨.reaped (-9), .doomed⟩⟩) := by
  decide +kernel

end Examples

end NyanyaAgent.Safety
