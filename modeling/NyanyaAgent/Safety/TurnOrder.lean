import NyanyaAgent.Invariants.Statuses
import NyanyaAgent.System.Invariant

/-!
# The order of conversation turns

The turns of one session and generation run one at a time, and a turn starts only when
no earlier one is ready to.
-/
namespace NyanyaAgent.Safety
open NyanyaAgent.Schema NyanyaAgent.Relational NyanyaAgent.Operations NyanyaAgent.Plans
open NyanyaAgent.Drafts NyanyaAgent.Lifecycle NyanyaAgent.Runs NyanyaAgent.Invariants
open NyanyaAgent.System NyanyaAgent.Conversation

variable {env : Environment} {κ : Kind} {l l' : Ledger} {j k : TaskId} {s : SessionId} {g q q' : ℕ}

/-- The task is running, or asked to stop. -/
def Working (l : Ledger) (k : TaskId) : Prop :=
  ∃ t, l.tasks.get? k = some t ∧ (t.status = .running ∨ t.status = .cancelling)

/-- The task waits for a worker that may start it. -/
def Ready (l : Ledger) (k : TaskId) : Prop :=
  ∃ t o, l.tasks.get? k = some t ∧ l.operations.get? k = some o ∧ t.status = .queued ∧
    o.eligible = true ∧ o.attempts < o.maxAttempts

/-- Turns are turns of operations, and one of a session and generation works at a time. -/
structure TurnsSerial (l : Ledger) : Prop where
  operation : ∀ k, turnKey l k ≠ none → (l.operations.get? k).isSome = true
  one : ∀ j k s g q q', turnKey l j = some (s, g, q) → turnKey l k = some (s, g, q') →
    Working l j → Working l k → j = k

theorem turnKey_step (h : Step env True κ l l') (hκ : κ ≠ .bind) (k : TaskId) :
    turnKey l' k = turnKey l k := by
  cases h with
  | aside h => exact h.turns k
  | bind => exact absurd rfl hκ
  | retire =>
    unfold retireImported
    split <;> rfl
  | enter =>
    simp only [upsertTask]
    split <;> rfl
  | completeParent =>
    unfold completeParent
    split
    · split_ifs <;> rfl
    · rfl
  | @interrupt _ k t => cases t.currentExecutionId <;> rfl
  | closeReview =>
    dsimp only
    split_ifs <;> rfl
  | _ => rfl

theorem operation_isSome_step (h : Step env True κ l l') (hk : (l.operations.get? k).isSome = true) :
    (l'.operations.get? k).isSome = true := by
  obtain ⟨o, ho⟩ := Option.isSome_iff_exists.mp hk
  obtain ⟨o', ho', _⟩ := of_skeleton_operation ((Extends.step h).operation k _ (skeleton_operation ho))
  rw [ho']
  rfl

/-- Only a start makes an operation task work. -/
theorem working_step (hg : Good l) (h : Step env True κ l l') (hκ : κ ≠ .start)
    (hop : (l.operations.get? k).isSome = true) (hk : Working l' k) : Working l k := by
  obtain ⟨t', ht', hs'⟩ := hk
  rcases task_step trivial h ht' with ⟨t, ht, heq | hmove⟩ | ⟨_, _, hq⟩
  · exact ⟨t, ht, heq ▸ hs'⟩
  · by_cases hstop : κ = .requestStop
    · subst hstop
      cases h with
      | @requestStop _ i x now hpromise =>
        simp only [requestStop] at ht'
        obtain ⟨t₀, ht₀, ⟨_, rfl⟩ | ⟨rfl, rfl⟩⟩ := updateTask_cases ht'
        · exact ⟨_, ht₀, hs'⟩
        · obtain ⟨t₁, ht₁, hcur, _, hnot⟩ := (hpromise trivial).task
          obtain ⟨c, hc, _, hr, _⟩ := (hpromise trivial).claim
          obtain ⟨o, ho⟩ := Option.isSome_iff_exists.mp hop
          obtain ⟨_, t₂, ht₂, _, hrest⟩ := (hg.sound k).held c o hc hr ho
          rw [ht₁] at ht₂
          cases ht₂
          exact ⟨_, ht₁, (hrest.resolve_right fun hb => hnot hb.1).1⟩
    · generalize ha : t.status = a, t'.status = b at hmove hs'
      cases hmove with
      | start => exact absurd rfl hκ
      | conclude _ outcome => cases outcome <;> simp [outcomeTaskStatus] at hs'
      | stopRunning hs => exact ⟨t, ht, ha ▸ hs⟩
      | requestStop => exact absurd rfl hstop
      | closeTask _ h | settle _ h | settleReview h | resolveParent _ h =>
        rcases h with rfl | rfl <;> simp at hs'
      | resolveChild _ h => rcases h with rfl | rfl | rfl <;> simp at hs'
      | _ => simp at hs'
  · rw [hq] at hs'
    simp at hs'

/-- Everything but a start keeps the turns serial. -/
theorem TurnsSerial.kept (ht : TurnsSerial l) (hg : Good l) (h : Step env True κ l l')
    (hκ : κ ≠ .start) : TurnsSerial l' := by
  by_cases hbind : κ = .bind
  · subst hbind
    cases h with
    | @bind _ _ i h _ _ hop hturns hpromise =>
      have hkey : ∀ k, turnKey l' k ≠ none → (l.operations.get? k).isSome = true := by
        intro k hk
        by_cases hki : k = i
        · exact hki ▸ hop
        · exact ht.operation k (hturns k hki ▸ hk)
      have hidle : ∀ k, Working l' k → k ≠ i ∧ Working l k := by
        rintro k ⟨t, htask, hs⟩
        rw [h.tasks] at htask
        refine ⟨?_, t, htask, hs⟩
        rintro rfl
        obtain ⟨t₀, ht₀, hq⟩ := hpromise trivial
        rw [htask] at ht₀
        cases ht₀
        simp [hq] at hs
      refine ⟨fun k hk => h.operations ▸ hkey k hk, ?_⟩
      intro j k s g q q' hj hk hwj hwk
      obtain ⟨hji, hwj⟩ := hidle j hwj
      obtain ⟨hki, hwk⟩ := hidle k hwk
      exact ht.one j k s g q q' (hturns j hji ▸ hj) (hturns k hki ▸ hk) hwj hwk
  · have hkeys := turnKey_step h hbind
    have hops : ∀ k, turnKey l' k ≠ none → (l.operations.get? k).isSome = true :=
      fun k hk => ht.operation k (hkeys k ▸ hk)
    refine ⟨fun k hk => operation_isSome_step h (hops k hk), ?_⟩
    intro j k s g q q' hj hk hwj hwk
    have hwj₀ := working_step hg h hκ (hops j (by simp [hj])) hwj
    have hwk₀ := working_step hg h hκ (hops k (by simp [hk])) hwk
    exact ht.one j k s g q q' (hkeys j ▸ hj) (hkeys k ▸ hk) hwj₀ hwk₀

/-- What keeps a turn from starting: another turn that works, or an earlier one that may. -/
def Blocks (l : Ledger) (q : ℕ) (j : TaskId) (q' : ℕ) : Prop :=
  (l.operations.get? j).isSome = true ∧ (Working l j ∨ q' < q ∧ Ready l j)

/-- A turn waits for the turns of its own session and generation only. -/
theorem hasEarlierWork_iff (hk : turnKey l k = some (s, g, q)) :
    HasEarlierWork l k ↔ ∃ j q', j ≠ k ∧ turnKey l j = some (s, g, q') ∧ Blocks l q j q' := by
  obtain ⟨current, hcurrent, rfl, rfl, rfl⟩ := turnKey_eq_some.mp hk
  have hkey : current.taskId = k := Table.key_of_get? hcurrent
  constructor
  · rintro ⟨c, hc, hck, e, he, hes, heg, hne, t, ht, htk, o, ho, hok, hblocks⟩
    have hcc : c = current := by
      have hrow := Table.mem_rows_iff.mp hc
      rw [hck, hcurrent] at hrow
      exact (Option.some.inj hrow).symm
    subst hcc
    have htask := Table.mem_rows_iff.mp ht
    have hop := Table.mem_rows_iff.mp ho
    rw [htk] at htask
    rw [hok, htk] at hop
    refine ⟨e.taskId, e.sequence, hkey ▸ hne, ?_, by rw [hop]; rfl, ?_⟩
    · exact turnKey_eq_some.mpr ⟨e, Table.mem_rows_iff.mp he, hes, heg, rfl⟩
    · rcases hblocks with hw | ⟨hlt, hq, hel, ha⟩
      · exact .inl ⟨t, htask, hw⟩
      · exact .inr ⟨hlt, t, o, htask, hop, hq, hel, ha⟩
  · rintro ⟨j, q', hne, hj, hop, hblocks⟩
    obtain ⟨e, he, hes, heg, rfl⟩ := turnKey_eq_some.mp hj
    obtain ⟨o, ho⟩ := Option.isSome_iff_exists.mp hop
    have hej : e.taskId = j := Table.key_of_get? he
    have hoj : o.taskId = j := Table.key_of_get? ho
    obtain ⟨hmem, _⟩ := Table.get?_eq_some.mp hcurrent
    obtain ⟨hmem', _⟩ := Table.get?_eq_some.mp he
    obtain ⟨homem, _⟩ := Table.get?_eq_some.mp ho
    have hmain : ∃ t ∈ l.tasks.rows, t.id = j ∧ ((t.status = .running ∨ t.status = .cancelling) ∨
        e.sequence < current.sequence ∧ t.status = .queued ∧ o.eligible = true ∧
          o.attempts < o.maxAttempts) := by
      rcases hblocks with ⟨t, ht, hw⟩ | ⟨hlt, t, o', ht, ho', hq, hel, ha⟩
      · obtain ⟨htmem, htk⟩ := Table.get?_eq_some.mp ht
        exact ⟨t, htmem, htk, .inl hw⟩
      · rw [ho] at ho'
        cases ho'
        obtain ⟨htmem, htk⟩ := Table.get?_eq_some.mp ht
        exact ⟨t, htmem, htk, .inr ⟨hlt, hq, hel, ha⟩⟩
    obtain ⟨t, htmem, htk, hrest⟩ := hmain
    exact ⟨current, hmem, hkey, e, hmem', hes, heg, by rw [hej, hkey]; exact hne, t, htmem,
      htk.trans hej.symm, o, homem, hoj.trans htk.symm, hrest⟩

/-- The start of the turn that is first keeps the turns serial. -/
theorem TurnsSerial.claim (env : Environment) (ht : TurnsSerial l) {generation : WorkerId} {x : ExecutionId}
    {record : ClaimRecord} {t : AgentTask} {o : TaskOperation} {entry now : Time}
    (hc : Claims l generation x record t o)
    (h : Tx.Ran (startAttempt t o.spec generation x entry now) l () l') : TurnsSerial l' := by
  have hstep : Step env True .start l l' := hc.step h
  have hkeys := turnKey_step hstep (by simp)
  have hops : ∀ k, turnKey l' k ≠ none → (l.operations.get? k).isSome = true :=
    fun k hk => ht.operation k (hkeys k ▸ hk)
  have hworking : ∀ k, k ≠ t.id → Working l' k → Working l k := by
    rintro k hk ⟨t', ht', hs⟩
    refine ⟨t', ?_, hs⟩
    unfold startAttempt insertExecution insertClaim at h
    simp only [Tx.ran_attempt_bind, Tx.ran_write_bind, Tx.ran_write, Option.map_eq_some_iff] at h
    obtain ⟨_, ⟨executions, _, rfl⟩, _, ⟨claims, _, rfl⟩, rfl⟩ := h
    simp only [Ledger.appendEvent_tasks, Ledger.updateOperation_tasks] at ht'
    rwa [Ledger.updateTask_get?_ne _ _ _ hk] at ht'
  have halone : ∀ j s g q q', j ≠ t.id → turnKey l' j = some (s, g, q) →
      turnKey l' t.id = some (s, g, q') → ¬ Working l' j := by
    intro j s g q q' hj hkj hkt hw
    refine hc.first ((hasEarlierWork_iff (hkeys t.id ▸ hkt)).mpr ⟨j, q, hj, hkeys j ▸ hkj, ?_⟩)
    exact ⟨hops j (by simp [hkj]), .inl (hworking j hj hw)⟩
  refine ⟨fun k hk => operation_isSome_step hstep (hops k hk), ?_⟩
  intro j k s g q q' hj hk hwj hwk
  by_cases hjt : j = t.id
  · subst hjt
    by_contra hne
    exact halone k s g q' q (fun h => hne h.symm) hk hj hwk
  · by_cases hkt : k = t.id
    · subst hkt
      exact absurd hwj (halone j s g q q' hjt hj hk)
    · exact ht.one j k s g q q' (hkeys j ▸ hj) (hkeys k ▸ hk) (hworking j hjt hwj)
        (hworking k hkt hwk)

theorem TurnsSerial.action {w : World} {a : Action} (hw : Consistent env w) (ha : Legal w a)
    (ht : TurnsSerial w.ledger) : TurnsSerial (step env w a).ledger := by
  by_cases hstart : .start ∈ actionKinds a
  · obtain ⟨generation, slots, x, entry, rfl⟩ := start_mem_actionKinds hstart
    rcases step_command env w (.claim generation slots x entry) with ⟨record, l', hran, hstep⟩ | ⟨_, hstep⟩
    · rw [hstep]
      rcases claim_cases hran with ⟨_, rfl⟩ | ⟨_, r, t, o, _, hc, hs⟩
      · exact ht
      · exact ht.claim env hc hs
    · rw [hstep]
      exact ht
  · have hchain : Chain env True (actionKinds a) w.ledger (step env w a).ledger :=
      step_chain fun _ => hw.promise ha
    exact (hchain.invariant (I := fun l => Good l ∧ TurnsSerial l)
      (fun κ hκ _ _ hl hs => ⟨hl.1.step hs, hl.2.kept hl.1 hs fun he => hstart (he ▸ hκ)⟩)
      ⟨hw.good, ht⟩).2

theorem turnsSerial_of_reachable {w : World} (hw : ReachableWorld env w) : TurnsSerial w.ledger := by
  have hboth : Consistent env w ∧ TurnsSerial w.ledger := by
    refine hw.invariant (I := fun w => Consistent env w ∧ TurnsSerial w.ledger) (fun w h₀ => ?_)
      fun w a h ha => ⟨h.1.step ha, h.2.action h.1 ha⟩
    have hno : ∀ k, turnKey w.ledger k = none := fun k => by simp [turnKey, h₀.ledger.turns]
    exact ⟨.of_init h₀, fun k hk => absurd (hno k) hk, fun j _ _ _ _ _ hj => by simp [hno j] at hj⟩
  exact hboth.2

/-- Two ledgers have the same turns of a session and generation, with the same rows. -/
def SameScope (s : SessionId) (g : ℕ) (l l' : Ledger) : Prop :=
  ∀ j q, (turnKey l j = some (s, g, q) ↔ turnKey l' j = some (s, g, q)) ∧
    (turnKey l j = some (s, g, q) →
      l.tasks.get? j = l'.tasks.get? j ∧ l.operations.get? j = l'.operations.get? j)

theorem hasEarlierWork_congr (h : SameScope s g l l') (hk : turnKey l k = some (s, g, q)) :
    HasEarlierWork l k ↔ HasEarlierWork l' k := by
  rw [hasEarlierWork_iff hk, hasEarlierWork_iff (((h k q).1).mp hk)]
  refine exists_congr fun j => exists_congr fun q' => and_congr_right fun _ => ?_
  constructor
  · rintro ⟨hj, hb⟩
    obtain ⟨htask, hop⟩ := (h j q').2 hj
    exact ⟨((h j q').1).mp hj, by simpa only [Blocks, Working, Ready, htask, hop] using hb⟩
  · rintro ⟨hj, hb⟩
    have hj' := ((h j q').1).mpr hj
    obtain ⟨htask, hop⟩ := (h j q').2 hj'
    exact ⟨hj', by simpa only [Blocks, Working, Ready, htask, hop] using hb⟩

/-- In every reachable world one turn of a session and generation works at most; a turn
that `claim` starts has no working turn beside it and no earlier ready one before it; and
whether a turn has to wait is decided by the turns of its session and generation alone. -/
theorem turns_serialised (env : Environment) (w : World) (hw : ReachableWorld env w) :
    (∀ j k s g q q', turnKey w.ledger j = some (s, g, q) → turnKey w.ledger k = some (s, g, q') →
      Working w.ledger j → Working w.ledger k → j = k) ∧
    (∀ generation slots x entry record l',
      Tx.Ran (commandOp env w (.claim generation slots x entry)) w.ledger (some record) l' →
      ∀ s g q, turnKey w.ledger record.taskId = some (s, g, q) → ∀ j q', j ≠ record.taskId →
        turnKey w.ledger j = some (s, g, q') → ¬ Working w.ledger j ∧ ¬ (q' < q ∧ Ready w.ledger j)) ∧
    ∀ l' k s g q, SameScope s g w.ledger l' → turnKey w.ledger k = some (s, g, q) →
      (HasEarlierWork w.ledger k ↔ HasEarlierWork l' k) := by
  have hserial := turnsSerial_of_reachable hw
  refine ⟨hserial.one, ?_, fun l' k s g q => hasEarlierWork_congr⟩
  intro generation slots x entry record l' hran s g q hk j q' hj hkey
  rcases claim_cases hran with ⟨hnone, _⟩ | ⟨_, r, t, o, hsome, hc, _⟩
  · cases hnone
  · cases hsome
    have htask : record.taskId = t.id := by rw [hc.record]
    have hfirst : ¬ HasEarlierWork w.ledger record.taskId := htask ▸ hc.first
    rw [hasEarlierWork_iff hk] at hfirst
    have hop : (w.ledger.operations.get? j).isSome = true := hserial.operation j (by simp [hkey])
    exact ⟨fun hw => hfirst ⟨j, q', hj, hkey, hop, .inl hw⟩,
      fun hr => hfirst ⟨j, q', hj, hkey, hop, .inr hr⟩⟩

/-- Two turns of one conversation, of which the first is claimed. -/
def turnsRun : List Action :=
  [.command (.registerWorker 1),
    .command (.submit plainRegistry { workspace := "/w" } "owner" 1 none none (some "chat") 7 3),
    .command (.submit plainRegistry { workspace := "/w" } "owner" 1 none none (some "chat") 8 4)]

def plainTurns : World := turnsRun.foldl (step plainEnvironment) plainWorld

theorem turnsRun_run : Run (step plainEnvironment) Legal plainWorld turnsRun plainTurns := by
  refine .cons trivial (.cons ⟨by decide +kernel, ?_, ?_⟩ (.cons ⟨by decide +kernel, ?_, ?_⟩ (.nil _)))
  all_goals exact fun _ => rfl

/-- The first turn is claimed, as the other one of its conversation neither works nor comes before
it. -/
theorem turns_serialised_plain : ∃ record l',
    Tx.Ran (commandOp plainEnvironment plainTurns (.claim 1 4 9 0)) plainTurns.ledger (some record) l' ∧
      record.taskId = 7 ∧ turnKey plainTurns.ledger 7 = some (3, 1, 1) ∧
        turnKey plainTurns.ledger 8 = some (3, 1, 2) ∧ ¬ Working plainTurns.ledger 8 := by
  have hran : (commandOp plainEnvironment plainTurns (.claim 1 4 9 0) plainTurns.ledger).1 =
      .ok (some ⟨7, 1, 9, { workspace := "/w" }, "owner"⟩) := by decide +kernel
  have hkeys : turnKey plainTurns.ledger 7 = some (3, 1, 1) ∧
      turnKey plainTurns.ledger 8 = some (3, 1, 2) := by decide +kernel
  have hall := turns_serialised plainEnvironment plainTurns ⟨_, _, plainWorld_init, turnsRun_run⟩
  refine ⟨_, _, Prod.ext hran rfl, rfl, hkeys.1, hkeys.2, ?_⟩
  exact (hall.2.1 1 4 9 0 _ _ (Prod.ext hran rfl) 3 1 1 hkeys.1 8 2 (by decide) hkeys.2).1

end NyanyaAgent.Safety
