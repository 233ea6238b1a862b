import NyanyaAgent.Invariants.AttemptSteps
import NyanyaAgent.Invariants.Drafts
import NyanyaAgent.Invariants.Plans
import NyanyaAgent.System.Steps

/-!
# The invariant of the world

What holds of every world that lawful callers reach: the ledger is linked and sound,
claim records and apply calls name rows of the ledger, a lock file has one holder,
and the plan of an admitted call stays `applying` until the call records its outcome.
-/
namespace NyanyaAgent.System
open NyanyaAgent.Schema NyanyaAgent.Relational NyanyaAgent.Operations NyanyaAgent.Plans
open NyanyaAgent.Drafts NyanyaAgent.Lifecycle NyanyaAgent.Runs NyanyaAgent.Invariants

variable {env : Environment}

/-- The invariant of the ledger. -/
structure Good (l : Ledger) : Prop where
  linked : Linked (skeleton l)
  sound : ∀ k, Sound l k
  scope : Scoped l

theorem Good.step {κ : Kind} {l l' : Ledger} (hg : Good l) (h : Step env True κ l l') : Good l' :=
  ⟨hg.linked.step trivial h, Sound.step trivial hg.linked hg.sound h, hg.scope.step h⟩

theorem Good.chain {ks : List Kind} {l l' : Ledger} (hg : Good l) (h : Chain env True ks l l') :
    Good l' := h.invariant (fun _ _ _ _ hg hs => hg.step hs) hg

theorem Good.of_imported {l : Ledger} (h : ImportedLedger l) : Good l where
  linked := by
    have hop : ∀ k spec parent, (skeleton l).operation k ≠ some (spec, parent) := by
      intro k spec parent ho
      obtain ⟨o, ho, _⟩ := of_skeleton_operation ho
      rw [h.operations] at ho
      cases ho
    have hdraft : ∀ d c, (skeleton l).draft d ≠ some c := by
      intro d c hd
      obtain ⟨r, hr, _⟩ := of_skeleton_draft hd
      rw [h.drafts] at hr
      cases hr
    refine ⟨⟨fun k spec parent ho => absurd ho (hop k spec parent),
      fun j _ spec _ parent _ _ ho => absurd ho (hop j spec parent)⟩, ?_, ?_,
      fun k spec parent ho => absurd ho (hop k spec parent),
      fun k spec parent ho => absurd ho (hop k spec parent), fun d c hd => absurd hd (hdraft d c),
      fun d _ c _ hd => absurd hd (hdraft d c), fun _ _ d c _ hd => absurd hd (hdraft d c)⟩
    · intro x k hx
      obtain ⟨e, he, rfl⟩ := of_skeleton_attempt hx
      obtain ⟨t, ht, _⟩ := h.executions x e he
      exact skeleton_task ht
    · intro p c hp
      obtain ⟨r, hr, _⟩ := of_skeleton_plan hp
      rw [h.plans] at hr
      cases hr
  sound k := by
    have hno : ∀ o, l.operations.get? k ≠ some o := fun o => by simp [h.operations]
    refine ⟨fun c hc => ?_, fun _ o _ _ ho => absurd ho (hno o), fun _ o _ _ ho => absurd ho (hno o),
      fun _ o _ ho => absurd ho (hno o), fun o ho => absurd ho (hno o),
      fun o ho => absurd ho (hno o), fun t ht _ hq => ⟨fun c hc => ?_, fun x a hx => ?_⟩,
      fun _ o _ ho => absurd ho (hno o)⟩
    · obtain ⟨e, _, he, rfl, _⟩ := h.claims k c hc
      exact ⟨_, attemptView_of he⟩
    · obtain ⟨_, t', _, _, ht', hr⟩ := h.claims k c hc
      rw [ht] at ht'
      cases ht'
      exact hr hq
    · obtain ⟨e, he, rfl, rfl⟩ := attemptView_eq_some.mp hx
      obtain ⟨t', ht', hs⟩ := h.executions x e he
      rw [ht] at ht'
      cases ht'
      rw [hs hq]
      rfl
  scope d r hr := by
    rw [h.drafts] at hr
    cases hr

/-- A claim record names an attempt of its task and the task's request. -/
def Issued (l : Ledger) (r : ClaimRecord) : Prop :=
  (skeleton l).attempt r.executionId = some r.taskId ∧
    ∃ parent, (skeleton l).operation r.taskId = some (r.spec, parent)

theorem Issued.extends {l l' : Ledger} {r : ClaimRecord} (h : Issued l r)
    (he : Extends (skeleton l) (skeleton l')) : Issued l' r :=
  ⟨he.attempt _ _ h.1, h.2.imp fun _ ho => he.operation _ _ ho⟩

/-- A call of `apply` works on a plan of the ledger, in the root of its workspace. -/
structure CallOf (env : Environment) (l : Ledger) (issued : List ClaimRecord) (c : ApplyCall) :
    Prop where
  plan : (skeleton l).plan c.plan.id = some (planCore c.plan)
  root : env.resolve c.plan.workspace = some c.root
  record : ∀ r, c.record = some r → r ∈ issued

structure Consistent (env : Environment) (w : World) : Prop where
  good : Good w.ledger
  issued : ∀ r ∈ w.issued, Issued w.ledger r
  calls : ∀ c ∈ w.calls, CallOf env w.ledger w.issued c
  exclusive : ∀ (i j : ℕ) (c d : ApplyCall), w.calls[i]? = some c → w.calls[j]? = some d → c.root = d.root →
    c.stage.HoldsLock → d.stage.HoldsLock → i = j
  inFlight : ∀ c ∈ w.calls, c.stage.InFlight →
    ∃ r, w.ledger.plans.get? c.plan.id = some r ∧ r.status = .applying

theorem Extends.chain {lawful : Prop} {ks : List Kind} {l l' : Ledger}
    (h : Chain env lawful ks l l') : Extends (skeleton l) (skeleton l') :=
  h.relation (R := fun l l' => Extends (skeleton l) (skeleton l')) (I := fun _ => True)
    (fun _ => .refl _) (fun _ _ _ => .trans) (fun _ _ _ _ _ _ => trivial)
    (fun _ _ _ _ _ hs => .step hs) trivial

/-- Two calls that work on the same plan work in the same root. -/
theorem CallOf.same_root {l : Ledger} {issued : List ClaimRecord} {c d : ApplyCall}
    (hc : CallOf env l issued c) (hd : CallOf env l issued d) (h : c.plan.id = d.plan.id) :
    c.root = d.root := by
  have hcore : planCore c.plan = planCore d.plan := by
    have := hd.plan
    rw [← h, hc.plan] at this
    exact Option.some.inj this
  have hws : c.plan.workspace = d.plan.workspace := by
    simpa [planCore] using congrArg ChangePlan.workspace hcore
  have := hd.root
  rw [← hws, hc.root] at this
  exact Option.some.inj this

/-- The kinds of changes that take a plan out of `applying`. -/
theorem applying_kept {κ : Kind} {l l' : Ledger} {p : PlanId} {r : ChangePlan}
    (h : Step env True κ l l') (hκ : κ ≠ .finalize ∧ κ ≠ .uncertain ∧ κ ≠ .acknowledge)
    (hr : l.plans.get? p = some r) (hs : r.status = .applying) :
    ∃ r', l'.plans.get? p = some r' ∧ r'.status = .applying := by
  obtain ⟨r', hr', _⟩ := of_skeleton_plan ((Extends.step h).plan p _ (skeleton_plan hr))
  refine ⟨r', hr', ?_⟩
  rcases plan_step trivial h hr' with ⟨r₀, hr₀, _, heq⟩ | ⟨_, hnone, _⟩
  · rw [hr] at hr₀
    cases hr₀
    rcases heq with rfl | hmove
    · exact hs
    · rw [hs] at hmove
      generalize r'.status = s at hmove
      cases hmove <;> simp_all
  · rw [hr] at hnone
    cases hnone

theorem applying_chain {ks : List Kind} {l l' : Ledger} {p : PlanId} (h : Chain env True ks l l')
    (hks : ∀ κ ∈ ks, κ ≠ .finalize ∧ κ ≠ .uncertain ∧ κ ≠ .acknowledge)
    (hr : ∃ r, l.plans.get? p = some r ∧ r.status = .applying) :
    ∃ r, l'.plans.get? p = some r ∧ r.status = .applying :=
  h.invariant (I := fun l => ∃ r, l.plans.get? p = some r ∧ r.status = .applying)
    (fun κ hκ _ _ ⟨_, hr, hs⟩ hstep => applying_kept hstep (hks κ hκ) hr hs) hr

/-- What the source of a draft and its continuations look like to a proposal. -/
theorem Good.planPromise {l : Ledger} (hg : Good l) {k : TaskId} {draft : OperationDraft}
    (hloaded : LoadedDraft l draft) (hfeedback : Feedback l draft k)
    (hpaths : ∀ o, l.operations.get? k = some o → o.spec.draftId = none → draft.paths = []) :
    PlanPromise l k := by
  obtain ⟨o, ho, hkind, hdraft⟩ := hfeedback
  refine ⟨fun o' ho' => ?_, fun d r hr hsource => ?_⟩
  · cases Option.some.inj (ho.symm.trans ho')
    exact hkind
  · have hlinked := hg.linked
    obtain ⟨spec, parent, hop, _, hnone⟩ := hlinked.draft d _ (skeleton_draft hr)
    have hsame : spec = o.spec := by
      have hop' := skeleton_operation ho
      rw [← hsource] at hop'
      exact (Prod.mk.inj (Option.some.inj (hop.symm.trans hop'))).1
    rw [hsame] at hnone
    obtain ⟨row, hrow, hsrc, _, _, hrowpaths⟩ := hloaded
    rcases hdraft with hdraft | ⟨_, hk⟩
    · rw [hnone] at hdraft
      cases hdraft
    · have hd : d = draft.id := hlinked.source d draft.id _ _ (skeleton_draft hr)
        (skeleton_draft hrow) (hsource.trans (hk.symm.trans hsrc.symm))
      subst hd
      cases Option.some.inj (hr.symm.trans hrow)
      exact hrowpaths.trans (hpaths o ho hnone)

theorem Good.cancelPromise {l : Ledger} (hg : Good l) (k : TaskId) : CancelPromise l k where
  parent spec ho := by
    have hop : (skeleton l).operation k = some (spec, some k) := ho
    cases hkind : spec.kind with
    | apply =>
      obtain ⟨p, c, _, hc, hparent⟩ := hg.linked.apply k spec _ hop hkind
      cases hparent
      have := (hg.linked.plan p c hc).2 spec _ hop
      rw [hkind] at this
      cases this
    | request =>
      obtain ⟨d, c, hc, hsource, _, hdraft⟩ := (hg.linked.request k spec _ hop hkind).2 k rfl
      obtain ⟨spec', _, hop', _, hnone⟩ := hg.linked.draft d c hc
      rw [hsource, hop] at hop'
      cases hop'
      rw [hdraft] at hnone
      cases hnone
  claim c e hc he := by
    obtain ⟨a, ha⟩ := (hg.sound k).claim c hc
    rw [attemptView_of he] at ha
    exact (Prod.mk.inj (Option.some.inj ha)).1

theorem Consistent.promise {w : World} {a : Action} (hw : Consistent env w) (ha : Legal w a) :
    StepPromise w a := by
  cases a with
  | stepApply n chance =>
    intro call hcall hstage
    refine hw.inFlight call (List.mem_of_getElem? hcall) ?_
    rw [hstage]
    exact ⟨trivial, by simp⟩
  | command c =>
    have hg := hw.good
    cases c with
    | submit _ spec _ _ source _ _ fresh _ =>
      obtain ⟨hfresh, hplan, hsource⟩ := ha
      exact ⟨hfresh, hsource, fun hk => ⟨hplan hk, fun _ h => by cases h⟩⟩
    | approve => exact ha
    | cancel k => exact hg.cancelPromise k
    | propose _ k _ _ _ _ _ _ draft =>
      cases draft with
      | none =>
        obtain ⟨hdrafts, hop⟩ := ha
        refine ⟨fun o ho => (hop o ho).1, fun d r hr hsource => ?_⟩
        exact absurd hsource (hdrafts r (Table.get?_eq_some.mp hr).1)
      | some context =>
        obtain ⟨draft, record⟩ := context
        obtain ⟨hk, hrecord, hloaded, hpaths⟩ := ha
        intro hfeedback
        refine hg.planPromise hloaded hfeedback fun o ho hnone => hpaths ?_
        obtain ⟨_, parent, hop⟩ := hw.issued record hrecord
        rw [hk, skeleton_operation ho] at hop
        rw [← (Prod.mk.inj (Option.some.inj hop)).1]
        exact hnone
    | resolve _ p =>
      intro r hr o ho
      obtain ⟨_, hreq⟩ := hg.linked.plan p _ (skeleton_plan hr)
      exact hreq o.spec o.parentTaskId (skeleton_operation ho)
    | createDraft _ record =>
      obtain ⟨hrecord, hkind, hdraft, hplans⟩ := ha
      obtain ⟨_, parent, hop⟩ := hw.issued record hrecord
      obtain ⟨o, ho, hspec, _⟩ := of_skeleton_operation hop
      refine ⟨⟨o, ho, hspec ▸ hkind, hspec ▸ hdraft⟩, fun p r hr hk => ?_⟩
      obtain ⟨d, hd, hsource⟩ := hplans r (Table.get?_eq_some.mp hr).1 hk
      exact ⟨d.id, d, Table.mem_rows_iff.mp hd, hsource⟩
    | openDraft _ d =>
      refine ⟨ha, fun r => hg.scope d r, fun r o hr ho => ?_⟩
      obtain ⟨spec, parent, hop, hkind, _⟩ := hg.linked.draft d _ (skeleton_draft hr)
      have heq : spec = o.spec := by
        have hop' := skeleton_operation ho
        exact (Prod.mk.inj (Option.some.inj (hop.symm.trans hop'))).1
      rw [heq] at hkind hop
      exact ⟨hkind, (hg.linked.request _ _ _ hop hkind).1⟩
    | _ => trivial
  | _ => trivial

/-- Only `claim` answers with a record, and the record names what it started. -/
theorem commandOp_record {w : World} {c : Command} {record : Option ClaimRecord} {l' : Ledger}
    (h : Tx.Ran (commandOp env w c) w.ledger record l') :
    ∀ r, record = some r → Issued l' r := by
  cases c <;> simp only [commandOp, ran_dropped, Tx.ran_write, Tx.ran_lift_bind] at h
  case claim generation slots x entry =>
    intro r hr
    rcases claim_cases h with ⟨rfl, _⟩ | ⟨_, r', t, o, hr', hc, hs⟩
    · cases hr
    · cases Option.some.inj (hr.symm.trans hr')
      obtain ⟨_, hop, e, he, hek, _⟩ := startAttempt_execution hs
      rw [hc.operation, Option.map_some] at hop
      have hlink := skeleton_operation hop
      rw [hc.record]
      exact ⟨(skeleton_attempt he).trans (by rw [hek]), o.parentTaskId, hlink⟩
  case resetConversation =>
    obtain ⟨_, _, rfl, _⟩ := h
    intro r hr
    cases hr
  all_goals
    intro r hr
    rw [h.1] at hr
    cases hr

/-- The kinds of changes of a command that is not a resolution keep plans in `applying`. -/
theorem commandKinds_applying {c : Command} (h : ∀ reg p owner hash, c ≠ .resolve reg p owner hash) :
    ∀ κ ∈ commandKinds c, κ ≠ .finalize ∧ κ ≠ .uncertain ∧ κ ≠ .acknowledge := by
  cases c with
  | resolve reg p owner hash => exact absurd rfl (h reg p owner hash)
  | decide _ _ _ revoke => cases revoke <;> simp [commandKinds, settleKinds]
  | _ =>
    simp [commandKinds, approveKinds, cancelKinds, proposeKinds, linkKinds, settleKinds, openKinds,
      closeKinds, maintainKinds]

/-- A command leaves the plan of an admitted call alone: only a resolution would not, and
it waits for the lock. -/
theorem command_inFlight {w : World} {c : Command} {record : Option ClaimRecord} {l' : Ledger}
    (hw : Consistent env w) (hc : LegalCommand w c)
    (h : Tx.Ran (commandOp env w c) w.ledger record l') {call : ApplyCall} (hcall : call ∈ w.calls)
    (hs : call.stage.InFlight) :
    ∃ r, l'.plans.get? call.plan.id = some r ∧ r.status = .applying := by
  have hrow := hw.inFlight call hcall hs
  by_cases hresolve : ∃ reg p owner hash, c = .resolve reg p owner hash
  · obtain ⟨reg, p, owner, hash, rfl⟩ := hresolve
    simp only [commandOp, ran_dropped] at h
    obtain ⟨_, u, h⟩ := h
    obtain ⟨hran, plan, root, hplan, hroot, hfree⟩ := withLock_ran h
    rw [resolve_plans hran]
    · exact hrow
    · rintro rfl
      -- The call holds the lock of this plan's root.
      refine hfree ⟨call, hcall, ?_, hs.1⟩
      have hof := hw.calls call hcall
      have hcore := hof.plan
      rw [skeleton_plan hplan] at hcore
      have hws : plan.workspace = call.plan.workspace := by
        simpa [planCore] using congrArg ChangePlan.workspace (Option.some.inj hcore)
      rw [hws, hof.root] at hroot
      exact Option.some.inj hroot
  · have hchain : Chain env True (commandKinds c) w.ledger l' :=
      commandOp_chain (fun _ => hw.promise (a := .command c) hc) h
    refine applying_chain hchain (commandKinds_applying ?_) hrow
    intro reg p owner hash he
    exact hresolve ⟨reg, p, owner, hash, he⟩

theorem Consistent.command {w : World} {c : Command} (hw : Consistent env w)
    (hc : LegalCommand w c) : Consistent env (step env w (.command c)) := by
  rcases step_command env w c with ⟨record, l', hran, hstep⟩ | ⟨_, hstep⟩
  · have hchain : Chain env True (commandKinds c) w.ledger l' :=
      commandOp_chain (fun _ => hw.promise (a := .command c) hc) hran
    have hext := Extends.chain hchain
    rw [hstep]
    refine ⟨hw.good.chain hchain, fun r hr => ?_, fun call hcall => ?_, hw.exclusive,
      fun call hcall hs => command_inFlight hw hc hran hcall hs⟩
    · rcases List.mem_append.mp hr with hr | hr
      · exact (hw.issued r hr).extends hext
      · exact commandOp_record hran r (Option.mem_toList.mp hr)
    · have hof := hw.calls call hcall
      exact ⟨hext.plan _ _ hof.plan, hof.root, fun r hr =>
        List.mem_append_left _ (hof.record r hr)⟩
  · rw [hstep]
    exact hw

/-- A stage that holds the lock, after one that did not, has just taken it. -/
theorem applyStep_lock {chance : Chance} {now : Time} {call : ApplyCall} {l l' : Ledger}
    {t t' : Workspace} {s : Stage} (h : applyStep env chance now call l t = (l', t', s))
    (hs : s.HoldsLock) : call.stage.HoldsLock ∨ call.stage = .lock := by
  cases hstage : call.stage with
  | returned =>
    simp only [applyStep, hstage, Prod.mk.injEq] at h
    rw [← h.2.2] at hs
    exact absurd hs id
  | raised =>
    simp only [applyStep, hstage, Prod.mk.injEq] at h
    rw [← h.2.2] at hs
    exact absurd hs id
  | lock => exact .inr rfl
  | _ => exact .inl trivial

/-- A stage after the admission follows one, or the admission itself. -/
theorem applyStep_inFlight {chance : Chance} {now : Time} {call : ApplyCall} {l l' : Ledger}
    {t t' : Workspace} {s : Stage} (h : applyStep env chance now call l t = (l', t', s))
    (hs : s.InFlight) : call.stage.InFlight ∨
      call.stage = .admission ∧ Tx.Ran (admitPlan env t call chance.cancelled now) l () l' := by
  cases hstage : call.stage with
  | admission =>
    simp only [applyStep, hstage] at h
    split at h
    · next l₁ hcommit =>
      cases h
      exact .inr ⟨rfl, Tx.commit_ok.mp hcommit⟩
    · cases h
      exact absurd hs.1 id
  | lock =>
    simp only [applyStep, hstage, Prod.mk.injEq] at h
    rw [← h.2.2] at hs
    exact absurd rfl hs.2
  | returned =>
    simp only [applyStep, hstage, Prod.mk.injEq] at h
    rw [← h.2.2] at hs
    exact absurd hs.1 id
  | raised =>
    simp only [applyStep, hstage, Prod.mk.injEq] at h
    rw [← h.2.2] at hs
    exact absurd hs.1 id
  | _ => exact .inl ⟨trivial, by simp⟩

theorem startApply_ran {reg : Registry} {p : PlanId} {owner : String} {record : Option ClaimRecord}
    {l l' : Ledger} {call : ApplyCall} (h : Tx.Ran (startApply env reg p owner record) l call l') :
    ∃ plan root, l.plans.get? p = some plan ∧ plan.ownerKey = owner ∧
      env.resolve plan.workspace = some root ∧ call = { plan, owner, root, record, stage := .lock } := by
  unfold startApply at h
  simp only [Tx.ran_select_bind, Tx.ran_demand_bind, Tx.ran_lift_bind, Tx.ran_pure,
    Option.filter_eq_some_iff, decide_eq_true_eq] at h
  obtain ⟨plan, ⟨hrow, howner⟩, root, hroot, rfl, _⟩ := h
  exact ⟨plan, root, hrow, howner, resolve_of_checkWorkspace env hroot, rfl⟩

/-- Replacing one call by itself at another stage. -/
theorem mem_set {calls : List ApplyCall} {n : ℕ} {call c : ApplyCall} {s : Stage}
    (hc : c ∈ calls.set n { call with stage := s }) :
    c ∈ calls ∨ c = { call with stage := s } := by
  rcases List.mem_or_eq_of_mem_set hc with h | h
  · exact .inl h
  · exact .inr h

theorem getElem?_set_cases {calls : List ApplyCall} {n i : ℕ} {call c : ApplyCall} {s : Stage}
    (hcall : calls[n]? = some call) (hc : (calls.set n { call with stage := s })[i]? = some c) :
    i = n ∧ c = { call with stage := s } ∨ i ≠ n ∧ calls[i]? = some c := by
  by_cases hi : i = n
  · subst hi
    rw [List.getElem?_set_self' , hcall] at hc
    exact .inl ⟨rfl, (Option.some.inj hc).symm⟩
  · rw [List.getElem?_set_ne (Ne.symm hi)] at hc
    exact .inr ⟨hi, hc⟩

theorem Consistent.startApply {w : World} {reg : Registry} {p : PlanId} {owner : String}
    {record : Option ClaimRecord} (hw : Consistent env w)
    (hr : ∀ r, record = some r → r ∈ w.issued) :
    Consistent env (step env w (.startApply reg p owner record)) := by
  simp only [System.step]
  split
  · next call l' hcommit =>
    obtain ⟨plan, root, hrow, _, hroot, rfl⟩ := startApply_ran (Tx.commit_ok.mp hcommit)
    refine ⟨hw.good, hw.issued, fun c hc => ?_, fun i j c d hc hd hroots hcs hds => ?_,
      fun c hc hs => ?_⟩
    · rcases List.mem_append.mp hc with hc | hc
      · exact hw.calls c hc
      · rw [List.mem_singleton] at hc
        subst hc
        have hid : plan.id = p := Table.key_of_get? hrow
        exact ⟨hid.symm ▸ skeleton_plan hrow, hroot, hr⟩
    · -- The new call does not hold its lock yet.
      have hold : ∀ (i : ℕ) (c : ApplyCall), (w.calls ++ [{ plan, owner, root, record, stage := .lock }])[i]? = some c →
          c.stage.HoldsLock → w.calls[i]? = some c := by
        intro i c hc hs
        rcases lt_or_ge i w.calls.length with hi | hi
        · rwa [List.getElem?_append_left hi] at hc
        · rw [List.getElem?_append_right hi, List.getElem?_singleton] at hc
          split_ifs at hc
          cases hc
          exact absurd hs id
      exact hw.exclusive i j c d (hold i c hc hcs) (hold j d hd hds) hroots hcs hds
    · rcases List.mem_append.mp hc with hc | hc
      · exact hw.inFlight c hc hs
      · rw [List.mem_singleton] at hc
        subst hc
        exact absurd hs.1 id
  · exact hw

/-- A call that only moves to another stage, with the ledger as it was. -/
theorem Consistent.restage {w : World} {n : ℕ} {call : ApplyCall} {s : Stage}
    (hw : Consistent env w) (hcall : w.calls[n]? = some call) (hs : ¬ s.HoldsLock) :
    Consistent env { w with calls := w.calls.set n { call with stage := s } } := by
  refine ⟨hw.good, hw.issued, fun c hc => ?_, fun i j c d hc hd hroots hcs hds => ?_,
    fun c hc hf => ?_⟩
  · rcases mem_set hc with hc | rfl
    · exact hw.calls c hc
    · have hof := hw.calls call (List.mem_of_getElem? hcall)
      exact ⟨hof.plan, hof.root, hof.record⟩
  · rcases getElem?_set_cases hcall hc with ⟨_, rfl⟩ | ⟨_, hc⟩
    · exact absurd hcs hs
    · rcases getElem?_set_cases hcall hd with ⟨_, rfl⟩ | ⟨_, hd⟩
      · exact absurd hds hs
      · exact hw.exclusive i j c d hc hd hroots hcs hds
  · rcases mem_set hc with hc | rfl
    · exact hw.inFlight c hc hf
    · exact absurd hf.1 hs

/-- What an apply step leaves of the plans in flight. -/
theorem apply_inFlight {w : World} {n i : ℕ} {call c : ApplyCall} {chance : Chance} {l' : Ledger}
    {t' : Workspace} {s : Stage} (hw : Consistent env w) (hcall : w.calls[n]? = some call)
    (h : applyStep env chance w.clock call w.ledger (w.tree call.root) = (l', t', s))
    (hc : (w.calls.set n { call with stage := s })[i]? = some c) (hs : c.stage.InFlight) :
    ∃ r, l'.plans.get? c.plan.id = some r ∧ r.status = .applying := by
  have hwrite : ApplyWrite env call _ _ _ _ :=
    applyStep_writes chance w.clock call w.ledger (w.tree call.root)
  rw [h] at hwrite
  dsimp only at hwrite
  -- The plan of the call itself, and of any other call, which is in another root.
  rcases getElem?_set_cases hcall hc with ⟨rfl, rfl⟩ | ⟨hi, hc⟩
  · rcases applyStep_inFlight h hs with hold | ⟨_, hadmit⟩
    · have hrow := hw.inFlight call (List.mem_of_getElem? hcall) hold
      cases hwrite with
      | none same => exact same ▸ hrow
      | admission stage => exact absurd stage hold.2
      | mark _ _ eq => exact eq ▸ hrow
      | finalize _ next =>
        rw [next] at hs
        exact absurd hs.1 id
      | uncertain _ next =>
        rw [next] at hs
        exact absurd hs.1 id
    · obtain ⟨⟨_, _, _, r, hr, _⟩, _, _, j, _, rfl⟩ := admitPlan_checks hadmit
      refine ⟨{ r with status := .applying }, ?_, rfl⟩
      rw [Ledger.updatePlan_get?, show w.ledger.plans.get? call.plan.id = some r from hr]
      rfl
  · have hrow := hw.inFlight c (List.mem_of_getElem? hc) hs
    have hne : call.stage.HoldsLock → c.plan.id ≠ call.plan.id := by
      intro hl hid
      have hroot := (hw.calls c (List.mem_of_getElem? hc)).same_root
        (hw.calls call (List.mem_of_getElem? hcall)) hid
      exact hi (hw.exclusive i n c call hc hcall hroot hs.1 hl)
    cases hwrite with
    | none same => exact same ▸ hrow
    | admission stage _ _ _ _ eq =>
      rw [eq, Ledger.updatePlan_get?_ne _ _ _ (hne (by rw [stage]; trivial))]
      exact hrow
    | mark _ _ eq => exact eq ▸ hrow
    | finalize stage _ _ eq =>
      simp only [eq, finalizePlan, applyDrafts, Ledger.appendEvent_plans]
      rw [Ledger.updatePlan_get?_ne _ _ _ (hne (by rw [stage]; trivial))]
      exact hrow
    | uncertain stage _ eq =>
      rw [eq, recordUncertain, Ledger.updatePlan_get?_ne _ _ _ (hne (by rw [stage]; trivial))]
      exact hrow

theorem Consistent.stepApply {w : World} {n : ℕ} {chance : Chance} (hw : Consistent env w) :
    Consistent env (stepCall env w n chance) := by
  rcases stepCall_cases env w n chance with h | ⟨call, hcall, ⟨_, _, h⟩ | ⟨hlock, l', t', s, hstep, _, h⟩⟩
  · rw [h]
    exact hw
  · rw [h]
    exact hw.restage hcall id
  · have hchain : Chain env True applyKinds w.ledger (stepCall env w n chance).ledger :=
      step_chain (a := .stepApply n chance) fun _ => hw.promise trivial
    rw [h] at hchain ⊢
    have hext := Extends.chain hchain
    refine ⟨hw.good.chain hchain, fun r hr => (hw.issued r hr).extends hext, fun c hc => ?_,
      fun i j c d hc hd hroots hcs hds => ?_, fun c hc hs => ?_⟩
    · rcases mem_set hc with hc | rfl
      · have hof := hw.calls c hc
        exact ⟨hext.plan _ _ hof.plan, hof.root, hof.record⟩
      · have hof := hw.calls call (List.mem_of_getElem? hcall)
        exact ⟨hext.plan _ _ hof.plan, hof.root, hof.record⟩
    · -- Only the call that steps can have taken a lock, and it found it free.
      have hfree : ∀ {m : ℕ} {e : ApplyCall}, w.calls[m]? = some e → e.root = call.root →
          e.stage.HoldsLock → s.HoldsLock → m = n := by
        intro m e he hroot hes hs
        rcases applyStep_lock hstep hs with hold | hold
        · exact hw.exclusive m n e call he hcall hroot hes hold
        · exact absurd ⟨hold, e, List.mem_of_getElem? he, hroot, hes⟩ hlock
      rcases getElem?_set_cases hcall hc with ⟨hi, rfl⟩ | ⟨_, hc'⟩
      · rcases getElem?_set_cases hcall hd with ⟨hj, rfl⟩ | ⟨_, hd'⟩
        · exact hi.trans hj.symm
        · exact hi.trans (hfree hd' hroots.symm hds hcs).symm
      · rcases getElem?_set_cases hcall hd with ⟨hj, rfl⟩ | ⟨_, hd'⟩
        · exact (hfree hc' hroots hcs hds).trans hj.symm
        · exact hw.exclusive i j c d hc' hd' hroots hcs hds
    · obtain ⟨i, hi⟩ := List.mem_iff_getElem?.mp hc
      exact apply_inFlight hw hcall hstep hi hs

theorem Consistent.step {w : World} {a : Action} (hw : Consistent env w) (ha : Legal w a) :
    Consistent env (step env w a) := by
  cases a with
  | command c => exact hw.command ha
  | tick => exact ⟨hw.good, hw.issued, hw.calls, hw.exclusive, hw.inFlight⟩
  | startApply reg p owner record =>
    refine hw.startApply fun r hr => ?_
    subst hr
    exact ha
  | stepApply => exact hw.stepApply
  | crashApply n =>
    simp only [System.step]
    split
    · exact hw
    · next call hcall => exact hw.restage hcall id
  | external => exact ⟨hw.good, hw.issued, hw.calls, hw.exclusive, hw.inFlight⟩

theorem Consistent.of_init {w : World} (h : Init w) : Consistent env w := by
  refine ⟨.of_imported h.ledger, ?_, ?_, ?_, ?_⟩ <;> simp [h.issued, h.calls]

theorem ReachableWorld.consistent {w : World} (h : ReachableWorld env w) : Consistent env w :=
  h.invariant (fun _ => .of_init) fun _ _ hw ha => hw.step ha

section Plain

/-- Every path is a directory of its own, no content is private, and a hash is what it is of. -/
def plainEnvironment : Environment where
  resolve := some
  sha256 := id
  encode s := s.toList.map fun c => UInt8.ofNat c.toNat
  decodable _ := true
  dumpChanges changes := changes.flatMap fun c => c.afterHash.getD []
  dumpEvidence evidence := evidence.flatMap fun e => e.sha256.getD []
  dumpScope d _ _ _ _ := [UInt8.ofNat d]
  redact := id
  privatePart _ := false
  contextAllowed _ := true
  sensitive _ := false

def plainRegistry : Registry := ⟨fun _ => true, fun _ => true, fun _ => ""⟩

/-- An empty ledger over empty directories. -/
def plainWorld : World where
  ledger := {}
  clock := 0
  tree _ := ⟨fun p => if p = [] then some .dir else none, rfl, fun p a h => by simp at h⟩

/-- A worker registers, a request is submitted to it, and the worker claims it. -/
def plainRun : List Action :=
  [.command (.registerWorker 1),
    .command (.submit plainRegistry { workspace := "/w" } "owner" 1 none none none 7 3),
    .command (.claim 1 4 9 0)]

theorem plainWorld_init : Init plainWorld where
  ledger := by constructor <;> simp [plainWorld]
  calls := rfl
  issued := rfl

def plainRunning : World := plainRun.foldl (step plainEnvironment) plainWorld

theorem plainRun_run : Run (step plainEnvironment) Legal plainWorld plainRun plainRunning := by
  refine .cons trivial (.cons ⟨by decide +kernel, ?_, ?_⟩ (.cons ?_ (.nil _)))
  · exact fun _ => rfl
  · exact fun _ => rfl
  · simp only [Legal, LegalCommand]
    decide +kernel

theorem plainRunning_reachable : ReachableWorld plainEnvironment plainRunning :=
  ⟨plainWorld, plainRun, plainWorld_init, plainRun_run⟩

def plainRecord : ClaimRecord := ⟨7, 1, 9, { workspace := "/w" }, "owner"⟩

/-- The claimed request proposes a creation. -/
def plainProposal : Action :=
  .command (.propose plainRegistry 7 "owner" "/w"
    [{ path := "a", action := .create, content := [120], reason := "new" }] [] "code" "" none 5)

theorem plainProposal_legal : Legal plainRunning plainProposal := by
  refine ⟨by decide +kernel, fun o ho => ?_⟩
  have hplain : (plainRunning.ledger.operations.get? 7).all
      (fun o => o.spec.kind = .request ∧ o.spec.draftId = none) = true := by decide +kernel
  rw [ho] at hplain
  simpa using hplain

def plainPlanned : World := step plainEnvironment plainRunning plainProposal

theorem plainPlanned_reachable : ReachableWorld plainEnvironment plainPlanned :=
  plainRunning_reachable.run (.cons plainProposal_legal (.nil _))

/-- The worker applies its own creation, up to the admission. -/
def plainApply : List Action :=
  [.startApply plainRegistry 5 "owner" (some ⟨7, 1, 9, { workspace := "/w" }, "owner"⟩),
    .stepApply 0 {}, .stepApply 0 {}]

def plainApplying : World := plainApply.foldl (step plainEnvironment) plainPlanned

theorem plainApply_run : Run (step plainEnvironment) Legal plainPlanned plainApply plainApplying := by
  refine .cons ?_ (.cons trivial (.cons trivial (.nil _)))
  simp only [Legal]
  decide +kernel

/-- The worker of the request is lost after its proposal; the owner resumes the request and
approves the plan. -/
def approvedRun : List Action :=
  [.tick 31000000, .command (.recover 31000000), .command (.heartbeat 1 false),
    .command (.registerWorker 2), .command (.resume plainRegistry 7 "owner" 1),
    .command (.approve plainRegistry 5 "owner" [120] 2 8 4)]

def plainApproved : World := approvedRun.foldl (step plainEnvironment) plainPlanned

theorem approvedRun_run :
    Run (step plainEnvironment) Legal plainPlanned approvedRun plainApproved := by
  refine .cons trivial (.cons ?_ (.cons trivial (.cons trivial (.cons trivial (.cons ?_ (.nil _))))))
  all_goals
    simp only [Legal, LegalCommand]
    decide +kernel

end Plain

end NyanyaAgent.System
