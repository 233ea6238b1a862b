import NyanyaAgent.Operations.StoredSpecs
import NyanyaAgent.Invariants.Claims
import NyanyaAgent.System.Invariant
import NyanyaAgent.Text.Dumps

/-!
# Specifications round-trip

A stored specification is read back as it was written, when its text is not longer than what
`loads` accepts, and then no scan of `claim` ends on it.
-/
namespace NyanyaAgent.Safety
open NyanyaAgent.Schema NyanyaAgent.Relational NyanyaAgent.Operations NyanyaAgent.Text
open NyanyaAgent.Lifecycle NyanyaAgent.Invariants NyanyaAgent.System NyanyaAgent.Runs
open NyanyaAgent.Conversation

variable {env : Environment} {py : PythonText} {names : SpecNames}

section Codes

theorem codes_inj {s t : String} : codes s = codes t ↔ s = t := by
  rw [codes, codes, List.map_inj_right (fun _ _ h => Char.toNat_inj.mp h), String.toList_inj]

theorem codes_beq (s t : String) : (codes s == codes t) = (s == t) := by
  rw [Bool.eq_iff_iff, beq_iff_eq, beq_iff_eq, codes_inj]

theorem encodedSize_toNat (c : Char) : encodedSize c.toNat = c.utf8Size := by
  simp only [encodedSize, Char.utf8Size, UInt32.le_iff_toNat_le]
  rfl

theorem isSurrogate_toNat (c : Char) : isSurrogate c.toNat = false := by
  have hvalid := c.valid
  simp only [UInt32.isValidChar, Nat.isValidChar] at hvalid
  simp only [isSurrogate, highSurrogate, lowSurrogate, Bool.or_eq_false_iff,
    Bool.and_eq_false_iff, decide_eq_false_iff_not]
  change (¬ 55296 ≤ c.val.toNat ∨ ¬ c.val.toNat ≤ 56319) ∧
    (¬ 56320 ≤ c.val.toNat ∨ ¬ c.val.toNat ≤ 57343)
  omega

theorem encodedLength_codes (s : String) : encodedLength (codes s) = .ok s.utf8ByteSize := by
  have hscalar : (codes s).any isSurrogate = false := by
    simp only [codes, List.any_map, List.any_eq_false, Function.comp_apply]
    exact fun c _ => by rw [isSurrogate_toNat]; exact Bool.false_ne_true
  have hsum : ((codes s).map encodedSize).sum = s.utf8ByteSize := by
    rw [codes, List.map_map, ← byteLength_toList, byteLength_eq_sum]
    exact congrArg List.sum (List.map_congr_left fun c _ => encodedSize_toNat c)
  rw [encodedLength, hscalar, hsum]
  rfl

end Codes

section Validation

/-- What `validate` accepts. -/
structure Accepts (py : PythonText) (o : SpecObject) : Prop where
  version : checkVersion o.version = .ok ()
  kind : checkKind o.kind = .ok ()
  profile : checkProfile o.profile = .ok ()
  prompt : checkPrompt o.prompt = .ok ()
  timeout : checkTimeout o.timeoutSeconds = .ok ()
  workspace : checkAbsolute o.workspace = .ok ()
  plan : checkPlan py o.kind o.planId = .ok ()
  draft : checkDraft py o.kind o.draftId = .ok ()

theorem validate_accepts {o : SpecObject} : o.validate py = .ok () ↔ Accepts py o := by
  simp only [SpecObject.validate, check_bind]
  constructor
  · rintro ⟨h₁, h₂, h₃, h₄, h₅, h₆, h₇, h₈⟩
    exact ⟨h₁, h₂, h₃, h₄, h₅, h₆, h₇, h₈⟩
  · rintro ⟨h₁, h₂, h₃, h₄, h₅, h₆, h₇, h₈⟩
    exact ⟨h₁, h₂, h₃, h₄, h₅, h₆, h₇, h₈⟩

theorem version_of_accepts {r : SpecRecord} (h : Accepts py r.object) : r.version = 1 := by
  have hversion := h.version
  simp only [SpecRecord.object] at hversion
  unfold checkVersion at hversion
  split at hversion
  · next heq => exact Json.int.inj heq
  · cases hversion

theorem timeout_of_accepts {r : SpecRecord} (h : Accepts py r.object) :
    1 ≤ r.timeoutSeconds ∧ r.timeoutSeconds ≤ 3600 := by
  have htimeout := h.timeout
  simp only [SpecRecord.object, checkTimeout] at htimeout
  split_ifs at htimeout with hrange
  exact hrange

end Validation

section RoundTrip

/-- The members of a stored text, in the order of their names. -/
def storedMembers (r : SpecRecord) : List Member :=
  [⟨codes "draft_id", writeText escapeCode r.draftId, .text r.draftId⟩,
   ⟨codes "kind", writeText escapeCode r.kind, .text r.kind⟩,
   ⟨codes "plan_id", writeText escapeCode r.planId, .text r.planId⟩,
   ⟨codes "profile", writeText escapeCode r.profile, .text r.profile⟩,
   ⟨codes "prompt", writeText escapeCode r.prompt, .text r.prompt⟩,
   ⟨codes "timeout_seconds", writeInt r.timeoutSeconds, .int r.timeoutSeconds⟩,
   ⟨codes "version", writeInt r.version, .int r.version⟩,
   ⟨codes "workspace", writeText escapeCode r.workspace, .text r.workspace⟩]

theorem length_writeDigits {n k : ℕ} (hk : 0 < k) (h : n < 10 ^ k) :
    (writeDigits n).length ≤ k := by
  rw [writeDigits, List.length_map]
  exact (Nat.length_toDigits_le_iff (by decide) hk).mpr h

theorem readJson_text {r : SpecRecord} (h : Accepts py r.object) :
    readJson r.text = some (.object ((storedMembers r).map fun f => (f.key, f.read))) := by
  have hescape : ∀ s : Codes, ∀ c ∈ s, Escapes escapeCode c := fun _ c _ => escapes_escapeCode c
  have hnumber : ∀ {n : ℤ}, 0 ≤ n → n ≤ 3600 → Reads (writeInt n) (.int n) := by
    intro n hn hle
    have hshort := length_writeDigits (show 0 < 4 by decide) (show n.natAbs < 10 ^ 4 by omega)
    exact reads_int hn (Nat.le_trans hshort (by decide))
  have hversion := version_of_accepts h
  have htimeout := timeout_of_accepts h
  have hobject : Reads r.text (.object ((storedMembers r).map fun f => (f.key, f.read))) := by
    refine @reads_object _ _ (storedMembers r) (by decide) (fun f _ => hescape f.key) ?_
    intro f hf
    simp only [storedMembers, List.mem_cons, List.not_mem_nil, or_false] at hf
    rcases hf with rfl | rfl | rfl | rfl | rfl | rfl | rfl | rfl
    · exact reads_text (hescape _)
    · exact reads_text (hescape _)
    · exact reads_text (hescape _)
    · exact reads_text (hescape _)
    · exact reads_text (hescape _)
    · exact hnumber (by omega) htimeout.2
    · exact hnumber (by omega) (by omega)
    · exact reads_text (hescape _)
  exact readJson_of_reads hobject

theorem construct_members (r : SpecRecord) :
    construct ((storedMembers r).map fun f => (f.key, f.read)) = .ok r.object := by
  simp [construct, storedMembers, specFields, member, codes_beq, SpecRecord.object]

/-- What `dumps` writes is read back when it is not too long. -/
theorem loads_text {r : SpecRecord} (h : Accepts py r.object) :
    loads py r.text =
      if maxSpecLength < r.text.length then .error (.safeOperation "Operation too large")
      else .ok r.object := by
  have hvalid := validate_accepts.mpr h
  simp only [loads, readJson_text h, construct_members]
  split_ifs
  · rfl
  · simp [bind, Except.bind, hvalid, pure, Except.pure]

/-- What `loads` accepts is the valid instance of the members it decoded. -/
theorem loads_ok {value : Codes} {o : SpecObject} (h : loads py value = .ok o) :
    value.length ≤ maxSpecLength ∧ Accepts py o ∧ ∃ members,
      readJson value = some (.object members) ∧ construct members = .ok o := by
  unfold loads at h
  split_ifs at h with hlength
  split at h
  · cases h
  · next members hread =>
    cases hmade : construct members with
    | error e =>
      rw [hmade] at h
      cases h
    | ok made =>
      rw [hmade] at h
      have hrest : (made.validate py >>= fun _ => pure made) = .ok o := h
      obtain ⟨hvalid, hsame⟩ := check_bind.mp hrest
      cases hsame
      exact ⟨Nat.le_of_not_lt hlength, validate_accepts.mp hvalid, members, hread, hmade⟩
  · cases h

end RoundTrip

section Stored

/-- Identifiers of plans are not empty, and those of drafts have the form `validate` checks. -/
structure Named (py : PythonText) (names : SpecNames) : Prop where
  plan : ∀ p, names.plan p ≠ []
  draft : ∀ d, isDraftName py (names.draft d) = true ∧ (names.draft d).length ≤ 80

theorem isText_codes (s t : String) : isText s (.text (codes t)) = (t == s) := codes_beq t s

theorem checkKind_kindText (kind : OperationKind) :
    checkKind (.text (codes (kindText kind))) = .ok () := by
  cases kind <;> simp [checkKind, isText_codes, kindText]

theorem checkProfile_profileText (profile : Profile) :
    checkProfile (.text (codes (profileText profile))) = .ok () := by
  cases profile <;> simp [checkProfile, profiles, isText_codes, profileText]

theorem head_of_startsWith {s : String} (h : s.startsWith "/" = true) :
    (codes s).head? = some 47 := by
  rw [String.startsWith_string_iff] at h
  obtain ⟨rest, hrest⟩ := h
  rw [codes, ← hrest]
  rfl

/-- What the typed checks accept is valid as the class holds it. -/
theorem accepts_specRecord {spec : OperationSpec} (hnames : Named py names)
    (h : validate spec = .ok ()) : Accepts py (specRecord names spec).object := by
  have hplan := planId_of_validate h
  unfold validate at h
  split_ifs at h with hversion hprompt htimeout hworkspace happly hdraft
  simp only [Decidable.not_not] at hversion htimeout
  constructor
  case version =>
    simp only [specRecord, SpecRecord.object, hversion]
    rfl
  case kind => exact checkKind_kindText spec.kind
  case profile => exact checkProfile_profileText spec.profile
  case prompt =>
    simp only [specRecord, SpecRecord.object, checkPrompt, encodedLength_codes, if_neg hprompt]
  case timeout => exact if_pos htimeout
  case workspace =>
    rw [Bool.not_eq_false] at hworkspace
    exact if_pos (head_of_startsWith hworkspace)
  case plan =>
    refine if_neg ?_
    rintro ⟨hkind, hempty⟩
    cases hk : spec.kind with
    | request =>
      simp [specRecord, SpecRecord.object, hk, kindText, isText_codes] at hkind
    | apply =>
      obtain ⟨p, hp⟩ := hplan hk
      have hname := hnames.plan p
      simp [specRecord, SpecRecord.object, hp, truthy, hname] at hempty
  case draft =>
    cases hd : spec.draftId with
    | none => simp [specRecord, SpecRecord.object, hd, checkDraft]
    | some d =>
      have hrequest : spec.kind = .request := by
        by_contra hk
        exact hdraft ⟨by rw [hd]; exact Option.some_ne_none d, hk⟩
      obtain ⟨hname, hlength⟩ := hnames.draft d
      simp [specRecord, SpecRecord.object, hd, checkDraft, hrequest, kindText, isText_codes, hname,
        Nat.not_lt.mpr hlength]

/-- Every stored specification is valid and is short enough to be read. -/
def Readable (names : SpecNames) (l : Ledger) : Prop :=
  ∀ k o, l.operations.get? k = some o →
    validate o.spec = .ok () ∧ (specJson names o.spec).length ≤ maxSpecLength

theorem storedSpec_ok {o : TaskOperation} (hnames : Named py names)
    (hvalid : validate o.spec = .ok ()) :
    storedSpec py names o = if maxSpecLength < (specJson names o.spec).length then
        .error (.safeOperation "Operation too large")
      else .ok (specRecord names o.spec).object :=
  loads_text (accepts_specRecord hnames hvalid)

theorem storedSpec_readable {l : Ledger} {k : TaskId} {o : TaskOperation}
    (hnames : Named py names) (h : Readable names l) (ho : l.operations.get? k = some o) :
    storedSpec py names o = .ok (specRecord names o.spec).object := by
  obtain ⟨hvalid, hlength⟩ := h k o ho
  rw [storedSpec_ok hnames hvalid, if_neg (Nat.not_lt.mpr hlength)]

end Stored

section Scan

variable {l : Ledger}

theorem mem_activeOperations {o : TaskOperation} (h : o ∈ activeOperations l) :
    l.operations.get? o.taskId = some o := by
  obtain ⟨c, _, hc⟩ := List.mem_filterMap.mp h
  split_ifs at hc
  rw [Table.key_of_get? hc]
  exact hc

/-- An operation conflicts with the specification. -/
def SharesWorkspace (spec : OperationSpec) (o : TaskOperation) : Prop :=
  o.spec.workspace = spec.workspace ∧ (spec.kind = .apply ∨ o.spec.kind = .apply)

instance (spec : OperationSpec) : DecidablePred (SharesWorkspace spec) := fun o => by
  unfold SharesWorkspace; infer_instance

theorem sameText_workspace (a b : OperationSpec) :
    sameText (specRecord names a).object.workspace (specRecord names b).object.workspace = true ↔
      a.workspace = b.workspace := by
  simp only [specRecord, SpecRecord.object, sameText, codes_beq, beq_iff_eq]

theorem isText_apply (spec : OperationSpec) :
    isText "apply" (specRecord names spec).object.kind = true ↔ spec.kind = .apply := by
  cases hk : spec.kind <;> simp [specRecord, SpecRecord.object, isText_codes, hk, kindText]

/-- The scan of the active rows tells whether one of them conflicts. -/
theorem busyStored_ok (hnames : Named py names) (h : Readable names l) (spec : OperationSpec)
    {active : List TaskOperation}
    (hactive : ∀ o ∈ active, l.operations.get? o.taskId = some o) :
    busyStored py names (specRecord names spec).object active =
      .ok (active.any fun o => SharesWorkspace spec o) := by
  induction active with
  | nil => rfl
  | cons o active ih =>
    have hread := storedSpec_readable hnames h (hactive o List.mem_cons_self)
    have hrest := ih fun p hp => hactive p (List.mem_cons_of_mem _ hp)
    rw [busyStored, hread, List.any_cons]
    simp only [bind, Except.bind, pure, Except.pure, sameText_workspace, isText_apply, hrest]
    by_cases hconflict : SharesWorkspace spec o
    · rw [decide_eq_true hconflict, Bool.true_or]
      exact if_pos hconflict
    · rw [decide_eq_false hconflict, Bool.false_or]
      exact if_neg hconflict

theorem workspaceBusy_iff (spec : OperationSpec) :
    WorkspaceBusy l spec ↔ (activeOperations l).any (fun o => SharesWorkspace spec o) = true := by
  simp only [List.any_eq_true, decide_eq_true_eq]
  constructor
  · rintro ⟨c, hc, hreleased, o, ho, htask, hconflict⟩
    refine ⟨o, List.mem_filterMap.mpr ⟨c, hc, ?_⟩, hconflict⟩
    rw [if_pos hreleased, ← htask]
    exact Table.mem_rows_iff.mp ho
  · rintro ⟨o, ho, hconflict⟩
    obtain ⟨c, hc, hrow⟩ := List.mem_filterMap.mp ho
    split_ifs at hrow with hreleased
    obtain ⟨hmem, htask⟩ := Table.get?_eq_some.mp hrow
    exact ⟨c, hc, hreleased, o, hmem, htask, hconflict⟩

/-- Where every stored text is readable, the scan finds the first row that may start. -/
theorem scanStored_ok (hnames : Named py names) (h : Readable names l)
    {rows : List (AgentTask × TaskOperation)}
    (hrows : ∀ r ∈ rows, ∃ k, l.operations.get? k = some r.2) :
    scanStored py names l rows = .ok (rows.find? fun r =>
      ¬ HasEarlierWork l r.1.id ∧ ¬ WorkspaceBusy l r.2.spec) := by
  induction rows with
  | nil => rfl
  | cons r rows ih =>
    obtain ⟨t, o⟩ := r
    obtain ⟨k, hk⟩ := hrows _ List.mem_cons_self
    have hrest := ih fun r hr => hrows r (List.mem_cons_of_mem _ hr)
    have hread := storedSpec_readable hnames h hk
    have hbusy := busyStored_ok hnames h o.spec fun o ho => mem_activeOperations ho
    by_cases hearlier : HasEarlierWork l t.id
    · rw [scanStored, if_pos hearlier, hrest, List.find?_cons_of_neg]
      simp [hearlier]
    · rw [scanStored, if_neg hearlier, hread]
      simp only [bind, Except.bind, pure, Except.pure, hbusy]
      by_cases hworkspace : WorkspaceBusy l o.spec
      · rw [if_pos ((workspaceBusy_iff o.spec).mp hworkspace), hrest, List.find?_cons_of_neg]
        simp [hworkspace]
      · rw [if_neg fun h => hworkspace ((workspaceBusy_iff o.spec).mpr h), List.find?_cons_of_pos]
        simp [hearlier, hworkspace]

theorem claimable_operation {generation : WorkerId} {r : AgentTask × TaskOperation}
    (h : r ∈ claimable l generation) : l.operations.get? r.1.id = some r.2 := by
  rw [claimable, List.mem_insertionSort] at h
  obtain ⟨t, _, ht⟩ := List.mem_filterMap.mp h
  split at ht
  · next o ho =>
    split_ifs at ht
    cases ht
    exact ho
  · cases ht

/-- Then `claim` over the stored texts is `claim` over the specifications. -/
theorem claimStored_ok (hnames : Named py names) (h : Readable names l) (generation : WorkerId)
    (slots : ℕ) (x : ExecutionId) (entry now : Time) :
    claimStored py names generation slots x entry now l =
      .ok (Tx.commit (claim generation slots x entry now) l) := by
  have hrows : ∀ r ∈ claimable l generation, ∃ k, l.operations.get? k = some r.2 :=
    fun r hr => ⟨_, claimable_operation hr⟩
  have hscan := scanStored_ok hnames h hrows
  by_cases hslots : slots ≤ activeClaims l
  · have hclaim : claim generation slots x entry now l = (.ok none, l) := by
      change (if slots ≤ activeClaims l then _ else _ : Op (Option ClaimRecord)) l = _
      rw [if_pos hslots]
      rfl
    rw [claimStored, if_pos hslots, Tx.commit, hclaim]
  · rw [claimStored, if_neg hslots, hscan]
    cases hfound : (claimable l generation).find? fun r =>
        ¬ HasEarlierWork l r.1.id ∧ ¬ WorkspaceBusy l r.2.spec with
    | none =>
      have hclaim : claim generation slots x entry now l = (.ok none, l) := by
        change (if slots ≤ activeClaims l then _ else _ : Op (Option ClaimRecord)) l = _
        rw [if_neg hslots]
        simp only [bind, Tx.select, hfound]
        rfl
      rw [Tx.commit, hclaim]
      rfl
    | some r =>
      have hclaim : claim generation slots x entry now l = (do
          startAttempt r.1 r.2.spec generation x entry now
          pure (some ⟨r.1.id, generation, x, r.2.spec, r.1.requestedBy⟩) :
            Op (Option ClaimRecord)) l := by
        change (if slots ≤ activeClaims l then _ else _ : Op (Option ClaimRecord)) l = _
        rw [if_neg hslots]
        simp only [bind, Tx.select, hfound]
      rw [Tx.commit, hclaim]
      rfl

end Scan

section Steps

variable {lawful : Prop} {κ : Kind} {l l' : Ledger}

/-- Every accepted specification is valid. -/
def ValidSpecs (l : Ledger) : Prop :=
  ∀ k spec parent, (skeleton l).operation k = some (spec, parent) → validate spec = .ok ()

theorem ValidSpecs.step (h : ValidSpecs l) (hstep : Step env lawful κ l l') : ValidSpecs l' := by
  by_cases hκ : κ = .enter
  · subst hκ
    cases hstep with
    | @enter _ k spec owner root generation source project parent now operations hE hins =>
      obtain ⟨-, hop, -⟩ := skeleton_enter env owner root source project now hins
      intro j spec' parent' hj
      rw [hop] at hj
      split_ifs at hj
      · cases hj
        exact hE.valid
      · exact h j spec' parent' hj
  · intro j spec parent hj
    rw [operation_step hstep hκ] at hj
    exact h j spec parent hj

theorem validSpecs_step (env : Environment) {w : World} (a : Action) (h : ValidSpecs w.ledger) :
    ValidSpecs (step env w a).ledger := by
  have hchain : Chain env False (actionKinds a) w.ledger (step env w a).ledger :=
    step_chain fun hf => hf.elim
  exact hchain.invariant (fun _ _ _ _ hv hs => hv.step hs) h

/-- What the step accepts is stored as a text that `loads` does not find too long. -/
def StoresShort (env : Environment) (names : SpecNames) (w : World) (a : Action) : Prop :=
  ∀ k o, w.ledger.operations.get? k = none →
    (step env w a).ledger.operations.get? k = some o →
    (specJson names o.spec).length ≤ maxSpecLength

theorem Readable.step {w : World} {a : Action} (h : Readable names w.ledger)
    (hfits : StoresShort env names w a) : Readable names (step env w a).ledger := by
  have hvalid : ValidSpecs w.ledger := by
    intro k spec parent hk
    obtain ⟨o, ho, rfl, _⟩ := of_skeleton_operation hk
    exact (h k o ho).1
  intro k o ho
  have hspec := validSpecs_step env a hvalid k o.spec o.parentTaskId (skeleton_operation ho)
  refine ⟨hspec, ?_⟩
  cases hold : w.ledger.operations.get? k with
  | none => exact hfits k o hold ho
  | some o₀ =>
    -- an operation that was there keeps its specification
    have hchain : Chain env False (actionKinds a) w.ledger (System.step env w a).ledger :=
      step_chain fun hf => hf.elim
    have hkept := (Extends.chain hchain).operation k _ (skeleton_operation hold)
    rw [skeleton_operation ho] at hkept
    obtain ⟨hsame, _⟩ := Prod.mk.inj (Option.some.inj hkept)
    rw [hsame]
    exact (h k o₀ hold).2

end Steps

/-- A valid specification is read back exactly when its text is not too long, what is read is
valid, and where every accepted specification fits, no claim ends on a stored one. -/
theorem spec_round_trip (env : Environment) (hnames : Named py names) :
    (∀ r : SpecRecord, r.object.validate py = .ok () →
      r.dumps py = .ok r.text ∧
        (loads py r.text = .ok r.object ↔ r.text.length ≤ maxSpecLength)) ∧
    (∀ value o, loads py value = .ok o → o.validate py = .ok () ∧ ∃ members,
      readJson value = some (.object members) ∧
        (∀ m ∈ members, ∃ f ∈ specFields, m.1 = codes f) ∧ construct members = .ok o) ∧
    ∀ w₀ as w, Readable names w₀.ledger → Run (step env) (StoresShort env names) w₀ as w →
      (∀ k o, w.ledger.operations.get? k = some o →
        storedSpec py names o = .ok (specRecord names o.spec).object) ∧
      (∀ generation, ∀ r ∈ claimable w.ledger generation, ¬ HasEarlierWork w.ledger r.1.id →
        ¬ WorkspaceBusy w.ledger r.2.spec →
          ∃ r', scanStored py names w.ledger (claimable w.ledger generation) = .ok (some r')) ∧
      ∀ generation slots x entry now,
        claimStored py names generation slots x entry now w.ledger =
          .ok (Tx.commit (claim generation slots x entry now) w.ledger) := by
  refine ⟨fun r hvalid => ?_, fun value o h => ?_, fun w₀ as w hstart hrun => ?_⟩
  · have hread := loads_text (validate_accepts.mp hvalid)
    constructor
    · simp [SpecRecord.dumps, bind, Except.bind, hvalid, pure, Except.pure]
    · rw [hread]
      constructor
      · intro h
        split_ifs at h with hlength
        exact Nat.le_of_not_lt hlength
      · exact fun hlength => if_neg (Nat.not_lt.mpr hlength)
  · obtain ⟨_, haccepts, members, hread, hmade⟩ := loads_ok h
    refine ⟨validate_accepts.mpr haccepts, members, hread, fun m hm => ?_, hmade⟩
    unfold construct at hmade
    split_ifs at hmade with hknown
    have hfield := List.all_eq_true.mp hknown m hm
    obtain ⟨f, hf, hname⟩ := List.any_eq_true.mp hfield
    exact ⟨f, hf, beq_iff_eq.mp hname⟩
  · have hreadable : Readable names w.ledger :=
      hrun.invariant (I := fun w => Readable names w.ledger)
        (fun _ _ h hfits => h.step hfits) hstart
    refine ⟨fun k o ho => storedSpec_readable hnames hreadable ho, ?_, fun generation slots x entry
      now => claimStored_ok hnames hreadable generation slots x entry now⟩
    intro generation r hr hearlier hbusy
    rw [scanStored_ok hnames hreadable fun r hr => ⟨_, claimable_operation hr⟩]
    cases hfound : (claimable w.ledger generation).find? fun r =>
        ¬ HasEarlierWork w.ledger r.1.id ∧ ¬ WorkspaceBusy w.ledger r.2.spec with
    | none =>
      have hnone := List.find?_eq_none.mp hfound r hr
      simp only [decide_eq_true_eq, not_and, Decidable.not_not] at hnone
      exact absurd (hnone hearlier) hbusy
    | some r' => exact ⟨r', rfl⟩

section Plain

def plainPython : PythonText := ⟨fun _ => true, fun _ => false⟩

def plainSpecNames : SpecNames := ⟨fun _ => codes "plan_1", fun _ => codes "draft_1"⟩

theorem plainDraft : isDraftName plainPython (codes "draft_1") = true ∧
    (codes "draft_1").length ≤ 80 := by decide

def readRun : List Action :=
  [.command (.registerWorker 1),
    .command (.submit plainRegistry { workspace := "/w" } "owner" 1 none none none 7 3)]

/-- One request is stored, and a claim reads it. -/
theorem spec_round_trip_plain :
    claimStored plainPython plainSpecNames 1 2 9 0 1
        (readRun.foldl (step plainEnvironment) plainWorld).ledger =
      .ok (Tx.commit (claim 1 2 9 0 1)
        (readRun.foldl (step plainEnvironment) plainWorld).ledger) := by
  have hnames : Named plainPython plainSpecNames :=
    ⟨fun _ => List.cons_ne_nil _ _, fun _ => plainDraft⟩
  have hfits : ∀ w a, (((step plainEnvironment w a).ledger.operations.rows.all fun o =>
      (specJson plainSpecNames o.spec).length ≤ maxSpecLength) = true) →
      StoresShort plainEnvironment plainSpecNames w a := by
    intro w a hall k o _ ho
    have hrow := List.all_eq_true.mp hall o (Table.get?_eq_some.mp ho).1
    exact of_decide_eq_true hrow
  have hlengths :
      (((readRun.take 1).foldl (step plainEnvironment) plainWorld).ledger.operations.rows.all
        fun o => (specJson plainSpecNames o.spec).length ≤ maxSpecLength) = true ∧
      ((readRun.foldl (step plainEnvironment) plainWorld).ledger.operations.rows.all
        fun o => (specJson plainSpecNames o.spec).length ≤ maxSpecLength) = true := by
    decide +kernel
  have hstart : Readable plainSpecNames plainWorld.ledger := fun _ _ ho => by cases ho
  exact ((spec_round_trip plainEnvironment hnames).2.2 plainWorld readRun _ hstart
    (.cons (hfits _ _ hlengths.1) (.cons (hfits _ _ hlengths.2) (.nil _)))).2.2 1 2 9 0 1

/-- Two requests of one worker, the first with a plan identifier. -/
def stallRun : List Action :=
  [.command (.registerWorker 1),
    .command (.submit plainRegistry { workspace := "/w", planId := some 5 } "owner" 1 none none none
      7 3),
    .command (.submit plainRegistry { workspace := "/w" } "owner" 1 none none none 8 4)]

def stalledWorld : World := stallRun.foldl (step plainEnvironment) plainWorld

/-- An identifier that `validate` accepts and whose text `loads` refuses. -/
def longNames : SpecNames :=
  ⟨fun _ => List.replicate (maxSpecLength + 1) 120, fun _ => codes "draft_1"⟩

theorem longNames_named : Named plainPython longNames := by
  refine ⟨fun _ => ?_, fun _ => plainDraft⟩
  rw [longNames, List.replicate_succ]
  exact List.cons_ne_nil _ _

theorem stalledWorld_rows :
    (claimable stalledWorld.ledger 1).map (fun r => (r.1.id, r.2.spec)) =
        [(7, { workspace := "/w", planId := some 5 }), (8, { workspace := "/w" })] ∧
      ((claimable stalledWorld.ledger 1).all fun r =>
        (¬ HasEarlierWork stalledWorld.ledger r.1.id ∧
          ¬ WorkspaceBusy stalledWorld.ledger r.2.spec) ∧
            (validate r.2.spec).toOption = some ()) = true ∧
      activeClaims stalledWorld.ledger = 0 := by
  decide +kernel

theorem length_planId (r : SpecRecord) : r.planId.length < r.text.length := by
  have hplan := length_le_flatMap (s := r.planId) fun c _ => escapes_escapeCode c
  simp only [SpecRecord.text, writeObject, writeMembers, writeText, List.length_cons,
    List.length_append]
  omega

theorem storedSpec_long {o : TaskOperation} {p : PlanId} (hvalid : validate o.spec = .ok ())
    (hplan : o.spec.planId = some p) : storedSpec plainPython longNames o =
      .error (.safeOperation "Operation too large") := by
  have hlength := length_planId (specRecord longNames o.spec)
  have hlong : (specRecord longNames o.spec).planId.length = maxSpecLength + 1 := by
    rw [specRecord, hplan]
    exact List.length_replicate
  rw [storedSpec_ok longNames_named hvalid, if_pos]
  rw [hlong] at hlength
  exact Nat.lt_trans (Nat.lt_succ_self _) hlength

theorem validate_of_toOption {spec : OperationSpec} (h : (validate spec).toOption = some ()) :
    validate spec = .ok () := by
  cases hvalid : validate spec with
  | error e =>
    rw [hvalid] at h
    cases h
  | ok => rfl

/-- The worker has a free slot and a request it could take, and every claim ends on the row in
front of it. -/
theorem spec_stalls_queue : ∃ as w, Run (step plainEnvironment) (fun _ _ => True) plainWorld as w ∧
    Named plainPython longNames ∧ activeClaims w.ledger = 0 ∧
    (∃ r ∈ claimable w.ledger 1, storedSpec plainPython longNames r.2 =
      .ok (specRecord longNames r.2.spec).object ∧ ¬ HasEarlierWork w.ledger r.1.id ∧
        ¬ WorkspaceBusy w.ledger r.2.spec) ∧
    ∀ slots x entry now, 0 < slots → claimStored plainPython longNames 1 slots x entry now w.ledger =
      .error (.safeOperation "Operation too large") := by
  obtain ⟨hrows, hfree, hactive⟩ := stalledWorld_rows
  refine ⟨stallRun, stalledWorld, .of_total (fun _ _ => trivial) _ _, longNames_named, hactive, ?_,
    ?_⟩
  all_goals
    rcases hclaimable : claimable stalledWorld.ledger 1 with _ | ⟨r, _ | ⟨s, rest⟩⟩
    · rw [hclaimable] at hrows
      cases hrows
    · rw [hclaimable] at hrows
      simp at hrows
    rw [hclaimable] at hrows hfree
    simp only [List.map_cons, List.cons.injEq, Prod.mk.injEq] at hrows
    simp only [List.all_cons, Bool.and_eq_true, decide_eq_true_eq] at hfree
    obtain ⟨⟨_, hfirst⟩, ⟨_, hsecond⟩, _⟩ := hrows
    obtain ⟨⟨⟨hearlier, _⟩, hvalid⟩, ⟨hopen, hvalid'⟩, _⟩ := hfree
  · refine ⟨s, List.mem_cons_of_mem _ List.mem_cons_self, ?_, hopen⟩
    have hshort : ¬ maxSpecLength < (specJson longNames { workspace := "/w" }).length := by
      decide +kernel
    rw [storedSpec_ok longNames_named (validate_of_toOption hvalid'), if_neg]
    rw [hsecond]
    exact hshort
  · intro slots x entry now hslots
    have hlong := storedSpec_long (p := 5) (validate_of_toOption hvalid) (by rw [hfirst])
    rw [claimStored, if_neg (by rw [hactive]; omega), hclaimable]
    simp only [scanStored, if_neg hearlier, hlong, bind, Except.bind]

end Plain

end NyanyaAgent.Safety
