import NyanyaAgent.Wiki.Reviews
import NyanyaAgent.Safety.ContextIsolation
import NyanyaAgent.Safety.WorkMemory

/-!
# Wiki revisions and reviews

Over every interleaving of captures, reviews, forgets and resets: the revisions of a topic
grow in the order of insertion, one entry of a topic is approved at most, and what a review
settled is not opened again.
-/
namespace NyanyaAgent.Safety
open NyanyaAgent.Schema NyanyaAgent.Relational NyanyaAgent.Operations NyanyaAgent.Conversation
open NyanyaAgent.Memory NyanyaAgent.System NyanyaAgent.Wiki

variable {env : Environment} {reg : Registry} {text : WikiText} {l l' : Ledger}
  {s s' : WikiStore} {w w' v : WikiEntry} {status : WikiStatus} {now : Time} {boundary : ℕ}
  {p : WikiEntry → Prop} [DecidablePred p]

/-- An approved entry that is not older than its session's memory reset. -/
def InForce (l : Ledger) (w : WikiEntry) : Prop :=
  w.status = .approved ∧
    ∃ session, l.sessions.get? w.sessionId = some session ∧
      session.memoryResetGeneration ≤ w.generation

/-- The rest of the program: it deletes no session and moves no memory reset back. -/
def Elsewhere (l l' : Ledger) : Prop :=
  (∀ s ∈ l.sessions.rows, ∃ s' ∈ l'.sessions.rows, s'.id = s.id ∧
    s.memoryResetGeneration ≤ s'.memoryResetGeneration) ∧
    ∀ s' ∈ l'.sessions.rows, s'.memoryResetGeneration ≤ s'.generation

instance : Decidable (Elsewhere l l') := by unfold Elsewhere; infer_instance

/-- One committed transaction, of the wiki or of the rest of the program. -/
inductive WikiAction
  | capture (rules : MemoryRules) (record : ClaimRecord) (reply : Reply) (now : Time)
      (fresh : ℕ → WikiId)
  | review (owner workspace : String) (session : SessionId) (entry : WikiId)
      (status : WikiStatus) (version : ℤ) (project : Option ProjectId) (now : Time)
  | forget (owner workspace : String) (x : ExecutionId) (project : Option ProjectId) (now : Time)
  | reset (owner key root : String) (fresh : SessionId) (now : Time)
  | elsewhere (after : WikiStore)

variable (env reg text) in
def WikiAction.run (s : WikiStore) : WikiAction → WikiStore
  | .capture rules record reply now fresh =>
    { s with ledger := (Tx.commit (captureConn rules record reply now fresh) s.ledger).2 }
  | .review owner workspace session entry status version project now =>
    (Tx.commit (reviewEntry text env reg owner workspace session entry status version project now) s).2
  | .forget owner workspace x project now =>
    (Tx.commit (forgetRecord text env reg owner workspace x project now) s).2
  | .reset owner key root fresh now =>
    { s with ledger := (Tx.commit (resetConn env owner key root fresh now) s.ledger).2 }
  | .elsewhere after =>
    if Elsewhere s.ledger after.ledger then
      { after with ledger := { after.ledger with wikiEntries := s.ledger.wikiEntries } }
    else s

variable (env reg text) in
/-- The entry a review settles, with the version it was based on. -/
def WikiAction.effect (s : WikiStore) : WikiAction → List (WikiId × ℤ)
  | .review owner workspace session entry status version project now =>
    match (Tx.commit (reviewEntry text env reg owner workspace session entry status version project
      now) s).1 with
    | .ok _ => [(entry, version)]
    | .error _ => []
  | _ => []

variable (env reg text) in
def afterAll (s : WikiStore) : List WikiAction → WikiStore
  | [] => s
  | a :: as => afterAll (a.run env reg text s) as

variable (env reg text) in
/-- The reviews of a run that took effect. -/
def effects (s : WikiStore) : List WikiAction → List (WikiId × ℤ)
  | [] => []
  | a :: as => a.effect env reg text s ++ effects (a.run env reg text s) as

/-- How an entry may change: under a greater version, and never open again once it is not. -/
structure Grown (w w' : WikiEntry) : Prop where
  id : w'.id = w.id
  topic : SameTopic w w'
  place : w'.revision = w.revision ∧ w'.generation = w.generation ∧
    w'.sourceExecutionId = w.sourceExecutionId
  version : w.reviewVersion ≤ w'.reviewVersion
  moved : w'.status ≠ w.status ∨ w'.title ≠ w.title ∨ w'.content ≠ w.content →
    w.reviewVersion < w'.reviewVersion
  settled : ¬ Reviewable w.status → ¬ Reviewable w'.status

theorem Grown.refl (w : WikiEntry) : Grown w w where
  id := rfl
  topic := ⟨rfl, rfl, rfl, rfl, rfl⟩
  place := ⟨rfl, rfl, rfl⟩
  version := Nat.le_refl _
  moved h := by simp at h
  settled h := h

theorem Grown.trans (h : Grown w v) (h' : Grown v w') : Grown w w' where
  id := h'.id.trans h.id
  topic := h.topic.trans h'.topic
  place := ⟨h'.place.1.trans h.place.1, h'.place.2.1.trans h.place.2.1,
    h'.place.2.2.trans h.place.2.2⟩
  version := h.version.trans h'.version
  moved hmoved := by
    by_cases hfirst : v.status = w.status ∧ v.title = w.title ∧ v.content = w.content
    · rw [← hfirst.1, ← hfirst.2.1, ← hfirst.2.2] at hmoved
      exact h.version.trans_lt (h'.moved hmoved)
    · refine (h.moved ?_).trans_le h'.version
      by_contra hsame
      push Not at hsame
      exact hfirst hsame
  settled hclosed := h'.settled (h.settled hclosed)

theorem settle_grown (h : Reviewable status → Reviewable w.status) :
    Grown w (settle status now w) := by
  unfold settle
  split_ifs with hforgotten
  · exact ⟨rfl, ⟨rfl, rfl, rfl, rfl, rfl⟩, ⟨rfl, rfl, rfl⟩, Nat.le_succ _, fun _ => Nat.lt_succ_self _,
      fun _ hopen => by rcases hopen with hopen | hopen <;> cases hopen⟩
  · exact ⟨rfl, ⟨rfl, rfl, rfl, rfl, rfl⟩, ⟨rfl, rfl, rfl⟩, Nat.le_succ _, fun _ => Nat.lt_succ_self _,
      fun hclosed hopen => hclosed (h hopen)⟩

@[simp] theorem settle_status : (settle status now w).status = status := by
  unfold settle
  split_ifs with hforgotten
  · exact hforgotten.symm
  · rfl

@[simp] theorem settle_id : (settle status now w).id = w.id := by unfold settle; split <;> rfl

/-- Every entry is still there, and has only grown. -/
def Persists (l l' : Ledger) : Prop :=
  ∀ k w, l.wikiEntries.get? k = some w → ∃ w', l'.wikiEntries.get? k = some w' ∧ Grown w w'

theorem Persists.of_eq (h : l'.wikiEntries = l.wikiEntries) : Persists l l' :=
  fun _ w hw => ⟨w, by rw [h, hw], .refl w⟩

theorem Persists.trans {l₁ l₂ l₃ : Ledger} (h : Persists l₁ l₂) (h' : Persists l₂ l₃) :
    Persists l₁ l₃ := by
  intro k w hw
  obtain ⟨v, hv, hgrown⟩ := h k w hw
  obtain ⟨w', hw', hgrown'⟩ := h' k v hv
  exact ⟨w', hw', hgrown.trans hgrown'⟩

theorem updateEntries_get? (s : WikiStore) (k : WikiId) :
    (updateEntries s p status now).ledger.wikiEntries.get? k =
      (s.ledger.wikiEntries.get? k).map fun v => if p v then settle status now v else v :=
  Table.get?_update _ _ _ (fun _ => settle_id) _

theorem updateEntries_persists
    (h : ∀ v ∈ s.ledger.wikiEntries.rows, p v → Reviewable status → Reviewable v.status) :
    Persists s.ledger (updateEntries s p status now).ledger := by
  intro k w hw
  refine ⟨_, by rw [updateEntries_get?, hw, Option.map_some], ?_⟩
  split_ifs with hp
  · exact settle_grown (h w (Table.get?_eq_some.mp hw).1 hp)
  · exact .refl w

/-- What holds of the entries in every reachable store. -/
structure WikiInvariant (l : Ledger) : Prop where
  revisions : l.wikiEntries.rows.Pairwise fun a b => SameTopic a b → a.revision < b.revision
  one : ∀ a ∈ l.wikiEntries.rows, ∀ b ∈ l.wikiEntries.rows, SameTopic a b →
    InForce l a → InForce l b → a.id = b.id
  session : ∀ a ∈ l.wikiEntries.rows, ∃ s, l.sessions.get? a.sessionId = some s
  reset : ∀ k s, l.sessions.get? k = some s → s.memoryResetGeneration ≤ s.generation

/-- The table after an update, row by row: each row has grown out of the one in its place. -/
theorem WikiInvariant.grown {f : WikiEntry → WikiEntry} (h : WikiInvariant l)
    (hrows : l'.wikiEntries.rows = l.wikiEntries.rows.map f) (hsessions : l'.sessions = l.sessions)
    (hf : ∀ w ∈ l.wikiEntries.rows, Grown w (f w))
    (hone : ∀ a ∈ l.wikiEntries.rows, ∀ b ∈ l.wikiEntries.rows, SameTopic a b →
      InForce l (f a) → InForce l (f b) → a.id = b.id) : WikiInvariant l' where
  revisions := by
    rw [hrows, List.pairwise_map]
    refine h.revisions.imp_of_mem ?_
    intro a b ha hb hless htopic
    rw [(hf a ha).place.1, (hf b hb).place.1]
    exact hless (((hf a ha).topic.trans htopic).trans (hf b hb).topic.symm)
  one := by
    intro a ha b hb htopic hina hinb
    rw [hrows, List.mem_map] at ha hb
    obtain ⟨a₀, ha, rfl⟩ := ha
    obtain ⟨b₀, hb, rfl⟩ := hb
    unfold InForce at hina hinb
    rw [hsessions] at hina hinb
    rw [(hf a₀ ha).id, (hf b₀ hb).id]
    exact hone a₀ ha b₀ hb (((hf a₀ ha).topic.trans htopic).trans (hf b₀ hb).topic.symm) hina hinb
  session := by
    intro a ha
    rw [hrows, List.mem_map] at ha
    obtain ⟨a₀, ha, rfl⟩ := ha
    rw [hsessions, ← (hf a₀ ha).topic.2.2.2.1]
    exact h.session a₀ ha
  reset := by
    rw [hsessions]
    exact h.reset

theorem WikiInvariant.update (h : WikiInvariant s.ledger) (happroved : status ≠ .approved)
    (hopen : ∀ v ∈ s.ledger.wikiEntries.rows, p v → Reviewable status → Reviewable v.status) :
    WikiInvariant (updateEntries s p status now).ledger := by
  refine h.grown (f := fun v => if p v then settle status now v else v) rfl rfl ?_ ?_
  · intro v hv
    split_ifs with hp
    · exact settle_grown (hopen v hv hp)
    · exact .refl v
  · intro a ha b hb htopic hina hinb
    have hkept : ∀ v, InForce s.ledger (if p v then settle status now v else v) →
        InForce s.ledger v := by
      intro v hv
      split_ifs at hv with hp
      · exact absurd (settle_status.symm.trans hv.1) happroved
      · exact hv
    exact h.one a ha b hb htopic (hkept a hina) (hkept b hinb)

/-- After an approval gave way to nothing else of the topic. -/
theorem supersede_not_inForce {session : ConversationSession}
    (hsession : s.ledger.sessions.get? w.sessionId = some session)
    (hv : v ∈ (supersede w session.memoryResetGeneration now s).ledger.wikiEntries.rows)
    (htopic : SameTopic v w) (hid : v.id ≠ w.id) :
    ¬ InForce (supersede w session.memoryResetGeneration now s).ledger v := by
  rintro ⟨happroved, bound, hbound, hlive⟩
  replace hbound : s.ledger.sessions.get? v.sessionId = some bound := hbound
  obtain ⟨v₀, _, rfl⟩ := List.mem_map.mp hv
  split_ifs at happroved htopic hid hbound hlive with hp
  · rw [settle_status] at happroved
    cases happroved
  · rw [htopic.2.2.2.1, hsession] at hbound
    obtain rfl := Option.some.inj hbound
    exact hp ⟨htopic, hid, .inr happroved, hlive⟩

variable (now boundary) in
theorem supersede_get?_self (hw : s.ledger.wikiEntries.get? w.id = some w) :
    (supersede w boundary now s).ledger.wikiEntries.get? w.id = some w := by
  unfold supersede
  rw [updateEntries_get?, hw, Option.map_some, if_neg fun h => h.2.1 rfl]

/-- Two rows under one key are one row. -/
theorem eq_of_id {t : Table WikiEntry.id} {a b : WikiEntry} (ha : a ∈ t.rows)
    (hb : t.get? a.id = some b) : a = b :=
  Option.some.inj ((Table.mem_rows_iff.mp ha).symm.trans hb)

variable (text) in
/-- A review of an open entry whose boundary is its session's. -/
theorem reviewed_kept {session : ConversationSession} (h : WikiInvariant s.ledger)
    (hw : s.ledger.wikiEntries.get? w.id = some w) (hopen : Reviewable w.status)
    (hsession : s.ledger.sessions.get? w.sessionId = some session) :
    WikiInvariant (reviewed text w session.memoryResetGeneration status now s).ledger ∧
      Persists s.ledger (reviewed text w session.memoryResetGeneration status now s).ledger := by
  by_cases happroved : status = .approved
  · subst happroved
    have hfirst : WikiInvariant (supersede w session.memoryResetGeneration now s).ledger :=
      h.update (by decide) fun v _ hp _ => hp.2.2.1
    have hself := supersede_get?_self now session.memoryResetGeneration hw
    have hpast : Persists s.ledger (supersede w session.memoryResetGeneration now s).ledger :=
      updateEntries_persists fun v _ hp _ => hp.2.2.1
    have hopens : ∀ v ∈ (supersede w session.memoryResetGeneration now s).ledger.wikiEntries.rows,
        v.id = w.id → Reviewable .approved → Reviewable v.status := by
      intro v hv hid _
      rw [eq_of_id hv (hid ▸ hself)]
      exact hopen
    refine ⟨hfirst.grown (f := fun v => if v.id = w.id then settle .approved now v else v) rfl rfl
      ?_ ?_, hpast.trans (updateEntries_persists hopens)⟩
    · intro v hv
      split_ifs with hp
      · exact settle_grown (hopens v hv hp)
      · exact .refl v
    · intro a ha b hb htopic hina hinb
      by_cases hida : a.id = w.id <;> by_cases hidb : b.id = w.id
      · exact hida.trans hidb.symm
      · rw [if_neg hidb] at hinb
        rw [eq_of_id ha (hida ▸ hself)] at htopic
        exact absurd hinb (supersede_not_inForce hsession hb htopic.symm hidb)
      · rw [if_neg hida] at hina
        rw [eq_of_id hb (hidb ▸ hself)] at htopic
        exact absurd hina (supersede_not_inForce hsession ha htopic hida)
      · rw [if_neg hida] at hina
        rw [if_neg hidb] at hinb
        exact hfirst.one a ha b hb htopic hina hinb
  · have hclosed : ∀ v ∈ s.ledger.wikiEntries.rows, v.id = w.id → Reviewable status →
        Reviewable v.status := by
      intro v hv hid _
      rw [eq_of_id hv (hid ▸ hw)]
      exact hopen
    unfold reviewed
    rw [if_neg happroved]
    dsimp only
    split_ifs with hforgotten
    · subst hforgotten
      have hno : ∀ {q : Prop}, Reviewable .forgotten → q := by
        rintro q (hopen | hopen) <;> cases hopen
      have hfirst : WikiInvariant (forgetSource text w.sourceExecutionId (fun v => v.id ≠ w.id) now
          s).ledger := WikiInvariant.update ⟨h.revisions, h.one, h.session, h.reset⟩ (by decide)
            fun v _ _ => hno
      have hpast : Persists s.ledger (forgetSource text w.sourceExecutionId (fun v => v.id ≠ w.id) now
          s).ledger := (Persists.of_eq rfl).trans (updateEntries_persists fun v _ _ => hno)
      exact ⟨hfirst.update (by decide) fun v _ _ => hno,
        hpast.trans (updateEntries_persists fun v _ _ => hno)⟩
    · exact ⟨h.update happroved hclosed, updateEntries_persists hclosed⟩

theorem le_foldl_max (xs : List ℕ) (n : ℕ) : n ≤ xs.foldl max n ∧ ∀ x ∈ xs, x ≤ xs.foldl max n := by
  induction xs generalizing n with
  | nil => exact ⟨Nat.le_refl _, fun _ h => absurd h List.not_mem_nil⟩
  | cons y xs ih =>
    obtain ⟨hstart, hrest⟩ := ih (max n y)
    rw [List.foldl_cons]
    refine ⟨(Nat.le_max_left n y).trans hstart, fun x hx => ?_⟩
    rcases List.mem_cons.mp hx with rfl | hx
    · exact (Nat.le_max_right n x).trans hstart
    · exact hrest x hx

/-- A captured note is added behind the entries of its topic. -/
theorem insert_kept {t : Table WikiEntry.id} (h : WikiInvariant l)
    (hinsert : l.wikiEntries.insert w = some t) (hpending : w.status = .pending)
    (hsession : ∃ session, l.sessions.get? w.sessionId = some session)
    (hlast : ∀ v ∈ l.wikiEntries.rows, SameTopic v w → v.revision < w.revision) :
    WikiInvariant { l with wikiEntries := t } := by
  have hrows := Table.rows_insert hinsert
  have hold : ∀ v ∈ t.rows, InForce l v → v ∈ l.wikiEntries.rows := by
    intro v hv hforce
    rw [hrows, List.mem_append, List.mem_singleton] at hv
    rcases hv with hv | rfl
    · exact hv
    · rw [hforce.1] at hpending
      cases hpending
  refine ⟨?_, ?_, ?_, h.reset⟩
  · dsimp only
    rw [hrows, List.pairwise_append]
    refine ⟨h.revisions, List.pairwise_singleton _ _, ?_⟩
    intro a ha b hb htopic
    rw [List.mem_singleton] at hb
    subst hb
    exact hlast a ha htopic
  · intro a ha b hb htopic hina hinb
    exact h.one a (hold a ha hina) b (hold b hb hinb) htopic hina hinb
  · intro a ha
    dsimp only at ha ⊢
    rw [hrows, List.mem_append, List.mem_singleton] at ha
    rcases ha with ha | rfl
    · exact h.session a ha
    · exact hsession

theorem captureNote_kept {m : WorkRecord} {turn : ConversationTurn} {session : ConversationSession}
    {note : WikiNote} {fresh : WikiId} {u : Unit} (h : WikiInvariant l)
    (hsession : ∃ live, l.sessions.get? turn.sessionId = some live)
    (hran : Tx.Ran (captureNote m turn session now note fresh) l u l') :
    WikiInvariant l' ∧ Persists l l' ∧ l'.sessions = l.sessions := by
  unfold captureNote insertWiki at hran
  simp only [Tx.ran_select_bind, Tx.ran_ite, Tx.ran_pure, Tx.ran_attempt,
    Option.map_eq_some_iff] at hran
  rcases hran with ⟨_, _, rfl⟩ | ⟨_, t, hinsert, rfl⟩
  · exact ⟨h, .of_eq rfl, rfl⟩
  · refine ⟨insert_kept h hinsert rfl hsession ?_, ?_, rfl⟩
    · intro v hv htopic
      apply Nat.lt_succ_of_le
      refine (le_foldl_max _ 0).2 _ (List.mem_map.mpr ⟨v, List.mem_filter.mpr ⟨hv, ?_⟩, rfl⟩)
      rw [decide_eq_true_eq]
      exact htopic
    · intro k w hw
      exact ⟨w, Table.get?_insert_of_some hinsert hw, .refl w⟩

theorem captureNotes_kept {m : WorkRecord} {turn : ConversationTurn} {session : ConversationSession}
    {fresh : ℕ → WikiId} {notes : List WikiNote} {i : ℕ} {u : Unit} (h : WikiInvariant l)
    (hsession : ∃ live, l.sessions.get? turn.sessionId = some live)
    (hran : Tx.Ran (captureNotes m turn session now fresh notes i) l u l') :
    WikiInvariant l' ∧ Persists l l' := by
  induction notes generalizing i l with
  | nil =>
    simp only [captureNotes, Tx.ran_pure] at hran
    obtain ⟨_, rfl⟩ := hran
    exact ⟨h, .of_eq rfl⟩
  | cons note notes ih =>
    simp only [captureNotes, Tx.ran_bind] at hran
    obtain ⟨_, l₁, hfirst, hrest⟩ := hran
    obtain ⟨hinv, hpast, hsame⟩ := captureNote_kept h hsession hfirst
    obtain ⟨hinv', hpast'⟩ := ih hinv (by rw [hsame]; exact hsession) hrest
    exact ⟨hinv', hpast.trans hpast'⟩

theorem captureConn_kept {rules : MemoryRules} {record : ClaimRecord} {reply : Reply}
    {fresh : ℕ → WikiId} {u : Unit} (h : WikiInvariant l)
    (hran : Tx.Ran (captureConn rules record reply now fresh) l u l') :
    WikiInvariant l' ∧ Persists l l' := by
  unfold captureConn at hran
  rw [Tx.ran_select_bind] at hran
  split at hran
  · obtain ⟨_, rfl⟩ := Tx.ran_pure.mp hran
    exact ⟨h, .of_eq rfl⟩
  · rename_i m turn session hsource
    refine captureNotes_kept h ?_ hran
    unfold captureSource at hsource
    simp only [Option.bind_eq_bind, Option.bind_eq_some_iff] at hsource
    obtain ⟨m', _, turn', _, session', hsession, hfound⟩ := hsource
    split_ifs at hfound
    obtain ⟨rfl, rfl, rfl⟩ := by simpa using hfound
    exact ⟨_, hsession⟩

/-- A step that writes no entry and moves no memory reset back. -/
theorem elsewhere_kept (h : WikiInvariant l) (hwiki : l'.wikiEntries = l.wikiEntries)
    (hstep : Elsewhere l l') : WikiInvariant l' := by
  have hforward : ∀ k session, l.sessions.get? k = some session → ∃ session',
      l'.sessions.get? k = some session' ∧
        session.memoryResetGeneration ≤ session'.memoryResetGeneration := by
    intro k session hsession
    obtain ⟨hmem, rfl⟩ := Table.get?_eq_some.mp hsession
    obtain ⟨session', hmem', hid, hle⟩ := hstep.1 session hmem
    exact ⟨session', Table.get?_eq_some.mpr ⟨hmem', hid⟩, hle⟩
  have hback : ∀ a ∈ l.wikiEntries.rows, InForce l' a → InForce l a := by
    rintro a ha ⟨happroved, session', hsession', hlive⟩
    obtain ⟨session, hsession⟩ := h.session a ha
    obtain ⟨next, hnext, hle⟩ := hforward _ _ hsession
    obtain rfl := Option.some.inj (hnext.symm.trans hsession')
    exact ⟨happroved, session, hsession, hle.trans hlive⟩
  refine ⟨by rw [hwiki]; exact h.revisions, ?_, ?_, ?_⟩
  · rw [hwiki]
    intro a ha b hb htopic hina hinb
    exact h.one a ha b hb htopic (hback a ha hina) (hback b hb hinb)
  · rw [hwiki]
    intro a ha
    obtain ⟨session, hsession⟩ := h.session a ha
    obtain ⟨next, hnext, _⟩ := hforward _ _ hsession
    exact ⟨next, hnext⟩
  · intro k session hsession
    exact hstep.2 session (Table.get?_eq_some.mp hsession).1

theorem sessionConn_rows {owner key root : String} {fresh : SessionId}
    {session : ConversationSession}
    (h : Tx.Ran (sessionConn env owner key root fresh now) l session l') :
    l'.wikiEntries = l.wikiEntries ∧ (∀ r ∈ l.sessions.rows, r ∈ l'.sessions.rows) ∧
      ∀ r ∈ l'.sessions.rows, r ∈ l.sessions.rows ∨ r.memoryResetGeneration = 0 := by
  unfold sessionConn insertSession at h
  simp only [Tx.ran_lift_bind, Tx.ran_select_bind] at h
  obtain ⟨hashed, _, h⟩ := h
  cases hfound : findSession l owner hashed root with
  | some found =>
    simp only [hfound, Tx.ran_pure] at h
    obtain ⟨_, rfl⟩ := h
    exact ⟨rfl, fun _ hr => hr, fun _ hr => .inl hr⟩
  | none =>
    simp only [hfound, Tx.ran_attempt_bind, Option.map_eq_some_iff, Tx.ran_pure] at h
    obtain ⟨_, ⟨t, hinsert, rfl⟩, _, rfl⟩ := h
    have hrows := Table.rows_insert hinsert
    refine ⟨rfl, fun r hr => ?_, fun r hr => ?_⟩
    · dsimp only
      rw [hrows]
      exact List.mem_append_left _ hr
    · dsimp only at hr
      rw [hrows, List.mem_append, List.mem_singleton] at hr
      rcases hr with hr | rfl
      · exact .inl hr
      · exact .inr rfl

theorem resetConn_elsewhere {owner key root : String} {fresh : SessionId} {n : ℕ}
    (h : ∀ k r, l.sessions.get? k = some r → r.memoryResetGeneration ≤ r.generation)
    (hran : Tx.Ran (resetConn env owner key root fresh now) l n l') :
    l'.wikiEntries = l.wikiEntries ∧ Elsewhere l l' := by
  unfold resetConn at hran
  rw [Tx.ran_bind] at hran
  obtain ⟨session, l₁, hsession, hran⟩ := hran
  simp only [Tx.ran_write_bind, Tx.ran_pure] at hran
  obtain ⟨_, rfl⟩ := hran
  obtain ⟨hwiki, hkept, hnew⟩ := sessionConn_rows hsession
  have hbound : ∀ r ∈ l₁.sessions.rows, r.memoryResetGeneration ≤ r.generation := by
    intro r hr
    rcases hnew r hr with hold | hzero
    · exact h r.id r (Table.mem_rows_iff.mp hold)
    · omega
  refine ⟨hwiki, fun r hr => ⟨_, List.mem_map.mpr ⟨r, hkept r hr, rfl⟩, ?_⟩, fun r' hr' => ?_⟩
  · have hle := hbound r (hkept r hr)
    split_ifs
    · exact ⟨rfl, hle.trans (Nat.le_succ _)⟩
    · exact ⟨rfl, Nat.le_refl _⟩
  · obtain ⟨r, hr, rfl⟩ := List.mem_map.mp hr'
    split_ifs
    · exact Nat.le_refl _
    · exact hbound r hr

theorem ok_of_mapError {root workspace owner : String}
    (h : (memoryWorkspace env reg owner workspace).mapError WikiErr.refused = .ok root) :
    memoryWorkspace env reg owner workspace = .ok root := by
  cases hroot : memoryWorkspace env reg owner workspace with
  | error e =>
    rw [hroot] at h
    cases h
  | ok r =>
    rw [hroot] at h
    cases h
    rfl

/-- The entry a committed review settles, and what it writes. -/
theorem reviewEntry_ran {owner workspace : String} {session : SessionId} {entry : WikiId}
    {version : ℤ} {project : Option ProjectId} {answer : WikiId × WikiStatus × ℤ}
    (h : Tx.Ran (reviewEntry text env reg owner workspace session entry status version project now) s
      answer s') :
    ∃ root scope w j, memoryWorkspace env reg owner workspace = .ok root ∧
      s.ledger.sessions.get? session = some scope ∧
      s.ledger.wikiEntries.get? entry = some w ∧ entryJoin s.ledger w = some j ∧
      Available s.ledger owner root project scope w j ∧ Reviewable w.status ∧
      (w.reviewVersion : ℤ) = version ∧ answer = (entry, status, version + 1) ∧
      s' = reviewed text w scope.memoryResetGeneration status now s := by
  unfold reviewEntry scopeConn at h
  simp only [Tx.ran_require_bind, Tx.ran_lift_bind] at h
  obtain ⟨_, root, hroot, h⟩ := h
  rw [Tx.ran_bind] at h
  obtain ⟨scope, s₁, hscope, h⟩ := h
  simp only [Tx.ran_select_bind, Tx.ran_require_bind, Tx.ran_demand, Option.filter_eq_some_iff]
    at hscope
  obtain ⟨_, ⟨hsession, _⟩, rfl⟩ := hscope
  simp only [Tx.ran_select_bind, Tx.ran_demand_bind, Tx.ran_require_bind, Tx.ran_write_bind,
    Tx.ran_pure, Option.filter_eq_some_iff, decide_eq_true_eq] at h
  obtain ⟨⟨w, j⟩, ⟨hrow, hopen⟩, hversion, _, rfl, rfl⟩ := h
  unfold availableRow at hrow
  split at hrow
  · cases hrow
  · rename_i w' hw
    split at hrow
    · cases hrow
    · rename_i j' hj
      split_ifs at hrow with havailable
      cases hrow
      exact ⟨root, scope, w, j, ok_of_mapError hroot, hsession, hw, hj, havailable, hopen, hversion,
        rfl, rfl⟩

theorem reviewed_entry (hw : s.ledger.wikiEntries.get? w.id = some w) :
    (reviewed text w boundary status now s).ledger.wikiEntries.get? w.id =
      some (settle status now w) := by
  unfold reviewed
  dsimp only
  rw [updateEntries_get?]
  have hself : (if status = .forgotten then forgetSource text w.sourceExecutionId
      (fun v => v.id ≠ w.id) now (if status = .approved then supersede w boundary now s else s)
      else if status = .approved then supersede w boundary now s else s).ledger.wikiEntries.get? w.id =
        some w := by
    have hfirst : (if status = .approved then supersede w boundary now s else
        s).ledger.wikiEntries.get? w.id = some w := by
      split_ifs
      · exact supersede_get?_self now boundary hw
      · exact hw
    split_ifs at hfirst ⊢
    · unfold forgetSource
      rw [updateEntries_get?]
      refine (congrArg _ hfirst).trans ?_
      rw [Option.map_some, if_neg fun h => h.2 rfl]
    · unfold forgetSource
      rw [updateEntries_get?]
      refine (congrArg _ hfirst).trans ?_
      rw [Option.map_some, if_neg fun h => h.2 rfl]
    · exact hfirst
    · exact hfirst
  rw [hself, Option.map_some, if_pos rfl]

theorem forgetRecord_kept {owner workspace : String} {x : ExecutionId} {project : Option ProjectId}
    {changed : Bool} (h : WikiInvariant s.ledger)
    (hran : Tx.Ran (forgetRecord text env reg owner workspace x project now) s changed s') :
    WikiInvariant s'.ledger ∧ Persists s.ledger s'.ledger := by
  unfold forgetRecord at hran
  simp only [Tx.ran_lift_bind, Tx.ran_select_bind, Tx.ran_require_bind, Tx.ran_write_bind,
    Tx.ran_pure] at hran
  obtain ⟨root, _, _, _, rfl⟩ := hran
  split_ifs
  · have hno : ∀ {q : Prop}, Reviewable .forgotten → q := by
      rintro q (hopen | hopen) <;> cases hopen
    exact ⟨WikiInvariant.update ⟨h.revisions, h.one, h.session, h.reset⟩ (by decide)
      fun v _ _ => hno, (Persists.of_eq rfl).trans (updateEntries_persists fun v _ _ => hno)⟩
  · exact ⟨h, .of_eq rfl⟩

variable (env reg text) in
theorem WikiAction.kept (h : WikiInvariant s.ledger) (a : WikiAction) :
    WikiInvariant (a.run env reg text s).ledger ∧
      Persists s.ledger (a.run env reg text s).ledger := by
  cases a with
  | capture rules record reply now fresh =>
    dsimp only [WikiAction.run]
    rcases Tx.commit_cases (captureConn rules record reply now fresh) s.ledger with
      ⟨_, l', hran, hcommit⟩ | ⟨_, _, hcommit⟩
    · rw [hcommit]
      exact captureConn_kept h hran
    · rw [hcommit]
      exact ⟨h, .of_eq rfl⟩
  | review owner workspace session entry status version project now =>
    dsimp only [WikiAction.run]
    rcases Tx.commit_cases (reviewEntry text env reg owner workspace session entry status version
      project now) s with ⟨_, s', hran, hcommit⟩ | ⟨_, _, hcommit⟩
    · rw [hcommit]
      obtain ⟨root, scope, w, j, _, hsession, hw, _, havailable, hopen, _, _, rfl⟩ :=
        reviewEntry_ran hran
      have hid := Table.key_of_get? hw
      have hscope := Table.key_of_get? hsession
      refine reviewed_kept text h (hid.symm ▸ hw) hopen ?_
      rw [havailable.2.2.2.1, hscope]
      exact hsession
    · rw [hcommit]
      exact ⟨h, .of_eq rfl⟩
  | forget owner workspace x project now =>
    dsimp only [WikiAction.run]
    rcases Tx.commit_cases (forgetRecord text env reg owner workspace x project now) s with
      ⟨_, s', hran, hcommit⟩ | ⟨_, _, hcommit⟩
    · rw [hcommit]
      exact forgetRecord_kept h hran
    · rw [hcommit]
      exact ⟨h, .of_eq rfl⟩
  | reset owner key root fresh now =>
    dsimp only [WikiAction.run]
    rcases Tx.commit_cases (resetConn env owner key root fresh now) s.ledger with
      ⟨_, l', hran, hcommit⟩ | ⟨_, _, hcommit⟩
    · rw [hcommit]
      obtain ⟨hwiki, hstep⟩ := resetConn_elsewhere h.reset hran
      exact ⟨elsewhere_kept h hwiki hstep, .of_eq hwiki⟩
    · rw [hcommit]
      exact ⟨h, .of_eq rfl⟩
  | elsewhere after =>
    dsimp only [WikiAction.run]
    split_ifs with hstep
    · exact ⟨elsewhere_kept h rfl hstep, .of_eq rfl⟩
    · exact ⟨h, .of_eq rfl⟩

theorem afterAll_kept (h : WikiInvariant s.ledger) (as : List WikiAction) :
    WikiInvariant (afterAll env reg text s as).ledger ∧
      Persists s.ledger (afterAll env reg text s as).ledger := by
  induction as generalizing s with
  | nil => exact ⟨h, .of_eq rfl⟩
  | cons a as ih =>
    obtain ⟨hinv, hpast⟩ := a.kept env reg text h
    obtain ⟨hinv', hpast'⟩ := ih hinv
    exact ⟨hinv', hpast.trans hpast'⟩

/-- The entry a review takes effect on, before and after. -/
theorem effect_eq {a : WikiAction} {k : WikiId} {n : ℤ} (h : (k, n) ∈ a.effect env reg text s) :
    a.effect env reg text s = [(k, n)] ∧ ∃ w, s.ledger.wikiEntries.get? k = some w ∧
      (w.reviewVersion : ℤ) = n ∧ ∃ w', (a.run env reg text s).ledger.wikiEntries.get? k = some w' ∧
        (w'.reviewVersion : ℤ) = n + 1 := by
  cases a with
  | review owner workspace session entry status version project now =>
    dsimp only [WikiAction.effect, WikiAction.run] at h ⊢
    rcases Tx.commit_cases (reviewEntry text env reg owner workspace session entry status version
      project now) s with ⟨_, s', hran, hcommit⟩ | ⟨_, _, hcommit⟩
    · rw [hcommit] at h ⊢
      rw [List.mem_singleton, Prod.mk.injEq] at h
      obtain ⟨rfl, rfl⟩ := h
      obtain ⟨root, scope, w, j, _, _, hw, _, _, _, hversion, _, rfl⟩ := reviewEntry_ran hran
      have hid := Table.key_of_get? hw
      subst hid
      refine ⟨rfl, w, hw, hversion, _, reviewed_entry hw, ?_⟩
      rw [← hversion]
      unfold settle
      split_ifs <;> push_cast <;> rfl
    · rw [hcommit] at h
      cases h
  | _ => cases h

/-- A version that an entry has left is not the base of an effective review any more. -/
theorem not_mem_effects {k : WikiId} {n : ℤ} (h : WikiInvariant s.ledger)
    (hw : s.ledger.wikiEntries.get? k = some w) (hn : n < w.reviewVersion) (as : List WikiAction) :
    (k, n) ∉ effects env reg text s as := by
  induction as generalizing s w with
  | nil => exact List.not_mem_nil
  | cons a as ih =>
    obtain ⟨hinv, hpast⟩ := a.kept env reg text h
    obtain ⟨w', hw', hgrown⟩ := hpast k w hw
    have hversion := hgrown.version
    intro hmem
    rcases List.mem_append.mp hmem with hnow | hlater
    · obtain ⟨_, v, hv, hbase, _⟩ := effect_eq hnow
      obtain rfl := Option.some.inj (hw.symm.trans hv)
      omega
    · exact ih hinv hw' (by omega) hlater

theorem effects_nodup (h : WikiInvariant s.ledger) (as : List WikiAction) :
    (effects env reg text s as).Nodup := by
  induction as generalizing s with
  | nil => exact List.nodup_nil
  | cons a as ih =>
    have hrest := ih (a.kept env reg text h).1
    unfold effects
    cases heffect : a.effect env reg text s with
    | nil => exact hrest
    | cons e es =>
      obtain ⟨k, n⟩ := e
      obtain ⟨hsingle, _, _, _, w', hw', hversion⟩ :=
        effect_eq (a := a) (k := k) (n := n) (by rw [heffect]; exact List.mem_cons_self)
      rw [heffect] at hsingle
      rw [hsingle]
      refine List.nodup_cons.mpr ⟨?_, hrest⟩
      exact not_mem_effects (a.kept env reg text h).1 hw' (by omega) as

/-- A ledger without topic notes, whose conversations were never reset. -/
def NoNotes (l : Ledger) : Prop :=
  l.wikiEntries.rows = [] ∧ ∀ r ∈ l.sessions.rows, r.memoryResetGeneration = 0

theorem NoNotes.invariant (h : NoNotes l) : WikiInvariant l := by
  obtain ⟨hwiki, hreset⟩ := h
  refine ⟨by rw [hwiki]; exact .nil, ?_, ?_, ?_⟩
  · rw [hwiki]
    intro a ha
    cases ha
  · rw [hwiki]
    intro a ha
    cases ha
  · intro k r hr
    rw [hreset r (Table.get?_eq_some.mp hr).1]
    exact Nat.zero_le _

/-- Over every run: revisions of a topic grow in the order of insertion, one entry of a topic is
approved and in force at most, entries change under greater versions only and are never opened
again, no two reviews take effect on one version, a review that commits is of an available open
entry at exactly its version, and a refused one leaves everything as it was. -/
theorem wiki_reviews_kept (env : Environment) (reg : Registry) (text : WikiText) (s₀ : WikiStore)
    (h₀ : NoNotes s₀.ledger) (as : List WikiAction) :
    let s := afterAll env reg text s₀ as
    (s.ledger.wikiEntries.rows.Pairwise fun a b => SameTopic a b → a.revision < b.revision) ∧
    (∀ a ∈ s.ledger.wikiEntries.rows, ∀ b ∈ s.ledger.wikiEntries.rows, SameTopic a b →
      InForce s.ledger a → InForce s.ledger b → a = b) ∧
    (∀ bs k w, s.ledger.wikiEntries.get? k = some w → ∃ w',
      (afterAll env reg text s bs).ledger.wikiEntries.get? k = some w' ∧ Grown w w') ∧
    (effects env reg text s₀ as).Nodup ∧
    ∀ owner workspace session entry status version project now,
      (∀ answer s', Tx.Ran
          (reviewEntry text env reg owner workspace session entry status version project now) s
          answer s' →
        (∃ root scope w j, memoryWorkspace env reg owner workspace = .ok root ∧
          s.ledger.sessions.get? session = some scope ∧
          s.ledger.wikiEntries.get? entry = some w ∧ entryJoin s.ledger w = some j ∧
          Available s.ledger owner root project scope w j ∧ Reviewable w.status ∧
          (w.reviewVersion : ℤ) = version ∧
          s'.ledger.wikiEntries.get? entry = some (settle status now w)) ∧
        (status = .rejected → s'.memories = s.memories ∧
          s'.ledger.workRecords = s.ledger.workRecords ∧
          ∀ k, k ≠ entry → s'.ledger.wikiEntries.get? k = s.ledger.wikiEntries.get? k)) ∧
      ∀ e s', Tx.commit
          (reviewEntry text env reg owner workspace session entry status version project now) s =
          (.error e, s') → s' = s := by
  intro s
  have hinv : WikiInvariant s.ledger := (afterAll_kept h₀.invariant as).1
  refine ⟨hinv.revisions, ?_, ?_, effects_nodup h₀.invariant as, ?_⟩
  · intro a ha b hb htopic hina hinb
    have hid := hinv.one a ha b hb htopic hina hinb
    exact eq_of_id ha (hid ▸ Table.mem_rows_iff.mp hb)
  · intro bs k w hw
    exact (afterAll_kept hinv bs).2 k w hw
  · intro owner workspace session entry status version project now
    refine ⟨fun answer s' hran => ?_, fun e s' hcommit => ?_⟩
    · obtain ⟨root, scope, w, j, hroot, hsession, hw, hj, havailable, hopen, hversion, _, rfl⟩ :=
        reviewEntry_ran hran
      have hid := Table.key_of_get? hw
      subst hid
      refine ⟨⟨root, scope, w, j, hroot, hsession, hw, hj, havailable, hopen, hversion,
        reviewed_entry hw⟩, ?_⟩
      rintro rfl
      refine ⟨rfl, rfl, fun k hk => ?_⟩
      refine (updateEntries_get? _ _).trans ?_
      cases hget : s.ledger.wikiEntries.get? k with
      | none => exact congrArg _ hget
      | some v =>
        refine (congrArg _ hget).trans ?_
        rw [Option.map_some, if_neg (Table.key_of_get? hget ▸ hk)]
    · rcases Tx.commit_cases (reviewEntry text env reg owner workspace session entry status version
        project now) s with ⟨_, _, _, hok⟩ | ⟨_, _, herror⟩
      · rw [hok] at hcommit
        cases hcommit
      · rw [herror] at hcommit
        cases hcommit
        rfl

/-- Rules that keep every proposal under its own topic. -/
def notingRules : MemoryRules where
  enabled := true
  storageDisabled _ := false
  screen request result := (.screened, request, result)
  defaultTopic request := request
  validateProposals proposals := proposals.map fun p => ⟨p.1, p.2, p.1⟩

/-- The completed task with its record, as a turn of a conversation. -/
def plainNotes : WikiStore :=
  { ledger := { plainRecords with
      sessions := ⟨[plainSession], List.nodup_singleton _⟩
      turns := ⟨[plainTurn 1 2 1], List.nodup_singleton _⟩ } }

/-- A note is captured, and approved twice on one version. -/
def plainReviews : List WikiAction :=
  [.capture notingRules ⟨1, 1, 4, {}, "owner"⟩ {} 1 id,
    .review "owner" "/w" 1 0 .approved 1 none 2, .review "owner" "/w" 1 0 .approved 1 none 3]

theorem wiki_reviews_kept_plain :
    effects plainEnvironment plainRegistry ⟨fun _ => false, fun _ => ""⟩ plainNotes plainReviews =
        [(0, 1)] ∧
      (effects plainEnvironment plainRegistry ⟨fun _ => false, fun _ => ""⟩ plainNotes
        plainReviews).Nodup :=
  ⟨by decide +kernel, (wiki_reviews_kept plainEnvironment plainRegistry
    ⟨fun _ => false, fun _ => ""⟩ plainNotes ⟨rfl, by decide⟩ plainReviews).2.2.2.1⟩

end NyanyaAgent.Safety
