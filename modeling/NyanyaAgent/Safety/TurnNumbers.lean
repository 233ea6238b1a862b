import NyanyaAgent.Conversation.Turns
import NyanyaAgent.System.Invariant

/-!
# The numbers of conversation turns

Binding, finishing and resetting in any order: the turns of a generation are numbered from one
without a gap, each is related to the one before it, and only the last turn of the live
generation can be the one that asks.
-/
namespace NyanyaAgent.Safety
open NyanyaAgent.Schema NyanyaAgent.Relational NyanyaAgent.Operations NyanyaAgent.Conversation
open NyanyaAgent.Runs NyanyaAgent.System

variable {env : Environment} {l l' : Ledger} {j k : TaskId} {s : SessionId} {g n q : ℕ}

/-- What can happen to the conversations of a ledger. -/
inductive TurnAction
  | bind (taskId : TaskId) (owner key workspace : String) (fresh : SessionId) (now : Time)
  | finish (record : ClaimRecord) (kind : ReplyKind) (outcome : OutcomeStatus) (now : Time)
  | reset (owner key root : String) (fresh : SessionId) (now : Time)
  /-- Anything that writes other tables only. -/
  | other (ledger : Ledger)

def stepTurns (env : Environment) (l : Ledger) : TurnAction → Ledger
  | .bind taskId owner key workspace fresh now =>
    (Tx.commit (bindConn env taskId owner key workspace fresh now) l).2
  | .finish record kind outcome now => completeConn record kind outcome now l
  | .reset owner key root fresh now => (Tx.commit (resetConn env owner key root fresh now) l).2
  | .other ledger => { ledger with sessions := l.sessions, turns := l.turns }

/-- The task whose turn comes before that of a task. -/
def relatedTo (l : Ledger) (k : TaskId) : Option TaskId :=
  (l.turns.get? k).bind fun t => t.relatedTaskId

/-- The turns of a session's generation are the turns one to `n`, each related to the one
before it. -/
structure Numbered (l : Ledger) (s : SessionId) (g n : ℕ) : Prop where
  numbers : ∀ q, (∃ k, turnKey l k = some (s, g, q)) ↔ 1 ≤ q ∧ q ≤ n
  once : ∀ {j k q}, turnKey l j = some (s, g, q) → turnKey l k = some (s, g, q) → j = k
  first : ∀ {k}, turnKey l k = some (s, g, 1) → relatedTo l k = none
  next : ∀ {k q}, turnKey l k = some (s, g, q + 2) →
    ∃ j, relatedTo l k = some j ∧ turnKey l j = some (s, g, q + 1)

/-- A pending question was asked by the last turn of the live generation, in the execution that
completed it. -/
def PendingLast (l : Ledger) (r : ConversationSession) : Prop :=
  ∀ k, r.pendingTaskId = some k → ∃ t x, l.turns.get? k = some t ∧ t.sessionId = r.id ∧
    t.generation = r.generation ∧ t.sequence + 1 = r.nextSequence ∧ t.replyKind = .question ∧
    r.pendingExecutionId = some x ∧ t.completedExecutionId = some x

structure SessionNumbered (l : Ledger) (r : ConversationSession) : Prop where
  generations : ∀ g, ∃ n, Numbered l r.id g n
  live : ∃ n, Numbered l r.id r.generation n ∧ r.nextSequence = n + 1
  ahead : ∀ g, r.generation < g → Numbered l r.id g 0
  memory : r.memoryResetGeneration ≤ r.generation
  pending : PendingLast l r

structure TurnsNumbered (l : Ledger) : Prop where
  known : ∀ {k s g q}, turnKey l k = some (s, g, q) → l.sessions.get? s ≠ none
  session : ∀ {s r}, l.sessions.get? s = some r → SessionNumbered l r

/-- Turns that agree on a generation are numbered alike in it. -/
theorem Numbered.congr (h : Numbered l s g n)
    (hkeys : ∀ k q, turnKey l' k = some (s, g, q) ↔ turnKey l k = some (s, g, q))
    (hrelated : ∀ k q, turnKey l k = some (s, g, q) → relatedTo l' k = relatedTo l k) :
    Numbered l' s g n where
  numbers q := by
    rw [← h.numbers q]
    simp only [hkeys]
  once hj hk := h.once ((hkeys _ _).mp hj) ((hkeys _ _).mp hk)
  first hk := by
    rw [hkeys] at hk
    rw [hrelated _ _ hk, h.first hk]
  next hk := by
    rw [hkeys] at hk
    obtain ⟨j, hj, hkey⟩ := h.next hk
    exact ⟨j, by rw [hrelated _ _ hk, hj], (hkeys _ _).mpr hkey⟩

theorem Numbered.of_turns (h : Numbered l s g n) (hturns : l'.turns = l.turns) :
    Numbered l' s g n :=
  h.congr (fun k q => by rw [turnKey, turnKey, hturns])
    fun k q _ => by rw [relatedTo, relatedTo, hturns]

theorem Numbered.none (h : ∀ k q, turnKey l k ≠ some (s, g, q)) : Numbered l s g 0 where
  numbers q := ⟨fun ⟨k, hk⟩ => absurd hk (h k q), fun hq => by omega⟩
  once hj _ := absurd hj (h _ _)
  first hk := absurd hk (h _ _)
  next hk := absurd hk (h _ _)

/-- One more turn, related to the last one there was. -/
theorem Numbered.snoc (h : Numbered l s g n) (hnone : turnKey l k = Option.none)
    (hkey : turnKey l' k = some (s, g, n + 1))
    (hothers : ∀ j, j ≠ k → turnKey l' j = turnKey l j ∧ relatedTo l' j = relatedTo l j)
    (hfirst : n = 0 → relatedTo l' k = Option.none)
    (hnext : ∀ m, n = m + 1 → ∃ j, relatedTo l' k = some j ∧ turnKey l j = some (s, g, n)) :
    Numbered l' s g (n + 1) := by
  have hold : ∀ {j q}, turnKey l j = some (s, g, q) → j ≠ k ∧ q ≤ n := by
    intro j q hj
    refine ⟨?_, ((h.numbers q).mp ⟨j, hj⟩).2⟩
    rintro rfl
    rw [hnone] at hj
    cases hj
  have hcases : ∀ {j q}, turnKey l' j = some (s, g, q) →
      j = k ∧ q = n + 1 ∨ j ≠ k ∧ q ≤ n ∧ turnKey l j = some (s, g, q) := by
    intro j q hj
    by_cases hjk : j = k
    · subst hjk
      rw [hkey] at hj
      cases hj
      exact .inl ⟨rfl, rfl⟩
    · rw [(hothers j hjk).1] at hj
      exact .inr ⟨hjk, (hold hj).2, hj⟩
  have hkept : ∀ {j q}, turnKey l j = some (s, g, q) → turnKey l' j = some (s, g, q) := by
    intro j q hj
    rw [(hothers j (hold hj).1).1, hj]
  constructor
  · intro q
    constructor
    · rintro ⟨j, hj⟩
      rcases hcases hj with ⟨_, rfl⟩ | ⟨_, hle, hj⟩
      · omega
      · have hq := (h.numbers q).mp ⟨j, hj⟩
        omega
    · rintro ⟨hq, hle⟩
      rcases Nat.lt_or_eq_of_le hle with hlt | rfl
      · obtain ⟨j, hj⟩ := (h.numbers q).mpr ⟨hq, Nat.lt_succ_iff.mp hlt⟩
        exact ⟨j, hkept hj⟩
      · exact ⟨k, hkey⟩
  · intro i j q hi hj
    rcases hcases hi with ⟨rfl, rfl⟩ | ⟨_, hle, hi⟩
    · rcases hcases hj with ⟨rfl, _⟩ | ⟨_, hle, _⟩
      · rfl
      · omega
    · rcases hcases hj with ⟨_, rfl⟩ | ⟨_, _, hj⟩
      · omega
      · exact h.once hi hj
  · intro j hj
    rcases hcases hj with ⟨rfl, hn⟩ | ⟨hne, _, hj⟩
    · exact hfirst (by omega)
    · rw [(hothers j hne).2, h.first hj]
  · intro j q hj
    rcases hcases hj with ⟨rfl, hn⟩ | ⟨hne, _, hj⟩
    · obtain ⟨i, hrelated, hi⟩ := hnext q (by omega)
      refine ⟨i, hrelated, ?_⟩
      rw [hkept hi, show q + 1 = n by omega]
    · obtain ⟨i, hrelated, hi⟩ := h.next hj
      exact ⟨i, by rw [(hothers j hne).2, hrelated], hkept hi⟩

section LastTurn

variable {latest : Option ConversationTurn → ConversationTurn → Option ConversationTurn}

/-- Folding with the later of two turns finds a turn that no other is later than. -/
theorem foldl_latest (hlatest : ∀ b t, latest (some b) t =
    if t.sequence ≤ b.sequence then some b else some t) (ts : List ConversationTurn)
    (b : ConversationTurn) : ∃ t, ts.foldl latest (some b) = some t ∧ (t = b ∨ t ∈ ts) ∧
      b.sequence ≤ t.sequence ∧ ∀ u ∈ ts, u.sequence ≤ t.sequence := by
  induction ts generalizing b with
  | nil => exact ⟨b, rfl, .inl rfl, Nat.le_refl _, fun u hu => by cases hu⟩
  | cons u ts ih =>
    rw [List.foldl_cons, hlatest]
    split_ifs with hle
    · obtain ⟨t, ht, hmem, hb, hall⟩ := ih b
      refine ⟨t, ht, hmem.imp_right (List.mem_cons_of_mem _), hb, fun v hv => ?_⟩
      rcases List.mem_cons.mp hv with rfl | hv
      · exact Nat.le_trans hle hb
      · exact hall v hv
    · obtain ⟨t, ht, hmem, hu, hall⟩ := ih u
      refine ⟨t, ht, ?_, by omega, fun v hv => ?_⟩
      · rcases hmem with rfl | hmem
        · exact .inr List.mem_cons_self
        · exact .inr (List.mem_cons_of_mem _ hmem)
      · rcases List.mem_cons.mp hv with rfl | hv
        · exact hu
        · exact hall v hv

theorem lastTurn_nil (h : l.turns.rows.filter (fun t => t.sessionId = s ∧ t.generation = g) = []) :
    lastTurn l s g = none := by
  unfold lastTurn
  rw [h]
  rfl

theorem lastTurn_cons {u : ConversationTurn} {ts : List ConversationTurn}
    (h : l.turns.rows.filter (fun t => t.sessionId = s ∧ t.generation = g) = u :: ts) :
    ∃ latest : Option ConversationTurn → ConversationTurn → Option ConversationTurn,
      (∀ b t, latest (some b) t = if t.sequence ≤ b.sequence then some b else some t) ∧
        lastTurn l s g = ts.foldl latest (some u) := by
  unfold lastTurn
  rw [h, List.foldl_cons]
  refine ⟨_, ?_, rfl⟩
  intro b t
  rfl

end LastTurn

theorem mem_generation {t : ConversationTurn} :
    t ∈ l.turns.rows.filter (fun t => t.sessionId = s ∧ t.generation = g) ↔
      l.turns.get? t.taskId = some t ∧ turnKey l t.taskId = some (s, g, t.sequence) := by
  rw [List.mem_filter, decide_eq_true_eq, Table.mem_rows_iff]
  constructor
  · rintro ⟨ht, rfl, rfl⟩
    exact ⟨ht, turnKey_eq_some.mpr ⟨t, ht, rfl, rfl, rfl⟩⟩
  · rintro ⟨ht, hkey⟩
    obtain ⟨t', ht', hs, hg, _⟩ := turnKey_eq_some.mp hkey
    rw [ht] at ht'
    cases ht'
    exact ⟨ht, hs, hg⟩

/-- The last turn of a numbered generation is the one with the greatest number. -/
theorem lastTurn_numbered (h : Numbered l s g n) :
    (n = 0 ∧ lastTurn l s g = none) ∨
      ∃ t, lastTurn l s g = some t ∧ 1 ≤ n ∧ turnKey l t.taskId = some (s, g, n) := by
  cases hts : l.turns.rows.filter (fun t => t.sessionId = s ∧ t.generation = g) with
  | nil =>
    refine .inl ⟨?_, lastTurn_nil hts⟩
    by_contra hn
    obtain ⟨k, hk⟩ := (h.numbers n).mpr ⟨by omega, Nat.le_refl _⟩
    obtain ⟨t, ht, rfl, rfl, _⟩ := turnKey_eq_some.mp hk
    have hmem : t ∈ l.turns.rows.filter fun u =>
        u.sessionId = t.sessionId ∧ u.generation = t.generation :=
      List.mem_filter.mpr ⟨(Table.get?_eq_some.mp ht).1, decide_eq_true ⟨rfl, rfl⟩⟩
    rw [hts] at hmem
    cases hmem
  | cons u ts =>
    obtain ⟨latest, hlatest, hlast⟩ := lastTurn_cons hts
    obtain ⟨t, ht, hmem, hu, hall⟩ := foldl_latest hlatest ts u
    have hlist : t ∈ u :: ts := List.mem_cons.mpr hmem
    have hgreatest : ∀ v ∈ u :: ts, v.sequence ≤ t.sequence := fun v hv =>
      (List.mem_cons.mp hv).elim (fun heq => heq ▸ hu) (hall v)
    rw [← hts] at hlist hgreatest
    obtain ⟨_, hkey⟩ := mem_generation.mp hlist
    obtain ⟨hone, hle⟩ := (h.numbers t.sequence).mp ⟨_, hkey⟩
    refine .inr ⟨t, by rw [hlast, ht], by omega, ?_⟩
    obtain ⟨k, hk⟩ := (h.numbers n).mpr ⟨by omega, Nat.le_refl _⟩
    obtain ⟨v, hv, hs, hg, hn⟩ := turnKey_eq_some.mp hk
    have hv' : v ∈ l.turns.rows.filter (fun t => t.sessionId = s ∧ t.generation = g) :=
      List.mem_filter.mpr ⟨(Table.get?_eq_some.mp hv).1, decide_eq_true ⟨hs, hg⟩⟩
    have hmost := hgreatest v hv'
    rw [hkey, show t.sequence = n by omega]

section Sessions

variable {owner key workspace : String} {fresh : SessionId} {now : Time}
  {r : ConversationSession}

/-- A turn of no generation a session has opened. -/
theorem SessionNumbered.of_turns (h : SessionNumbered l r) (hturns : l'.turns = l.turns) :
    SessionNumbered l' r where
  generations g := (h.generations g).imp fun n hn => hn.of_turns hturns
  live := h.live.imp fun n hn => ⟨hn.1.of_turns hturns, hn.2⟩
  ahead g hg := (h.ahead g hg).of_turns hturns
  memory := h.memory
  pending k hk := by
    rw [hturns]
    exact h.pending k hk

theorem SessionNumbered.new (hnone : ∀ k g q, turnKey l k ≠ some (r.id, g, q))
    (hsequence : r.nextSequence = 1) (hmemory : r.memoryResetGeneration ≤ r.generation)
    (hpending : r.pendingTaskId = none) : SessionNumbered l r where
  generations g := ⟨0, .none fun k q => hnone k g q⟩
  live := ⟨0, .none fun k q => hnone k _ q, hsequence⟩
  ahead g _ := .none fun k q => hnone k g q
  memory := hmemory
  pending k hk := by
    rw [hpending] at hk
    cases hk

/-- The session a conversation opens is there before, or is new. -/
theorem sessionConn_opens (h : Tx.Ran (sessionConn env owner key workspace fresh now) l r l') :
    (l' = l ∧ l.sessions.get? r.id = some r) ∨
      ∃ t, l' = { l with sessions := t } ∧ l.sessions.insert r = some t ∧ r.generation = 1 ∧
        r.nextSequence = 1 ∧ r.memoryResetGeneration = 0 ∧ r.pendingTaskId = none := by
  unfold sessionConn insertSession at h
  simp only [Tx.ran_lift_bind, Tx.ran_select_bind] at h
  obtain ⟨hashed, _, h⟩ := h
  cases hfound : findSession l owner hashed workspace with
  | some session =>
    simp only [hfound, Tx.ran_pure] at h
    obtain ⟨rfl, rfl⟩ := h
    exact .inl ⟨rfl, Table.mem_rows_iff.mp (List.mem_of_find?_eq_some hfound)⟩
  | none =>
    simp only [hfound, Tx.ran_attempt_bind, Option.map_eq_some_iff, Tx.ran_pure] at h
    obtain ⟨_, ⟨t, ht, rfl⟩, rfl, rfl⟩ := h
    exact .inr ⟨t, rfl, ht, rfl, rfl, rfl, rfl⟩

theorem TurnsNumbered.opened (h : TurnsNumbered l)
    (hran : Tx.Ran (sessionConn env owner key workspace fresh now) l r l') :
    TurnsNumbered l' ∧ l'.sessions.get? r.id = some r := by
  rcases sessionConn_opens hran with ⟨rfl, hr⟩ | ⟨t, rfl, ht, hgen, hnext, hmemory, hpending⟩
  · exact ⟨h, hr⟩
  · have hget := Table.get?_insert ht
    refine ⟨⟨fun {k s g q} hk => ?_, fun {s r'} hs => ?_⟩, by rw [hget, if_pos rfl]⟩
    · obtain ⟨r', hr'⟩ := Option.ne_none_iff_exists'.mp (h.known hk)
      exact Option.ne_none_iff_exists'.mpr ⟨r', Table.get?_insert_of_some ht hr'⟩
    · rw [hget] at hs
      split_ifs at hs with heq
      · cases hs
        refine .new (fun k g q hk => ?_) hnext (by omega) hpending
        exact absurd (Table.get?_of_insert ht) (h.known (l := l) hk)
      · exact (h.session hs).of_turns rfl

/-- The turn that binding adds to a session. -/
def boundTurn (l : Ledger) (k : TaskId) (r : ConversationSession) (now : Time) :
    ConversationTurn where
  taskId := k
  sessionId := r.id
  generation := r.generation
  sequence := r.nextSequence
  relatedTaskId := (lastTurn l r.id r.generation).map (·.taskId)
  createdAt := now
  updatedAt := now

/-- Binding finds the turn of the task, or adds the next turn of its session. -/
theorem bindConn_binds {turn : ConversationTurn}
    (h : Tx.Ran (bindConn env k owner key workspace fresh now) l turn l') :
    (l' = l ∧ l.turns.get? k = some turn) ∨ ∃ r l₁ t,
      Tx.Ran (sessionConn env owner key workspace fresh now) l r l₁ ∧
      l₁.turns.insert (boundTurn l₁ k r now) = some t ∧
      l' = { l₁ with
        turns := t
        sessions := l₁.sessions.update (fun s => s.id = r.id) fun s =>
          { s with nextSequence := s.nextSequence + 1, updatedAt := now,
                   pendingTaskId := none, pendingExecutionId := none } } := by
  unfold bindConn insertTurn at h
  simp only [Tx.ran_select_bind, Tx.ran_demand_bind, Tx.ran_require_bind] at h
  obtain ⟨_, _, o, _, _, h⟩ := h
  cases hp : l.turns.get? k with
  | some t =>
    simp only [hp, Tx.ran_lift_bind, Tx.ran_select_bind, Tx.ran_require_bind, Tx.ran_pure] at h
    obtain ⟨_, _, _, rfl, rfl⟩ := h
    exact .inl ⟨rfl, rfl⟩
  | none =>
    simp only [hp] at h
    rw [Tx.ran_bind] at h
    obtain ⟨r, l₁, hr, h⟩ := h
    simp only [Tx.ran_select_bind, Tx.ran_attempt_bind, Tx.ran_write_bind, Tx.ran_pure] at h
    obtain ⟨l₂, ht, _, rfl⟩ := h
    split_ifs at ht
    obtain ⟨t, hins, rfl⟩ := Option.map_eq_some_iff.mp ht
    exact .inr ⟨r, l₁, t, hr, hins, rfl⟩

/-- The next turn of a session that is numbered. -/
theorem TurnsNumbered.bound (h : TurnsNumbered l) (hr : l.sessions.get? r.id = some r)
    {t : Table ConversationTurn.taskId} (ht : l.turns.insert (boundTurn l k r now) = some t) :
    TurnsNumbered { l with
      turns := t
      sessions := l.sessions.update (fun s => s.id = r.id) fun s =>
        { s with nextSequence := s.nextSequence + 1, updatedAt := now,
                 pendingTaskId := none, pendingExecutionId := none } } := by
  generalize hl' : ({ l with
    turns := t
    sessions := l.sessions.update (fun s => s.id = r.id) fun s =>
      { s with nextSequence := s.nextSequence + 1, updatedAt := now,
               pendingTaskId := none, pendingExecutionId := none } } : Ledger) = l'
  have hturns : ∀ j, l'.turns.get? j =
      if j = k then some (boundTurn l k r now) else l.turns.get? j := by
    intro j
    rw [← hl']
    exact Table.get?_insert ht j
  have hnone : turnKey l k = none := by
    rw [turnKey, show l.turns.get? k = none from Table.get?_of_insert ht]
    rfl
  have hkey : turnKey l' k = some (r.id, r.generation, r.nextSequence) := by
    rw [turnKey, hturns, if_pos rfl]
    rfl
  have hothers : ∀ j, j ≠ k → turnKey l' j = turnKey l j ∧ relatedTo l' j = relatedTo l j := by
    intro j hj
    rw [turnKey, relatedTo, hturns, if_neg hj]
    exact ⟨rfl, rfl⟩
  have hrelated : relatedTo l' k = (lastTurn l r.id r.generation).map (·.taskId) := by
    rw [relatedTo, hturns, if_pos rfl]
    rfl
  have hkeys : ∀ s g, (s, g) ≠ (r.id, r.generation) → ∀ j q,
      turnKey l' j = some (s, g, q) ↔ turnKey l j = some (s, g, q) := by
    intro s g hne j q
    by_cases hj : j = k
    · subst hj
      rw [hkey, hnone]
      constructor
      · intro heq
        cases heq
        exact absurd rfl hne
      · intro heq
        cases heq
    · rw [(hothers j hj).1]
  have helse : ∀ {s g n}, (s, g) ≠ (r.id, r.generation) → Numbered l s g n →
      Numbered l' s g n := by
    intro s g n hne hn
    refine hn.congr (hkeys s g hne) fun j q hj => (hothers j ?_).2
    rintro rfl
    rw [hnone] at hj
    cases hj
  have hsession := h.session hr
  obtain ⟨n, hn, hnext⟩ := hsession.live
  have hlive : Numbered l' r.id r.generation (n + 1) := by
    rw [hnext] at hkey
    have hlast := lastTurn_numbered hn
    refine hn.snoc hnone hkey hothers (fun hzero => ?_) fun m hm => ?_
    · rcases hlast with ⟨_, hlast⟩ | ⟨_, _, hone, _⟩
      · rw [hrelated, hlast]
        rfl
      · omega
    · rcases hlast with ⟨hzero, _⟩ | ⟨u, hlast, _, hu⟩
      · omega
      · exact ⟨u.taskId, by rw [hrelated, hlast]; rfl, hu⟩
  have hsessions : ∀ j, l'.sessions.get? j = (l.sessions.get? j).map fun s =>
      if s.id = r.id then { s with nextSequence := s.nextSequence + 1, updatedAt := now
                                   pendingTaskId := none, pendingExecutionId := none }
      else s := by
    intro j
    rw [← hl', Table.get?_update]
  constructor
  · intro j s g q hj
    rw [hsessions]
    by_cases hjk : j = k
    · subst hjk
      rw [hkey] at hj
      cases hj
      rw [hr]
      exact fun hsome => by cases hsome
    · rw [(hothers j hjk).1] at hj
      obtain ⟨r', hr'⟩ := Option.ne_none_iff_exists'.mp (h.known hj)
      rw [hr']
      exact fun hsome => by cases hsome
  · intro s r' hs
    rw [hsessions] at hs
    obtain ⟨r₀, hr₀, hr'⟩ := Option.map_eq_some_iff.mp hs
    have hid := Table.key_of_get? hr₀
    split_ifs at hr' with heq
    · have hrr : r₀ = r := by
        rw [← hid, heq, hr] at hr₀
        exact (Option.some.inj hr₀).symm
      subst hrr
      subst hr'
      refine ⟨fun g' => ?_, ⟨n + 1, hlive, by simpa using hnext⟩, fun g' hg' => ?_,
        hsession.memory, fun j hj => by cases hj⟩
      · by_cases hg' : g' = r₀.generation
        · exact ⟨n + 1, hg' ▸ hlive⟩
        · obtain ⟨m, hm⟩ := hsession.generations g'
          exact ⟨m, helse (by simp [hg']) hm⟩
      · refine helse ?_ (hsession.ahead g' hg')
        have hne : g' ≠ r₀.generation := by
          dsimp only at hg'
          omega
        simp [hne]
    · subst hr'
      have hs' := h.session hr₀
      have hne : ∀ g', (r₀.id, g') ≠ (r.id, r.generation) := fun g' hpair =>
        heq (Prod.mk.inj hpair).1
      refine ⟨fun g' => ?_, ?_, fun g' hg' => helse (hne _) (hs'.ahead g' hg'), hs'.memory, ?_⟩
      · obtain ⟨m, hm⟩ := hs'.generations g'
        exact ⟨m, helse (hne _) hm⟩
      · obtain ⟨m, hm, hm'⟩ := hs'.live
        exact ⟨m, helse (hne _) hm, hm'⟩
      · intro j hj
        obtain ⟨u, x, hu, hrest⟩ := hs'.pending j hj
        refine ⟨u, x, ?_, hrest⟩
        have hjk : j ≠ k := by
          rintro rfl
          rw [show l.turns.get? j = none from Table.get?_of_insert ht] at hu
          cases hu
        rw [hturns, if_neg hjk, hu]

/-- A reset opens a generation that no turn is in. -/
theorem TurnsNumbered.reset (h : TurnsNumbered l) :
    TurnsNumbered { l with
      sessions := l.sessions.update (fun s => s.id = r.id) fun s =>
        { s with generation := s.generation + 1, memoryResetGeneration := s.generation + 1
                 nextSequence := 1, pendingTaskId := none, pendingExecutionId := none
                 updatedAt := now } } := by
  constructor
  · intro j s g q hj
    obtain ⟨r', hr'⟩ := Option.ne_none_iff_exists'.mp (h.known (l := l) hj)
    rw [Table.get?_update, hr']
    exact fun hsome => by cases hsome
  · intro s r' hs
    rw [Table.get?_update] at hs
    obtain ⟨r₀, hr₀, hr'⟩ := Option.map_eq_some_iff.mp hs
    have hs' := h.session hr₀
    split_ifs at hr'
    · subst hr'
      refine ⟨fun g => (hs'.generations g).imp fun n hn => hn.of_turns rfl, ⟨0, ?_, rfl⟩,
        fun g hg => ?_, Nat.le_refl _, fun j hj => by cases hj⟩
      · exact (hs'.ahead _ (Nat.lt_succ_self _)).of_turns rfl
      · exact (hs'.ahead g (Nat.lt_of_succ_lt hg)).of_turns rfl
    · subst hr'
      exact hs'.of_turns rfl

end Sessions

/-- What a completion leaves of the turns and sessions. -/
inductive Completed (l : Ledger) (record : ClaimRecord) (kind : ReplyKind)
    (outcome : OutcomeStatus) (now : Time) (l' : Ledger) : Prop
  | kept (h : l' = l)
  | earlier {t : ConversationTurn} {r : ConversationSession}
      (turn : l.turns.get? record.taskId = some t) (session : l.sessions.get? t.sessionId = some r)
      (number : t.sequence + 1 ≠ r.nextSequence)
      (turns : ∀ j, l'.turns.get? j = (l.turns.get? j).map fun t => if t.taskId = record.taskId
        then { t with replyKind := kind, completedExecutionId := some record.executionId
                      updatedAt := now } else t)
      (sessions : l'.sessions = l.sessions)
  | last {t : ConversationTurn} {r : ConversationSession}
      (turn : l.turns.get? record.taskId = some t) (session : l.sessions.get? t.sessionId = some r)
      (live : t.generation = r.generation) (number : t.sequence + 1 = r.nextSequence)
      (turns : ∀ j, l'.turns.get? j = (l.turns.get? j).map fun t => if t.taskId = record.taskId
        then { t with replyKind := kind, completedExecutionId := some record.executionId
                      updatedAt := now } else t)
      (sessions : ∀ j, l'.sessions.get? j = (l.sessions.get? j).map fun s =>
        if s.id = t.sessionId ∧ s.generation = t.generation then
          { s with
            pendingTaskId := if outcome = .succeeded ∧ kind = .question then some record.taskId
              else none
            pendingExecutionId := if outcome = .succeeded ∧ kind = .question then
              some record.executionId else none
            updatedAt := now }
        else s)

theorem completeConn_completed (record : ClaimRecord) (kind : ReplyKind) (outcome : OutcomeStatus)
    (now : Time) (l : Ledger) :
    Completed l record kind outcome now (completeConn record kind outcome now l) := by
  unfold completeConn
  split
  · exact .kept rfl
  · next t ht =>
    split
    · exact .kept rfl
    · next r hr =>
      dsimp only
      split_ifs with hlive hnumber hquestion
      · exact .last ht hr hlive.2.2 hnumber (fun j => by rw [Table.get?_update])
          fun j => by rw [Table.get?_update, if_pos hquestion, if_pos hquestion]
      · exact .last ht hr hlive.2.2 hnumber (fun j => by rw [Table.get?_update])
          fun j => by rw [Table.get?_update, if_neg hquestion, if_neg hquestion]
      · exact .earlier ht hr hnumber (fun j => by rw [Table.get?_update]) rfl
      · exact .kept rfl

theorem completeConn_related (record : ClaimRecord) (kind : ReplyKind) (outcome : OutcomeStatus)
    (now : Time) (l : Ledger) (k : TaskId) :
    relatedTo (completeConn record kind outcome now l) k = relatedTo l k := by
  rcases completeConn_completed record kind outcome now l with h | ⟨_, _, _, hturns, _⟩ |
    ⟨_, _, _, _, hturns, _⟩
  · rw [h]
  all_goals
    rw [relatedTo, hturns, relatedTo]
    cases l.turns.get? k with
    | none => rfl
    | some t =>
      rw [Option.map_some, Option.bind_some, Option.bind_some]
      split_ifs <;> rfl

theorem Numbered.completed (h : Numbered l s g n) (record : ClaimRecord) (kind : ReplyKind)
    (outcome : OutcomeStatus) (now : Time) :
    Numbered (completeConn record kind outcome now l) s g n :=
  h.congr (fun k q => by rw [completeConn_turns])
    fun k q _ => completeConn_related record kind outcome now l k

/-- A completion keeps the numbers; only that of the last turn of the live generation sets or
clears the pending question. -/
theorem TurnsNumbered.completed (h : TurnsNumbered l) (record : ClaimRecord) (kind : ReplyKind)
    (outcome : OutcomeStatus) (now : Time) :
    TurnsNumbered (completeConn record kind outcome now l) := by
  have hnumbered : ∀ {s g n}, Numbered l s g n →
      Numbered (completeConn record kind outcome now l) s g n := fun hn =>
    hn.completed record kind outcome now
  have hkeys := completeConn_turns record kind outcome now l
  -- The numbers of a session whose counters are kept.
  have hsame : ∀ {r r' : ConversationSession}, SessionNumbered l r → r'.id = r.id →
      r'.generation = r.generation → r'.nextSequence = r.nextSequence →
      r'.memoryResetGeneration = r.memoryResetGeneration →
      PendingLast (completeConn record kind outcome now l) r' →
      SessionNumbered (completeConn record kind outcome now l) r' := by
    intro r r' hr hid hgen hnext hmemory hpending
    refine ⟨fun g => ?_, ?_, fun g hg => ?_, ?_, hpending⟩
    · rw [hid]
      exact (hr.generations g).imp fun n hn => hnumbered hn
    · rw [hid, hgen, hnext]
      exact hr.live.imp fun n hn => ⟨hnumbered hn.1, hn.2⟩
    · rw [hid]
      exact hnumbered (hr.ahead g (hgen ▸ hg))
    · rw [hmemory, hgen]
      exact hr.memory
  -- A pending question that was asked by another task's turn.
  have hkept : ∀ {r : ConversationSession}, PendingLast l r →
      (r.pendingTaskId ≠ some record.taskId) →
      (∀ j, (completeConn record kind outcome now l).turns.get? j =
        (l.turns.get? j).map fun t => if t.taskId = record.taskId
        then { t with replyKind := kind, completedExecutionId := some record.executionId
                      updatedAt := now } else t) →
      PendingLast (completeConn record kind outcome now l) r := by
    intro r hpending hne hturns k hk
    obtain ⟨t, x, ht, hrest⟩ := hpending k hk
    refine ⟨t, x, ?_, hrest⟩
    have hother : t.taskId ≠ record.taskId := by
      rw [Table.key_of_get? ht]
      rintro rfl
      exact hne hk
    rw [hturns, ht, Option.map_some, if_neg hother]
  rcases completeConn_completed record kind outcome now l with heq |
    ⟨ht, hr, hnumber, hturns, hsessions⟩ | ⟨ht, hr, hlive, hnumber, hturns, hsessions⟩
  · rw [heq]
    exact h
  · refine ⟨fun hk => ?_, fun {s r'} hs => ?_⟩
    · rw [hsessions]
      exact h.known (by rwa [hkeys] at hk)
    · rw [hsessions] at hs
      refine hsame (h.session hs) rfl rfl rfl rfl (hkept (h.session hs).pending ?_ hturns)
      intro hpending
      obtain ⟨t', x, ht', hid, _, hnext, _⟩ := (h.session hs).pending _ hpending
      rw [ht] at ht'
      cases ht'
      rw [hid, Table.key_of_get? hs, hs] at hr
      cases hr
      exact hnumber hnext
  · next t r =>
    refine ⟨fun {k s g q} hk => ?_, fun {s r'} hs => ?_⟩
    · rw [hkeys] at hk
      obtain ⟨r', hr'⟩ := Option.ne_none_iff_exists'.mp (h.known hk)
      rw [hsessions, hr']
      exact fun hsome => by cases hsome
    · rw [hsessions] at hs
      obtain ⟨r₀, hr₀, hr'⟩ := Option.map_eq_some_iff.mp hs
      have hs' := h.session hr₀
      have hid := Table.key_of_get? hr₀
      split_ifs at hr' with heq hquestion
      · subst hr'
        refine hsame hs' rfl rfl rfl rfl fun k hk => ?_
        cases hk
        have hrr : r₀ = r := by
          rw [← hid, heq.1, hr] at hr₀
          exact (Option.some.inj hr₀).symm
        subst hrr
        refine ⟨{ t with replyKind := kind, completedExecutionId := some record.executionId
                         updatedAt := now }, record.executionId, ?_, heq.1.symm, hlive, hnumber,
          hquestion.2, rfl, rfl⟩
        rw [hturns, ht, Option.map_some, if_pos (Table.key_of_get? ht)]
      · subst hr'
        exact hsame hs' rfl rfl rfl rfl fun j hj => by cases hj
      · subst hr'
        refine hsame hs' rfl rfl rfl rfl (hkept hs'.pending ?_ hturns)
        intro hpending
        obtain ⟨t', x, ht', hsid, hgen, _⟩ := hs'.pending _ hpending
        rw [ht] at ht'
        cases ht'
        exact heq ⟨hsid.symm, hgen.symm⟩

theorem TurnsNumbered.step (h : TurnsNumbered l) (a : TurnAction) :
    TurnsNumbered (stepTurns env l a) := by
  cases a with
  | bind taskId owner key workspace fresh now =>
    rcases Tx.commit_cases (bindConn env taskId owner key workspace fresh now) l with
      ⟨turn, l', hran, hcommit⟩ | ⟨e, _, hcommit⟩
    · rw [stepTurns, hcommit]
      rcases bindConn_binds hran with ⟨rfl, _⟩ | ⟨r, l₁, t, hr, ht, rfl⟩
      · exact h
      · obtain ⟨h₁, hr₁⟩ := h.opened hr
        exact h₁.bound hr₁ ht
    · rw [stepTurns, hcommit]
      exact h
  | finish record kind outcome now => exact h.completed record kind outcome now
  | reset owner key root fresh now =>
    rcases Tx.commit_cases (resetConn env owner key root fresh now) l with
      ⟨m, l', hran, hcommit⟩ | ⟨e, _, hcommit⟩
    · rw [stepTurns, hcommit]
      unfold resetConn at hran
      rw [Tx.ran_bind] at hran
      obtain ⟨r, l₁, hr, hran⟩ := hran
      simp only [Tx.ran_write_bind, Tx.ran_pure] at hran
      rw [hran.2]
      exact (h.opened hr).1.reset
    · rw [stepTurns, hcommit]
      exact h
  | other ledger =>
    refine ⟨fun hk => h.known (l := l) hk, fun hs => ?_⟩
    exact (h.session (l := l) hs).of_turns rfl

/-- In every order of binding, finishing and resetting, the turns are numbered, and binding a
task again changes nothing. -/
theorem conversation_numbering
    (h : Reachable (stepTurns env) (fun _ _ => True)
      (fun l => l.sessions = .empty ∧ l.turns = .empty) l) :
    TurnsNumbered l ∧ ∀ k turn, l.turns.get? k = some turn →
      ∀ owner key workspace fresh now,
        stepTurns env l (.bind k owner key workspace fresh now) = l ∧
          ∀ answer l', Tx.Ran (bindConn env k owner key workspace fresh now) l answer l' →
            answer = turn := by
  constructor
  · refine h.invariant (fun l hinit => ?_) fun l a hl _ => hl.step a
    obtain ⟨hsessions, hturns⟩ := hinit
    refine ⟨fun {k s g q} hk => ?_, fun {s r} hs => ?_⟩
    · rw [turnKey, hturns] at hk
      cases hk
    · rw [hsessions] at hs
      cases hs
  · intro k turn hturn owner key workspace fresh now
    have hbinds : ∀ answer l', Tx.Ran (bindConn env k owner key workspace fresh now) l answer l' →
        l' = l ∧ answer = turn := by
      intro answer l' hran
      rcases bindConn_binds hran with ⟨rfl, hk⟩ | ⟨r, l₁, t, hr, ht, _⟩
      · rw [hturn] at hk
        exact ⟨rfl, (Option.some.inj hk).symm⟩
      · have hnone := Table.get?_of_insert ht
        rw [sessionConn_turns env hr] at hnone
        have hsome : l.turns.get? (boundTurn l₁ k r now).taskId = some turn := hturn
        rw [hsome] at hnone
        cases hnone
    refine ⟨?_, fun answer l' hran => (hbinds answer l' hran).2⟩
    rcases Tx.commit_cases (bindConn env k owner key workspace fresh now) l with
      ⟨answer, l', hran, hcommit⟩ | ⟨e, _, hcommit⟩
    · rw [stepTurns, hcommit]
      exact (hbinds answer l' hran).1
    · rw [stepTurns, hcommit]

/-- Two tasks of one owner. -/
def askedLedger : Ledger where
  tasks := ⟨[{ id := 7, requestedBy := "owner", createdAt := 0, updatedAt := 0 },
    { id := 8, requestedBy := "owner", createdAt := 0, updatedAt := 0 }], by decide⟩
  operations := ⟨[{ taskId := 7, spec := { workspace := "/w" }, workerGeneration := 1 },
    { taskId := 8, spec := { workspace := "/w" }, workerGeneration := 1 }], by decide⟩

def askedRun : List TurnAction :=
  [.other askedLedger, .bind 7 "owner" "key" "/w" 3 0, .bind 8 "owner" "key" "/w" 4 1]

theorem conversation_numbering_plain :
    (turnKey (askedRun.foldl (stepTurns plainEnvironment) {}) 8 = some (3, 1, 2) ∧
      relatedTo (askedRun.foldl (stepTurns plainEnvironment) {}) 8 = some 7) ∧
      TurnsNumbered (askedRun.foldl (stepTurns plainEnvironment) {}) :=
  ⟨by decide +kernel, (conversation_numbering
    ⟨{}, askedRun, ⟨rfl, rfl⟩, .of_total (fun _ _ => trivial) _ _⟩).1⟩

end NyanyaAgent.Safety
