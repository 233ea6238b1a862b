import NyanyaAgent.Invariants.Results
import NyanyaAgent.System.Delivery
import NyanyaAgent.System.Invariant

/-!
# Results are delivered at most once

A result is sent only by the watcher that moved it out of `pending`, which no step of
the world undoes.
-/
namespace NyanyaAgent.Safety
open NyanyaAgent.Schema NyanyaAgent.Relational NyanyaAgent.Operations NyanyaAgent.Lifecycle
open NyanyaAgent.Runs NyanyaAgent.Invariants NyanyaAgent.System

variable {env : Environment} {l l' : Ledger} {x : ExecutionId} {d : Delivery} {n : ℕ} {w : Watcher}

/-- The result has been claimed for sending. -/
def Taken (l : Ledger) (x : ExecutionId) : Prop :=
  ∃ r, l.results.get? x = some r ∧ r.deliveryStatus ≠ .pending

theorem Taken.kept (h : Taken l x) (hm : ResultMoves l l') : Taken l' x := by
  obtain ⟨r, hr, hs⟩ := h
  obtain ⟨r', hr', hmove⟩ := hm x r hr
  refine ⟨r', hr', ?_⟩
  rcases hmove with heq | hmem
  · exact heq ▸ hs
  · intro hp
    rw [hp] at hmem
    generalize r.deliveryStatus = s at hmem
    cases s <;> simp [deliveryMoves] at hmem

/-- The results sent so far. -/
def Delivery.sentResults (d : Delivery) : List ExecutionId := d.sent.map Prod.fst

/-- Every result sent or about to be sent was taken, and has one sender. -/
structure OnceSent (d : Delivery) : Prop where
  sent : (Delivery.sentResults d).Nodup
  left : ∀ x ∈ Delivery.sentResults d, Taken d.world.ledger x
  held : ∀ (n : ℕ) (w : Watcher) x text, d.watchers[n]? = some w → w.stage = .claimed x text →
    Taken d.world.ledger x ∧ x ∉ Delivery.sentResults d
  alone : ∀ (n m : ℕ) (w w' : Watcher) x text text', d.watchers[n]? = some w →
    d.watchers[m]? = some w' → w.stage = .claimed x text → w'.stage = .claimed x text' → n = m

theorem OnceSent.world (h : OnceSent d) {v : World} (hm : ResultMoves d.world.ledger v.ledger) :
    OnceSent { d with world := v } :=
  ⟨h.sent, fun x hx => (h.left x hx).kept hm,
    fun n w x text hw hs => ⟨(h.held n w x text hw hs).1.kept hm, (h.held n w x text hw hs).2⟩,
    h.alone⟩

theorem getElem?_set_watcher {ws : List Watcher} {m : ℕ} {v u : Watcher}
    (h : (ws.set n v)[m]? = some u) : m = n ∧ u = v ∨ m ≠ n ∧ ws[m]? = some u := by
  by_cases hm : m = n
  · subst hm
    rw [List.getElem?_set_self', Option.map_eq_map, Option.map_eq_some_iff] at h
    obtain ⟨_, _, rfl⟩ := h
    exact .inl ⟨rfl, rfl⟩
  · rw [List.getElem?_set_ne (Ne.symm hm)] at h
    exact .inr ⟨hm, h⟩

/-- A watcher moves to a stage that is no claim of its own. -/
theorem OnceSent.restage (h : OnceSent d) {s : WatchStage} (hs : ∀ x text, s ≠ .claimed x text) :
    OnceSent (d.restage n w s) where
  sent := h.sent
  left := h.left
  held m u x text hu hstage := by
    rcases getElem?_set_watcher hu with ⟨_, rfl⟩ | ⟨_, hu⟩
    · exact absurd hstage (hs x text)
    · exact h.held m u x text hu hstage
  alone m m' u u' x text text' hu hu' hstage hstage' := by
    rcases getElem?_set_watcher hu with ⟨_, rfl⟩ | ⟨_, hu⟩
    · exact absurd hstage (hs x text)
    · rcases getElem?_set_watcher hu' with ⟨_, rfl⟩ | ⟨_, hu'⟩
      · exact absurd hstage' (hs x text')
      · exact h.alone m m' u u' x text text' hu hu' hstage hstage'

/-- A watcher takes a result nobody had taken. -/
theorem OnceSent.claim (h : OnceSent d) {v : World} {text : String}
    (hm : ResultMoves d.world.ledger v.ledger) (hold : ¬ Taken d.world.ledger x)
    (hnew : Taken v.ledger x) : OnceSent { d.restage n w (.claimed x text) with world := v } where
  sent := h.sent
  left y hy := (h.left y hy).kept hm
  held m u y _ hu hstage := by
    rcases getElem?_set_watcher hu with ⟨_, rfl⟩ | ⟨_, hu⟩
    · obtain ⟨rfl, _⟩ := WatchStage.claimed.inj hstage
      exact ⟨hnew, fun hx => hold (h.left x hx)⟩
    · obtain ⟨htaken, hsent⟩ := h.held m u y _ hu hstage
      exact ⟨htaken.kept hm, hsent⟩
  alone m m' u u' y _ _ hu hu' hstage hstage' := by
    rcases getElem?_set_watcher hu with ⟨hmn, rfl⟩ | ⟨_, hu⟩ <;>
      rcases getElem?_set_watcher hu' with ⟨hmn', rfl⟩ | ⟨_, hu'⟩
    · rw [hmn, hmn']
    · obtain ⟨rfl, _⟩ := WatchStage.claimed.inj hstage
      exact absurd (h.held m' u' x _ hu' hstage').1 hold
    · obtain ⟨rfl, _⟩ := WatchStage.claimed.inj hstage'
      exact absurd (h.held m u x _ hu hstage).1 hold
    · exact h.alone m m' u u' y _ _ hu hu' hstage hstage'

/-- The sender calls the responder, and stops holding the result. -/
theorem OnceSent.respond (h : OnceSent d) {text : String} {error : Option String}
    (hw : d.watchers[n]? = some w) (hstage : w.stage = .claimed x text) :
    OnceSent { d.restage n w (.responded x error) with sent := d.sent ++ [(x, text)] } := by
  obtain ⟨htaken, hsent⟩ := h.held n w x text hw hstage
  have hall : ∀ y, y ∈ (d.sent ++ [(x, text)]).map Prod.fst → y ∈ Delivery.sentResults d ∨ y = x := by
    intro y hy
    simpa [Delivery.sentResults] using hy
  refine ⟨?_, ?_, ?_, ?_⟩
  · have hnodup : (Delivery.sentResults d ++ [x]).Nodup :=
      List.nodup_append.mpr ⟨h.sent, List.nodup_singleton x, by simp; rintro a ha rfl; exact hsent ha⟩
    simpa [Delivery.sentResults] using hnodup
  · intro y hy
    rcases hall y hy with hy | rfl
    · exact h.left y hy
    · exact htaken
  · intro m u y text' hu hclaimed
    rcases getElem?_set_watcher hu with ⟨_, rfl⟩ | ⟨hm, hold⟩
    · cases hclaimed
    · obtain ⟨htaken', hsent'⟩ := h.held m u y text' hold hclaimed
      refine ⟨htaken', fun hy => ?_⟩
      rcases hall y hy with hy | rfl
      · exact hsent' hy
      · exact hm (h.alone m n u w y text' text hold hw hclaimed hstage)
  · exact (h.restage (by simp)).alone

theorem pollStage_ne_claimed {l : Ledger} {notice text : String} :
    pollStage l w notice ≠ .claimed x text := by
  intro h
  unfold pollStage at h
  repeat' split at h
  all_goals cases h

/-- The result that `claim_delivery` takes was pending, current and of this attempt. -/
theorem claimDelivery_taken {k : TaskId} {owner : String} {attempt : ℕ} {now : Time}
    (h : Tx.Ran (claimDelivery k owner x attempt now) l true l') :
    (∃ r, l.results.get? x = some r ∧ Sendable l k owner x attempt r) ∧ Taken l' x := by
  unfold claimDelivery at h
  simp only [Tx.ran_select_bind, Tx.ran_write_bind, Tx.ran_pure] at h
  obtain ⟨hfound, rfl⟩ := h
  obtain ⟨r, hr, hsend⟩ := of_decide_eq_true hfound.symm
  have hget : l.results.get? x = some r := Table.get?_eq_some.mpr ⟨hr, hsend.1⟩
  refine ⟨⟨r, hget, hsend⟩, ?_⟩
  refine ⟨_, by rw [Table.get?_update, hget, Option.map_some, if_pos hsend], by simp⟩

theorem not_taken_of_sendable {k : TaskId} {owner : String} {attempt : ℕ} {r : TaskResult}
    (hr : l.results.get? x = some r) (h : Sendable l k owner x attempt r) : ¬ Taken l x := by
  rintro ⟨r', hr', hs⟩
  obtain rfl : r = r' := Option.some.inj (hr.symm.trans hr')
  exact hs h.2.1

theorem committed_moves {k : TaskId} {owner : String} {attempt : ℕ} {now : Time}
    {answer : Except Err Bool} (h : Tx.commit (claimDelivery k owner x attempt now) l = (answer, l')) :
    ResultMoves l l' := by
  cases answer with
  | ok b => exact claimDelivery_moves (Tx.commit_ok.mp h)
  | error e => exact .of_eq (by rw [Tx.commit_error h])

/-- A step of a watcher keeps the senders apart, and moves results along their path. -/
theorem OnceSent.stepWatcher (h : OnceSent d) (hw : d.watchers[n]? = some w) (a : DeliveryAction) :
    OnceSent (stepWatcher d n w a) := by
  cases a with
  | act | watch => exact h
  | poll m notice =>
    simp only [System.stepWatcher]
    split
    · exact h.restage fun x text => pollStage_ne_claimed
    · exact h
  | claim m =>
    simp only [System.stepWatcher]
    split
    · next x text _ =>
      split
      · next l' hcommit =>
        have hran := Tx.commit_ok.mp hcommit
        obtain ⟨⟨r, hr, hsend⟩, htaken⟩ := claimDelivery_taken hran
        exact h.claim (claimDelivery_moves hran) (not_taken_of_sendable hr hsend) htaken
      · next result l' _ hcommit =>
        exact (h.restage (by simp)).world (committed_moves hcommit)
    · exact h
  | respond m error =>
    simp only [System.stepWatcher]
    split
    · next x text hstage => exact h.respond hw hstage
    · exact h
  | settle m =>
    simp only [System.stepWatcher]
    split
    · exact (h.restage (by simp)).world (settleDelivery_moves _ _ _ _ _)
    · exact h
  | crash => exact h.restage (by simp)

theorem stepWatcher_results (a : DeliveryAction) :
    ResultMoves d.world.ledger (stepWatcher d n w a).world.ledger := by
  cases a with
  | claim m =>
    simp only [System.stepWatcher]
    split
    · split
      · next hcommit => exact committed_moves hcommit
      · next hcommit => exact committed_moves hcommit
    · exact .of_eq rfl
  | settle m =>
    simp only [System.stepWatcher]
    split
    · exact settleDelivery_moves _ _ _ _ _
    · exact .of_eq rfl
  | poll | respond =>
    simp only [System.stepWatcher]
    split <;> exact .of_eq rfl
  | act | watch | crash => exact .of_eq rfl

/-- A watcher is started, or one takes a step, or nothing happens. -/
theorem stepDelivery_cases (env : Environment) (d : Delivery) (a : DeliveryAction) :
    (∃ b, stepDelivery env d a = { d with world := step env d.world b }) ∨
      (∃ k owner attempt, stepDelivery env d a =
        { d with watchers := d.watchers ++ [{ taskId := k, owner, attempt }] }) ∨
      (∃ (n : ℕ) (w : Watcher), d.watchers[n]? = some w ∧
        stepDelivery env d a = stepWatcher d n w a) ∨ stepDelivery env d a = d := by
  cases a with
  | act b => exact .inl ⟨b, rfl⟩
  | watch k owner attempt =>
    cases attempt with
    | some m => exact .inr (.inl ⟨k, owner, m, rfl⟩)
    | none =>
      simp only [stepDelivery]
      split
      · exact .inr (.inl ⟨k, owner, _, rfl⟩)
      · exact .inr (.inr (.inr rfl))
  | poll n | claim n | respond n | settle n | crash n =>
    simp only [stepDelivery]
    cases hw : d.watchers[n]? with
    | some w => exact .inr (.inr (.inl ⟨n, w, hw, rfl⟩))
    | none => exact .inr (.inr (.inr rfl))

theorem OnceSent.watch (h : OnceSent d) {v : Watcher} (hv : v.stage = .polling) :
    OnceSent { d with watchers := d.watchers ++ [v] } := by
  have hold : ∀ (m : ℕ) (u : Watcher) x text, (d.watchers ++ [v])[m]? = some u →
      u.stage = .claimed x text → d.watchers[m]? = some u := by
    intro m u x text hu hstage
    rw [List.getElem?_append] at hu
    split_ifs at hu
    · exact hu
    · rw [List.getElem?_singleton] at hu
      split_ifs at hu
      obtain rfl := Option.some.inj hu
      rw [hv] at hstage
      cases hstage
  refine ⟨h.sent, h.left, ?_, ?_⟩
  · intro m u x text hu hstage
    exact h.held m u x text (hold m u x text hu hstage) hstage
  · intro m m' u u' x text text' hu hu' hstage hstage'
    exact h.alone m m' u u' x text text' (hold m u x text hu hstage)
      (hold m' u' x text' hu' hstage') hstage hstage'

theorem OnceSent.kept (h : OnceSent d) (a : DeliveryAction) : OnceSent (stepDelivery env d a) := by
  rcases stepDelivery_cases env d a with
    ⟨b, heq⟩ | ⟨k, owner, m, heq⟩ | ⟨n, w, hw, heq⟩ | heq <;> rw [heq]
  · exact h.world (action_results d.world b)
  · exact h.watch rfl
  · exact h.stepWatcher hw a
  · exact h

theorem OnceSent.of_start (v : World) : OnceSent { world := v } :=
  ⟨List.nodup_nil, by simp [Delivery.sentResults], by simp, by simp⟩

theorem delivery_results (d : Delivery) (a : DeliveryAction) :
    ResultMoves d.world.ledger (stepDelivery env d a).world.ledger := by
  rcases stepDelivery_cases env d a with ⟨b, heq⟩ | ⟨_, _, _, heq⟩ | ⟨n, w, _, heq⟩ | heq <;> rw [heq]
  · exact action_results d.world b
  · exact .of_eq rfl
  · exact stepWatcher_results a
  · exact .of_eq rfl

theorem settleDelivery_acknowledged {delivered : Bool} {error : String} {now : Time}
    {r : TaskResult} (hr : l.results.get? x = some r) (hs : r.deliveryStatus = .acknowledged) :
    settleDelivery x delivered error now l = l := by
  have hnone : ∀ s ∈ l.results.rows, ¬ (s.executionId = x ∧ s.deliveryStatus = .sending) := by
    rintro s hmem ⟨hx, hsending⟩
    obtain rfl : s = r := Option.some.inj ((Table.get?_eq_some.mpr ⟨hmem, hx⟩).symm.trans hr)
    rw [hs] at hsending
    cases hsending
  unfold settleDelivery
  rw [Table.update_eq_self hnone]

theorem resume_delivery {reg : Registry} {k : TaskId} {owner : String} {generation : WorkerId}
    {now : Time} {u : Unit} (h : Tx.Ran (resume env reg k owner generation now) l u l') :
    ∃ t, l.tasks.get? k = some t ∧ ¬ AmbiguousDelivery l t := by
  unfold resume at h
  simp only [Tx.ran_select_bind, Tx.ran_demand_bind, Tx.ran_require_bind,
    decide_eq_false_iff_not, Option.filter_eq_some_iff] at h
  obtain ⟨_, _, t, ht, hclear, _⟩ := h
  exact ⟨t, ht.1, hclear⟩

/-- The responder is called at most once for a result, and its delivery status only moves
forward; a settlement after an acknowledgement changes nothing, a result is claimed for
sending only while it is the current one of the watcher's attempt, and no resumption
commits while it is ambiguous. -/
theorem result_delivery (env : Environment) :
    (∀ w as d, Run (stepDelivery env) (fun _ _ => True) { world := w } as d →
      (Delivery.sentResults d).Nodup) ∧
    (∀ d a, ResultMoves d.world.ledger (stepDelivery env d a).world.ledger) ∧
    (∀ l x delivered error now r, l.results.get? x = some r → r.deliveryStatus = .acknowledged →
      settleDelivery x delivered error now l = l) ∧
    (∀ l k owner x attempt now l', Tx.Ran (claimDelivery k owner x attempt now) l true l' →
      ∃ r t o, l.results.get? x = some r ∧ r.deliveryStatus = .pending ∧
        l.tasks.get? k = some t ∧ t.requestedBy = owner ∧ t.currentExecutionId = some x ∧
        l.operations.get? k = some o ∧ o.attempts = attempt ∧
        deliverable r.outcome t.status = true) ∧
    (∀ l reg k owner generation now u l', Tx.Ran (resume env reg k owner generation now) l u l' →
      ∃ t, l.tasks.get? k = some t ∧ ∀ x r, t.currentExecutionId = some x →
        l.results.get? x = some r → r.deliveryStatus ≠ .sending ∧ r.deliveryStatus ≠ .uncertain) := by
  refine ⟨?_, delivery_results, ?_, ?_, ?_⟩
  · intro w as d hrun
    exact (hrun.invariant (fun _ a h _ => h.kept a) (OnceSent.of_start w)).sent
  · intro l x delivered error now r
    exact settleDelivery_acknowledged
  · intro l k owner x attempt now l' hran
    obtain ⟨⟨r, hr, _, hpending, t, ht, rfl, howner, hcurrent, o, ho, hot, hattempts, hout⟩, _⟩ :=
      claimDelivery_taken hran
    exact ⟨r, t, o, hr, hpending, Table.mem_rows_iff.mp ht, howner, hcurrent,
      Table.get?_eq_some.mpr ⟨ho, hot⟩, hattempts, hout⟩
  · intro l reg k owner generation now u l' hran
    obtain ⟨t, ht, hclear⟩ := resume_delivery hran
    refine ⟨t, ht, fun x r hx hr => ?_⟩
    have hmem := Table.get?_eq_some.mp hr
    constructor
    · exact fun hs => hclear ⟨r, hmem.1, hmem.2 ▸ hx, .inl hs⟩
    · exact fun hs => hclear ⟨r, hmem.1, hmem.2 ▸ hx, .inr hs⟩

/-- The worker closes before the request starts; the diagnosis saved for it is delivered. -/
def plainDeliveryRun : List DeliveryAction :=
  [.act (.command (.registerWorker 1)),
    .act (.command (.submit plainRegistry { workspace := "/w" } "owner" 1 none none none 7 3)),
    .act (.command (.heartbeat 1 true)), .act (.command (.recover 0)),
    .act (.command (.recordStartFailure 7 "owner" "no provider" 9 0)),
    .watch 7 "owner" none, .watch 7 "owner" none, .poll 0 "", .poll 1 "", .claim 0, .claim 1,
    .respond 0 none, .respond 1 none, .settle 0]

def plainDelivered : Delivery :=
  plainDeliveryRun.foldl (stepDelivery plainEnvironment) { world := plainWorld }

theorem result_delivery_plain :
    (Delivery.sentResults plainDelivered).Nodup ∧ Delivery.sentResults plainDelivered = [9] :=
  ⟨(result_delivery plainEnvironment).1 plainWorld plainDeliveryRun plainDelivered
    (.of_total (fun _ _ => trivial) _ _), by decide +kernel⟩

end NyanyaAgent.Safety
