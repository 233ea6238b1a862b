import NyanyaAgent.Runs.Invariant
import Mathlib.Data.List.Pairwise
import Mathlib.Order.Iterate
import Mathlib.Tactic.Cases

/-!
# Numbered feeds

A server queues numbered entries and gives them out from an offset on; a reader raises its
offset with every entry it takes. All that the server learns of the reader is the offset of a
poll: it forgets what lies below. What is assumed of a server is that numbers increase (`Fresh`);
its replies are open but for `Replies`.
-/
namespace NyanyaAgent.Feeds
open NyanyaAgent.Runs

variable {α : Type*}

structure Entry (α : Type*) where
  number : ℕ
  body : α
  deriving DecidableEq

/-- A feed and its reader, with the account of all that was sent and of all that was taken, each
with the start of the reader that took it. -/
structure Feed (α : Type*) where
  sent : List (Entry α) := []
  dropped : ℕ := 0
  expired : ℕ := 0
  offset : ℕ := 0
  batch : List (Entry α) := []
  start : ℕ := 0
  taken : List (ℕ × Entry α) := []
  deriving DecidableEq

inductive Move (α : Type*)
  | arrive (e : Entry α)
  | expire (e : Entry α)
  | poll (reply : List (Entry α))
  | lostPoll
  | take (failed : Bool)
  | restart

namespace Feed

/-- What the server still has: no poll confirmed it, and it was not given up. -/
def queue (s : Feed α) : List (Entry α) :=
  s.sent.filter fun e => decide (s.dropped ≤ e.number ∧ s.expired ≤ e.number)

/-- The server forgets what lies below the offset of a poll. -/
def confirm (s : Feed α) : Feed α := { s with dropped := max s.dropped s.offset }

/-- What is promised of the reply to a poll: queued entries in the order of their arrival, and every
queued one with a lower number than one of them. -/
structure Replies (s : Feed α) (reply : List (Entry α)) : Prop where
  ordered : reply.Sublist s.sent
  queued : ∀ e ∈ reply, e ∈ s.confirm.queue
  lowest : ∀ b ∈ reply, ∀ e ∈ s.confirm.queue, e.number < b.number → e ∈ reply

/-- The reader takes an entry; an error costs it the rest of its batch. -/
def takeEntry (s : Feed α) (failed : Bool) : Feed α :=
  match s.batch with
  | [] => s
  | e :: rest => { s with
      offset := max s.offset (e.number + 1), batch := if failed then [] else rest
      taken := s.taken ++ [(s.start, e)] }

def step (s : Feed α) : Move α → Feed α
  | .arrive e => { s with sent := s.sent ++ [e] }
  | .expire e => { s with expired := max s.expired (e.number + 1) }
  | .poll reply => { s.confirm with batch := reply }
  | .lostPoll => s.confirm
  | .take failed => s.takeEntry failed
  | .restart => { s with offset := 0, batch := [], start := s.start + 1 }

/-- The number lies above all that was sent. -/
def Fresh (s : Feed α) (n : ℕ) : Prop := ∀ d ∈ s.sent, d.number < n

def Legal (s : Feed α) : Move α → Prop
  | .arrive e => s.Fresh e.number
  | .expire e => e ∈ s.sent
  | .poll reply => s.batch = [] ∧ s.Replies reply
  | .lostPoll => s.batch = []
  | .take _ => s.batch ≠ []
  | .restart => True

/-- The order in which entries are taken. -/
def Before (p q : ℕ × Entry α) : Prop := p.1 < q.1 ∨ p.1 = q.1 ∧ p.2.number < q.2.number

/-- The entry was taken, or the server gave it up. -/
def Done (s : Feed α) (e : Entry α) : Prop := (∃ k, (k, e) ∈ s.taken) ∨ e.number < s.expired

/-- What holds of a feed and its reader at every moment. -/
structure Sound (s : Feed α) : Prop where
  sent : s.sent.Pairwise fun d e => d.number < e.number
  reach : ∀ n, s.Fresh n → s.offset ≤ n ∧ s.dropped ≤ n
  batch : s.batch.Sublist s.sent
  ahead : ∀ e ∈ s.batch, s.offset ≤ e.number
  present : ∀ e ∈ s.batch, s.dropped ≤ e.number
  gapless : ∀ b ∈ s.batch, ∀ e ∈ s.sent, s.offset ≤ e.number → e.number < b.number →
    e ∈ s.batch ∨ s.Done e
  behind : ∀ e ∈ s.sent, e.number < s.offset ∨ e.number < s.dropped → s.Done e
  origin : ∀ p ∈ s.taken, p.2 ∈ s.sent ∧ (p.1 < s.start ∨ p.1 = s.start ∧ p.2.number < s.offset)
  order : s.taken.Pairwise Before

variable {s s' : Feed α}

theorem Done.mono {e : Entry α} (h : s.Done e) (ht : s.taken ⊆ s'.taken)
    (hx : s.expired ≤ s'.expired) : s'.Done e := by
  rcases h with ⟨k, hk⟩ | h
  · exact .inl ⟨k, ht hk⟩
  · exact .inr (h.trans_le hx)

theorem Sound.init : Sound ({} : Feed α) := by
  constructor <;> simp

theorem mem_queue {e : Entry α} :
    e ∈ s.queue ↔ e ∈ s.sent ∧ s.dropped ≤ e.number ∧ s.expired ≤ e.number := by
  simp [queue]

namespace Sound

theorem batch_increasing (h : s.Sound) : s.batch.Pairwise fun d e => d.number < e.number :=
  h.sent.sublist h.batch

theorem eq_of_number (h : s.Sound) {d e : Entry α} (hd : d ∈ s.sent) (he : e ∈ s.sent)
    (hn : d.number = e.number) : d = e := by
  have hsent := h.sent
  generalize s.sent = sent at hsent hd he
  induction hsent with
  | nil => cases hd
  | cons hlt _ ih =>
    rcases List.mem_cons.mp hd with rfl | hd'
    · rcases List.mem_cons.mp he with rfl | he'
      · rfl
      · have := hlt e he'
        omega
    · rcases List.mem_cons.mp he with rfl | he'
      · have := hlt d hd'
        omega
      · exact ih hd' he'

theorem arrive (h : s.Sound) {e : Entry α} (he : s.Fresh e.number) :
    (s.step (.arrive e)).Sound where
  sent := by
    refine List.pairwise_append.mpr ⟨h.sent, List.pairwise_singleton _ _, fun d hd e' he' => ?_⟩
    rw [List.mem_singleton.mp he']
    exact he d hd
  reach n hn := h.reach n fun d hd => hn d (List.mem_append_left _ hd)
  batch := h.batch.trans (List.sublist_append_left _ _)
  ahead := h.ahead
  present := h.present
  gapless b hb d hd hoff hlt := by
    rcases List.mem_append.mp hd with hd | hd
    · exact h.gapless b hb d hd hoff hlt
    · rw [List.mem_singleton.mp hd] at hlt
      have := he b (h.batch.subset hb)
      omega
  behind d hd hlt := by
    rcases List.mem_append.mp hd with hd | hd
    · exact h.behind d hd hlt
    · rw [List.mem_singleton.mp hd] at hlt
      have := h.reach _ he
      change e.number < s.offset ∨ e.number < s.dropped at hlt
      omega
  origin p hp := ⟨List.mem_append_left _ (h.origin p hp).1, (h.origin p hp).2⟩
  order := h.order

theorem expire (h : s.Sound) (e : Entry α) : (s.step (.expire e)).Sound where
  sent := h.sent
  reach := h.reach
  batch := h.batch
  ahead := h.ahead
  present := h.present
  gapless b hb d hd hoff hlt := (h.gapless b hb d hd hoff hlt).imp_right fun hdone =>
    hdone.mono (List.Subset.refl _) (Nat.le_max_left _ _)
  behind d hd hlt := (h.behind d hd hlt).mono (List.Subset.refl _) (Nat.le_max_left _ _)
  origin := h.origin
  order := h.order

/-- A poll confirms only what lies behind the reader. -/
theorem confirm (h : s.Sound) (hb : s.batch = []) : s.confirm.Sound where
  sent := h.sent
  reach n hn := ⟨(h.reach n hn).1, max_le (h.reach n hn).2 (h.reach n hn).1⟩
  batch := h.batch
  ahead := h.ahead
  present := by simp [Feed.confirm, hb]
  gapless := by simp [Feed.confirm, hb]
  behind d hd hlt := by
    refine h.behind d hd ?_
    change d.number < s.offset ∨ d.number < max s.dropped s.offset at hlt
    omega
  origin := h.origin
  order := h.order

/-- The reply to a poll has no gap but what is done with. -/
theorem poll (h : s.Sound) (hb : s.batch = []) {reply : List (Entry α)} (hr : s.Replies reply) :
    (s.step (.poll reply)).Sound where
  sent := h.sent
  reach := (h.confirm hb).reach
  batch := hr.ordered
  ahead e he := by
    have hmem := (mem_queue.mp (hr.queued e he)).2.1
    exact (Nat.le_max_right _ _).trans hmem
  present e he := (mem_queue.mp (hr.queued e he)).2.1
  gapless b hb' e he hoff hlt := by
    by_cases hdone : s.confirm.Done e
    · exact .inr hdone
    · have hqueue : e ∈ s.confirm.queue := by
        refine mem_queue.mpr ⟨he, ?_, ?_⟩
        · by_contra hdropped
          exact hdone ((h.confirm hb).behind e he (.inr (Nat.lt_of_not_le hdropped)))
        · by_contra hexpired
          exact hdone (.inr (Nat.lt_of_not_le hexpired))
      exact .inl (hr.lowest b hb' e hqueue hlt)
  behind := (h.confirm hb).behind
  origin := h.origin
  order := h.order

theorem takeEntry (h : s.Sound) {e : Entry α} {rest : List (Entry α)} (hb : s.batch = e :: rest)
    (failed : Bool) : (s.takeEntry failed).Sound := by
  have hincreasing := h.batch_increasing
  rw [hb, List.pairwise_cons] at hincreasing
  have he : e ∈ s.batch := by simp [hb]
  have hoff : s.offset ≤ e.number := h.ahead e he
  have hmax : max s.offset (e.number + 1) = e.number + 1 := by omega
  have htaken : s.takeEntry failed = { s with
      offset := e.number + 1, batch := if failed then [] else rest
      taken := s.taken ++ [(s.start, e)] } := by
    simp [Feed.takeEntry, hb, hmax]
  have hrest : ∀ d ∈ (if failed then [] else rest), d ∈ rest := by
    intro d hd
    cases failed
    · exact hd
    · cases hd
  have hdone : ∀ d, s.Done d → (s.takeEntry failed).Done d := fun d hd =>
    hd.mono (by simp [htaken]) (by simp [htaken])
  have hnow : (s.takeEntry failed).Done e := .inl ⟨s.start, by simp [htaken]⟩
  rw [htaken] at hdone hnow ⊢
  exact {
    sent := h.sent
    reach := fun n hn => ⟨hn e (h.batch.subset he), (h.reach n hn).2⟩
    batch := by
      have hsub := h.batch
      rw [hb] at hsub
      refine List.Sublist.trans ?_ ((List.sublist_cons_self e rest).trans hsub)
      cases failed <;> simp
    ahead := fun d hd => hincreasing.1 d (hrest d hd)
    present := fun d hd => h.present d (by rw [hb]; exact List.mem_cons_of_mem _ (hrest d hd))
    gapless := fun b hb' d hd hlow hlt => by
      have hmem : b ∈ s.batch := by rw [hb]; exact List.mem_cons_of_mem _ (hrest b hb')
      rcases h.gapless b hmem d hd (by change e.number + 1 ≤ d.number at hlow; omega) hlt with
        hbatch | hd'
      · rw [hb] at hbatch
        rcases List.mem_cons.mp hbatch with rfl | hbatch
        · exact .inr hnow
        · cases failed
          · exact .inl hbatch
          · cases hb'
      · exact .inr (hdone d hd')
    behind := fun d hd hlt => by
      change d.number < e.number + 1 ∨ d.number < s.dropped at hlt
      by_cases hbefore : d.number < s.offset ∨ d.number < s.dropped
      · exact hdone d (h.behind d hd hbefore)
      · by_cases heq : d.number = e.number
        · rw [h.eq_of_number hd (h.batch.subset he) heq]
          exact hnow
        · -- the head of the batch is the first entry at or above the offset
          rcases h.gapless e he d hd (by omega) (by omega) with hbatch | hd'
          · rw [hb] at hbatch
            rcases List.mem_cons.mp hbatch with rfl | hbatch
            · exact absurd rfl heq
            · have := hincreasing.1 d hbatch
              omega
          · exact hdone d hd'
    origin := fun p hp => by
      rcases List.mem_append.mp hp with hp | hp
      · have horigin := h.origin p hp
        refine ⟨horigin.1, ?_⟩
        change p.1 < s.start ∨ p.1 = s.start ∧ p.2.number < e.number + 1
        omega
      · rw [List.mem_singleton.mp hp]
        exact ⟨h.batch.subset he, .inr ⟨rfl, Nat.lt_succ_self _⟩⟩
    order := by
      refine List.pairwise_append.mpr ⟨h.order, List.pairwise_singleton _ _, fun p hp q hq => ?_⟩
      rw [List.mem_singleton.mp hq]
      have := (h.origin p hp).2
      change p.1 < s.start ∨ p.1 = s.start ∧ p.2.number < e.number
      omega }

theorem restart (h : s.Sound) : (s.step .restart).Sound where
  sent := h.sent
  reach n hn := ⟨Nat.zero_le _, (h.reach n hn).2⟩
  batch := List.nil_sublist _
  ahead := by simp [Feed.step]
  present := by simp [Feed.step]
  gapless := by simp [Feed.step]
  behind d hd hlt := by
    refine h.behind d hd ?_
    change d.number < 0 ∨ d.number < s.dropped at hlt
    omega
  origin p hp := by
    have horigin := h.origin p hp
    refine ⟨horigin.1, .inl ?_⟩
    change p.1 < s.start + 1
    omega
  order := h.order

theorem step (h : s.Sound) {m : Move α} (hm : s.Legal m) : (s.step m).Sound := by
  cases m with
  | arrive e => exact h.arrive hm
  | expire e => exact h.expire e
  | poll reply => exact h.poll hm.1 hm.2
  | lostPoll => exact h.confirm hm
  | take failed =>
    obtain ⟨e, rest, hb⟩ := List.exists_cons_of_ne_nil hm
    exact h.takeEntry hb failed
  | restart => exact h.restart

theorem run (h : s.Sound) {ms : List (Move α)} (hrun : Run Feed.step Legal s ms s') : s'.Sound :=
  hrun.invariant (I := Sound) (fun _ _ h hm => h.step hm) h

/-- What was sent was taken, or the server gave it up, or it is still queued. -/
theorem taken_or_queued (h : s.Sound) {e : Entry α} (he : e ∈ s.sent) : s.Done e ∨ e ∈ s.queue := by
  by_cases hdone : s.Done e
  · exact .inl hdone
  · refine .inr (mem_queue.mpr ⟨he, ?_, ?_⟩)
    · by_contra hdropped
      exact hdone (h.behind e he (.inr (Nat.lt_of_not_le hdropped)))
    · by_contra hexpired
      exact hdone (.inr (Nat.lt_of_not_le hexpired))

end Sound

/-- What a later feed took besides lies at or above what the server had dropped before, and for
one and the same start of the reader at or above its offset. -/
structure Later (s s' : Feed α) : Prop where
  sent : s.sent <+: s'.sent
  dropped : s.dropped ≤ s'.dropped
  start : s.start ≤ s'.start
  offset : s'.start = s.start → s.offset ≤ s'.offset
  taken : ∃ more, s'.taken = s.taken ++ more ∧ ∀ p ∈ more, s.dropped ≤ p.2.number ∧
    s.start ≤ p.1 ∧ (p.1 = s.start → s.offset ≤ p.2.number)

theorem Later.of_taken (hsent : s.sent <+: s'.sent) (hdropped : s.dropped ≤ s'.dropped)
    (hstart : s.start ≤ s'.start) (hoff : s'.start = s.start → s.offset ≤ s'.offset)
    (ht : s'.taken = s.taken) : Later s s' :=
  ⟨hsent, hdropped, hstart, hoff, [], by simp [ht], by simp⟩

theorem Later.refl (s : Feed α) : Later s s :=
  .of_taken (List.prefix_refl _) le_rfl le_rfl (fun _ => le_rfl) rfl

theorem Later.trans (s₁ s₂ s₃ : Feed α) (h₁ : Later s₁ s₂) (h₂ : Later s₂ s₃) : Later s₁ s₃ where
  sent := h₁.sent.trans h₂.sent
  dropped := h₁.dropped.trans h₂.dropped
  start := h₁.start.trans h₂.start
  offset hs := by
    have hstart₁ := h₁.start
    have hstart₂ := h₂.start
    exact (h₁.offset (by omega)).trans (h₂.offset (by omega))
  taken := by
    obtain ⟨more₁, ht₁, hmore₁⟩ := h₁.taken
    obtain ⟨more₂, ht₂, hmore₂⟩ := h₂.taken
    refine ⟨more₁ ++ more₂, by rw [ht₂, ht₁, List.append_assoc], fun p hp => ?_⟩
    rcases List.mem_append.mp hp with hp | hp
    · exact hmore₁ p hp
    · obtain ⟨hdropped, hstart, hoff⟩ := hmore₂ p hp
      have hstart₁ := h₁.start
      refine ⟨h₁.dropped.trans hdropped, hstart₁.trans hstart, fun hp₁ => ?_⟩
      exact (h₁.offset (by omega)).trans (hoff (by omega))

theorem later_step (h : s.Sound) {m : Move α} (hm : s.Legal m) : Later s (s.step m) := by
  cases m with
  | arrive e => exact .of_taken (List.prefix_append _ _) le_rfl le_rfl (fun _ => le_rfl) rfl
  | expire e => exact .of_taken (List.prefix_refl _) le_rfl le_rfl (fun _ => le_rfl) rfl
  | poll reply | lostPoll =>
    exact .of_taken (List.prefix_refl _) (Nat.le_max_left _ _) le_rfl (fun _ => le_rfl) rfl
  | restart =>
    refine .of_taken (List.prefix_refl _) le_rfl (Nat.le_succ _) (fun hs => ?_) rfl
    change s.start + 1 = s.start at hs
    omega
  | take failed =>
    obtain ⟨e, rest, hb⟩ := List.exists_cons_of_ne_nil hm
    have he : e ∈ s.batch := by simp [hb]
    simp only [Feed.step, Feed.takeEntry, hb]
    refine ⟨List.prefix_refl _, le_rfl, le_rfl, fun _ => Nat.le_max_left _ _, [(s.start, e)], rfl, ?_⟩
    intro p hp
    rw [List.mem_singleton.mp hp]
    exact ⟨h.present e he, le_rfl, fun _ => h.ahead e he⟩

section Turns
variable (fails : Entry α → Bool) (reply : Feed α → List (Entry α))

/-- A turn of a reader that polls when its batch is empty and takes an entry when it is not,
where some entries always fail. -/
def turn (s : Feed α) : Feed α :=
  match s.batch with
  | [] => s.step (.poll (reply s))
  | e :: _ => s.step (.take (fails e))

/-- How many entries lie ahead of the reader. -/
def pending (s : Feed α) : ℕ :=
  (s.sent.filter fun e => decide (s.offset ≤ e.number)).length

/-- Nothing is left to take. -/
def Exhausted (s : Feed α) : Prop := ∀ e ∈ s.sent, s.Done e

/-- A server that replies as it should, and with something while it has something. -/
structure Serves (reply : Feed α → List (Entry α)) : Prop where
  replies : ∀ s : Feed α, s.Sound → s.Replies (reply s)
  answers : ∀ s : Feed α, s.confirm.queue ≠ [] → reply s ≠ []

variable {fails reply}

theorem turn_legal (hr : Serves reply) (h : s.Sound) :
    ∃ m, s.Legal m ∧ turn fails reply s = s.step m := by
  cases hb : s.batch with
  | nil => exact ⟨.poll (reply s), ⟨hb, hr.replies s h⟩, by simp [turn, hb]⟩
  | cons e rest => exact ⟨.take (fails e), by simp [Legal, hb], by simp [turn, hb]⟩

theorem Sound.turned (hr : Serves reply) (h : s.Sound) : (turn fails reply s).Sound := by
  obtain ⟨m, hm, hturn⟩ : ∃ m, s.Legal m ∧ turn fails reply s = s.step m := turn_legal hr h
  rw [hturn]
  exact h.step hm

theorem turn_sent : (turn fails reply s).sent = s.sent := by
  cases hb : s.batch <;> simp [turn, hb, step, confirm, takeEntry]

theorem turn_expired : (turn fails reply s).expired = s.expired := by
  cases hb : s.batch <;> simp [turn, hb, step, confirm, takeEntry]

theorem turn_taken : s.taken ⊆ (turn fails reply s).taken := by
  cases hb : s.batch <;> simp [turn, hb, step, confirm, takeEntry]

theorem Exhausted.turns (h : s.Exhausted) (n : ℕ) : ((turn fails reply)^[n] s).Exhausted := by
  induction n generalizing s with
  | zero => exact h
  | succ n ih =>
    rw [Function.iterate_succ_apply]
    refine ih fun e he => ?_
    rw [turn_sent] at he
    exact (h e he).mono turn_taken turn_expired.ge

variable (fails reply) in
theorem turns_sent (n : ℕ) (s : Feed α) :
    ((turn fails reply)^[n] s).sent = s.sent ∧ ((turn fails reply)^[n] s).expired = s.expired := by
  induction n generalizing s with
  | zero => exact ⟨rfl, rfl⟩
  | succ n ih =>
    rw [Function.iterate_succ_apply, (ih _).1, (ih _).2]
    exact ⟨turn_sent, turn_expired⟩

/-- A poll that returns nothing leaves nothing to take. -/
theorem Sound.exhausted (hr : Serves reply) (h : s.Sound) (hb : s.batch = [])
    (hempty : (turn fails reply s).batch = []) : (turn fails reply s).Exhausted := by
  intro e he
  have hturn : turn fails reply s = s.step (.poll (reply s)) := by simp [turn, hb]
  rw [hturn] at he hempty ⊢
  rcases (h.poll hb (hr.replies s h)).taken_or_queued he with hdone | hqueue
  · exact hdone
  · have hqueue' : e ∈ s.confirm.queue := hqueue
    refine absurd hempty (hr.answers s fun hnil => ?_)
    rw [hnil] at hqueue'
    cases hqueue'

variable (fails reply) in
/-- Taking an entry, failed or not, brings the reader past it. -/
theorem Sound.pending_lt (h : s.Sound) (hb : s.batch ≠ []) :
    (turn fails reply s).pending < s.pending := by
  obtain ⟨e, rest, hcons⟩ := List.exists_cons_of_ne_nil hb
  have he : e ∈ s.batch := by simp [hcons]
  have hoff := h.ahead e he
  have hturn : (turn fails reply s).offset = e.number + 1 := by
    simp only [turn, hcons, Feed.step, Feed.takeEntry]
    omega
  have hahead : s.sent.filter (fun d => decide (e.number + 1 ≤ d.number)) =
      (s.sent.filter fun d => decide (s.offset ≤ d.number)).filter
        fun d => decide (e.number + 1 ≤ d.number) := by
    rw [List.filter_filter]
    apply List.filter_congr
    intro d _
    rw [← Bool.decide_and, decide_eq_decide]
    omega
  rw [pending, pending, turn_sent, hturn, hahead, List.length_filter_lt_length_iff_exists]
  exact ⟨e, List.mem_filter.mpr ⟨h.batch.subset he, decide_eq_true hoff⟩, by simp⟩

variable (fails) in
/-- Whichever entries fail, every entry is taken, or given up by the server, after at most two
turns for each entry ahead and one more: no failing entry holds up the ones behind it. -/
theorem Sound.turns_exhausted (hr : Serves reply) (h : s.Sound) {n : ℕ}
    (hn : 2 * s.pending + 1 ≤ n) : ((turn fails reply)^[n] s).Exhausted := by
  -- a reader with a batch is a turn nearer to the end than one that has to poll
  have hmeasure : ∀ n (s : Feed α), s.Sound →
      2 * s.pending + (if s.batch = [] then 1 else 0) ≤ n → ((turn fails reply)^[n] s).Exhausted := by
    intro n
    induction n with
    | zero =>
      intro s h hn
      have hb : s.batch ≠ [] := by
        intro hb
        simp [hb] at hn
      have := h.pending_lt fails reply hb
      omega
    | succ n ih =>
      intro s h hn
      rw [Function.iterate_succ_apply]
      by_cases hb : s.batch = []
      · by_cases hempty : (turn fails reply s).batch = []
        · exact (h.exhausted hr hb hempty).turns n
        · refine ih _ (h.turned hr) ?_
          have hpending : (turn fails reply s).pending = s.pending := by
            simp [turn, hb, pending, Feed.step, Feed.confirm]
          rw [if_neg hempty, hpending]
          rw [if_pos hb] at hn
          omega
      · refine ih _ (h.turned hr) ?_
        have := h.pending_lt fails reply hb
        split_ifs <;> omega
  refine hmeasure n s h ?_
  split_ifs <;> omega

end Turns
end Feed
end NyanyaAgent.Feeds
