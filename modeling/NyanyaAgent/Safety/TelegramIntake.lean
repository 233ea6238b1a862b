import NyanyaAgent.Bridges.Telegram

/-!
# The intake of the Telegram bridge

Which updates reach the conversation store, how often, and what they may ask of it.
-/
namespace NyanyaAgent.Safety
open NyanyaAgent.Bridges NyanyaAgent.Feeds NyanyaAgent.Runs

/-- What a sender with a key and a conversation may ask of the store. -/
def Permitted (admin : Bool) (owner conversation : List Char) : StoreCall → Prop
  | .cancelAll | .unsetHome _ => admin = true
  | .setHome _ _ setBy => admin = true ∧ setBy = owner
  | .cancelOwner o | .homeText o => o = owner ∨ admin = true
  | .taskStatusText none => admin = true
  | .taskStatusText (some o) => o = owner
  | .control _ o c | .submit o c _ _ => o = owner ∧ c = conversation
  | .reset c | .save c => c = conversation
  | .statusText | .resources => True

/-- A reaction asks for nothing that is not permitted. -/
def Permits (admin : Bool) (owner conversation : List Char) (r : Reaction) : Prop :=
  ∀ call, r = .ask call → Permitted admin owner conversation call

section Reactions
variable {admin : Bool} {owner conversation : List Char}

theorem permits_say (text : List Char) : Permits admin owner conversation (.say text) := by
  intro call hcall
  cases hcall

theorem permits_ask {call : StoreCall} (h : Permitted admin owner conversation call) :
    Permits admin owner conversation (.ask call) := by
  intro call' hcall
  rw [← Reaction.ask.inj hcall]
  exact h

theorem permits_ite {c : Prop} [Decidable c] {r r' : Reaction}
    (h : Permits admin owner conversation r) (h' : Permits admin owner conversation r') :
    Permits admin owner conversation (if c then r else r') := by
  split_ifs
  · exact h
  · exact h'

theorem permits_adminOnly {refusal : String} {r : Reaction}
    (h : admin = true → Permits admin owner conversation r) :
    Permits admin owner conversation (adminOnly admin refusal r) := by
  unfold adminOnly
  split_ifs with hadmin
  · exact h hadmin
  · exact permits_say _

theorem permits_withOwner {target : List Char} {call : List Char → StoreCall}
    (h : ∀ o, Permitted admin owner conversation (call o)) :
    Permits admin owner conversation (withOwner target call) := by
  unfold withOwner
  cases normalizeOwnerKey target "telegram" with
  | ok o => exact permits_ask (h o)
  | error message => exact permits_say _

theorem permits_cancelUser {text : List Char} (hadmin : admin = true) :
    Permits admin owner conversation (cancelUser text) := by
  unfold cancelUser
  split_ifs
  · exact permits_say _
  · exact permits_ask (.inr hadmin)
  · exact permits_ask (.inr hadmin)

theorem permits_setHome {text : List Char} (hadmin : admin = true) :
    Permits admin owner conversation (setHome owner text) := by
  unfold setHome
  split
  · exact permits_withOwner fun _ => ⟨hadmin, rfl⟩
  · exact permits_say _

theorem permits_unsetHome {text : List Char} (hadmin : admin = true) :
    Permits admin owner conversation (unsetHome text) := by
  unfold unsetHome
  split_ifs
  · exact permits_say _
  · exact permits_withOwner fun _ => hadmin

theorem permits_getHome {text : List Char} :
    Permits admin owner conversation (getHome admin owner text) := by
  unfold getHome
  split_ifs
  · exact permits_ask (.inl rfl)
  · exact permits_adminOnly fun hadmin => permits_withOwner fun _ => .inr hadmin

theorem permits_taskStatus {lower : List Char → List Char} {text : List Char} :
    Permits admin owner conversation (taskStatus lower admin owner text) := by
  unfold taskStatus
  split_ifs
  · exact permits_adminOnly fun hadmin => permits_ask hadmin
  · exact permits_ask rfl

theorem permits_providerRequest {text : List Char} {mode : SubmitMode} {usage : String} :
    Permits admin owner conversation (providerRequest owner conversation text mode usage) := by
  unfold providerRequest
  split_ifs
  · exact permits_say _
  · exact permits_ask ⟨rfl, rfl⟩

end Reactions

variable {lower : List Char → List Char}

theorem permits_handleCommand (cfg : Settings) (owner conversation userId text : List Char) :
    Permits (cfg.isOwner userId) owner conversation
      (handleCommand lower cfg owner conversation userId text) := by
  unfold handleCommand
  apply permits_ite
  · exact permits_ask ⟨rfl, rfl⟩
  apply permits_ite
  · exact permits_adminOnly fun hadmin => permits_ask hadmin
  apply permits_ite
  · exact permits_adminOnly permits_cancelUser
  apply permits_ite
  · exact permits_ask (.inl rfl)
  apply permits_ite
  · exact permits_adminOnly permits_setHome
  apply permits_ite
  · exact permits_adminOnly permits_unsetHome
  apply permits_ite
  · exact permits_getHome
  apply permits_ite
  · exact permits_ask rfl
  apply permits_ite
  · exact permits_ask rfl
  apply permits_ite
  · exact permits_say _
  apply permits_ite
  · exact permits_taskStatus
  apply permits_ite
  · exact permits_ask trivial
  apply permits_ite
  · exact permits_providerRequest
  apply permits_ite
  · exact permits_providerRequest
  apply permits_ite
  · exact permits_providerRequest
  apply permits_ite
  · exact permits_ask trivial
  exact permits_ask ⟨rfl, rfl⟩

/-- An update that asks the store for something comes from an allowed sender, who may ask it. -/
theorem handleUpdate_ask {cfg : Settings} {update : Option Update} {call : StoreCall}
    (h : handleUpdate lower cfg update = some (.ask call)) :
    ∃ u, update = some u ∧ cfg.isAllowed u.chatId u.userId = true ∧
      Permitted (cfg.isOwner u.userId) (ownerKey u.userId) (conversationKey u.chatId u.userId)
        call := by
  cases update with
  | none => cases h
  | some u =>
    simp only [handleUpdate] at h
    split_ifs at h with hempty hhelp hallowed
    · cases h
    · exact ⟨u, rfl, hallowed, permits_handleCommand _ _ _ _ _ _ (Option.some.inj h)⟩
    · cases h

section Runs
variable {b b' : Bridge}

/-- Every call was made for an update that was taken, as its settings say. -/
structure Faithful (lower : List Char → List Char) (b : Bridge) : Prop where
  feed : b.feed.Sound
  taken : (b.asked.map fun a => (a.start, a.entry)).Sublist b.feed.taken
  asked : ∀ a ∈ b.asked, handleUpdate lower a.settings a.entry.body = some (.ask a.call)

theorem calls_eq {handling : Handling} {a : Asked} (h : a ∈ b.calls lower handling) :
    b.calls lower handling = [a] ∧ (∃ rest, b.feed.batch = a.entry :: rest) ∧
      a.start = b.feed.start ∧ handleUpdate lower a.settings a.entry.body = some (.ask a.call) := by
  unfold Bridge.calls at h ⊢
  cases hb : b.feed.batch with
  | nil => simp [hb] at h
  | cons e rest =>
    simp only [hb] at h ⊢
    split at h
    · cases h
    · next call hcall =>
      rw [List.mem_singleton.mp h]
      exact ⟨rfl, ⟨rest, rfl⟩, rfl, hcall⟩
    · cases h

theorem Faithful.step (h : Faithful lower b) {event : BridgeEvent} (hl : b.Legal event) :
    Faithful lower (b.step lower event) := by
  have hfeed : (b.step lower event).feed.Sound := h.feed.step hl
  cases event with
  | handle handling =>
    obtain ⟨e, rest, hb⟩ := List.exists_cons_of_ne_nil hl
    refine ⟨hfeed, ?_, fun a ha => ?_⟩
    · have htaken : (b.step lower (.handle handling)).feed.taken =
          b.feed.taken ++ [(b.feed.start, e)] := by
        simp [Bridge.step, BridgeEvent.move, Feed.step, Feed.takeEntry, hb]
      rw [htaken]
      simp only [Bridge.step, List.map_append]
      refine h.taken.append ?_
      cases hcalls : b.calls lower handling with
      | nil => exact List.nil_sublist _
      | cons a as =>
        obtain ⟨heq, ⟨rest', hb'⟩, hstart, _⟩ := calls_eq (a := a) (by rw [hcalls]; simp)
        rw [hcalls] at heq
        rw [heq, List.map_singleton, hstart]
        rw [hb] at hb'
        rw [(List.cons.inj hb').1]
    · rcases List.mem_append.mp ha with ha | ha
      · exact h.asked a ha
      · exact (calls_eq ha).2.2.2
  | arrive e | expire e | poll reply | lostPoll | restart settings =>
    exact ⟨hfeed, h.taken, h.asked⟩

def FreshBridge (b : Bridge) : Prop := b.feed = {} ∧ b.asked = []

theorem reachable_faithful (h : Reachable (Bridge.step lower) Bridge.Legal FreshBridge b) :
    Faithful lower b := by
  refine h.invariant ?_ fun _ _ h hl => h.step hl
  rintro b ⟨hfeed, hasked⟩
  refine ⟨?_, ?_, ?_⟩
  · rw [hfeed]
    exact .init
  · simp [hasked]
  · simp [hasked]

/-- What is true of the calls of a bridge and of the updates that were sent to it. -/
structure Accountable (b : Bridge) : Prop where
  once : b.asked.Pairwise fun a a' => Feed.Before (a.start, a.entry) (a'.start, a'.entry)
  sent : ∀ a ∈ b.asked, a.entry ∈ b.feed.sent
  all : ∀ e ∈ b.feed.sent, b.feed.Done e ∨ e ∈ b.feed.queue

theorem Faithful.accountable (h : Faithful lower b) : Accountable b where
  once := List.pairwise_map.mp (h.feed.order.sublist h.taken)
  sent _ ha := (h.feed.origin _ (h.taken.subset (List.mem_map_of_mem ha))).1
  all _ := h.feed.taken_or_queued

/-- The calls that a later bridge made besides: none for an update that the server had dropped,
and none of the same start for one behind the offset. -/
structure LaterCalls (b b' : Bridge) : Prop where
  feed : Feed.Later b.feed b'.feed
  asked : ∃ more, b'.asked = b.asked ++ more ∧ ∀ a ∈ more, b.feed.dropped ≤ a.entry.number ∧
    b.feed.start ≤ a.start ∧ (a.start = b.feed.start → b.feed.offset ≤ a.entry.number)

theorem LaterCalls.refl (b : Bridge) : LaterCalls b b := ⟨.refl _, [], by simp, by simp⟩

theorem LaterCalls.trans (b₁ b₂ b₃ : Bridge) (h₁ : LaterCalls b₁ b₂) (h₂ : LaterCalls b₂ b₃) :
    LaterCalls b₁ b₃ where
  feed := h₁.feed.trans _ _ _ h₂.feed
  asked := by
    obtain ⟨more₁, hasked₁, hmore₁⟩ := h₁.asked
    obtain ⟨more₂, hasked₂, hmore₂⟩ := h₂.asked
    refine ⟨more₁ ++ more₂, by rw [hasked₂, hasked₁, List.append_assoc], fun a ha => ?_⟩
    rcases List.mem_append.mp ha with ha | ha
    · exact hmore₁ a ha
    · obtain ⟨hdropped, hstart, hoff⟩ := hmore₂ a ha
      have hstart₁ := h₁.feed.start
      refine ⟨h₁.feed.dropped.trans hdropped, hstart₁.trans hstart, fun heq => ?_⟩
      exact (h₁.feed.offset (by omega)).trans (hoff (by omega))

theorem laterCalls_step (h : Faithful lower b) {event : BridgeEvent} (hl : b.Legal event) :
    LaterCalls b (b.step lower event) := by
  have hfeed : Feed.Later b.feed (b.step lower event).feed := Feed.later_step h.feed hl
  cases event with
  | handle handling =>
    refine ⟨hfeed, b.calls lower handling, rfl, fun a ha => ?_⟩
    obtain ⟨_, ⟨rest, hb⟩, hstart, _⟩ := calls_eq ha
    have hmem : a.entry ∈ b.feed.batch := by simp [hb]
    exact ⟨h.feed.present _ hmem, hstart.ge, fun _ => h.feed.ahead _ hmem⟩
  | arrive e | expire e | poll reply | lostPoll | restart settings =>
    exact ⟨hfeed, [], by simp [Bridge.step], by simp⟩

/-- In every run of the bridge while the numbers of updates increase, with any replies that keep what
the server promises, failing polls, failing updates and restarts at any point: one start of the
bridge asks the store at most once about an update, in the order in which they were sent; an
update that was sent was handled, or the server gave it up, or it is still queued; and once the
server has dropped an update no later start handles it again. -/
theorem telegram_intake {events : List BridgeEvent}
    (h : Reachable (Bridge.step lower) Bridge.Legal FreshBridge b)
    (hrun : Run (Bridge.step lower) Bridge.Legal b events b') : Accountable b' ∧ LaterCalls b b' := by
  refine ⟨(reachable_faithful (h.run hrun)).accountable, ?_⟩
  exact hrun.relation (I := Faithful lower) LaterCalls.refl LaterCalls.trans
    (fun _ _ h hl => h.step hl) (fun _ _ h hl => laterCalls_step h hl) (reachable_faithful h)

/-- Whatever becomes of each update, the loop handles every update that a server has which replies
with something while it has something, within two turns for each one ahead and one more: none
holds up the ones behind it. -/
theorem telegram_progress {handling : Entry (Option Update) → Handling}
    {reply : Feed (Option Update) → List (Entry (Option Update))} {n : ℕ}
    (h : Reachable (Bridge.step lower) Bridge.Legal FreshBridge b) (hserves : Feed.Serves reply)
    (hn : 2 * b.feed.pending + 1 ≤ n) :
    ∀ e ∈ b.feed.sent, (∃ k, (k, e) ∈ ((Bridge.turn lower handling reply)^[n] b).feed.taken) ∨
      e.number < b.feed.expired := by
  have hturn : ∀ b : Bridge, (b.turn lower handling reply).feed =
      b.feed.turn (fun e => decide (handling e ≠ .answered)) reply := by
    intro b
    cases hb : b.feed.batch <;> simp [Bridge.turn, Feed.turn, hb, Bridge.step, BridgeEvent.move]
  have hturns : ∀ (n : ℕ) (b : Bridge), ((Bridge.turn lower handling reply)^[n] b).feed =
      (Feed.turn (fun e => decide (handling e ≠ .answered)) reply)^[n] b.feed := by
    intro n
    induction n with
    | zero => exact fun _ => rfl
    | succ n ih =>
      intro b
      rw [Function.iterate_succ_apply, Function.iterate_succ_apply, ih, hturn]
  intro e he
  have hsent := Feed.turns_sent (fun e => decide (handling e ≠ .answered)) reply n b.feed
  have hdone := (reachable_faithful h).feed.turns_exhausted
    (fun e => decide (handling e ≠ .answered)) hserves hn e (by rw [hsent.1]; exact he)
  rw [hturns]
  rw [← hsent.2]
  exact hdone

/-- Whatever arrives and whatever the polls bring, every call of the store was made for an update
of a sender whom the settings allow, under the key and the conversation of that sender; and only
an administrator reaches the tasks or the home of somebody else. -/
theorem telegram_access {a : Asked}
    (h : Reachable (Bridge.step lower) (fun _ _ => True) FreshBridge b) (ha : a ∈ b.asked) :
    ∃ u, a.entry.body = some u ∧ a.settings.isAllowed u.chatId u.userId = true ∧
      Permitted (a.settings.isOwner u.userId) (ownerKey u.userId)
        (conversationKey u.chatId u.userId) a.call := by
  have hasks : ∀ a ∈ b.asked, handleUpdate lower a.settings a.entry.body = some (.ask a.call) := by
    refine h.invariant (I := fun b => ∀ a ∈ b.asked,
      handleUpdate lower a.settings a.entry.body = some (.ask a.call)) ?_ ?_
    · rintro b ⟨_, hasked⟩ a ha
      rw [hasked] at ha
      exact absurd ha List.not_mem_nil
    · intro b event hb _ a ha
      cases event with
      | handle handling =>
        rcases List.mem_append.mp ha with ha | ha
        · exact hb a ha
        · exact (calls_eq ha).2.2.2
      | arrive e | expire e | poll reply | lostPoll | restart settings => exact hb a ha
  exact handleUpdate_ask (hasks a ha)

end Runs

section Examples

/-- A bridge for one user, and an update that it cannot read before one that it can. -/
def plainLower (cs : List Char) : List Char := cs.flatMap Control.lowerChar

def plainSettings : Settings where
  allowedUserIds := [['7']]

def plainUpdate : Entry (Option Update) := ⟨2, some ⟨"tasks".toList, ['1'], ['7']⟩⟩

def plainFed : Bridge :=
  ((({ settings := plainSettings } : Bridge).step plainLower (.arrive ⟨1, none⟩)).step plainLower
    (.arrive plainUpdate)).step plainLower (.poll [⟨1, none⟩, plainUpdate])

def plainHandled : Bridge :=
  (plainFed.step plainLower (.handle .answered)).step plainLower (.handle .raised)

theorem plainFed_reachable : Reachable (Bridge.step plainLower) Bridge.Legal FreshBridge plainFed := by
  have hstart : Reachable (Bridge.step plainLower) Bridge.Legal FreshBridge
      { settings := plainSettings } := .of_init ⟨rfl, rfl⟩
  have hfirst := hstart.step_of (a := .arrive ⟨1, none⟩) (by
    intro d hd
    cases hd)
  have hsecond := hfirst.step_of (a := .arrive plainUpdate) (by
    intro d hd
    rw [List.mem_singleton.mp hd]
    decide)
  refine hsecond.step_of (a := .poll [⟨1, none⟩, plainUpdate]) ?_
  constructor
  · rfl
  · exact ⟨List.Sublist.refl _, by decide, by decide⟩

theorem plainHandled_run : Run (Bridge.step plainLower) Bridge.Legal plainFed
    [.handle .answered, .handle .raised] plainHandled := by
  refine .cons (List.cons_ne_nil _ _) (.cons ?_ (.nil _))
  exact List.cons_ne_nil plainUpdate []

theorem telegram_intake_plain : Accountable plainHandled ∧ LaterCalls plainFed plainHandled :=
  telegram_intake plainFed_reachable plainHandled_run

/-- A server that sends all it has. -/
def wholeQueue (s : Feed (Option Update)) : List (Entry (Option Update)) := s.confirm.queue

theorem wholeQueue_serves : Feed.Serves wholeQueue where
  replies _ _ := ⟨List.filter_sublist, fun _ he => he, fun _ _ _ he _ => he⟩
  answers _ h := h

/-- With every update failing, the second one is handled all the same. -/
theorem telegram_progress_plain :
    (∃ k, (k, plainUpdate) ∈
      ((Bridge.turn plainLower (fun _ => .raised) wholeQueue)^[5] plainFed).feed.taken) ∨
      plainUpdate.number < plainFed.feed.expired :=
  telegram_progress plainFed_reachable wholeQueue_serves (by decide) plainUpdate (by decide)

def plainAsked : Asked := ⟨0, plainUpdate, plainSettings, .taskStatusText (some (ownerKey ['7']))⟩

theorem telegram_access_plain : ∃ u, plainAsked.entry.body = some u ∧
    plainAsked.settings.isAllowed u.chatId u.userId = true ∧
      Permitted (plainAsked.settings.isOwner u.userId) (ownerKey u.userId)
        (conversationKey u.chatId u.userId) plainAsked.call :=
  have h : Reachable (Bridge.step plainLower) (fun _ _ => True) FreshBridge plainHandled :=
    ⟨{ settings := plainSettings }, [.arrive ⟨1, none⟩, .arrive plainUpdate,
      .poll [⟨1, none⟩, plainUpdate], .handle .answered, .handle .raised], ⟨rfl, rfl⟩,
      .of_total (fun _ _ => trivial) _ _⟩
  telegram_access h (by decide +kernel)

end Examples
end NyanyaAgent.Safety
