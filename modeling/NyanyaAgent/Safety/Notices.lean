import NyanyaAgent.Operations.Notices

/-!
# What is told of waiting tasks

Bridges and delivery threads tell a recipient of its waiting tasks while the ledger changes under
them. No recipient is told of a task of someone else, or twice of the same state in a row, and
silence means that it was told.
-/
namespace NyanyaAgent.Safety
open NyanyaAgent.Schema NyanyaAgent.Operations NyanyaAgent.Feeds NyanyaAgent.Runs
open NyanyaAgent.Conversation (statusText deliveryText)

variable {host : NoticeHost} {requests : RequestId → Option (String × String)}
  {b b' : Board Ledger Notice Receipt}

/-- Two texts with one digest, or two lists of rows with one text. -/
def Collision (host : NoticeHost) : Prop :=
  (∃ s s', s ≠ s' ∧ host.sha256 s = host.sha256 s') ∨
    ∃ rows rows', rows ≠ rows' ∧ host.dumpsRows rows = host.dumpsRows rows'

/-- The notice says what waits for the recipient of a query. -/
structure Reports (host : NoticeHost) (requests : RequestId → Option (String × String))
    (q : NoticeQuery) (l : Ledger) (n : Notice) : Prop where
  owner : n.owner = q.owner
  source : n.source = q.source
  channel : n.channelId = q.channelId
  rows : noticeRows requests q l ≠ []
  text : n.text = noticeText host (noticeRows requests q l)
  revision : n.revision = noticeRevision host (noticeRows requests q l)
  waiting : ∀ r ∈ noticeRows requests q l, r.task ∈ l.tasks.rows ∧ taskOwner r.task = n.owner ∧
    r.request.getD ("", "") = (n.source, n.channelId) ∧
    InventoryScope l (some n.owner) q.exclude r.task

/-- The moments of a board: the ledgers it saw. -/
def ledgers (b : Board Ledger Notice Receipt) : List Ledger := b.state :: b.past

/-- What holds of the notices that were sent, and of their receipts. -/
structure NoticesKept (host : NoticeHost) (requests : RequestId → Option (String × String))
    (b : Board Ledger Notice Receipt) : Prop where
  told : ∀ c ∈ b.told, ∃ l ∈ ledgers b, ∃ q, Reports host requests q l c.notice
  recorded : ∀ e ∈ b.receipts, ∃ c ∈ b.told, e = noticeReceipt host c.notice
  apart : ∀ recipient, (b.receipts.filter fun e => e.recipient = recipient).IsChain
    fun e e' => e.revision ≠ e'.revision
  again : ∀ c ∈ b.told, ∀ before e after, b.receipts.take c.seen = before ++ e :: after →
    e.recipient = (noticeReceipt host c.notice).recipient → e.revision = c.notice.revision →
    ∃ e' ∈ after, e'.recipient = e.recipient ∧ e'.revision ≠ e.revision
  silent : ∀ q, noticeRows requests q b.state ≠ [] →
    prepare host requests q b.state b.receipts = none →
    (∃ c ∈ b.told, ∃ l ∈ ledgers b, ∃ q', Reports host requests q' l c.notice ∧
      recipientText host q'.owner q'.source q'.channelId =
        recipientText host q.owner q.source q.channelId ∧
      (noticeRows requests q' l).map noticeFacts =
        (noticeRows requests q b.state).map noticeFacts) ∨ Collision host

theorem reports_of_look {q : NoticeQuery} {l : Ledger} {n : Notice}
    (h : currentNotice host requests q l = some n) : Reports host requests q l n := by
  obtain ⟨hrows, htext, hrevision, howner, hsource, hchannel⟩ := currentNotice_eq h
  refine ⟨howner, hsource, hchannel, hrows, htext, hrevision, fun r hr => ?_⟩
  obtain ⟨hmem, hscope, hrequest⟩ := mem_noticeRows hr
  rw [howner, hsource, hchannel]
  exact ⟨hmem, hscope.2.1 q.owner rfl, hrequest, hscope⟩

theorem eq_or_collision {s s' : String} (h : host.sha256 s = host.sha256 s') :
    s = s' ∨ Collision host := by
  by_cases heq : s = s'
  · exact .inl heq
  · exact .inr (.inl ⟨s, s', heq, h⟩)

/-- One revision is one list of facts. -/
theorem facts_of_revision {rows rows' : List InventoryRow}
    (h : noticeRevision host rows = noticeRevision host rows') :
    rows.map noticeFacts = rows'.map noticeFacts ∨ Collision host := by
  rcases eq_or_collision h with htext | hcollision
  · by_cases heq : rows.map noticeFacts = rows'.map noticeFacts
    · exact .inl heq
    · exact .inr (.inr ⟨_, _, heq, htext⟩)
  · exact .inr hcollision

theorem noticesKept_of_honest (h : (noticeDesk host requests).Honest b) : NoticesKept host requests b := by
  have htold : ∀ c ∈ b.told, ∃ l ∈ ledgers b, ∃ q, Reports host requests q l c.notice := by
    intro c hc
    obtain ⟨l, hl, q, hlook⟩ := (h.told c hc).1
    exact ⟨l, hl, q, reports_of_look hlook⟩
  refine ⟨htold, ?_, h.apart, ?_, ?_⟩
  · intro e he
    obtain ⟨c, hc, heq⟩ := h.recorded e he
    exact ⟨c, hc, heq.symm⟩
  · intro c hc before e after hsplit hkey hmark
    exact (h.told c hc).2.between hsplit hkey hmark
  · intro q hrows hquiet
    obtain ⟨n, hn⟩ := currentNotice_some hrows
    have hreports := reports_of_look hn
    obtain ⟨c, hc, hkey, hmark⟩ := h.repeats_told ((prepare_eq_none hn).mp hquiet)
    obtain ⟨l, hl, q', hreports'⟩ := htold c hc
    have hrecipient : ownerDigest host q'.owner q'.source q'.channelId =
        ownerDigest host q.owner q.source q.channelId := by
      rw [← hreports.owner, ← hreports.source, ← hreports.channel, ← hreports'.owner,
        ← hreports'.source, ← hreports'.channel]
      exact hkey
    have hrevision : noticeRevision host (noticeRows requests q' l) =
        noticeRevision host (noticeRows requests q b.state) := by
      rw [← hreports.revision, ← hreports'.revision]
      exact hmark
    rcases eq_or_collision hrecipient with htext | hcollision
    · rcases facts_of_revision hrevision with hfacts | hcollision
      · exact .inl ⟨c, hc, l, hl, q', hreports', htext, hfacts⟩
      · exact .inr hcollision
    · exact .inr hcollision

/-- However the ledger changes and the senders overtake each other or stop: every notice that was
sent says what waited for its recipient at some moment, and only that; every receipt is of a notice
that was sent; the receipts of a recipient never name one revision twice in a row; a notice that
was checked after a receipt repeats it only if the recipient was told something else in between; and
who is told nothing of the tasks that wait for it was told exactly these, unless digests collide. -/
theorem notices_kept {turns : List (Turn Ledger NoticeQuery)} {l : Ledger}
    (hrun : Run (noticeDesk host requests).step (fun _ _ => True) { state := l } turns b) :
    NoticesKept host requests b :=
  noticesKept_of_honest ((Desk.Honest.init l).run hrun)

section Examples

/-- A digest is the text itself, a line a row. -/
def plainDigests : NoticeHost where
  sha256 := id
  dumps := "\n".intercalate
  dumpsRows rows := "\n".intercalate (rows.map fun r =>
    " ".intercalate [Nat.repr r.1, statusText r.2.1, Nat.repr r.2.2.1, r.2.2.2.1.getD "",
      r.2.2.2.2.1.getD "", (r.2.2.2.2.2.map deliveryText).getD ""])
  idText := Nat.repr

/-- A task that failed. -/
def failedLedger : Ledger where
  tasks := ⟨[{ id := 7, status := .failed, requestedBy := "o", createdAt := 0, updatedAt := 0 }],
    by decide⟩

/-- It is told twice by two senders, with one receipt. -/
def twoSenders : List (Turn Ledger NoticeQuery) :=
  [.look { owner := "o", now := 5 }, .look { owner := "o", now := 6 }, .check 0, .check 0, .send 0,
    .send 0, .record 0, .record 1, .look { owner := "o", now := 7 }, .check 0]

def failedBoard : Board Ledger Notice Receipt := { state := failedLedger }

theorem notices_kept_plain : NoticesKept plainDigests (fun _ => none)
    (twoSenders.foldl (noticeDesk plainDigests fun _ => none).step failedBoard) :=
  notices_kept (Run.of_total (fun _ _ => trivial) twoSenders failedBoard)

example : ((twoSenders.foldl (noticeDesk plainDigests fun _ => none).step failedBoard).told.length,
    (twoSenders.foldl (noticeDesk plainDigests fun _ => none).step failedBoard).receipts.length) =
      (2, 1) := by
  decide +kernel

end Examples
end NyanyaAgent.Safety
