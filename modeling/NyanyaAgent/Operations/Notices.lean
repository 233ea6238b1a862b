import NyanyaAgent.Feeds.Receipts
import NyanyaAgent.Operations.Inventory
import NyanyaAgent.Conversation.Context

/-!
# Workflow notices

`workflow_notifications.py`: what a recipient is told of the tasks that wait for it, and the
receipts of what was told, which are events of the ledger.
-/
namespace NyanyaAgent.Operations
open NyanyaAgent.Schema NyanyaAgent.Feeds
open NyanyaAgent.Conversation (statusText)

/-- The libraries: hashing, the JSON texts that are hashed, and the text of an identifier. -/
structure NoticeHost where
  /-- `hashlib.sha256(...).hexdigest()`. -/
  sha256 : String → String
  dumps : List String → String
  dumpsRows : List (TaskId × TaskStatus × ℕ × Option String × Option String × Option DeliveryStatus) →
    String
  idText : TaskId → String

structure Notice where
  text : String
  owner : String
  revision : String
  taskId : TaskId
  source : String := ""
  channelId : String := ""
  deriving DecidableEq

/-- A `workflow.notice_delivered` event. -/
structure Receipt where
  taskId : TaskId
  recipient : String
  revision : String
  deriving DecidableEq

/-- The arguments of `prepare`, and the time of the call. -/
structure NoticeQuery where
  owner : String
  exclude : Option TaskId := none
  source : String := ""
  channelId : String := ""
  now : Time

def recipientText (host : NoticeHost) (owner source channelId : String) : String :=
  if source ≠ "" ∨ channelId ≠ "" then host.dumps [owner, source, channelId] else owner

def ownerDigest (host : NoticeHost) (owner source channelId : String) : String :=
  host.sha256 (recipientText host owner source channelId)

variable (host : NoticeHost) (requests : RequestId → Option (String × String))

/-- `rows`. -/
def noticeRows (q : NoticeQuery) (l : Ledger) : List InventoryRow :=
  (recoveryInventory requests (some q.owner) q.exclude q.now l).filter fun r =>
    r.request.getD ("", "") = (q.source, q.channelId)

/-- What the revision of a notice is made of. -/
def noticeFacts (r : InventoryRow) :
    TaskId × TaskStatus × ℕ × Option String × Option String × Option DeliveryStatus :=
  (r.task.id, r.task.status, r.attempts, r.holdReason, r.diagnosis, r.deliveryStatus)

def noticeRevision (rows : List InventoryRow) : String :=
  host.sha256 (host.dumpsRows (rows.map noticeFacts))

def deliveryInDoubt (r : InventoryRow) : Bool :=
  r.deliveryStatus = some .sending ∨ r.deliveryStatus = some .uncertain

def noticeLine (r : InventoryRow) : String :=
  "- " ++ host.idText r.task.id ++ ": " ++ String.ofList (r.task.title.toList.take 60) ++ " (" ++
    statusText r.task.status ++ (if deliveryInDoubt r then ", 결과 전달 확인 필요" else "") ++ ")"

def noticeText (rows : List InventoryRow) : String :=
  "\n\n확인이 필요한 작업이 " ++ toString rows.length ++ "개 있습니다. 자동 재실행하지 않았습니다.\n" ++
    "\n".intercalate ((rows.take 5).map (noticeLine host)) ++
    "\n작업목록으로 현재 상태를, why 작업ID로 이력을 확인하세요. " ++
    "재진행하지 않을 실패는 dismiss 작업ID, 실행 취소는 cancel 작업ID를 사용하세요." ++
    (if rows.any deliveryInDoubt then
      " 전달 여부가 불확실한 결과의 알림만 종료하려면 ack-delivery 작업ID를 사용하세요. " ++
        "결과 재전송이나 실행 취소는 하지 않습니다."
    else "")

/-- The notice of the rows, whatever the receipts say. -/
def currentNotice (q : NoticeQuery) (l : Ledger) : Option Notice :=
  match noticeRows requests q l with
  | [] => none
  | first :: rest => some {
      text := noticeText host (first :: rest), owner := q.owner
      revision := noticeRevision host (first :: rest), taskId := first.task.id
      source := q.source, channelId := q.channelId }

/-- `previous` and `last`: the revision of the last receipt of a recipient. -/
def lastRevision (receipts : List Receipt) (recipient : String) : Option String :=
  ((receipts.filter fun e => e.recipient = recipient).getLast?).map fun e => e.revision

def prepare (q : NoticeQuery) (l : Ledger) (receipts : List Receipt) : Option Notice :=
  match currentNotice host requests q l with
  | none => none
  | some notice =>
    if lastRevision receipts (ownerDigest host q.owner q.source q.channelId) = some notice.revision
    then none
    else some notice

def noticeReceipt (notice : Notice) : Receipt where
  taskId := notice.taskId
  recipient := ownerDigest host notice.owner notice.source notice.channelId
  revision := notice.revision

def delivered (receipts : List Receipt) (notice : Notice) : List Receipt :=
  if lastRevision receipts (ownerDigest host notice.owner notice.source notice.channelId) =
    some notice.revision then receipts
  else receipts ++ [noticeReceipt host notice]

/-- The senders of notices, over the ledger. -/
def noticeDesk : Desk Ledger NoticeQuery Notice Receipt String String where
  look l q := currentNotice host requests q l
  receipt := noticeReceipt host
  key e := e.recipient
  mark e := e.revision

variable {host requests} {q : NoticeQuery} {l : Ledger} {receipts : List Receipt} {notice : Notice}

theorem currentNotice_eq (h : currentNotice host requests q l = some notice) :
    noticeRows requests q l ≠ [] ∧ notice.text = noticeText host (noticeRows requests q l) ∧
      notice.revision = noticeRevision host (noticeRows requests q l) ∧ notice.owner = q.owner ∧
      notice.source = q.source ∧ notice.channelId = q.channelId := by
  unfold currentNotice at h
  cases hrows : noticeRows requests q l with
  | nil =>
    rw [hrows] at h
    cases h
  | cons first rest =>
    rw [hrows] at h
    cases h
    exact ⟨List.cons_ne_nil _ _, rfl, rfl, rfl, rfl, rfl⟩

theorem currentNotice_some (h : noticeRows requests q l ≠ []) :
    ∃ notice, currentNotice host requests q l = some notice := by
  unfold currentNotice
  cases hrows : noticeRows requests q l with
  | nil => exact absurd hrows h
  | cons first rest => exact ⟨_, rfl⟩

/-- `prepare` is a look at the rows and a check of the receipts. -/
theorem prepare_eq_none (hcurrent : currentNotice host requests q l = some notice) :
    prepare host requests q l receipts = none ↔
      (noticeDesk host requests).Repeats receipts notice := by
  obtain ⟨_, _, _, howner, hsource, hchannel⟩ := currentNotice_eq hcurrent
  have hrepeats : (noticeDesk host requests).Repeats receipts notice ↔
      lastRevision receipts (ownerDigest host q.owner q.source q.channelId) =
        some notice.revision := by
    rw [← howner, ← hsource, ← hchannel]
    exact Iff.rfl
  rw [hrepeats, prepare, hcurrent]
  dsimp only
  split_ifs with h
  · exact iff_of_true rfl h
  · simp [h]

/-- The rows of a notice are open tasks of its recipient. -/
theorem mem_noticeRows {r : InventoryRow} (h : r ∈ noticeRows requests q l) :
    r.task ∈ l.tasks.rows ∧ InventoryScope l (some q.owner) q.exclude r.task ∧
      r.request.getD ("", "") = (q.source, q.channelId) := by
  rw [noticeRows, List.mem_filter, decide_eq_true_eq] at h
  obtain ⟨hmem, hrequest⟩ := h
  simp only [recoveryInventory, List.mem_map, List.mem_filter, List.mem_insertionSort,
    decide_eq_true_eq] at hmem
  obtain ⟨t, ⟨⟨ht, hscope⟩, _⟩, rfl⟩ := hmem
  exact ⟨ht, hscope, hrequest⟩

end NyanyaAgent.Operations
