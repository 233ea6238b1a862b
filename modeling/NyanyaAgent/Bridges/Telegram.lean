import NyanyaAgent.Bridges.Messages
import NyanyaAgent.Control.Intents
import NyanyaAgent.Feeds.Offset

/-!
# The Telegram bridge

`telegram_bridge.py` with the helpers of `bridge_policy.py` and `bridge_runtime.py`: what an
update makes the bridge say or ask of the conversation store, and the loop that polls for them.
-/
namespace NyanyaAgent.Bridges
open NyanyaAgent.Text NyanyaAgent.EnvFile NyanyaAgent.Control NyanyaAgent.Feeds

def cancelCommands : List String := ["취소", "중지", "그만", "cancel", "/cancel", "stop", "/stop"]

def cancelAllCommands : List String :=
  ["전체취소", "모두취소", "cancel_all", "/cancel_all", "stop_all", "/stop_all"]

def cancelUserCommands : List String :=
  ["사용자취소", "/사용자취소", "cancel_user", "/cancel_user", "stop_user", "/stop_user"]

def setHomeCommands : List String := ["set_home", "/set_home", "홈설정", "/홈설정"]

def getHomeCommands : List String := ["home", "/home", "get_home", "/get_home", "홈", "/홈"]

def unsetHomeCommands : List String := ["unset_home", "/unset_home", "홈해제", "/홈해제"]

def helpCommands : List String :=
  ["help", "/help", "commands", "/commands", "명령어", "/명령어", "도움말", "/도움말"]

def reviewedFileCommands : List String :=
  ["plan", "plan-file", "approve", "revoke", "reconcile", "resolve", "open-draft", "draft-show",
    "draft-close", "draft-feedback"]

def taskStatusCommands : List String :=
  ["tasks", "/tasks", "task", "/task", "queue", "/queue", "작업", "/작업", "작업목록", "/작업목록", "대기열",
    "/대기열"]

/-- `text.split(maxsplit=n)`. -/
def splitMax : ℕ → List Char → List (List Char)
  | 0, text => if lstrip pySpace text = [] then [] else [lstrip pySpace text]
  | n + 1, text =>
    if lstrip pySpace text = [] then []
    else
      (lstrip pySpace text).takeWhile (fun c => !pySpace c) ::
        splitMax n ((lstrip pySpace text).dropWhile fun c => !pySpace c)

/-- `text.split(maxsplit=1)[1].strip()`, or nothing. -/
def argument (text : List Char) : List Char :=
  match splitMax 1 text with
  | [_, rest] => strip pySpace rest
  | _ => []

def parseIdSet : Option (List Char) → List (List Char)
  | none => []
  | some value => ((value.splitOn ',').map (strip pySpace)).filter fun item => item ≠ []

def removePrefix (start value : List Char) : List Char :=
  if value.take start.length = start then value.drop start.length else value

def startsWith (start : String) (value : List Char) : Bool :=
  value.take start.toList.length = start.toList

/-- `cleaned.split(":", 1)[1]`, of a text with a colon. -/
def afterColon (cleaned : List Char) : List Char :=
  match splitFirst ':' cleaned with
  | some (_, rest) => rest
  | none => []

def normalizeOwnerKey (target : List Char) (defaultPlatform : String) :
    Except (List Char) (List Char) :=
  let cleaned := strip (fun c => ['<', '>', '@', '!'].any fun d => d = c) (strip pySpace target)
  if startsWith "discord-user:" cleaned || startsWith "telegram-user:" cleaned then .ok cleaned
  else if startsWith "discord:" cleaned then .ok ("discord-user:".toList ++ afterColon cleaned)
  else if startsWith "telegram:" cleaned then .ok ("telegram-user:".toList ++ afterColon cleaned)
  else if ["discord", "telegram"].any fun p => p = defaultPlatform then
    .ok (defaultPlatform.toList ++ "-user:".toList ++ cleaned)
  else .error ("지원하지 않는 플랫폼입니다: ".toList ++ defaultPlatform.toList)

inductive SubmitMode
  | auto | gemini | codex | codexWrite
  deriving DecidableEq

inductive StoreCall
  | control (text owner conversation : List Char)
  | cancelAll
  | cancelOwner (owner : List Char)
  | setHome (target workspace setBy : List Char)
  | unsetHome (target : List Char)
  | homeText (owner : List Char)
  | reset (conversation : List Char)
  | save (conversation : List Char)
  | taskStatusText (owner : Option (List Char))
  | statusText
  | submit (owner conversation prompt : List Char) (mode : SubmitMode)
  | resources
  deriving DecidableEq

/-- What the bridge does about a message: an answer of its own, or a call of the store. -/
inductive Reaction
  | say (text : List Char)
  | ask (call : StoreCall)
  deriving DecidableEq

/-- The settings of the bridge, with the ids that `NYANYA_OWNER_USER_IDS` names. -/
structure Settings where
  allowedChatIds : List (List Char) := []
  allowedUserIds : List (List Char) := []
  allowUnlisted : Bool := false
  ownerUserIds : List (List Char) := []
  provider : List Char := "None".toList
  model : List Char := "None".toList
  deriving DecidableEq

def Settings.isOwner (cfg : Settings) (userId : List Char) : Bool :=
  cfg.ownerUserIds.any fun i => decide (i = userId)

def Settings.isAllowed (cfg : Settings) (chatId userId : List Char) : Bool :=
  if cfg.allowUnlisted then true
  else cfg.allowedChatIds.any (fun i => decide (i = chatId)) ||
    cfg.allowedUserIds.any fun i => decide (i = userId)

def ownerKey (userId : List Char) : List Char := "telegram-user:".toList ++ userId

def conversationKey (chatId userId : List Char) : List Char :=
  "telegram:".toList ++ chatId ++ ":user:".toList ++ userId

section Commands
variable (lower : List Char → List Char)

/-- `command_name`, where `lower` is `str.lower`. -/
def commandName (text : List Char) : List Char :=
  match splitMax 1 text with
  | [] => []
  | word :: _ =>
    match lower word with
    | '/' :: name =>
      match splitFirst '@' name with
      | some (head, _) => '/' :: head
      | none => '/' :: name
    | token => token

def controlText (command text : List Char) : List Char :=
  removePrefix ['/'] command ++
    match splitMax 1 text with
    | [_, rest] => ' ' :: rest
    | _ => []

/-- A command with an owner, who is named as on this platform. -/
def withOwner (target : List Char) (call : List Char → StoreCall) : Reaction :=
  match normalizeOwnerKey target "telegram" with
  | .ok owner => .ask (call owner)
  | .error message => .say message

def setHome (owner text : List Char) : Reaction :=
  match splitMax 2 text with
  | [_, target, workspace] => withOwner target fun t => .setHome t workspace owner
  | _ => .say "사용법: /set_home <user-id> /absolute/workspace/path".toList

def unsetHome (text : List Char) : Reaction :=
  if argument text = [] then
    .say "사용법: /unset_home telegram_user_id 또는 /unset_home discord-user:discord_user_id".toList
  else withOwner (argument text) .unsetHome

def cancelUser (text : List Char) : Reaction :=
  if argument text = [] then
    .say "사용법: 사용자취소 telegram_user_id 또는 사용자취소 telegram-user:telegram_user_id".toList
  else if (argument text).any fun c => c = ':' then .ask (.cancelOwner (argument text))
  else .ask (.cancelOwner (ownerKey (argument text)))

def adminOnly (admin : Bool) (refusal : String) (reaction : Reaction) : Reaction :=
  if admin then reaction else .say refusal.toList

def getHome (admin : Bool) (owner text : List Char) : Reaction :=
  if argument text = [] then .ask (.homeText owner)
  else adminOnly admin "다른 사용자의 홈워크스페이스 조회는 관리자만 사용할 수 있습니다."
    (withOwner (argument text) .homeText)

def taskStatus (admin : Bool) (owner text : List Char) : Reaction :=
  if isOneOf ["all", "전체", "global"] (lower (argument text)) then
    adminOnly admin "전체 작업 목록은 관리자만 조회할 수 있습니다." (.ask (.taskStatusText none))
  else .ask (.taskStatusText (some owner))

def providerRequest (owner conversation text : List Char) (mode : SubmitMode) (usage : String) :
    Reaction :=
  if argument text = [] then .say usage.toList
  else .ask (.submit owner conversation (argument text) mode)

/-- `handle_command`, up to the call of the store. -/
def handleCommand (cfg : Settings) (owner conversation userId text : List Char) : Reaction :=
  let command := commandName lower text
  let admin := cfg.isOwner userId
  if isOneOf reviewedFileCommands (removePrefix ['/'] command) then
    .ask (.control (controlText command text) owner conversation)
  else if isOneOf cancelAllCommands command then
    adminOnly admin "전체 취소는 관리자만 사용할 수 있습니다." (.ask .cancelAll)
  else if isOneOf cancelUserCommands command then
    adminOnly admin "사용자 취소는 관리자만 사용할 수 있습니다." (cancelUser text)
  else if isOneOf cancelCommands command then .ask (.cancelOwner owner)
  else if isOneOf setHomeCommands command then
    adminOnly admin "홈워크스페이스 설정은 관리자만 사용할 수 있습니다." (setHome owner text)
  else if isOneOf unsetHomeCommands command then
    adminOnly admin "홈워크스페이스 해제는 관리자만 사용할 수 있습니다." (unsetHome text)
  else if isOneOf getHomeCommands command then getHome admin owner text
  else if isOneOf ["/reset"] command then .ask (.reset conversation)
  else if isOneOf ["/save"] command then .ask (.save conversation)
  else if isOneOf ["/status"] command then
    .say ("NyaNya bridge is running.\nprovider=".toList ++ cfg.provider ++ "\nmodel=".toList ++
      cfg.model ++ "\n작업 목록: /tasks".toList)
  else if isOneOf taskStatusCommands command then taskStatus lower admin owner text
  else if isOneOf ["/config"] command then .ask .statusText
  else if isOneOf ["/gemini"] command then
    providerRequest owner conversation text .gemini
      "사용법: /gemini Google CLI에 물어볼 내용을 적어주세요."
  else if isOneOf ["/codex"] command then
    providerRequest owner conversation text .codex
      "사용법: /codex 검수하거나 조사할 내용을 적어주세요."
  else if isOneOf ["/codex_work", "/codexwork"] command then
    providerRequest owner conversation text .codexWrite
      "사용법: /codex_work Codex에 맡길 작업을 적어주세요."
  else if isOneOf ["/resources", "/resource", "/리소스"] command then .ask .resources
  else .ask (.submit owner conversation text .auto)

end Commands

def telegramHelpText (chatId userId : List Char) (isAdmin : Bool) : List Char :=
  "NyaNya Telegram 명령어\nchat_id=".toList ++ chatId ++ "\nuser_id=".toList ++ userId ++
    ("\n".intercalate ["", "",
      "도움말 보기:",
      "- `/help`",
      "- `/commands`",
      "- `/명령어`", "",
      "기본 사용:",
      "- `일반 질문`: Flash가 판단하고 Flash/Luna/Astra로 처리",
      "- `/gemini 질문`: Flash 판단 후 Flash로 처리",
      "- `/codex 검수/조사 내용`: Codex CLI 읽기 전용 위임",
      "- `/codex_work 파일 생성/수정 요청`: 새 파일 생성 또는 기존 파일 변경안 검토·승인",
      "- 중요도·영향도·복잡도로 모델을 선택합니다. 임의 shell·브라우저 조작은 지원하지 않습니다.",
      "- `/resources`: CPU/메모리 상위 프로세스 조회",
      "- `/status`: 브리지 실행 상태",
      "- `/tasks`: 내 펜딩/진행/대기 작업 목록",
      "- `/tasks all`: 전체 작업 목록, 관리자 전용",
      "- `/config`: 현재 설정 요약",
      "- `/home`: 내 홈워크스페이스 확인",
      "- `/reset`: 내 대화 컨텍스트 초기화",
      "- `/save`: 내 대화 기록 저장", "",
      "작업 제어:",
      "- `취소`: 내 진행/대기 작업 모두 취소",
      "- `/cancel`: 위와 동일",
      "- 기본 2개 작업을 병렬 처리하며 승인·복구 대기는 별도로 보존합니다.",
      "- `open-draft 초안ID hash`: 계획한 파일 복사·조회 승인 (원본 변경 없음)",
      "- `draft-show 초안ID`: 현재안 / `draft-feedback 초안ID 요청`: 피드백",
      "- `draft-close 초안ID`: 종료 가능한 초안 닫기 (원본·이력 보존)",
      "- `plan 변경안ID`: 파일별 diff / `plan-file 변경안ID 상대경로`: 전체 파일안",
      "- `approve 변경안ID hash`: 승인·적용 / `revoke 변경안ID`: 거절·철회",
      "- `reconcile 변경안ID`: 중단 상태 확인 / `resolve 변경안ID 관측hash`: 확인 처리", ""]).toList ++
    if isAdmin then
      ("\n".intercalate ["",
        "관리자 명령:",
        "- `/set_home <telegram_user_id> <workspace_path_or_alias>`: 사용자 작업 폴더 지정",
        "- `/set_home discord-user:<discord_user_id> <workspace_path_or_alias>`: Discord 사용자 작업 폴더 지정",
        "- `/unset_home <user_id>`: 사용자 홈워크스페이스 설정 해제",
        "- `사용자취소 <user_id>`: 특정 사용자 진행/대기 작업 취소",
        "- `전체취소`: 전체 사용자 작업 취소"]).toList
    else "\n관리자 명령은 등록된 관리자만 사용할 수 있습니다.".toList

/-- The fields of an update that the bridge reads, of its message or edited message. -/
structure Update where
  text : List Char := []
  chatId : List Char := []
  userId : List Char := []
  deriving DecidableEq

def notListedText (chatId userId : List Char) : List Char :=
  "이 채팅은 아직 NyaNya 허용 목록에 없습니다.\nNYANYA_TELEGRAM_ALLOWED_CHAT_IDS=".toList ++ chatId ++
    "\nNYANYA_TELEGRAM_ALLOWED_USER_IDS=".toList ++ userId ++
    "\n위 값 중 하나를 .env에 추가한 뒤 브리지를 다시 시작하세요.".toList

/-- `handle_update`, up to the call of the store; `none` when the update is passed over. -/
def handleUpdate (lower : List Char → List Char) (cfg : Settings) (update : Option Update) :
    Option Reaction :=
  match update with
  | none => none
  | some u =>
    let text := strip pySpace u.text
    if text = [] then none
    else if isOneOf ["/start"] (commandName lower text) ||
        isOneOf helpCommands (commandName lower text) then
      some (.say (telegramHelpText u.chatId u.userId (cfg.isOwner u.userId)))
    else if ¬ cfg.isAllowed u.chatId u.userId then some (.say (notListedText u.chatId u.userId))
    else some (handleCommand lower cfg (ownerKey u.userId) (conversationKey u.chatId u.userId)
      u.userId text)

/-- How `handle_update` ends: an update of another shape raises before the store is asked, the
store and the answer may raise after it. -/
inductive Handling
  | answered
  | raised
  | malformed
  deriving DecidableEq

/-- A call of the store, with the start of the bridge and the settings that it was made under. -/
structure Asked where
  start : ℕ
  entry : Entry (Option Update)
  settings : Settings
  call : StoreCall
  deriving DecidableEq

/-- The updates of the server, the loop of `run` and the calls that it made. -/
structure Bridge where
  settings : Settings := {}
  feed : Feed (Option Update) := {}
  asked : List Asked := []
  deriving DecidableEq

inductive BridgeEvent
  | arrive (e : Entry (Option Update))
  | expire (e : Entry (Option Update))
  | poll (reply : List (Entry (Option Update)))
  | lostPoll
  | handle (handling : Handling)
  | restart (settings : Settings)

/-- The part of an event that is about the feed: `self.offset` is raised before the update is
handled, and an exception leaves the loop over the batch. -/
def BridgeEvent.move : BridgeEvent → Move (Option Update)
  | .arrive e => .arrive e
  | .expire e => .expire e
  | .poll reply => .poll reply
  | .lostPoll => .lostPoll
  | .handle handling => .take (decide (handling ≠ .answered))
  | .restart _ => .restart

namespace Bridge
variable (lower : List Char → List Char)

def calls (b : Bridge) (handling : Handling) : List Asked :=
  match b.feed.batch with
  | [] => []
  | e :: _ =>
    match handling, handleUpdate lower b.settings e.body with
    | .malformed, _ => []
    | _, some (.ask call) => [⟨b.feed.start, e, b.settings, call⟩]
    | _, _ => []

def step (b : Bridge) (event : BridgeEvent) : Bridge where
  settings :=
    match event with
    | .restart settings => settings
    | _ => b.settings
  feed := b.feed.step event.move
  asked :=
    match event with
    | .handle handling => b.asked ++ b.calls lower handling
    | _ => b.asked

def Legal (b : Bridge) (event : BridgeEvent) : Prop := b.feed.Legal event.move

/-- A turn of the loop of `run`, where each update has its own way to end. -/
def turn (handling : Entry (Option Update) → Handling)
    (reply : Feed (Option Update) → List (Entry (Option Update))) (b : Bridge) : Bridge :=
  match b.feed.batch with
  | [] => b.step lower (.poll (reply b.feed))
  | e :: _ => b.step lower (.handle (handling e))

end Bridge
end NyanyaAgent.Bridges
