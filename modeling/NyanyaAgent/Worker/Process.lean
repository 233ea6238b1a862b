import Mathlib.Logic.Relation
import NyanyaAgent.Schema.Rows

/-!
# Owned processes

`process_runner.py` on POSIX: a command runs in a group of its own until it ends, is cancelled,
is late or writes too much. What the system does between two calls comes from a `Host`.
-/
namespace NyanyaAgent.Worker
open NyanyaAgent.Schema

def maxOutputBytes : ℕ := 4000000

/-- The process that leads the group: running, ended, or ended and waited for. -/
inductive Leader
  | running
  | exited (code : ℤ)
  | reaped (code : ℤ)
  deriving DecidableEq

/-- The rest of the group; a doomed group was killed as a whole. -/
inductive Members
  | empty | live | doomed
  deriving DecidableEq

structure Processes where
  leader : Leader := .running
  group : Members := .empty
  deriving DecidableEq

def Leader.Reaped : Leader → Prop
  | .reaped _ => True
  | _ => False

/-- What the system may do between two calls: the leader ends, once; nobody starts a process in
a group that was killed, or that has nobody left. -/
structure Drift (w w' : Processes) : Prop where
  leader : w'.leader = w.leader ∨ w.leader = .running ∧ ∃ code, w'.leader = .exited code
  doomed : w.group = .doomed → w'.group = .doomed
  empty : w.group = .empty → w.leader ≠ .running → w'.group = .empty

inductive FileState
  | absent
  | fault
  | found (regular : Bool) (links size : ℕ)
  deriving DecidableEq

/-- The answers of the system, one for each moment. -/
structure Host where
  drift : ℕ → Processes → Processes
  lawful : ∀ n w, Drift w (drift n w)
  /-- A signal to the group raises `PermissionError`. -/
  denied : ℕ → Bool
  resultFile : ℕ → FileState
  cancelled : ℕ → Bool
  /-- `time.monotonic() >= deadline`. -/
  late : ℕ → Bool
  output : ℕ → List UInt8
  errors : ℕ → List UInt8

structure Moment where
  tick : ℕ := 0
  processes : Processes := {}
  deriving DecidableEq

inductive Raised
  | outcome (value : TaskOutcome)
  | permissionError
  deriving DecidableEq

structure CommandOutput where
  returncode : ℤ
  output : List UInt8
  errors : List UInt8
  deriving DecidableEq

def blocked (text : String) : Raised := .outcome ⟨.blocked, text⟩

def fileFault : Raised := blocked "모델 최종 응답 파일을 안전하게 확인하지 못했습니다."

def fileRefused : Raised := blocked "모델 최종 응답 파일이 안전한 형식 또는 크기 제한을 벗어났습니다."

def outputRefused : Raised := blocked "모델 출력이 제한을 초과했습니다. 요청 범위를 줄여주세요."

def outputTooLarge : Raised := blocked "모델 출력이 제한을 초과했습니다."

def noPermission : Raised := blocked "프로세스 종료 권한이 없어 종료 확인이 필요합니다."

def unconfirmed : Raised := blocked "프로세스 종료를 확인하지 못했습니다. 재실행하지 마세요."

def checkResultFile : FileState → Except Raised Unit
  | .absent => .ok ()
  | .fault => .error fileFault
  | .found regular links size =>
    if ¬ regular ∨ links ≠ 1 ∨ maxOutputBytes < size then .error fileRefused else .ok ()

inductive Signal
  | term | kill
  deriving DecidableEq

namespace Processes

/-- To wait for the leader: the code of one that has ended. -/
def wait (w : Processes) : Option ℤ × Processes :=
  match w.leader with
  | .running => (none, w)
  | .exited code | .reaped code => (some code, { w with leader := .reaped code })

/-- A signal to the group; one that ends the leader or the others takes effect later. -/
def signal (w : Processes) : Signal → Processes
  | .term => w
  | .kill =>
    match w.leader, w.group with
    | .reaped _, .empty => w
    | _, _ => { w with group := .doomed }

end Processes

namespace Host
variable (h : Host)

def found (m : Moment) : Processes := h.drift m.tick m.processes

/-- `proc.wait` and `proc.poll`. -/
def wait (m : Moment) : Option ℤ × Moment :=
  ((h.found m).wait.1, ⟨m.tick + 1, (h.found m).wait.2⟩)

/-- `os.killpg`, where a group that is gone is no error; `none` when it is not permitted. -/
def killpg (signal : Signal) (m : Moment) : Option Moment :=
  if h.denied m.tick then none else some ⟨m.tick + 1, (h.found m).signal signal⟩

/-- The loop of `terminate` over its signals. -/
def terminateWith : List Signal → Moment → Except Raised Unit × Moment
  | [], m => (.error unconfirmed, m)
  | signal :: rest, m =>
    match h.killpg signal m with
    | none => (.error noPermission, m)
    | some m₁ =>
      match h.wait m₁ with
      | (none, m₂) => terminateWith rest m₂
      | (some _, m₂) =>
        match h.killpg .kill m₂ with
        | none => (.error .permissionError, m₂)
        | some m₃ => (.ok (), m₃)

def terminate (m : Moment) : Except Raised Unit × Moment := h.terminateWith [.term, .kill] m

/-- Why the loop stops the command: a cancellation before a deadline. -/
def reason (m : Moment) : Option Raised :=
  if h.cancelled m.tick then some (.outcome ⟨.cancelled, "실행을 취소했습니다."⟩)
  else if h.late m.tick then some (.outcome ⟨.timedOut, "실행 제한시간을 초과했습니다."⟩)
  else none

def size (m : Moment) : ℕ := max (h.output m.tick).length (h.errors m.tick).length

/-- What the loop raises instead of waiting on. -/
def stop (m : Moment) : Option Raised :=
  if maxOutputBytes < h.size m then some outputRefused else h.reason m

def collect (code : ℤ) (m : Moment) : Except Raised CommandOutput := do
  checkResultFile (h.resultFile m.tick)
  if maxOutputBytes < h.size m then .error outputTooLarge
  else
    .ok ⟨code, (h.output (m.tick + 1)).take maxOutputBytes,
      (h.errors (m.tick + 1)).take maxOutputBytes⟩

/-- The loop of `run_command`; the first argument bounds its turns. -/
def loop : ℕ → Moment → Option (Except Raised CommandOutput × Moment)
  | 0, _ => none
  | n + 1, m =>
    match checkResultFile (h.resultFile m.tick) with
    | .error e => some (.error e, m)
    | .ok _ =>
      match h.stop m with
      | some e =>
        match h.terminate m with
        | (.error e', m') => some (.error e', m')
        | (.ok _, m') => some (.error e, m')
      | none =>
        match h.wait m with
        | (none, m') => loop n m'
        | (some code, m') => some (h.collect code m', m')

/-- The `finally` of `run_command`. -/
def finish (result : Except Raised CommandOutput) (m : Moment) :
    Except Raised CommandOutput × Moment :=
  match h.wait m with
  | (some _, m') => (result, m')
  | (none, m') =>
    match h.terminate m' with
    | (.error e, m'') => (.error e, m'')
    | (.ok _, m'') => (result, m'')

/-- `run_command` from the start of the process on. -/
def runCommand (turns : ℕ) : Option (Except Raised CommandOutput × Moment) :=
  (h.loop turns {}).map fun end_ => h.finish end_.1 end_.2

end Host
end NyanyaAgent.Worker
