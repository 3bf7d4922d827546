import MapReduce.Lib.BigEndian
import MapReduce.Lib.Table

/-! Tasks, jobs and worker slots: the records of `task.h` and `master.h`.

Counters that the code keeps far below their width (`attempts_count`) are
natural numbers; fields that travel on the wire or on disk
keep their width and are declared with the codecs. A zeroed record is what C
leaves in static storage.
-/

set_option autoImplicit false

namespace MapReduce

def maxFds : Nat := 1024
def msgMax : Nat := 4096
def mapreducePathMax : Nat := 1024
def maxMapTasks : Nat := 256
def maxReduceTasks : Nat := 64
def maxAttempts : Nat := 3

theorem maxReduceTasks_pos : 0 < maxReduceTasks := by decide

/-- A descriptor the server accepted: `on_accept` closes every other one. -/
abbrev Fd := Fin maxFds

inductive TaskKind where
  | map
  | reduce
  deriving DecidableEq, Repr

/-- A task is identified by its kind and its index. -/
instance : LawfulBEq (TaskKind × Nat) := inferInstance

inductive TaskState where
  | pending
  | inProgress
  | completed
  | failed
  deriving DecidableEq, Repr

inductive AttemptEndStatus where
  | running
  | success
  | failed
  | timeout
  | disconnect
  deriving DecidableEq, Repr

inductive JobPhase where
  | map
  | reduce
  | done
  | failed
  deriving DecidableEq, Repr

structure AttemptRecord where
  attemptId : Nat
  workerFd : Int
  startedAtMs : Int
  endedAtMs : Int
  endStatus : AttemptEndStatus
  deriving DecidableEq, Repr

def AttemptRecord.zero : AttemptRecord := ⟨0, 0, 0, 0, .running⟩

structure Task where
  state : TaskState
  currentAttempt : Nat
  attemptsCount : Nat
  ownerFd : Int
  startedAtMs : Int
  inputPath : Bytes
  inputPathLen : Nat
  history : Table maxAttempts AttemptRecord

/-- Static storage before any task is placed in the slot. -/
def Task.zero : Task := ⟨.pending, 0, 0, 0, 0, [], 0, Table.fill .zero⟩

/-- `task_reset_pending`: a fresh slot differs from a zeroed one in its owner. -/
def taskResetPending : Task := { Task.zero with ownerFd := -1 }

/-- `history[attempts_count - 1] = row`, undefined outside the history buffer. -/
def Task.putRow (t : Task) (row : AttemptRecord) : Option Task :=
  if 1 ≤ t.attemptsCount ∧ t.attemptsCount ≤ maxAttempts then
    some { t with history := t.history.write (t.attemptsCount - 1) row }
  else none

structure Job where
  M : Nat
  R : Nat
  phase : JobPhase
  mapsDone : Nat
  reducesDone : Nat
  taskTimeoutMs : Int
  deriving DecidableEq, Repr

/-- Per-connection bookkeeping. A zeroed slot carries no enumerator in
`current_kind`, hence the option. -/
structure Worker where
  connectedAtMs : Int
  hasTask : Bool
  currentKind : Option TaskKind
  currentTaskId : Nat
  currentAttemptId : Nat
  deriving DecidableEq, Repr

def Worker.zero : Worker := ⟨0, false, none, 0, 0⟩

/-- The settings the scheduler reads. -/
structure MasterConfig where
  nReduce : Int
  taskTimeoutMs : Int
  inputDir : Bytes
  deriving DecidableEq, Repr

structure Master where
  config : MasterConfig
  nowMs : Int
  cronloops : Int
  job : Job
  maps : Table maxMapTasks Task
  reduces : Table maxReduceTasks Task
  workers : Fd → Worker
  nowRealtimeMs : Int
  aofFd : Int

/-- The process image before `master_bootstrap_job`: everything but the configuration is zero. -/
def Master.zero (config : MasterConfig) : Master where
  config := config
  nowMs := 0
  cronloops := 0
  job := ⟨0, 0, .map, 0, 0, 0⟩
  maps := Table.fill .zero
  reduces := Table.fill .zero
  workers := fun _ => .zero
  nowRealtimeMs := 0
  aofFd := 0

/-! ## Selecting one of the two task tables -/

def JobPhase.kind? : JobPhase → Option TaskKind
  | .map => some .map
  | .reduce => some .reduce
  | .done | .failed => none

def TaskKind.capacity : TaskKind → Nat
  | .map => maxMapTasks
  | .reduce => maxReduceTasks

def Job.total (job : Job) : TaskKind → Nat
  | .map => job.M
  | .reduce => job.R

def Job.doneCount (job : Job) : TaskKind → Nat
  | .map => job.mapsDone
  | .reduce => job.reducesDone

/-- `maps_done += 1` or `reduces_done += 1`. A log of any length can be loaded, so the 32 bits of the
counters matter. -/
def Job.countDone (job : Job) : TaskKind → Job
  | .map => { job with mapsDone := (job.mapsDone + 1) % 2 ^ 32 }
  | .reduce => { job with reducesDone := (job.reducesDone + 1) % 2 ^ 32 }

def Master.task? (m : Master) : TaskKind → Nat → Option Task
  | .map, i => m.maps.read i
  | .reduce, i => m.reduces.read i

theorem Master.lt_capacity {m : Master} {kind : TaskKind} {i : Nat} {t : Task}
    (found : m.task? kind i = some t) : i < kind.capacity := by
  cases kind <;> exact Table.lt_of_read found

theorem Master.task?_isSome (m : Master) {kind : TaskKind} {i : Nat} (inside : i < kind.capacity) :
    ∃ t, m.task? kind i = some t := by
  cases kind <;> exact Table.read_isSome _ inside

def Master.setTask (m : Master) : TaskKind → Nat → Task → Master
  | .map, i, t => { m with maps := m.maps.write i t }
  | .reduce, i, t => { m with reduces := m.reduces.write i t }

def Master.setWorker (m : Master) (fd : Fd) (w : Worker) : Master :=
  { m with workers := Function.update m.workers fd w }

def Master.completedCount (m : Master) : TaskKind → Nat
  | .map => m.maps.countBelow (·.state == .completed) m.job.M
  | .reduce => m.reduces.countBelow (·.state == .completed) m.job.R

/-- `maybe_advance_phase`: both tests run, so one completion can pass two phases. -/
def maybeAdvancePhase (m : Master) : Master :=
  let m := if m.job.phase = .map ∧ m.job.mapsDone = m.job.M then
    { m with job := { m.job with phase := .reduce } } else m
  if m.job.phase = .reduce ∧ m.job.reducesDone = m.job.R then
    { m with job := { m.job with phase := .done } } else m

end MapReduce
