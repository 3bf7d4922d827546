import MapReduce.Aof.Load

/-! The handlers of `master.c`: scheduling, reports, timeouts and connections.

What the operating system decides is an argument: whether a reply could be
queued, how far the log write got, whether the flush succeeded. `none` is an
execution without defined behaviour (an index outside its array) or a failed
assertion; a callback that returns -1 is a reply with `ok = false`.
-/

set_option autoImplicit false

namespace MapReduce

/-- The three ends of `queue_write`: stored or sent, no room, hard error on the socket. -/
inductive SendOutcome where
  | queued
  | full
  | hardError
  deriving DecidableEq, Repr

structure Env where
  send : SendOutcome
  write : List WriteResult
  flush : Bool
  deriving DecidableEq, Repr

structure World where
  master : Master
  log : Bytes

/-- What a callback leaves behind. `marked` names the task a report has set to completed. -/
structure Reply extends World where
  ok : Bool
  sent : Option Bytes
  marked : Option (TaskKind × Nat)

/-! ## Connections and sending -/

def masterOnConnect (m : Master) (fd : Fd) : Master :=
  m.setWorker fd { Worker.zero with connectedAtMs := m.nowMs }

-- The task of a lost connection is left to the timeout sweep.
def masterOnDisconnect (m : Master) (fd : Fd) : Master := m.setWorker fd .zero

/-- `server_send`: a hard error removes the client, which calls `master_on_disconnect`. -/
def serverSend (m : Master) (fd : Fd) (outcome : SendOutcome) : Master × Bool :=
  match outcome with
  | .queued => (m, true)
  | .full => (m, false)
  -- `remove_client` runs inside the send, before the handler sees the result.
  | .hardError => (masterOnDisconnect m fd, false)

def respond (w : World) (fd : Fd) (outcome : SendOutcome) : Option Bytes → Reply
  | none => ⟨w, false, none, none⟩
  | some buf =>
    let (m, ok) := serverSend w.master fd outcome
    ⟨⟨m, w.log⟩, ok, if ok then some buf else none, none⟩

/-! ## Task transitions -/

/-- `task_attempt_ended`; the flag is false when the job has failed. -/
def taskAttemptEnded (m : Master) (kind : TaskKind) (i : Nat) (endStatus : AttemptEndStatus) (fd : Int) :
    Option (Master × Bool) := do
  let t ← m.task? kind i
  let t ← t.putRow ⟨t.currentAttempt, fd, 0, m.nowMs, endStatus⟩
  let t := { t with ownerFd := -1 }
  -- The third failed attempt of any task ends the whole job.
  if t.attemptsCount ≥ maxAttempts then
    let m := m.setTask kind i { t with state := .failed }
    some ({ m with job := { m.job with phase := .failed } }, false)
  else some (m.setTask kind i { t with state := .pending }, true)

def sweepFrom (kind : TaskKind) : List Nat → Master → Option Master
  | [], m => some m
  | i :: rest, m => do
    let t ← m.task? kind i
    if t.state ≠ .inProgress ∨ m.nowMs - t.startedAtMs ≤ m.config.taskTimeoutMs then
      sweepFrom kind rest m
    else
      let (m, alive) ← taskAttemptEnded m kind i .timeout t.ownerFd
      if alive then sweepFrom kind rest m else some m

def sweepTimeouts (m : Master) (kind : TaskKind) : Option Master :=
  sweepFrom kind (List.range (m.job.total kind)) m

def Master.firstPending (m : Master) : TaskKind → Option Nat
  | .map => m.maps.firstBelow (·.state == .pending) m.job.M
  | .reduce => m.reduces.firstBelow (·.state == .pending) m.job.R

def chooseAvailableTask (m : Master) (fd : Fd) (kind : TaskKind) : Option (Option Nat × Master) :=
  match m.firstPending kind with
  | none => some (none, m)
  | some i => do
    let t ← m.task? kind i
    let t := { t with
      state := .inProgress
      currentAttempt := t.currentAttempt + 1
      attemptsCount := t.attemptsCount + 1
      ownerFd := fd.val
      startedAtMs := m.nowMs }
    -- The row of the new attempt is the one after the attempts used so far.
    let t ← t.putRow ⟨t.currentAttempt, fd.val, m.nowMs, 0, .running⟩
    let w := { m.workers fd with
      hasTask := true
      currentKind := some kind
      currentTaskId := i
      currentAttemptId := t.currentAttempt }
    some (some i, (m.setTask kind i t).setWorker fd w)

/-! ## `GetTask` -/

/-- The wait message; the assertion fails when every task of the phase is already done. -/
def waitForAvailableTasks (m : Master) (kind : TaskKind) : Option (Option Bytes) :=
  if m.job.doneCount kind < m.job.total kind then
    some (rpcEncodeWaitResp msgMax ⟨UInt32.ofNat (m.job.taskTimeoutMs.tdiv 2 % 2 ^ 32).toNat⟩)
  else none

def taskResp (m : Master) (kind : TaskKind) (i : Nat) (t : Task) : Option Bytes :=
  match kind with
  | .map => rpcEncodeTaskMapResp msgMax ⟨UInt32.ofNat i, UInt32.ofNat t.currentAttempt, UInt32.ofNat m.job.R,
      UInt16.ofNat t.inputPathLen, t.inputPath.take t.inputPathLen⟩
  | .reduce => rpcEncodeTaskReduceResp msgMax ⟨UInt32.ofNat i, UInt32.ofNat t.currentAttempt,
      UInt32.ofNat m.job.M⟩

def masterHandleGetTask (w : World) (fd : Fd) (env : Env) : Option Reply :=
  match w.master.job.phase.kind? with
  -- A failed job tells its workers the same as a finished one.
  | none => some (respond w fd env.send (rpcEncodeDoneResp msgMax))
  | some kind => do
    let (chosen, m) ← chooseAvailableTask w.master fd kind
    match chosen with
    | some i =>
      -- The task stays handed out even if the response cannot be sent.
      let t ← m.task? kind i
      some (respond ⟨m, w.log⟩ fd env.send (taskResp m kind i t))
    | none =>
      let buf ← waitForAvailableTasks m kind
      some (respond ⟨m, w.log⟩ fd env.send buf)

/-! ## `TaskDone` -/

def Master.clearHasTask (m : Master) (fd : Fd) : Master :=
  m.setWorker fd { m.workers fd with hasTask := false }

/-- The success branch: task, counter, log record, phase. -/
def recordSuccess (w : World) (fd : Fd) (env : Env) (msg : TaskDoneReq) (kind : TaskKind) (t : Task) :
    Option World := do
  let m := w.master
  let i := (m.workers fd).currentTaskId
  let t := { t with ownerFd := -1, state := .completed }
  let t ← t.putRow ⟨t.currentAttempt, fd.val, 0, m.nowMs, .success⟩
  let m := m.setTask kind i t
  let m := { m with job := m.job.countDone kind }
  -- The record takes its kind from the slot and its id from the message. The result is dropped.
  let (log, _) := aofAppendCompleted m env.write env.flush w.log msg (m.workers fd).currentKind
  some ⟨maybeAdvancePhase m, log⟩

/-- Apply an accepted report; a success also names the task it has completed. -/
def applyReport (w : World) (fd : Fd) (env : Env) (msg : TaskDoneReq) (kind : TaskKind) (t : Task) :
    Option (World × Option (TaskKind × Nat)) :=
  let i := (w.master.workers fd).currentTaskId
  if msg.result = 0 then (recordSuccess w fd env msg kind t).map fun w => (w, some (kind, i))
  else (taskAttemptEnded w.master kind i .failed fd.val).map fun ended => (⟨ended.1, w.log⟩, none)

/-- Send the ACK. An accepted report frees the slot once the ACK is out, a stale one only when
it could not be sent. -/
def sendAck (w : World) (fd : Fd) (outcome : SendOutcome) (buf : Bytes) (accepted : Bool)
    (marked : Option (TaskKind × Nat)) : Reply :=
  let r := { respond w fd outcome (some buf) with marked := marked }
  if r.ok = accepted then { r with master := r.master.clearHasTask fd } else r

def taskDoneHelper (w : World) (fd : Fd) (env : Env) (msg : TaskDoneReq) : Option Reply := do
  let kind ← w.master.job.phase.kind?
  -- The table follows the phase, whatever kind of task the slot was given.
  let t ← w.master.task? kind (w.master.workers fd).currentTaskId
  match rpcEncodeTaskDoneAck msgMax with
  | none => some ⟨w, false, none, none⟩
  | some buf =>
    -- The attempt number is all that is compared: not the kind, the id or the state of the task.
    if msg.attemptId.toNat ≠ t.currentAttempt then some (sendAck w fd env.send buf false none)
    else (applyReport w fd env msg kind t).map fun applied =>
      sendAck applied.1 fd env.send buf true applied.2

def masterHandleTaskDone (w : World) (fd : Fd) (env : Env) (msg : TaskDoneReq) : Option Reply :=
  match w.master.job.phase with
  | .map | .reduce => taskDoneHelper w fd env msg
  | .done | .failed => some ⟨w, false, none, none⟩

/-! ## Messages and ticks -/

def masterOnMessage (w : World) (fd : Fd) (payload : Bytes) (env : Env) : Option Reply :=
  match rpcPeekKind payload with
  | some .getTaskReq => masterHandleGetTask w fd env
  | some .taskDoneReq =>
    match rpcDecodeTaskDoneReq payload.tail with
    | none => some ⟨w, false, none, none⟩
    | some msg => masterHandleTaskDone w fd env msg
  | _ => some ⟨w, false, none, none⟩

/-- The clock part of `server_before_sleep` and `master_periodic`. -/
def Master.tick (m : Master) (now realtime : Int) : Master :=
  { m with nowMs := now, cronloops := m.cronloops + 1, nowRealtimeMs := realtime }

def masterPeriodic (m : Master) (now realtime : Int) : Option Master :=
  let m := m.tick now realtime
  -- Ten ticks a second, one sweep a second.
  if m.cronloops % 10 ≠ 0 then some m
  else match m.job.phase.kind? with
    | some kind => sweepTimeouts m kind
    | none => some m

/-! ## Callbacks as one step function -/

inductive Callback where
  | connect (fd : Fd)
  | message (fd : Fd) (payload : Bytes) (env : Env)
  | disconnect (fd : Fd)
  | periodic (now realtime : Int)
  deriving DecidableEq, Repr

def callback (w : World) : Callback → Option Reply
  | .connect fd => some ⟨{ w with master := masterOnConnect w.master fd }, true, none, none⟩
  | .message fd payload env => masterOnMessage w fd payload env
  | .disconnect fd => some ⟨{ w with master := masterOnDisconnect w.master fd }, true, none, none⟩
  | .periodic now realtime =>
    (masterPeriodic w.master now realtime).map fun m => ⟨{ w with master := m }, true, none, none⟩

def World.next (w : World) (c : Callback) : Option World := (callback w c).map Reply.toWorld

/-! ## Starting -/

/-- `master_bootstrap_job`: load a non-empty log, set up a fresh job otherwise, then open the log. -/
def masterBootstrapJob (config : MasterConfig) (entries : List DirEntry) (file : Bytes) (env : InitEnv) :
    Option World := do
  let m ← if file = [] then masterInitJob (Master.zero config) entries
    else (aofLoad (Master.zero config) file).toOption
  let (m, file, ok) ← aofInit m file env
  if ok then some ⟨m, file⟩ else none

/-- `server_init` clears the server part and reads the clock. -/
def masterInit (m : Master) (now realtime : Int) : Master :=
  { m with nowMs := now, cronloops := 0, nowRealtimeMs := realtime }

def World.start (config : MasterConfig) (job : JobDef) (fd : Nat) (createdMs : UInt64) (now realtime : Int) :
    World where
  master := masterInit { Master.fresh config job with aofFd := fd } now realtime
  log := logBytes createdMs job []

theorem masterBootstrapJob_start {config : MasterConfig} {entries : List DirEntry} {fd : Nat}
    {createdMs : UInt64} {w : World}
    (booted : masterBootstrapJob config entries [] (.good fd createdMs) = some w) (now realtime : Int) :
    ∃ job : JobDef, { w with master := masterInit w.master now realtime } =
      World.start config job fd createdMs now realtime := by
  unfold masterBootstrapJob at booted
  simp only [↓reduceIte, Option.bind_eq_bind, Option.bind_eq_some_iff] at booted
  obtain ⟨m, ready, opened, init, booted⟩ := booted
  obtain ⟨job, rfl⟩ := masterInitJob_fresh ready
  rw [aofInit_empty (Master.fresh_holds config job)] at init
  cases init
  cases booted
  exact ⟨job, rfl⟩

end MapReduce
