import MapReduce.Aof.Recovery
import MapReduce.Master
import MapReduce.Server.Steps

/-! The master as the application of the server.

Here the handlers of `master.c` stop where they call `server_send`, and the
server decides how the send ends. A run of the server drives the master through
a run of its callbacks, so whatever holds along those holds under the server.
-/

set_option autoImplicit false

namespace MapReduce

/-- What the log file does while a message is handled. -/
structure LogEnv where
  write : List WriteResult
  flush : Bool
  deriving DecidableEq, Repr

def LogEnv.sending (env : LogEnv) (outcome : SendOutcome) : Env := ⟨outcome, env.write, env.flush⟩

/-- Send an encoded message, if the encoder produced one, and finish with the result of the send. -/
def replyWith (w : World) (after : World → Bool → World) : Option Bytes → Handling World
  | none => .finish w false
  | some buf => .reply w buf fun w ok => (after w ok, ok)

/-- `master_handle_get_task` up to its send. -/
def getTaskHandling (w : World) (fd : Fd) : Option (Handling World) :=
  match w.master.job.phase.kind? with
  | none => some (replyWith w (fun w _ => w) (rpcEncodeDoneResp msgMax))
  | some kind => do
    let (chosen, m) ← chooseAvailableTask w.master fd kind
    match chosen with
    | some i =>
      let t ← m.task? kind i
      some (replyWith ⟨m, w.log⟩ (fun w _ => w) (taskResp m kind i t))
    | none =>
      let buf ← waitForAvailableTasks m kind
      some (replyWith ⟨m, w.log⟩ (fun w _ => w) buf)

/-- The slot is freed behind the ACK of an accepted report, or behind the failed ACK of a stale one. -/
def ackHandling (w : World) (fd : Fd) (buf : Bytes) (accepted : Bool) : Handling World :=
  replyWith w (fun w ok => if ok = accepted then { w with master := w.master.clearHasTask fd } else w) (some buf)

/-- `task_done_helper` up to its send. -/
def taskDoneHandling (w : World) (fd : Fd) (env : LogEnv) (msg : TaskDoneReq) : Option (Handling World) := do
  let kind ← w.master.job.phase.kind?
  let t ← w.master.task? kind (w.master.workers fd).currentTaskId
  match rpcEncodeTaskDoneAck msgMax with
  | none => some (.finish w false)
  | some buf =>
    if msg.attemptId.toNat ≠ t.currentAttempt then some (ackHandling w fd buf false)
    else
      -- Nothing before the send depends on its outcome.
      (applyReport w fd (env.sending .queued) msg kind t).map fun applied => ackHandling applied.1 fd buf true

def messageHandling (w : World) (fd : Fd) (payload : Bytes) (env : LogEnv) : Option (Handling World) :=
  match rpcPeekKind payload with
  | some .getTaskReq => getTaskHandling w fd
  | some .taskDoneReq =>
    match rpcDecodeTaskDoneReq payload.tail with
    | none => some (.finish w false)
    | some msg =>
      match w.master.job.phase with
      | .map | .reduce => taskDoneHandling w fd env msg
      | .done | .failed => some (.finish w false)
  | _ => some (.finish w false)

def masterApp : App World LogEnv where
  onConnect := fun w fd => { w with master := masterOnConnect w.master fd }
  onDisconnect := fun w fd => { w with master := masterOnDisconnect w.master fd }
  onMessage := messageHandling
  onPeriodic := fun w now realtime => (masterPeriodic w.master now realtime).map fun m => { w with master := m }

/-! ## The handlers with the send filled in -/

def Handling.settle (fd : Fd) (outcome : SendOutcome) : Handling World → World × Bool
  | .finish w ok => (w, ok)
  | .reply w _ resume =>
    let sent := serverSend w.master fd outcome
    resume ⟨sent.1, w.log⟩ sent.2

def Reply.ending (r : Reply) : World × Bool := (r.toWorld, r.ok)

theorem respond_settles (w : World) (fd : Fd) (outcome : SendOutcome) (buf : Option Bytes) :
    (respond w fd outcome buf).ending = (replyWith w (fun w _ => w) buf).settle fd outcome := by
  cases buf with
  | none => rfl
  | some buf => rfl

theorem sendAck_settles (w : World) (fd : Fd) (outcome : SendOutcome) (buf : Bytes) (accepted : Bool)
    (marked : Option (TaskKind × Nat)) :
    (sendAck w fd outcome buf accepted marked).ending = (ackHandling w fd buf accepted).settle fd outcome := by
  by_cases freed : (serverSend w.master fd outcome).2 = accepted
  · simp [sendAck, ackHandling, replyWith, Handling.settle, Reply.ending, respond, freed]
  · simp [sendAck, ackHandling, replyWith, Handling.settle, Reply.ending, respond, freed]

theorem getTask_settles (w : World) (fd : Fd) (env : Env) :
    (masterHandleGetTask w fd env).map Reply.ending =
      (getTaskHandling w fd).map (Handling.settle fd env.send) := by
  unfold masterHandleGetTask getTaskHandling
  cases w.master.job.phase.kind? with
  | none => exact congrArg some (respond_settles w fd env.send _)
  | some kind =>
    simp only [Option.bind_eq_bind]
    cases chooseAvailableTask w.master fd kind with
    | none => rfl
    | some choice =>
      obtain ⟨chosen, m⟩ := choice
      cases chosen with
      | some i =>
        simp only [Option.bind_some]
        cases m.task? kind i with
        | none => rfl
        | some t => exact congrArg some (respond_settles ⟨m, w.log⟩ fd env.send _)
      | none =>
        simp only [Option.bind_some]
        cases waitForAvailableTasks m kind with
        | none => rfl
        | some buf => exact congrArg some (respond_settles ⟨m, w.log⟩ fd env.send buf)

theorem taskDone_settles (w : World) (fd : Fd) (env : LogEnv) (outcome : SendOutcome) (msg : TaskDoneReq) :
    (taskDoneHelper w fd (env.sending outcome) msg).map Reply.ending =
      (taskDoneHandling w fd env msg).map (Handling.settle fd outcome) := by
  unfold taskDoneHelper taskDoneHandling
  simp only [Option.bind_eq_bind]
  cases w.master.job.phase.kind? with
  | none => rfl
  | some kind =>
    simp only [Option.bind_some]
    cases w.master.task? kind (w.master.workers fd).currentTaskId with
    | none => rfl
    | some t =>
      simp only [Option.bind_some]
      cases rpcEncodeTaskDoneAck msgMax with
      | none => rfl
      | some buf =>
        simp only
        split
        · exact congrArg some (sendAck_settles w fd outcome buf false none)
        · -- The report is applied before the ACK, with the same log.
          have same : applyReport w fd (env.sending outcome) msg kind t =
              applyReport w fd (env.sending .queued) msg kind t := rfl
          rw [same, Option.map_map, Option.map_map]
          congr 1
          funext applied
          exact sendAck_settles applied.1 fd outcome buf true applied.2

theorem message_settles (w : World) (fd : Fd) (payload : Bytes) (env : LogEnv) (outcome : SendOutcome) :
    (masterOnMessage w fd payload (env.sending outcome)).map Reply.ending =
      (messageHandling w fd payload env).map (Handling.settle fd outcome) := by
  unfold masterOnMessage messageHandling
  cases rpcPeekKind payload with
  | none => rfl
  | some kind =>
    cases kind with
    | getTaskReq => exact getTask_settles w fd (env.sending outcome)
    | taskDoneReq =>
      cases rpcDecodeTaskDoneReq payload.tail with
      | none => rfl
      | some msg =>
        simp only [masterHandleTaskDone]
        cases w.master.job.phase with
        | map => exact taskDone_settles w fd env outcome msg
        | reduce => exact taskDone_settles w fd env outcome msg
        | done => rfl
        | failed => rfl
    | _ => rfl

/-! ## The server drives the callbacks -/

def Drives (w after : World) : Prop := ∃ callbacks, Runs.run World.next w callbacks = some after

theorem Drives.refl (w : World) : Drives w w := ⟨[], rfl⟩

theorem Drives.trans {w mid after : World} (first : Drives w mid) (second : Drives mid after) : Drives w after := by
  obtain ⟨callbacks, reached⟩ := first
  obtain ⟨later, onward⟩ := second
  exact ⟨callbacks ++ later, by rw [Runs.run_append, reached]; exact onward⟩

theorem Drives.one {w after : World} (c : Callback) (taken : w.next c = some after) : Drives w after :=
  ⟨[c], by simp [Runs.run, taken]⟩

namespace Server

variable {s : Server World} {fd : Fd}

theorem removeClient_drives (s : Server World) (fd : Fd) : Drives s.app (s.removeClient masterApp fd).app :=
  .one (.disconnect fd) rfl

/-- The outcome of a send, as the callback model knows it. -/
def sendOutcome (s : Server World) (fd : Fd) (data : Bytes) (result : SendResult) : SendOutcome :=
  match ((s.clients fd).queueWrite data result.write).ending with
  | .full => .full
  | .waiting | .drained => .queued
  | .lost => .hardError

theorem queueWrite_serverSend (s : Server World) (fd : Fd) (data : Bytes) (result : SendResult) :
    ((s.queueWrite masterApp fd data result).1.app, (s.queueWrite masterApp fd data result).2) =
      (⟨(serverSend s.app.master fd (s.sendOutcome fd data result)).1, s.app.log⟩,
        (serverSend s.app.master fd (s.sendOutcome fd data result)).2) := by
  simp only [sendOutcome, queueWrite]
  cases ((s.clients fd).queueWrite data result.write).ending with
  | full => rfl
  | drained => rfl
  | waiting => cases result.registered <;> rfl
  | lost => rfl

theorem handle_settles {result : SendResult} {handling : Handling World} {after : Server World} {ok : Bool}
    (handled : s.handle masterApp fd result handling = some (after, ok)) :
    ∃ outcome, handling.settle fd outcome = (after.app, ok) := by
  cases handling with
  | finish w ended =>
    cases handled
    exact ⟨.queued, rfl⟩
  | reply w payload resume =>
    simp only [handle, sendFramed] at handled
    split at handled
    · cases handled
    · simp only [Option.map_some, Option.some.injEq, Prod.mk.injEq] at handled
      obtain ⟨rfl, rfl⟩ := handled
      have sent := queueWrite_serverSend { s with app := w } fd (frame payload) result
      simp only [Prod.mk.injEq] at sent
      refine ⟨sendOutcome { s with app := w } fd (frame payload) result, ?_⟩
      simp only [Handling.settle, sent.1, sent.2]

theorem message_drives {payload : Bytes} {env : LogEnv} {result : SendResult} {handling : Handling World}
    {after : Server World} {ok : Bool} (asked : masterApp.onMessage s.app fd payload env = some handling)
    (handled : s.handle masterApp fd result handling = some (after, ok)) : Drives s.app after.app := by
  obtain ⟨outcome, settled⟩ := handle_settles handled
  have same := message_settles s.app fd payload env outcome
  rw [show messageHandling s.app fd payload env = some handling from asked, Option.map_some, settled] at same
  obtain ⟨r, replied, ending⟩ := Option.map_eq_some_iff.mp same
  refine .one (.message fd payload (env.sending outcome)) ?_
  simp only [World.next, callback, replied, Option.map_some]
  exact congrArg some (congrArg Prod.fst ending)

theorem processBuffer_drives {during : During LogEnv} {rounds k : Nat} {after : Server World}
    (processed : processBuffer masterApp during fd rounds k s = some after) : Drives s.app after.app := by
  induction rounds generalizing k s with
  | zero => cases processed
  | succ rounds ih =>
    cases processBuffer_round processed with
    | waits short same => exact same ▸ .refl _
    | oversize large removed => exact removed ▸ removeClient_drives s fd
    | refused payload handling mid found asked handled removed =>
      subst removed
      exact (message_drives asked handled).trans (removeClient_drives (mid.noteDelivered fd payload false) fd)
    | accepted payload handling mid found asked handled kept later =>
      have onward := ih later
      exact (message_drives asked handled).trans onward

theorem onRead_drives {result : SocketRead} {during : During LogEnv} {after : Server World}
    (read : s.onRead masterApp fd result during = some after) : Drives s.app after.app := by
  cases onRead_step read with
  | idle same => exact same ▸ .refl _
  | removed active same => exact same ▸ removeClient_drives s fd
  | data chunk arrived active some_byte fits processed =>
    have driven := processBuffer_drives processed
    exact driven

theorem onWrite_drives {result : SocketWrite} {during : During LogEnv} {after : Server World}
    (written : s.onWrite masterApp fd result during = some after) : Drives s.app after.app := by
  cases onWrite_step written with
  | removed same => exact same ▸ removeClient_drives s fd
  | waiting c same_read same => exact same ▸ .refl _
  | drained drains processed =>
    have driven := processBuffer_drives processed
    exact driven

theorem checkFrom_drives (s : Server World) (fds : List Fd) (found : Nat) :
    Drives s.app (s.checkFrom masterApp fds found).app :=
  checkFrom_invariant (fun mid fd (driven : Drives s.app mid.app) _ => driven.trans (removeClient_drives mid fd))
    fds found (.refl s.app)

theorem clientTimeoutsCron_drives (s : Server World) : Drives s.app (s.clientTimeoutsCron masterApp).app := by
  unfold clientTimeoutsCron
  split
  · exact .refl _
  · exact checkFrom_drives { s with lastTimeoutCheckMs := s.nowMs } _ _

theorem beforeSleep_drives {now realtime : Int} {after : Server World}
    (slept : s.serverBeforeSleep masterApp now realtime = some after) : Drives s.app after.app := by
  unfold serverBeforeSleep at slept
  obtain ⟨state, ticked, rfl⟩ := Option.map_eq_some_iff.mp slept
  -- The timed-out clients go first, then the tick.
  have first := clientTimeoutsCron_drives { s with nowMs := now, cronloops := s.cronloops + 1 }
  refine first.trans (.one (.periodic now realtime) ?_)
  obtain ⟨m, swept, rfl⟩ := Option.map_eq_some_iff.mp ticked
  simp only [World.next, callback, swept, Option.map_some]

theorem next_drives {event : Event LogEnv} {after : Server World}
    (taken : s.next masterApp event = some after) : Drives s.app after.app := by
  cases event with
  | accept result =>
    cases result with
    | refused => exact Option.some.inj taken ▸ .refl _
    | taken fd registered =>
      simp only [next, onAccept] at taken
      split at taken
      · cases taken
      · cases registered with
        | true => exact Option.some.inj taken ▸ .one (.connect fd) rfl
        | false => exact Option.some.inj taken ▸ .refl _
  | readable fd result during =>
    simp only [next] at taken
    split at taken
    · exact onRead_drives taken
    · exact Option.some.inj taken ▸ .refl _
  | writable fd result during =>
    simp only [next] at taken
    split at taken
    · exact onWrite_drives taken
    · exact Option.some.inj taken ▸ .refl _
  | checkTimeouts =>
    rw [← Option.some.inj taken]
    exact checkFrom_drives s _ _
  | beforeSleep now realtime => exact beforeSleep_drives taken
  | shutdown => exact Option.some.inj taken ▸ .refl _

/-- Every run of the server takes the master through a run of its callbacks. -/
theorem run_drives {events : List (Event LogEnv)} {after : Server World}
    (reached : Runs.run (next masterApp) s events = some after) : Drives s.app after.app :=
  Runs.run_invariant (fun _ _ _ (driven : Drives s.app _) taken => driven.trans (next_drives taken)) (.refl _)
    reached

def sample : Server World := init (World.start sampleConfig sampleJob 3 0 0 0) 0 300

def sampleFd : Fd := ⟨9, by decide⟩

/-- Handlers whose log works, and whose writes all end in one way. -/
def allWrites (result : SocketWrite) : During LogEnv := fun _ => (⟨[], true⟩, ⟨result, true⟩)

end Server

end MapReduce
