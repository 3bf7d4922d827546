import MapReduce.Master

/-! What one callback can do, stated once.

`callback_effect` sorts every defined callback by its effect on the task tables,
the job and the log. Invariants are proved from these cases and never unfold
the handlers.
-/

set_option autoImplicit false

namespace MapReduce

/-! ## Task updates -/

def Task.assigned (t : Task) (fd : Fd) (now : Int) : Task :=
  { t with
    state := .inProgress
    currentAttempt := t.currentAttempt + 1
    attemptsCount := t.attemptsCount + 1
    ownerFd := fd.val
    startedAtMs := now
    history := t.history.write t.attemptsCount ⟨t.currentAttempt + 1, fd.val, now, 0, .running⟩ }

def Task.succeeded (t : Task) (fd : Fd) (now : Int) : Task :=
  { t with
    state := .completed
    ownerFd := -1
    history := t.history.write (t.attemptsCount - 1) ⟨t.currentAttempt, fd.val, 0, now, .success⟩ }

def Task.ended (t : Task) (endStatus : AttemptEndStatus) (fd now : Int) : Task :=
  { t with
    state := if t.attemptsCount ≥ maxAttempts then .failed else .pending
    ownerFd := -1
    history := t.history.write (t.attemptsCount - 1) ⟨t.currentAttempt, fd, 0, now, endStatus⟩ }

theorem Task.putRow_some {t t' : Task} {row : AttemptRecord} (put : t.putRow row = some t') :
    1 ≤ t.attemptsCount ∧ t.attemptsCount ≤ maxAttempts ∧
      t' = { t with history := t.history.write (t.attemptsCount - 1) row } := by
  unfold putRow at put
  split at put
  next inside => exact ⟨inside.1, inside.2, (Option.some.inj put).symm⟩
  · cases put

theorem Task.putRow_inside {t : Task} (row : AttemptRecord) (first : 1 ≤ t.attemptsCount)
    (last : t.attemptsCount ≤ maxAttempts) :
    t.putRow row = some { t with history := t.history.write (t.attemptsCount - 1) row } :=
  if_pos ⟨first, last⟩

/-! ## Frame lemmas for the master record -/

theorem Master.task?_setTask (m : Master) (kind other : TaskKind) (i j : Nat) (t : Task) :
    (m.setTask kind i t).task? other j =
      if other = kind ∧ j = i then (if j < kind.capacity then some t else none) else m.task? other j := by
  cases kind <;> cases other <;> simp [setTask, task?, Table.read_write] <;> rfl

theorem Master.task?_setTask_self {m : Master} {kind : TaskKind} {i : Nat} {old : Task} (t : Task)
    (found : m.task? kind i = some old) : (m.setTask kind i t).task? kind i = some t := by
  cases kind <;> exact Table.read_write_self t found

theorem Master.task?_setTask_ne (m : Master) {kind other : TaskKind} {i j : Nat} (t : Task)
    (differs : (other, j) ≠ (kind, i)) : (m.setTask kind i t).task? other j = m.task? other j := by
  rw [task?_setTask, if_neg]
  rintro ⟨rfl, rfl⟩
  exact differs rfl

@[simp] theorem Master.setTask_job (m : Master) (kind : TaskKind) (i : Nat) (t : Task) :
    (m.setTask kind i t).job = m.job := by
  cases kind <;> rfl

@[simp] theorem Master.setTask_workers (m : Master) (kind : TaskKind) (i : Nat) (t : Task) :
    (m.setTask kind i t).workers = m.workers := by
  cases kind <;> rfl

@[simp] theorem Master.setTask_aofFd (m : Master) (kind : TaskKind) (i : Nat) (t : Task) :
    (m.setTask kind i t).aofFd = m.aofFd := by
  cases kind <;> rfl

@[simp] theorem Master.setTask_nowMs (m : Master) (kind : TaskKind) (i : Nat) (t : Task) :
    (m.setTask kind i t).nowMs = m.nowMs := by
  cases kind <;> rfl

@[simp] theorem Master.task?_setWorker (m : Master) (fd : Fd) (w : Worker) (kind : TaskKind) (i : Nat) :
    (m.setWorker fd w).task? kind i = m.task? kind i := by
  cases kind <;> rfl

theorem Master.firstPending_some {m : Master} {kind : TaskKind} {i : Nat} (found : m.firstPending kind = some i) :
    i < m.job.total kind ∧ ∃ t, m.task? kind i = some t ∧ t.state = .pending := by
  cases kind <;>
  · obtain ⟨below, t, read, holds⟩ := Table.firstBelow_some found
    exact ⟨below, t, read, by simpa using holds⟩

/-- Two masters that schedule alike: they differ in worker slots and clocks only. -/
structure SameCore (m m' : Master) : Prop where
  job : m'.job = m.job
  maps : m'.maps = m.maps
  reduces : m'.reduces = m.reduces
  aofFd : m'.aofFd = m.aofFd

theorem SameCore.refl (m : Master) : SameCore m m := ⟨rfl, rfl, rfl, rfl⟩

theorem SameCore.trans {a b c : Master} (first : SameCore a b) (second : SameCore b c) : SameCore a c :=
  ⟨second.job.trans first.job, second.maps.trans first.maps, second.reduces.trans first.reduces,
    second.aofFd.trans first.aofFd⟩

theorem SameCore.task? {m m' : Master} (same : SameCore m m') (kind : TaskKind) (i : Nat) :
    m'.task? kind i = m.task? kind i := by
  cases kind
  · exact congrArg (Table.read · i) same.maps
  · exact congrArg (Table.read · i) same.reduces

theorem sameCore_setWorker (m : Master) (fd : Fd) (w : Worker) : SameCore m (m.setWorker fd w) :=
  ⟨rfl, rfl, rfl, rfl⟩

theorem sameCore_serverSend (m : Master) (fd : Fd) (outcome : SendOutcome) :
    SameCore m (serverSend m fd outcome).1 := by
  cases outcome
  · exact .refl m
  · exact .refl m
  · exact sameCore_setWorker m fd .zero

theorem sameCore_respond (w : World) (fd : Fd) (outcome : SendOutcome) (buf : Option Bytes) :
    SameCore w.master (respond w fd outcome buf).master := by
  cases buf
  · exact .refl _
  · exact sameCore_serverSend w.master fd outcome

@[simp] theorem respond_log (w : World) (fd : Fd) (outcome : SendOutcome) (buf : Option Bytes) :
    (respond w fd outcome buf).log = w.log := by
  cases buf <;> rfl

@[simp] theorem respond_marked (w : World) (fd : Fd) (outcome : SendOutcome) (buf : Option Bytes) :
    (respond w fd outcome buf).marked = none := by
  cases buf <;> rfl

theorem respond_sent {w : World} {fd : Fd} {outcome : SendOutcome} {buf : Option Bytes} {payload : Bytes}
    (sent : (respond w fd outcome buf).sent = some payload) :
    buf = some payload ∧ (respond w fd outcome buf).toWorld = w := by
  cases buf with
  | none => cases sent
  | some _ =>
    cases outcome
    · exact ⟨sent, rfl⟩
    · cases sent
    · cases sent

/-! ## One attempt ends -/

/-- `task_attempt_ended` where the history row exists. -/
def Master.release (m : Master) (kind : TaskKind) (i : Nat) (t : Task) (endStatus : AttemptEndStatus) (fd : Int) :
    Master :=
  let m' := m.setTask kind i (t.ended endStatus fd m.nowMs)
  if t.attemptsCount ≥ maxAttempts then { m' with job := { m.job with phase := .failed } } else m'

theorem taskAttemptEnded_some {m m' : Master} {kind : TaskKind} {i : Nat} {endStatus : AttemptEndStatus}
    {fd : Int} {alive : Bool} (ended : taskAttemptEnded m kind i endStatus fd = some (m', alive)) :
    ∃ t, m.task? kind i = some t ∧ 1 ≤ t.attemptsCount ∧ t.attemptsCount ≤ maxAttempts ∧
      m' = m.release kind i t endStatus fd := by
  simp only [taskAttemptEnded, Option.bind_eq_bind, Option.bind_eq_some_iff] at ended
  obtain ⟨t, found, row, put, ended⟩ := ended
  obtain ⟨first, last, rfl⟩ := Task.putRow_some put
  refine ⟨t, found, first, last, ?_⟩
  unfold Master.release Task.ended
  by_cases spent : t.attemptsCount ≥ maxAttempts
  · simp only [spent, ↓reduceIte, Option.some.injEq, Prod.mk.injEq] at ended
    simp only [spent, ↓reduceIte, ← ended.1, Master.setTask_job]
  · simp only [spent, ↓reduceIte, Option.some.injEq, Prod.mk.injEq] at ended
    simp only [spent, ↓reduceIte, ← ended.1]

theorem taskAttemptEnded_alive {m m' : Master} {kind : TaskKind} {i : Nat} {endStatus : AttemptEndStatus}
    {fd : Int} {alive : Bool} {t : Task} (ended : taskAttemptEnded m kind i endStatus fd = some (m', alive))
    (found : m.task? kind i = some t) : alive = true ↔ t.attemptsCount < maxAttempts := by
  simp only [taskAttemptEnded, found, Option.bind_eq_bind, Option.bind_some, Option.bind_eq_some_iff] at ended
  obtain ⟨row, put, ended⟩ := ended
  obtain ⟨_, _, rfl⟩ := Task.putRow_some put
  simp only at ended
  split at ended
  next spent =>
    cases ended
    simp only [Bool.false_eq_true, false_iff, Nat.not_lt]
    exact spent
  next left =>
    cases ended
    simp only [true_iff]
    omega

theorem taskAttemptEnded_defined {m : Master} {kind : TaskKind} {i : Nat} {t : Task}
    (endStatus : AttemptEndStatus) (fd : Int) (found : m.task? kind i = some t)
    (first : 1 ≤ t.attemptsCount) (last : t.attemptsCount ≤ maxAttempts) :
    ∃ alive, taskAttemptEnded m kind i endStatus fd = some (m.release kind i t endStatus fd, alive) := by
  have row := Task.putRow_inside ⟨t.currentAttempt, fd, 0, m.nowMs, endStatus⟩ first last
  simp only [taskAttemptEnded, found, Option.bind_eq_bind, Option.bind_some, row]
  unfold Master.release Task.ended
  by_cases spent : t.attemptsCount ≥ maxAttempts
  · exact ⟨false, by simp only [spent, ↓reduceIte, Master.setTask_job]⟩
  · exact ⟨true, by simp only [spent, ↓reduceIte]⟩

theorem Master.task?_release (m : Master) (kind other : TaskKind) (i j : Nat) (t : Task)
    (endStatus : AttemptEndStatus) (fd : Int) :
    (m.release kind i t endStatus fd).task? other j =
      (m.setTask kind i (t.ended endStatus fd m.nowMs)).task? other j := by
  unfold release
  simp only
  split
  · cases other <;> rfl
  · rfl

theorem Master.release_task {m : Master} {kind : TaskKind} {i : Nat} {t : Task} (endStatus : AttemptEndStatus)
    (fd : Int) (found : m.task? kind i = some t) :
    (m.release kind i t endStatus fd).task? kind i = some (t.ended endStatus fd m.nowMs) := by
  rw [task?_release, task?_setTask_self _ found]

theorem Master.release_job (m : Master) (kind : TaskKind) (i : Nat) (t : Task) (endStatus : AttemptEndStatus)
    (fd : Int) :
    (m.release kind i t endStatus fd).job =
      if t.attemptsCount ≥ maxAttempts then { m.job with phase := .failed } else m.job := by
  unfold release
  split <;> simp

@[simp] theorem Master.release_nowMs (m : Master) (kind : TaskKind) (i : Nat) (t : Task)
    (endStatus : AttemptEndStatus) (fd : Int) : (m.release kind i t endStatus fd).nowMs = m.nowMs := by
  unfold release
  split <;> simp

@[simp] theorem Master.release_workers (m : Master) (kind : TaskKind) (i : Nat) (t : Task)
    (endStatus : AttemptEndStatus) (fd : Int) : (m.release kind i t endStatus fd).workers = m.workers := by
  unfold release
  split <;> simp

@[simp] theorem Master.release_aofFd (m : Master) (kind : TaskKind) (i : Nat) (t : Task)
    (endStatus : AttemptEndStatus) (fd : Int) : (m.release kind i t endStatus fd).aofFd = m.aofFd := by
  unfold release
  split <;> simp

theorem Master.release_config (m : Master) (kind : TaskKind) (i : Nat) (t : Task) (endStatus : AttemptEndStatus)
    (fd : Int) : (m.release kind i t endStatus fd).config = m.config := by
  unfold release
  cases kind <;> split <;> rfl

/-! ## A sweep -/

def Master.Overdue (m : Master) (kind : TaskKind) (i : Nat) : Prop :=
  ∃ t, m.task? kind i = some t ∧ t.state = .inProgress ∧ m.nowMs - t.startedAtMs > m.config.taskTimeoutMs

/-- A round of the sweep passes a task by, ends its attempt and goes on, or ends its last attempt and the job. -/
inductive SweepRound (kind : TaskKind) (i : Nat) (rest : List Nat) (m m' : Master) : Prop
  | passed {t : Task} (found : m.task? kind i = some t) (fine : ¬ m.Overdue kind i)
      (onward : sweepFrom kind rest m = some m')
  | ended {t : Task} (found : m.task? kind i = some t) (overdue : m.Overdue kind i) (running : t.state = .inProgress)
      (attempted : 1 ≤ t.attemptsCount) (left : t.attemptsCount < maxAttempts)
      (onward : sweepFrom kind rest (m.release kind i t .timeout t.ownerFd) = some m')
  | stopped {t : Task} (found : m.task? kind i = some t) (overdue : m.Overdue kind i)
      (running : t.state = .inProgress) (attempted : 1 ≤ t.attemptsCount) (spent : t.attemptsCount ≥ maxAttempts)
      (last : m' = m.release kind i t .timeout t.ownerFd)

theorem sweepFrom_round {kind : TaskKind} {i : Nat} {rest : List Nat} {m m' : Master}
    (swept : sweepFrom kind (i :: rest) m = some m') : SweepRound kind i rest m m' := by
  simp only [sweepFrom, Option.bind_eq_bind, Option.bind_eq_some_iff] at swept
  obtain ⟨t, found, swept⟩ := swept
  split at swept
  next fine =>
    refine .passed found ?_ swept
    rintro ⟨u, read, running, late⟩
    cases found.symm.trans read
    rcases fine with idle | soon
    · exact idle running
    · omega
  next due =>
    rw [not_or, not_not, Int.not_le] at due
    have overdue : m.Overdue kind i := ⟨t, found, due⟩
    obtain ⟨⟨next, alive⟩, ended, swept⟩ := Option.bind_eq_some_iff.mp swept
    have lives := taskAttemptEnded_alive ended found
    obtain ⟨u, same, attempted, _, rfl⟩ := taskAttemptEnded_some ended
    cases found.symm.trans same
    cases alive with
    | true => exact .ended found overdue due.1 attempted (lives.mp rfl) swept
    | false =>
      -- The job has failed, and the loop returns without looking at the rest.
      have spent : ¬ t.attemptsCount < maxAttempts := fun left => absurd (lives.mpr left) (by decide)
      exact .stopped found overdue due.1 attempted (Nat.not_lt.mp spent) (Option.some.inj swept).symm

/-- A sweep times out some running tasks of one kind and may fail the job. -/
structure Swept (kind : TaskKind) (m m' : Master) : Prop where
  job : m'.job = m.job ∨ m'.job = { m.job with phase := .failed }
  workers : m'.workers = m.workers
  nowMs : m'.nowMs = m.nowMs
  aofFd : m'.aofFd = m.aofFd
  other : ∀ k i, k ≠ kind → m'.task? k i = m.task? k i
  task : ∀ i t, m.task? kind i = some t → m'.task? kind i = some t ∨
    (t.state = .inProgress ∧ 1 ≤ t.attemptsCount ∧
      m'.task? kind i = some (t.ended .timeout t.ownerFd m.nowMs) ∧
      (t.attemptsCount ≥ maxAttempts → m'.job.phase = .failed))

theorem Swept.refl (kind : TaskKind) (m : Master) : Swept kind m m :=
  ⟨.inl rfl, rfl, rfl, rfl, fun _ _ _ => rfl, fun _ _ found => .inl found⟩

theorem Swept.phase_failed {kind : TaskKind} {m m' : Master} (swept : Swept kind m m')
    (failed : m.job.phase = .failed) : m'.job.phase = .failed := by
  rcases swept.job with same | now
  · rw [same, failed]
  · rw [now]

theorem Task.ended_state_ne (t : Task) (endStatus : AttemptEndStatus) (fd now : Int) :
    (t.ended endStatus fd now).state ≠ .inProgress := by
  unfold ended
  split <;> simp

theorem Swept.trans {kind : TaskKind} {a b c : Master} (first : Swept kind a b) (second : Swept kind b c) :
    Swept kind a c where
  job := by
    rcases first.job with same | failed
    · rw [← same]
      exact second.job
    · rcases second.job with same | again
      · exact .inr (same.trans failed)
      · exact .inr (by rw [again, failed])
  workers := second.workers.trans first.workers
  nowMs := second.nowMs.trans first.nowMs
  aofFd := second.aofFd.trans first.aofFd
  other k i differs := (second.other k i differs).trans (first.other k i differs)
  task i t found := by
    rcases first.task i t found with kept | ⟨running, attempted, ended, spent⟩
    · rcases second.task i t kept with same | ⟨running, attempted, ended, spent⟩
      · exact .inl same
      · exact .inr ⟨running, attempted, by rw [ended, first.nowMs], spent⟩
    · -- A task that has timed out is no longer running, so the rest of the sweep passes it by.
      rcases second.task i _ ended with same | ⟨again, _⟩
      · exact .inr ⟨running, attempted, same, fun last => second.phase_failed (spent last)⟩
      · exact absurd again (t.ended_state_ne _ _ _)

theorem swept_release {m : Master} {kind : TaskKind} {i : Nat} {t : Task} (found : m.task? kind i = some t)
    (running : t.state = .inProgress) (attempted : 1 ≤ t.attemptsCount) :
    Swept kind m (m.release kind i t .timeout t.ownerFd) where
  job := by
    rw [Master.release_job]
    split
    · exact .inr rfl
    · exact .inl rfl
  workers := by simp
  nowMs := by simp
  aofFd := by simp
  other k j differs := by
    rw [Master.task?_release, Master.task?_setTask_ne]
    simp [differs]
  task j u read := by
    by_cases same : j = i
    · subst same
      cases found.symm.trans read
      refine .inr ⟨running, attempted, Master.release_task .timeout t.ownerFd found, fun spent => ?_⟩
      rw [Master.release_job, if_pos spent]
    · rw [Master.task?_release]
      exact .inl ((Master.task?_setTask_ne _ _ (by simp [same])).trans read)

theorem sweepFrom_swept {kind : TaskKind} {indices : List Nat} {m m' : Master}
    (swept : sweepFrom kind indices m = some m') : Swept kind m m' := by
  induction indices generalizing m with
  | nil =>
    cases swept
    exact .refl _ _
  | cons i rest ih =>
    cases sweepFrom_round swept with
    | passed _ _ onward => exact ih onward
    | ended found _ running attempted _ onward => exact (swept_release found running attempted).trans (ih onward)
    | stopped found _ running attempted _ last =>
      rw [last]
      exact swept_release found running attempted

/-! ## Reports -/

def ackBytes : Bytes := [RpcKind.taskDoneAck.code]

/-- The report a payload carries, when it is one and decodes. -/
def reportOf (payload : Bytes) : Option TaskDoneReq :=
  if rpcPeekKind payload = some .taskDoneReq then rpcDecodeTaskDoneReq payload.tail else none

def Master.complete (m : Master) (kind : TaskKind) (i : Nat) (t : Task) (fd : Fd) : Master :=
  let m' := m.setTask kind i (t.succeeded fd m.nowMs)
  maybeAdvancePhase { m' with job := m.job.countDone kind }

/-- A report the attempt check lets through, with the task it is applied to. -/
structure Accepted (m : Master) (fd : Fd) (payload : Bytes) (msg : TaskDoneReq) (kind : TaskKind) (t : Task) :
    Prop where
  decoded : reportOf payload = some msg
  phase : m.job.phase.kind? = some kind
  found : m.task? kind (m.workers fd).currentTaskId = some t
  current : msg.attemptId.toNat = t.currentAttempt
  attempted : 1 ≤ t.attemptsCount

/-- Every way a callback can act on the tables, the job and the log. -/
inductive Effect (w : World) : Callback → Reply → Prop
  | quiet {c : Callback} {r : Reply} (core : SameCore w.master r.master) (log : r.log = w.log)
      (unmarked : r.marked = none) : Effect w c r
  | assigned {fd : Fd} {payload : Bytes} {env : Env} {r : Reply} {kind : TaskKind} {i : Nat} {t : Task}
      (asked : rpcPeekKind payload = some .getTaskReq) (phase : w.master.job.phase.kind? = some kind)
      (below : i < w.master.job.total kind) (found : w.master.task? kind i = some t)
      (pending : t.state = .pending)
      (core : SameCore (w.master.setTask kind i (t.assigned fd w.master.nowMs)) r.master)
      (log : r.log = w.log) (unmarked : r.marked = none) : Effect w (.message fd payload env) r
  | completed {fd : Fd} {payload : Bytes} {env : Env} {r : Reply} {msg : TaskDoneReq} {kind : TaskKind} {t : Task}
      (accepted : Accepted w.master fd payload msg kind t) (success : msg.result = 0)
      (core : SameCore (w.master.complete kind (w.master.workers fd).currentTaskId t fd) r.master)
      (log : 0 ≤ w.master.aofFd → r.log = w.log ++ (AofRecord.of msg (w.master.workers fd).currentKind).bytes.take
        (WriteResult.accepted env.write aofRecordSize))
      (marked : r.marked = some (kind, (w.master.workers fd).currentTaskId))
      (sent : r.sent = if env.send = .queued then some ackBytes else none) :
      Effect w (.message fd payload env) r
  | released {fd : Fd} {payload : Bytes} {env : Env} {r : Reply} {msg : TaskDoneReq} {kind : TaskKind} {t : Task}
      (accepted : Accepted w.master fd payload msg kind t) (failure : msg.result ≠ 0)
      (core : SameCore (w.master.release kind (w.master.workers fd).currentTaskId t .failed fd.val) r.master)
      (log : r.log = w.log) (unmarked : r.marked = none) : Effect w (.message fd payload env) r
  | swept {now realtime : Int} {r : Reply} {kind : TaskKind}
      (phase : w.master.job.phase.kind? = some kind)
      (swept : Swept kind (w.master.tick now realtime) r.master)
      (log : r.log = w.log) (unmarked : r.marked = none) : Effect w (.periodic now realtime) r

theorem masterPeriodic_cases {m m' : Master} {now realtime : Int} (ticked : masterPeriodic m now realtime = some m') :
    (m' = m.tick now realtime ∧ ((m.cronloops + 1) % 10 = 0 → m.job.phase.kind? = none)) ∨
    ∃ kind, m.job.phase.kind? = some kind ∧
      sweepFrom kind (List.range (m.job.total kind)) (m.tick now realtime) = some m' := by
  unfold masterPeriodic at ticked
  simp only at ticked
  split at ticked
  next skipped =>
    cases ticked
    exact .inl ⟨rfl, fun tenth => absurd tenth skipped⟩
  · split at ticked
    next kind phase => exact .inr ⟨kind, phase, ticked⟩
    next ended =>
      cases ticked
      exact .inl ⟨rfl, fun _ => ended⟩

theorem masterPeriodic_effect {w : World} {now realtime : Int} {m : Master}
    (ticked : masterPeriodic w.master now realtime = some m) :
    Effect w (.periodic now realtime) ⟨{ w with master := m }, true, none, none⟩ := by
  rcases masterPeriodic_cases ticked with ⟨rfl, -⟩ | ⟨kind, phase, swept⟩
  · exact .quiet ⟨rfl, rfl, rfl, rfl⟩ rfl rfl
  · exact .swept phase (sweepFrom_swept swept) rfl rfl

def Master.handOut (m : Master) (kind : TaskKind) (i : Nat) (t : Task) (fd : Fd) : Master :=
  (m.setTask kind i (t.assigned fd m.nowMs)).setWorker fd { m.workers fd with
    hasTask := true
    currentKind := some kind
    currentTaskId := i
    currentAttemptId := t.currentAttempt + 1 }

theorem Master.handOut_task {m : Master} {kind : TaskKind} {i : Nat} {t : Task} (fd : Fd)
    (found : m.task? kind i = some t) :
    (m.handOut kind i t fd).task? kind i = some (t.assigned fd m.nowMs) := by
  rw [handOut, task?_setWorker, task?_setTask_self _ found]

theorem chooseAvailableTask_some {m m' : Master} {fd : Fd} {kind : TaskKind} {i : Nat}
    (chosen : chooseAvailableTask m fd kind = some (some i, m')) :
    ∃ t, i < m.job.total kind ∧ m.task? kind i = some t ∧ t.state = .pending ∧ m' = m.handOut kind i t fd := by
  unfold chooseAvailableTask at chosen
  split at chosen
  · cases chosen
  next j first =>
    obtain ⟨below, t, found, pending⟩ := Master.firstPending_some first
    simp only [found, Option.bind_eq_bind, Option.bind_some, Option.bind_eq_some_iff] at chosen
    obtain ⟨row, put, chosen⟩ := chosen
    obtain ⟨_, _, rfl⟩ := Task.putRow_some put
    cases chosen
    exact ⟨t, below, found, pending, rfl⟩

theorem chooseAvailableTask_none {m m' : Master} {fd : Fd} {kind : TaskKind}
    (chosen : chooseAvailableTask m fd kind = some (none, m')) : m' = m := by
  unfold chooseAvailableTask at chosen
  split at chosen
  · cases chosen
    rfl
  · simp only [Option.bind_eq_bind, Option.bind_eq_some_iff] at chosen
    obtain ⟨_, _, _, _, chosen⟩ := chosen
    cases chosen

theorem masterHandleGetTask_cases {w : World} {fd : Fd} {env : Env} {r : Reply}
    (handled : masterHandleGetTask w fd env = some r) :
    (∃ buf, (buf = rpcEncodeDoneResp msgMax ∨ ∃ msg, buf = rpcEncodeWaitResp msgMax msg) ∧
      r = respond w fd env.send buf) ∨
    ∃ kind i t, w.master.job.phase.kind? = some kind ∧ i < w.master.job.total kind ∧
      w.master.task? kind i = some t ∧ t.state = .pending ∧
      r = respond ⟨w.master.handOut kind i t fd, w.log⟩ fd env.send
        (taskResp (w.master.handOut kind i t fd) kind i (t.assigned fd w.master.nowMs)) := by
  unfold masterHandleGetTask at handled
  split at handled
  · cases handled
    exact .inl ⟨_, .inl rfl, rfl⟩
  next kind phase =>
    obtain ⟨⟨chosen, m⟩, choice, handled⟩ := Option.bind_eq_some_iff.mp handled
    cases chosen with
    | some i =>
      obtain ⟨t, below, found, pending, rfl⟩ := chooseAvailableTask_some choice
      obtain ⟨u, same, handled⟩ := Option.bind_eq_some_iff.mp handled
      cases (Master.handOut_task fd found).symm.trans same
      cases handled
      exact .inr ⟨kind, i, t, phase, below, found, pending, rfl⟩
    | none =>
      cases chooseAvailableTask_none choice
      obtain ⟨buf, waited, handled⟩ := Option.bind_eq_some_iff.mp handled
      cases handled
      unfold waitForAvailableTasks at waited
      split at waited
      · cases waited
        exact .inl ⟨_, .inr ⟨_, rfl⟩, rfl⟩
      · cases waited

theorem masterHandleGetTask_effect {w : World} {fd : Fd} {payload : Bytes} {env : Env} {r : Reply}
    (asked : rpcPeekKind payload = some .getTaskReq) (handled : masterHandleGetTask w fd env = some r) :
    Effect w (.message fd payload env) r := by
  rcases masterHandleGetTask_cases handled with ⟨buf, _, rfl⟩ | ⟨kind, i, t, phase, below, found, pending, rfl⟩
  · exact .quiet (sameCore_respond w fd _ _) (respond_log _ _ _ _) (respond_marked _ _ _ _)
  · refine .assigned asked phase below found pending ?_ (respond_log _ _ _ _) (respond_marked _ _ _ _)
    exact .trans (sameCore_setWorker _ fd _) (sameCore_respond ⟨_, w.log⟩ fd _ _)

theorem recordSuccess_some {w w' : World} {fd : Fd} {env : Env} {msg : TaskDoneReq} {kind : TaskKind} {t : Task}
    (recorded : recordSuccess w fd env msg kind t = some w') :
    1 ≤ t.attemptsCount ∧
      w'.master = w.master.complete kind (w.master.workers fd).currentTaskId t fd ∧
      (0 ≤ w.master.aofFd → w'.log = w.log ++
        (AofRecord.of msg (w.master.workers fd).currentKind).bytes.take
          (WriteResult.accepted env.write aofRecordSize)) := by
  simp only [recordSuccess, Option.bind_eq_bind, Option.bind_eq_some_iff] at recorded
  obtain ⟨row, put, recorded⟩ := recorded
  obtain ⟨first, _, rfl⟩ := Task.putRow_some put
  cases recorded
  refine ⟨first, ?_, ?_⟩
  · simp only [Master.complete, Master.setTask_job]
    rfl
  · intro opened
    simp only [Master.setTask_workers]
    exact aofAppendCompleted_file (by simpa using opened) _ _ _ _ _

theorem sameCore_sendAck (w : World) (fd : Fd) (outcome : SendOutcome) (buf : Bytes) (accepted : Bool)
    (marked : Option (TaskKind × Nat)) : SameCore w.master (sendAck w fd outcome buf accepted marked).master := by
  unfold sendAck
  simp only
  split
  · exact .trans (sameCore_respond w fd outcome (some buf)) (sameCore_setWorker _ fd _)
  · exact sameCore_respond w fd outcome (some buf)

@[simp] theorem sendAck_log (w : World) (fd : Fd) (outcome : SendOutcome) (buf : Bytes) (accepted : Bool)
    (marked : Option (TaskKind × Nat)) : (sendAck w fd outcome buf accepted marked).log = w.log := by
  unfold sendAck
  simp only
  split <;> exact respond_log w fd outcome (some buf)

@[simp] theorem sendAck_marked (w : World) (fd : Fd) (outcome : SendOutcome) (buf : Bytes) (accepted : Bool)
    (marked : Option (TaskKind × Nat)) : (sendAck w fd outcome buf accepted marked).marked = marked := by
  unfold sendAck
  simp only
  split <;> rfl

theorem sendAck_sent (w : World) (fd : Fd) (outcome : SendOutcome) (buf : Bytes) (accepted : Bool)
    (marked : Option (TaskKind × Nat)) :
    (sendAck w fd outcome buf accepted marked).sent = if outcome = .queued then some buf else none := by
  cases outcome <;> cases accepted <;> rfl

theorem taskDoneHelper_cases {w : World} {fd : Fd} {env : Env} {msg : TaskDoneReq} {r : Reply}
    (handled : taskDoneHelper w fd env msg = some r) :
    ∃ kind t, w.master.job.phase.kind? = some kind ∧
      w.master.task? kind (w.master.workers fd).currentTaskId = some t ∧
      ((msg.attemptId.toNat ≠ t.currentAttempt ∧ r = sendAck w fd env.send ackBytes false none) ∨
       (msg.attemptId.toNat = t.currentAttempt ∧ 1 ≤ t.attemptsCount ∧
        ((msg.result = 0 ∧ ∃ applied,
            applied.master = w.master.complete kind (w.master.workers fd).currentTaskId t fd ∧
            (0 ≤ w.master.aofFd → applied.log = w.log ++
              (AofRecord.of msg (w.master.workers fd).currentKind).bytes.take
                (WriteResult.accepted env.write aofRecordSize)) ∧
            r = sendAck applied fd env.send ackBytes true (some (kind, (w.master.workers fd).currentTaskId))) ∨
         (msg.result ≠ 0 ∧
            r = sendAck ⟨w.master.release kind (w.master.workers fd).currentTaskId t .failed fd.val, w.log⟩
              fd env.send ackBytes true none)))) := by
  simp only [taskDoneHelper, Option.bind_eq_bind, Option.bind_eq_some_iff] at handled
  obtain ⟨kind, phase, t, found, handled⟩ := handled
  rw [show rpcEncodeTaskDoneAck msgMax = some ackBytes from rfl] at handled
  refine ⟨kind, t, phase, found, ?_⟩
  simp only at handled
  split at handled
  next stale =>
    cases handled
    exact .inl ⟨stale, rfl⟩
  next current =>
    obtain ⟨⟨applied, marked⟩, done, rfl⟩ := Option.map_eq_some_iff.mp handled
    unfold applyReport at done
    simp only at done
    split at done
    next success =>
      obtain ⟨recorded, written, same⟩ := Option.map_eq_some_iff.mp done
      cases same
      obtain ⟨attempted, master, log⟩ := recordSuccess_some written
      exact .inr ⟨not_not.mp current, attempted, .inl ⟨success, _, master, log, rfl⟩⟩
    next failure =>
      obtain ⟨⟨m, alive⟩, ended, same⟩ := Option.map_eq_some_iff.mp done
      cases same
      obtain ⟨u, same, attempted, _, rfl⟩ := taskAttemptEnded_some ended
      cases found.symm.trans same
      exact .inr ⟨not_not.mp current, attempted, .inr ⟨failure, rfl⟩⟩

theorem taskDoneHelper_effect {w : World} {fd : Fd} {payload : Bytes} {env : Env} {msg : TaskDoneReq} {r : Reply}
    (decoded : reportOf payload = some msg) (handled : taskDoneHelper w fd env msg = some r) :
    Effect w (.message fd payload env) r := by
  obtain ⟨kind, t, phase, found, ⟨_, rfl⟩ | ⟨current, attempted, outcome⟩⟩ := taskDoneHelper_cases handled
  · exact .quiet (sameCore_sendAck _ _ _ _ _ _) (sendAck_log _ _ _ _ _ _) (sendAck_marked _ _ _ _ _ _)
  · rcases outcome with ⟨success, applied, master, log, rfl⟩ | ⟨failure, rfl⟩
    · refine .completed ⟨decoded, phase, found, current, attempted⟩ success ?_ ?_ (sendAck_marked _ _ _ _ _ _)
        (sendAck_sent _ _ _ _ _ _)
      · rw [← master]
        exact sameCore_sendAck _ _ _ _ _ _
      · intro opened
        rw [← log opened]
        exact sendAck_log _ _ _ _ _ _
    · exact .released ⟨decoded, phase, found, current, attempted⟩ failure
        (sameCore_sendAck ⟨_, w.log⟩ fd env.send _ true none) (sendAck_log _ _ _ _ _ _)
        (sendAck_marked _ _ _ _ _ _)

theorem taskDoneHelper_sent {w : World} {fd : Fd} {env : Env} {msg : TaskDoneReq} {r : Reply}
    (handled : taskDoneHelper w fd env msg = some r) :
    r.sent = if env.send = .queued then some ackBytes else none := by
  obtain ⟨_, _, _, _, ⟨_, rfl⟩ | ⟨_, _, ⟨_, applied, _, _, rfl⟩ | ⟨_, rfl⟩⟩⟩ := taskDoneHelper_cases handled
  · exact sendAck_sent _ _ _ _ _ _
  · exact sendAck_sent _ _ _ _ _ _
  · exact sendAck_sent _ _ _ _ _ _

theorem callback_report (w : World) (fd : Fd) {payload : Bytes} (env : Env) {msg : TaskDoneReq} {kind : TaskKind}
    (decoded : reportOf payload = some msg) (phase : w.master.job.phase.kind? = some kind) :
    callback w (.message fd payload env) = taskDoneHelper w fd env msg := by
  unfold reportOf at decoded
  split at decoded
  next peeked =>
    simp only [callback, masterOnMessage, peeked, decoded, masterHandleTaskDone]
    cases now : w.master.job.phase <;> rw [now] at phase <;> first | rfl | cases phase
  · cases decoded

theorem masterHandleTaskDone_cases {w : World} {fd : Fd} {env : Env} {msg : TaskDoneReq} {r : Reply}
    (handled : masterHandleTaskDone w fd env msg = some r) :
    taskDoneHelper w fd env msg = some r ∨ (w.master.job.phase.kind? = none ∧ r = ⟨w, false, none, none⟩) := by
  unfold masterHandleTaskDone at handled
  split at handled
  · exact .inl handled
  · exact .inl handled
  next ended => exact .inr ⟨by rw [ended]; rfl, (Option.some.inj handled).symm⟩
  next ended => exact .inr ⟨by rw [ended]; rfl, (Option.some.inj handled).symm⟩

theorem message_cases {w : World} {fd : Fd} {payload : Bytes} {env : Env} {r : Reply}
    (returned : callback w (.message fd payload env) = some r) :
    (rpcPeekKind payload = some .getTaskReq ∧ masterHandleGetTask w fd env = some r) ∨
    (∃ msg, reportOf payload = some msg ∧ taskDoneHelper w fd env msg = some r) ∨
    r = ⟨w, false, none, none⟩ := by
  simp only [callback, masterOnMessage] at returned
  split at returned
  next asked => exact .inl ⟨asked, returned⟩
  next peeked =>
    split at returned
    · exact .inr (.inr (Option.some.inj returned).symm)
    next msg decoded =>
      rcases masterHandleTaskDone_cases returned with helped | ⟨-, refused⟩
      · exact .inr (.inl ⟨msg, by rw [reportOf, if_pos peeked, decoded], helped⟩)
      · exact .inr (.inr refused)
  · exact .inr (.inr (Option.some.inj returned).symm)

theorem callback_effect {w : World} {c : Callback} {r : Reply} (returned : callback w c = some r) :
    Effect w c r := by
  cases c with
  | connect fd =>
    cases returned
    exact .quiet (sameCore_setWorker _ fd _) rfl rfl
  | disconnect fd =>
    cases returned
    exact .quiet (sameCore_setWorker _ fd _) rfl rfl
  | periodic now realtime =>
    obtain ⟨m, ticked, rfl⟩ := Option.map_eq_some_iff.mp returned
    exact masterPeriodic_effect ticked
  | message fd payload env =>
    rcases message_cases returned with ⟨asked, handled⟩ | ⟨msg, decoded, handled⟩ | rfl
    · exact masterHandleGetTask_effect asked handled
    · exact taskDoneHelper_effect decoded handled
    · exact .quiet (.refl _) rfl rfl

/-! ## Worker slots -/

theorem Master.setWorker_ne (m : Master) {fd other : Fd} (w : Worker) (differs : other ≠ fd) :
    (m.setWorker fd w).workers other = m.workers other := by
  simp [setWorker, differs]

@[simp] theorem maybeAdvancePhase_workers (m : Master) : (maybeAdvancePhase m).workers = m.workers := by
  unfold maybeAdvancePhase
  simp only
  split <;> split <;> rfl

@[simp] theorem Master.complete_workers (m : Master) (kind : TaskKind) (i : Nat) (t : Task) (fd : Fd) :
    (m.complete kind i t fd).workers = m.workers := by
  simp [complete]

theorem respond_workers_ne (w : World) {fd other : Fd} (outcome : SendOutcome) (buf : Option Bytes)
    (differs : other ≠ fd) : (respond w fd outcome buf).master.workers other = w.master.workers other := by
  cases buf with
  | none => rfl
  | some _ =>
    cases outcome
    · rfl
    · rfl
    · exact w.master.setWorker_ne .zero differs

theorem sendAck_workers_ne (w : World) {fd other : Fd} (outcome : SendOutcome) (buf : Bytes) (accepted : Bool)
    (marked : Option (TaskKind × Nat)) (differs : other ≠ fd) :
    (sendAck w fd outcome buf accepted marked).master.workers other = w.master.workers other := by
  unfold sendAck
  simp only
  split
  · exact (Master.setWorker_ne _ _ differs).trans (respond_workers_ne w outcome (some buf) differs)
  · exact respond_workers_ne w outcome (some buf) differs

theorem callback_workers_ne {w : World} {fd other : Fd} {payload : Bytes} {env : Env} {r : Reply}
    (returned : callback w (.message fd payload env) = some r) (differs : other ≠ fd) :
    r.master.workers other = w.master.workers other := by
  rcases message_cases returned with ⟨_, handled⟩ | ⟨_, _, handled⟩ | rfl
  · rcases masterHandleGetTask_cases handled with ⟨buf, _, rfl⟩ | ⟨kind, i, t, _, _, _, _, rfl⟩
    · exact respond_workers_ne w env.send buf differs
    · rw [respond_workers_ne _ env.send _ differs]
      exact (Master.setWorker_ne _ _ differs).trans (by simp)
  · obtain ⟨_, _, _, _, ⟨_, rfl⟩ | ⟨_, _, ⟨_, applied, master, _, rfl⟩ | ⟨_, rfl⟩⟩⟩ := taskDoneHelper_cases handled
    · exact sendAck_workers_ne w env.send _ _ _ differs
    · rw [sendAck_workers_ne applied env.send _ _ _ differs, master, Master.complete_workers]
    · rw [sendAck_workers_ne _ env.send _ _ _ differs, Master.release_workers]
  · rfl

theorem masterPeriodic_workers {m m' : Master} {now realtime : Int}
    (ticked : masterPeriodic m now realtime = some m') : m'.workers = m.workers := by
  rcases masterPeriodic_cases ticked with ⟨rfl, -⟩ | ⟨kind, -, swept⟩
  · rfl
  · exact (sweepFrom_swept swept).workers

end MapReduce
