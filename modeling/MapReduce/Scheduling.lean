import MapReduce.Bookkeeping
import MapReduce.Safety

/-! Which task a report reaches, and when a worker is told to wait.

`task_done_helper` takes its index from the slot of the connection and its table
from the phase. A slot that was filled in the map phase, or never, can therefore
point past the reduces or at a task nobody was handed. Waiting, by contrast, is
justified in every run, as long as the counters start within their totals.
-/

set_option autoImplicit false

namespace MapReduce

/-! ## Slots -/

/-- Kind and id of a slot, all that decides which task a report reaches. -/
def Worker.names (slot : Worker) : Option TaskKind × Nat := (slot.currentKind, slot.currentTaskId)

/-- A slot is blank, or it names a task of its kind. Reduces are not handed out in the map phase. -/
structure NamedIn (job : Job) (names : Option TaskKind × Nat) : Prop where
  blank : names.1 = none → names.2 = 0
  below : ∀ kind, names.1 = some kind → names.2 < job.total kind
  phase : names.1 = some .reduce → job.phase ≠ .map

theorem NamedIn.zero (job : Job) : NamedIn job Worker.zero.names where
  blank _ := rfl
  below _ named := by cases named
  phase named := by cases named

theorem JobMove.namedIn {job job' : Job} {marked : Option (TaskKind × Nat)} (move : JobMove job marked job')
    {names : Option TaskKind × Nat} (named : NamedIn job names) : NamedIn job' names where
  blank := named.blank
  below kind is := by
    rw [move.total]
    exact named.below kind is
  phase is := move.phase_ne_map (named.phase is)

theorem respond_names (w : World) (fd : Fd) (outcome : SendOutcome) (buf : Option Bytes) :
    ((respond w fd outcome buf).master.workers fd).names = (w.master.workers fd).names ∨
      ((respond w fd outcome buf).master.workers fd).names = Worker.zero.names := by
  cases buf with
  | none => exact .inl rfl
  | some _ =>
    cases outcome
    · exact .inl rfl
    · exact .inl rfl
    · exact .inr (by simp [respond, serverSend, masterOnDisconnect, Master.setWorker])

theorem sendAck_names (w : World) (fd : Fd) (outcome : SendOutcome) (buf : Bytes) (accepted : Bool)
    (marked : Option (TaskKind × Nat)) :
    ((sendAck w fd outcome buf accepted marked).master.workers fd).names = (w.master.workers fd).names ∨
      ((sendAck w fd outcome buf accepted marked).master.workers fd).names = Worker.zero.names := by
  have plain := respond_names w fd outcome (some buf)
  unfold sendAck
  simp only
  split
  · simpa [Master.clearHasTask, Master.setWorker, Worker.names] using plain
  · exact plain

theorem taskDoneHelper_names {w : World} {fd : Fd} {env : Env} {msg : TaskDoneReq} {r : Reply}
    (handled : taskDoneHelper w fd env msg = some r) :
    (r.master.workers fd).names = (w.master.workers fd).names ∨
      (r.master.workers fd).names = Worker.zero.names := by
  obtain ⟨kind, t, _, _, ⟨_, rfl⟩ | ⟨_, _, ⟨_, applied, master, _, rfl⟩ | ⟨_, rfl⟩⟩⟩ := taskDoneHelper_cases handled
  · exact sendAck_names w fd _ _ _ _
  · have names := sendAck_names applied fd env.send ackBytes true (some (kind, (w.master.workers fd).currentTaskId))
    rwa [master, Master.complete_workers] at names
  · have names := sendAck_names ⟨w.master.release kind (w.master.workers fd).currentTaskId t .failed fd.val, w.log⟩
      fd env.send ackBytes true none
    rwa [Master.release_workers] at names

theorem callback_names {w : World} {fd : Fd} {payload : Bytes} {env : Env} {r : Reply}
    (returned : callback w (.message fd payload env) = some r) :
    (r.master.workers fd).names = (w.master.workers fd).names ∨
      (r.master.workers fd).names = Worker.zero.names ∨
      ∃ kind i, w.master.job.phase.kind? = some kind ∧ i < w.master.job.total kind ∧
        (r.master.workers fd).names = (some kind, i) := by
  rcases message_cases returned with ⟨-, handled⟩ | ⟨msg, -, handled⟩ | rfl
  · rcases masterHandleGetTask_cases handled with ⟨buf, _, rfl⟩ | ⟨kind, i, t, phase, below, _, _, rfl⟩
    · rcases respond_names w fd env.send buf with same | blank
      · exact .inl same
      · exact .inr (.inl blank)
    · rcases respond_names ⟨w.master.handOut kind i t fd, w.log⟩ fd env.send
        (taskResp (w.master.handOut kind i t fd) kind i (t.assigned fd w.master.nowMs)) with same | blank
      · refine .inr (.inr ⟨kind, i, phase, below, same.trans ?_⟩)
        simp [Master.handOut, Master.setWorker, Worker.names]
      · exact .inr (.inl blank)
  · exact (taskDoneHelper_names handled).imp_right .inl
  · exact .inl rfl

theorem NamedIn.setWorker {m : Master} {fd other : Fd} (slot : Worker) (blank : slot.names = Worker.zero.names)
    (named : NamedIn m.job (m.workers fd).names) : NamedIn m.job ((m.setWorker other slot).workers fd).names := by
  by_cases mine : fd = other
  · subst mine
    have here : (m.setWorker fd slot).workers fd = slot := by simp [Master.setWorker]
    rw [here, blank]
    exact .zero _
  · rw [Master.setWorker_ne m slot mine]
    exact named

theorem slots_next {w w' : World} {c : Callback} (named : ∀ fd, NamedIn w.master.job (w.master.workers fd).names)
    (taken : w.next c = some w') (fd : Fd) : NamedIn w'.master.job (w'.master.workers fd).names := by
  obtain ⟨r, returned, rfl⟩ := Option.map_eq_some_iff.mp taken
  have move := (callback_effect returned).job
  cases c with
  | connect other =>
    cases returned
    exact .setWorker { Worker.zero with connectedAtMs := w.master.nowMs } rfl (named fd)
  | disconnect other =>
    cases returned
    exact .setWorker .zero rfl (named fd)
  | periodic now realtime =>
    obtain ⟨m, ticked, rfl⟩ := Option.map_eq_some_iff.mp returned
    rw [show m.workers = w.master.workers from masterPeriodic_workers ticked]
    exact move.namedIn (named fd)
  | message other payload env =>
    by_cases mine : fd = other
    · subst mine
      rcases callback_names returned with same | blank | ⟨kind, i, phase, below, names⟩
      · rw [same]
        exact move.namedIn (named fd)
      · rw [blank]
        exact .zero _
      · rw [names]
        apply move.namedIn
        refine ⟨by simp, ?_, ?_⟩
        · intro k is
          cases is
          exact below
        · intro is first
          cases is
          rw [first] at phase
          cases phase
    · rw [callback_workers_ne returned mine]
      exact move.namedIn (named fd)

/-! ## Indices -/

/-- The indices a callback uses: the task a report selects is one of the phase, and every closed
attempt has its row. -/
def IndicesInRange (w : World) : Callback → Prop
  | .message fd payload _ => ∀ msg ∈ reportOf payload, ∀ kind ∈ w.master.job.phase.kind?,
      (w.master.workers fd).currentTaskId < w.master.job.total kind ∧
      ∀ t ∈ w.master.task? kind (w.master.workers fd).currentTaskId,
        msg.attemptId.toNat = t.currentAttempt → 1 ≤ t.attemptsCount ∧ t.attemptsCount ≤ maxAttempts
  | .periodic _ _ => ∀ kind ∈ w.master.job.phase.kind?, ∀ i < w.master.job.total kind,
      ∀ t ∈ w.master.task? kind i, t.state = .inProgress → 1 ≤ t.attemptsCount ∧ t.attemptsCount ≤ maxAttempts
  | _ => True

instance (w : World) : (c : Callback) → Decidable (IndicesInRange w c)
  | .message fd payload _ => inferInstanceAs (Decidable (∀ msg ∈ reportOf payload,
      ∀ kind ∈ w.master.job.phase.kind?, (w.master.workers fd).currentTaskId < w.master.job.total kind ∧
        ∀ t ∈ w.master.task? kind (w.master.workers fd).currentTaskId,
          msg.attemptId.toNat = t.currentAttempt → 1 ≤ t.attemptsCount ∧ t.attemptsCount ≤ maxAttempts))
  | .periodic _ _ => inferInstanceAs (Decidable (∀ kind ∈ w.master.job.phase.kind?,
      ∀ i < w.master.job.total kind, ∀ t ∈ w.master.task? kind i, t.state = .inProgress →
        1 ≤ t.attemptsCount ∧ t.attemptsCount ≤ maxAttempts))
  | .connect _ | .disconnect _ => .isTrue trivial

/-- No report comes in the reduce phase from a slot that names a map past the reduces, and none
with attempt 0 for a task that was never handed out. -/
def ReportsStayInside (w : World) : Callback → Prop
  | .message fd payload _ => ∀ msg ∈ reportOf payload, ∀ kind ∈ w.master.job.phase.kind?,
      (kind = .reduce → (w.master.workers fd).currentKind = some .map →
        (w.master.workers fd).currentTaskId < w.master.job.R) ∧
      ∀ t ∈ w.master.task? kind (w.master.workers fd).currentTaskId, msg.attemptId = 0 → t.currentAttempt ≠ 0
  | _ => True

theorem NamedIn.inside {job : Job} {names : Option TaskKind × Nat} {kind : TaskKind} (named : NamedIn job names)
    (some_task : 0 < job.total kind) (phase : job.phase.kind? = some kind) :
    names.2 < job.total kind ↔ (kind = .reduce → names.1 = some .map → names.2 < job.R) := by
  cases slot : names.1 with
  | none =>
    rw [named.blank slot]
    simp [some_task]
  | some other =>
    have below := named.below other slot
    cases kind with
    | map =>
      cases other with
      | map => simp [below]
      | reduce =>
        have past := named.phase slot
        cases at_phase : job.phase <;> rw [at_phase] at phase <;> cases phase
        exact absurd at_phase past
    | reduce =>
      cases other with
      | map => exact ⟨fun inside _ _ => inside, fun inside => inside rfl rfl⟩
      | reduce => simp [below]

structure Indexed (job : JobDef) (m : Master) : Prop where
  sound : Sound job m
  named : ∀ fd, NamedIn m.job (m.workers fd).names

theorem indicesInRange_iff {job : JobDef} {w : World} (indexed : Indexed job w.master) (c : Callback) :
    IndicesInRange w c ↔ ReportsStayInside w c := by
  cases c with
  | connect | disconnect => exact Iff.rfl
  | periodic =>
    refine iff_of_true ?_ trivial
    intro kind _ i _ t found running
    have task := indexed.sound.task kind i t found
    exact ⟨task.running running, task.cap⟩
  | message fd payload env =>
    refine forall_congr' fun msg => imp_congr_right fun decoded => ?_
    refine forall_congr' fun kind => imp_congr_right fun phase => ?_
    have some_task : 0 < w.master.job.total kind := by
      rw [indexed.sound.total]
      cases kind
      · exact job.maps_pos
      · exact job.reduces_pos
    refine and_congr ((indexed.named fd).inside some_task phase) ?_
    refine forall_congr' fun t => imp_congr_right fun found => ?_
    have task := indexed.sound.task kind _ t found
    have count := task.count
    have cap := task.cap
    constructor
    · intro rows zero never
      have := (rows (by rw [zero, never]; rfl)).1
      omega
    · intro handed current
      refine ⟨?_, cap⟩
      by_contra none_made
      have never : t.currentAttempt = 0 := by omega
      refine handed ?_ never
      apply UInt32.toNat_inj.mp
      rw [current, never]
      rfl

/-- Over a whole run of a fresh job, every index stays in range exactly when every report stays
inside. -/
theorem indices_along_iff (config : MasterConfig) (job : JobDef) (fd : Nat) (createdMs : UInt64)
    (now realtime : Int) (events : List Callback) :
    Runs.Along World.next IndicesInRange (World.start config job fd createdMs now realtime) events ↔
      Runs.Along World.next ReportsStayInside (World.start config job fd createdMs now realtime) events := by
  have start : Indexed job (World.start config job fd createdMs now realtime).master :=
    ⟨World.start_sound config job fd createdMs now realtime, fun _ => .zero _⟩
  refine Runs.along_congr ?_ (fun _ c indexed => indicesInRange_iff indexed c) start
  intro w c next indexed _ taken
  exact ⟨next_sound indexed.sound taken, fun fd => slots_next indexed.named taken fd⟩

def overtakenRun : List Callback :=
  [.connect workerA, .connect workerB, askFrom workerA, askFrom workerB, reportFrom workerA 0 1 0] ++
  List.replicate 10 (.periodic 2000 0) ++ [askFrom workerA, reportFrom workerA 1 2 0]

/-- A report with attempt 0 on a fresh connection writes before the first row of map 0. A late
report of map 1 in the reduce phase selects reduce 1 of a job with one reduce. -/
theorem indices_escape :
    (∃ w, Runs.run World.next pairStart [.connect workerA] = some w ∧
      ¬ IndicesInRange w (reportFrom workerA 0 0 0) ∧ w.next (reportFrom workerA 0 0 0) = none) ∧
    ∃ w, Runs.run World.next pairStart overtakenRun = some w ∧ w.master.job.phase = .reduce ∧
      (w.master.workers workerB).currentTaskId = 1 ∧ w.master.job.R = 1 ∧
      ¬ IndicesInRange w (reportFrom workerB 1 1 0) := by
  have unassigned : (Runs.run World.next pairStart [.connect workerA]).any (fun w =>
      decide (¬ IndicesInRange w (reportFrom workerA 0 0 0)) && (w.next (reportFrom workerA 0 0 0)).isNone) = true := by
    decide +kernel
  have overtaken : (Runs.run World.next pairStart overtakenRun).any (fun w => w.master.job.phase == .reduce &&
      (w.master.workers workerB).currentTaskId == 1 && w.master.job.R == 1 &&
      decide (¬ IndicesInRange w (reportFrom workerB 1 1 0))) = true := by
    decide +kernel
  constructor
  · obtain ⟨w, reached, holds⟩ := (Option.any_eq_true _ _).mp unassigned
    simp only [Bool.and_eq_true, decide_eq_true_eq, Option.isNone_iff_eq_none] at holds
    exact ⟨w, reached, holds⟩
  · obtain ⟨w, reached, holds⟩ := (Option.any_eq_true _ _).mp overtaken
    simp only [Bool.and_eq_true, beq_iff_eq, decide_eq_true_eq] at holds
    exact ⟨w, reached, holds.1.1.1, holds.1.1.2, holds.1.2, holds.2⟩

/-! ## Waiting -/

/-- The counters are within their totals, and behind in the phase that is running. -/
structure Job.Paced (job : Job) : Prop where
  within : ∀ kind, job.doneCount kind ≤ job.total kind
  behind : ∀ kind, job.phase.kind? = some kind → job.doneCount kind < job.total kind

theorem Job.advance_paced {job : Job} (within : ∀ kind, job.doneCount kind ≤ job.total kind) :
    job.advance.Paced := by
  refine ⟨?_, ?_⟩
  · intro kind
    rw [advance_doneCount, advance_total]
    exact within kind
  · intro kind phase
    rw [advance_doneCount, advance_total]
    refine Nat.lt_of_le_of_ne (within kind) fun full => ?_
    -- A full counter has moved the phase on.
    cases kind with
    | map =>
      have maps : job.mapsDone = job.M := full
      unfold advance at phase
      simp only [maps, and_true] at phase
      split at phase
      · split at phase <;> cases phase
      next other =>
        split at phase
        · cases phase
        · cases now : job.phase <;> rw [now] at phase <;> cases phase
          exact other now
    | reduce =>
      have reduces : job.reducesDone = job.R := full
      unfold advance at phase
      simp only [reduces, ↓reduceIte, and_true] at phase
      split at phase
      · cases phase
      · split at phase
        · cases phase
        next other =>
          cases now : job.phase <;> rw [now] at phase <;> cases phase
          exact other now

theorem JobMove.paced {job job' : Job} {marked : Option (TaskKind × Nat)} (move : JobMove job marked job')
    (fits : ∀ kind, job.total kind ≤ kind.capacity) (paced : job.Paced) : job'.Paced := by
  cases move with
  | keep => exact paced
  | fail =>
    refine ⟨paced.within, ?_⟩
    intro kind phase
    cases phase
  | @count kind _ phase =>
    apply Job.advance_paced
    have behind := paced.behind kind phase
    intro other
    have within := paced.within other
    have bound := fits kind
    cases kind <;> cases other <;>
      simp only [Job.countDone, Job.doneCount, Job.total, TaskKind.capacity, maxMapTasks, maxReduceTasks] at * <;> omega

/-- The counters may run ahead of the completed tasks, never behind. -/
structure Paced (m : Master) : Prop where
  kept : PhaseKept m
  job : m.job.Paced
  covered : ∀ kind, m.completedCount kind ≤ m.job.doneCount kind

theorem Effect.done_before {w : World} {c : Callback} {r : Reply} (effect : Effect w c r) {kind : TaskKind} {i : Nat}
    (done : r.master.Done kind i) : w.master.Done kind i ∨ r.marked = some (kind, i) := by
  cases effect with
  | quiet core => exact .inl ((core.done kind i).mp done)
  | assigned _ _ _ found pending core =>
    rw [core.done, Master.done_setTask_open found (by simp [pending]) (by simp [Task.assigned])] at done
    exact .inl done
  | completed accepted _ core _ marked =>
    rw [core.done, Master.done_complete _ accepted.found] at done
    exact done.imp_right fun same => marked.trans (congrArg some same)
  | @released fd _ _ _ _ k t accepted _ core =>
    obtain ⟨t', after, completed⟩ := (core.done kind i).mp done
    rw [Master.task?_release] at after
    obtain ⟨u, before⟩ := w.master.task?_isSome (Master.lt_capacity after)
    rcases setTask_cases accepted.found before with kept | ⟨_, _, _, changed⟩
    · cases after.symm.trans kept
      exact .inl ⟨_, before, completed⟩
    · cases after.symm.trans changed
      exact absurd completed (t.ended_state_ne_completed _ _ _)
  | @swept now realtime _ _ _ swept =>
    have ticked := (swept.done kind i).mp done
    exact .inl (by cases kind <;> exact ticked)

theorem completedCount_mono {m m' : Master} {kind : TaskKind} (total : m'.job.total kind = m.job.total kind)
    (only : ∀ j, m'.Done kind j → m.Done kind j) : m'.completedCount kind ≤ m.completedCount kind := by
  have reads : ∀ j, (m'.task? kind j).any (·.state == .completed) = true →
      (m.task? kind j).any (·.state == .completed) = true := by
    intro j now
    exact Master.any_completed.mpr (only j (Master.any_completed.mp now))
  cases kind with
  | map =>
    simp only [Master.completedCount, show m'.job.M = m.job.M from total]
    exact Table.countBelow_mono fun j _ => reads j
  | reduce =>
    simp only [Master.completedCount, show m'.job.R = m.job.R from total]
    exact Table.countBelow_mono fun j _ => reads j

theorem completedCount_le_succ {m m' : Master} {kind : TaskKind} {i : Nat}
    (total : m'.job.total kind = m.job.total kind) (only : ∀ j, j ≠ i → m'.Done kind j → m.Done kind j) :
    m'.completedCount kind ≤ m.completedCount kind + 1 := by
  have reads : ∀ j, j ≠ i → (m'.task? kind j).any (·.state == .completed) = true →
      (m.task? kind j).any (·.state == .completed) = true := by
    intro j other now
    exact Master.any_completed.mpr (only j other (Master.any_completed.mp now))
  cases kind with
  | map =>
    simp only [Master.completedCount, show m'.job.M = m.job.M from total]
    exact Table.countBelow_le_succ reads
  | reduce =>
    simp only [Master.completedCount, show m'.job.R = m.job.R from total]
    exact Table.countBelow_le_succ reads

theorem Effect.completedCount_le {w : World} {c : Callback} {r : Reply} (effect : Effect w c r) (kind : TaskKind) :
    r.master.completedCount kind ≤ w.master.completedCount kind + if r.marked.any (·.1 == kind) then 1 else 0 := by
  have total := effect.job.total kind
  by_cases hit : ∃ i, r.marked = some (kind, i)
  · obtain ⟨i, marked⟩ := hit
    rw [if_pos (by simp [marked])]
    apply completedCount_le_succ total
    intro j other now
    rcases effect.done_before now with before | same
    · exact before
    · cases marked.symm.trans same
      exact absurd rfl other
  · refine Nat.le_trans (completedCount_mono total ?_) (Nat.le_add_right _ _)
    intro j now
    rcases effect.done_before now with before | same
    · exact before
    · exact absurd ⟨j, same⟩ hit

theorem paced_next {w w' : World} {c : Callback} (paced : Paced w.master) (taken : w.next c = some w') :
    Paced w'.master := by
  have kept := phaseKept_next paced.kept taken
  obtain ⟨r, returned, rfl⟩ := Option.map_eq_some_iff.mp taken
  have effect := callback_effect returned
  have fits := paced.kept.booked.totals
  refine ⟨kept, effect.job.paced fits paced.job, ?_⟩
  intro kind
  have small : w.master.job.doneCount kind + 1 < 2 ^ 32 := by
    have within := paced.job.within kind
    have bound := fits kind
    cases kind <;> simp only [TaskKind.capacity, maxMapTasks, maxReduceTasks] at bound <;> omega
  have covered := paced.covered kind
  have more := effect.completedCount_le kind
  rw [effect.job.doneCount small]
  omega

theorem Master.firstPending_none {m : Master} {kind : TaskKind} {i : Nat} {t : Task}
    (missing : m.firstPending kind = none) (below : i < m.job.total kind) (found : m.task? kind i = some t) :
    t.state ≠ .pending := by
  cases kind <;>
  · have other := Table.firstBelow_none missing below found
    simpa using other

/-- When no task of the running phase is pending, one is in progress: the assertion of the wait
branch holds, and somebody will end the wait. -/
theorem Paced.wait {m : Master} (paced : Paced m) {kind : TaskKind} (phase : m.job.phase.kind? = some kind)
    (none_pending : m.firstPending kind = none) :
    ∃ i t, i < m.job.total kind ∧ m.task? kind i = some t ∧ t.state = .inProgress := by
  by_contra idle
  have all : ∀ i, i < m.job.total kind → m.Done kind i := by
    intro i below
    obtain ⟨t, found⟩ := m.task?_isSome (Nat.lt_of_lt_of_le below (paced.kept.booked.totals kind))
    refine ⟨t, found, ?_⟩
    cases state : t.state with
    | completed => rfl
    | inProgress => exact absurd ⟨i, t, below, found, state⟩ idle
    | pending => exact absurd state (Master.firstPending_none none_pending below found)
    | failed =>
      rw [paced.kept.failed.mp ⟨kind, i, t, found, state⟩] at phase
      cases phase
  have full : m.completedCount kind = m.job.total kind := by
    rw [Master.completedCount_eq, List.countP_eq_length.mpr, List.length_range]
    intro i member
    exact Master.any_completed.mpr (all i (List.mem_range.mp member))
  have covered := paced.covered kind
  have behind := paced.job.behind kind phase
  omega

/-! ### Start states -/

def recordCount (kind : TaskKind) (records : List AofRecord) : Nat :=
  records.countP (·.kind == kindCode (some kind))

/-- What replay has counted, and the completed tasks it has marked. -/
structure Replay.Covered (M R maps reduces : Nat) (s : Replay) : Prop where
  mapsCount : s.mapsCount = maps
  reduceCount : s.reduceCount = reduces
  maps : s.maps.countBelow (·.state == .completed) M ≤ maps
  reduces : s.reduces.countBelow (·.state == .completed) R ≤ reduces

theorem markCompleted_count {capacity id n : Nat} {tasks tasks' : Table capacity Task}
    (marked : markCompleted tasks id = .ok tasks') :
    tasks'.countBelow (·.state == .completed) n ≤ tasks.countBelow (·.state == .completed) n + 1 := by
  obtain ⟨t, -, rfl⟩ := markCompleted_ok marked
  refine Table.countBelow_le_succ (i := id) ?_
  intro j other now
  rwa [Table.read_write, if_neg other] at now

theorem replayRecord_covered {M R maps reduces : Nat} {s s' : Replay} {record : AofRecord}
    (covered : s.Covered M R maps reduces) (replayed : replayRecord M R s record = .ok s') :
    s'.Covered M R (maps + recordCount .map [record]) (reduces + recordCount .reduce [record]) := by
  have apart : kindCode (some .map) ≠ kindCode (some .reduce) := by decide
  rcases replayRecord_ok replayed with ⟨named, -, tasks, marked, rfl⟩ | ⟨named, -, tasks, marked, rfl⟩ | ⟨other, rfl⟩
  · have counts : recordCount .map [record] = 1 ∧ recordCount .reduce [record] = 0 := by
      simp [recordCount, named, apart]
    rw [counts.1, counts.2]
    exact ⟨congrArg (· + 1) covered.mapsCount, covered.reduceCount,
      Nat.le_trans (markCompleted_count marked) (Nat.succ_le_succ covered.maps), covered.reduces⟩
  · have counts : recordCount .map [record] = 0 ∧ recordCount .reduce [record] = 1 := by
      simp [recordCount, named, apart.symm]
    rw [counts.1, counts.2]
    exact ⟨covered.mapsCount, congrArg (· + 1) covered.reduceCount, covered.maps,
      Nat.le_trans (markCompleted_count marked) (Nat.succ_le_succ covered.reduces)⟩
  · have counts : ∀ kind, recordCount kind [record] = 0 := by
      intro kind
      simp [recordCount, other kind]
    rw [counts, counts]
    exact covered

theorem replay_covered {M R : Nat} {records : List AofRecord} {maps reduces : Nat} {s s' : Replay}
    (covered : s.Covered M R maps reduces) (replayed : records.foldlM (replayRecord M R) s = .ok s') :
    s'.Covered M R (maps + recordCount .map records) (reduces + recordCount .reduce records) := by
  induction records generalizing s maps reduces with
  | nil =>
    cases replayed
    exact covered
  | cons record rest ih =>
    simp only [List.foldlM_cons, bind, Except.bind] at replayed
    split at replayed
    · cases replayed
    next mid step =>
      have later := ih (replayRecord_covered covered step) replayed
      have split : ∀ kind, recordCount kind (record :: rest) = recordCount kind [record] + recordCount kind rest := by
        intro kind
        rw [← List.singleton_append]
        exact List.countP_append
      rwa [split, split, ← Nat.add_assoc, ← Nat.add_assoc]

/-- A fresh job, or one loaded from a log in which no kind has more records than tasks. -/
inductive StartsWithin (config : MasterConfig) (m : Master) : Prop
  | fresh {entries : List DirEntry} (ready : masterInitJob (Master.zero config) entries = some m)
  | loaded {createdMs : UInt64} {job : JobDef} {records : List AofRecord}
      (few : ∀ kind, recordCount kind records ≤ job.total kind)
      (loaded : aofLoad (Master.zero config) (logBytes createdMs job records) = .ok m)

theorem StartsWithin.booted {config : MasterConfig} {m : Master} (starts : StartsWithin config m) :
    Booted config m := by
  cases starts with
  | fresh ready => exact .fresh ready
  | loaded _ loaded => exact .loaded loaded

theorem replayRecord_range {job : JobDef} {s s' : Replay} {record : AofRecord} {kind : TaskKind}
    (replayed : replayRecord job.M job.R s record = .ok s') (named : record.kind = kindCode (some kind)) :
    record.taskId.toNat < job.total kind := by
  have apart : kindCode (some .map) ≠ kindCode (some .reduce) := by decide
  rcases replayRecord_ok replayed with ⟨isMap, inside, _⟩ | ⟨isReduce, inside, _⟩ | ⟨other, _⟩
  · cases kind with
    | map => exact inside
    | reduce => exact absurd (isMap.symm.trans named) apart
  · cases kind with
    | map => exact absurd (named.symm.trans isReduce) apart
    | reduce => exact inside
  · exact absurd named (other kind)

theorem replay_ranges {job : JobDef} {records : List AofRecord} {s s' : Replay}
    (replayed : records.foldlM (replayRecord job.M job.R) s = .ok s') {record : AofRecord} (member : record ∈ records)
    {kind : TaskKind} (named : record.kind = kindCode (some kind)) : record.taskId.toNat < job.total kind := by
  induction records generalizing s with
  | nil => cases member
  | cons first rest ih =>
    simp only [List.foldlM_cons, bind, Except.bind] at replayed
    split at replayed
    · cases replayed
    next mid step =>
      rcases List.mem_cons.mp member with rfl | later
      · exact replayRecord_range step named
      · exact ih replayed later

theorem recordCount_le {job : JobDef} {records : List AofRecord} {s s' : Replay}
    (replayed : records.foldlM (replayRecord job.M job.R) s = .ok s')
    (distinct : (records.map fun record => (record.kind, record.taskId)).Nodup) (kind : TaskKind) :
    recordCount kind records ≤ job.total kind := by
  let ids := (records.filter (·.kind == kindCode (some kind))).map fun record => record.taskId.toNat
  have nodup : ids.Nodup := by
    have pairs := distinct.sublist
      ((List.filter_sublist (p := fun record => record.kind == kindCode (some kind))).map _)
    rw [List.Nodup, List.pairwise_map] at pairs ⊢
    refine pairs.imp_of_mem ?_
    intro first second left right differ same
    have kinds : ∀ record ∈ records.filter (·.kind == kindCode (some kind)), record.kind = kindCode (some kind) := by
      intro record member
      simpa using (List.mem_filter.mp member).2
    apply differ
    rw [kinds first left, kinds second right, UInt32.toNat_inj.mp same]
  have inside : ids ⊆ List.range (job.total kind) := by
    intro i member
    obtain ⟨record, listed, rfl⟩ := List.mem_map.mp member
    obtain ⟨member, named⟩ := List.mem_filter.mp listed
    exact List.mem_range.mpr (replay_ranges replayed member (beq_iff_eq.mp named))
  have bound := (List.subperm_of_subset nodup inside).length_le
  rwa [List.length_map, List.length_range, ← List.countP_eq_length_filter] at bound

theorem aofLoad_replay {config : MasterConfig} {createdMs : UInt64} {job : JobDef} {records : List AofRecord}
    {m : Master} (loaded : aofLoad (Master.zero config) (logBytes createdMs job records) = .ok m) :
    ∃ s, records.foldlM (replayRecord job.M job.R)
        ⟨mapTable job.paths, resetPrefix (Table.fill .zero) job.R, 0, 0⟩ = .ok s ∧
      m = maybeAdvancePhase { Master.zero config with
        job := ⟨job.M, job.R, .map, s.mapsCount % 2 ^ 32, s.reduceCount % 2 ^ 32, config.taskTimeoutMs⟩
        maps := s.maps
        reduces := s.reduces } := by
  obtain ⟨fuel, loop⟩ := replayLoop_tail job.M job.R records []
    ⟨mapTable job.paths, resetPrefix (Table.fill .zero) job.R, 0, 0⟩
  rw [List.append_nil] at loop
  rw [logBytes, aofLoad_headers, loop] at loaded
  cases replayed : records.foldlM (replayRecord job.M job.R)
      ⟨mapTable job.paths, resetPrefix (Table.fill .zero) job.R, 0, 0⟩ with
  | error stop =>
    rw [replayed] at loaded
    cases loaded
  | ok s =>
    rw [replayed] at loaded
    cases loaded
    exact ⟨s, rfl, rfl⟩

theorem StartsWithin.of_distinct {config : MasterConfig} {createdMs : UInt64} {job : JobDef}
    {records : List AofRecord} {m : Master}
    (distinct : (records.map fun record => (record.kind, record.taskId)).Nodup)
    (loaded : aofLoad (Master.zero config) (logBytes createdMs job records) = .ok m) : StartsWithin config m := by
  obtain ⟨s, replayed, _⟩ := aofLoad_replay loaded
  exact .loaded (recordCount_le replayed distinct) loaded

theorem completedCount_maybeAdvancePhase (m : Master) (kind : TaskKind) :
    (maybeAdvancePhase m).completedCount kind = m.completedCount kind := by
  unfold maybeAdvancePhase
  simp only
  split <;> split <;> cases kind <;> rfl

theorem replay_start (config : MasterConfig) (job : JobDef) :
    Replay.Covered job.M job.R 0 0 ⟨mapTable job.paths, resetPrefix (Table.fill .zero) job.R, 0, 0⟩ := by
  have none_done := (counted_start config job 0 0 0 0).count
  exact ⟨rfl, rfl, (none_done .map).ge, (none_done .reduce).ge⟩

theorem loaded_paced {config : MasterConfig} {createdMs : UInt64} {job : JobDef} {records : List AofRecord}
    {m : Master} (few : ∀ kind, recordCount kind records ≤ job.total kind)
    (loaded : aofLoad (Master.zero config) (logBytes createdMs job records) = .ok m) :
    m.job.Paced ∧ ∀ kind, m.completedCount kind ≤ m.job.doneCount kind := by
  obtain ⟨s, replayed, rfl⟩ := aofLoad_replay loaded
  have covered := replay_covered (replay_start config job) replayed
  simp only [Nat.zero_add] at covered
  -- The counters of the job are too wide to wrap here.
  have maps : s.mapsCount % 2 ^ 32 = recordCount .map records := by
    rw [covered.mapsCount, Nat.mod_eq_of_lt]
    have bound := few .map
    have cap : job.total .map ≤ 256 := job.maps_le
    omega
  have reduces : s.reduceCount % 2 ^ 32 = recordCount .reduce records := by
    rw [covered.reduceCount, Nat.mod_eq_of_lt]
    have bound := few .reduce
    have cap : job.total .reduce ≤ 64 := job.reduces_le
    omega
  rw [maps, reduces]
  constructor
  · rw [maybeAdvancePhase_job]
    apply Job.advance_paced
    intro kind
    cases kind
    · exact few .map
    · exact few .reduce
  · intro kind
    rw [completedCount_maybeAdvancePhase, maybeAdvancePhase_job, Job.advance_doneCount]
    cases kind
    · exact covered.maps
    · exact covered.reduces

theorem fresh_paced (config : MasterConfig) (job : JobDef) :
    (Master.fresh config job).job.Paced ∧
      ∀ kind, (Master.fresh config job).completedCount kind ≤ (Master.fresh config job).job.doneCount kind := by
  have none_done := (counted_start config job 0 0 0 0).count
  refine ⟨⟨?_, ?_⟩, ?_⟩
  · intro kind
    cases kind <;> exact Nat.zero_le _
  · intro kind phase
    cases phase
    exact job.maps_pos
  · intro kind
    cases kind
    · exact (none_done .map).ge
    · exact (none_done .reduce).ge

theorem StartsWithin.paced {config : MasterConfig} {m : Master} (starts : StartsWithin config m) (log : Bytes)
    (aofFd now realtime : Int) : Paced (World.boot m log aofFd now realtime).master := by
  have kept := starts.booted.phaseKept log aofFd now realtime
  have counts : m.job.Paced ∧ ∀ kind, m.completedCount kind ≤ m.job.doneCount kind := by
    cases starts with
    | fresh ready =>
      obtain ⟨job, rfl⟩ := masterInitJob_fresh ready
      exact fresh_paced config job
    | loaded few loaded => exact loaded_paced few loaded
  refine ⟨kept, counts.1, ?_⟩
  intro kind
  cases kind
  · exact counts.2 .map
  · exact counts.2 .reduce

/-- In every run that starts with counters within their totals, a worker is told to wait only while
a task of the phase is running, and the assertion of the wait branch holds. -/
theorem wait_justified {config : MasterConfig} {m : Master} (starts : StartsWithin config m) (log : Bytes)
    (aofFd now realtime : Int) {callbacks : List Callback} {w : World}
    (reached : Runs.run World.next (World.boot m log aofFd now realtime) callbacks = some w) {kind : TaskKind}
    (phase : w.master.job.phase.kind? = some kind) (none_pending : w.master.firstPending kind = none) :
    w.master.job.doneCount kind < w.master.job.total kind ∧
      (∃ buf, waitForAvailableTasks w.master kind = some buf) ∧
      ∃ i t, i < w.master.job.total kind ∧ w.master.task? kind i = some t ∧ t.state = .inProgress := by
  have paced : Paced w.master :=
    Runs.run_invariant (fun _ _ _ paced taken => paced_next paced taken)
      (starts.paced log aofFd now realtime) reached
  have behind := paced.job.behind kind phase
  exact ⟨behind, ⟨_, if_pos behind⟩, paced.wait phase none_pending⟩

theorem wait_justified_sample :
    ∃ m w, aofLoad (Master.zero sampleConfig) (logBytes 0 sampleJob [sampleCompletion.record]) = .ok m ∧
      Runs.run World.next (World.boot m [] 3 0 0) [.connect workerA, askFrom workerA, .connect workerB] = some w ∧
      w.master.job.phase.kind? = some .reduce ∧ w.master.firstPending .reduce = none ∧
      ∃ i t, i < w.master.job.total .reduce ∧ w.master.task? .reduce i = some t ∧ t.state = .inProgress := by
  have loaded := aofLoad_log sampleConfig 0 sampleJob [sampleCompletion] sampleCompletion_inRange
  have ran : (Runs.run World.next (World.boot (Master.restored sampleConfig sampleJob [sampleCompletion]) [] 3 0 0)
      [.connect workerA, askFrom workerA, .connect workerB]).any (fun w =>
        w.master.job.phase.kind? == some .reduce && w.master.firstPending .reduce == none) = true := by
    decide +kernel
  obtain ⟨w, reached, holds⟩ := (Option.any_eq_true _ _).mp ran
  simp only [Bool.and_eq_true, beq_iff_eq] at holds
  have few : ∀ kind, recordCount kind [sampleCompletion.record] ≤ sampleJob.total kind := by
    intro kind
    cases kind <;> decide
  exact ⟨_, w, loaded, reached, holds.1, holds.2,
    (wait_justified (.loaded few loaded) [] 3 0 0 reached holds.1 holds.2).2.2⟩

/-- After the late map report the log holds two different records of map 0. A master that loads it
counts two maps of one, stays in the map phase and aborts on the first request. -/
theorem wait_asserts :
    ∃ final m w, Runs.run Cluster.next sampleCluster lateRun = some final ∧
      final.world.log = logBytes 0 sampleJob [Completion.record ⟨.map, 0, 2⟩, Completion.record ⟨.map, 0, 1⟩] ∧
      [Completion.record ⟨.map, 0, 2⟩, Completion.record ⟨.map, 0, 1⟩].Nodup ∧
      aofLoad (Master.zero sampleConfig) final.world.log = .ok m ∧
      Runs.run World.next (World.boot m final.world.log 3 0 0) [.connect workerA] = some w ∧
      w.master.job.phase = .map ∧ w.master.firstPending .map = none ∧
      ¬ w.master.job.mapsDone < w.master.job.M ∧ w.next (askFrom workerA) = none := by
  let late : List Completion := [⟨.map, 0, 2⟩, ⟨.map, 0, 1⟩]
  have ran : (Runs.run Cluster.next sampleCluster lateRun).any (fun final =>
      final.world.log == logBytes 0 sampleJob (late.map Completion.record)) = true := by
    decide +kernel
  obtain ⟨final, reached, holds⟩ := (Option.any_eq_true _ _).mp ran
  have log := beq_iff_eq.mp holds
  have ranges : ∀ c ∈ late, c.InRange sampleJob := by
    intro c member
    rcases List.mem_cons.mp member with rfl | member
    · exact (by decide : 0 < 1)
    · rw [List.mem_singleton.mp member]
      exact (by decide : 0 < 1)
  have loaded := aofLoad_log sampleConfig 0 sampleJob late ranges
  have asked : (Runs.run World.next (World.boot (Master.restored sampleConfig sampleJob late)
      (logBytes 0 sampleJob (late.map Completion.record)) 3 0 0) [.connect workerA]).any (fun w =>
        w.master.job.phase == .map && w.master.firstPending .map == none &&
        decide (¬ w.master.job.mapsDone < w.master.job.M) && (w.next (askFrom workerA)).isNone) = true := by
    decide +kernel
  rw [← log] at loaded asked
  obtain ⟨w, started, holds⟩ := (Option.any_eq_true _ _).mp asked
  simp only [Bool.and_eq_true, beq_iff_eq, decide_eq_true_eq, Option.isNone_iff_eq_none] at holds
  refine ⟨final, _, w, reached, log, by decide, loaded, started, ?_⟩
  exact ⟨holds.1.1.1, holds.1.1.2, holds.1.2, holds.2⟩

/-! ## Requests whose answer is not sent -/

/-- The same attempts have been made of a task, with the same results so far. -/
structure Task.SameAttempts (t t' : Task) : Prop where
  state : t'.state = t.state
  currentAttempt : t'.currentAttempt = t.currentAttempt
  attemptsCount : t'.attemptsCount = t.attemptsCount
  history : t'.history = t.history

theorem Task.SameAttempts.refl (t : Task) : t.SameAttempts t := ⟨rfl, rfl, rfl, rfl⟩

theorem Task.assigned_not_same (t : Task) (fd : Fd) (now : Int) : ¬ t.SameAttempts (t.assigned fd now) := by
  intro same
  have counted : t.attemptsCount + 1 = t.attemptsCount := same.attemptsCount
  omega

theorem masterHandleGetTask_pending {w : World} {fd : Fd} {env : Env} {r : Reply} {kind : TaskKind} {i : Nat}
    (phase : w.master.job.phase.kind? = some kind) (first : w.master.firstPending kind = some i)
    (handled : masterHandleGetTask w fd env = some r) :
    ∃ t, w.master.task? kind i = some t ∧ r.master.task? kind i = some (t.assigned fd w.master.nowMs) := by
  simp only [masterHandleGetTask, phase, Option.bind_eq_bind, Option.bind_eq_some_iff] at handled
  obtain ⟨⟨chosen, m⟩, choice, handled⟩ := handled
  cases chosen with
  | none =>
    simp only [chooseAvailableTask, first, Option.bind_eq_bind, Option.bind_eq_some_iff] at choice
    obtain ⟨_, _, _, _, choice⟩ := choice
    cases choice
  | some j =>
    have same : j = i := by
      simp only [chooseAvailableTask, first, Option.bind_eq_bind, Option.bind_eq_some_iff] at choice
      obtain ⟨_, _, _, _, choice⟩ := choice
      cases choice
      rfl
    subst same
    obtain ⟨t, -, found, -, rfl⟩ := chooseAvailableTask_some choice
    obtain ⟨u, -, handled⟩ := Option.bind_eq_some_iff.mp handled
    cases handled
    refine ⟨t, found, ?_⟩
    rw [(sameCore_respond _ fd env.send _).task?]
    exact Master.handOut_task fd found

/-- A request that fails leaves all tasks as they were exactly when the phase had no pending task. -/
theorem failed_request_keeps_tasks {w : World} {fd : Fd} {env : Env} {r : Reply}
    (handled : masterHandleGetTask w fd env = some r) :
    r.ok = false →
      ((∀ kind i t, w.master.task? kind i = some t → ∃ t', r.master.task? kind i = some t' ∧ t.SameAttempts t') ↔
        ∀ kind, w.master.job.phase.kind? = some kind → w.master.firstPending kind = none) := by
  intro _
  constructor
  · intro kept kind phase
    cases first : w.master.firstPending kind with
    | none => rfl
    | some i =>
      obtain ⟨t, found, after⟩ := masterHandleGetTask_pending phase first handled
      obtain ⟨t', read, same⟩ := kept kind i t found
      cases after.symm.trans read
      exact absurd same (t.assigned_not_same fd _)
  · intro none_pending kind i t found
    rcases masterHandleGetTask_cases handled with ⟨buf, _, rfl⟩ | ⟨k, j, u, phase, below, read, pending, -⟩
    · exact ⟨t, by rw [(sameCore_respond w fd env.send buf).task?, found], .refl t⟩
    · exact absurd pending (Master.firstPending_none (none_pending k phase) below read)

def Env.noRoom : Env := ⟨.full, [], true⟩

def unansweredRun : List Callback :=
  [.connect workerA, .message workerA [RpcKind.getTaskReq.code] .noRoom] ++ List.replicate 10 (.periodic 2000 0) ++
  [.message workerA [RpcKind.getTaskReq.code] .noRoom] ++ List.replicate 10 (.periodic 4000 0) ++
  [.message workerA [RpcKind.getTaskReq.code] .noRoom] ++ List.replicate 10 (.periodic 6000 0)

/-- A request without an answer starts an attempt, and three of them fail a job no worker ever saw a task of. -/
theorem failed_request_consumes :
    (∃ w r t t', Runs.run World.next pairStart [.connect workerA] = some w ∧
      masterHandleGetTask w workerA .noRoom = some r ∧ r.ok = false ∧ r.sent = none ∧
      w.master.task? .map 0 = some t ∧ t.state = .pending ∧ t.attemptsCount = 0 ∧
      r.master.task? .map 0 = some t' ∧ t'.state = .inProgress ∧ t'.attemptsCount = 1) ∧
    ∃ w, Runs.run World.next pairStart unansweredRun = some w ∧ w.master.job.phase = .failed := by
  have asked : (Runs.run World.next pairStart [.connect workerA]).any (fun w =>
      (w.master.task? .map 0).any (fun t => t.state == .pending && t.attemptsCount == 0) &&
      (masterHandleGetTask w workerA .noRoom).any fun r => !r.ok && r.sent == none &&
        (r.master.task? .map 0).any fun t' => t'.state == .inProgress && t'.attemptsCount == 1) = true := by
    decide +kernel
  have burnt : (Runs.run World.next pairStart unansweredRun).any (fun w => w.master.job.phase == .failed) = true := by
    decide +kernel
  constructor
  · obtain ⟨w, reached, holds⟩ := (Option.any_eq_true _ _).mp asked
    obtain ⟨before, after⟩ := (Bool.and_eq_true _ _).mp holds
    obtain ⟨t, found, state⟩ := (Option.any_eq_true _ _).mp before
    obtain ⟨r, handled, reply⟩ := (Option.any_eq_true _ _).mp after
    obtain ⟨refused, after⟩ := (Bool.and_eq_true _ _).mp reply
    obtain ⟨t', read, state'⟩ := (Option.any_eq_true _ _).mp after
    simp only [Bool.and_eq_true, beq_iff_eq, Bool.not_eq_true'] at state refused state'
    exact ⟨w, r, t, t', reached, handled, refused.1, refused.2, found, state.1, state.2, read, state'.1, state'.2⟩
  · obtain ⟨w, reached, holds⟩ := (Option.any_eq_true _ _).mp burnt
    exact ⟨w, reached, beq_iff_eq.mp holds⟩

/-- Both maps are handed out, and a third request cannot even be told to wait. -/
theorem failed_request_keeps_tasks_pair :
    ∃ w r, Runs.run World.next pairStart [.connect workerA, askFrom workerA, .connect workerB, askFrom workerB] =
        some w ∧ masterHandleGetTask w workerA .noRoom = some r ∧ r.ok = false ∧
      ∀ kind i t, w.master.task? kind i = some t → ∃ t', r.master.task? kind i = some t' ∧ t.SameAttempts t' := by
  have ran : (Runs.run World.next pairStart [.connect workerA, askFrom workerA, .connect workerB, askFrom workerB]).any
      (fun w => w.master.job.phase.kind? == some .map && w.master.firstPending .map == none &&
        (masterHandleGetTask w workerA .noRoom).any fun r => !r.ok) = true := by
    decide +kernel
  obtain ⟨w, reached, holds⟩ := (Option.any_eq_true _ _).mp ran
  simp only [Bool.and_eq_true, beq_iff_eq] at holds
  obtain ⟨⟨phase, none_pending⟩, reply⟩ := holds
  obtain ⟨r, handled, refused⟩ := (Option.any_eq_true _ _).mp reply
  have refused : r.ok = false := by simpa using refused
  refine ⟨w, r, reached, handled, refused, (failed_request_keeps_tasks handled refused).mpr ?_⟩
  intro kind at_phase
  cases phase.symm.trans at_phase
  exact none_pending

end MapReduce
