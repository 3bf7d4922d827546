import MapReduce.Invariant
import MapReduce.Lib.Runs

/-! Counters and task states over whole runs, with arbitrary message payloads.

`task_done_helper` looks at the attempt number and nothing else, so a report can
reach a task in any state. Both results below name the reports that do harm.
-/

set_option autoImplicit false

namespace MapReduce

/-! ## Counters -/

theorem Master.any_completed {m : Master} {kind : TaskKind} {i : Nat} :
    (m.task? kind i).any (·.state == .completed) = true ↔ m.Done kind i := by
  unfold Done
  cases m.task? kind i <;> simp

theorem Master.completedCount_eq (m : Master) (kind : TaskKind) :
    m.completedCount kind =
      (List.range (m.job.total kind)).countP fun i => (m.task? kind i).any (·.state == .completed) := by
  cases kind <;> rfl

theorem completedCount_congr {m m' : Master} {kind : TaskKind} (total : m'.job.total kind = m.job.total kind)
    (same : ∀ i, m'.Done kind i ↔ m.Done kind i) : m'.completedCount kind = m.completedCount kind := by
  rw [Master.completedCount_eq, Master.completedCount_eq, total]
  apply List.countP_congr
  intro i _
  rw [Master.any_completed, Master.any_completed, same]

theorem completedCount_insert {m m' : Master} {kind : TaskKind} {i : Nat}
    (total : m'.job.total kind = m.job.total kind) (below : i < m.job.total kind) (fresh : ¬ m.Done kind i)
    (same : ∀ j, m'.Done kind j ↔ m.Done kind j ∨ i = j) :
    m'.completedCount kind = m.completedCount kind + 1 := by
  have out : (m.task? kind i).any (·.state == .completed) = false := by
    rw [← Bool.not_eq_true, Master.any_completed]
    exact fresh
  have now : (m'.task? kind i).any (·.state == .completed) = true :=
    Master.any_completed.mpr ((same i).mpr (.inr rfl))
  have others : ∀ j, j ≠ i → (m.task? kind j).any (·.state == .completed) =
      (m'.task? kind j).any (·.state == .completed) := by
    intro j other
    rw [Bool.eq_iff_iff, Master.any_completed, Master.any_completed, same]
    simp [Ne.symm other]
  cases kind with
  | map =>
    have sameM : m'.job.M = m.job.M := total
    rw [Master.completedCount, sameM]
    exact Table.countBelow_insert below out now others
  | reduce =>
    have sameR : m'.job.R = m.job.R := total
    rw [Master.completedCount, sameR]
    exact Table.countBelow_insert below out now others

/-- A report accepted here concerns a task that was handed out and is not completed yet. -/
def ReportsOpenTask : World → Callback → Prop :=
  OnReport fun _ _ _ _ t => 1 ≤ t.attemptsCount ∧ t.state ≠ .completed

instance (w : World) (c : Callback) : Decidable (ReportsOpenTask w c) :=
  inferInstanceAs (Decidable (OnReport _ w c))

/-- The counters are the numbers of completed tasks. -/
structure Counted (job : JobDef) (w : World) : Prop where
  sound : Sound job w.master
  count : ∀ kind, w.master.job.doneCount kind = w.master.completedCount kind

theorem Effect.marked_accepted {w : World} {c : Callback} {r : Reply} {job : JobDef} {kind : TaskKind} {i : Nat}
    (effect : Effect w c r) (sound : Sound job w.master) (marked : r.marked = some (kind, i)) :
    ∃ fd payload env msg t, c = .message fd payload env ∧ Accepted w.master fd payload msg kind t ∧
      msg.result = 0 ∧ i = (w.master.workers fd).currentTaskId ∧ i < job.total kind ∧
      r.log = w.log ++ (AofRecord.of msg (w.master.workers fd).currentKind).bytes.take
        (WriteResult.accepted env.write aofRecordSize) ∧
      r.sent = if env.send = .queued then some ackBytes else none := by
  cases effect with
  | @completed fd payload env _ msg _ t accepted success core log named sent =>
    cases named.symm.trans marked
    refine ⟨fd, payload, env, msg, t, rfl, accepted, success, rfl, ?_, log sound.opened, sent⟩
    -- Slots past the total were never handed out, so no report for them is accepted.
    by_contra outside
    have never := (sound.idle kind _ t (Nat.not_lt.mp outside) accepted.found).1
    have := accepted.attempted
    omega
  | quiet _ _ unmarked | assigned _ _ _ _ _ _ _ unmarked | released _ _ _ _ unmarked | swept _ _ _ unmarked =>
    rw [unmarked] at marked
    cases marked

theorem counted_next {job : JobDef} {w : World} {c : Callback} (counted : Counted job w)
    (on : ReportsOpenTask w c) : ∃ w', w.next c = some w' ∧ Counted job w' := by
  obtain ⟨r, returned⟩ := callback_defined counted.sound (on.mono fun _ _ _ _ _ open_ => open_.1)
  have effect := callback_effect returned
  have done := effect.done (on.mono fun _ _ _ _ _ open_ _ => open_.2)
  refine ⟨r.toWorld, by rw [World.next, returned, Option.map_some], effect.sound counted.sound, ?_⟩
  intro kind
  have total := effect.job.total kind
  have before := counted.count kind
  rw [effect.job.doneCount (counted.sound.doneCount_small kind)]
  by_cases hit : ∃ i, r.marked = some (kind, i)
  · obtain ⟨i, marked⟩ := hit
    obtain ⟨fd, payload, env, msg, t, rfl, accepted, _, rfl, below, _, _⟩ :=
      effect.marked_accepted counted.sound marked
    have fresh : ¬ w.master.Done kind (w.master.workers fd).currentTaskId := by
      rintro ⟨u, found, completed⟩
      cases accepted.found.symm.trans found
      exact (on.accepted accepted).2 completed
    rw [completedCount_insert total (by rw [counted.sound.total]; exact below) fresh]
    · simp [marked, before]
    · intro j
      rw [done kind j, marked]
      simp
  · have missed : r.marked.any (·.1 == kind) = false := by
      cases marked : r.marked with
      | none => rfl
      | some pair =>
        have other : pair.1 ≠ kind := fun same => hit ⟨pair.2, by rw [marked, ← same]⟩
        simpa using other
    have same : ∀ j, r.master.Done kind j ↔ w.master.Done kind j := by
      intro j
      rw [done kind j]
      exact or_iff_left fun marked => hit ⟨j, marked⟩
    rw [completedCount_congr total same]
    simp [missed, before]

theorem counted_start (config : MasterConfig) (job : JobDef) (fd : Nat) (createdMs : UInt64)
    (now realtime : Int) : Counted job (World.start config job fd createdMs now realtime) where
  sound := World.start_sound config job fd createdMs now realtime
  count kind := by
    have none_done : ∀ i, ¬ (World.start config job fd createdMs now realtime).master.Done kind i := by
      rintro i ⟨t, found, completed⟩
      rw [World.start_task?] at found
      rw [(Master.fresh_slot found).1] at completed
      cases completed
    rw [Master.completedCount_eq, List.countP_eq_zero.mpr]
    · cases kind <;> rfl
    · intro i _ completed
      exact none_done i (Master.any_completed.mp completed)

/-- In every run whose accepted reports concern open tasks, the counters count. -/
theorem counters_count (config : MasterConfig) (job : JobDef) (fd : Nat) (createdMs : UInt64) (now realtime : Int)
    {events : List Callback}
    (along : Runs.Along World.next ReportsOpenTask (World.start config job fd createdMs now realtime) events) :
    ∃ final, Runs.run World.next (World.start config job fd createdMs now realtime) events = some final ∧
      final.master.job.mapsDone = final.master.completedCount .map ∧
      final.master.job.reducesDone = final.master.completedCount .reduce := by
  obtain ⟨final, reached, counted⟩ := Runs.along_defined (fun _ _ counted on => counted_next counted on)
    (counted_start config job fd createdMs now realtime) along
  exact ⟨final, reached, counted.count .map, counted.count .reduce⟩

/-! ### Two splits, one worker -/

def pairJob : JobDef where
  paths := [[0x61], [0x62]]
  R := 1
  maps_pos := by decide
  maps_le := by decide
  reduces_pos := Nat.one_pos
  reduces_le := maxReduceTasks_pos
  path_short := by decide

def pairConfig : MasterConfig := ⟨1, 1000, [0x69, 0x6e]⟩

def pairStart : World := World.start pairConfig pairJob 3 0 0 0

/-- Nothing fails: the reply goes out and the record is written and flushed. -/
def Env.good : Env := ⟨.queued, [], true⟩

def workerA : Fd := ⟨5, by decide⟩

def askFrom (fd : Fd) : Callback := .message fd [RpcKind.getTaskReq.code] .good

def reportFrom (fd : Fd) (taskId attemptId : UInt32) (result : UInt8) : Callback :=
  .message fd (RpcKind.taskDoneReq.code :: (TaskDoneReq.mk taskId attemptId result).body) .good

/-- One worker asks for a task and completes it. -/
def pairRun : List Callback := [.connect workerA, askFrom workerA, reportFrom workerA 0 1 0]

theorem counters_count_pair :
    Runs.Along World.next ReportsOpenTask pairStart pairRun ∧
    ∃ final, Runs.run World.next pairStart pairRun = some final ∧
      final.master.job.mapsDone = final.master.completedCount .map ∧
      final.master.job.reducesDone = final.master.completedCount .reduce := by
  have along : Runs.Along World.next ReportsOpenTask pairStart pairRun := by
    decide +kernel
  exact ⟨along, counters_count pairConfig pairJob 3 0 0 0 along⟩

/-- The same success reported twice: both maps count as done, the phase moves on, and the second
map was never handed out. -/
theorem counters_overrun :
    ∃ final, Runs.run World.next pairStart (pairRun ++ [reportFrom workerA 0 1 0]) = some final ∧
      final.master.job.mapsDone = 2 ∧ final.master.completedCount .map = 1 ∧
      final.master.job.phase = .reduce := by
  have ran : (Runs.run World.next pairStart (pairRun ++ [reportFrom workerA 0 1 0])).any
      (fun final => final.master.job.mapsDone == 2 && final.master.completedCount .map == 1 &&
        final.master.job.phase == .reduce) = true := by
    decide +kernel
  obtain ⟨final, reached, holds⟩ := (Option.any_eq_true _ _).mp ran
  simp only [Bool.and_eq_true, beq_iff_eq] at holds
  exact ⟨final, reached, holds.1.1, holds.1.2, holds.2⟩

/-! ## Task lifecycle -/

def Callback.AsksForTask : Callback → Prop
  | .message _ payload _ => rpcPeekKind payload = some .getTaskReq
  | _ => False

/-- The documented machine. Completed and failed tasks have no outgoing edge. -/
inductive Edge (c : Callback) : TaskState → TaskState → Prop
  | keep {state : TaskState} : Edge c state state
  | assign (asked : c.AsksForTask) : Edge c .pending .inProgress
  | complete : Edge c .inProgress .completed
  | retry : Edge c .inProgress .pending
  | fail : Edge c .inProgress .failed

/-- The callback is defined, and every task stays or moves along an edge. -/
def FollowsLifecycle (w : World) (c : Callback) : Prop :=
  ∃ r, callback w c = some r ∧ ∀ kind i t t', w.master.task? kind i = some t →
    r.master.task? kind i = some t' → Edge c t.state t'.state

/-- The accepted report concerns a task that was handed out. It does not complete a task waiting
for its next attempt, and does not reopen a completed one. -/
def ReportsRespectState : World → Callback → Prop :=
  OnReport fun _ _ msg _ t => 1 ≤ t.attemptsCount ∧ ¬ (t.state = .pending ∧ msg.result = 0) ∧
    ¬ (t.state = .completed ∧ msg.result ≠ 0)

instance (w : World) (c : Callback) : Decidable (ReportsRespectState w c) :=
  inferInstanceAs (Decidable (OnReport _ w c))

theorem ended_edge (c : Callback) (t : Task) (endStatus : AttemptEndStatus) (fd now : Int) :
    Edge c .inProgress (t.ended endStatus fd now).state := by
  unfold Task.ended
  split
  · exact .fail
  · exact .retry

section Lifecycle
variable {job : JobDef} {w : World} (sound : Sound job w.master)

include sound in
theorem TaskMove.edge {after : JobPhase} {kind : TaskKind} {i : Nat} {t t' : Task} {c : Callback}
    (found : w.master.task? kind i = some t) (move : TaskMove w after kind i t c t')
    (respect : ReportsRespectState w c) : Edge c t.state t'.state := by
  -- A failed task has failed the job, and then no report is looked at.
  have alive : ∀ fd payload msg, Accepted w.master fd payload msg kind t → t.state ≠ .failed := by
    intro fd payload msg accepted failed
    have phase := accepted.phase
    rw [sound.failed kind i t found failed] at phase
    cases phase
  cases move with
  | keep => exact .keep
  | assign asked _ _ pending =>
    rw [pending]
    exact .assign asked
  | succeed accepted _ success =>
    obtain ⟨_, waiting, _⟩ := respect.accepted accepted
    cases state : t.state with
    | pending => exact absurd ⟨state, success⟩ waiting
    | inProgress => exact .complete
    | completed => exact .keep
    | failed => exact absurd state (alive _ _ _ accepted)
  | fail accepted _ failure _ =>
    obtain ⟨_, _, closed⟩ := respect.accepted accepted
    cases state : t.state with
    | pending =>
      have room := (sound.task kind i t found).pending state
      simp only [Task.ended, show ¬ t.attemptsCount ≥ maxAttempts by omega, ↓reduceIte]
      exact .keep
    | inProgress => exact ended_edge _ t .failed _ _
    | completed => exact absurd ⟨state, failure⟩ closed
    | failed => exact absurd state (alive _ _ _ accepted)
  | timeout running =>
    rw [running]
    exact ended_edge _ t .timeout _ _

include sound in
theorem followsLifecycle_iff (c : Callback) : FollowsLifecycle w c ↔ ReportsRespectState w c := by
  constructor
  · rintro ⟨r, returned, edges⟩
    cases c with
    | connect | disconnect | periodic => trivial
    | message fd payload env =>
      intro msg decoded kind phase
      rw [callback_report w fd env decoded phase] at returned
      obtain ⟨other, t, same, found, outcome⟩ := taskDoneHelper_cases returned
      cases Option.mem_unique same phase
      refine ⟨t, found, fun current => ?_⟩
      rcases outcome with ⟨stale, _⟩ | ⟨_, attempted, ⟨success, applied, master, _, rfl⟩ | ⟨failure, rfl⟩⟩
      · exact absurd current stale
      · refine ⟨attempted, ?_, fun closed => closed.2 success⟩
        rintro ⟨pending, _⟩
        have after := edges kind _ t (t.succeeded fd w.master.nowMs) found (by
          rw [(sameCore_sendAck _ _ _ _ _ _).task?, master, Master.task?_complete,
            Master.task?_setTask_self _ found])
        rw [pending] at after
        cases after
      · refine ⟨attempted, fun waiting => failure waiting.2, ?_⟩
        rintro ⟨completed, _⟩
        have after := edges kind _ t (t.ended .failed fd.val w.master.nowMs) found (by
          rw [(sameCore_sendAck _ _ _ _ _ _).task?, Master.release_task _ _ found])
        rw [completed] at after
        unfold Task.ended at after
        split at after <;> cases after
  · intro respect
    obtain ⟨r, returned⟩ := callback_defined sound (respect.mono fun _ _ _ _ _ holds => holds.1)
    refine ⟨r, returned, ?_⟩
    intro kind i t t' before after
    obtain ⟨u, found, move⟩ := (callback_effect returned).task before
    cases after.symm.trans found
    exact move.edge sound before respect

end Lifecycle

/-- Over a whole run, every callback follows the lifecycle exactly when every accepted report
respects the state of its task. -/
theorem lifecycle_along_iff (config : MasterConfig) (job : JobDef) (fd : Nat) (createdMs : UInt64)
    (now realtime : Int) (events : List Callback) :
    Runs.Along World.next FollowsLifecycle (World.start config job fd createdMs now realtime) events ↔
      Runs.Along World.next ReportsRespectState (World.start config job fd createdMs now realtime) events :=
  Runs.along_congr (fun _ _ _ sound _ taken => next_sound sound taken)
    (fun _ event sound => followsLifecycle_iff sound event)
    (World.start_sound config job fd createdMs now realtime)

/-- A failure report after the success of the same attempt takes the task from completed back to
pending. -/
theorem completed_reopened :
    ∃ w r t t', Runs.run World.next pairStart pairRun = some w ∧
      callback w (reportFrom workerA 0 1 1) = some r ∧
      w.master.task? .map 0 = some t ∧ t.state = .completed ∧
      r.master.task? .map 0 = some t' ∧ t'.state = .pending := by
  have ran : (Runs.run World.next pairStart pairRun).any
      (fun w => (callback w (reportFrom workerA 0 1 1)).any fun r =>
        (w.master.task? .map 0).any (·.state == .completed) &&
          (r.master.task? .map 0).any (·.state == .pending)) = true := by
    decide +kernel
  obtain ⟨w, reached, ran⟩ := (Option.any_eq_true _ _).mp ran
  obtain ⟨r, returned, ran⟩ := (Option.any_eq_true _ _).mp ran
  obtain ⟨before, after⟩ := (Bool.and_eq_true _ _).mp ran
  obtain ⟨t, found, completed⟩ := (Option.any_eq_true _ _).mp before
  obtain ⟨t', found', pending⟩ := (Option.any_eq_true _ _).mp after
  exact ⟨w, r, t, t', reached, returned, found, beq_iff_eq.mp completed, found', beq_iff_eq.mp pending⟩

end MapReduce
