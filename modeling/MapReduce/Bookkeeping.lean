import Mathlib.Logic.Relation
import MapReduce.Accounting
import MapReduce.Boot

/-! Attempts and phases over whole runs, from any master that has booted.

The rows of the history, the owner and the attempt number move together, whoever
closes an attempt: a success, a failure, a timeout, or a late report of a task
that is already waiting again. No assumption on the payloads is needed.
-/

set_option autoImplicit false

namespace MapReduce

/-! ## One task -/

/-- The invariants documented for `task_t`, with the bound on pending tasks that carries the cap. -/
structure Task.Booked (t : Task) : Prop where
  owner : t.state = .inProgress ↔ t.ownerFd ≠ -1
  current : t.currentAttempt = t.attemptsCount
  cap : t.attemptsCount ≤ maxAttempts
  room : t.state = .pending → t.attemptsCount < maxAttempts
  rows : ∀ i, i < t.attemptsCount → ∃ row, t.history.read i = some row ∧ row.attemptId = i + 1
  closed : ∀ i row, i + 1 < t.attemptsCount → t.history.read i = some row → row.endStatus ≠ .running
  last : t.state = .inProgress ↔
    1 ≤ t.attemptsCount ∧ ∃ row, t.history.read (t.attemptsCount - 1) = some row ∧ row.endStatus = .running

theorem Task.Unused.booked {t : Task} (unused : t.Unused) (owner : t.ownerFd = -1) : t.Booked := by
  have idle : t.state ≠ .inProgress := by
    rcases unused.state with state | state <;> simp [state]
  have none_made := unused.count
  refine ⟨?_, ?_, ?_, ?_, ?_, ?_, ?_⟩
  · simp [idle, owner]
  · rw [unused.current, none_made]
  · omega
  · intro _
    rw [none_made]
    decide
  · intro i below
    omega
  · intro i row below
    omega
  · simp [idle, none_made]

theorem Task.Booked.close {t : Task} (booked : t.Booked) {state : TaskState} {row : AttemptRecord}
    (attempted : 1 ≤ t.attemptsCount) (idle : state ≠ .inProgress)
    (room : state = .pending → t.attemptsCount < maxAttempts)
    (numbered : row.attemptId = t.currentAttempt) (ended : row.endStatus ≠ .running) :
    ({ t with
      state := state
      ownerFd := -1
      history := t.history.write (t.attemptsCount - 1) row } : Task).Booked := by
  have inside : t.attemptsCount - 1 < maxAttempts := by
    have := booked.cap
    omega
  refine ⟨?_, booked.current, booked.cap, room, ?_, ?_, ?_⟩
  · simp [idle]
  · intro i below
    simp only [Table.read_write]
    by_cases at_last : i = t.attemptsCount - 1
    · refine ⟨row, by rw [if_pos at_last, if_pos (at_last ▸ inside)], ?_⟩
      have := booked.current
      omega
    · rw [if_neg at_last]
      exact booked.rows i below
  · intro i old below read
    simp only [Table.read_write] at below read
    rw [if_neg (by omega)] at read
    exact booked.closed i old below read
  · simp only [idle, false_iff, Table.read_write]
    rintro ⟨_, last, read, running⟩
    rw [if_pos trivial, if_pos inside] at read
    cases read
    exact ended running

theorem Task.Booked.assigned {t : Task} (booked : t.Booked) (pending : t.state = .pending) (fd : Fd) (now : Int) :
    (t.assigned fd now).Booked := by
  have room := booked.room pending
  have current := booked.current
  unfold Task.assigned
  refine ⟨?_, ?_, room, ?_, ?_, ?_, ?_⟩
  · simp only [true_iff]
    omega
  · simp only [current]
  · intro waiting
    cases waiting
  · intro i below
    simp only [Table.read_write] at below ⊢
    by_cases at_new : i = t.attemptsCount
    · refine ⟨_, by rw [if_pos at_new, if_pos (at_new ▸ room)], ?_⟩
      simp only [current, at_new]
    · rw [if_neg at_new]
      exact booked.rows i (by omega)
  · intro i row below read
    simp only [Table.read_write] at below read
    rw [if_neg (by omega)] at read
    -- The row that was the last one is closed, because the task was waiting.
    by_cases was_last : i + 1 = t.attemptsCount
    · intro running
      have busy := booked.last.mpr ⟨by omega, row, by rwa [← was_last], running⟩
      rw [pending] at busy
      cases busy
    · exact booked.closed i row (by omega) read
  · simp only [true_iff, Table.read_write, Nat.add_sub_cancel]
    exact ⟨Nat.le_add_left 1 _, _, by rw [if_pos trivial, if_pos room], rfl⟩

theorem Task.Booked.succeeded {t : Task} (booked : t.Booked) (attempted : 1 ≤ t.attemptsCount) (fd : Fd)
    (now : Int) : (t.succeeded fd now).Booked := by
  apply booked.close attempted
  · simp
  · simp
  · rfl
  · simp

theorem Task.Booked.ended {t : Task} (booked : t.Booked) (attempted : 1 ≤ t.attemptsCount)
    {endStatus : AttemptEndStatus} (ends : endStatus ≠ .running) (fd now : Int) :
    (t.ended endStatus fd now).Booked := by
  apply booked.close attempted
  · exact t.ended_state_ne endStatus fd now
  · intro pending
    simpa using pending
  · rfl
  · exact ends

theorem TaskMove.booked {w : World} {after : JobPhase} {kind : TaskKind} {i : Nat} {t t' : Task} {c : Callback}
    (move : TaskMove w after kind i t c t') (booked : t.Booked) : t'.Booked := by
  cases move with
  | keep => exact booked
  | assign _ _ _ pending => exact booked.assigned pending _ _
  | succeed accepted => exact booked.succeeded accepted.attempted _ _
  | fail accepted => exact booked.ended accepted.attempted (by simp) _ _
  | timeout _ attempted => exact booked.ended attempted (by simp) _ _

/-! ## The whole master -/

/-- Every task is booked, and the slots past the tasks are never touched. -/
structure Master.Booked (m : Master) : Prop where
  totals : ∀ kind, m.job.total kind ≤ kind.capacity
  task : ∀ kind i t, i < m.job.total kind → m.task? kind i = some t → t.Booked
  idle : ∀ kind i t, m.job.total kind ≤ i → m.task? kind i = some t → t.attemptsCount = 0 ∧ t.state = .pending
  path : ∀ i t, m.task? .map i = some t → t.inputPath.length = t.inputPathLen ∧ t.inputPathLen < mapreducePathMax

theorem Master.Unused.booked {m : Master} (unused : m.Unused) (log : Bytes) (aofFd now realtime : Int) :
    (World.boot m log aofFd now realtime).master.Booked := by
  refine ⟨unused.totals, ?_, ?_, ?_⟩
  · intro kind i t below found
    rw [World.boot_task?] at found
    exact (unused.slot found).booked (unused.owner below found)
  · intro kind i t above found
    rw [World.boot_task?] at found
    exact ⟨(unused.slot found).count, unused.idle above found⟩
  · intro i t found
    rw [World.boot_task?] at found
    exact ⟨(unused.slot found).path, (unused.slot found).short⟩

theorem Booted.booked {config : MasterConfig} {m : Master} (booted : Booted config m) (log : Bytes)
    (aofFd now realtime : Int) : (World.boot m log aofFd now realtime).master.Booked :=
  booted.unused.booked log aofFd now realtime

theorem Effect.booked {w : World} {c : Callback} {r : Reply} (effect : Effect w c r) (booked : w.master.Booked) :
    r.master.Booked := by
  have total := effect.job.total
  refine ⟨?_, ?_, ?_, ?_⟩
  · intro kind
    rw [total]
    exact booked.totals kind
  · intro kind i t' below found
    obtain ⟨t, before, move⟩ := effect.task_before found
    rw [total] at below
    exact move.booked (booked.task kind i t below before)
  · intro kind i t' outside found
    obtain ⟨t, before, move⟩ := effect.task_before found
    rw [total] at outside
    obtain ⟨never, pending⟩ := booked.idle kind i t outside before
    cases move with
    | keep => exact ⟨never, pending⟩
    | assign _ _ below => omega
    | succeed accepted | fail accepted =>
      have := accepted.attempted
      omega
    | timeout running =>
      rw [pending] at running
      cases running
  · intro i t' found
    obtain ⟨t, before, move⟩ := effect.task_before found
    rw [move.path.1, move.path.2]
    exact booked.path i t before

theorem next_booked {w w' : World} {c : Callback} (booked : w.master.Booked) (taken : w.next c = some w') :
    w'.master.Booked := by
  obtain ⟨r, returned, rfl⟩ := Option.map_eq_some_iff.mp taken
  exact (callback_effect returned).booked booked

/-- After every run of a booted master, every task has its attempts in order. -/
theorem attempts_booked {config : MasterConfig} {m : Master} (booted : Booted config m) (log : Bytes)
    (aofFd now realtime : Int) {callbacks : List Callback} {w : World}
    (reached : Runs.run World.next (World.boot m log aofFd now realtime) callbacks = some w)
    {kind : TaskKind} {i : Nat} {t : Task} (below : i < w.master.job.total kind)
    (found : w.master.task? kind i = some t) : t.Booked := by
  have booked : w.master.Booked :=
    Runs.run_invariant (fun _ _ _ booked taken => next_booked booked taken)
      (booted.booked log aofFd now realtime) reached
  exact booked.task kind i t below found

def pairEntries : List DirEntry := [⟨[0x61], some true⟩, ⟨[0x62], some true⟩]

theorem attempts_booked_pair :
    ∃ m w t, masterInitJob (Master.zero pairConfig) pairEntries = some m ∧
      Runs.run World.next (World.boot m [] 3 0 0) [.connect workerA, askFrom workerA] = some w ∧
      0 < w.master.job.total .map ∧ w.master.task? .map 0 = some t ∧ t.state = .inProgress ∧ t.Booked := by
  have ran : (masterInitJob (Master.zero pairConfig) pairEntries).any (fun m =>
      (Runs.run World.next (World.boot m [] 3 0 0) [.connect workerA, askFrom workerA]).any fun w =>
        decide (0 < w.master.job.total .map) && (w.master.task? .map 0).any (·.state == .inProgress)) = true := by
    decide +kernel
  obtain ⟨m, ready, ran⟩ := (Option.any_eq_true _ _).mp ran
  obtain ⟨w, reached, ran⟩ := (Option.any_eq_true _ _).mp ran
  obtain ⟨below, ran⟩ := (Bool.and_eq_true _ _).mp ran
  obtain ⟨t, found, busy⟩ := (Option.any_eq_true _ _).mp ran
  have below := of_decide_eq_true below
  exact ⟨m, w, t, ready, reached, below, found, beq_iff_eq.mp busy,
    attempts_booked (.fresh ready) [] 3 0 0 reached below found⟩

/-! ## Phases -/

/-- The documented moves of a job. -/
inductive JobPhase.Edge : JobPhase → JobPhase → Prop
  | mapsDone : Edge .map .reduce
  | reducesDone : Edge .reduce .done
  | mapFailed : Edge .map .failed
  | reduceFailed : Edge .reduce .failed

/-- A phase passes along documented moves; one report can complete both phases of a restored job. -/
abbrev JobPhase.Leads : JobPhase → JobPhase → Prop := Relation.ReflTransGen JobPhase.Edge

theorem Job.advance_leads (job : Job) : job.phase.Leads job.advance.phase := by
  unfold advance
  split
  next maps =>
    rw [maps.1]
    split
    · exact .tail (.single .mapsDone) .reducesDone
    · exact .single .mapsDone
  · split
    next reduces =>
      rw [reduces.1]
      exact .single .reducesDone
    · exact .refl

theorem JobMove.leads {job job' : Job} {marked : Option (TaskKind × Nat)} (move : JobMove job marked job') :
    job.phase.Leads job'.phase := by
  cases move with
  | keep => exact .refl
  | fail phase =>
    cases now : job.phase <;> rw [now] at phase <;> cases phase
    · exact .single .mapFailed
    · exact .single .reduceFailed
  | @count kind =>
    have same : (job.countDone kind).phase = job.phase := by cases kind <;> rfl
    rw [← same]
    exact Job.advance_leads _

theorem leads_next {phase : JobPhase} {w w' : World} {c : Callback} (leads : phase.Leads w.master.job.phase)
    (taken : w.next c = some w') : phase.Leads w'.master.job.phase := by
  obtain ⟨r, returned, rfl⟩ := Option.map_eq_some_iff.mp taken
  exact leads.trans (callback_effect returned).job.leads

theorem Effect.finished {w : World} {c : Callback} {r : Reply} (effect : Effect w c r)
    (ended : w.master.job.phase.kind? = none) : SameCore w.master r.master ∧ r.log = w.log := by
  cases effect with
  | quiet core log => exact ⟨core, log⟩
  | assigned _ phase | swept phase =>
    rw [ended] at phase
    cases phase
  | completed accepted | released accepted =>
    have phase := accepted.phase
    rw [ended] at phase
    cases phase

def Master.HasFailed (m : Master) : Prop := ∃ kind i t, m.task? kind i = some t ∧ t.state = .failed

theorem Master.release_failed {m : Master} {kind : TaskKind} {i : Nat} {t : Task} (endStatus : AttemptEndStatus)
    (fd : Int) (found : m.task? kind i = some t) (failed : (m.release kind i t endStatus fd).job.phase = .failed) :
    m.job.phase = .failed ∨ (m.release kind i t endStatus fd).HasFailed := by
  rw [release_job] at failed
  split at failed
  next spent =>
    exact .inr ⟨kind, i, t.ended endStatus fd m.nowMs, release_task endStatus fd found, by simp [Task.ended, spent]⟩
  · exact .inl failed

theorem SameCore.hasFailed {m m' : Master} (same : SameCore m m') (has : m.HasFailed) : m'.HasFailed := by
  obtain ⟨kind, i, t, found, failed⟩ := has
  exact ⟨kind, i, t, (same.task? kind i).trans found, failed⟩

theorem Swept.hasFailed {kind : TaskKind} {m m' : Master} (swept : Swept kind m m') (has : m.HasFailed) :
    m'.HasFailed := by
  obtain ⟨k, i, t, found, failed⟩ := has
  by_cases same : k = kind
  · subst same
    rcases swept.task i t found with kept | ⟨running, _⟩
    · exact ⟨k, i, t, kept, failed⟩
    · rw [failed] at running
      cases running
  · exact ⟨k, i, t, (swept.other k i same).trans found, failed⟩

theorem sweepFrom_failed {kind : TaskKind} {indices : List Nat} {m m' : Master}
    (swept : sweepFrom kind indices m = some m') (failed : m'.job.phase = .failed) :
    m.job.phase = .failed ∨ m'.HasFailed := by
  induction indices generalizing m with
  | nil =>
    cases swept
    exact .inl failed
  | cons i rest ih =>
    cases sweepFrom_round swept with
    | passed _ _ onward => exact ih onward
    | ended found _ _ _ _ onward =>
      rcases ih onward with before | now
      · exact (Master.release_failed .timeout _ found before).imp_right (sweepFrom_swept onward).hasFailed
      · exact .inr now
    | stopped found _ _ _ _ last =>
      rw [last] at failed ⊢
      exact Master.release_failed .timeout _ found failed

theorem masterPeriodic_failed {m m' : Master} {now realtime : Int}
    (ticked : masterPeriodic m now realtime = some m') (failed : m'.job.phase = .failed) :
    m.job.phase = .failed ∨ m'.HasFailed := by
  rcases masterPeriodic_cases ticked with ⟨rfl, -⟩ | ⟨kind, -, swept⟩
  · exact .inl failed
  · -- The tick itself leaves the phase alone.
    have lost := sweepFrom_failed swept failed
    exact lost

theorem callback_failed {w : World} {c : Callback} {r : Reply} (returned : callback w c = some r)
    (failed : r.master.job.phase = .failed) : w.master.job.phase = .failed ∨ r.master.HasFailed := by
  cases callback_effect returned with
  | quiet core => exact .inl (core.job ▸ failed)
  | assigned _ _ _ _ _ core =>
    rw [core.job, Master.setTask_job] at failed
    exact .inl failed
  | @completed _ _ _ _ _ kind _ accepted _ core =>
    -- Counting a success moves the phase forward only.
    rw [core.job, Master.complete, maybeAdvancePhase_job] at failed
    have running : (w.master.job.countDone kind).phase ≠ .failed := by
      intro already
      have phase := accepted.phase
      rw [show w.master.job.phase = .failed by cases kind <;> exact already] at phase
      cases phase
    unfold Job.advance at failed
    split at failed
    · split at failed <;> cases failed
    · split at failed
      · cases failed
      · exact absurd failed running
  | released accepted _ core =>
    rw [core.job] at failed
    exact (Master.release_failed _ _ accepted.found failed).imp_right core.hasFailed
  | swept =>
    obtain ⟨m, ticked, rfl⟩ := Option.map_eq_some_iff.mp returned
    exact masterPeriodic_failed ticked failed

/-- The job has failed exactly when one of its tasks has. -/
structure PhaseKept (m : Master) : Prop where
  booked : m.Booked
  failed : m.HasFailed ↔ m.job.phase = .failed

theorem phaseKept_next {w w' : World} {c : Callback} (kept : PhaseKept w.master) (taken : w.next c = some w') :
    PhaseKept w'.master := by
  have booked := next_booked kept.booked taken
  obtain ⟨r, returned, rfl⟩ := Option.map_eq_some_iff.mp taken
  have effect := callback_effect returned
  refine ⟨booked, ?_, ?_⟩
  · rintro ⟨kind, i, t', found, failed⟩
    obtain ⟨t, before, move⟩ := effect.task_before found
    cases move with
    | keep => exact effect.job.phase_failed (kept.failed.mp ⟨kind, i, t', before, failed⟩)
    | assign | succeed => cases failed
    | fail _ _ _ spent | timeout _ _ spent => exact spent (Task.ended_failed failed)
  · intro failed
    rcases callback_failed returned failed with already | now
    · have same := (effect.finished (by rw [already]; rfl)).1
      exact same.hasFailed (kept.failed.mpr already)
    · exact now

theorem Booted.phaseKept {config : MasterConfig} {m : Master} (booted : Booted config m) (log : Bytes)
    (aofFd now realtime : Int) : PhaseKept (World.boot m log aofFd now realtime).master := by
  have unused := booted.unused
  refine ⟨booted.booked log aofFd now realtime, ?_, ?_⟩
  · rintro ⟨kind, i, t, found, failed⟩
    rw [World.boot_task?] at found
    rcases (unused.slot found).state with state | state <;> rw [state] at failed <;> cases failed
  · intro failed
    exact absurd failed unused.phase

/-- What no callback changes any more: tasks, counters, phase and log. -/
structure Frozen (w w' : World) : Prop where
  job : w'.master.job = w.master.job
  maps : w'.master.maps = w.master.maps
  reduces : w'.master.reduces = w.master.reduces
  log : w'.log = w.log

theorem Frozen.refl (w : World) : Frozen w w := ⟨rfl, rfl, rfl, rfl⟩

theorem frozen_next {w w' next : World} {c : Callback} (ended : w.master.job.phase.kind? = none)
    (frozen : Frozen w w') (taken : w'.next c = some next) : Frozen w next := by
  obtain ⟨r, returned, rfl⟩ := Option.map_eq_some_iff.mp taken
  have still : w'.master.job.phase.kind? = none := frozen.job ▸ ended
  obtain ⟨core, log⟩ := (callback_effect returned).finished still
  exact ⟨core.job.trans frozen.job, core.maps.trans frozen.maps, core.reduces.trans frozen.reduces,
    log.trans frozen.log⟩

/-- In every run of a booted master: a task has failed exactly when the job has, the phase only
moves along the documented edges, and nothing happens to a job that is done or failed. -/
theorem phase_discipline {config : MasterConfig} {m : Master} (booted : Booted config m) (log : Bytes)
    (aofFd now realtime : Int) {callbacks : List Callback} {w : World}
    (reached : Runs.run World.next (World.boot m log aofFd now realtime) callbacks = some w) :
    ((∃ kind i t, i < w.master.job.total kind ∧ w.master.task? kind i = some t ∧ t.state = .failed) ↔
      w.master.job.phase = .failed) ∧
    ∀ later w', Runs.run World.next w later = some w' →
      w.master.job.phase.Leads w'.master.job.phase ∧
      (w.master.job.phase = .done ∨ w.master.job.phase = .failed → Frozen w w') := by
  have kept : PhaseKept w.master :=
    Runs.run_invariant (fun _ _ _ kept taken => phaseKept_next kept taken)
      (booted.phaseKept log aofFd now realtime) reached
  refine ⟨?_, ?_⟩
  · rw [← kept.failed]
    constructor
    · rintro ⟨kind, i, t, _, found, failed⟩
      exact ⟨kind, i, t, found, failed⟩
    · rintro ⟨kind, i, t, found, failed⟩
      refine ⟨kind, i, t, ?_, found, failed⟩
      -- The slots past the tasks stay pending.
      by_contra outside
      rw [(kept.booked.idle kind i t (Nat.not_lt.mp outside) found).2] at failed
      cases failed
  · intro later w' ran
    constructor
    · exact Runs.run_invariant (fun _ _ _ leads taken => leads_next leads taken) .refl ran
    · intro ended
      have none_left : w.master.job.phase.kind? = none := by
        rcases ended with phase | phase <;> rw [phase] <;> rfl
      exact Runs.run_invariant (fun _ _ _ frozen taken => frozen_next none_left frozen taken) (.refl w) ran

def failingRun : List Callback :=
  [.connect workerA, askFrom workerA, reportFrom workerA 0 1 1, askFrom workerA, reportFrom workerA 0 2 1,
    askFrom workerA, reportFrom workerA 0 3 1]

theorem phase_discipline_failing :
    ∃ m w w', masterInitJob (Master.zero pairConfig) pairEntries = some m ∧
      Runs.run World.next (World.boot m [] 3 0 0) failingRun = some w ∧ w.master.job.phase = .failed ∧
      Runs.run World.next w [askFrom workerA, reportFrom workerA 0 3 0, .periodic 9999 0] = some w' ∧
      (∃ kind i t, i < w.master.job.total kind ∧ w.master.task? kind i = some t ∧ t.state = .failed) ∧
      Frozen w w' := by
  have ran : (masterInitJob (Master.zero pairConfig) pairEntries).any (fun m =>
      (Runs.run World.next (World.boot m [] 3 0 0) failingRun).any fun w => w.master.job.phase == .failed &&
        (Runs.run World.next w [askFrom workerA, reportFrom workerA 0 3 0, .periodic 9999 0]).any
          fun _ => true) = true := by
    decide +kernel
  obtain ⟨m, ready, ran⟩ := (Option.any_eq_true _ _).mp ran
  obtain ⟨w, reached, ran⟩ := (Option.any_eq_true _ _).mp ran
  obtain ⟨failed, ran⟩ := (Bool.and_eq_true _ _).mp ran
  obtain ⟨w', later, _⟩ := (Option.any_eq_true _ _).mp ran
  have failed := beq_iff_eq.mp failed
  obtain ⟨has, goes⟩ := phase_discipline (.fresh ready) [] 3 0 0 reached
  exact ⟨m, w, w', ready, reached, failed, later, has.mpr failed, (goes _ w' later).2 (.inr failed)⟩

end MapReduce
