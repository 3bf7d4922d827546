import MapReduce.Bookkeeping

/-! One call of `sweep_timeouts`.

The loop changes tasks and, through `task_attempt_ended`, the phase of the job,
and it stops at the first task that has no attempt left. Which tasks it ends is
decided before it starts: the overdue ones up to and including the first of
them on its last attempt.
-/

set_option autoImplicit false

namespace MapReduce

/-! ## What a sweep ends -/

/-- The sweep over these indices ends task `i`: it is overdue, and no overdue task before it is on its last
attempt, which would fail the job and stop the sweep. -/
structure Master.TimedOut (m : Master) (kind : TaskKind) (start count i : Nat) : Prop where
  lower : start ≤ i
  upper : i < start + count
  overdue : m.Overdue kind i
  alive : ∀ j t, start ≤ j → j < i → m.task? kind j = some t → m.Overdue kind j → t.attemptsCount < maxAttempts

section Sweep
variable {kind : TaskKind} {m m' : Master} {start count i : Nat}

theorem Master.timedOut_skip (fine : ¬ m.Overdue kind start) :
    m.TimedOut kind start (count + 1) i ↔ m.TimedOut kind (start + 1) count i := by
  constructor
  · intro ⟨lower, upper, overdue, alive⟩
    have differs : i ≠ start := by
      rintro rfl
      exact fine overdue
    exact ⟨by omega, by omega, overdue, fun j t above => alive j t (by omega)⟩
  · intro ⟨lower, upper, overdue, alive⟩
    refine ⟨by omega, by omega, overdue, fun j t above below found late => ?_⟩
    by_cases first : j = start
    · subst first
      exact absurd late fine
    · exact alive j t (by omega) below found late

theorem Master.release_other (m : Master) (t : Task) (endStatus : AttemptEndStatus) (fd : Int) {j : Nat}
    (differs : j ≠ i) :
    (m.release kind i t endStatus fd).task? kind j = m.task? kind j ∧
      ((m.release kind i t endStatus fd).Overdue kind j ↔ m.Overdue kind j) := by
  have same : (m.release kind i t endStatus fd).task? kind j = m.task? kind j := by
    rw [task?_release, task?_setTask_ne _ _ (by simp [differs])]
  refine ⟨same, ?_⟩
  unfold Overdue
  rw [same, release_nowMs, release_config]

theorem Master.timedOut_release {t : Task} (endStatus : AttemptEndStatus) (fd : Int)
    (found : m.task? kind start = some t) (overdue : m.Overdue kind start) (differs : i ≠ start) :
    m.TimedOut kind start (count + 1) i ↔
      t.attemptsCount < maxAttempts ∧ (m.release kind start t endStatus fd).TimedOut kind (start + 1) count i := by
  have behind : ∀ {j}, j ≠ start → (m.release kind start t endStatus fd).task? kind j = m.task? kind j ∧
      ((m.release kind start t endStatus fd).Overdue kind j ↔ m.Overdue kind j) := m.release_other t endStatus fd
  constructor
  · intro ⟨lower, upper, late, alive⟩
    refine ⟨alive start t (Nat.le_refl _) (by omega) found overdue, by omega, by omega, (behind differs).2.mpr late, ?_⟩
    intro j u above below read slow
    have other : j ≠ start := by omega
    rw [(behind other).1] at read
    exact alive j u (by omega) below read ((behind other).2.mp slow)
  · intro ⟨left, lower, upper, late, alive⟩
    refine ⟨by omega, by omega, (behind differs).2.mp late, fun j u above below read slow => ?_⟩
    by_cases first : j = start
    · subst first
      cases found.symm.trans read
      exact left
    · exact alive j u (by omega) below ((behind first).1.trans read) ((behind first).2.mpr slow)

/-- The sweep ends exactly the tasks that time out. -/
theorem sweepFrom_exact (swept : sweepFrom kind (List.range' start count) m = some m') :
    (m.TimedOut kind start count i → ∃ t, m'.task? kind i = some t ∧ t.state ≠ .inProgress) ∧
      (¬ m.TimedOut kind start count i → m'.task? kind i = m.task? kind i) := by
  induction count generalizing start m with
  | zero =>
    cases swept
    exact ⟨fun ends => absurd ends.upper (Nat.not_lt.mpr ends.lower), fun _ => rfl⟩
  | succ count ih =>
    have ends : m.Overdue kind start → m.TimedOut kind start (count + 1) start :=
      fun overdue => ⟨Nat.le_refl _, by omega, overdue, by omega⟩
    rw [List.range'_succ] at swept
    cases sweepFrom_round swept with
    | passed _ fine onward =>
      rw [Master.timedOut_skip fine]
      exact ih onward
    | @ended t found overdue _ _ left onward =>
      by_cases first : i = start
      · -- The rest of the sweep does not come back to this task.
        subst first
        have left_alone := (ih onward).2 fun again => Nat.not_succ_le_self i again.lower
        have ended := left_alone.trans (Master.release_task .timeout t.ownerFd found)
        exact ⟨fun _ => ⟨_, ended, t.ended_state_ne _ _ _⟩, fun spared => absurd (ends overdue) spared⟩
      · rw [Master.timedOut_release .timeout t.ownerFd found overdue first,
          ← (m.release_other t .timeout t.ownerFd first).1]
        exact ⟨fun timed => (ih onward).1 timed.2, fun spared => (ih onward).2 fun timed => spared ⟨left, timed⟩⟩
    | @stopped t found overdue _ _ spent last =>
      rw [last]
      by_cases first : i = start
      · subst first
        have ended := Master.release_task .timeout t.ownerFd found
        exact ⟨fun _ => ⟨_, ended, t.ended_state_ne _ _ _⟩, fun spared => absurd (ends overdue) spared⟩
      · rw [Master.timedOut_release .timeout t.ownerFd found overdue first]
        exact ⟨fun timed => absurd timed.1 (Nat.not_lt.mpr spent),
          fun _ => (m.release_other t .timeout t.ownerFd first).1⟩

end Sweep

/-! ## What a sweep leaves -/

theorem Swept.overdue {kind : TaskKind} {m m' : Master} (swept : Swept kind m m') (config : m'.config = m.config)
    {i : Nat} {t : Task} (found : m.task? kind i = some t) (late : m'.Overdue kind i) :
    t.state = .inProgress ∧ m.nowMs - t.startedAtMs > m.config.taskTimeoutMs := by
  obtain ⟨u, read, running, over_time⟩ := late
  rw [swept.nowMs, config] at over_time
  rcases swept.task i t found with same | ⟨-, -, ended, -⟩
  · cases same.symm.trans read
    exact ⟨running, over_time⟩
  · cases ended.symm.trans read
    exact absurd running (t.ended_state_ne _ _ _)

theorem sweepFrom_overdue {kind : TaskKind} {indices : List Nat} {m m' : Master}
    (swept : sweepFrom kind indices m = some m') :
    m'.job.phase = .failed ∨ m'.config = m.config ∧ ∀ i ∈ indices, ¬ m'.Overdue kind i := by
  induction indices generalizing m with
  | nil =>
    cases swept
    exact .inr ⟨rfl, nofun⟩
  | cons i rest ih =>
    cases sweepFrom_round swept with
    | passed found fine onward =>
      rcases ih onward with failed | ⟨config, clear⟩
      · exact .inl failed
      refine .inr ⟨config, ?_⟩
      intro j member late
      rcases List.mem_cons.mp member with rfl | later
      · exact fine ⟨_, found, (sweepFrom_swept onward).overdue config found late⟩
      · exact clear j later late
    | @ended t found _ _ _ _ onward =>
      rcases ih onward with failed | ⟨config, clear⟩
      · exact .inl failed
      refine .inr ⟨config.trans (m.release_config ..), ?_⟩
      intro j member late
      rcases List.mem_cons.mp member with rfl | later
      · -- The attempt that has just timed out is not running any more.
        have released := Master.release_task .timeout t.ownerFd found
        have running := ((sweepFrom_swept onward).overdue config released late).1
        exact t.ended_state_ne _ _ _ running
      · exact clear j later late
    | stopped found _ _ _ spent last =>
      rw [last, Master.release_job, if_pos spent]
      exact .inl rfl

/-- What `sweep_timeouts` does to the tasks of one kind, by the clock and the timeout it reads. -/
structure SweepResult (kind : TaskKind) (m m' : Master) : Prop where
  settled : m'.job.phase = .failed ∨ ∀ i t, i < m.job.total kind → m'.task? kind i = some t → t.state = .inProgress →
    m.nowMs - t.startedAtMs ≤ m.config.taskTimeoutMs
  kept : ∀ i t, m.task? kind i = some t →
    t.state ≠ .inProgress ∨ m.nowMs - t.startedAtMs ≤ m.config.taskTimeoutMs → m'.task? kind i = some t
  changed : ∀ i t t', m.task? kind i = some t → m'.task? kind i = some t' → t' ≠ t →
    t.state = .inProgress ∧ t'.ownerFd = -1 ∧ t'.currentAttempt = t.currentAttempt ∧
      t'.attemptsCount = t.attemptsCount ∧ (t'.state = .pending ∨ t'.state = .failed)
  failed : ∀ i t t', m.task? kind i = some t → m'.task? kind i = some t' → t' ≠ t → t'.state = .failed →
    t.attemptsCount = maxAttempts ∧ ∀ j, i < j → m'.task? kind j = m.task? kind j
  one : ∀ i j t t' u u', m.task? kind i = some t → m'.task? kind i = some t' → t' ≠ t → t'.state = .failed →
    m.task? kind j = some u → m'.task? kind j = some u' → u' ≠ u → u'.state = .failed → i = j

section Result
variable {kind : TaskKind} {m m' : Master} {i : Nat} {t t' : Task}

theorem sweepTimeouts_changed (swept : sweepTimeouts m kind = some m') (found : m.task? kind i = some t)
    (after : m'.task? kind i = some t') (differs : t' ≠ t) :
    m.TimedOut kind 0 (m.job.total kind) i ∧ t.state = .inProgress ∧ t' = t.ended .timeout t.ownerFd m.nowMs := by
  rw [sweepTimeouts, List.range_eq_range'] at swept
  refine ⟨?_, ?_⟩
  · by_contra spared
    have same := (sweepFrom_exact swept).2 spared
    rw [found, after] at same
    exact differs (Option.some.inj same)
  · rcases (sweepFrom_swept swept).task i t found with same | ⟨running, _, ended, _⟩
    · exact absurd (Option.some.inj (after.symm.trans same)) differs
    · exact ⟨running, Option.some.inj (after.symm.trans ended)⟩

theorem sweepTimeouts_stopped (swept : sweepTimeouts m kind = some m') (found : m.task? kind i = some t)
    (after : m'.task? kind i = some t') (differs : t' ≠ t) (failed : t'.state = .failed) :
    t.attemptsCount ≥ maxAttempts ∧ ∀ j, i < j → m'.task? kind j = m.task? kind j := by
  obtain ⟨timed, _, rfl⟩ := sweepTimeouts_changed swept found after differs
  have spent := Task.ended_failed failed
  refine ⟨spent, fun j behind => ?_⟩
  rw [sweepTimeouts, List.range_eq_range'] at swept
  refine (sweepFrom_exact swept).2 fun late => ?_
  have left := late.alive i t (Nat.zero_le i) behind found timed.overdue
  omega

theorem sweepTimeouts_settled (swept : sweepTimeouts m kind = some m') :
    m'.job.phase = .failed ∨ ∀ i t, i < m.job.total kind → m'.task? kind i = some t → t.state = .inProgress →
      m.nowMs - t.startedAtMs ≤ m.config.taskTimeoutMs := by
  rcases sweepFrom_overdue swept with failed | ⟨config, clear⟩
  · exact .inl failed
  refine .inr fun i t below found running => ?_
  by_contra late
  refine clear i (List.mem_range.mpr below) ⟨t, found, running, ?_⟩
  rw [(sweepFrom_swept swept).nowMs, config]
  omega

theorem sweepTimeouts_kept (swept : sweepTimeouts m kind = some m') (found : m.task? kind i = some t)
    (fine : t.state ≠ .inProgress ∨ m.nowMs - t.startedAtMs ≤ m.config.taskTimeoutMs) :
    m'.task? kind i = some t := by
  have spared : ¬ m.TimedOut kind 0 (m.job.total kind) i := by
    intro timed
    obtain ⟨u, read, running, late⟩ := timed.overdue
    cases found.symm.trans read
    rcases fine with idle | soon
    · exact idle running
    · omega
  rw [sweepTimeouts, List.range_eq_range'] at swept
  exact ((sweepFrom_exact swept).2 spared).trans found

end Result

/-- On tasks whose attempts are booked a sweep is defined, ends the overdue ones and leaves the others alone,
up to the first that has no attempt left. -/
theorem sweepTimeouts_exact {kind : TaskKind} {m : Master} (fits : m.job.total kind ≤ kind.capacity)
    (booked : ∀ i t, i < m.job.total kind → m.task? kind i = some t → t.Booked) :
    ∃ m', sweepTimeouts m kind = some m' ∧ SweepResult kind m m' := by
  have attempts : ∀ i ∈ List.range (m.job.total kind), ∀ t, m.task? kind i = some t → t.state = .inProgress →
      1 ≤ t.attemptsCount ∧ t.attemptsCount ≤ maxAttempts := by
    intro i member t found running
    have book := booked i t (List.mem_range.mp member) found
    exact ⟨(book.last.mp running).1, book.cap⟩
  obtain ⟨m', swept⟩ := sweepFrom_defined (fun i member => Nat.lt_of_lt_of_le (List.mem_range.mp member) fits) attempts
  refine ⟨m', swept, ?_, ?_, ?_, ?_, ?_⟩
  · exact sweepTimeouts_settled swept
  · intro i t found fine
    exact sweepTimeouts_kept swept found fine
  · intro i t t' found after differs
    obtain ⟨_, running, rfl⟩ := sweepTimeouts_changed swept found after differs
    refine ⟨running, rfl, rfl, rfl, ?_⟩
    unfold Task.ended
    split
    · exact .inr rfl
    · exact .inl rfl
  · intro i t t' found after differs failed
    obtain ⟨spent, behind⟩ := sweepTimeouts_stopped swept found after differs failed
    obtain ⟨timed, -⟩ := sweepTimeouts_changed swept found after differs
    have cap := (booked i t (by simpa using timed.upper) found).cap
    exact ⟨Nat.le_antisymm cap spent, behind⟩
  · intro i j t t' u u' found after differs failed found' after' differs' failed'
    have first := (sweepTimeouts_stopped swept found after differs failed).2 j
    have second := (sweepTimeouts_stopped swept found' after' differs' failed').2 i
    rw [found', after'] at first
    rw [found, after] at second
    by_contra apart
    rcases Nat.lt_or_gt_of_ne apart with before | behind
    · exact differs' (Option.some.inj (first before))
    · exact differs (Option.some.inj (second behind))

def overdueRun : List Callback := [.connect workerA, askFrom workerA, .periodic 5000 0]

theorem sweepTimeouts_exact_pair :
    ∃ m w m', masterInitJob (Master.zero pairConfig) pairEntries = some m ∧
      Runs.run World.next (World.boot m [] 3 0 0) overdueRun = some w ∧ w.master.Overdue .map 0 ∧
      sweepTimeouts w.master .map = some m' ∧ SweepResult .map w.master m' := by
  have ran : (masterInitJob (Master.zero pairConfig) pairEntries).any (fun m =>
      (Runs.run World.next (World.boot m [] 3 0 0) overdueRun).any fun w => (w.master.task? .map 0).any fun t =>
        t.state == .inProgress && decide (w.master.nowMs - t.startedAtMs > w.master.config.taskTimeoutMs)) = true := by
    decide +kernel
  obtain ⟨m, ready, ran⟩ := (Option.any_eq_true _ _).mp ran
  obtain ⟨w, reached, ran⟩ := (Option.any_eq_true _ _).mp ran
  obtain ⟨t, found, ran⟩ := (Option.any_eq_true _ _).mp ran
  obtain ⟨running, late⟩ := (Bool.and_eq_true _ _).mp ran
  have booked : w.master.Booked := Runs.run_invariant (fun _ _ _ booked taken => next_booked booked taken)
    (Booted.booked (.fresh ready) [] 3 0 0) reached
  obtain ⟨m', swept, result⟩ := sweepTimeouts_exact (booked.totals .map) (booked.task .map)
  exact ⟨m, w, m', ready, reached, ⟨t, found, beq_iff_eq.mp running, of_decide_eq_true late⟩, swept, result⟩

end MapReduce
