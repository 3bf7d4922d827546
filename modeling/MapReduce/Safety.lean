import MapReduce.Protocol

/-! What holds of a job run by workers that follow `worker.c`.

The end of the job and the log are safe in every run in which no report of a
late map attempt is taken for a reduce. The map/reduce barrier needs no such
condition, and it survives crashes of the master.
-/

set_option autoImplicit false

namespace MapReduce

/-! ## The end of the job -/

/-- When the job is done, every reduce was reported by a worker that was handed it. -/
theorem jobDone_witnessed (config : MasterConfig) (job : JobDef) (fd : Nat) (createdMs : UInt64) (now realtime : Int)
    {actions : List Action} {final : Cluster}
    (along : Runs.Along Cluster.next AcceptsOwnKind (Cluster.start config job fd createdMs now realtime) actions)
    (reached : Runs.run Cluster.next (Cluster.start config job fd createdMs now realtime) actions = some final)
    (done : final.world.master.job.phase = .done) : ∀ y < job.R, Witnessed final.trace .reduce y := by
  obtain ⟨completions, inv⟩ := inv_reached config job fd createdMs now realtime along reached
  have phaseOk := inv.books.recorded.sound.phase
  unfold Job.PhaseOk at phaseOk
  rw [done] at phaseOk
  have full : final.world.master.job.doneCount .reduce = final.world.master.job.total .reduce := phaseOk.2
  exact inv.all_witnessed full

def sampleCluster : Cluster := Cluster.start sampleConfig sampleJob 3 0 0 0

def workerB : Fd := ⟨6, by decide⟩

def work (fd : Fd) : List Action :=
  [.ask fd, .deliver fd .good, .receive fd, .finish fd true, .deliver fd .good, .confirm fd]

theorem jobDone_witnessed_sample :
    ∃ final, Runs.run Cluster.next sampleCluster (.connect workerA :: work workerA ++ work workerA) = some final ∧
      final.world.master.job.phase = .done ∧ ∀ y < sampleJob.R, Witnessed final.trace .reduce y := by
  have along : Runs.Along Cluster.next AcceptsOwnKind sampleCluster
      (.connect workerA :: work workerA ++ work workerA) := by
    decide +kernel
  have ran : (Runs.run Cluster.next sampleCluster (.connect workerA :: work workerA ++ work workerA)).any
      (fun final => final.world.master.job.phase == .done) = true := by
    decide +kernel
  obtain ⟨final, reached, done⟩ := (Option.any_eq_true _ _).mp ran
  exact ⟨final, reached, beq_iff_eq.mp done,
    jobDone_witnessed sampleConfig sampleJob 3 0 0 0 along reached (beq_iff_eq.mp done)⟩

/-- Worker A is handed the map and times out; B runs it as attempt 2 and is handed the reduce.
Then A reports its own first attempt. -/
def lateRun : List Action :=
  [.connect workerA, .ask workerA, .deliver workerA .good, .receive workerA] ++
  List.replicate 10 (.periodic 2000 0) ++ .connect workerB :: work workerB ++
  [.ask workerB, .deliver workerB .good, .receive workerB, .finish workerA true, .deliver workerA .good]

/-- The late map report is taken for the first attempt of the reduce, and the job ends without it. -/
theorem jobDone_unwitnessed :
    ∃ final, Runs.run Cluster.next sampleCluster lateRun = some final ∧
      final.world.master.job.phase = .done ∧ 0 < sampleJob.R ∧ ¬ Witnessed final.trace .reduce 0 := by
  have ran : (Runs.run Cluster.next sampleCluster lateRun).any (fun final =>
      final.world.master.job.phase == .done && final.trace == [.handed 0 .map 0 1, .handed 1 .map 0 2,
        .reported 1 .map 0 2 0, .handed 1 .reduce 0 1, .reported 0 .map 0 1 0]) = true := by
    decide +kernel
  obtain ⟨final, reached, holds⟩ := (Option.any_eq_true _ _).mp ran
  obtain ⟨done, trace⟩ := (Bool.and_eq_true _ _).mp holds
  refine ⟨final, reached, beq_iff_eq.mp done, by decide, ?_⟩
  rintro ⟨serial, attempt, _, reported⟩
  rw [beq_iff_eq.mp trace] at reported
  simp at reported

/-! ## The log -/

theorem record_pairs_nodup {completions : List Completion} (distinct : (completions.map Completion.task).Nodup) :
    (completions.map fun c => (c.record.kind, c.record.taskId)).Nodup := by
  -- The pair on disk determines the task.
  let task : UInt8 × UInt32 → TaskKind × Nat := fun pair => (if pair.1 = 1 then .map else .reduce, pair.2.toNat)
  have through : completions.map Completion.task =
      (completions.map fun c => (c.record.kind, c.record.taskId)).map task := by
    rw [List.map_map]
    apply List.map_congr_left
    rintro ⟨kind, taskId, attemptId⟩ _
    cases kind <;> rfl
  rw [through] at distinct
  exact List.Nodup.of_map task distinct

theorem length_eq_countKind (completions : List Completion) :
    completions.length = countKind .map completions + countKind .reduce completions := by
  induction completions with
  | nil => rfl
  | cons c rest ih =>
    obtain ⟨kind, taskId, attemptId⟩ := c
    simp only [countKind, List.length_cons, List.countP_cons] at ih ⊢
    cases kind <;> simp <;> omega

/-- The log holds at most one record for each kind and id, so at most one for each task. A record
may have been cut short by a failed write; every entry says how much of it was stored. -/
theorem records_distinct (config : MasterConfig) (job : JobDef) (fd : Nat) (createdMs : UInt64) (now realtime : Int)
    {actions : List Action} {final : Cluster}
    (along : Runs.Along Cluster.next AcceptsOwnKind (Cluster.start config job fd createdMs now realtime) actions)
    (reached : Runs.run Cluster.next (Cluster.start config job fd createdMs now realtime) actions = some final) :
    (final.records.map fun entry => (entry.1.kind, entry.1.taskId)).Nodup ∧
      final.records.length ≤ job.M + job.R ∧
      final.world.log = logBytes createdMs job [] ++ final.records.flatMap fun entry => entry.1.bytes.take entry.2 := by
  obtain ⟨completions, inv⟩ := inv_reached config job fd createdMs now realtime along reached
  have books := inv.books
  refine ⟨?_, ?_, books.log⟩
  · have pairs : (final.records.map fun entry => (entry.1.kind, entry.1.taskId)) =
        completions.map fun c => (c.record.kind, c.record.taskId) := by
      have entries := congrArg (List.map fun record : AofRecord => (record.kind, record.taskId)) books.entries
      simpa only [List.map_map, Function.comp_def] using entries
    rw [pairs]
    exact record_pairs_nodup books.distinct
  · have lengths := congrArg List.length books.entries
    rw [List.length_map, List.length_map, length_eq_countKind] at lengths
    have maps := countKind_le_total books.recorded.ranges books.distinct .map
    have reduces := countKind_le_total books.recorded.ranges books.distinct .reduce
    simp only [JobDef.total] at maps reduces
    omega

theorem records_distinct_sample :
    ∃ final, Runs.run Cluster.next sampleCluster (.connect workerA :: work workerA ++ work workerA) = some final ∧
      (final.records.map fun entry => (entry.1.kind, entry.1.taskId)).Nodup ∧
      final.records.length ≤ sampleJob.M + sampleJob.R ∧
      final.world.log = logBytes 0 sampleJob [] ++ final.records.flatMap fun entry => entry.1.bytes.take entry.2 := by
  have along : Runs.Along Cluster.next AcceptsOwnKind sampleCluster
      (.connect workerA :: work workerA ++ work workerA) := by
    decide +kernel
  have ran : (Runs.run Cluster.next sampleCluster (.connect workerA :: work workerA ++ work workerA)).isSome = true := by
    decide +kernel
  obtain ⟨final, reached⟩ := Option.isSome_iff_exists.mp ran
  exact ⟨final, reached, records_distinct sampleConfig sampleJob 3 0 0 0 along reached⟩

/-- After the late map report the log holds two records for map 0, and none for the reduce. -/
theorem records_repeated :
    ∃ final, Runs.run Cluster.next sampleCluster lateRun = some final ∧
      final.world.log = logBytes 0 sampleJob [Completion.record ⟨.map, 0, 2⟩, Completion.record ⟨.map, 0, 1⟩] ∧
      ¬ (final.records.map fun entry => (entry.1.kind, entry.1.taskId)).Nodup := by
  have ran : (Runs.run Cluster.next sampleCluster lateRun).any (fun final =>
      final.world.log == logBytes 0 sampleJob [Completion.record ⟨.map, 0, 2⟩, Completion.record ⟨.map, 0, 1⟩] &&
      final.records.map (fun entry => (entry.1.kind, entry.1.taskId)) == [(1, 0), (1, 0)]) = true := by
    decide +kernel
  obtain ⟨final, reached, holds⟩ := (Option.any_eq_true _ _).mp ran
  obtain ⟨log, records⟩ := (Bool.and_eq_true _ _).mp holds
  refine ⟨final, reached, beq_iff_eq.mp log, ?_⟩
  rw [beq_iff_eq.mp records]
  decide

/-! ## Restarts -/

/-- Every record handed to the log was stored whole. -/
def StoredWhole (c : Cluster) : Prop := ∀ entry ∈ c.records, entry.2 = aofRecordSize

theorem Books.wholeLog {createdMs : UInt64} {job : JobDef} {completions : List Completion} {c : Cluster}
    (books : Books createdMs job completions c.world c.records) (stored : StoredWhole c) :
    WholeLog createdMs job completions c.world.log where
  ranges := books.recorded.ranges
  bytes := by
    have whole : (c.records.flatMap fun entry => entry.1.bytes.take entry.2) =
        (c.records.map Prod.fst).flatMap AofRecord.bytes := by
      rw [List.flatMap_map]
      apply List.flatMap_congr
      intro entry member
      rw [stored entry member, List.take_of_length_le (by simp)]
    rw [books.log, whole, books.entries]
    simp [logBytes]

theorem restored_slot {config : MasterConfig} {job : JobDef} {completions : List Completion} {kind : TaskKind}
    {i : Nat} {t : Task} (found : (Master.restored config job completions).task? kind i = some t) :
    (t.state = .pending ∨ t.state = .completed ∧ (kind, i) ∈ completions.map Completion.task) ∧
      t.currentAttempt = 0 ∧ t.attemptsCount = 0 ∧ t.inputPath.length = t.inputPathLen ∧
      t.inputPathLen < mapreducePathMax := by
  rw [restored_task] at found
  obtain ⟨u, fresh, same⟩ := Option.map_eq_some_iff.mp found
  obtain ⟨pending, current, count, length, short, _⟩ := Master.fresh_slot fresh
  split at same
  next recorded =>
    subst same
    exact ⟨.inr ⟨rfl, recorded⟩, current, count, length, short⟩
  · subst same
    exact ⟨.inl pending, current, count, length, short⟩

theorem phaseOf_ok {M R mapsDone reducesDone : Nat} (timeout : Int) (maps : mapsDone ≤ M) (reduces : reducesDone ≤ R)
    (some_reduce : 1 ≤ R) (order : 0 < reducesDone → mapsDone = M) :
    (Job.mk M R (phaseOf M R mapsDone reducesDone) mapsDone reducesDone timeout).PhaseOk := by
  unfold phaseOf
  by_cases all : mapsDone = M
  · by_cases last : reducesDone = R
    · simp [all, last, Job.PhaseOk]
    · simp only [all, last, ↓reduceIte, Job.PhaseOk, true_and]
      omega
  · simp only [all, ↓reduceIte, Job.PhaseOk]
    omega

def restarted (config : MasterConfig) (job : JobDef) (completions : List Completion) (fd : Nat) (now realtime : Int) :
    Master :=
  masterInit { Master.restored config job completions with aofFd := fd } now realtime

theorem restarted_task? (config : MasterConfig) (job : JobDef) (completions : List Completion) (fd : Nat)
    (now realtime : Int) (kind : TaskKind) (i : Nat) :
    (restarted config job completions fd now realtime).task? kind i =
      (Master.restored config job completions).task? kind i := by
  cases kind <;> rfl

section Restart
variable {job : JobDef} {completions : List Completion} (ranges : ∀ c ∈ completions, c.InRange job)
  (distinct : (completions.map Completion.task).Nodup)

include ranges distinct in
theorem countKind_small (kind : TaskKind) : countKind kind completions % 2 ^ 32 = countKind kind completions := by
  have bound := countKind_le_total ranges distinct kind
  have cap := job.total_le kind
  apply Nat.mod_eq_of_lt
  cases kind <;> simp only [TaskKind.capacity, maxMapTasks, maxReduceTasks] at cap <;> omega

include ranges distinct in
theorem restarted_sound (order : 0 < countKind .reduce completions → countKind .map completions = job.M)
    (config : MasterConfig) (fd : Nat) (now realtime : Int) :
    Sound job (restarted config job completions fd now realtime) where
  total kind := by cases kind <;> rfl
  phase := by
    simp only [restarted, masterInit, Master.restored, LogHeader.restored, countKind_small ranges distinct]
    exact phaseOf_ok _ (countKind_le_total ranges distinct .map) (countKind_le_total ranges distinct .reduce)
      job.reduces_pos order
  task kind i t found := by
    rw [restarted_task?] at found
    obtain ⟨state, current, count, _⟩ := restored_slot found
    refine ⟨current.trans count.symm, by omega, fun _ => by rw [count]; decide, ?_⟩
    intro running
    rcases state with pending | ⟨completed, _⟩
    · rw [pending] at running
      cases running
    · rw [completed] at running
      cases running
  idle kind i t outside found := by
    rw [restarted_task?] at found
    obtain ⟨state, _, count, _⟩ := restored_slot found
    refine ⟨count, state.resolve_right ?_⟩
    rintro ⟨_, recorded⟩
    have below := List.mem_range.mp (idsOf_subset ranges kind (mem_idsOf.mpr recorded))
    omega
  failed kind i t found failed := by
    rw [restarted_task?] at found
    obtain ⟨pending | ⟨completed, _⟩, _⟩ := restored_slot found
    · rw [pending] at failed
      cases failed
    · rw [completed] at failed
      cases failed
  path i t found := by
    rw [restarted_task?] at found
    obtain ⟨_, _, _, length, short⟩ := restored_slot found
    exact ⟨length, short⟩
  opened := Int.natCast_nonneg fd

include ranges distinct in
theorem restarted_recorded (order : 0 < countKind .reduce completions → countKind .map completions = job.M)
    (config : MasterConfig) (fd : Nat) (now realtime : Int) :
    Recorded job completions (restarted config job completions fd now realtime) where
  sound := restarted_sound ranges distinct order config fd now realtime
  ranges := ranges
  done kind i := by
    rw [← restored_done config ranges]
    unfold Master.Done
    rw [restarted_task?]
  count kind := by
    cases kind
    · exact countKind_small ranges distinct .map
    · exact countKind_small ranges distinct .reduce

end Restart

theorem masterBootstrapJob_log {config : MasterConfig} {log : Bytes} {m : Master} (written : log ≠ [])
    (loaded : aofLoad (Master.zero config) log = .ok m) (fd : Nat) :
    masterBootstrapJob config [] log (.good fd 0) = some ⟨{ m with aofFd := fd }, log⟩ := by
  simp [masterBootstrapJob, written, loaded, Except.toOption, aofInit, InitEnv.good]

theorem Inv.crash {createdMs : UInt64} {job : JobDef} {completions : List Completion} {c c' : Cluster}
    (inv : Inv createdMs job completions c) (stored : StoredWhole c) {aofFd : Nat} {now realtime : Int}
    (taken : c.survive (.crash aofFd now realtime) = some c') : Inv createdMs job completions c' := by
  have books := inv.books
  have whole := books.wholeLog stored
  have written : c.world.log ≠ [] := by
    rw [whole.bytes]
    exact logBytes_nonempty _ _ _
  simp only [Cluster.survive, masterBootstrapJob_log written (whole.load _), Option.map_some] at taken
  cases taken
  have recorded := restarted_recorded books.recorded.ranges books.distinct books.order c.world.master.config
    aofFd now realtime
  -- The trace is not part of the master, so old witnesses still count.
  refine ⟨⟨recorded, books.distinct, books.order, books.entries, books.log⟩, ?_, ?_, ?_⟩
  · exact ⟨by simp [Conn.token], by simp [Conn.token], by simp [Conn.token]⟩
  · exact ⟨by simp [Conn.token], by simp⟩
  · intro kind i done
    exact inv.witnessed kind i ((books.recorded.done kind i).mpr ((recorded.done kind i).mp done))

/-! ## The barrier -/

def AllMaps (job : JobDef) (trace : List Happened) : Prop := ∀ x < job.M, Witnessed trace .map x

/-- Whenever a reduce was handed out, all maps had been reported before. -/
def Barrier (job : JobDef) (trace : List Happened) : Prop :=
  ∀ before after serial y attempt, trace = before ++ .handed serial .reduce y attempt :: after → AllMaps job before

theorem Barrier.append {job : JobDef} {trace more : List Happened} (barrier : Barrier job trace)
    (one : more.length ≤ 1)
    (ready : ∀ serial y attempt, .handed serial .reduce y attempt ∈ more → AllMaps job trace) :
    Barrier job (trace ++ more) := by
  intro before after serial y attempt split
  cases more with
  | nil => exact barrier before after serial y attempt (by simpa using split)
  | cons event rest =>
    have single : rest = [] := by simpa using one
    subst single
    rcases List.eq_nil_or_concat after with rfl | ⟨init, last, rfl⟩
    · obtain ⟨rfl, same⟩ := List.append_inj' split rfl
      cases same
      exact ready serial y attempt List.mem_cons_self
    · have shape : trace ++ [event] = (before ++ .handed serial .reduce y attempt :: init) ++ [last] := by
        simpa using split
      exact barrier before init serial y attempt (List.append_inj' shape rfl).1

theorem handedBy_length (serial : Nat) (sent : Option Bytes) : (handedBy serial sent).length ≤ 1 := by
  unfold handedBy
  split <;> simp

theorem Cluster.next_trace {c c' : Cluster} {action : Action} (taken : c.next action = some c') :
    ∃ more, c'.trace = c.trace ++ more ∧ more.length ≤ 1 ∧
      ∀ serial kind i attempt, .handed serial kind i attempt ∈ more →
        ∃ fd env payload r, (c.conns fd).outgoing = some payload ∧
          callback c.world (.message fd payload env) = some r ∧ more = handedBy (c.serial fd) r.sent := by
  cases next_step taken with
  | reset => exact ⟨[], (List.append_nil _).symm, Nat.zero_le _, by simp⟩
  | moved held told one unhanded =>
    exact ⟨_, rfl, one, fun serial kind i attempt handed => absurd handed (unhanded serial kind i attempt)⟩
  | delivered outgoing returned =>
    exact ⟨_, c.delivered_trace _ _ _, handedBy_length _ _,
      fun _ _ _ _ _ => ⟨_, _, _, _, outgoing, returned, rfl⟩⟩
  | ticked => exact ⟨[], (List.append_nil _).symm, Nat.zero_le _, by simp⟩

theorem StoredWhole.next {c c' : Cluster} {action : Action} (stored : StoredWhole c)
    (written : (Incident.action action).LogWritten) (taken : c.next action = some c') : StoredWhole c' := by
  cases Cluster.next_step taken with
  | reset | moved | ticked => exact stored
  | delivered outgoing returned =>
    intro entry member
    rw [c.delivered_records, List.mem_append] at member
    rcases member with before | now
    · exact stored entry before
    · unfold recordedBy at now
      split at now
      · rw [List.mem_singleton.mp now]
        exact written.1
      · cases now

section Barrier
variable {createdMs : UInt64} {job : JobDef} {completions : List Completion} {c c' : Cluster}
  (inv : Inv createdMs job completions c)

include inv in
theorem Inv.allMaps (phase : c.world.master.job.phase = .reduce) : AllMaps job c.trace := by
  have phaseOk := inv.books.recorded.sound.phase
  unfold Job.PhaseOk at phaseOk
  rw [phase] at phaseOk
  have full : c.world.master.job.doneCount .map = c.world.master.job.total .map := phaseOk.1
  exact inv.all_witnessed full

include inv in
theorem Inv.request_reduce {fd : Fd} {env : Env} {r : Reply} (handled : masterHandleGetTask c.world fd env = some r)
    {serial serial' y attempt : Nat} (handed : .handed serial .reduce y attempt ∈ handedBy serial' r.sent) :
    c.world.master.job.phase = .reduce := by
  cases sent : r.sent with
  | none =>
    rw [sent] at handed
    cases handed
  | some payload =>
    rw [sent] at handed
    rcases inv.request_answer handled sent with nothing | ⟨kind, i, t, phase, _, _, decoded⟩
    · unfold handedBy at handed
      split at handed
      next decoded => exact absurd decoded (nothing _ _ _)
      · cases handed
    · rw [handedBy_task decoded] at handed
      cases List.mem_singleton.mp handed
      cases now : c.world.master.job.phase <;> rw [now] at phase <;> first | rfl | cases phase

theorem masterHandleTaskDone_sent {w : World} {fd : Fd} {env : Env} {msg : TaskDoneReq} {r : Reply}
    (handled : masterHandleTaskDone w fd env msg = some r) (serial : Nat) : handedBy serial r.sent = [] := by
  rcases masterHandleTaskDone_cases handled with helped | ⟨-, rfl⟩
  · rw [taskDoneHelper_sent helped]
    split <;> rfl
  · rfl

include inv in
theorem Inv.deliver_reduce {fd : Fd} {env : Env} {payload : Bytes} {r : Reply}
    (sent : (c.conns fd).outgoing = some payload)
    (returned : callback c.world (.message fd payload env) = some r) {serial serial' y attempt : Nat}
    (handed : .handed serial .reduce y attempt ∈ handedBy serial' r.sent) : c.world.master.job.phase = .reduce := by
  rcases Conn.outgoing_some sent with ⟨_, rfl⟩ | ⟨kind, msg, _, rfl⟩
  · exact inv.request_reduce returned handed
  · rw [callback_encoded] at returned
    rw [masterHandleTaskDone_sent returned] at handed
    cases handed

include inv in
theorem Inv.own_kind {action : Action} (taken : c.next action = some c')
    (before : c.world.master.job.phase ≠ .reduce) : AcceptsOwnKind c action := by
  cases action with
  | deliver fd env =>
    intro payload outgoing
    simp only [Cluster.next, Option.bind_eq_bind, Option.bind_eq_some_iff] at taken
    obtain ⟨bytes, sent, r, returned, _⟩ := taken
    cases Option.mem_unique outgoing sent
    rcases Conn.outgoing_some sent with ⟨_, rfl⟩ | ⟨kind, msg, conn, rfl⟩
    · intro msg report
      cases report
    · intro msg' report k phase
      rw [callback_report c.world fd env report phase] at returned
      obtain ⟨k', t, same, found, _⟩ := taskDoneHelper_cases returned
      cases Option.mem_unique same phase
      have flight := inv.inFlight conn
      refine ⟨t, found, fun _ => ?_⟩
      show (c.world.master.workers fd).currentKind = some k
      rw [flight.ok.slotKind]
      have mapping : c.world.master.job.phase = .map := by
        cases now : c.world.master.job.phase with
        | map => rfl
        | reduce => exact absurd now before
        | done | failed => rw [now] at phase; cases phase
      -- In the map phase nobody holds a reduce.
      cases kind with
      | map =>
        rw [mapping] at phase
        exact phase
      | reduce => exact absurd mapping (inv.tokens.phase fd _ _ flight.token)
  | connect | ask | receive | finish | confirm | disconnect | periodic => trivial

end Barrier

/-- Until all maps are reported the books are in order; from then on a reduce may be handed out at any time. -/
structure Guarded (createdMs : UInt64) (job : JobDef) (c : Cluster) : Prop where
  barrier : Barrier job c.trace
  ready : (∃ completions, Inv createdMs job completions c ∧ StoredWhole c) ∨ AllMaps job c.trace

theorem AllMaps.mono {job : JobDef} {trace : List Happened} (all : AllMaps job trace) (more : List Happened) :
    AllMaps job (trace ++ more) :=
  fun x below => (all x below).mono more

theorem Guarded.next {createdMs : UInt64} {job : JobDef} {c c' : Cluster} {action : Action}
    (guarded : Guarded createdMs job c) (written : (Incident.action action).LogWritten)
    (taken : c.next action = some c') : Guarded createdMs job c' := by
  obtain ⟨more, trace, one, source⟩ := Cluster.next_trace taken
  have extend : ((∃ serial y attempt, .handed serial .reduce y attempt ∈ more) → AllMaps job c.trace) →
      Barrier job c'.trace := by
    intro ready
    rw [trace]
    exact guarded.barrier.append one fun serial y attempt handed => ready ⟨serial, y, attempt, handed⟩
  rcases guarded.ready with ⟨completions, inv, stored⟩ | all
  · refine ⟨extend ?_, ?_⟩
    · rintro ⟨serial, y, attempt, handed⟩
      obtain ⟨fd, env, payload, r, sent, returned, same⟩ := source serial .reduce y attempt handed
      rw [same] at handed
      exact inv.allMaps (inv.deliver_reduce sent returned handed)
    · -- In the reduce phase a late report may spoil the books, but then all maps are reported already.
      by_cases phase : c.world.master.job.phase = .reduce
      · rw [trace]
        exact .inr ((inv.allMaps phase).mono more)
      · obtain ⟨completions', inv'⟩ := inv.next (inv.own_kind taken phase) taken
        exact .inl ⟨completions', inv', stored.next written taken⟩
  · refine ⟨extend fun _ => all, .inr ?_⟩
    rw [trace]
    exact all.mono more

theorem Guarded.survive {createdMs : UInt64} {job : JobDef} {c c' : Cluster} {incident : Incident}
    (guarded : Guarded createdMs job c) (written : incident.LogWritten)
    (taken : c.survive incident = some c') : Guarded createdMs job c' := by
  cases incident with
  | action action => exact guarded.next written taken
  | crash aofFd now realtime =>
    obtain ⟨w, _, same⟩ := Option.map_eq_some_iff.mp taken
    have trace : c'.trace = c.trace := by rw [← same]
    have records : c'.records = c.records := by rw [← same]
    refine ⟨by rw [trace]; exact guarded.barrier, ?_⟩
    rcases guarded.ready with ⟨completions, inv, stored⟩ | all
    · refine .inl ⟨completions, inv.crash stored taken, ?_⟩
      unfold StoredWhole
      rwa [records]
    · rw [trace]
      exact .inr all

/-- Before a reduce is handed out, every map has been reported done by a worker that was handed it, whatever
sweeps, lost connections and restarts of the master come between. -/
theorem reduce_after_maps (config : MasterConfig) (job : JobDef) (fd : Nat) (createdMs : UInt64)
    (now realtime : Int) {incidents : List Incident} {final : Cluster}
    (written : ∀ incident ∈ incidents, incident.LogWritten)
    (reached : Runs.run Cluster.survive (Cluster.start config job fd createdMs now realtime) incidents = some final)
    {before after : List Happened} {serial y attempt : Nat}
    (handed : final.trace = before ++ .handed serial .reduce y attempt :: after) :
    ∀ x < job.M, Witnessed before .map x := by
  have started : Guarded createdMs job (Cluster.start config job fd createdMs now realtime) := by
    refine ⟨?_, .inl ⟨[], inv_start config job fd createdMs now realtime, by simp [StoredWhole, Cluster.start]⟩⟩
    intro before after serial y attempt split
    simp [Cluster.start] at split
  have guarded : Guarded createdMs job final :=
    Runs.along_invariant (fun _ _ _ guarded written taken => guarded.survive written taken) started
      (Runs.along_events written _) reached
  exact guarded.barrier before after serial y attempt handed

/-- The map is done, the master crashes before the worker reads the acknowledgement, and the reduce is
handed out by the restarted master. -/
def crashRun : List Incident :=
  (.connect workerA :: (work workerA).take 5).map .action ++ [.crash 3 5000 0] ++
    [.connect workerB, .ask workerB, .deliver workerB .good].map .action

theorem reduce_after_maps_sample :
    ∃ final, Runs.run Cluster.survive sampleCluster crashRun = some final ∧
      final.trace = [.handed 0 .map 0 1, .reported 0 .map 0 1 0] ++ [.handed 1 .reduce 0 1] ∧
      ∀ x < sampleJob.M, Witnessed [.handed 0 .map 0 1, .reported 0 .map 0 1 0] .map x := by
  have written : ∀ incident ∈ crashRun, incident.LogWritten := by
    decide
  have ran : (Runs.run Cluster.survive sampleCluster crashRun).any (fun final =>
      final.trace == [.handed 0 .map 0 1, .reported 0 .map 0 1 0] ++ [.handed 1 .reduce 0 1]) = true := by
    decide +kernel
  obtain ⟨final, reached, trace⟩ := (Option.any_eq_true _ _).mp ran
  exact ⟨final, reached, beq_iff_eq.mp trace,
    reduce_after_maps sampleConfig sampleJob 3 0 0 0 written reached (beq_iff_eq.mp trace)⟩

end MapReduce
