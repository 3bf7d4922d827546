import MapReduce.Accounting
import MapReduce.Aof.Recovery

/-! The live master against its log.

A success changes the task the slot and the phase select, but the record takes
its id from the message and its kind from the slot, and nobody looks at whether
it was written. `Logged` is the relation that holds when none of this diverges:
the log is the job header followed by records for exactly the completed tasks.
-/

set_option autoImplicit false

namespace MapReduce

/-! ## Logs made of whole records -/

/-- The log is the job header and one whole record for each completion, in order. -/
structure WholeLog (createdMs : UInt64) (job : JobDef) (completions : List Completion) (log : Bytes) : Prop where
  bytes : log = logBytes createdMs job (completions.map Completion.record)
  ranges : ∀ c ∈ completions, c.InRange job

theorem WholeLog.load {createdMs : UInt64} {job : JobDef} {completions : List Completion} {log : Bytes}
    (whole : WholeLog createdMs job completions log) (config : MasterConfig) :
    aofLoad (Master.zero config) log = .ok (Master.restored config job completions) := by
  rw [whole.bytes]
  exact aofLoad_log config createdMs job completions whole.ranges

theorem restored_done (config : MasterConfig) {job : JobDef} {completions : List Completion}
    (ranges : ∀ c ∈ completions, c.InRange job) (kind : TaskKind) (i : Nat) :
    (Master.restored config job completions).Done kind i ↔ (kind, i) ∈ completions.map Completion.task := by
  constructor
  · rintro ⟨t, found, completed⟩
    rw [restored_task] at found
    obtain ⟨u, fresh, same⟩ := Option.map_eq_some_iff.mp found
    by_contra absent
    rw [if_neg absent] at same
    rw [← same, (Master.fresh_slot fresh).1] at completed
    cases completed
  · intro recorded
    obtain ⟨c, member, same⟩ := List.mem_map.mp recorded
    have below : i < job.total kind := by
      have range := ranges c member
      rwa [Completion.InRange, show c.kind = kind from congrArg Prod.fst same,
        show c.taskId.toNat = i from congrArg Prod.snd same] at range
    obtain ⟨t, found, _, state⟩ := restored_state config job completions below
    exact ⟨t, found, by rw [state, if_pos recorded]⟩

def NamesTask (w : World) (fd : Fd) (msg : TaskDoneReq) (kind : TaskKind) : Prop :=
  (w.master.workers fd).currentKind = some kind ∧ msg.taskId.toNat = (w.master.workers fd).currentTaskId

instance (w : World) (fd : Fd) (msg : TaskDoneReq) (kind : TaskKind) : Decidable (NamesTask w fd msg kind) :=
  inferInstanceAs (Decidable (_ ∧ _))

theorem WholeLog.append {createdMs : UInt64} {job : JobDef} {completions : List Completion} {w : World} {fd : Fd}
    {msg : TaskDoneReq} {kind : TaskKind} {log : Bytes} {script : List WriteResult}
    (whole : WholeLog createdMs job completions w.log) (names : NamesTask w fd msg kind)
    (below : (w.master.workers fd).currentTaskId < job.total kind)
    (stored : WriteResult.accepted script aofRecordSize = aofRecordSize)
    (written : log = w.log ++ (AofRecord.of msg (w.master.workers fd).currentKind).bytes.take
      (WriteResult.accepted script aofRecordSize)) :
    WholeLog createdMs job (completions ++ [⟨kind, msg.taskId, msg.attemptId⟩]) log where
  bytes := by
    rw [written, stored, List.take_of_length_le (by simp), whole.bytes, names.1, List.map_append,
      List.map_singleton, logBytes_snoc]
    rfl
  ranges c member := by
    rcases List.mem_append.mp member with old | new
    · exact whole.ranges c old
    · rw [List.mem_singleton.mp new, Completion.InRange, names.2]
      exact below

theorem Effect.log_unmarked {w : World} {c : Callback} {r : Reply} (effect : Effect w c r)
    (unmarked : r.marked = none) : r.log = w.log := by
  cases effect with
  | quiet _ log | assigned _ _ _ _ _ _ log | released _ _ _ log | swept _ _ log => exact log
  | completed _ _ _ _ marked _ =>
    rw [marked] at unmarked
    cases unmarked

/-! ## Live state and log agree -/

def Callback.LogWritten : Callback → Prop
  | .message _ _ env => WriteResult.accepted env.write aofRecordSize = aofRecordSize ∧ env.flush = true
  | _ => True

/-- An accepted report concerns a task that was handed out; a success names that task by kind and
id, and a failure does not concern a completed task. -/
def ReportsMatchSlot (w : World) (c : Callback) : Prop :=
  OnReport (fun fd _ msg kind t => 1 ≤ t.attemptsCount ∧ (msg.result = 0 → NamesTask w fd msg kind) ∧
    (msg.result ≠ 0 → t.state ≠ .completed)) w c

instance (w : World) (c : Callback) : Decidable (ReportsMatchSlot w c) :=
  inferInstanceAs (Decidable (OnReport _ w c))

/-- The completions are exactly the completed tasks, as often as the counters say. -/
structure Recorded (job : JobDef) (completions : List Completion) (m : Master) : Prop where
  sound : Sound job m
  ranges : ∀ c ∈ completions, c.InRange job
  done : ∀ kind i, m.Done kind i ↔ (kind, i) ∈ completions.map Completion.task
  count : ∀ kind, m.job.doneCount kind = countKind kind completions

theorem Recorded.core {job : JobDef} {completions : List Completion} {m m' : Master}
    (recorded : Recorded job completions m) (core : SameCore m m') : Recorded job completions m' where
  sound := recorded.sound.core core
  ranges := recorded.ranges
  done kind i := (core.done kind i).trans (recorded.done kind i)
  count kind := by rw [core.job, recorded.count]

theorem Recorded.unmarked {job : JobDef} {completions : List Completion} {w : World} {c : Callback} {r : Reply}
    (recorded : Recorded job completions w.master) (on : ReportsMatchSlot w c) (effect : Effect w c r)
    (unmarked : r.marked = none) : Recorded job completions r.master where
  sound := effect.sound recorded.sound
  ranges := recorded.ranges
  done kind i := by
    rw [effect.done (on.mono fun _ _ _ _ _ holds => holds.2.2), unmarked, ← recorded.done]
    simp
  count kind := by
    rw [effect.job.doneCount (recorded.sound.doneCount_small kind), unmarked, ← recorded.count]
    simp

theorem Recorded.marked {job : JobDef} {completions : List Completion} {w : World} {fd : Fd} {payload : Bytes}
    {env : Env} {msg : TaskDoneReq} {kind : TaskKind} {r : Reply}
    (recorded : Recorded job completions w.master) (on : ReportsMatchSlot w (.message fd payload env))
    (effect : Effect w (.message fd payload env) r) (names : NamesTask w fd msg kind)
    (below : (w.master.workers fd).currentTaskId < job.total kind)
    (marked : r.marked = some (kind, (w.master.workers fd).currentTaskId)) :
    Recorded job (completions ++ [⟨kind, msg.taskId, msg.attemptId⟩]) r.master where
  sound := effect.sound recorded.sound
  ranges c member := by
    rcases List.mem_append.mp member with old | new
    · exact recorded.ranges c old
    · rw [List.mem_singleton.mp new, Completion.InRange, names.2]
      exact below
  done k j := by
    rw [effect.done (on.mono fun _ _ _ _ _ holds => holds.2.2), marked, recorded.done]
    simp [Completion.task, names.2, eq_comm]
  count k := by
    rw [effect.job.doneCount (recorded.sound.doneCount_small k), marked, recorded.count, countKind_append]
    simp [countKind, List.countP_singleton]

theorem recorded_start (config : MasterConfig) (job : JobDef) (fd : Nat) (createdMs : UInt64)
    (now realtime : Int) : Recorded job [] (World.start config job fd createdMs now realtime).master where
  sound := World.start_sound config job fd createdMs now realtime
  ranges := by simp
  done kind i := by
    simp only [List.map_nil, List.not_mem_nil, iff_false]
    rintro ⟨t, found, completed⟩
    rw [World.start_task?] at found
    rw [(Master.fresh_slot found).1] at completed
    cases completed
  count kind := by cases kind <;> rfl

/-- The log holds the recorded completions, each as a whole record. -/
structure Logged (createdMs : UInt64) (job : JobDef) (completions : List Completion) (w : World) : Prop where
  recorded : Recorded job completions w.master
  whole : WholeLog createdMs job completions w.log

theorem logged_next {createdMs : UInt64} {job : JobDef} {w : World} {c : Callback}
    (logged : ∃ completions, Logged createdMs job completions w) (on : ReportsMatchSlot w c ∧ c.LogWritten) :
    ∃ w', w.next c = some w' ∧ ∃ completions, Logged createdMs job completions w' := by
  obtain ⟨completions, recorded, whole⟩ := logged
  obtain ⟨on, written⟩ := on
  obtain ⟨r, returned⟩ := callback_defined recorded.sound (on.mono fun _ _ _ _ _ holds => holds.1)
  have effect := callback_effect returned
  refine ⟨r.toWorld, by rw [World.next, returned, Option.map_some], ?_⟩
  cases marked : r.marked with
  | none =>
    refine ⟨completions, recorded.unmarked on effect marked, ?_⟩
    rw [effect.log_unmarked marked]
    exact whole
  | some pair =>
    obtain ⟨kind, i⟩ := pair
    obtain ⟨fd, payload, env, msg, t, rfl, accepted, success, rfl, below, log, _⟩ :=
      effect.marked_accepted recorded.sound marked
    -- The record and the completed task have the same name, so both lists grow by one completion.
    have names := (on.accepted accepted).2.1 success
    exact ⟨_, recorded.marked on effect names below marked, whole.append names below written.1 log⟩

theorem Job.PhaseOk.phaseOf {job : Job} (ok : job.PhaseOk) (alive : job.phase ≠ .failed) :
    phaseOf job.M job.R job.mapsDone job.reducesDone = job.phase := by
  unfold PhaseOk at ok
  unfold MapReduce.phaseOf
  cases phase : job.phase <;> rw [phase] at ok
  · simp [Nat.ne_of_lt ok.1]
  · simp [ok.1, Nat.ne_of_lt ok.2]
  · simp [ok.1, ok.2]
  -- Recovery never yields a failed job.
  · exact absurd phase alive

structure AgreesWith (live r : Master) : Prop where
  completed : ∀ kind i, r.Done kind i ↔ live.Done kind i
  mapsDone : r.job.mapsDone = live.job.mapsDone
  reducesDone : r.job.reducesDone = live.job.reducesDone
  phase : live.job.phase ≠ .failed → r.job.phase = live.job.phase

theorem Recorded.agrees {job : JobDef} {completions : List Completion} {m : Master}
    (recorded : Recorded job completions m) (config : MasterConfig) :
    AgreesWith m (Master.restored config job completions) := by
  have small : ∀ kind, countKind kind completions % 2 ^ 32 = m.job.doneCount kind := by
    intro kind
    have bound := recorded.sound.phase.doneCount_le kind
    rw [recorded.sound.total kind, recorded.count kind] at bound
    have cap := job.total_le kind
    rw [recorded.count, Nat.mod_eq_of_lt]
    cases kind <;> simp only [TaskKind.capacity, maxMapTasks, maxReduceTasks] at cap <;> omega
  have totalM : m.job.M = job.M := recorded.sound.total .map
  have totalR : m.job.R = job.R := recorded.sound.total .reduce
  refine ⟨?_, small .map, small .reduce, ?_⟩
  · intro kind i
    rw [restored_done config recorded.ranges, recorded.done]
  · intro alive
    have phase := recorded.sound.phase.phaseOf alive
    rw [totalM, totalR] at phase
    rw [← phase]
    exact congrArg₂ (phaseOf job.M job.R) (small .map) (small .reduce)

/-- In every run whose reports match their slots, the log restores the live master. -/
theorem live_log_agree (config : MasterConfig) (job : JobDef) (fd : Nat) (createdMs : UInt64) (now realtime : Int)
    {events : List Callback} (written : ∀ c ∈ events, c.LogWritten)
    (along : Runs.Along World.next ReportsMatchSlot (World.start config job fd createdMs now realtime) events) :
    ∃ final r, Runs.run World.next (World.start config job fd createdMs now realtime) events = some final ∧
      aofLoad (Master.zero config) final.log = .ok r ∧ AgreesWith final.master r := by
  have steps : Runs.Along World.next (fun w c => ReportsMatchSlot w c ∧ c.LogWritten)
      (World.start config job fd createdMs now realtime) events := Runs.along_and along written
  obtain ⟨final, reached, completions, logged⟩ := Runs.along_defined
    (fun _ _ logged on => logged_next logged on)
    ⟨[], recorded_start config job fd createdMs now realtime, rfl, by simp⟩ steps
  exact ⟨final, _, reached, logged.whole.load config, logged.recorded.agrees config⟩

theorem live_log_agree_pair :
    (∀ c ∈ pairRun, c.LogWritten) ∧ Runs.Along World.next ReportsMatchSlot pairStart pairRun ∧
    ∃ final r, Runs.run World.next pairStart pairRun = some final ∧
      aofLoad (Master.zero pairConfig) final.log = .ok r ∧ AgreesWith final.master r := by
  have written : ∀ c ∈ pairRun, c.LogWritten := by
    intro c member
    simp only [pairRun, List.mem_cons, List.not_mem_nil, or_false] at member
    rcases member with rfl | rfl | rfl
    · trivial
    · exact ⟨rfl, rfl⟩
    · exact ⟨rfl, rfl⟩
  have along : Runs.Along World.next ReportsMatchSlot pairStart pairRun := by
    decide +kernel
  exact ⟨written, along, live_log_agree pairConfig pairJob 3 0 0 0 written along⟩

/-- A report for task 1 from the worker that holds task 0: the master completes map 0, the log
and the master restored from it know map 1 instead. -/
theorem live_log_diverge :
    ∃ final r, Runs.run World.next pairStart [.connect workerA, askFrom workerA, reportFrom workerA 1 1 0] = some final ∧
      aofLoad (Master.zero pairConfig) final.log = .ok r ∧
      final.master.Done .map 0 ∧ ¬ r.Done .map 0 ∧ r.Done .map 1 := by
  have ran : (Runs.run World.next pairStart [.connect workerA, askFrom workerA, reportFrom workerA 1 1 0]).any
      (fun final => (final.master.task? .map 0).any (·.state == .completed) &&
        final.log == logBytes 0 pairJob [Completion.record ⟨.map, 1, 1⟩]) = true := by
    decide +kernel
  obtain ⟨final, reached, holds⟩ := (Option.any_eq_true _ _).mp ran
  obtain ⟨completed, log⟩ := (Bool.and_eq_true _ _).mp holds
  have whole : WholeLog 0 pairJob [⟨.map, 1, 1⟩] final.log := by
    refine ⟨beq_iff_eq.mp log, ?_⟩
    intro c member
    rw [List.mem_singleton.mp member]
    exact (by decide : 1 < 2)
  refine ⟨final, _, reached, whole.load pairConfig, Master.any_completed.mp completed, ?_, ?_⟩
  · rw [restored_done pairConfig whole.ranges]
    decide
  · rw [restored_done pairConfig whole.ranges]
    decide

/-! ## Acknowledged completions -/

/-- The world together with the completions the master has acknowledged so far. -/
structure Ledger where
  world : World
  acked : List (TaskKind × Nat)

def Ledger.next (l : Ledger) (c : Callback) : Option Ledger :=
  (callback l.world c).map fun r =>
    ⟨r.toWorld, if r.sent = some ackBytes then l.acked ++ r.marked.toList else l.acked⟩

def Survives (config : MasterConfig) (l : Ledger) : Prop :=
  ∃ r, aofLoad (Master.zero config) l.world.log = .ok r ∧ ∀ task ∈ l.acked, r.Done task.1 task.2

/-- An accepted success is stored whole under the name of its task, or leaves no byte in the log
and is not acknowledged. The result of the flush does not matter. -/
def SuccessesStored (l : Ledger) (c : Callback) : Prop :=
  OnReport (fun fd env msg kind t => 1 ≤ t.attemptsCount ∧ (msg.result = 0 →
    (NamesTask l.world fd msg kind ∧ WriteResult.accepted env.write aofRecordSize = aofRecordSize) ∨
    (WriteResult.accepted env.write aofRecordSize = 0 ∧ env.send ≠ .queued))) l.world c

instance (l : Ledger) (c : Callback) : Decidable (SuccessesStored l c) :=
  inferInstanceAs (Decidable (OnReport _ l.world c))

/-- The log consists of whole records, and every acknowledged completion has one. -/
structure Backed (createdMs : UInt64) (job : JobDef) (completions : List Completion) (l : Ledger) : Prop where
  sound : Sound job l.world.master
  whole : WholeLog createdMs job completions l.world.log
  acked : ∀ task ∈ l.acked, task ∈ completions.map Completion.task

theorem backed_next {createdMs : UInt64} {job : JobDef} {l : Ledger} {c : Callback}
    (backed : ∃ completions, Backed createdMs job completions l) (on : SuccessesStored l c) :
    ∃ l', l.next c = some l' ∧ ∃ completions, Backed createdMs job completions l' := by
  obtain ⟨completions, backed⟩ := backed
  obtain ⟨r, returned⟩ := callback_defined backed.sound (on.mono fun _ _ _ _ _ holds => holds.1)
  have effect := callback_effect returned
  have sound := effect.sound backed.sound
  refine ⟨_, by rw [Ledger.next, returned, Option.map_some], ?_⟩
  cases marked : r.marked with
  | none =>
    refine ⟨completions, sound, ?_, ?_⟩
    · exact (effect.log_unmarked marked) ▸ backed.whole
    · intro task member
      simp only [Option.toList_none, List.append_nil, ite_self] at member
      exact backed.acked task member
  | some pair =>
    obtain ⟨kind, i⟩ := pair
    obtain ⟨fd, payload, env, msg, t, rfl, accepted, success, rfl, below, log, sent⟩ :=
      effect.marked_accepted backed.sound marked
    rcases (on.accepted accepted).2 success with ⟨names, stored⟩ | ⟨nothing, silent⟩
    · refine ⟨completions ++ [⟨kind, msg.taskId, msg.attemptId⟩], sound,
        backed.whole.append names below stored log, ?_⟩
      intro task member
      have old : task ∈ l.acked ∨ task = (kind, (l.world.master.workers fd).currentTaskId) := by
        split at member
        · simpa using member
        · exact .inl member
      rcases old with earlier | rfl
      · rw [List.map_append]
        exact List.mem_append_left _ (backed.acked task earlier)
      · simp [Completion.task, names.2]
    · -- Nothing was stored and nothing is acknowledged: the log and the ledger are as before.
      refine ⟨completions, sound, ?_, ?_⟩
      · rw [nothing, List.take_zero, List.append_nil] at log
        exact log ▸ backed.whole
      · intro task member
        rw [if_neg silent] at sent
        rw [sent, if_neg (by simp)] at member
        exact backed.acked task member

/-- In every run whose accepted successes are stored, acknowledged completions survive. -/
theorem acked_survive (config : MasterConfig) (job : JobDef) (fd : Nat) (createdMs : UInt64) (now realtime : Int)
    {events : List Callback}
    (along : Runs.Along Ledger.next SuccessesStored ⟨World.start config job fd createdMs now realtime, []⟩ events) :
    ∃ final, Runs.run Ledger.next ⟨World.start config job fd createdMs now realtime, []⟩ events = some final ∧
      Survives config final := by
  have start : Backed createdMs job [] ⟨World.start config job fd createdMs now realtime, []⟩ :=
    ⟨World.start_sound config job fd createdMs now realtime, ⟨rfl, by simp⟩, by simp⟩
  obtain ⟨final, reached, completions, backed⟩ := Runs.along_defined
    (fun _ _ backed on => backed_next backed on) ⟨[], start⟩ along
  refine ⟨final, reached, _, backed.whole.load config, ?_⟩
  intro task member
  exact (restored_done config backed.whole.ranges task.1 task.2).mpr (backed.acked task member)

theorem acked_survive_pair :
    Runs.Along Ledger.next SuccessesStored ⟨pairStart, []⟩ pairRun ∧
    ∃ final, Runs.run Ledger.next ⟨pairStart, []⟩ pairRun = some final ∧ Survives pairConfig final := by
  have along : Runs.Along Ledger.next SuccessesStored ⟨pairStart, []⟩ pairRun := by
    decide +kernel
  exact ⟨along, acked_survive pairConfig pairJob 3 0 0 0 along⟩

/-- The write of the record fails at once, and the worker gets its ACK all the same. -/
theorem acked_lost :
    ∃ final, Runs.run Ledger.next ⟨pairStart, []⟩ [.connect workerA, askFrom workerA,
        .message workerA (RpcKind.taskDoneReq.code :: (TaskDoneReq.mk 0 1 0).body) ⟨.queued, [.error], true⟩] =
          some final ∧
      (TaskKind.map, 0) ∈ final.acked ∧ ¬ Survives pairConfig final := by
  have ran : (Runs.run Ledger.next ⟨pairStart, []⟩ [.connect workerA, askFrom workerA,
      .message workerA (RpcKind.taskDoneReq.code :: (TaskDoneReq.mk 0 1 0).body) ⟨.queued, [.error], true⟩]).any
      (fun final => final.acked == [(.map, 0)] && final.world.log == logBytes 0 pairJob []) = true := by
    decide +kernel
  obtain ⟨final, reached, holds⟩ := (Option.any_eq_true _ _).mp ran
  obtain ⟨acked, log⟩ := (Bool.and_eq_true _ _).mp holds
  have member : (TaskKind.map, 0) ∈ final.acked := by
    rw [beq_iff_eq.mp acked]
    exact List.mem_singleton_self _
  have whole : WholeLog 0 pairJob [] final.world.log := ⟨beq_iff_eq.mp log, by simp⟩
  refine ⟨final, reached, member, ?_⟩
  rintro ⟨r, loaded, all⟩
  cases (whole.load pairConfig).symm.trans loaded
  have done := (restored_done pairConfig whole.ranges .map 0).mp (all _ member)
  cases done

end MapReduce
