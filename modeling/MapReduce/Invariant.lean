import MapReduce.Effects

/-! What holds of the master after any defined sequence of callbacks.

The payloads are arbitrary bytes here. `Sound` needs no assumption on them, and
from it `callback_defined` names the only callbacks without defined behaviour:
reports that reach a slot outside the tables or a task that was never handed out.
-/

set_option autoImplicit false

namespace MapReduce

/-! ## Effects seen from one task, from the job and from the set of completed tasks -/

/-- What a callback can do to one task; `after` is the phase it leaves. -/
inductive TaskMove (w : World) (after : JobPhase) (kind : TaskKind) (i : Nat) (t : Task) : Callback → Task → Prop
  | keep {c : Callback} : TaskMove w after kind i t c t
  | assign {fd : Fd} {payload : Bytes} {env : Env} (asked : rpcPeekKind payload = some .getTaskReq)
      (phase : w.master.job.phase.kind? = some kind) (below : i < w.master.job.total kind)
      (pending : t.state = .pending) :
      TaskMove w after kind i t (.message fd payload env) (t.assigned fd w.master.nowMs)
  | succeed {fd : Fd} {payload : Bytes} {env : Env} {msg : TaskDoneReq}
      (accepted : Accepted w.master fd payload msg kind t) (at_slot : i = (w.master.workers fd).currentTaskId)
      (success : msg.result = 0) :
      TaskMove w after kind i t (.message fd payload env) (t.succeeded fd w.master.nowMs)
  | fail {fd : Fd} {payload : Bytes} {env : Env} {msg : TaskDoneReq}
      (accepted : Accepted w.master fd payload msg kind t) (at_slot : i = (w.master.workers fd).currentTaskId)
      (failure : msg.result ≠ 0) (spent : t.attemptsCount ≥ maxAttempts → after = .failed) :
      TaskMove w after kind i t (.message fd payload env) (t.ended .failed fd.val w.master.nowMs)
  | timeout {now realtime : Int} (running : t.state = .inProgress) (attempted : 1 ≤ t.attemptsCount)
      (spent : t.attemptsCount ≥ maxAttempts → after = .failed) :
      TaskMove w after kind i t (.periodic now realtime) (t.ended .timeout t.ownerFd now)

theorem maybeAdvancePhase_task? (m : Master) (kind : TaskKind) (i : Nat) :
    (maybeAdvancePhase m).task? kind i = m.task? kind i := by
  unfold maybeAdvancePhase
  simp only
  split <;> split <;> cases kind <;> rfl

theorem Master.task?_complete (m : Master) (kind other : TaskKind) (i j : Nat) (t : Task) (fd : Fd) :
    (m.complete kind i t fd).task? other j = (m.setTask kind i (t.succeeded fd m.nowMs)).task? other j := by
  unfold complete
  rw [maybeAdvancePhase_task?]
  cases other <;> rfl

theorem setTask_cases {m : Master} {kind other : TaskKind} {i j : Nat} {old new t : Task}
    (at_slot : m.task? kind i = some old) (found : m.task? other j = some t) :
    (m.setTask kind i new).task? other j = some t ∨
      (other = kind ∧ j = i ∧ t = old ∧ (m.setTask kind i new).task? other j = some new) := by
  by_cases same : (other, j) = (kind, i)
  · cases same
    cases at_slot.symm.trans found
    exact .inr ⟨rfl, rfl, rfl, Master.task?_setTask_self new at_slot⟩
  · exact .inl ((Master.task?_setTask_ne m new same).trans found)

theorem Effect.task {w : World} {c : Callback} {r : Reply} (effect : Effect w c r) {kind : TaskKind} {i : Nat}
    {t : Task} (found : w.master.task? kind i = some t) :
    ∃ t', r.master.task? kind i = some t' ∧ TaskMove w r.master.job.phase kind i t c t' := by
  cases effect with
  | quiet core _ _ => exact ⟨t, (core.task? kind i).trans found, .keep⟩
  | assigned asked phase below at_slot pending core _ _ =>
    rw [core.task?]
    rcases setTask_cases at_slot found with kept | ⟨rfl, rfl, rfl, changed⟩
    · exact ⟨t, kept, .keep⟩
    · exact ⟨_, changed, .assign asked phase below pending⟩
  | completed accepted success core _ _ _ =>
    rw [core.task?, Master.task?_complete]
    rcases setTask_cases accepted.found found with kept | ⟨rfl, rfl, rfl, changed⟩
    · exact ⟨t, kept, .keep⟩
    · exact ⟨_, changed, .succeed accepted rfl success⟩
  | released accepted failure core _ _ =>
    rw [core.task?, Master.task?_release]
    rcases setTask_cases accepted.found found with kept | ⟨rfl, rfl, rfl, changed⟩
    · exact ⟨t, kept, .keep⟩
    · refine ⟨_, changed, .fail accepted rfl failure fun spent => ?_⟩
      rw [core.job, Master.release_job, if_pos spent]
  | @swept now realtime _ swept_kind phase swept _ _ =>
    have ticked : (w.master.tick now realtime).task? kind i = some t := by
      cases kind <;> exact found
    by_cases same : kind = swept_kind
    · subst same
      rcases swept.task i t ticked with kept | ⟨running, attempted, ended, spent⟩
      · exact ⟨t, kept, .keep⟩
      · exact ⟨_, ended, .timeout running attempted spent⟩
    · exact ⟨t, (swept.other kind i same).trans ticked, .keep⟩

theorem Effect.task_before {w : World} {c : Callback} {r : Reply} (effect : Effect w c r) {kind : TaskKind}
    {i : Nat} {t' : Task} (found : r.master.task? kind i = some t') :
    ∃ t, w.master.task? kind i = some t ∧ TaskMove w r.master.job.phase kind i t c t' := by
  obtain ⟨t, before⟩ := w.master.task?_isSome (Master.lt_capacity found)
  obtain ⟨u, after, move⟩ := effect.task before
  cases found.symm.trans after
  exact ⟨t, before, move⟩

/-- The phase test of `maybe_advance_phase` on the job record alone. -/
def Job.advance (job : Job) : Job :=
  if job.phase = .map ∧ job.mapsDone = job.M then
    if job.reducesDone = job.R then { job with phase := .done } else { job with phase := .reduce }
  else if job.phase = .reduce ∧ job.reducesDone = job.R then { job with phase := .done } else job

theorem maybeAdvancePhase_job (m : Master) : (maybeAdvancePhase m).job = m.job.advance := by
  unfold maybeAdvancePhase Job.advance
  by_cases maps : m.job.phase = .map ∧ m.job.mapsDone = m.job.M
  · by_cases reduces : m.job.reducesDone = m.job.R <;> simp [maps, reduces]
  · by_cases reduces : m.job.phase = .reduce ∧ m.job.reducesDone = m.job.R <;> simp [maps, reduces]

@[simp] theorem Job.advance_total (job : Job) (kind : TaskKind) : job.advance.total kind = job.total kind := by
  unfold advance
  split
  · split <;> cases kind <;> rfl
  · split <;> cases kind <;> rfl

@[simp] theorem Job.advance_doneCount (job : Job) (kind : TaskKind) :
    job.advance.doneCount kind = job.doneCount kind := by
  unfold advance
  split
  · split <;> cases kind <;> rfl
  · split <;> cases kind <;> rfl

/-- What a callback can do to the job record, with the task it marks. -/
inductive JobMove (job : Job) : Option (TaskKind × Nat) → Job → Prop
  | keep : JobMove job none job
  | fail {kind : TaskKind} (phase : job.phase.kind? = some kind) : JobMove job none { job with phase := .failed }
  | count {kind : TaskKind} {i : Nat} (phase : job.phase.kind? = some kind) :
      JobMove job (some (kind, i)) (job.countDone kind).advance

theorem Effect.job {w : World} {c : Callback} {r : Reply} (effect : Effect w c r) :
    JobMove w.master.job r.marked r.master.job := by
  cases effect with
  | quiet core _ unmarked =>
    rw [core.job, unmarked]
    exact .keep
  | assigned _ _ _ _ _ core _ unmarked =>
    rw [core.job, unmarked, Master.setTask_job]
    exact .keep
  | completed accepted _ core _ marked _ =>
    rw [core.job, marked, Master.complete, maybeAdvancePhase_job]
    exact .count accepted.phase
  | released accepted _ core _ unmarked =>
    rw [core.job, unmarked, Master.release_job]
    split
    · exact .fail accepted.phase
    · exact .keep
  | swept phase swept _ unmarked =>
    rw [unmarked]
    rcases swept.job with same | failed
    · rw [same]
      exact .keep
    · rw [failed]
      exact .fail phase

theorem JobMove.total {job job' : Job} {marked : Option (TaskKind × Nat)} (move : JobMove job marked job')
    (kind : TaskKind) : job'.total kind = job.total kind := by
  cases move with
  | keep => rfl
  | fail => cases kind <;> rfl
  | @count counted => rw [Job.advance_total]; cases counted <;> cases kind <;> rfl

theorem JobMove.doneCount {job job' : Job} {marked : Option (TaskKind × Nat)} (move : JobMove job marked job')
    {kind : TaskKind} (small : job.doneCount kind + 1 < 2 ^ 32) :
    job'.doneCount kind = job.doneCount kind + if marked.any (·.1 == kind) then 1 else 0 := by
  cases move with
  | keep => rfl
  | fail => cases kind <;> rfl
  | @count counted =>
    rw [Job.advance_doneCount]
    cases counted <;> cases kind <;> first | rfl | exact Nat.mod_eq_of_lt small

def Master.Done (m : Master) (kind : TaskKind) (i : Nat) : Prop :=
  ∃ t, m.task? kind i = some t ∧ t.state = .completed

/-- A condition on the reports that pass the attempt check, and on nothing else. The report
must also find its task inside the table. -/
def OnReport (good : Fd → Env → TaskDoneReq → TaskKind → Task → Prop) (w : World) : Callback → Prop
  | .message fd payload env => ∀ msg ∈ reportOf payload, ∀ kind ∈ w.master.job.phase.kind?,
      ∃ t ∈ w.master.task? kind (w.master.workers fd).currentTaskId,
        msg.attemptId.toNat = t.currentAttempt → good fd env msg kind t
  | _ => True

instance {good : Fd → Env → TaskDoneReq → TaskKind → Task → Prop}
    [∀ fd env msg kind t, Decidable (good fd env msg kind t)] (w : World) :
    (c : Callback) → Decidable (OnReport good w c)
  | .message fd payload env => inferInstanceAs (Decidable (∀ msg ∈ reportOf payload,
      ∀ kind ∈ w.master.job.phase.kind?, ∃ t ∈ w.master.task? kind (w.master.workers fd).currentTaskId,
        msg.attemptId.toNat = t.currentAttempt → good fd env msg kind t))
  | .connect _ | .disconnect _ | .periodic _ _ => .isTrue trivial

theorem OnReport.accepted {good : Fd → Env → TaskDoneReq → TaskKind → Task → Prop} {w : World} {fd : Fd}
    {payload : Bytes} {env : Env} {msg : TaskDoneReq} {kind : TaskKind} {t : Task}
    (on : OnReport good w (.message fd payload env)) (accepted : Accepted w.master fd payload msg kind t) :
    good fd env msg kind t := by
  obtain ⟨u, found, holds⟩ := on msg accepted.decoded kind accepted.phase
  cases accepted.found.symm.trans found
  exact holds accepted.current

theorem OnReport.mono {good better : Fd → Env → TaskDoneReq → TaskKind → Task → Prop} {w : World} {c : Callback}
    (weaker : ∀ fd env msg kind t, good fd env msg kind t → better fd env msg kind t)
    (on : OnReport good w c) : OnReport better w c := by
  cases c with
  | message fd payload env =>
    intro msg decoded kind phase
    obtain ⟨t, found, holds⟩ := on msg decoded kind phase
    exact ⟨t, found, fun current => weaker _ _ _ _ _ (holds current)⟩
  | connect | disconnect | periodic => trivial

theorem SameCore.done {m m' : Master} (same : SameCore m m') (kind : TaskKind) (i : Nat) :
    m'.Done kind i ↔ m.Done kind i := by
  unfold Master.Done
  rw [same.task?]

theorem Master.done_setTask_completed {m : Master} {kind : TaskKind} {i : Nat} {old new : Task}
    (at_slot : m.task? kind i = some old) (now : new.state = .completed) (k : TaskKind) (j : Nat) :
    (m.setTask kind i new).Done k j ↔ m.Done k j ∨ (kind, i) = (k, j) := by
  by_cases same : (kind, i) = (k, j)
  · cases same
    simp only [or_true, iff_true]
    exact ⟨new, task?_setTask_self new at_slot, now⟩
  · unfold Done
    rw [task?_setTask_ne m new (Ne.symm same)]
    simp [same]

theorem Master.done_setTask_open {m : Master} {kind : TaskKind} {i : Nat} {old new : Task}
    (at_slot : m.task? kind i = some old) (was : old.state ≠ .completed) (now : new.state ≠ .completed)
    (k : TaskKind) (j : Nat) : (m.setTask kind i new).Done k j ↔ m.Done k j := by
  by_cases same : (k, j) = (kind, i)
  · cases same
    unfold Done
    rw [task?_setTask_self new at_slot, at_slot]
    simp [was, now]
  · unfold Done
    rw [task?_setTask_ne m new same]

theorem Task.ended_state_ne_completed (t : Task) (endStatus : AttemptEndStatus) (fd now : Int) :
    (t.ended endStatus fd now).state ≠ .completed := by
  unfold ended
  split <;> simp

theorem Master.done_complete {m : Master} {kind : TaskKind} {i : Nat} {t : Task} (fd : Fd)
    (found : m.task? kind i = some t) (k : TaskKind) (j : Nat) :
    (m.complete kind i t fd).Done k j ↔ m.Done k j ∨ (kind, i) = (k, j) := by
  rw [← done_setTask_completed found (rfl : (t.succeeded fd m.nowMs).state = .completed)]
  unfold Done
  rw [task?_complete]

theorem Master.done_release {m : Master} {kind : TaskKind} {i : Nat} {t : Task} (endStatus : AttemptEndStatus)
    (fd : Int) (found : m.task? kind i = some t) (was : t.state ≠ .completed) (k : TaskKind) (j : Nat) :
    (m.release kind i t endStatus fd).Done k j ↔ m.Done k j := by
  rw [← done_setTask_open found was (t.ended_state_ne_completed endStatus fd m.nowMs)]
  unfold Done
  rw [task?_release]

theorem Swept.done {kind : TaskKind} {m m' : Master} (swept : Swept kind m m') (k : TaskKind) (i : Nat) :
    m'.Done k i ↔ m.Done k i := by
  unfold Master.Done
  by_cases other : k = kind
  · subst other
    constructor
    · rintro ⟨t', after, completed⟩
      obtain ⟨t, before⟩ := m.task?_isSome (Master.lt_capacity after)
      rcases swept.task i t before with same | ⟨_, _, ended, _⟩
      · cases after.symm.trans same
        exact ⟨_, before, completed⟩
      · cases after.symm.trans ended
        exact absurd completed (t.ended_state_ne_completed _ _ _)
    · rintro ⟨t, before, completed⟩
      rcases swept.task i t before with same | ⟨running, _⟩
      · exact ⟨t, same, completed⟩
      · rw [running] at completed
        cases completed
  · rw [swept.other k i other]

theorem Effect.done {w : World} {c : Callback} {r : Reply} (effect : Effect w c r)
    (kept : OnReport (fun _ _ msg _ t => msg.result ≠ 0 → t.state ≠ .completed) w c) (kind : TaskKind) (i : Nat) :
    r.master.Done kind i ↔ w.master.Done kind i ∨ r.marked = some (kind, i) := by
  cases effect with
  | quiet core _ unmarked => simp [core.done, unmarked]
  | assigned _ _ _ found pending core _ unmarked =>
    rw [core.done, unmarked, Master.done_setTask_open found (by simp [pending]) (by simp [Task.assigned])]
    simp
  | completed accepted _ core _ marked _ =>
    rw [core.done, marked, Option.some.injEq, Master.done_complete _ accepted.found]
  | released accepted failure core _ unmarked =>
    rw [core.done, unmarked, Master.done_release _ _ accepted.found (kept.accepted accepted failure)]
    simp
  | @swept now realtime _ _ _ swept _ unmarked =>
    have ticked : (w.master.tick now realtime).Done kind i ↔ w.master.Done kind i := by
      cases kind <;> exact Iff.rfl
    rw [swept.done, ticked, unmarked]
    simp

/-! ## The invariant -/

structure Task.Sound (t : Task) : Prop where
  count : t.currentAttempt = t.attemptsCount
  cap : t.attemptsCount ≤ maxAttempts
  pending : t.state = .pending → t.attemptsCount < maxAttempts
  running : t.state = .inProgress → 1 ≤ t.attemptsCount

/-- The phase agrees with the counters, which never pass their totals. -/
def Job.PhaseOk (job : Job) : Prop :=
  match job.phase with
  | .map => job.mapsDone < job.M ∧ job.reducesDone < job.R
  | .reduce => job.mapsDone = job.M ∧ job.reducesDone < job.R
  | .done => job.mapsDone = job.M ∧ job.reducesDone = job.R
  | .failed => job.mapsDone ≤ job.M ∧ job.reducesDone ≤ job.R

/-- Holds after every defined sequence of callbacks, whatever the payloads. -/
structure Sound (job : JobDef) (m : Master) : Prop where
  total : ∀ kind, m.job.total kind = job.total kind
  phase : m.job.PhaseOk
  task : ∀ kind i t, m.task? kind i = some t → t.Sound
  idle : ∀ kind i t, job.total kind ≤ i → m.task? kind i = some t → t.attemptsCount = 0 ∧ t.state = .pending
  failed : ∀ kind i t, m.task? kind i = some t → t.state = .failed → m.job.phase = .failed
  path : ∀ i t, m.task? .map i = some t → t.inputPath.length = t.inputPathLen ∧ t.inputPathLen < mapreducePathMax
  opened : 0 ≤ m.aofFd

theorem Job.PhaseOk.doneCount_le {job : Job} (ok : job.PhaseOk) (kind : TaskKind) :
    job.doneCount kind ≤ job.total kind := by
  unfold PhaseOk at ok
  cases kind <;> simp only [Job.doneCount, Job.total] <;> split at ok <;> omega

theorem Job.PhaseOk.doneCount_lt {job : Job} (ok : job.PhaseOk) {kind : TaskKind}
    (phase : job.phase.kind? = some kind) : job.doneCount kind < job.total kind := by
  unfold PhaseOk at ok
  cases at_phase : job.phase <;> rw [at_phase] at phase ok <;> cases phase
  · exact ok.1
  · exact ok.2

theorem JobMove.phaseOk {job job' : Job} {marked : Option (TaskKind × Nat)} (move : JobMove job marked job')
    (fits : ∀ kind, job.total kind ≤ kind.capacity) (ok : job.PhaseOk) : job'.PhaseOk := by
  have maps := ok.doneCount_le .map
  have reduces := ok.doneCount_le .reduce
  cases move with
  | keep => exact ok
  | fail => exact ⟨maps, reduces⟩
  | @count kind _ phase =>
    obtain ⟨M, R, now, mapsDone, reducesDone, timeout⟩ := job
    have fewMaps : M ≤ 256 := fits .map
    have fewReduces : R ≤ 64 := fits .reduce
    cases now <;> cases phase <;>
      simp only [Job.PhaseOk, Job.advance, Job.countDone, true_and, false_and, reduceCtorEq, ↓reduceIte] at ok ⊢
    · rw [Nat.mod_eq_of_lt (show mapsDone + 1 < 2 ^ 32 by omega)]
      by_cases last : mapsDone + 1 = M
      · simp only [last, ↓reduceIte, show reducesDone ≠ R by omega]
        exact ⟨trivial, ok.2⟩
      · simp only [last, ↓reduceIte]
        omega
    · rw [Nat.mod_eq_of_lt (show reducesDone + 1 < 2 ^ 32 by omega)]
      by_cases last : reducesDone + 1 = R
      · simp only [last, ↓reduceIte]
        exact ⟨ok.1, trivial⟩
      · simp only [last, ↓reduceIte]
        omega

theorem Sound.doneCount_small {job : JobDef} {m : Master} (sound : Sound job m) (kind : TaskKind) :
    m.job.doneCount kind + 1 < 2 ^ 32 := by
  have bound := sound.phase.doneCount_le kind
  have cap := job.total_le kind
  rw [sound.total] at bound
  cases kind <;> simp only [TaskKind.capacity, maxMapTasks, maxReduceTasks] at cap <;> omega

theorem TaskMove.sound {w : World} {after : JobPhase} {kind : TaskKind} {i : Nat} {t t' : Task} {c : Callback}
    (move : TaskMove w after kind i t c t') (sound : t.Sound) : t'.Sound := by
  cases move with
  | keep => exact sound
  | assign _ _ _ pending =>
    have room := sound.pending pending
    exact ⟨congrArg (· + 1) sound.count, room, by simp [Task.assigned], fun _ => Nat.le_add_left 1 _⟩
  | succeed => exact ⟨sound.count, sound.cap, by simp [Task.succeeded], by simp [Task.succeeded]⟩
  | fail | timeout =>
    refine ⟨sound.count, sound.cap, ?_, fun running => absurd running (t.ended_state_ne _ _ _)⟩
    intro pending
    simpa [Task.ended] using pending

theorem TaskMove.path {w : World} {after : JobPhase} {kind : TaskKind} {i : Nat} {t t' : Task} {c : Callback}
    (move : TaskMove w after kind i t c t') : t'.inputPath = t.inputPath ∧ t'.inputPathLen = t.inputPathLen := by
  cases move <;> exact ⟨rfl, rfl⟩

theorem Effect.aofFd {w : World} {c : Callback} {r : Reply} (effect : Effect w c r) :
    r.master.aofFd = w.master.aofFd := by
  cases effect with
  | quiet core | assigned _ _ _ _ _ core | released _ _ core => simpa using core.aofFd
  | completed _ _ core =>
    rw [core.aofFd]
    unfold Master.complete maybeAdvancePhase
    simp only
    split <;> split <;> simp
  | swept _ swept => exact swept.aofFd

theorem JobMove.phase_failed {job job' : Job} {marked : Option (TaskKind × Nat)}
    (move : JobMove job marked job') (failed : job.phase = .failed) : job'.phase = .failed := by
  cases move with
  | keep => exact failed
  | fail => rfl
  | count phase => rw [failed] at phase; cases phase

theorem Task.ended_failed {t : Task} {endStatus : AttemptEndStatus} {fd now : Int}
    (failed : (t.ended endStatus fd now).state = .failed) : t.attemptsCount ≥ maxAttempts := by
  by_contra spare
  simp [ended, spare] at failed

theorem Effect.failed {w : World} {c : Callback} {r : Reply} (effect : Effect w c r) {job : JobDef}
    (sound : Sound job w.master) {kind : TaskKind} {i : Nat} {t' : Task}
    (found : r.master.task? kind i = some t') (failed : t'.state = .failed) : r.master.job.phase = .failed := by
  obtain ⟨t, before, move⟩ := effect.task_before found
  cases move with
  | keep => exact effect.job.phase_failed (sound.failed kind i t' before failed)
  | assign | succeed => cases failed
  | fail _ _ _ spent | timeout _ _ spent => exact spent (Task.ended_failed failed)

theorem Sound.core {job : JobDef} {m m' : Master} (sound : Sound job m) (core : SameCore m m') : Sound job m' where
  total kind := by rw [core.job, sound.total]
  phase := by
    rw [core.job]
    exact sound.phase
  task kind i t found := sound.task kind i t (core.task? kind i ▸ found)
  idle kind i t outside found := sound.idle kind i t outside (core.task? kind i ▸ found)
  failed kind i t found failed := by
    rw [core.job]
    exact sound.failed kind i t (core.task? kind i ▸ found) failed
  path i t found := sound.path i t (core.task? .map i ▸ found)
  opened := core.aofFd ▸ sound.opened

theorem Effect.sound {w : World} {c : Callback} {r : Reply} (effect : Effect w c r) {job : JobDef}
    (sound : Sound job w.master) : Sound job r.master where
  total kind := (effect.job.total kind).trans (sound.total kind)
  phase := effect.job.phaseOk (fun kind => sound.total kind ▸ job.total_le kind) sound.phase
  task kind i t' found := by
    obtain ⟨t, before, move⟩ := effect.task_before found
    exact move.sound (sound.task kind i t before)
  idle kind i t' outside found := by
    obtain ⟨t, before, move⟩ := effect.task_before found
    obtain ⟨never, pending⟩ := sound.idle kind i t outside before
    cases move with
    | keep => exact ⟨never, pending⟩
    -- Every other move needs an id in range or an attempt.
    | assign _ _ below => rw [sound.total] at below; omega
    | succeed accepted | fail accepted => have := accepted.attempted; omega
    | timeout running => rw [pending] at running; cases running
  failed kind i t' found failed := effect.failed sound found failed
  path i t' found := by
    obtain ⟨t, before, move⟩ := effect.task_before found
    rw [move.path.1, move.path.2]
    exact sound.path i t before
  opened := effect.aofFd ▸ sound.opened

theorem World.start_task? (config : MasterConfig) (job : JobDef) (fd : Nat) (createdMs : UInt64)
    (now realtime : Int) (kind : TaskKind) (i : Nat) :
    (World.start config job fd createdMs now realtime).master.task? kind i =
      (Master.fresh config job).task? kind i := by
  cases kind <;> rfl

theorem World.start_sound (config : MasterConfig) (job : JobDef) (fd : Nat) (createdMs : UInt64)
    (now realtime : Int) : Sound job (World.start config job fd createdMs now realtime).master where
  total kind := by cases kind <;> rfl
  phase := ⟨job.maps_pos, job.reduces_pos⟩
  task kind i t found := by
    rw [World.start_task?] at found
    obtain ⟨pending, current, count, _⟩ := Master.fresh_slot found
    refine ⟨current.trans count.symm, by rw [count]; exact Nat.zero_le _, ?_, ?_⟩
    · intro _
      rw [count]
      decide
    · intro running
      rw [pending] at running
      cases running
  idle kind i t _ found := by
    rw [World.start_task?] at found
    obtain ⟨pending, _, count, _⟩ := Master.fresh_slot found
    exact ⟨count, pending⟩
  failed kind i t found failed := by
    rw [World.start_task?] at found
    rw [(Master.fresh_slot found).1] at failed
    cases failed
  path i t found := by
    rw [World.start_task?] at found
    obtain ⟨_, _, _, whole, short, _⟩ := Master.fresh_slot found
    exact ⟨whole, short⟩
  opened := Int.natCast_nonneg fd

/-! ## Defined callbacks -/

theorem sweepFrom_defined {kind : TaskKind} {indices : List Nat} {m : Master}
    (inside : ∀ i ∈ indices, i < kind.capacity)
    (ready : ∀ i ∈ indices, ∀ t, m.task? kind i = some t → t.state = .inProgress →
      1 ≤ t.attemptsCount ∧ t.attemptsCount ≤ maxAttempts) :
    ∃ m', sweepFrom kind indices m = some m' := by
  induction indices generalizing m with
  | nil => exact ⟨m, rfl⟩
  | cons i rest ih =>
    have later : ∀ j ∈ rest, j < kind.capacity := fun j member => inside j (List.mem_cons_of_mem _ member)
    obtain ⟨t, found⟩ := m.task?_isSome (inside i List.mem_cons_self)
    simp only [sweepFrom, found, Option.bind_eq_bind, Option.bind_some]
    split
    · exact ih later fun j member => ready j (List.mem_cons_of_mem _ member)
    next due =>
      have running : t.state = .inProgress := by
        by_contra idle
        exact due (.inl idle)
      obtain ⟨first, last⟩ := ready i List.mem_cons_self t found running
      obtain ⟨alive, ended⟩ := taskAttemptEnded_defined .timeout t.ownerFd found first last
      rw [ended, Option.bind_some]
      cases alive with
      | false => exact ⟨_, rfl⟩
      | true =>
        -- The swept task is no longer in progress, the others are as they were.
        apply ih later
        intro j member u read busy
        rw [Master.task?_release] at read
        by_cases same : j = i
        · subst same
          rw [Master.task?_setTask_self _ found] at read
          cases read
          exact absurd busy (t.ended_state_ne _ _ _)
        · rw [Master.task?_setTask_ne _ _ (by simp [same])] at read
          exact ready j (List.mem_cons_of_mem _ member) u read busy

section Defined
variable {job : JobDef} {w : World} (sound : Sound job w.master)

include sound in
theorem masterPeriodic_defined (now realtime : Int) : ∃ m, masterPeriodic w.master now realtime = some m := by
  unfold masterPeriodic
  simp only
  split
  · exact ⟨_, rfl⟩
  · split
    next kind _ =>
      apply sweepFrom_defined
      · intro i member
        have total : (w.master.tick now realtime).job.total kind = job.total kind := sound.total kind
        rw [total] at member
        exact Nat.lt_of_lt_of_le (List.mem_range.mp member) (job.total_le kind)
      · intro i _ t found running
        have task := sound.task kind i t (by cases kind <;> exact found)
        exact ⟨task.running running, task.cap⟩
    · exact ⟨_, rfl⟩

include sound in
theorem masterHandleGetTask_defined (fd : Fd) (env : Env) : ∃ r, masterHandleGetTask w fd env = some r := by
  unfold masterHandleGetTask
  split
  · exact ⟨_, rfl⟩
  next kind phase =>
    cases first : w.master.firstPending kind with
    | none =>
      -- The assertion of the wait branch: the phase would have advanced with the last task.
      have wait := sound.phase.doneCount_lt phase
      simp [chooseAvailableTask, first, waitForAvailableTasks, wait]
    | some i =>
      obtain ⟨_, t, found, pending⟩ := Master.firstPending_some first
      have room := (sound.task kind i t found).pending pending
      simp only [chooseAvailableTask, first, found, Option.bind_eq_bind, Option.bind_some]
      rw [Task.putRow_inside]
      · simp only [Option.bind_some, Master.task?_setWorker, Master.task?_setTask_self _ found]
        exact ⟨_, rfl⟩
      · exact Nat.le_add_left 1 _
      · exact room

include sound in
theorem taskDoneHelper_defined {fd : Fd} (env : Env) {msg : TaskDoneReq} {kind : TaskKind} {t : Task}
    (phase : w.master.job.phase.kind? = some kind)
    (found : w.master.task? kind (w.master.workers fd).currentTaskId = some t)
    (attempted : msg.attemptId.toNat = t.currentAttempt → 1 ≤ t.attemptsCount) :
    ∃ r, taskDoneHelper w fd env msg = some r := by
  have cap := (sound.task _ _ t found).cap
  simp only [taskDoneHelper, phase, found, Option.bind_eq_bind, Option.bind_some,
    show rpcEncodeTaskDoneAck msgMax = some [RpcKind.taskDoneAck.code] from rfl]
  split
  · exact ⟨_, rfl⟩
  next current =>
    have first := attempted (not_not.mp current)
    unfold applyReport
    simp only
    split
    · have row := Task.putRow_inside (t := { t with ownerFd := -1, state := .completed })
        ⟨t.currentAttempt, fd.val, 0, w.master.nowMs, .success⟩ first cap
      simp [recordSuccess, row]
    · obtain ⟨alive, ended⟩ := taskAttemptEnded_defined .failed fd.val found first cap
      simp [ended]

include sound in
/-- The only callbacks without defined behaviour are reports for a slot outside the table, and
reports accepted for a task that was never handed out. -/
theorem callback_defined {c : Callback} (attempted : OnReport (fun _ _ _ _ t => 1 ≤ t.attemptsCount) w c) :
    ∃ r, callback w c = some r := by
  cases c with
  | connect | disconnect => exact ⟨_, rfl⟩
  | periodic now realtime =>
    obtain ⟨m, ticked⟩ := masterPeriodic_defined sound now realtime
    exact ⟨_, by simp only [callback, ticked, Option.map_some]; rfl⟩
  | message fd payload env =>
    simp only [callback, masterOnMessage]
    split
    · exact masterHandleGetTask_defined sound fd env
    next peeked =>
      split
      · exact ⟨_, rfl⟩
      next msg decoded =>
        have report : reportOf payload = some msg := by rw [reportOf, if_pos peeked, decoded]
        unfold masterHandleTaskDone
        cases phase : w.master.job.phase with
        | map | reduce =>
          have kind := congrArg JobPhase.kind? phase
          obtain ⟨t, found, holds⟩ := attempted msg report _ kind
          exact taskDoneHelper_defined sound env kind found holds
        | done | failed => exact ⟨_, rfl⟩
    · exact ⟨_, rfl⟩

include sound in
theorem next_sound {c : Callback} {w' : World} (taken : w.next c = some w') : Sound job w'.master := by
  obtain ⟨r, returned, rfl⟩ := Option.map_eq_some_iff.mp taken
  exact (callback_effect returned).sound sound

end Defined

end MapReduce
