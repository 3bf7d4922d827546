import MapReduce.Scheduling
import MapReduce.Slots

/-! Runs without ticks, which are the runs of the loop as it stands.

No sweep takes a task away from its worker, so every token is the current
attempt of a task in progress, and every report is looked up in its own table.
The other side is that a task whose worker is gone stays in progress for good:
the job can still be finished exactly if there is no such task.
-/

set_option autoImplicit false

namespace MapReduce

def Action.Untimed : Action → Prop
  | .periodic _ _ => False
  | _ => True

def Incident.Untimed : Incident → Prop
  | .action step => step.Untimed
  | .crash _ _ _ => True

instance : (action : Action) → Decidable action.Untimed
  | .periodic _ _ => .isFalse id
  | .connect _ | .ask _ | .deliver _ _ | .receive _ | .finish _ _ | .confirm _ | .disconnect _ => .isTrue trivial

instance : (incident : Incident) → Decidable incident.Untimed
  | .action action => inferInstanceAs (Decidable action.Untimed)
  | .crash _ _ _ => .isTrue trivial

/-! ## Tokens stay current -/

/-- Every token is the current attempt of a task in progress. -/
def Cluster.TokensCurrent (c : Cluster) : Prop :=
  ∀ fd kind i attempt, (c.conns fd).token = some (kind, i, attempt) →
    ∃ t, c.world.master.task? kind i = some t ∧ t.state = .inProgress ∧ t.currentAttempt = attempt

section Current
variable {createdMs : UInt64} {job : JobDef} {completions : List Completion} {c c' : Cluster}
  (inv : Inv createdMs job completions c) {action : Action}

include inv in
theorem Inv.own_kind_current (current : c.TokensCurrent) (action : Action) : AcceptsOwnKind c action := by
  cases action with
  | deliver fd env =>
    intro payload outgoing
    rcases Conn.outgoing_some outgoing with ⟨_, rfl⟩ | ⟨kind, msg, conn, rfl⟩
    · intro msg decoded
      cases decoded
    · intro msg' _ k phase
      have flight := inv.inFlight conn
      obtain ⟨t, found, running, _⟩ := current fd _ _ _ flight.token
      cases inv.token_phase found running flight.token phase
      exact ⟨t, flight.ok.slotTask ▸ found, fun _ => flight.ok.slotKind⟩
  | connect | ask | receive | finish | confirm | disconnect | periodic => trivial

include inv in
theorem Inv.running_next (current : c.TokensCurrent) (untimed : action.Untimed) (taken : c.next action = some c')
    {kind : TaskKind} {i : Nat} {t : Task} (found : c.world.master.task? kind i = some t)
    (running : t.state = .inProgress) :
    c'.world.master.task? kind i = some t ∨
      ∃ fd msg, c.conns fd = .reported kind msg ∧ msg.taskId.toNat = i ∧ msg.attemptId.toNat = t.currentAttempt ∧
        (c'.conns fd).token = none ∧
        ((msg.result = 0 ∧ ∃ now, c'.world.master.task? kind i = some (t.succeeded fd now)) ∨
          (msg.result ≠ 0 ∧ (t.attemptsCount ≥ maxAttempts → c'.world.master.job.phase = .failed) ∧
            ∃ now, c'.world.master.task? kind i = some (t.ended .failed fd.val now))) := by
  have own := inv.own_kind_current current action
  cases Cluster.next_step taken with
  | reset slot => exact .inl (((sameCore_setWorker c.world.master _ slot).task? kind i).trans found)
  | moved => exact .inl found
  | ticked => exact absurd untimed id
  | @delivered fd env payload r outgoing returned =>
    have core := c.delivered_core fd env r
    obtain ⟨t', after, move⟩ := (callback_effect returned).task found
    rw [core.task?, core.job]
    rcases Conn.outgoing_some outgoing with ⟨conn, rfl⟩ | ⟨k, msg, conn, rfl⟩
    · cases move with
      | keep => exact .inl after
      | assign _ _ _ pending =>
        rw [running] at pending
        cases pending
      | succeed accepted | fail accepted => cases accepted.decoded
    · have flight := inv.inFlight conn
      have spent : ((c.delivered fd env r).conns fd).token = none := by
        rcases c.delivered_conns fd env r with ⟨_, _, _, _, conns⟩ | conns
        · rw [conns, Function.update_self, conn]
          rfl
        · rw [conns, Function.update_self]
          rfl
      cases move with
      | keep => exact .inl after
      | assign _ _ _ pending =>
        rw [running] at pending
        cases pending
      | succeed accepted at_slot success =>
        obtain ⟨rfl, rfl, task, attempt, _⟩ := flight.accepted ((own _ outgoing).accepted accepted) accepted
        exact .inr ⟨fd, _, conn, task ▸ at_slot.symm, attempt, spent, .inl ⟨success, _, after⟩⟩
      | fail accepted at_slot failure last =>
        obtain ⟨rfl, rfl, task, attempt, _⟩ := flight.accepted ((own _ outgoing).accepted accepted) accepted
        exact .inr ⟨fd, _, conn, task ▸ at_slot.symm, attempt, spent, .inr ⟨failure, last, _, after⟩⟩

include inv in
theorem Inv.tokensCurrent_next (current : c.TokensCurrent) (untimed : action.Untimed)
    (taken : c.next action = some c') : c'.TokensCurrent := by
  intro other kind i attempt held
  rcases inv.token_source taken held with ⟨before, _⟩ | ⟨t, found, attempts, master⟩
  · obtain ⟨t, found, running, same⟩ := current other kind i attempt before
    rcases inv.running_next current untimed taken found running with kept | ⟨fd, msg, conn, task, report, spent, _⟩
    · exact ⟨t, kept, running, same⟩
    · -- The report belongs to this token, which nobody else holds.
      have token : (c.conns fd).token = some (kind, i, attempt) := by
        rw [conn, ← task, ← same, ← report]
        rfl
      cases inv.tokens.unique other fd _ before token
      rw [spent] at held
      cases held
  · rw [master, Master.handOut_task other found]
    exact ⟨_, rfl, rfl, attempts.symm⟩

end Current

structure Tenured (createdMs : UInt64) (job : JobDef) (c : Cluster) : Prop where
  inv : ∃ completions, Inv createdMs job completions c
  current : c.TokensCurrent

theorem tenured_start (config : MasterConfig) (job : JobDef) (fd : Nat) (createdMs : UInt64) (now realtime : Int) :
    Tenured createdMs job (Cluster.start config job fd createdMs now realtime) where
  inv := ⟨[], inv_start config job fd createdMs now realtime⟩
  current _ _ _ _ held := by cases held

theorem Tenured.own_kind {createdMs : UInt64} {job : JobDef} {c : Cluster} (tenured : Tenured createdMs job c)
    (action : Action) : AcceptsOwnKind c action := by
  obtain ⟨_, inv⟩ := tenured.inv
  exact inv.own_kind_current tenured.current action

theorem Tenured.next {createdMs : UInt64} {job : JobDef} {c c' : Cluster} {action : Action}
    (tenured : Tenured createdMs job c) (untimed : action.Untimed) (taken : c.next action = some c') :
    Tenured createdMs job c' := by
  obtain ⟨completions, inv⟩ := tenured.inv
  exact ⟨inv.next (tenured.own_kind action) taken, inv.tokensCurrent_next tenured.current untimed taken⟩

theorem Tenured.holder {createdMs : UInt64} {job : JobDef} {c : Cluster} {fd : Fd}
    (tenured : Tenured createdMs job c) (alive : c.world.master.job.phase ≠ .failed) {kind : TaskKind}
    {i attempt : Nat} (held : (c.conns fd).token = some (kind, i, attempt)) :
    ∃ t, c.world.master.task? kind i = some t ∧ t.state = .inProgress ∧ t.currentAttempt = attempt ∧
      c.world.master.job.phase.kind? = some kind := by
  obtain ⟨_, inv⟩ := tenured.inv
  obtain ⟨t, found, running, current⟩ := tenured.current fd kind i attempt held
  refine ⟨t, found, running, current, ?_⟩
  have phase := fun k => inv.token_phase found running held (k := k)
  cases now : c.world.master.job.phase with
  | map => exact congrArg some (phase .map (by rw [now]; rfl))
  | reduce => exact congrArg some (phase .reduce (by rw [now]; rfl))
  | done => exact absurd now (inv.running_open found running)
  | failed => exact absurd now alive

theorem Tenured.survive {createdMs : UInt64} {job : JobDef} {c c' : Cluster} {incident : Incident}
    (tenured : Tenured createdMs job c) (stored : StoredWhole c) (untimed : incident.Untimed)
    (written : incident.LogWritten) (taken : c.survive incident = some c') :
    Tenured createdMs job c' ∧ StoredWhole c' := by
  cases incident with
  | action action => exact ⟨tenured.next untimed taken, stored.next written taken⟩
  | crash aofFd now realtime =>
    obtain ⟨completions, inv⟩ := tenured.inv
    refine ⟨⟨⟨completions, inv.crash stored taken⟩, ?_⟩, ?_⟩
    · obtain ⟨w, _, rfl⟩ := Option.map_eq_some_iff.mp taken
      intro fd kind i attempt held
      cases held
    · obtain ⟨w, _, rfl⟩ := Option.map_eq_some_iff.mp taken
      exact stored

theorem tenured_reached (config : MasterConfig) (job : JobDef) (fd : Nat) (createdMs : UInt64) (now realtime : Int)
    {incidents : List Incident} {c : Cluster} (usual : ∀ incident ∈ incidents, incident.Untimed ∧ incident.LogWritten)
    (reached : Runs.run Cluster.survive (Cluster.start config job fd createdMs now realtime) incidents = some c) :
    Tenured createdMs job c := by
  have keep : ∀ (c : Cluster) (incident : Incident) (c' : Cluster), Tenured createdMs job c ∧ StoredWhole c →
      incident.Untimed ∧ incident.LogWritten → c.survive incident = some c' →
      Tenured createdMs job c' ∧ StoredWhole c' :=
    fun c incident c' holds fits taken => holds.1.survive holds.2 fits.1 fits.2 taken
  exact (Runs.along_invariant keep ⟨tenured_start config job fd createdMs now realtime, by
    simp [StoredWhole, Cluster.start]⟩ (Runs.along_events usual _) reached).1

/-- Without ticks no report comes too late: as long as the job has not failed, it is accepted for the attempt it
was made for, while the task is still in progress. -/
theorem reports_never_stale (config : MasterConfig) (job : JobDef) (fd : Nat) (createdMs : UInt64) (now realtime : Int)
    {incidents : List Incident} {c : Cluster} (usual : ∀ incident ∈ incidents, incident.Untimed ∧ incident.LogWritten)
    (reached : Runs.run Cluster.survive (Cluster.start config job fd createdMs now realtime) incidents = some c)
    {sender : Fd} {kind : TaskKind} {msg : TaskDoneReq} (conn : c.conns sender = .reported kind msg)
    (alive : c.world.master.job.phase ≠ .failed) :
    ∃ t, c.world.master.task? kind msg.taskId.toNat = some t ∧ t.state = .inProgress ∧
      (c.world.master.workers sender).currentTaskId = msg.taskId.toNat ∧
      Accepted c.world.master sender (RpcKind.taskDoneReq.code :: msg.body) msg kind t := by
  have tenured := tenured_reached config job fd createdMs now realtime usual reached
  obtain ⟨_, inv⟩ := tenured.inv
  have flight := inv.inFlight conn
  obtain ⟨t, found, running, current, phase⟩ := tenured.holder alive flight.token
  have slot : c.world.master.task? kind (c.world.master.workers sender).currentTaskId = some t := by
    rw [flight.ok.slotTask, found]
  exact ⟨t, found, running, flight.ok.slotTask, reportOf_encoded msg, phase, slot, current.symm,
    (inv.books.recorded.sound.task _ _ t slot).running running⟩

def reportRun : List Incident :=
  [.connect workerA, .ask workerA, .deliver workerA .good].map .action ++ .crash 3 5000 0 ::
    (.connect workerB :: (work workerB).take 4).map .action

theorem reports_never_stale_restart :
    ∃ c t, Runs.run Cluster.survive sampleCluster reportRun = some c ∧ c.conns workerB = .reported .map ⟨0, 1, 0⟩ ∧
      c.world.master.task? .map 0 = some t ∧
      Accepted c.world.master workerB (RpcKind.taskDoneReq.code :: (TaskDoneReq.mk 0 1 0).body) ⟨0, 1, 0⟩ .map t := by
  have ran : (Runs.run Cluster.survive sampleCluster reportRun).any (fun c =>
      c.conns workerB == .reported .map ⟨0, 1, 0⟩ && c.world.master.job.phase != .failed) = true := by
    decide +kernel
  obtain ⟨c, reached, holds⟩ := (Option.any_eq_true _ _).mp ran
  obtain ⟨conn, alive⟩ := (Bool.and_eq_true _ _).mp holds
  obtain ⟨t, found, _, _, accepted⟩ := reports_never_stale sampleConfig sampleJob 3 0 0 0 (by decide) reached
    (beq_iff_eq.mp conn) (bne_iff_ne.mp alive)
  exact ⟨c, t, reached, beq_iff_eq.mp conn, found, accepted⟩

/-! ## Hopeless tasks -/

/-- The task is in progress and no worker will complete it: nobody holds its token, or the holder has already
reported that the last attempt failed. -/
def Cluster.Hopeless (c : Cluster) (kind : TaskKind) (i : Nat) : Prop :=
  ∃ t, c.world.master.task? kind i = some t ∧ t.state = .inProgress ∧
    ∀ fd attempt, (c.conns fd).token = some (kind, i, attempt) →
      ∃ msg, c.conns fd = .reported kind msg ∧ msg.result ≠ 0 ∧ t.attemptsCount ≥ maxAttempts

theorem Cluster.reported_next {c c' : Cluster} {action : Action} (taken : c.next action = some c') {fd : Fd}
    {kind : TaskKind} {msg : TaskDoneReq} (conn : c.conns fd = .reported kind msg) :
    c'.conns fd = .reported kind msg ∨ (c'.conns fd).token = none := by
  have elsewhere : ∀ (d : Cluster) (other : Fd) (new : Conn), d.conns = c.conns → fd ≠ other →
      (d.setConn other new).conns fd = .reported kind msg := by
    intro d other new same differs
    rw [d.setConn_ne new differs, same, conn]
  cases action with
  | connect other | ask other =>
    simp only [next] at taken
    split at taken <;> cases taken
    next here =>
      refine .inl (elsewhere _ other _ rfl ?_)
      rintro rfl
      cases conn.symm.trans here
  | receive other | finish other | confirm other =>
    simp only [next] at taken
    split at taken <;> cases taken
    next here =>
      refine .inl (elsewhere _ other _ rfl ?_)
      rintro rfl
      cases conn.symm.trans here
  | disconnect other =>
    simp only [next] at taken
    split at taken <;> cases taken
    by_cases same : fd = other
    · subst same
      rw [setConn_self]
      exact .inr rfl
    · exact .inl (elsewhere _ other _ rfl same)
  | deliver other env =>
    simp only [next, Option.bind_eq_bind, Option.bind_eq_some_iff] at taken
    obtain ⟨_, _, r, _, same⟩ := taken
    cases same
    by_cases same : fd = other
    · subst same
      rcases c.delivered_conns fd env r with ⟨_, _, _, _, conns⟩ | conns
      · rw [conns, Function.update_self, conn]
        exact .inr rfl
      · rw [conns, Function.update_self]
        exact .inr rfl
    · rcases c.delivered_conns other env r with ⟨_, _, _, _, conns⟩ | conns
      · rw [conns, Function.update_of_ne same, conn]
        exact .inl rfl
      · rw [conns, Function.update_of_ne same, conn]
        exact .inl rfl
  | periodic now realtime =>
    simp only [next] at taken
    split at taken
    · obtain ⟨r, _, rfl⟩ := Option.map_eq_some_iff.mp taken
      exact .inl conn
    · cases taken

theorem Cluster.failed_next {c c' : Cluster} {action : Action} (taken : c.next action = some c')
    (failed : c.world.master.job.phase = .failed) : c'.world.master.job.phase = .failed := by
  cases next_step taken with
  | reset | moved => exact failed
  | delivered _ returned =>
    rw [(c.delivered_core _ _ _).job]
    exact (callback_effect returned).job.phase_failed failed
  | ticked returned => exact (callback_effect returned).job.phase_failed failed

theorem Tenured.hopeless_next {createdMs : UInt64} {job : JobDef} {c c' : Cluster} {action : Action}
    (tenured : Tenured createdMs job c) (untimed : action.Untimed) (taken : c.next action = some c')
    {kind : TaskKind} {i : Nat} (hopeless : c.Hopeless kind i) :
    c'.Hopeless kind i ∨ c'.world.master.job.phase = .failed := by
  obtain ⟨_, inv⟩ := tenured.inv
  obtain ⟨t, found, running, holders⟩ := hopeless
  rcases inv.running_next tenured.current untimed taken found running with
    kept | ⟨fd, msg, conn, task, attempt, _, ended⟩
  · refine .inl ⟨t, kept, running, fun fd attempt held => ?_⟩
    rcases inv.token_source taken held with ⟨before, _⟩ | ⟨u, read, _, master⟩
    · obtain ⟨msg, conn, failure, last⟩ := holders fd attempt before
      rcases Cluster.reported_next taken conn with still | gone
      · exact ⟨msg, still, failure, last⟩
      · rw [gone] at held
        cases held
    · -- The task would have been pending.
      rw [master, Master.handOut_task fd read] at kept
      cases found.symm.trans read
      have attempts := congrArg Task.currentAttempt (Option.some.inj kept)
      simp [Task.assigned] at attempts
  · have token : (c.conns fd).token = some (kind, i, t.currentAttempt) := by
      rw [conn, ← task, ← attempt]
      rfl
    obtain ⟨msg', conn', failure, last⟩ := holders fd _ token
    cases conn.symm.trans conn'
    rcases ended with ⟨success, _⟩ | ⟨_, fails, _⟩
    · exact absurd success failure
    · exact .inr (fails last)

end MapReduce
