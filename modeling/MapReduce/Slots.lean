import MapReduce.Safety
import MapReduce.Sweeps

/-! Worker slots and the tasks they name.

Tasks and slots are updated by different functions. `task_attempt_ended` leaves
`has_task` to its callers, and the sweep does not clear it, so a slot goes on
naming a task that has timed out. Where that does not happen, every slot in use
names a running task of its own.
-/

set_option autoImplicit false

namespace MapReduce

/-! ## Slots that own their tasks -/

/-- The task named by a slot in use is running, for this connection and with the slot's attempt. -/
def Master.SlotOwns (m : Master) (fd : Fd) : Prop :=
  (m.workers fd).hasTask = true → ∃ kind t, (m.workers fd).currentKind = some kind ∧
    m.task? kind (m.workers fd).currentTaskId = some t ∧ t.state = .inProgress ∧ t.ownerFd = fd.val ∧
    t.currentAttempt = (m.workers fd).currentAttemptId

def Master.SlotsOwn (m : Master) : Prop := ∀ fd, m.SlotOwns fd

section Slots
variable {m m' : Master} {fd : Fd}

theorem Master.SlotOwns.keep (owns : m.SlotOwns fd) (slot : m'.workers fd = m.workers fd)
    (tasks : ∀ kind i t, m.task? kind i = some t → t.state = .inProgress → t.ownerFd = fd.val →
      m'.task? kind i = some t) : m'.SlotOwns fd := by
  intro busy
  rw [slot] at busy ⊢
  obtain ⟨kind, t, named, found, running, owner, attempt⟩ := owns busy
  exact ⟨kind, t, named, tasks kind _ t found running owner, running, owner, attempt⟩

theorem Master.slotOwns_free (m : Master) (fd : Fd) {slot : Worker} (free : slot.hasTask = false) :
    (m.setWorker fd slot).SlotOwns fd := by
  intro busy
  rw [show (m.setWorker fd slot).workers fd = slot from Function.update_self _ _ _, free] at busy
  cases busy

theorem Master.SlotsOwn.free (own : m.SlotsOwn) (fd : Fd) {slot : Worker} (free : slot.hasTask = false) :
    (m.setWorker fd slot).SlotsOwn := by
  intro other
  by_cases same : other = fd
  · subst same
    exact m.slotOwns_free other free
  · exact (own other).keep (m.setWorker_ne slot same) fun kind i t found _ _ => by rw [task?_setWorker, found]

theorem Master.SlotsOwn.handOut (own : m.SlotsOwn) {kind : TaskKind} {i : Nat} {t : Task}
    (found : m.task? kind i = some t) (pending : t.state = .pending) (fd : Fd) :
    (m.handOut kind i t fd).SlotsOwn := by
  intro other
  by_cases same : other = fd
  · subst same
    intro _
    refine ⟨kind, t.assigned other m.nowMs, ?_, ?_, rfl, rfl, ?_⟩
    · simp [Master.handOut, Master.setWorker]
    · rw [show ((m.handOut kind i t other).workers other).currentTaskId = i by
        simp [Master.handOut, Master.setWorker]]
      exact Master.handOut_task other found
    · simp [Master.handOut, Master.setWorker, Task.assigned]
  · refine (own other).keep ((Master.setWorker_ne _ _ same).trans (by simp)) fun k j u read running _ => ?_
    rw [Master.handOut, task?_setWorker, task?_setTask_ne, read]
    rintro ⟨⟩
    cases found.symm.trans read
    rw [pending] at running
    cases running

theorem Master.SlotsOwn.spend (own : m.SlotsOwn) {kind : TaskKind} {i : Nat} {t : Task}
    (found : m.task? kind i = some t) (owner : t.ownerFd = fd.val) (workers : m'.workers = m.workers)
    (others : ∀ k j, (k, j) ≠ (kind, i) → m'.task? k j = m.task? k j) {slot : Worker}
    (free : slot.hasTask = false) : (m'.setWorker fd slot).SlotsOwn := by
  intro other
  by_cases same : other = fd
  · subst same
    exact m'.slotOwns_free other free
  · have slots : (m'.setWorker fd slot).workers other = m.workers other := by
      rw [m'.setWorker_ne slot same, workers]
    refine (own other).keep slots fun k j u read _ mine => ?_
    rw [task?_setWorker, others, read]
    rintro ⟨⟩
    cases found.symm.trans read
    exact same (Fin.ext (Int.ofNat.inj (mine.symm.trans owner)))

end Slots

theorem respond_master (w : World) (fd : Fd) (outcome : SendOutcome) (buf : Option Bytes) :
    (respond w fd outcome buf).master = w.master ∨
      (respond w fd outcome buf).master = w.master.setWorker fd .zero := by
  cases buf with
  | none => exact .inl rfl
  | some _ =>
    cases outcome
    · exact .inl rfl
    · exact .inl rfl
    · exact .inr rfl

theorem respond_slotsOwn {w : World} (own : w.master.SlotsOwn) (fd : Fd) (outcome : SendOutcome)
    (buf : Option Bytes) : (respond w fd outcome buf).master.SlotsOwn := by
  rcases respond_master w fd outcome buf with same | cleared
  · rw [same]
    exact own
  · rw [cleared]
    exact own.free fd rfl

theorem sendAck_frees (w : World) (fd : Fd) {outcome : SendOutcome} (room : outcome ≠ .full) (buf : Bytes)
    (marked : Option (TaskKind × Nat)) : ∃ slot : Worker, slot.hasTask = false ∧
      (sendAck w fd outcome buf true marked).master = w.master.setWorker fd slot := by
  cases outcome with
  | queued => exact ⟨{ w.master.workers fd with hasTask := false }, rfl, rfl⟩
  | full => exact absurd rfl room
  | hardError => exact ⟨.zero, rfl, rfl⟩

/-! ## Ticks -/

/-- This tick sweeps the tasks of the kind and ends task `i`. -/
def Master.TickEnds (m : Master) (now realtime : Int) (kind : TaskKind) (i : Nat) : Prop :=
  (m.cronloops + 1) % 10 = 0 ∧ m.job.phase.kind? = some kind ∧
    (m.tick now realtime).TimedOut kind 0 (m.job.total kind) i

theorem Master.tick_task? (m : Master) (now realtime : Int) (kind : TaskKind) (i : Nat) :
    (m.tick now realtime).task? kind i = m.task? kind i := by
  cases kind <;> rfl

theorem masterPeriodic_exact {m m' : Master} {now realtime : Int} (ticked : masterPeriodic m now realtime = some m')
    (kind : TaskKind) (i : Nat) :
    (m.TickEnds now realtime kind i → ∃ t, m'.task? kind i = some t ∧ t.state ≠ .inProgress) ∧
      (¬ m.TickEnds now realtime kind i → m'.task? kind i = m.task? kind i) := by
  unfold masterPeriodic at ticked
  simp only at ticked
  split at ticked
  next other =>
    cases ticked
    exact ⟨fun ends => absurd ends.1 other, fun _ => m.tick_task? now realtime kind i⟩
  next tenth =>
    split at ticked
    next swept_kind phase =>
      have task := (sweepFrom_swept ticked).other kind i
      rw [sweepTimeouts, List.range_eq_range'] at ticked
      by_cases same : kind = swept_kind
      · subst same
        obtain ⟨ended, kept⟩ := @sweepFrom_exact _ _ _ _ _ i ticked
        rw [m.tick_task?] at kept
        exact ⟨fun ends => ended ends.2.2, fun spared => kept fun ends => spared ⟨not_not.mp tenth, phase, ends⟩⟩
      · refine ⟨fun ends => absurd (Option.some.inj (ends.2.1.symm.trans phase)) same, fun _ => ?_⟩
        rw [task same, m.tick_task?]
    next ended =>
      cases ticked
      refine ⟨fun ends => absurd (ends.2.1.symm.trans ended) (by simp), fun _ => m.tick_task? now realtime kind i⟩

theorem Master.SlotsOwn.periodic {m m' : Master} (own : m.SlotsOwn) {now realtime : Int}
    (ticked : masterPeriodic m now realtime = some m') :
    m'.SlotsOwn ↔ ∀ fd, (m.workers fd).hasTask = true → ∀ kind, (m.workers fd).currentKind = some kind →
      ¬ m.TickEnds now realtime kind (m.workers fd).currentTaskId := by
  have workers := masterPeriodic_workers ticked
  constructor
  · intro own' fd busy kind named ends
    obtain ⟨t', after, idle⟩ := (masterPeriodic_exact ticked kind _).1 ends
    obtain ⟨kind', t, named', found, running, _⟩ := own' fd (by rw [workers]; exact busy)
    rw [workers] at named' found
    cases named.symm.trans named'
    cases after.symm.trans found
    exact idle running
  · intro spared fd busy
    rw [workers] at busy ⊢
    obtain ⟨kind, t, named, found, rest⟩ := own fd busy
    exact ⟨kind, t, named, ((masterPeriodic_exact ticked kind _).2 (spared fd busy kind named)).trans found, rest⟩

/-! ## Slots and tokens -/

/-- The books are in order, every slot owns its task, and the slot of a connection with a token is in use for
the token's attempt. -/
structure Owning (createdMs : UInt64) (job : JobDef) (c : Cluster) : Prop where
  inv : ∃ completions, Inv createdMs job completions c
  slots : c.world.master.SlotsOwn
  tokens : ∀ fd kind i attempt, (c.conns fd).token = some (kind, i, attempt) →
    (c.world.master.workers fd).hasTask = true ∧ (c.world.master.workers fd).currentAttemptId = attempt

theorem owning_start (config : MasterConfig) (job : JobDef) (fd : Nat) (createdMs : UInt64) (now realtime : Int) :
    Owning createdMs job (Cluster.start config job fd createdMs now realtime) where
  inv := ⟨[], inv_start config job fd createdMs now realtime⟩
  slots other busy := by cases busy
  tokens other kind i attempt held := by cases held

section Running
variable {createdMs : UInt64} {job : JobDef} {completions : List Completion} {c : Cluster}
  (inv : Inv createdMs job completions c) {kind : TaskKind} {i : Nat} {t : Task}
  (found : c.world.master.task? kind i = some t) (running : t.state = .inProgress)

include inv found running

theorem Inv.running_incomplete : c.world.master.job.doneCount kind ≠ c.world.master.job.total kind := by
  intro full
  have recorded := inv.books.recorded
  rw [recorded.count, recorded.sound.total] at full
  have below : i < job.total kind := by
    by_contra outside
    have idle := (recorded.sound.idle kind i t (Nat.not_lt.mp outside) found).2
    rw [running] at idle
    cases idle
  obtain ⟨u, read, completed⟩ := (recorded.done kind i).mpr (all_recorded recorded.ranges inv.books.distinct full below)
  cases found.symm.trans read
  rw [running] at completed
  cases completed

theorem Inv.running_open : c.world.master.job.phase ≠ .done := by
  intro phase
  have phaseOk := inv.books.recorded.sound.phase
  unfold Job.PhaseOk at phaseOk
  rw [phase] at phaseOk
  cases kind with
  | map => exact inv.running_incomplete found running phaseOk.1
  | reduce => exact inv.running_incomplete found running phaseOk.2

/-- Only the phase of its kind has a task in progress and a token for it: no map is running in the reduce phase, and
nobody holds a reduce in the map phase. -/
theorem Inv.token_phase {fd : Fd} {attempt : Nat} (held : (c.conns fd).token = some (kind, i, attempt)) {k : TaskKind}
    (phase : c.world.master.job.phase.kind? = some k) : k = kind := by
  have phaseOk := inv.books.recorded.sound.phase
  unfold Job.PhaseOk at phaseOk
  cases now : c.world.master.job.phase <;> rw [now] at phase phaseOk <;> cases phase
  · cases kind with
    | map => rfl
    | reduce => exact absurd now (inv.tokens.phase fd _ _ held)
  · cases kind with
    | map => exact absurd phaseOk.1 (inv.running_incomplete found running)
    | reduce => rfl

end Running

/-- What is known of a report in flight: it is current, and for the task of the slot. -/
structure OwnReport (m : Master) (fd : Fd) (kind : TaskKind) (msg : TaskDoneReq) (t : Task) : Prop where
  named : (m.workers fd).currentKind = some kind
  found : m.task? kind (m.workers fd).currentTaskId = some t
  running : t.state = .inProgress
  owner : t.ownerFd = fd.val
  current : msg.attemptId.toNat = t.currentAttempt
  attempted : 1 ≤ t.attemptsCount
  busy : (m.workers fd).hasTask = true
  phase : ∀ k, m.job.phase.kind? = some k → k = kind

section Owning
variable {createdMs : UInt64} {job : JobDef} {c : Cluster} (owning : Owning createdMs job c) {fd : Fd}

include owning in
theorem Owning.report {kind : TaskKind} {msg : TaskDoneReq} (conn : c.conns fd = .reported kind msg) :
    ∃ t, OwnReport c.world.master fd kind msg t := by
  obtain ⟨completions, inv⟩ := owning.inv
  have flight := inv.inFlight conn
  obtain ⟨busy, attempt⟩ := owning.tokens fd _ _ _ flight.token
  obtain ⟨kind', t, named, found, running, owner, current⟩ := owning.slots fd busy
  cases flight.ok.slotKind.symm.trans named
  refine ⟨t, named, found, running, owner, by rw [current, attempt],
    (inv.books.recorded.sound.task _ _ t found).running running, busy, fun k phase => ?_⟩
  have token := flight.token
  rw [← flight.ok.slotTask] at token
  exact inv.token_phase found running token phase

include owning in
theorem Owning.own_kind (action : Action) : AcceptsOwnKind c action := by
  cases action with
  | deliver fd env =>
    intro payload outgoing
    rcases Conn.outgoing_some outgoing with ⟨_, rfl⟩ | ⟨kind, msg, conn, rfl⟩
    · intro msg decoded
      cases decoded
    · intro msg' _ k phase
      obtain ⟨t, report⟩ := owning.report conn
      cases report.phase k phase
      exact ⟨t, report.found, fun _ => report.named⟩
  | connect | ask | receive | finish | confirm | disconnect | periodic => trivial

end Owning

section Reports
variable {w applied : World} {fd : Fd} {kind : TaskKind} {msg : TaskDoneReq} {t : Task}
  (report : OwnReport w.master fd kind msg t)

include report in
theorem OwnReport.defined {job : JobDef} (sound : Sound job w.master) (env : Env) :
    ∃ r, callback w (.message fd (RpcKind.taskDoneReq.code :: msg.body) env) = some r := by
  refine callback_defined sound ?_
  intro msg' _ k phase
  cases report.phase k phase
  exact ⟨t, report.found, fun _ => report.attempted⟩

include report in
theorem OwnReport.acknowledged (own : w.master.SlotsOwn) (workers : applied.master.workers = w.master.workers)
    (others : ∀ k j, (k, j) ≠ (kind, (w.master.workers fd).currentTaskId) →
      applied.master.task? k j = w.master.task? k j)
    (ended : ∃ t', applied.master.task? kind (w.master.workers fd).currentTaskId = some t' ∧ t'.state ≠ .inProgress)
    (outcome : SendOutcome) (buf : Bytes) (marked : Option (TaskKind × Nat)) :
    (sendAck applied fd outcome buf true marked).master.SlotsOwn ↔ outcome ≠ .full := by
  constructor
  · rintro own' rfl
    obtain ⟨t', after, idle⟩ := ended
    have slot : ((sendAck applied fd .full buf true marked).master.workers fd) = w.master.workers fd :=
      congrFun workers fd
    obtain ⟨kind', u, named, found, running, _⟩ := own' fd (by rw [slot]; exact report.busy)
    rw [slot] at named found
    cases report.named.symm.trans named
    cases after.symm.trans found
    exact idle running
  · intro room
    obtain ⟨slot, free, master⟩ := sendAck_frees applied fd room buf marked
    rw [master]
    exact own.spend report.found report.owner workers others free

include report in
theorem OwnReport.slotsOwn (own : w.master.SlotsOwn) {env : Env} {r : Reply}
    (returned : callback w (.message fd (RpcKind.taskDoneReq.code :: msg.body) env) = some r) :
    r.master.SlotsOwn ↔ (env.send = .full → w.master.job.phase.kind? = none) := by
  rw [callback_encoded] at returned
  rcases masterHandleTaskDone_cases returned with handled | ⟨ended, rfl⟩
  · obtain ⟨k, u, phase, found, outcome⟩ := taskDoneHelper_cases handled
    cases report.phase k phase
    cases report.found.symm.trans found
    rw [phase]
    simp only [reduceCtorEq, imp_false]
    rcases outcome with ⟨stale, _⟩ | ⟨_, _, ⟨_, applied, master, _, rfl⟩ | ⟨_, rfl⟩⟩
    · exact absurd report.current stale
    · apply report.acknowledged own
      · rw [master, Master.complete_workers]
      · intro k j differs
        rw [master, Master.task?_complete, Master.task?_setTask_ne _ _ differs]
      · rw [master, Master.task?_complete, Master.task?_setTask_self _ report.found]
        exact ⟨_, rfl, by simp [Task.succeeded]⟩
    · apply report.acknowledged own
      · exact Master.release_workers _ _ _ _ _ _
      · intro k j differs
        rw [Master.task?_release, Master.task?_setTask_ne _ _ differs]
      · exact ⟨_, Master.release_task .failed fd.val report.found, t.ended_state_ne _ _ _⟩
  · exact iff_of_true own fun _ => ended

end Reports

theorem masterHandleGetTask_slotsOwn {w : World} (own : w.master.SlotsOwn) {fd : Fd} {env : Env} {r : Reply}
    (handled : masterHandleGetTask w fd env = some r) : r.master.SlotsOwn := by
  rcases masterHandleGetTask_cases handled with ⟨buf, _, rfl⟩ | ⟨kind, i, t, _, _, found, pending, rfl⟩
  · exact respond_slotsOwn own fd env.send buf
  · exact respond_slotsOwn (own.handOut found pending fd) fd env.send _

/-! ## Steps -/

/-- The master after each callback of a step. A failed `on_message` is followed by `on_disconnect`. -/
def Cluster.stages (c : Cluster) (action : Action) : List Master :=
  (match action with
    | .deliver fd env => ((c.conns fd).outgoing.bind fun payload =>
        callback c.world (.message fd payload env)).toList.map (·.master)
    | _ => []) ++ (c.next action).toList.map (·.world.master)

def Cluster.StagesOwn (c : Cluster) (action : Action) : Prop := ∀ m ∈ c.stages action, m.SlotsOwn

/-- The step ends no task behind the back of its slot: a tick times out no task that a slot names, and the
acknowledgement of a report finds room while the job runs. -/
def Cluster.Spares (c : Cluster) : Action → Prop
  | .periodic now realtime => c.world.master.nowMs ≤ now → ∀ fd, (c.world.master.workers fd).hasTask = true →
      ∀ kind, (c.world.master.workers fd).currentKind = some kind →
        ¬ c.world.master.TickEnds now realtime kind (c.world.master.workers fd).currentTaskId
  | .deliver fd env => env.send = .full → ∀ kind msg, c.conns fd = .reported kind msg →
      c.world.master.job.phase.kind? = none
  | _ => True

theorem Cluster.StagesOwn.after {c c' : Cluster} {action : Action} (own : c.StagesOwn action)
    (taken : c.next action = some c') : c'.world.master.SlotsOwn := by
  apply own
  unfold stages
  rw [taken]
  exact List.mem_append_right _ (List.mem_singleton_self _)

theorem Cluster.delivered_slotsOwn (c : Cluster) (fd : Fd) (env : Env) {r : Reply} (own : r.master.SlotsOwn) :
    (c.delivered fd env r).world.master.SlotsOwn := by
  unfold delivered
  simp only
  split
  · exact own
  · exact own.free fd rfl

theorem Cluster.stagesOwn_deliver (c : Cluster) (fd : Fd) (env : Env) : c.StagesOwn (.deliver fd env) ↔
    ∀ payload r, (c.conns fd).outgoing = some payload → callback c.world (.message fd payload env) = some r →
      r.master.SlotsOwn := by
  constructor
  · intro own payload r outgoing returned
    apply own
    simp [stages, outgoing, returned]
  · intro all m member
    simp only [stages, next, Option.bind_eq_bind, List.mem_append, List.mem_map, Option.mem_toList,
      Option.bind_eq_some_iff] at member
    rcases member with ⟨r, ⟨payload, outgoing, returned⟩, rfl⟩ | ⟨c', ⟨payload, outgoing, r, returned, same⟩, rfl⟩
    · exact all payload r outgoing returned
    · cases same
      exact c.delivered_slotsOwn fd env (all payload r outgoing returned)

theorem Cluster.stagesOwn_single {c : Cluster} {action : Action} (silent : ∀ fd env, action ≠ .deliver fd env)
    (all : ∀ c', c.next action = some c' → c'.world.master.SlotsOwn) : c.StagesOwn action := by
  intro m member
  unfold stages at member
  split at member
  next fd env => exact absurd rfl (silent fd env)
  · simp only [List.nil_append, List.mem_map, Option.mem_toList] at member
    obtain ⟨c', taken, rfl⟩ := member
    exact all c' taken

section Steps
variable {createdMs : UInt64} {job : JobDef} {c : Cluster} (owning : Owning createdMs job c)

include owning in
theorem Owning.deliver (fd : Fd) (env : Env) : c.StagesOwn (.deliver fd env) ↔ c.Spares (.deliver fd env) := by
  rw [Cluster.stagesOwn_deliver]
  constructor
  · intro all full kind msg conn
    obtain ⟨t, report⟩ := owning.report conn
    obtain ⟨_, inv⟩ := owning.inv
    obtain ⟨r, returned⟩ := report.defined inv.books.recorded.sound env
    have outgoing : (c.conns fd).outgoing = some (RpcKind.taskDoneReq.code :: msg.body) := by
      rw [conn]
      exact rpcEncodeTaskDoneReq_eq msg
    exact (report.slotsOwn owning.slots returned).mp (all _ r outgoing returned) full
  · intro spares payload r outgoing returned
    rcases Conn.outgoing_some outgoing with ⟨_, rfl⟩ | ⟨kind, msg, conn, rfl⟩
    · exact masterHandleGetTask_slotsOwn owning.slots returned
    · obtain ⟨t, report⟩ := owning.report conn
      exact (report.slotsOwn owning.slots returned).mpr fun full => spares full kind msg conn

include owning in
theorem Owning.periodic (now realtime : Int) :
    c.StagesOwn (.periodic now realtime) ↔ c.Spares (.periodic now realtime) := by
  constructor
  · intro own clock
    obtain ⟨_, inv⟩ := owning.inv
    obtain ⟨m, ticked⟩ := masterPeriodic_defined inv.books.recorded.sound now realtime
    have taken : c.next (.periodic now realtime) = some { c with world := { c.world with master := m } } := by
      simp only [Cluster.next, if_pos clock, callback, ticked]
      rfl
    exact (owning.slots.periodic ticked).mp (own.after taken)
  · intro spares
    refine Cluster.stagesOwn_single (by simp) fun c' taken => ?_
    simp only [Cluster.next] at taken
    split at taken
    next clock =>
      obtain ⟨r, returned, rfl⟩ := Option.map_eq_some_iff.mp taken
      obtain ⟨m, ticked, rfl⟩ := Option.map_eq_some_iff.mp returned
      exact (owning.slots.periodic ticked).mpr (spares clock)
    · cases taken

include owning in
theorem Owning.stages (action : Action) : c.StagesOwn action ↔ c.Spares action := by
  cases action with
  | deliver fd env => exact owning.deliver fd env
  | periodic now realtime => exact owning.periodic now realtime
  | connect fd | disconnect fd =>
    refine iff_of_true (Cluster.stagesOwn_single (by simp) fun c' taken => ?_) trivial
    simp only [Cluster.next] at taken
    split at taken <;> cases taken
    exact owning.slots.free fd rfl
  | ask fd | receive fd | finish fd | confirm fd =>
    refine iff_of_true (Cluster.stagesOwn_single (by simp) fun c' taken => ?_) trivial
    simp only [Cluster.next] at taken
    split at taken <;> cases taken
    exact owning.slots

include owning in
theorem Owning.next {action : Action} {c' : Cluster} (own : c.StagesOwn action) (taken : c.next action = some c') :
    Owning createdMs job c' := by
  obtain ⟨_, inv⟩ := owning.inv
  refine ⟨inv.next (owning.own_kind action) taken, own.after taken, ?_⟩
  intro other kind i attempt held
  rcases inv.token_source taken held with ⟨before, slot⟩ | ⟨t, _, attempts, master⟩
  · rw [slot]
    exact owning.tokens other kind i attempt before
  · rw [master, attempts]
    simp [Master.handOut, Master.setWorker]

end Steps

/-! ## Whole runs -/

/-- No slot is in use at the start, and along a run every slot in use owns its task between any two callbacks,
exactly if every step of the run spares the tasks that slots name. -/
theorem slots_own_tasks (config : MasterConfig) (job : JobDef) (fd : Nat) (createdMs : UInt64) (now realtime : Int)
    (actions : List Action) :
    (Cluster.start config job fd createdMs now realtime).world.master.SlotsOwn ∧
      (Runs.Along Cluster.next Cluster.StagesOwn (Cluster.start config job fd createdMs now realtime) actions ↔
        Runs.Along Cluster.next Cluster.Spares (Cluster.start config job fd createdMs now realtime) actions) := by
  have started := owning_start config job fd createdMs now realtime
  refine ⟨started.slots, Runs.along_congr ?_ (fun _ action owning => Owning.stages owning action) started⟩
  intro c action c' owning own taken
  exact owning.next own taken

def sweptRun : List Action :=
  [.connect workerA, .ask workerA, .deliver workerA .good, .receive workerA] ++ List.replicate 10 (.periodic 2000 0)

/-- After the sweep the map is pending without an owner, and the slot of A still names it. -/
theorem swept_task_named :
    ∃ final t, Runs.run Cluster.next sampleCluster sweptRun = some final ∧
      (final.world.master.workers workerA).hasTask = true ∧
      (final.world.master.workers workerA).currentKind = some .map ∧
      final.world.master.task? .map (final.world.master.workers workerA).currentTaskId = some t ∧
      t.state = .pending ∧ t.ownerFd = -1 ∧ ¬ final.world.master.SlotsOwn := by
  have ran : (Runs.run Cluster.next sampleCluster sweptRun).any (fun final =>
      final.world.master.workers workerA == ⟨0, true, some .map, 0, 1⟩ &&
      (final.world.master.task? .map 0).any fun t => t.state == .pending && t.ownerFd == -1) = true := by
    decide +kernel
  obtain ⟨final, reached, holds⟩ := (Option.any_eq_true _ _).mp ran
  obtain ⟨slot, task⟩ := (Bool.and_eq_true _ _).mp holds
  obtain ⟨t, found, ended⟩ := (Option.any_eq_true _ _).mp task
  obtain ⟨pending, unowned⟩ := (Bool.and_eq_true _ _).mp ended
  have named := beq_iff_eq.mp slot
  refine ⟨final, t, reached, by rw [named], by rw [named], by rw [named]; exact found, beq_iff_eq.mp pending,
    beq_iff_eq.mp unowned, fun own => ?_⟩
  obtain ⟨kind, u, same, read, running, _⟩ := own workerA (by rw [named])
  rw [named] at same read
  cases same
  cases found.symm.trans read
  rw [beq_iff_eq.mp pending] at running
  cases running

end MapReduce
