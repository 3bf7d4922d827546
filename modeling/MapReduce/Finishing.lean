import MapReduce.Untimed

/-! Which jobs can still be finished without ticks.

Workers that hold a task finish it, and then one worker does all tasks that are
left. This works from every state in which the job has not failed and no task is
hopeless; a hopeless task stays what it is, so nothing less is enough.
-/

set_option autoImplicit false

namespace MapReduce

/-- The job can be brought to its end without ticks and without a restart of the master. -/
def Cluster.Completable (c : Cluster) : Prop :=
  ∃ final, Runs.Reaches Cluster.next Action.Untimed c final ∧ final.world.master.job.phase = .done

/-- No step has spoiled the job: it has not failed, and no task is hopeless. -/
structure Hopeful (createdMs : UInt64) (job : JobDef) (c : Cluster) : Prop where
  tenured : Tenured createdMs job c
  alive : c.world.master.job.phase ≠ .failed
  hope : ∀ kind i, ¬ c.Hopeless kind i

/-! ## One worker moves on -/

section Moves
variable {createdMs : UInt64} {job : JobDef} {c : Cluster} (hopeful : Hopeful createdMs job c) {fd : Fd}

include hopeful in
theorem Hopeful.move {action : Action} {conn : Conn} {more : List Happened} (untimed : action.Untimed)
    (taken : c.next action = some ((c.observe more).setConn fd conn))
    (silent : ∀ kind msg, conn = .reported kind msg → msg.result = 0)
    (token : conn.token = (c.conns fd).token) : Hopeful createdMs job ((c.observe more).setConn fd conn) := by
  refine ⟨hopeful.tenured.next untimed taken, hopeful.alive, ?_⟩
  rintro kind i ⟨t, found, running, holders⟩
  refine hopeful.hope kind i ⟨t, found, running, fun other attempt held => ?_⟩
  by_cases same : other = fd
  · subst same
    obtain ⟨msg, reported, failure, _⟩ := holders other attempt (by rw [Cluster.setConn_self, token, held])
    rw [Cluster.setConn_self] at reported
    exact absurd (silent kind msg reported) failure
  · have there : ((c.observe more).setConn fd conn).conns other = c.conns other := Cluster.setConn_ne _ conn same
    rw [← there] at held ⊢
    exact holders other attempt held

theorem Tenured.accepts (tenured : Tenured createdMs job c) (alive : c.world.master.job.phase ≠ .failed)
    {kind : TaskKind} {msg : TaskDoneReq} (conn : c.conns fd = .reported kind msg) :
    ∃ r t, callback c.world (.message fd (RpcKind.taskDoneReq.code :: msg.body) .good) = some r ∧
      r.ok = true ∧ r.sent = some ackBytes ∧ c.world.master.task? kind msg.taskId.toNat = some t ∧
      ((msg.result = 0 ∧ SameCore (c.world.master.complete kind msg.taskId.toNat t fd) r.master) ∨
        (msg.result ≠ 0 ∧ SameCore (c.world.master.release kind msg.taskId.toNat t .failed fd.val) r.master)) := by
  obtain ⟨_, inv⟩ := tenured.inv
  have flight := inv.inFlight conn
  obtain ⟨t, found, running, current, phase⟩ := tenured.holder alive flight.token
  have slot : c.world.master.task? kind (c.world.master.workers fd).currentTaskId = some t := by
    rw [flight.ok.slotTask, found]
  have attempted : OnReport (fun _ _ _ _ t => 1 ≤ t.attemptsCount) c.world
      (.message fd (RpcKind.taskDoneReq.code :: msg.body) .good) := by
    intro msg' _ k now
    cases Option.mem_unique now phase
    exact ⟨t, slot, fun _ => (inv.books.recorded.sound.task kind _ t slot).running running⟩
  obtain ⟨r, returned⟩ := callback_defined inv.books.recorded.sound attempted
  have handled := returned
  rw [callback_report c.world fd .good (reportOf_encoded msg) phase] at handled
  obtain ⟨k, u, now, read, outcome⟩ := taskDoneHelper_cases handled
  cases phase.symm.trans now
  cases slot.symm.trans read
  rw [flight.ok.slotTask] at outcome
  refine ⟨r, t, returned, ?_, taskDoneHelper_sent handled, found, ?_⟩
  · rcases outcome with ⟨stale, _⟩ | ⟨_, _, ⟨_, applied, _, _, rfl⟩ | ⟨_, rfl⟩⟩
    · exact absurd current.symm stale
    · rfl
    · rfl
  · rcases outcome with ⟨stale, _⟩ | ⟨_, _, ⟨success, applied, master, _, rfl⟩ | ⟨failure, rfl⟩⟩
    · exact absurd current.symm stale
    · exact .inl ⟨success, master ▸ sameCore_sendAck _ _ _ _ _ _⟩
    · exact .inr ⟨failure, sameCore_sendAck ⟨_, c.world.log⟩ fd .queued ackBytes true none⟩

def Job.completed (job : Job) : Nat := job.doneCount .map + job.doneCount .reduce

theorem Job.advance_alive {job : Job} (alive : job.phase ≠ .failed) : job.advance.phase ≠ .failed := by
  unfold advance
  split
  · split <;> simp
  · split
    · simp
    · exact alive

theorem JobMove.completed {jb jb' : Job} {kind : TaskKind} {i : Nat} (move : JobMove jb (some (kind, i)) jb')
    (small : ∀ kind, jb.doneCount kind + 1 < 2 ^ 32) : jb'.completed = jb.completed + 1 := by
  unfold Job.completed
  rw [move.doneCount (small .map), move.doneCount (small .reduce)]
  cases kind
  · simp
    omega
  · simp
    omega

include hopeful in
theorem Hopeful.harmless {kind : TaskKind} {msg : TaskDoneReq} (conn : c.conns fd = .reported kind msg) {t : Task}
    (found : c.world.master.task? kind msg.taskId.toNat = some t) (failure : msg.result ≠ 0) :
    t.attemptsCount < maxAttempts := by
  obtain ⟨_, inv⟩ := hopeful.tenured.inv
  have flight := inv.inFlight conn
  obtain ⟨u, read, running, current⟩ := hopeful.tenured.current fd _ _ _ flight.token
  cases found.symm.trans read
  by_contra last
  refine hopeful.hope kind msg.taskId.toNat ⟨t, found, running, fun other attempt held => ?_⟩
  obtain ⟨u, read, _, same⟩ := hopeful.tenured.current other _ _ _ held
  cases found.symm.trans read
  rw [← same, current] at held
  cases inv.tokens.unique other fd _ held flight.token
  exact ⟨msg, conn, failure, Nat.not_lt.mp last⟩

include hopeful in
theorem Hopeful.deliver {kind : TaskKind} {msg : TaskDoneReq} (conn : c.conns fd = .reported kind msg) :
    ∃ c', c.next (.deliver fd .good) = some c' ∧ Hopeful createdMs job c' ∧
      c'.conns = Function.update c.conns fd (.acked ackBytes) ∧
      (msg.result = 0 → c'.world.master.job.completed = c.world.master.job.completed + 1) := by
  obtain ⟨_, inv⟩ := hopeful.tenured.inv
  have flight := inv.inFlight conn
  obtain ⟨_, _, _, _, phase⟩ := hopeful.tenured.holder hopeful.alive flight.token
  obtain ⟨r, t, returned, ok, sent, found, outcome⟩ := hopeful.tenured.accepts hopeful.alive conn
  have outgoing : (c.conns fd).outgoing = some (RpcKind.taskDoneReq.code :: msg.body) := by
    rw [conn]
    exact rpcEncodeTaskDoneReq_eq msg
  have taken : c.next (.deliver fd .good) = some (c.delivered fd .good r) := by
    simp only [Cluster.next, outgoing, returned, Option.bind_eq_bind, Option.bind_some]
  have conns : (c.delivered fd .good r).conns = Function.update c.conns fd (.acked ackBytes) := by
    unfold Cluster.delivered
    rw [ok, sent, conn]
    rfl
  have core := c.delivered_core fd .good r
  -- The task has left its state, and the job goes on.
  have ended : ∃ t', r.master.task? kind msg.taskId.toNat = some t' ∧ t'.state ≠ .inProgress := by
    rcases outcome with ⟨_, same⟩ | ⟨_, same⟩
    · rw [same.task?, Master.task?_complete, Master.task?_setTask_self _ found]
      exact ⟨_, rfl, by simp [Task.succeeded]⟩
    · rw [same.task?, Master.release_task _ _ found]
      exact ⟨_, rfl, t.ended_state_ne _ _ _⟩
  have alive : r.master.job.phase ≠ .failed := by
    rcases outcome with ⟨_, same⟩ | ⟨failure, same⟩
    · rw [same.job, Master.complete, maybeAdvancePhase_job]
      exact Job.advance_alive (by cases kind <;> exact hopeful.alive)
    · rw [same.job, Master.release_job, if_neg (Nat.not_le.mpr (hopeful.harmless conn found failure))]
      exact hopeful.alive
  have untimed : (Action.deliver fd .good).Untimed := trivial
  refine ⟨_, taken, ⟨hopeful.tenured.next untimed taken, core.job ▸ alive, ?_⟩, conns, ?_⟩
  · rintro k j ⟨u, read, running, holders⟩
    rw [core.task?] at read
    have other_task : (k, j) ≠ (kind, msg.taskId.toNat) := by
      rintro ⟨⟩
      obtain ⟨t', after, idle⟩ := ended
      cases after.symm.trans read
      exact idle running
    obtain ⟨before, was, move⟩ := (callback_effect returned).task_before read
    cases move with
    | keep =>
      refine hopeful.hope k j ⟨u, was, running, fun other attempt held => ?_⟩
      have differs : other ≠ fd := by
        rintro rfl
        cases flight.token.symm.trans held
        exact other_task rfl
      have there : (c.delivered fd .good r).conns other = c.conns other := by
        rw [conns, Function.update_of_ne differs]
      rw [← there] at held ⊢
      exact holders other attempt held
    | assign asked =>
      have report : rpcPeekKind (RpcKind.taskDoneReq.code :: msg.body) = some .taskDoneReq := rfl
      cases report.symm.trans asked
    | succeed => cases running
    | fail => exact absurd running (before.ended_state_ne _ _ _)
  · intro success
    rcases outcome with ⟨_, same⟩ | ⟨failure, _⟩
    · rw [core.job, same.job, Master.complete, maybeAdvancePhase_job]
      exact JobMove.completed (.count (i := msg.taskId.toNat) phase) inv.books.recorded.sound.doneCount_small
    · exact absurd success failure

/-- One connection gives back its token; the others are as they were. -/
structure Drains (createdMs : UInt64) (job : JobDef) (fd : Fd) (c c' : Cluster) : Prop where
  reaches : Runs.Reaches Cluster.next Action.Untimed c c'
  hopeful : Hopeful createdMs job c'
  empty : (c'.conns fd).token = none
  others : ∀ other, other ≠ fd → c'.conns other = c.conns other

theorem Drains.head {mid c' : Cluster} {action : Action} (untimed : action.Untimed) (taken : c.next action = some mid)
    (others : ∀ other, other ≠ fd → mid.conns other = c.conns other) (drains : Drains createdMs job fd mid c') :
    Drains createdMs job fd c c' where
  reaches := drains.reaches.head untimed taken
  hopeful := drains.hopeful
  empty := drains.empty
  others other differs := (drains.others other differs).trans (others other differs)

include hopeful in
theorem Hopeful.drain_reported {kind : TaskKind} {msg : TaskDoneReq} (conn : c.conns fd = .reported kind msg) :
    ∃ c', Drains createdMs job fd c c' ∧
      (msg.result = 0 → c'.world.master.job.completed = c.world.master.job.completed + 1) := by
  obtain ⟨c', taken, after, conns, counts⟩ := hopeful.deliver conn
  have untimed : (Action.deliver fd .good).Untimed := trivial
  refine ⟨c', ⟨.head untimed taken (.refl c'), after, ?_, fun other differs => ?_⟩, counts⟩
  · rw [conns, Function.update_self]
    rfl
  · rw [conns, Function.update_of_ne differs]

include hopeful in
theorem Hopeful.drain_running {kind : TaskKind} {taskId attemptId : UInt32}
    (conn : c.conns fd = .running kind taskId attemptId) :
    ∃ c', Drains createdMs job fd c c' ∧ c'.world.master.job.completed = c.world.master.job.completed + 1 := by
  have taken : c.next (.finish fd true) = some (
      (c.observe [.reported (c.serial fd) kind taskId.toNat attemptId.toNat 0]).setConn
      fd (.reported kind ⟨taskId, attemptId, 0⟩)) := by
    simp only [Cluster.next, conn]
    rfl
  have untimed : (Action.finish fd true).Untimed := trivial
  have moved := hopeful.move untimed taken (by rintro _ _ ⟨⟩; rfl) (by rw [conn]; rfl)
  obtain ⟨c', drains, counts⟩ := moved.drain_reported (Cluster.setConn_self _ fd _)
  exact ⟨c', drains.head untimed taken fun other differs => Cluster.setConn_ne _ _ differs, counts rfl⟩

include hopeful in
theorem Hopeful.drain_answered {payload : Bytes} (conn : c.conns fd = .answered payload)
    (holds : (c.conns fd).token ≠ none) :
    ∃ c', Drains createdMs job fd c c' ∧ c'.world.master.job.completed = c.world.master.job.completed + 1 := by
  have taken : c.next (.receive fd) = some ((c.observe []).setConn fd (.received payload)) := by
    simp only [Cluster.next, conn, Cluster.observe_nil]
  have untimed : (Action.receive fd).Untimed := trivial
  have moved := hopeful.move untimed taken (fun kind msg same => absurd same (received_ne_reported payload kind msg))
    (by rw [received_token, conn])
  have running : ∃ kind taskId attemptId, Conn.received payload = .running kind taskId attemptId := by
    rw [conn, ← received_token] at holds
    unfold Conn.received at holds ⊢
    cases decoded : decodeResponse payload with
    | none => simp [decoded, Conn.token] at holds
    | some response => cases response <;> simp [decoded, Conn.token] at holds ⊢
  obtain ⟨kind, taskId, attemptId, same⟩ := running
  obtain ⟨c', drains, counts⟩ := moved.drain_running ((Cluster.setConn_self _ fd _).trans same)
  exact ⟨c', drains.head untimed taken fun other differs => Cluster.setConn_ne _ _ differs, counts⟩

include hopeful in
theorem Hopeful.drain (fd : Fd) : ∃ c', Drains createdMs job fd c c' := by
  cases conn : c.conns fd with
  | answered payload =>
    by_cases holds : (c.conns fd).token = none
    · exact ⟨c, .refl c, hopeful, holds, fun _ _ => rfl⟩
    · obtain ⟨c', drains, _⟩ := hopeful.drain_answered conn holds
      exact ⟨c', drains⟩
  | running =>
    obtain ⟨c', drains, _⟩ := hopeful.drain_running conn
    exact ⟨c', drains⟩
  | reported =>
    obtain ⟨c', drains, _⟩ := hopeful.drain_reported conn
    exact ⟨c', drains⟩
  | closed | idle | requested | acked | exited =>
    exact ⟨c, .refl c, hopeful, by rw [conn]; rfl, fun _ _ => rfl⟩

end Moves

theorem Hopeful.drain_all {createdMs : UInt64} {job : JobDef} (fds : List Fd) {c : Cluster}
    (hopeful : Hopeful createdMs job c) :
    ∃ c', Runs.Reaches Cluster.next Action.Untimed c c' ∧ Hopeful createdMs job c' ∧
      (∀ fd ∈ fds, (c'.conns fd).token = none) ∧ ∀ fd, (c.conns fd).token = none → (c'.conns fd).token = none := by
  induction fds generalizing c with
  | nil => exact ⟨c, .refl c, hopeful, by simp, fun _ empty => empty⟩
  | cons fd rest ih =>
    obtain ⟨mid, drains⟩ := hopeful.drain fd
    obtain ⟨c', reaches, after, empty, kept⟩ := ih drains.hopeful
    refine ⟨c', drains.reaches.trans reaches, after, ?_, fun other before => kept other ?_⟩
    · intro other member
      rcases List.mem_cons.mp member with rfl | later
      · exact kept other drains.empty
      · exact empty other later
    · by_cases same : other = fd
      · rw [same]
        exact drains.empty
      · rw [drains.others other same]
        exact before

/-! ## One worker does the rest -/

structure Settled (createdMs : UInt64) (job : JobDef) (c : Cluster) : Prop where
  hopeful : Hopeful createdMs job c
  empty : ∀ fd, (c.conns fd).token = none

section Settled
variable {createdMs : UInt64} {job : JobDef} {c : Cluster} (settled : Settled createdMs job c) {fd : Fd}

include settled in
theorem Settled.at_rest {kind : TaskKind} {i : Nat} {t : Task} (found : c.world.master.task? kind i = some t) :
    t.state ≠ .inProgress := by
  intro running
  refine settled.hopeful.hope kind i ⟨t, found, running, fun fd attempt held => ?_⟩
  rw [settled.empty fd] at held
  cases held

include settled in
theorem Settled.pending {kind : TaskKind} (phase : c.world.master.job.phase.kind? = some kind) :
    ∃ i, c.world.master.firstPending kind = some i := by
  obtain ⟨completions, inv⟩ := settled.hopeful.tenured.inv
  have recorded := inv.books.recorded
  cases first : c.world.master.firstPending kind with
  | some i => exact ⟨i, rfl⟩
  | none =>
    have all : List.range (job.total kind) ⊆ idsOf kind completions := by
      intro i range
      have below : i < c.world.master.job.total kind := recorded.sound.total kind ▸ List.mem_range.mp range
      obtain ⟨t, found⟩ := c.world.master.task?_isSome
        (Nat.lt_of_lt_of_le (List.mem_range.mp range) (job.total_le kind))
      have open_ := Master.firstPending_none first below found
      refine mem_idsOf.mpr ((recorded.done kind i).mp ⟨t, found, ?_⟩)
      cases state : t.state with
      | pending => exact absurd state open_
      | inProgress => exact absurd state (settled.at_rest found)
      | completed => rfl
      | failed => exact absurd (recorded.sound.failed kind i t found state) settled.hopeful.alive
    have few := recorded.sound.phase.doneCount_lt phase
    have many := (List.subperm_of_subset List.nodup_range all).length_le
    rw [List.length_range, idsOf_length, ← recorded.count kind, ← recorded.sound.total kind] at many
    omega

include settled in
theorem Settled.step {c' : Cluster} {action : Action} {conn : Conn} (untimed : action.Untimed)
    (taken : c.next action = some c') (core : SameCore c.world.master c'.world.master)
    (conns : c'.conns = Function.update c.conns fd conn) (empty : conn.token = none) : Settled createdMs job c' where
  hopeful := by
    refine ⟨settled.hopeful.tenured.next untimed taken, core.job ▸ settled.hopeful.alive, ?_⟩
    rintro kind i ⟨t, found, running, _⟩
    rw [core.task?] at found
    exact settled.at_rest found running
  empty other := by
    rw [conns]
    by_cases same : other = fd
    · rw [same, Function.update_self, empty]
    · rw [Function.update_of_ne same]
      exact settled.empty other

include settled in
theorem Settled.asks (fd : Fd) : ∃ c', Runs.Reaches Cluster.next Action.Untimed c c' ∧ Settled createdMs job c' ∧
    c'.conns fd = .requested ∧ c'.world.master.job = c.world.master.job := by
  have closed : ∃ c', Runs.Reaches Cluster.next Action.Untimed c c' ∧ Settled createdMs job c' ∧
      c'.conns fd = .closed ∧ c'.world.master.job = c.world.master.job := by
    by_cases now : c.conns fd = .closed
    · exact ⟨c, .refl c, settled, now, rfl⟩
    · have untimed : (Action.disconnect fd).Untimed := trivial
      have taken : c.next (.disconnect fd) =
          some ((c.setMaster (masterOnDisconnect c.world.master fd)).setConn fd .closed) := by
        simp only [Cluster.next, now, ↓reduceIte]
      exact ⟨_, .head untimed taken (.refl _), settled.step untimed taken (sameCore_setWorker _ fd .zero) rfl rfl,
        Cluster.setConn_self _ fd _, rfl⟩
  obtain ⟨c₁, reaches, settled₁, closed, job₁⟩ := closed
  have untimed₁ : (Action.connect fd).Untimed := trivial
  obtain ⟨c₂, taken₁, settled₂, idle, job₂⟩ : ∃ c₂, c₁.next (.connect fd) = some c₂ ∧ Settled createdMs job c₂ ∧
      c₂.conns fd = .idle ∧ c₂.world.master.job = c₁.world.master.job := by
    have taken : c₁.next (.connect fd) = some ((Cluster.setMaster { c₁ with
        serial := Function.update c₁.serial fd c₁.opened, opened := c₁.opened + 1 }
        (masterOnConnect c₁.world.master fd)).setConn fd .idle) := by
      simp only [Cluster.next, closed, ↓reduceIte]
    exact ⟨_, taken, settled₁.step untimed₁ taken (sameCore_setWorker _ fd _) rfl rfl, Cluster.setConn_self _ fd _, rfl⟩
  have untimed₂ : (Action.ask fd).Untimed := trivial
  have taken₂ : c₂.next (.ask fd) = some (c₂.setConn fd .requested) := by
    simp only [Cluster.next, idle, ↓reduceIte]
  refine ⟨c₂.setConn fd .requested, reaches.trans (.head untimed₁ taken₁ (.head untimed₂ taken₂ (.refl _))),
    settled₂.step untimed₂ taken₂ (.refl _) rfl rfl, Cluster.setConn_self _ fd _, job₂.trans job₁⟩

theorem Inv.request_granted {completions : List Completion} (inv : Inv createdMs job completions c) (fd : Fd)
    {kind : TaskKind} {i : Nat} (phase : c.world.master.job.phase.kind? = some kind)
    (first : c.world.master.firstPending kind = some i) :
    ∃ r k j t payload, callback c.world (.message fd [RpcKind.getTaskReq.code] .good) = some r ∧ r.ok = true ∧
      r.sent = some payload ∧ r.master = c.world.master.handOut k j t fd ∧ c.world.master.task? k j = some t ∧
      (Conn.answered payload).token = some (k, j, t.currentAttempt + 1) := by
  obtain ⟨r, handled⟩ := masterHandleGetTask_defined inv.books.recorded.sound fd .good
  obtain ⟨u, read, after⟩ := masterHandleGetTask_pending phase first handled
  rcases masterHandleGetTask_cases handled with ⟨buf, _, rfl⟩ | ⟨k, j, t, _, _, found, _, same⟩
  · -- The task would not have changed.
    rw [(sameCore_respond c.world fd _ buf).task?, read] at after
    have attempts := congrArg Task.currentAttempt (Option.some.inj after)
    simp [Task.assigned] at attempts
  · obtain ⟨payload, encoded, decoded⟩ := taskResp_decodes (c.world.master.handOut k j t fd) k j
      (t.assigned fd c.world.master.nowMs) (by rintro rfl; exact inv.books.recorded.sound.path j t found)
    obtain ⟨small, few⟩ := inv.handed_small found
    rw [encoded] at same
    refine ⟨r, k, j, t, payload, handled, ?_, ?_, ?_, found, ?_⟩
    · rw [same]
      rfl
    · rw [same]
      rfl
    · rw [same]
      rfl
    · simp only [Conn.token, decoded, Task.assigned, small, few]

include settled in
theorem Settled.handed {kind : TaskKind} (phase : c.world.master.job.phase.kind? = some kind)
    (conn : c.conns fd = .requested) : ∃ c' payload, c.next (.deliver fd .good) = some c' ∧ Hopeful createdMs job c' ∧
      c'.conns = Function.update c.conns fd (.answered payload) ∧ (Conn.answered payload).token ≠ none ∧
      c'.world.master.job = c.world.master.job := by
  obtain ⟨_, inv⟩ := settled.hopeful.tenured.inv
  obtain ⟨i, first⟩ := settled.pending phase
  obtain ⟨r, k, j, t, payload, returned, ok, sent, master, found, token⟩ := inv.request_granted fd phase first
  have outgoing : (c.conns fd).outgoing = some [RpcKind.getTaskReq.code] := by rw [conn]; rfl
  have taken : c.next (.deliver fd .good) = some (c.delivered fd .good r) := by
    simp only [Cluster.next, outgoing, returned, Option.bind_eq_bind, Option.bind_some]
  have conns : (c.delivered fd .good r).conns = Function.update c.conns fd (.answered payload) := by
    unfold Cluster.delivered
    rw [ok, sent, conn]
    rfl
  have core := c.delivered_core fd .good r
  have same_job : r.master.job = c.world.master.job := by
    rw [master]
    exact Master.setTask_job _ _ _ _
  have untimed : (Action.deliver fd .good).Untimed := trivial
  refine ⟨_, payload, taken, ⟨settled.hopeful.tenured.next untimed taken, ?_, ?_⟩, conns, by simp [token],
    core.job.trans same_job⟩
  · rw [core.job, same_job]
    exact settled.hopeful.alive
  · rintro k' j' ⟨u, there, running, holders⟩
    rw [core.task?, master] at there
    by_cases same : (k', j') = (k, j)
    · cases same
      obtain ⟨msg, reported, _⟩ := holders fd (t.currentAttempt + 1) (by rw [conns, Function.update_self, token])
      rw [conns, Function.update_self] at reported
      cases reported
    · rw [Master.handOut, Master.task?_setWorker, Master.task?_setTask_ne _ _ same] at there
      exact settled.at_rest there running

include settled in
theorem Settled.work {kind : TaskKind} (phase : c.world.master.job.phase.kind? = some kind) :
    ∃ c', Runs.Reaches Cluster.next Action.Untimed c c' ∧ Settled createdMs job c' ∧
      c'.world.master.job.completed = c.world.master.job.completed + 1 := by
  obtain ⟨c₁, reaches, settled₁, asked, job₁⟩ := settled.asks workerA
  obtain ⟨c₂, payload, taken, hopeful, conns, holds, job₂⟩ := settled₁.handed (job₁ ▸ phase) asked
  have answered : c₂.conns workerA = .answered payload := by rw [conns, Function.update_self]
  obtain ⟨c₃, drains, counts⟩ := hopeful.drain_answered answered (answered ▸ holds)
  have untimed : (Action.deliver workerA .good).Untimed := trivial
  refine ⟨c₃, reaches.trans (drains.reaches.head untimed taken), ⟨drains.hopeful, fun other => ?_⟩, ?_⟩
  · by_cases same : other = workerA
    · rw [same]
      exact drains.empty
    · rw [drains.others other same, conns, Function.update_of_ne same]
      exact settled₁.empty other
  · rw [counts, job₂, job₁]

end Settled

theorem Settled.completable {createdMs : UInt64} {job : JobDef} {c : Cluster} (settled : Settled createdMs job c) :
    c.Completable := by
  -- The induction is on the number of tasks that are left.
  generalize left : job.M + job.R - c.world.master.job.completed = n
  induction n using Nat.strong_induction_on generalizing c with
  | _ n ih =>
    cases now : c.world.master.job.phase.kind? with
    | none =>
      refine ⟨c, .refl c, ?_⟩
      cases phase : c.world.master.job.phase with
      | map | reduce =>
        rw [phase] at now
        cases now
      | done => rfl
      | failed => exact absurd phase settled.hopeful.alive
    | some kind =>
      obtain ⟨c', reaches, settled', counts⟩ := settled.work now
      have bound : c'.world.master.job.completed ≤ job.M + job.R := by
        obtain ⟨_, inv⟩ := settled'.hopeful.tenured.inv
        have sound := inv.books.recorded.sound
        have maps := sound.phase.doneCount_le .map
        have reduces := sound.phase.doneCount_le .reduce
        rw [sound.total] at maps reduces
        exact Nat.add_le_add maps reduces
      obtain ⟨final, rest, done⟩ := ih _ (by omega) settled' rfl
      exact ⟨final, reaches.trans rest, done⟩

/-! ## The answer -/

/-- Without ticks, a job can be finished from a state it has reached exactly if it has not failed and no task is
hopeless. -/
theorem completable_iff (config : MasterConfig) (job : JobDef) (fd : Nat) (createdMs : UInt64) (now realtime : Int)
    {incidents : List Incident} {c : Cluster} (usual : ∀ incident ∈ incidents, incident.Untimed ∧ incident.LogWritten)
    (reached : Runs.run Cluster.survive (Cluster.start config job fd createdMs now realtime) incidents = some c) :
    c.Completable ↔ c.world.master.job.phase ≠ .failed ∧ ∀ kind i, ¬ c.Hopeless kind i := by
  have tenured := tenured_reached config job fd createdMs now realtime usual reached
  constructor
  · rintro ⟨final, reaches, done⟩
    constructor
    · intro failed
      have still := reaches.invariant (fun _ _ _ failed _ taken => Cluster.failed_next taken failed) failed
      rw [done] at still
      cases still
    · intro kind i hopeless
      have keep : ∀ (c : Cluster) (action : Action) (c' : Cluster), Tenured createdMs job c ∧
          (c.Hopeless kind i ∨ c.world.master.job.phase = .failed) → action.Untimed → c.next action = some c' →
          Tenured createdMs job c' ∧ (c'.Hopeless kind i ∨ c'.world.master.job.phase = .failed) := by
        rintro c action c' ⟨tenured, lost⟩ untimed taken
        refine ⟨tenured.next untimed taken, ?_⟩
        rcases lost with hopeless | failed
        · exact tenured.hopeless_next untimed taken hopeless
        · exact .inr (Cluster.failed_next taken failed)
      obtain ⟨still, ⟨t, found, running, _⟩ | failed⟩ := reaches.invariant keep ⟨tenured, .inl hopeless⟩
      · obtain ⟨_, inv⟩ := still.inv
        exact inv.running_open found running done
      · rw [done] at failed
        cases failed
  · rintro ⟨alive, hope⟩
    have hopeful : Hopeful createdMs job c := ⟨tenured, alive, hope⟩
    obtain ⟨c', reaches, hopeful', empty, _⟩ := hopeful.drain_all (List.finRange maxFds)
    have settled : Settled createdMs job c' := ⟨hopeful', fun fd => empty fd (List.mem_finRange fd)⟩
    obtain ⟨final, rest, done⟩ := settled.completable
    exact ⟨final, reaches.trans rest, done⟩

def lostRun : List Incident :=
  [.connect workerA, .ask workerA, .deliver workerA .good, .receive workerA, .disconnect workerA].map .action

/-- The job can be finished from its start, and no longer when its only worker is gone. -/
theorem completable_iff_lost :
    sampleCluster.Completable ∧
      ∃ c, Runs.run Cluster.survive sampleCluster lostRun = some c ∧ c.Hopeless .map 0 ∧ ¬ c.Completable := by
  constructor
  · have none_used : ∀ incident ∈ ([] : List Incident), incident.Untimed ∧ incident.LogWritten := by simp
    refine (completable_iff sampleConfig sampleJob 3 0 0 0 none_used rfl).mpr ⟨by decide, ?_⟩
    rintro kind i ⟨t, found, running, _⟩
    rw [Cluster.start, World.start_task?] at found
    rw [(Master.fresh_slot found).1] at running
    cases running
  · have ran : (Runs.run Cluster.survive sampleCluster lostRun).any (fun c =>
        (c.world.master.task? .map 0).any (·.state == .inProgress) &&
          decide (∀ fd, (c.conns fd).token = none)) = true := by
      decide +kernel
    obtain ⟨c, reached, holds⟩ := (Option.any_eq_true _ _).mp ran
    obtain ⟨busy, empty⟩ := (Bool.and_eq_true _ _).mp holds
    obtain ⟨t, found, running⟩ := (Option.any_eq_true _ _).mp busy
    have hopeless : c.Hopeless .map 0 := by
      refine ⟨t, found, beq_iff_eq.mp running, fun fd attempt held => ?_⟩
      rw [of_decide_eq_true empty fd] at held
      cases held
    refine ⟨c, reached, hopeless, fun completable => ?_⟩
    exact ((completable_iff sampleConfig sampleJob 3 0 0 0 (by decide) reached).mp completable).2 .map 0 hopeless

end MapReduce
