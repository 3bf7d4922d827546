import MapReduce.Bookkeeping
import MapReduce.Protocol

/-! The history of the tasks a master hands out.

`choose_available_task` counts the attempts of a task up, and nothing counts them
down again. Read as one list, the responses of an incarnation therefore hand out
the attempts 1, 2, ... of every task, each of them once.
-/

set_option autoImplicit false

namespace MapReduce

/-! ## What a callback hands out -/

/-- The payload a callback passes to `server_send`, whatever becomes of it there. -/
def produced (w : World) : Callback → Option Bytes
  | .message fd payload env => (masterOnMessage w fd payload { env with send := .queued }).bind (·.sent)
  | _ => none

def handedTask (payload : Bytes) : Option (TaskKind × Nat × Nat) :=
  match decodeResponse payload with
  | some (.task kind taskId attemptId) => some (kind, taskId.toNat, attemptId.toNat)
  | _ => none

def issued (w : World) (c : Callback) : Option (TaskKind × Nat × Nat) := (produced w c).bind handedTask

theorem handedTask_task {payload : Bytes} {kind : TaskKind} {taskId attemptId : UInt32}
    (decoded : decodeResponse payload = some (.task kind taskId attemptId)) :
    handedTask payload = some (kind, taskId.toNat, attemptId.toNat) := by
  simp [handedTask, decoded]

theorem handedTask_none {payload : Bytes}
    (other : ∀ kind taskId attemptId, decodeResponse payload ≠ some (.task kind taskId attemptId)) :
    handedTask payload = none := by
  unfold handedTask
  split
  next decoded => exact absurd decoded (other _ _ _)
  · rfl

theorem respond_queued (w : World) (fd : Fd) (buf : Option Bytes) :
    (respond w fd .queued buf).toWorld = w ∧ (respond w fd .queued buf).sent = buf := by
  cases buf <;> exact ⟨rfl, rfl⟩

theorem masterHandleGetTask_answer {w : World} {fd : Fd} {env : Env} {r : Reply}
    (handled : masterHandleGetTask w fd env = some r) :
    ∃ answered buf, ∀ env, masterHandleGetTask w fd env = some (respond answered fd env.send buf) := by
  unfold masterHandleGetTask at handled ⊢
  split at handled
  · exact ⟨w, _, fun _ => rfl⟩
  next kind phase =>
    obtain ⟨⟨chosen, m⟩, choice, handled⟩ := Option.bind_eq_some_iff.mp handled
    cases chosen with
    | some i =>
      obtain ⟨t, found, _⟩ := Option.bind_eq_some_iff.mp handled
      refine ⟨⟨m, w.log⟩, taskResp m kind i t, fun env => ?_⟩
      simp only [choice, found, Option.bind_eq_bind, Option.bind_some]
    | none =>
      obtain ⟨buf, waited, _⟩ := Option.bind_eq_some_iff.mp handled
      refine ⟨⟨m, w.log⟩, buf, fun env => ?_⟩
      simp only [choice, waited, Option.bind_eq_bind, Option.bind_some]

theorem taskDone_sent {w : World} {fd : Fd} {env : Env} {msg : TaskDoneReq} {r : Reply}
    (handled : masterHandleTaskDone w fd env msg = some r) :
    r.sent = none ∨ (env.send = .queued ∧ r.sent = some ackBytes) := by
  rcases masterHandleTaskDone_cases handled with helped | ⟨-, rfl⟩
  · rw [taskDoneHelper_sent helped]
    split
    next queued => exact .inr ⟨queued, rfl⟩
    · exact .inl rfl
  · exact .inl rfl

theorem produced_of_sent {w : World} {c : Callback} {r : Reply} {buf : Bytes} (returned : callback w c = some r)
    (sent : r.sent = some buf) : produced w c = some buf := by
  cases c with
  | connect | disconnect =>
    cases returned
    cases sent
  | periodic =>
    obtain ⟨_, _, rfl⟩ := Option.map_eq_some_iff.mp returned
    cases sent
  | message fd payload env =>
    simp only [callback, masterOnMessage, produced] at returned ⊢
    split at returned
    · obtain ⟨answered, answer, handled⟩ := masterHandleGetTask_answer returned
      cases (handled env).symm.trans returned
      rw [handled, Option.bind_some, (respond_queued answered fd answer).2]
      exact (respond_sent sent).1
    · split at returned
      · cases returned
        cases sent
      next msg _ =>
        -- An acknowledgement that went out was queued, so the callback is the one that was run.
        rcases taskDone_sent returned with silent | ⟨queued, _⟩
        · rw [silent] at sent
          cases sent
        · have same : { env with send := .queued } = env := by
            rw [← queued]
          rw [same, returned]
          exact sent
    · cases returned
      cases sent

theorem issued_other {w : World} {c : Callback} (other : ¬ c.AsksForTask) : issued w c = none := by
  cases c with
  | connect | disconnect | periodic => rfl
  | message fd payload env =>
    simp only [issued, produced, masterOnMessage]
    split
    next asked => exact absurd asked other
    · split
      · rfl
      next msg _ =>
        cases handled : masterHandleTaskDone w fd { env with send := .queued } msg with
        | none => rfl
        | some r =>
          rcases taskDone_sent handled with silent | ⟨_, acked⟩
          · simp [silent]
          · rw [Option.bind_some, acked]
            rfl
    · rfl

theorem TaskMove.attempt {w : World} {after : JobPhase} {kind : TaskKind} {i : Nat} {t t' : Task} {c : Callback}
    (move : TaskMove w after kind i t c t') (other : ¬ c.AsksForTask) : t'.currentAttempt = t.currentAttempt := by
  cases move with
  | keep | succeed | fail | timeout => rfl
  | assign asked => exact absurd asked other

/-! ## Histories -/

def attemptsOf (kind : TaskKind) (i : Nat) (history : List (TaskKind × Nat × Nat)) : List Nat :=
  history.filterMap fun entry => if entry.1 = kind ∧ entry.2.1 = i then some entry.2.2 else none

theorem attemptsOf_append (kind : TaskKind) (i : Nat) (first second : List (TaskKind × Nat × Nat)) :
    attemptsOf kind i (first ++ second) = attemptsOf kind i first ++ attemptsOf kind i second :=
  List.filterMap_append

theorem nodup_of_attempts {history : List (TaskKind × Nat × Nat)}
    (each : ∀ kind i, (attemptsOf kind i history).Nodup) : history.Nodup := by
  induction history with
  | nil => exact List.nodup_nil
  | cons entry rest ih =>
    have split : ∀ kind i, attemptsOf kind i (entry :: rest) =
        attemptsOf kind i [entry] ++ attemptsOf kind i rest := fun kind i => attemptsOf_append kind i [entry] rest
    constructor
    · rintro other member rfl
      have both := each entry.1 entry.2.1
      rw [split] at both
      have first : entry.2.2 ∈ attemptsOf entry.1 entry.2.1 [entry] := by simp [attemptsOf]
      have again : entry.2.2 ∈ attemptsOf entry.1 entry.2.1 rest :=
        List.mem_filterMap.mpr ⟨entry, member, by simp⟩
      exact List.disjoint_of_nodup_append both first again
    · apply ih
      intro kind i
      have both := each kind i
      rw [split] at both
      exact both.of_append_right

theorem taskResp_handed {m : Master} (booked : m.Booked) {kind : TaskKind} {i : Nat} {t : Task} (fd : Fd)
    (below : i < m.job.total kind) (found : m.task? kind i = some t) (pending : t.state = .pending) :
    (taskResp (m.handOut kind i t fd) kind i (t.assigned fd m.nowMs)).bind handedTask =
      some (kind, i, t.currentAttempt + 1) := by
  obtain ⟨payload, encoded, decoded⟩ := taskResp_decodes (m.handOut kind i t fd) kind i (t.assigned fd m.nowMs)
    (by rintro rfl; exact booked.path i t found)
  have task := booked.task kind i t below found
  have few : t.currentAttempt + 1 < 2 ^ 32 := by
    have room := task.room pending
    have current := task.current
    simp only [maxAttempts] at room
    omega
  have small : i < 2 ^ 32 := by
    have inside := Nat.lt_of_lt_of_le below (booked.totals kind)
    cases kind <;> simp only [TaskKind.capacity, maxMapTasks, maxReduceTasks] at inside <;> omega
  rw [encoded, Option.bind_some, handedTask_task decoded, toNat_ofNat_small small]
  exact congrArg (fun attempt => some (kind, i, attempt)) (toNat_ofNat_small few)

theorem issued_cases {w : World} {c : Callback} {r : Reply} (booked : w.master.Booked)
    (returned : callback w c = some r) :
    (issued w c = none ∧ ∀ kind i t, w.master.task? kind i = some t →
      ∃ t', r.master.task? kind i = some t' ∧ t'.currentAttempt = t.currentAttempt) ∨
    ∃ kind i t fd, i < w.master.job.total kind ∧ w.master.task? kind i = some t ∧
      issued w c = some (kind, i, t.currentAttempt + 1) ∧
      SameCore (w.master.setTask kind i (t.assigned fd w.master.nowMs)) r.master := by
  by_cases asks : c.AsksForTask
  · cases c with
    | connect | disconnect | periodic => cases asks
    | message fd payload env =>
      have asked : rpcPeekKind payload = some .getTaskReq := asks
      simp only [callback, masterOnMessage, asked] at returned
      obtain ⟨answered, buf, answer⟩ := masterHandleGetTask_answer returned
      cases (answer env).symm.trans returned
      obtain ⟨same, sent⟩ := respond_queued answered fd buf
      have core := sameCore_respond answered fd env.send buf
      have out : issued w (.message fd payload env) = buf.bind handedTask := by
        simp only [issued, produced, masterOnMessage, asked, answer, Option.bind_some, sent]
      rw [out]
      rcases masterHandleGetTask_cases (answer { env with send := .queued }) with
        ⟨other, plain, equal⟩ | ⟨kind, i, t, _, below, found, pending, equal⟩
      all_goals
        have world := congrArg Reply.toWorld equal
        have bytes := congrArg Reply.sent equal
        rw [same, (respond_queued _ fd _).1] at world
        rw [sent, (respond_queued _ fd _).2] at bytes
        subst world bytes
      · refine .inl ⟨?_, fun kind i t found => ⟨t, (core.task? kind i).trans found, rfl⟩⟩
        cases buf with
        | none => rfl
        | some payload => exact handedTask_none fun _ _ _ => decodeResponse_other plain rfl
      · refine .inr ⟨kind, i, t, fd, below, found, taskResp_handed booked fd below found pending, ?_⟩
        exact .trans (sameCore_setWorker _ fd _) core
  · refine .inl ⟨issued_other asks, fun kind i t found => ?_⟩
    obtain ⟨t', after, move⟩ := (callback_effect returned).task found
    exact ⟨t', after, move.attempt asks⟩

theorem attemptsOf_other {kind k : TaskKind} {i j attempt : Nat} (other : (kind, i) ≠ (k, j)) :
    attemptsOf kind i (some (k, j, attempt)).toList = [] := by
  have differs : ¬ (k = kind ∧ j = i) := by
    rintro ⟨rfl, rfl⟩
    exact other rfl
  simp [attemptsOf, differs]

theorem issued_next {w : World} {c : Callback} {r : Reply} (booked : w.master.Booked)
    (returned : callback w c = some r) {kind : TaskKind} {i : Nat} {t : Task}
    (found : w.master.task? kind i = some t) :
    ∃ t' n, r.master.task? kind i = some t' ∧ t'.currentAttempt = t.currentAttempt + n ∧
      attemptsOf kind i (issued w c).toList = List.range' (t.currentAttempt + 1) n := by
  rcases issued_cases booked returned with ⟨silent, same⟩ | ⟨k, j, u, fd, _, at_slot, handed, core⟩
  · obtain ⟨t', after, current⟩ := same kind i t found
    refine ⟨t', 0, after, current, ?_⟩
    rw [silent]
    rfl
  · rw [core.task?, handed]
    by_cases mine : (kind, i) = (k, j)
    · cases mine
      cases at_slot.symm.trans found
      exact ⟨_, 1, Master.task?_setTask_self _ found, rfl, by simp [attemptsOf]⟩
    · exact ⟨t, 0, (Master.task?_setTask_ne _ _ mine).trans found, rfl, attemptsOf_other mine⟩

theorem issued_undefined {w : World} {c : Callback} (undefined : w.next c = none) : issued w c = none := by
  by_cases asks : c.AsksForTask
  · cases c with
    | connect | disconnect | periodic => cases asks
    | message fd payload env =>
      have asked : rpcPeekKind payload = some .getTaskReq := asks
      cases handled : masterHandleGetTask w fd { env with send := .queued } with
      | none => simp only [issued, produced, masterOnMessage, asked, handled, Option.bind_none]
      | some q =>
        obtain ⟨answered, buf, answer⟩ := masterHandleGetTask_answer handled
        simp [World.next, callback, masterOnMessage, asked, answer] at undefined
  · exact issued_other asks

theorem outputs_attempts {callbacks : List Callback} {w : World} (booked : w.master.Booked) {kind : TaskKind}
    {i : Nat} {t : Task} (below : i < w.master.job.total kind) (found : w.master.task? kind i = some t) :
    ∃ n, t.currentAttempt + n ≤ maxAttempts ∧
      attemptsOf kind i (Runs.outputs World.next issued w callbacks) = List.range' (t.currentAttempt + 1) n := by
  induction callbacks generalizing w t with
  | nil =>
    have task := booked.task kind i t below found
    exact ⟨0, task.current ▸ task.cap, rfl⟩
  | cons c rest ih =>
    rw [Runs.outputs, attemptsOf_append]
    cases taken : w.next c with
    | none =>
      rw [issued_undefined taken]
      have task := booked.task kind i t below found
      exact ⟨0, task.current ▸ task.cap, rfl⟩
    | some next =>
      have kept := next_booked booked taken
      obtain ⟨r, returned, rfl⟩ := Option.map_eq_some_iff.mp taken
      obtain ⟨t', first, after, current, now⟩ := issued_next booked returned found
      rw [← (callback_effect returned).job.total kind] at below
      obtain ⟨n, cap, later⟩ := ih kept below after
      refine ⟨first + n, by omega, ?_⟩
      rw [now, later, current, ← List.range'_append_1, Nat.add_right_comm]

theorem outputs_outside {callbacks : List Callback} {w : World} (booked : w.master.Booked) {kind : TaskKind}
    {i : Nat} (outside : w.master.job.total kind ≤ i) :
    attemptsOf kind i (Runs.outputs World.next issued w callbacks) = [] := by
  induction callbacks generalizing w with
  | nil => rfl
  | cons c rest ih =>
    rw [Runs.outputs, attemptsOf_append]
    cases taken : w.next c with
    | none =>
      rw [issued_undefined taken]
      rfl
    | some next =>
      have kept := next_booked booked taken
      obtain ⟨r, returned, rfl⟩ := Option.map_eq_some_iff.mp taken
      have past : r.master.job.total kind ≤ i := (callback_effect returned).job.total kind ▸ outside
      have now : attemptsOf kind i (issued w c).toList = [] := by
        rcases issued_cases booked returned with ⟨silent, _⟩ | ⟨k, j, _, _, below, _, handed, _⟩
        · rw [silent]
          rfl
        · rw [handed]
          apply attemptsOf_other
          rintro mine
          cases mine
          omega
      rw [now, ih kept past, List.append_nil]

/-- Within one incarnation the responses hand out the attempts 1, 2, ... of every task in order,
never one of them twice, and never more than the cap. -/
theorem attempts_never_reissued {config : MasterConfig} {m : Master} (booted : Booted config m) (log : Bytes)
    (aofFd now realtime : Int) (callbacks : List Callback) :
    (Runs.outputs World.next issued (World.boot m log aofFd now realtime) callbacks).Nodup ∧
    ∀ kind i, ∃ n ≤ maxAttempts,
      attemptsOf kind i (Runs.outputs World.next issued (World.boot m log aofFd now realtime) callbacks) =
        List.range' 1 n := by
  have booked := booted.booked log aofFd now realtime
  have each : ∀ kind i, ∃ n ≤ maxAttempts,
      attemptsOf kind i (Runs.outputs World.next issued (World.boot m log aofFd now realtime) callbacks) =
        List.range' 1 n := by
    intro kind i
    by_cases below : i < (World.boot m log aofFd now realtime).master.job.total kind
    · obtain ⟨t, found⟩ := Master.task?_isSome _ (Nat.lt_of_lt_of_le below (booked.totals kind))
      obtain ⟨n, cap, attempts⟩ := outputs_attempts booked below found
      rw [World.boot_task?] at found
      rw [(booted.unused.slot found).current] at cap attempts
      exact ⟨n, by omega, attempts⟩
    · exact ⟨0, Nat.zero_le _, outputs_outside booked (Nat.not_lt.mp below)⟩
  refine ⟨nodup_of_attempts ?_, each⟩
  intro kind i
  obtain ⟨n, _, attempts⟩ := each kind i
  rw [attempts]
  exact List.nodup_range'

/-- The first attempt fails, the response with the second cannot be queued, and the next request
gets the other map. -/
def retryRun : List Callback :=
  [.connect workerA, askFrom workerA, reportFrom workerA 0 1 1,
    .message workerA [RpcKind.getTaskReq.code] ⟨.full, [], true⟩, askFrom workerA]

theorem attempts_never_reissued_retry :
    ∃ m, masterInitJob (Master.zero pairConfig) pairEntries = some m ∧
      Runs.outputs World.next issued (World.boot m [] 3 0 0) retryRun =
        [(.map, 0, 1), (.map, 0, 2), (.map, 1, 1)] ∧
      (Runs.outputs World.next issued (World.boot m [] 3 0 0) retryRun).Nodup := by
  have ran : (masterInitJob (Master.zero pairConfig) pairEntries).any (fun m =>
      Runs.outputs World.next issued (World.boot m [] 3 0 0) retryRun ==
        [(.map, 0, 1), (.map, 0, 2), (.map, 1, 1)]) = true := by
    decide +kernel
  obtain ⟨m, ready, ran⟩ := (Option.any_eq_true _ _).mp ran
  exact ⟨m, ready, beq_iff_eq.mp ran, (attempts_never_reissued (.fresh ready) [] 3 0 0 retryRun).1⟩

end MapReduce
