import MapReduce.Bookkeeping
import MapReduce.Safety

/-! What the master sends, and what a worker makes of it.

`main` of `worker.c` passes the fields of a response on as they are. Neither
`worker_map_run` nor `worker_reduce_run` checks them: the former has arrays of
`MAX_REDUCE_TASKS` slots, the latter asserts that there is a map. Whatever the
clients of the master send, its responses are about its own job.
-/

set_option autoImplicit false

namespace MapReduce

inductive Response where
  | map (msg : TaskMapResp)
  | reduce (msg : TaskReduceResp)
  | wait (msg : WaitResp)
  | done
  deriving DecidableEq, Repr

/-- `get_task_req` behind `recv_framed`. -/
def taskResponse (payload : Bytes) : Option Response :=
  match rpcPeekKind payload with
  | some .taskMapResp => (rpcDecodeTaskMapResp payload.tail).map .map
  | some .taskReduceResp => (rpcDecodeTaskReduceResp payload.tail).map .reduce
  | some .waitResp => (rpcDecodeWaitResp payload.tail).map .wait
  | some .doneResp => some .done
  | _ => none

def Response.task : Response → TaskResponse
  | .map msg => .task .map msg.taskId msg.attemptId
  | .reduce msg => .task .reduce msg.taskId msg.attemptId
  | .wait _ => .wait
  | .done => .done

theorem decodeResponse_eq (payload : Bytes) : decodeResponse payload = (taskResponse payload).map Response.task := by
  unfold decodeResponse taskResponse
  cases rpcPeekKind payload with
  | none => rfl
  | some kind => cases kind <;> simp [Option.map_map, Function.comp_def, Response.task]

/-! ## One response -/

/-- The response names a task of this master and its next attempt, with the sizes and the input the master has. -/
def Response.About (m : Master) : Response → Prop
  | .map msg => msg.taskId.toNat < m.job.M ∧ msg.nReduce.toNat = m.job.R ∧ ∃ t,
      m.task? .map msg.taskId.toNat = some t ∧ msg.attemptId.toNat = t.currentAttempt + 1 ∧
        msg.attemptId.toNat ≤ maxAttempts ∧ msg.inputPath = t.inputPath
  | .reduce msg => msg.taskId.toNat < m.job.R ∧ msg.nMap.toNat = m.job.M ∧ ∃ t,
      m.task? .reduce msg.taskId.toNat = some t ∧ msg.attemptId.toNat = t.currentAttempt + 1 ∧
        msg.attemptId.toNat ≤ maxAttempts
  | .wait _ | .done => True

/-- The totals fit their tables and the paths fit the messages, and a task that waits has an attempt left. -/
structure Master.Answers (m : Master) : Prop where
  totals : ∀ kind, m.job.total kind ≤ kind.capacity
  path : ∀ i t, m.task? .map i = some t → t.inputPath.length = t.inputPathLen ∧ t.inputPathLen < mapreducePathMax
  room : ∀ kind i t, i < m.job.total kind → m.task? kind i = some t → t.state = .pending →
    t.currentAttempt < maxAttempts

theorem Master.Booked.answers {m : Master} (booked : m.Booked) : m.Answers where
  totals := booked.totals
  path := booked.path
  room kind i t below found pending := by
    have task := booked.task kind i t below found
    exact task.current ▸ task.room pending

theorem taskResp_about {m : Master} (answers : m.Answers) {kind : TaskKind} {i : Nat} {t : Task} (fd : Fd)
    (below : i < m.job.total kind) (found : m.task? kind i = some t) (pending : t.state = .pending) :
    ∃ payload response, taskResp (m.handOut kind i t fd) kind i (t.assigned fd m.nowMs) = some payload ∧
      taskResponse payload = some response ∧ response.About m ∧
      response.task = .task kind (UInt32.ofNat i) (UInt32.ofNat (t.currentAttempt + 1)) := by
  have next : t.currentAttempt + 1 ≤ maxAttempts := answers.room kind i t below found pending
  have fewMaps : m.job.M ≤ 256 := answers.totals .map
  have fewReduces : m.job.R ≤ 64 := answers.totals .reduce
  have attempt : (UInt32.ofNat (t.currentAttempt + 1)).toNat = t.currentAttempt + 1 := by
    apply toNat_ofNat_small
    simp only [maxAttempts] at next
    omega
  have job : (m.handOut kind i t fd).job = m.job := Master.setTask_job _ _ _ _
  cases kind with
  | map =>
    have inside : i < m.job.M := below
    have index : (UInt32.ofNat i).toNat = i := toNat_ofNat_small (by omega)
    obtain ⟨length, short⟩ := answers.path i t found
    let msg : TaskMapResp := ⟨UInt32.ofNat i, UInt32.ofNat (t.currentAttempt + 1), UInt32.ofNat m.job.R,
      UInt16.ofNat t.inputPathLen, t.inputPath.take t.inputPathLen⟩
    have len : msg.inputPathLen.toNat = t.inputPathLen := by
      simp only [mapreducePathMax] at short
      simp only [msg, UInt16.toNat_ofNat']
      omega
    have whole : msg.inputPath = t.inputPath := List.take_of_length_le (Nat.le_of_eq length)
    have fits : msg.inputPathLen.toNat < mapreducePathMax := by rw [len]; exact short
    refine ⟨RpcKind.taskMapResp.code :: msg.body, .map msg, ?_, ?_, ⟨?_, ?_, t, ?_, ?_, ?_, whole⟩, rfl⟩
    · simp only [taskResp, job]
      exact rpcEncodeTaskMapResp_eq msg fits
    · have decoded := rpcDecodeTaskMapResp_body msg fits (by rw [len, whole, length])
      have peeked : rpcPeekKind (RpcKind.taskMapResp.code :: msg.body) = some .taskMapResp := rfl
      simp only [taskResponse, peeked, List.tail_cons, decoded, Option.map_some]
    · rwa [index]
    · exact toNat_ofNat_small (by omega)
    · rwa [index]
    · exact attempt
    · exact attempt ▸ next
  | reduce =>
    have inside : i < m.job.R := below
    have index : (UInt32.ofNat i).toNat = i := toNat_ofNat_small (by omega)
    let msg : TaskReduceResp := ⟨UInt32.ofNat i, UInt32.ofNat (t.currentAttempt + 1), UInt32.ofNat m.job.M⟩
    refine ⟨RpcKind.taskReduceResp.code :: msg.body, .reduce msg, ?_, ?_, ⟨?_, ?_, t, ?_, ?_, ?_⟩, rfl⟩
    · simp only [taskResp, job]
      exact rpcEncodeTaskReduceResp_eq msg
    · have decoded := rpcDecodeTaskReduceResp_body msg
      have peeked : rpcPeekKind (RpcKind.taskReduceResp.code :: msg.body) = some .taskReduceResp := rfl
      simp only [taskResponse, peeked, List.tail_cons, decoded, Option.map_some]
    · rwa [index]
    · exact toNat_ofNat_small (by omega)
    · rwa [index]
    · exact attempt
    · exact attempt ▸ next

theorem taskResponse_wait (msg : WaitResp) :
    taskResponse (RpcKind.waitResp.code :: BigEndian.encode 4 msg.waitMs.toNat) = some (.wait msg) := by
  have last := bufReadU32_append msg.waitMs []
  rw [List.append_nil] at last
  have decoded : rpcDecodeWaitResp (BigEndian.encode 4 msg.waitMs.toNat) = some msg := by
    simp [rpcDecodeWaitResp, last]
  have peeked : rpcPeekKind (RpcKind.waitResp.code :: BigEndian.encode 4 msg.waitMs.toNat) = some .waitResp := rfl
  simp only [taskResponse, peeked, List.tail_cons, decoded, Option.map_some]

theorem masterHandleGetTask_about {w : World} (answers : w.master.Answers) {fd : Fd} {env : Env} {r : Reply}
    {payload : Bytes} (handled : masterHandleGetTask w fd env = some r) (sent : r.sent = some payload) :
    ∃ response, taskResponse payload = some response ∧ response.About w.master := by
  rcases masterHandleGetTask_cases handled with ⟨buf, plain, rfl⟩ | ⟨kind, i, t, _, below, found, pending, rfl⟩
  · obtain ⟨encoded, _⟩ := respond_sent sent
    rcases plain with rfl | ⟨msg, rfl⟩
    · cases encoded
      exact ⟨.done, rfl, trivial⟩
    · rw [rpcEncodeWaitResp_eq] at encoded
      cases encoded
      exact ⟨.wait msg, taskResponse_wait msg, trivial⟩
  · obtain ⟨encoded, _⟩ := respond_sent sent
    obtain ⟨payload', response, same, read, about, _⟩ := taskResp_about answers fd below found pending
    cases same.symm.trans encoded
    exact ⟨response, read, about⟩

/-! ## Whole runs -/

/-- The totals and the input paths are those of the earlier master. -/
structure SameJob (earlier later : Master) : Prop where
  total : ∀ kind, later.job.total kind = earlier.job.total kind
  path : ∀ i t t', earlier.task? .map i = some t → later.task? .map i = some t' → t'.inputPath = t.inputPath

theorem SameJob.refl (m : Master) : SameJob m m :=
  ⟨fun _ => rfl, fun _ _ _ found found' => by cases found.symm.trans found'; rfl⟩

theorem Effect.sameJob {m : Master} {w : World} {c : Callback} {r : Reply} (effect : Effect w c r)
    (same : SameJob m w.master) : SameJob m r.master where
  total kind := (effect.job.total kind).trans (same.total kind)
  path i t t' found found' := by
    obtain ⟨u, before, move⟩ := effect.task_before found'
    exact move.path.1.trans (same.path i t u found before)

/-- What a worker relies on, in terms of the master that booted. -/
def Response.Fits (m : Master) : Response → Prop
  | .map msg => msg.taskId.toNat < m.job.M ∧ (1 ≤ msg.attemptId.toNat ∧ msg.attemptId.toNat ≤ maxAttempts) ∧
      (msg.nReduce.toNat = m.job.R ∧ msg.nReduce.toNat ≤ maxReduceTasks) ∧
      ∃ t, m.task? .map msg.taskId.toNat = some t ∧ msg.inputPath = t.inputPath
  | .reduce msg => msg.taskId.toNat < m.job.R ∧ (1 ≤ msg.attemptId.toNat ∧ msg.attemptId.toNat ≤ maxAttempts) ∧
      msg.nMap.toNat = m.job.M
  | .wait _ | .done => True

theorem Response.About.fits {m now : Master} {response : Response} (about : response.About now) (answers : now.Answers)
    (same : SameJob m now) : response.Fits m := by
  have maps : now.job.M = m.job.M := same.total .map
  have reduces : now.job.R = m.job.R := same.total .reduce
  cases response with
  | map msg =>
    obtain ⟨below, partitions, t', found', attempt, cap, path⟩ := about
    have few : now.job.R ≤ maxReduceTasks := answers.totals .reduce
    obtain ⟨t, found⟩ := m.task?_isSome (Master.lt_capacity found')
    refine ⟨maps ▸ below, ⟨by omega, cap⟩, ⟨reduces ▸ partitions, by omega⟩, t, found, ?_⟩
    exact path.trans (same.path _ t t' found found')
  | reduce msg =>
    obtain ⟨below, inputs, t, _, attempt, cap⟩ := about
    exact ⟨reduces ▸ below, ⟨by omega, cap⟩, maps ▸ inputs⟩
  | wait | done => trivial

/-- Whatever the clients send, a request is answered with a response that the worker can read and that fits the
job the master booted with, and a report with an acknowledgement. -/
theorem responses_fit {config : MasterConfig} {m : Master} (booted : Booted config m) (log : Bytes)
    (aofFd now realtime : Int) {callbacks : List Callback} {w : World}
    (reached : Runs.run World.next (World.boot m log aofFd now realtime) callbacks = some w)
    {fd : Fd} {bytes : Bytes} {env : Env} {r : Reply} {payload : Bytes}
    (returned : callback w (.message fd bytes env) = some r) (sent : r.sent = some payload) :
    (rpcPeekKind bytes = some .getTaskReq ∧ ∃ response, taskResponse payload = some response ∧ response.Fits m) ∨
      (rpcPeekKind bytes = some .taskDoneReq ∧ payload = [RpcKind.taskDoneAck.code]) := by
  have start : SameJob m (World.boot m log aofFd now realtime).master :=
    ⟨fun kind => by cases kind <;> rfl, (SameJob.refl m).path⟩
  have keep : ∀ (w : World) (c : Callback) (w' : World), w.master.Booked ∧ SameJob m w.master →
      w.next c = some w' → w'.master.Booked ∧ SameJob m w'.master := by
    rintro w c w' ⟨booked, same⟩ taken
    obtain ⟨r, returned, rfl⟩ := Option.map_eq_some_iff.mp taken
    exact ⟨(callback_effect returned).booked booked, (callback_effect returned).sameJob same⟩
  have holds := Runs.run_invariant keep ⟨booted.booked log aofFd now realtime, start⟩ reached
  simp only [callback, masterOnMessage] at returned
  split at returned
  next asked =>
    obtain ⟨response, read, about⟩ := masterHandleGetTask_about holds.1.answers returned sent
    exact .inl ⟨asked, response, read, about.fits holds.1.answers holds.2⟩
  next told =>
    refine .inr ⟨told, ?_⟩
    split at returned
    · cases returned
      cases sent
    · rcases masterHandleTaskDone_cases returned with helped | ⟨-, rfl⟩
      · rw [taskDoneHelper_sent helped] at sent
        split at sent
        · exact (Option.some.inj sent).symm
        · cases sent
      · cases sent
  · cases returned
    cases sent

theorem responses_fit_pair :
    ∃ m w r payload, masterInitJob (Master.zero pairConfig) pairEntries = some m ∧
      Runs.run World.next (World.boot m [] 3 0 0) [.connect workerA] = some w ∧
      callback w (askFrom workerA) = some r ∧ r.sent = some payload ∧
      ((rpcPeekKind [RpcKind.getTaskReq.code] = some .getTaskReq ∧
          ∃ response, taskResponse payload = some response ∧ response.Fits m) ∨
        (rpcPeekKind [RpcKind.getTaskReq.code] = some .taskDoneReq ∧ payload = [RpcKind.taskDoneAck.code])) := by
  have ran : (masterInitJob (Master.zero pairConfig) pairEntries).any (fun m =>
      (Runs.run World.next (World.boot m [] 3 0 0) [.connect workerA]).any fun w =>
        (callback w (askFrom workerA)).any fun r => r.sent.isSome) = true := by
    decide +kernel
  obtain ⟨m, ready, ran⟩ := (Option.any_eq_true _ _).mp ran
  obtain ⟨w, reached, ran⟩ := (Option.any_eq_true _ _).mp ran
  obtain ⟨r, returned, replied⟩ := (Option.any_eq_true _ _).mp ran
  obtain ⟨payload, sent⟩ := Option.isSome_iff_exists.mp replied
  exact ⟨m, w, r, payload, ready, reached, returned, sent,
    responses_fit (.fresh ready) [] 3 0 0 reached returned sent⟩

end MapReduce
