import MapReduce.Master

/-! The master together with workers that follow `worker.c`.

Each connection carries one request at a time: the worker asks, receives a
task, runs it for as long as it likes, reports what it was handed exactly once,
and waits for the acknowledgement. A worker that dies takes no further step, and
the master sees the disconnect at some later point, or never.

`trace` and `records` are bookkeeping that no step reads: which connection was
handed and has reported which task, and every record passed to the log with the
number of its bytes that were stored.
-/

set_option autoImplicit false

namespace MapReduce

/-! ## The worker's side of a connection -/

inductive TaskResponse where
  | task (kind : TaskKind) (taskId attemptId : UInt32)
  | wait
  | done
  deriving DecidableEq, Repr

/-- The decoding half of `get_task_req`. -/
def decodeResponse (payload : Bytes) : Option TaskResponse :=
  match rpcPeekKind payload with
  | some .taskMapResp => (rpcDecodeTaskMapResp payload.tail).map fun msg => .task .map msg.taskId msg.attemptId
  | some .taskReduceResp => (rpcDecodeTaskReduceResp payload.tail).map fun msg =>
      .task .reduce msg.taskId msg.attemptId
  | some .waitResp => (rpcDecodeWaitResp payload.tail).map fun _ => .wait
  | some .doneResp => some .done
  | _ => none

/-- Where the main loop of a worker stands, with the message in flight if there is one. -/
inductive Conn where
  | closed
  | idle
  | requested
  | answered (payload : Bytes)
  | running (kind : TaskKind) (taskId attemptId : UInt32)
  | reported (kind : TaskKind) (msg : TaskDoneReq)
  | acked (payload : Bytes)
  | exited
  deriving DecidableEq, Repr

def Conn.outgoing : Conn → Option Bytes
  | .requested => rpcEncodeGetTaskReq msgMax
  | .reported _ msg => rpcEncodeTaskDoneReq msgMax msg
  | _ => none

theorem Conn.outgoing_some {conn : Conn} {payload : Bytes} (outgoing : conn.outgoing = some payload) :
    (conn = .requested ∧ payload = [RpcKind.getTaskReq.code]) ∨
      ∃ kind msg, conn = .reported kind msg ∧ payload = RpcKind.taskDoneReq.code :: msg.body := by
  cases conn with
  | requested =>
    cases outgoing
    exact .inl ⟨rfl, rfl⟩
  | reported kind msg => exact .inr ⟨kind, msg, rfl, Option.some.inj (outgoing.symm.trans (rpcEncodeTaskDoneReq_eq msg))⟩
  | closed | idle | answered | running | acked | exited => cases outgoing

def Conn.replied (conn : Conn) (payload : Bytes) : Conn :=
  match conn with
  | .requested => .answered payload
  | _ => .acked payload

/-- The worker reads a response: it starts the task, asks again after a wait, or exits. -/
def Conn.received (payload : Bytes) : Conn :=
  match decodeResponse payload with
  | some (.task kind taskId attemptId) => .running kind taskId attemptId
  | some .wait => .idle
  | some .done | none => .exited

/-! ## States and steps -/

inductive Happened where
  | handed (serial : Nat) (kind : TaskKind) (task attempt : Nat)
  | reported (serial : Nat) (kind : TaskKind) (task attempt : Nat) (result : UInt8)
  deriving DecidableEq, Repr

structure Cluster where
  world : World
  conns : Fd → Conn
  /-- Descriptors are reused; the serial number tells connections apart. -/
  serial : Fd → Nat
  opened : Nat
  trace : List Happened
  records : List (AofRecord × Nat)

def Cluster.start (config : MasterConfig) (job : JobDef) (fd : Nat) (createdMs : UInt64) (now realtime : Int) :
    Cluster where
  world := World.start config job fd createdMs now realtime
  conns _ := .closed
  serial _ := 0
  opened := 0
  trace := []
  records := []

def Cluster.setConn (c : Cluster) (fd : Fd) (conn : Conn) : Cluster :=
  { c with conns := Function.update c.conns fd conn }

theorem Cluster.setConn_self (c : Cluster) (fd : Fd) (conn : Conn) : (c.setConn fd conn).conns fd = conn :=
  Function.update_self _ _ _

theorem Cluster.setConn_ne (c : Cluster) {fd other : Fd} (conn : Conn) (differs : other ≠ fd) :
    (c.setConn fd conn).conns other = c.conns other :=
  Function.update_of_ne differs _ _

def Cluster.setMaster (c : Cluster) (m : Master) : Cluster := { c with world := { c.world with master := m } }

def Cluster.observe (c : Cluster) (events : List Happened) : Cluster := { c with trace := c.trace ++ events }

theorem Cluster.observe_nil (c : Cluster) : c.observe [] = c := by
  simp [observe]

inductive Action where
  | connect (fd : Fd)
  | ask (fd : Fd)
  | deliver (fd : Fd) (env : Env)
  | receive (fd : Fd)
  | finish (fd : Fd) (success : Bool)
  | confirm (fd : Fd)
  | disconnect (fd : Fd)
  | periodic (now realtime : Int)
  deriving DecidableEq, Repr

def handedBy (serial : Nat) (sent : Option Bytes) : List Happened :=
  match sent.bind decodeResponse with
  | some (.task kind taskId attemptId) => [.handed serial kind taskId.toNat attemptId.toNat]
  | _ => []

def recordedBy (conn : Conn) (slot : Worker) (env : Env) (r : Reply) : List (AofRecord × Nat) :=
  match conn, r.marked with
  | .reported _ msg, some _ => [(AofRecord.of msg slot.currentKind, WriteResult.accepted env.write aofRecordSize)]
  | _, _ => []

/-- `process_buffer` after `on_message`: a failed callback removes the client. -/
def Cluster.delivered (c : Cluster) (fd : Fd) (env : Env) (r : Reply) : Cluster :=
  let after := { c with
    world := r.toWorld
    trace := c.trace ++ handedBy (c.serial fd) r.sent
    records := c.records ++ recordedBy (c.conns fd) (c.world.master.workers fd) env r }
  match r.ok, r.sent with
  | true, some payload => after.setConn fd ((c.conns fd).replied payload)
  | _, _ => (after.setMaster (masterOnDisconnect r.master fd)).setConn fd .closed

def Cluster.next (c : Cluster) : Action → Option Cluster
  | .connect fd =>
    if c.conns fd = .closed then
      let c := { c with serial := Function.update c.serial fd c.opened, opened := c.opened + 1 }
      some ((c.setMaster (masterOnConnect c.world.master fd)).setConn fd .idle)
    else none
  -- One outstanding request: a worker asks only when nothing is in flight.
  | .ask fd => if c.conns fd = .idle then some (c.setConn fd .requested) else none
  | .deliver fd env => do
    let payload ← (c.conns fd).outgoing
    let r ← callback c.world (.message fd payload env)
    some (c.delivered fd env r)
  | .receive fd =>
    match c.conns fd with
    | .answered payload => some (c.setConn fd (.received payload))
    | _ => none
  | .finish fd success =>
    match c.conns fd with
    | .running kind taskId attemptId =>
      -- The report carries back the ids of the response.
      let msg : TaskDoneReq := ⟨taskId, attemptId, if success then 0 else 1⟩
      some ((c.observe [.reported (c.serial fd) kind taskId.toNat attemptId.toNat msg.result]).setConn fd
        (.reported kind msg))
    | _ => none
  | .confirm fd =>
    match c.conns fd with
    | .acked payload =>
      some (c.setConn fd (if rpcPeekKind payload = some .taskDoneAck then .idle else .exited))
    | _ => none
  | .disconnect fd =>
    if c.conns fd = .closed then none
    else some ((c.setMaster (masterOnDisconnect c.world.master fd)).setConn fd .closed)
  | .periodic now realtime =>
    -- The monotonic clock does not go back.
    if c.world.master.nowMs ≤ now then
      (callback c.world (.periodic now realtime)).map fun r => { c with world := r.toWorld }
    else none

/-! ## Crashes -/

/-- A step of the cluster, or a crash of the master and its restart from the log. -/
inductive Incident where
  | action (action : Action)
  | crash (aofFd : Nat) (now realtime : Int)
  deriving DecidableEq, Repr

/-- After a crash every connection is gone, and the master boots from the log it left. -/
def Cluster.survive (c : Cluster) : Incident → Option Cluster
  | .action action => c.next action
  | .crash aofFd now realtime =>
    (masterBootstrapJob c.world.master.config [] c.world.log (.good aofFd 0)).map fun w =>
      { c with world := { w with master := masterInit w.master now realtime }, conns := fun _ => .closed }

/-- Every write to the log and every flush succeeds. -/
def Incident.LogWritten : Incident → Prop
  | .action (.deliver _ env) => WriteResult.accepted env.write aofRecordSize = aofRecordSize ∧ env.flush = true
  | _ => True

instance Incident.LogWritten.decidable : (incident : Incident) → Decidable incident.LogWritten
  | .action (.deliver _ env) =>
    inferInstanceAs (Decidable (WriteResult.accepted env.write aofRecordSize = aofRecordSize ∧ env.flush = true))
  | .action (.connect _) | .action (.ask _) | .action (.receive _) | .action (.finish _ _) | .action (.confirm _)
  | .action (.disconnect _) | .action (.periodic _ _) | .crash _ _ _ => .isTrue trivial

end MapReduce
