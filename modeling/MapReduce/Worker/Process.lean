import MapReduce.Cluster
import MapReduce.Server.Callbacks

/-! A worker process between two calls to the kernel.

`main` of `worker.c` speaks over a blocking socket. `write_all` hands a frame
over in as many writes as the kernel makes of it; `read_exact` waits for the
four bytes of the header and then for the payload they announce. A call that is
interrupted is made again and changes nothing; a call that fails ends the
process, and so does a signal.
-/

set_option autoImplicit false

namespace MapReduce

/-- What a request asks for, with what the caller still holds: nothing, or the task that is reported. -/
inductive Exchange where
  | getTask
  | taskDone (kind : TaskKind) (msg : TaskDoneReq)
  deriving DecidableEq, Repr

def Exchange.request : Exchange → Option Bytes
  | .getTask => rpcEncodeGetTaskReq msgMax
  | .taskDone _ msg => rpcEncodeTaskDoneReq msgMax msg

/-- Where `main` stands: inside `write_all` with the bytes that are left, inside `recv_framed` with those it has,
in the task, asleep, or at its end. -/
inductive Point where
  | sending (exchange : Exchange) (left : Bytes)
  | receiving (exchange : Exchange) (got : Bytes)
  | working (kind : TaskKind) (taskId attemptId : UInt32)
  | sleeping
  | exited
  deriving DecidableEq, Repr

/-- `send_framed` up to its first write. -/
def Point.send (exchange : Exchange) : Point :=
  match exchange.request with
  | none => .exited
  | some payload => if payload.length > msgMax then .exited else .sending exchange (frame payload)

/-- How many bytes `recv_framed` asks for next: the rest of the header, then the rest of the payload. -/
def wanted (got : Bytes) : Nat :=
  if got.length < frameHdrSize then frameHdrSize - got.length
  else frameHdrSize + BigEndian.value (got.take frameHdrSize) - got.length

/-- What `main` does with a response: the end of `get_task_req`, or of `report_task_done`. -/
def Exchange.answered : Exchange → Bytes → Point
  | .getTask, payload =>
    match decodeResponse payload with
    | some (.task kind taskId attemptId) => .working kind taskId attemptId
    | some .wait => .sleeping
    | some .done | none => .exited
  | .taskDone _ _, payload => if rpcPeekKind payload = some .taskDoneAck then .send .getTask else .exited

/-- `recv_framed` with the bytes it has by now. A payload of no bytes needs no further read. -/
def Point.receive (exchange : Exchange) (got : Bytes) : Point :=
  match frontFrame got with
  | .short => .receiving exchange got
  | .oversize => .exited
  | .message payload => exchange.answered payload

/-- The process, with all it has written to its socket and the number of bytes it has read from it. -/
structure Process where
  point : Point
  alive : Bool
  written : Bytes
  consumed : Nat
  deriving DecidableEq, Repr

def Process.start : Process := ⟨.send .getTask, true, [], 0⟩

inductive Call where
  | write (n : Nat)
  | read (n : Nat)
  | finish (success : Bool)
  | wake
  | quit
  deriving DecidableEq, Repr

/-- One call that returns, where the given bytes have arrived and are not read yet. -/
def Process.next (p : Process) (available : Bytes) (call : Call) : Option Process :=
  if p.alive then
    match call, p.point with
    | .write n, .sending exchange left =>
      if n = 0 ∨ n > left.length then none
      else some { p with
        written := p.written ++ left.take n
        point := if n = left.length then .receiving exchange [] else .sending exchange (left.drop n) }
    | .read n, .receiving exchange got =>
      if n = 0 ∨ n > wanted got ∨ n > available.length then none
      else some { p with
        consumed := p.consumed + n
        point := .receive exchange (got ++ available.take n) }
    -- `worker_map_run` or `worker_reduce_run` returns, and the report is written.
    | .finish success, .working kind taskId attemptId =>
      some { p with point := .send (.taskDone kind ⟨taskId, attemptId, if success then 0 else 1⟩) }
    | .wake, .sleeping => some { p with point := .send .getTask }
    | .quit, _ => some { p with alive := false }
    | _, _ => none
  else none

inductive Process.Step (p : Process) (available : Bytes) : Call → Process → Prop where
  | wrote {exchange : Exchange} {left : Bytes} {n : Nat} (at_point : p.point = .sending exchange left)
      (inside : n ≤ left.length) : Step p available (.write n) { p with
        written := p.written ++ left.take n
        point := if n = left.length then .receiving exchange [] else .sending exchange (left.drop n) }
  | took {exchange : Exchange} {got : Bytes} {n : Nat} (at_point : p.point = .receiving exchange got)
      (some_byte : n ≠ 0) (inside : n ≤ available.length) : Step p available (.read n) { p with
        consumed := p.consumed + n
        point := .receive exchange (got ++ available.take n) }
  | finished {kind : TaskKind} {taskId attemptId : UInt32} {success : Bool}
      (at_point : p.point = .working kind taskId attemptId) : Step p available (.finish success) { p with
        point := .send (.taskDone kind ⟨taskId, attemptId, if success then 0 else 1⟩) }
  | woke (at_point : p.point = .sleeping) : Step p available .wake { p with point := .send .getTask }
  | quit : Step p available .quit { p with alive := false }

theorem Process.next_step {p p' : Process} {available : Bytes} {call : Call}
    (taken : p.next available call = some p') : p.Step available call p' := by
  unfold Process.next at taken
  split at taken
  · split at taken
    next at_point =>
      split at taken
      · cases taken
      · cases taken
        exact .wrote at_point (by omega)
    next at_point =>
      split at taken
      · cases taken
      · cases taken
        exact .took at_point (by omega) (by omega)
    next at_point =>
      cases taken
      exact .finished at_point
    next at_point =>
      cases taken
      exact .woke at_point
    · cases taken
      exact .quit
    · cases taken
  · cases taken

/-! ## Requests -/

def Exchange.payload : Exchange → Bytes
  | .getTask => [RpcKind.getTaskReq.code]
  | .taskDone _ msg => RpcKind.taskDoneReq.code :: msg.body

theorem Exchange.request_eq (exchange : Exchange) : exchange.request = some exchange.payload := by
  cases exchange with
  | getTask => rfl
  | taskDone kind msg => exact rpcEncodeTaskDoneReq_eq msg

theorem Exchange.payload_small (exchange : Exchange) : exchange.payload.length ≤ msgMax := by
  cases exchange with
  | getTask => decide
  | taskDone kind msg => simp [payload, TaskDoneReq.body, msgMax]

theorem Point.send_eq (exchange : Exchange) : Point.send exchange = .sending exchange (frame exchange.payload) := by
  have small := exchange.payload_small
  rw [send, exchange.request_eq]
  exact if_neg (by omega)

end MapReduce
