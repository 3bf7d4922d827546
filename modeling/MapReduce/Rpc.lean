import MapReduce.Task

/-! The wire format of `rpc.c`: field primitives, message codecs and the kind byte.

An encoder appends fields to the bytes written so far and fails when the next
field would overrun the capacity. A decoder receives the body after the kind
byte and has to consume all of it.
-/

set_option autoImplicit false

namespace MapReduce

inductive RpcKind where
  | getTaskReq
  | taskMapResp
  | taskReduceResp
  | waitResp
  | doneResp
  | taskDoneReq
  | taskDoneAck
  deriving DecidableEq, Repr

def RpcKind.code : RpcKind → UInt8
  | .getTaskReq => 1
  | .taskMapResp => 2
  | .taskReduceResp => 3
  | .waitResp => 4
  | .doneResp => 5
  | .taskDoneReq => 6
  | .taskDoneAck => 7

structure TaskMapResp where
  taskId : UInt32
  attemptId : UInt32
  nReduce : UInt32
  inputPathLen : UInt16
  inputPath : Bytes
  deriving DecidableEq, Repr

structure TaskReduceResp where
  taskId : UInt32
  attemptId : UInt32
  nMap : UInt32
  deriving DecidableEq, Repr

structure WaitResp where
  waitMs : UInt32
  deriving DecidableEq, Repr

-- `result` is 0 for success; every other value counts as a failure.
structure TaskDoneReq where
  taskId : UInt32
  attemptId : UInt32
  result : UInt8
  deriving DecidableEq, Repr

/-! ## Byte-buffer primitives -/

def bufWrite (cap : Nat) (out field : Bytes) : Option Bytes :=
  if cap - out.length < field.length then none else some (out ++ field)

def bufWriteU8 (cap : Nat) (out : Bytes) (v : UInt8) : Option Bytes := bufWrite cap out [v]

def bufWriteU16 (cap : Nat) (out : Bytes) (v : UInt16) : Option Bytes :=
  bufWrite cap out (BigEndian.encode 2 v.toNat)

def bufWriteU32 (cap : Nat) (out : Bytes) (v : UInt32) : Option Bytes :=
  bufWrite cap out (BigEndian.encode 4 v.toNat)

def bufWriteBytes (cap : Nat) (out src : Bytes) (n : Nat) : Option Bytes :=
  bufWrite cap out (src.take n)

def bufRead (n : Nat) (p : Bytes) : Option (Bytes × Bytes) :=
  if p.length < n then none else some (p.take n, p.drop n)

def bufReadU8 (p : Bytes) : Option (UInt8 × Bytes) := do
  let (field, rest) ← bufRead 1 p
  return (UInt8.ofNat (BigEndian.value field), rest)

def bufReadU16 (p : Bytes) : Option (UInt16 × Bytes) := do
  let (field, rest) ← bufRead 2 p
  return (UInt16.ofNat (BigEndian.value field), rest)

def bufReadU32 (p : Bytes) : Option (UInt32 × Bytes) := do
  let (field, rest) ← bufRead 4 p
  return (UInt32.ofNat (BigEndian.value field), rest)

def bufReadBytes (n : Nat) (p : Bytes) : Option (Bytes × Bytes) := bufRead n p

/-! ## Kind peek -/

def rpcPeekKind : Bytes → Option RpcKind
  | [] => none
  | k :: _ =>
    match k.toNat with
    | 1 => some .getTaskReq
    | 2 => some .taskMapResp
    | 3 => some .taskReduceResp
    | 4 => some .waitResp
    | 5 => some .doneResp
    | 6 => some .taskDoneReq
    | 7 => some .taskDoneAck
    | _ => none

/-! ## Encoders -/

/-- The three messages without a body are their kind byte. -/
def rpcEncodeEmpty (kind : RpcKind) (cap : Nat) : Option Bytes := bufWriteU8 cap [] kind.code

def rpcEncodeGetTaskReq (cap : Nat) : Option Bytes := rpcEncodeEmpty .getTaskReq cap
def rpcEncodeDoneResp (cap : Nat) : Option Bytes := rpcEncodeEmpty .doneResp cap
def rpcEncodeTaskDoneAck (cap : Nat) : Option Bytes := rpcEncodeEmpty .taskDoneAck cap

def rpcEncodeTaskMapResp (cap : Nat) (msg : TaskMapResp) : Option Bytes := do
  -- One byte is reserved for the receiver's terminator.
  if msg.inputPathLen.toNat ≥ mapreducePathMax then none
  let out ← bufWriteU8 cap [] RpcKind.taskMapResp.code
  let out ← bufWriteU32 cap out msg.taskId
  let out ← bufWriteU32 cap out msg.attemptId
  let out ← bufWriteU32 cap out msg.nReduce
  let out ← bufWriteU16 cap out msg.inputPathLen
  bufWriteBytes cap out msg.inputPath msg.inputPathLen.toNat

def rpcEncodeTaskReduceResp (cap : Nat) (msg : TaskReduceResp) : Option Bytes := do
  let out ← bufWriteU8 cap [] RpcKind.taskReduceResp.code
  let out ← bufWriteU32 cap out msg.taskId
  let out ← bufWriteU32 cap out msg.attemptId
  bufWriteU32 cap out msg.nMap

def rpcEncodeWaitResp (cap : Nat) (msg : WaitResp) : Option Bytes := do
  let out ← bufWriteU8 cap [] RpcKind.waitResp.code
  bufWriteU32 cap out msg.waitMs

def rpcEncodeTaskDoneReq (cap : Nat) (msg : TaskDoneReq) : Option Bytes := do
  let out ← bufWriteU8 cap [] RpcKind.taskDoneReq.code
  let out ← bufWriteU32 cap out msg.taskId
  let out ← bufWriteU32 cap out msg.attemptId
  bufWriteU8 cap out msg.result

/-! ## Decoders -/

def rpcDecodeTaskMapResp (buf : Bytes) : Option TaskMapResp := do
  let (taskId, p) ← bufReadU32 buf
  let (attemptId, p) ← bufReadU32 p
  let (nReduce, p) ← bufReadU32 p
  let (inputPathLen, p) ← bufReadU16 p
  if inputPathLen.toNat ≥ mapreducePathMax then none
  let (inputPath, p) ← bufReadBytes inputPathLen.toNat p
  if p = [] then some ⟨taskId, attemptId, nReduce, inputPathLen, inputPath⟩ else none

def rpcDecodeTaskReduceResp (buf : Bytes) : Option TaskReduceResp := do
  let (taskId, p) ← bufReadU32 buf
  let (attemptId, p) ← bufReadU32 p
  let (nMap, p) ← bufReadU32 p
  if p = [] then some ⟨taskId, attemptId, nMap⟩ else none

def rpcDecodeWaitResp (buf : Bytes) : Option WaitResp := do
  let (waitMs, p) ← bufReadU32 buf
  if p = [] then some ⟨waitMs⟩ else none

def rpcDecodeTaskDoneReq (buf : Bytes) : Option TaskDoneReq := do
  let (taskId, p) ← bufReadU32 buf
  let (attemptId, p) ← bufReadU32 p
  let (result, p) ← bufReadU8 p
  if p = [] then some ⟨taskId, attemptId, result⟩ else none

/-! ## Encoded messages and what a reader makes of them -/

theorem bufWrite_fits {cap : Nat} {out field : Bytes} (fits : out.length + field.length ≤ cap) :
    bufWrite cap out field = some (out ++ field) := by
  unfold bufWrite
  rw [if_neg (by omega)]

theorem bufRead_append (field rest : Bytes) : bufRead field.length (field ++ rest) = some (field, rest) := by
  simp [bufRead]

theorem bufReadU8_append (v : UInt8) (rest : Bytes) : bufReadU8 (v :: rest) = some (v, rest) := by
  simp [bufReadU8, bufRead, BigEndian.value]

theorem bufReadU16_append (v : UInt16) (rest : Bytes) :
    bufReadU16 (BigEndian.encode 2 v.toNat ++ rest) = some (v, rest) := by
  have read := bufRead_append (BigEndian.encode 2 v.toNat) rest
  rw [BigEndian.encode_length] at read
  simp [bufReadU16, read, BigEndian.value_encode 2 v.toNat_lt]

theorem bufReadU32_append (v : UInt32) (rest : Bytes) :
    bufReadU32 (BigEndian.encode 4 v.toNat ++ rest) = some (v, rest) := by
  have read := bufRead_append (BigEndian.encode 4 v.toNat) rest
  rw [BigEndian.encode_length] at read
  simp [bufReadU32, read, BigEndian.value_encode 4 v.toNat_lt]

/-- The body of an encoded report, after its kind byte. -/
def TaskDoneReq.body (msg : TaskDoneReq) : Bytes :=
  BigEndian.encode 4 msg.taskId.toNat ++ (BigEndian.encode 4 msg.attemptId.toNat ++ [msg.result])

def TaskReduceResp.body (msg : TaskReduceResp) : Bytes :=
  BigEndian.encode 4 msg.taskId.toNat ++
    (BigEndian.encode 4 msg.attemptId.toNat ++ BigEndian.encode 4 msg.nMap.toNat)

def TaskMapResp.body (msg : TaskMapResp) : Bytes :=
  BigEndian.encode 4 msg.taskId.toNat ++
    (BigEndian.encode 4 msg.attemptId.toNat ++
      (BigEndian.encode 4 msg.nReduce.toNat ++
        (BigEndian.encode 2 msg.inputPathLen.toNat ++ msg.inputPath.take msg.inputPathLen.toNat)))

theorem rpcEncodeTaskDoneReq_eq (msg : TaskDoneReq) :
    rpcEncodeTaskDoneReq msgMax msg = some (RpcKind.taskDoneReq.code :: msg.body) := by
  simp [rpcEncodeTaskDoneReq, bufWriteU8, bufWriteU32, bufWrite_fits, msgMax, TaskDoneReq.body]

theorem rpcEncodeTaskReduceResp_eq (msg : TaskReduceResp) :
    rpcEncodeTaskReduceResp msgMax msg = some (RpcKind.taskReduceResp.code :: msg.body) := by
  simp [rpcEncodeTaskReduceResp, bufWriteU8, bufWriteU32, bufWrite_fits, msgMax, TaskReduceResp.body]

theorem rpcEncodeWaitResp_eq (msg : WaitResp) :
    rpcEncodeWaitResp msgMax msg = some (RpcKind.waitResp.code :: BigEndian.encode 4 msg.waitMs.toNat) := by
  simp [rpcEncodeWaitResp, bufWriteU8, bufWriteU32, bufWrite_fits, msgMax]

theorem rpcEncodeTaskMapResp_eq (msg : TaskMapResp) (short : msg.inputPathLen.toNat < mapreducePathMax) :
    rpcEncodeTaskMapResp msgMax msg = some (RpcKind.taskMapResp.code :: msg.body) := by
  have room := List.length_take_le msg.inputPathLen.toNat msg.inputPath
  have long : ¬ msg.inputPathLen.toNat ≥ mapreducePathMax := by omega
  simp only [mapreducePathMax] at short
  simp only [rpcEncodeTaskMapResp, long, bufWriteU8, bufWriteU16, bufWriteU32, bufWriteBytes, msgMax]
  simp [bufWrite_fits, TaskMapResp.body]
  rw [bufWrite_fits]
  · simp
  · simp only [List.length_cons, List.length_append, BigEndian.encode_length]
    omega

theorem rpcDecodeTaskDoneReq_body (msg : TaskDoneReq) : rpcDecodeTaskDoneReq msg.body = some msg := by
  simp [rpcDecodeTaskDoneReq, TaskDoneReq.body, bufReadU32_append, bufReadU8_append]

theorem rpcDecodeTaskReduceResp_body (msg : TaskReduceResp) :
    rpcDecodeTaskReduceResp msg.body = some msg := by
  have last := bufReadU32_append msg.nMap []
  rw [List.append_nil] at last
  simp [rpcDecodeTaskReduceResp, TaskReduceResp.body, bufReadU32_append, last]

theorem rpcDecodeTaskMapResp_body (msg : TaskMapResp) (short : msg.inputPathLen.toNat < mapreducePathMax)
    (whole : msg.inputPath.length = msg.inputPathLen.toNat) : rpcDecodeTaskMapResp msg.body = some msg := by
  have long : ¬ msg.inputPathLen.toNat ≥ mapreducePathMax := by omega
  have path := bufRead_append msg.inputPath []
  rw [List.append_nil, whole] at path
  have all : msg.inputPath.take msg.inputPathLen.toNat = msg.inputPath := by simp [← whole]
  simp [rpcDecodeTaskMapResp, TaskMapResp.body, bufReadU32_append, bufReadU16_append, long, bufReadBytes,
    all, path]

end MapReduce
