import MapReduce.Accounting

/-! Encoders and decoders of `rpc.c` as inverses of each other, and the payloads the master accepts.

An encoder is one list of fields written in order, so it succeeds exactly when
their total length fits. A decoder is inverted reader by reader: each primitive
accepts the strings that start with the encoding of the value it returns. A
message without a body has no decoder, and nobody looks behind its kind byte.
-/

set_option autoImplicit false

namespace MapReduce

/-! ## Fields written in order -/

/-- Append the fields one by one and stop at the first that does not fit. -/
def writeFields (cap : Nat) : Bytes → List Bytes → Option Bytes
  | out, [] => some out
  | out, field :: fields => (bufWrite cap out field).bind fun out => writeFields cap out fields

theorem writeFields_eq {cap : Nat} {out : Bytes} (fields : List Bytes) (inside : out.length ≤ cap) :
    writeFields cap out fields =
      if out.length + fields.flatten.length ≤ cap then some (out ++ fields.flatten) else none := by
  induction fields generalizing out with
  | nil => simp [writeFields, inside]
  | cons field fields ih =>
    have total : out.length + (field :: fields).flatten.length
        = (out ++ field).length + fields.flatten.length := by
      simp only [List.flatten_cons, List.length_append]
      omega
    by_cases fits : out.length + field.length ≤ cap
    · have within : (out ++ field).length ≤ cap := by simpa using fits
      simp only [writeFields, bufWrite_fits fits, Option.bind_some]
      rw [ih within, total, List.flatten_cons, List.append_assoc]
    · -- the subtraction of the source is exact here: what is written lies inside the buffer
      have full : bufWrite cap out field = none := by
        unfold bufWrite
        rw [if_pos (by omega)]
      rw [writeFields, full, Option.bind_none, if_neg]
      rw [total, List.length_append]
      omega

def WaitResp.body (msg : WaitResp) : Bytes := BigEndian.encode 4 msg.waitMs.toNat

theorem rpcEncodeTaskMapResp_fields (cap : Nat) (msg : TaskMapResp) :
    rpcEncodeTaskMapResp cap msg =
      if msg.inputPathLen.toNat < mapreducePathMax then
        writeFields cap [] [[RpcKind.taskMapResp.code], BigEndian.encode 4 msg.taskId.toNat,
          BigEndian.encode 4 msg.attemptId.toNat, BigEndian.encode 4 msg.nReduce.toNat,
          BigEndian.encode 2 msg.inputPathLen.toNat, msg.inputPath.take msg.inputPathLen.toNat]
      else none := by
  by_cases short : msg.inputPathLen.toNat < mapreducePathMax
  · have long : ¬ msg.inputPathLen.toNat ≥ mapreducePathMax := by omega
    simp only [rpcEncodeTaskMapResp, if_neg long, if_pos short]
    simp [writeFields, bufWriteU8, bufWriteU16, bufWriteU32, bufWriteBytes]
  · have long : msg.inputPathLen.toNat ≥ mapreducePathMax := by omega
    simp only [rpcEncodeTaskMapResp, if_pos long, if_neg short]
    rfl

theorem rpcEncodeTaskReduceResp_fields (cap : Nat) (msg : TaskReduceResp) :
    rpcEncodeTaskReduceResp cap msg =
      writeFields cap [] [[RpcKind.taskReduceResp.code], BigEndian.encode 4 msg.taskId.toNat,
        BigEndian.encode 4 msg.attemptId.toNat, BigEndian.encode 4 msg.nMap.toNat] := by
  simp [rpcEncodeTaskReduceResp, writeFields, bufWriteU8, bufWriteU32]

theorem rpcEncodeWaitResp_fields (cap : Nat) (msg : WaitResp) :
    rpcEncodeWaitResp cap msg =
      writeFields cap [] [[RpcKind.waitResp.code], BigEndian.encode 4 msg.waitMs.toNat] := by
  simp [rpcEncodeWaitResp, writeFields, bufWriteU8, bufWriteU32]

theorem rpcEncodeTaskDoneReq_fields (cap : Nat) (msg : TaskDoneReq) :
    rpcEncodeTaskDoneReq cap msg =
      writeFields cap [] [[RpcKind.taskDoneReq.code], BigEndian.encode 4 msg.taskId.toNat,
        BigEndian.encode 4 msg.attemptId.toNat, [msg.result]] := by
  simp [rpcEncodeTaskDoneReq, writeFields, bufWriteU8, bufWriteU32]

/-! ## What each reader accepts -/

theorem bufRead_eq_some {n : Nat} {p field rest : Bytes} :
    bufRead n p = some (field, rest) ↔ field.length = n ∧ p = field ++ rest := by
  constructor
  · intro read
    unfold bufRead at read
    split at read
    · cases read
    · next enough =>
      obtain ⟨rfl, rfl⟩ := Prod.mk.inj (Option.some.inj read)
      refine ⟨?_, (List.take_append_drop n p).symm⟩
      rw [List.length_take]
      omega
  · rintro ⟨rfl, rfl⟩
    exact bufRead_append field rest

theorem bufReadU8_eq_some {p rest : Bytes} {v : UInt8} : bufReadU8 p = some (v, rest) ↔ p = v :: rest := by
  constructor
  · intro read
    simp only [bufReadU8, Option.bind_eq_bind, Option.bind_eq_some_iff] at read
    obtain ⟨⟨field, tail⟩, first, last⟩ := read
    obtain ⟨one, rfl⟩ := bufRead_eq_some.mp first
    obtain ⟨byte, rfl⟩ := List.length_eq_one_iff.mp one
    obtain ⟨rfl, rfl⟩ := Prod.mk.inj (Option.some.inj last)
    simp [BigEndian.value]
  · rintro rfl
    exact bufReadU8_append v rest

theorem bufReadU16_eq_some {p rest : Bytes} {v : UInt16} :
    bufReadU16 p = some (v, rest) ↔ p = BigEndian.encode 2 v.toNat ++ rest := by
  constructor
  · intro read
    simp only [bufReadU16, Option.bind_eq_bind, Option.bind_eq_some_iff] at read
    obtain ⟨⟨field, tail⟩, first, last⟩ := read
    obtain ⟨two, rfl⟩ := bufRead_eq_some.mp first
    obtain ⟨rfl, rfl⟩ := Prod.mk.inj (Option.some.inj last)
    rw [BigEndian.encode_uint16 two]
  · rintro rfl
    exact bufReadU16_append v rest

theorem bufReadU32_eq_some {p rest : Bytes} {v : UInt32} :
    bufReadU32 p = some (v, rest) ↔ p = BigEndian.encode 4 v.toNat ++ rest := by
  constructor
  · intro read
    simp only [bufReadU32, Option.bind_eq_bind, Option.bind_eq_some_iff] at read
    obtain ⟨⟨field, tail⟩, first, last⟩ := read
    obtain ⟨four, rfl⟩ := bufRead_eq_some.mp first
    obtain ⟨rfl, rfl⟩ := Prod.mk.inj (Option.some.inj last)
    rw [BigEndian.encode_uint32 four]
  · rintro rfl
    exact bufReadU32_append v rest

theorem rpcDecodeTaskMapResp_eq_some {b : Bytes} {msg : TaskMapResp} :
    rpcDecodeTaskMapResp b = some msg ↔
      b = msg.body ∧ msg.inputPathLen.toNat < mapreducePathMax ∧
        msg.inputPath.length = msg.inputPathLen.toNat := by
  constructor
  · intro decoded
    simp only [rpcDecodeTaskMapResp, Option.bind_eq_bind, Option.bind_eq_some_iff, Prod.exists] at decoded
    obtain ⟨taskId, p, readTask, attemptId, q, readAttempt, nReduce, r, readReduce,
      inputPathLen, s, readLen, decoded⟩ := decoded
    split at decoded
    · cases decoded
    · next short =>
      simp only [Option.bind_eq_some_iff, Prod.exists] at decoded
      obtain ⟨inputPath, t, readPath, decoded⟩ := decoded
      split at decoded
      · next ended =>
        cases decoded
        obtain ⟨whole, rest⟩ := bufRead_eq_some.mp readPath
        refine ⟨?_, Nat.lt_of_not_le short, whole⟩
        rw [bufReadU32_eq_some.mp readTask, bufReadU32_eq_some.mp readAttempt,
          bufReadU32_eq_some.mp readReduce, bufReadU16_eq_some.mp readLen, rest, ended]
        simp [TaskMapResp.body, ← whole]
      · cases decoded
  · rintro ⟨rfl, short, whole⟩
    exact rpcDecodeTaskMapResp_body msg short whole

theorem rpcDecodeTaskReduceResp_eq_some {b : Bytes} {msg : TaskReduceResp} :
    rpcDecodeTaskReduceResp b = some msg ↔ b = msg.body := by
  constructor
  · intro decoded
    simp only [rpcDecodeTaskReduceResp, Option.bind_eq_bind, Option.bind_eq_some_iff, Prod.exists] at decoded
    obtain ⟨taskId, p, readTask, attemptId, q, readAttempt, nMap, r, readMap, decoded⟩ := decoded
    split at decoded
    · next ended =>
      cases decoded
      rw [bufReadU32_eq_some.mp readTask, bufReadU32_eq_some.mp readAttempt,
        bufReadU32_eq_some.mp readMap, ended]
      simp [TaskReduceResp.body]
    · cases decoded
  · rintro rfl
    exact rpcDecodeTaskReduceResp_body msg

theorem rpcDecodeWaitResp_eq_some {b : Bytes} {msg : WaitResp} :
    rpcDecodeWaitResp b = some msg ↔ b = msg.body := by
  constructor
  · intro decoded
    simp only [rpcDecodeWaitResp, Option.bind_eq_bind, Option.bind_eq_some_iff, Prod.exists] at decoded
    obtain ⟨waitMs, p, readWait, decoded⟩ := decoded
    split at decoded
    · next ended =>
      cases decoded
      rw [bufReadU32_eq_some.mp readWait, ended]
      simp [WaitResp.body]
    · cases decoded
  · rintro rfl
    have read := bufReadU32_append msg.waitMs []
    rw [List.append_nil] at read
    simp [rpcDecodeWaitResp, WaitResp.body, read]

theorem rpcDecodeTaskDoneReq_eq_some {b : Bytes} {msg : TaskDoneReq} :
    rpcDecodeTaskDoneReq b = some msg ↔ b = msg.body := by
  constructor
  · intro decoded
    simp only [rpcDecodeTaskDoneReq, Option.bind_eq_bind, Option.bind_eq_some_iff, Prod.exists] at decoded
    obtain ⟨taskId, p, readTask, attemptId, q, readAttempt, result, r, readResult, decoded⟩ := decoded
    split at decoded
    · next ended =>
      cases decoded
      rw [bufReadU32_eq_some.mp readTask, bufReadU32_eq_some.mp readAttempt,
        bufReadU8_eq_some.mp readResult, ended]
      simp [TaskDoneReq.body]
    · cases decoded
  · rintro rfl
    exact rpcDecodeTaskDoneReq_body msg

/-! ## Mutual inverses -/

/-- An encoder and a decoder of one message kind that undo each other.

`Msg` is what is encoded and `Got` what is decoded, `Same` when both carry the
same message. `size` counts the whole encoding, the kind byte included. -/
structure InverseCodecs {Msg Got : Type} (kind : RpcKind) (encode : Nat → Msg → Option Bytes)
    (decode : Bytes → Option Got) (size : Msg → Nat) (Sendable : Msg → Prop)
    (Same : Got → Msg → Prop) : Prop where
  encodes : ∀ cap msg, (encode cap msg).isSome ↔ size msg ≤ cap ∧ Sendable msg
  sized : ∀ cap msg out, encode cap msg = some out → out.length = size msg
  decodes : ∀ b msg, (∃ got, decode b = some got ∧ Same got msg) ↔
    ∀ cap, size msg ≤ cap → encode cap msg = some (kind.code :: b)

/-- An encoder that writes a kind byte and a body whenever both fit is inverse to
a decoder that accepts the bodies of what may be sent. -/
theorem InverseCodecs.of_body {Msg Got : Type} {kind : RpcKind} {encode : Nat → Msg → Option Bytes}
    {decode : Bytes → Option Got} {size : Msg → Nat} {Sendable : Msg → Prop} {Same : Got → Msg → Prop}
    (body : Msg → Bytes)
    (refused : ∀ cap msg, ¬ Sendable msg → encode cap msg = none)
    (written : ∀ cap msg, Sendable msg → encode cap msg =
      if (kind.code :: body msg).length ≤ cap then some (kind.code :: body msg) else none)
    (length : ∀ msg, Sendable msg → (kind.code :: body msg).length = size msg)
    (accepts : ∀ b msg, (∃ got, decode b = some got ∧ Same got msg) ↔ Sendable msg ∧ b = body msg) :
    InverseCodecs kind encode decode size Sendable Same where
  encodes cap msg := by
    by_cases sendable : Sendable msg
    · rw [written cap msg sendable, length msg sendable]
      by_cases fits : size msg ≤ cap
      · simp [fits, sendable]
      · simp [fits]
    · simp [refused cap msg sendable, sendable]
  sized cap msg out encoded := by
    by_cases sendable : Sendable msg
    · rw [written cap msg sendable] at encoded
      split at encoded
      · rw [← Option.some.inj encoded, length msg sendable]
      · cases encoded
    · rw [refused cap msg sendable] at encoded
      cases encoded
  decodes b msg := by
    rw [accepts b msg]
    constructor
    · rintro ⟨sendable, rfl⟩ cap enough
      rw [written cap msg sendable, length msg sendable, if_pos enough]
    · intro encodes
      have exact := encodes (size msg) (Nat.le_refl _)
      by_cases sendable : Sendable msg
      · rw [written _ msg sendable, length msg sendable, if_pos (Nat.le_refl _)] at exact
        exact ⟨sendable, (List.cons.inj (Option.some.inj exact)).2.symm⟩
      · rw [refused _ msg sendable] at exact
        cases exact

/-- A value of the C struct, whose path is an array of fixed size. -/
structure TaskMapValue extends TaskMapResp where
  whole : inputPath.length = mapreducePathMax

/-- Equal up to the path bytes behind `inputPathLen`, which no codec looks at. -/
structure TaskMapResp.SameMessage (got msg : TaskMapResp) : Prop where
  taskId : got.taskId = msg.taskId
  attemptId : got.attemptId = msg.attemptId
  nReduce : got.nReduce = msg.nReduce
  inputPathLen : got.inputPathLen = msg.inputPathLen
  inputPath : got.inputPath.take msg.inputPathLen.toNat = msg.inputPath.take msg.inputPathLen.toNat

theorem taskMapResp_inverse :
    InverseCodecs .taskMapResp (fun cap (msg : TaskMapValue) => rpcEncodeTaskMapResp cap msg.toTaskMapResp)
      rpcDecodeTaskMapResp (fun msg => 15 + msg.inputPathLen.toNat)
      (fun msg => msg.inputPathLen.toNat < mapreducePathMax)
      (fun got msg => got.SameMessage msg.toTaskMapResp) := by
  apply InverseCodecs.of_body fun msg => msg.toTaskMapResp.body
  · intro cap msg long
    rw [rpcEncodeTaskMapResp_fields, if_neg long]
  · intro cap msg short
    rw [rpcEncodeTaskMapResp_fields, if_pos short, writeFields_eq _ (Nat.zero_le cap)]
    simp [TaskMapResp.body]
  · intro msg short
    have path : min msg.inputPathLen.toNat mapreducePathMax = msg.inputPathLen.toNat := by omega
    simp only [TaskMapResp.body, List.length_cons, List.length_append, BigEndian.encode_length,
      List.length_take, msg.whole, path]
    omega
  · intro b msg
    constructor
    · rintro ⟨got, decoded, same⟩
      obtain ⟨rfl, short, whole⟩ := rpcDecodeTaskMapResp_eq_some.mp decoded
      refine ⟨same.inputPathLen ▸ short, ?_⟩
      simp only [TaskMapResp.body, same.taskId, same.attemptId, same.nReduce, same.inputPathLen,
        same.inputPath]
    · rintro ⟨short, rfl⟩
      have length : (msg.inputPath.take msg.inputPathLen.toNat).length = msg.inputPathLen.toNat := by
        rw [List.length_take, msg.whole]
        omega
      refine ⟨{ msg.toTaskMapResp with inputPath := msg.inputPath.take msg.inputPathLen.toNat }, ?_, ?_⟩
      · apply rpcDecodeTaskMapResp_eq_some.mpr
        refine ⟨?_, short, length⟩
        simp [TaskMapResp.body, List.take_take]
      · constructor <;> simp [List.take_take]

theorem taskReduceResp_inverse :
    InverseCodecs .taskReduceResp rpcEncodeTaskReduceResp rpcDecodeTaskReduceResp (fun _ => 13)
      (fun _ => True) Eq := by
  apply InverseCodecs.of_body TaskReduceResp.body
  · simp
  · intro cap msg _
    rw [rpcEncodeTaskReduceResp_fields, writeFields_eq _ (Nat.zero_le cap)]
    simp [TaskReduceResp.body]
  · simp [TaskReduceResp.body]
  · simp [rpcDecodeTaskReduceResp_eq_some]

theorem waitResp_inverse :
    InverseCodecs .waitResp rpcEncodeWaitResp rpcDecodeWaitResp (fun _ => 5) (fun _ => True) Eq := by
  apply InverseCodecs.of_body WaitResp.body
  · simp
  · intro cap msg _
    rw [rpcEncodeWaitResp_fields, writeFields_eq _ (Nat.zero_le cap)]
    simp [WaitResp.body]
  · simp [WaitResp.body]
  · simp [rpcDecodeWaitResp_eq_some]

theorem taskDoneReq_inverse :
    InverseCodecs .taskDoneReq rpcEncodeTaskDoneReq rpcDecodeTaskDoneReq (fun _ => 10) (fun _ => True)
      Eq := by
  apply InverseCodecs.of_body TaskDoneReq.body
  · simp
  · intro cap msg _
    rw [rpcEncodeTaskDoneReq_fields, writeFields_eq _ (Nat.zero_le cap)]
    simp [TaskDoneReq.body]
  · simp [TaskDoneReq.body]
  · simp [rpcDecodeTaskDoneReq_eq_some]

/-- For each message with a body the encoder succeeds exactly when the encoding
fits and may be sent, and the decoder accepts exactly what the encoder writes
behind the kind byte. -/
theorem codecs_mutually_inverse :
    InverseCodecs .taskMapResp (fun cap (msg : TaskMapValue) => rpcEncodeTaskMapResp cap msg.toTaskMapResp)
      rpcDecodeTaskMapResp (fun msg => 15 + msg.inputPathLen.toNat)
      (fun msg => msg.inputPathLen.toNat < mapreducePathMax)
      (fun got msg => got.SameMessage msg.toTaskMapResp) ∧
    InverseCodecs .taskReduceResp rpcEncodeTaskReduceResp rpcDecodeTaskReduceResp (fun _ => 13)
      (fun _ => True) Eq ∧
    InverseCodecs .waitResp rpcEncodeWaitResp rpcDecodeWaitResp (fun _ => 5) (fun _ => True) Eq ∧
    InverseCodecs .taskDoneReq rpcEncodeTaskDoneReq rpcDecodeTaskDoneReq (fun _ => 10) (fun _ => True) Eq :=
  ⟨taskMapResp_inverse, taskReduceResp_inverse, waitResp_inverse, taskDoneReq_inverse⟩

/-! ## Requests -/

def Canonical (payload : Bytes) : Prop :=
  (∃ cap, rpcEncodeGetTaskReq cap = some payload) ∨ ∃ cap msg, rpcEncodeTaskDoneReq cap msg = some payload

theorem canonical_iff {payload : Bytes} :
    Canonical payload ↔ payload = [RpcKind.getTaskReq.code] ∨
      ∃ msg : TaskDoneReq, payload = RpcKind.taskDoneReq.code :: msg.body := by
  constructor
  · rintro (⟨cap, encoded⟩ | ⟨cap, msg, encoded⟩)
    · unfold rpcEncodeGetTaskReq rpcEncodeEmpty bufWriteU8 bufWrite at encoded
      split at encoded
      · cases encoded
      · exact .inl (Option.some.inj encoded).symm
    · rw [rpcEncodeTaskDoneReq_fields, writeFields_eq _ (Nat.zero_le cap)] at encoded
      split at encoded
      · exact .inr ⟨msg, by simpa [TaskDoneReq.body] using (Option.some.inj encoded).symm⟩
      · cases encoded
  · rintro (rfl | ⟨msg, rfl⟩)
    · exact .inl ⟨msgMax, rfl⟩
    · exact .inr ⟨msgMax, msg, rpcEncodeTaskDoneReq_eq msg⟩

theorem rpcPeekKind_some {payload : Bytes} {kind : RpcKind} (peeked : rpcPeekKind payload = some kind) :
    ∃ behind, payload = kind.code :: behind := by
  unfold rpcPeekKind at peeked
  split at peeked
  · cases peeked
  next k behind =>
    refine ⟨behind, congrArg (· :: behind) ?_⟩
    split at peeked <;> cases peeked
    all_goals
      next code => exact UInt8.toNat_inj.mp code

theorem reportOf_some {payload : Bytes} {msg : TaskDoneReq} (decoded : reportOf payload = some msg) :
    payload = RpcKind.taskDoneReq.code :: msg.body := by
  unfold reportOf at decoded
  split at decoded
  next peeked =>
    obtain ⟨behind, rfl⟩ := rpcPeekKind_some peeked
    exact congrArg _ (rpcDecodeTaskDoneReq_eq_some.mp decoded)
  · cases decoded

/-- An accepted payload is one that a worker can encode exactly if it is not a request with bytes behind it. -/
theorem accepted_canonical {w : World} {fd : Fd} {payload : Bytes} {env : Env} {r : Reply}
    (handled : masterOnMessage w fd payload env = some r) (accepted : r.ok = true) :
    Canonical payload ↔ (rpcPeekKind payload = some .getTaskReq → payload.length = 1) := by
  rw [canonical_iff]
  rcases message_cases handled with ⟨asked, _⟩ | ⟨msg, decoded, _⟩ | rfl
  · obtain ⟨behind, rfl⟩ := rpcPeekKind_some asked
    constructor
    · rintro (alone | ⟨msg, report⟩) _
      · rw [alone]
        rfl
      · cases report
    · intro one
      exact .inl (congrArg _ (List.eq_nil_of_length_eq_zero (Nat.succ.inj (one asked))))
  · have sent := reportOf_some decoded
    refine iff_of_true (.inr ⟨msg, sent⟩) fun asked => ?_
    rw [sent] at asked
    cases asked
  · cases accepted

/-- A worker that has just connected sends its request. -/
theorem accepted_canonical_request :
    ∃ w r, Runs.run World.next pairStart [.connect workerA] = some w ∧
      masterOnMessage w workerA [RpcKind.getTaskReq.code] .good = some r ∧ r.ok = true ∧
      Canonical [RpcKind.getTaskReq.code] := by
  have ran : (Runs.run World.next pairStart [.connect workerA]).any (fun w =>
      (masterOnMessage w workerA [RpcKind.getTaskReq.code] .good).any (·.ok)) = true := by
    decide +kernel
  obtain ⟨w, reached, ran⟩ := (Option.any_eq_true _ _).mp ran
  obtain ⟨r, handled, ok⟩ := (Option.any_eq_true _ _).mp ran
  exact ⟨w, r, reached, handled, ok, (accepted_canonical handled ok).mpr fun _ => rfl⟩

/-- The same request with one byte behind it is accepted and hands out a task. -/
theorem accepted_trailing :
    ∃ w r t, Runs.run World.next pairStart [.connect workerA] = some w ∧
      masterOnMessage w workerA [RpcKind.getTaskReq.code, 0] .good = some r ∧ r.ok = true ∧
      r.master.task? .map 0 = some t ∧ t.state = .inProgress ∧ ¬ Canonical [RpcKind.getTaskReq.code, 0] := by
  have ran : (Runs.run World.next pairStart [.connect workerA]).any (fun w =>
      (masterOnMessage w workerA [RpcKind.getTaskReq.code, 0] .good).any fun r =>
        r.ok && (r.master.task? .map 0).any (·.state == .inProgress)) = true := by
    decide +kernel
  obtain ⟨w, reached, ran⟩ := (Option.any_eq_true _ _).mp ran
  obtain ⟨r, handled, ran⟩ := (Option.any_eq_true _ _).mp ran
  obtain ⟨ok, ran⟩ := (Bool.and_eq_true _ _).mp ran
  obtain ⟨t, found, running⟩ := (Option.any_eq_true _ _).mp ran
  refine ⟨w, r, t, reached, handled, ok, found, beq_iff_eq.mp running, ?_⟩
  rw [canonical_iff]
  rintro (alone | ⟨msg, report⟩)
  · cases alone
  · cases report

end MapReduce
