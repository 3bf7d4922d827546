import MapReduce.Crc64
import MapReduce.Job
import MapReduce.Rpc

/-! The writing half of `aof.c`: file header, job header and completion records.

A log file is the byte string it holds. Every write goes through `write_all`
against a script of `write(2)` results, so a record can be stored whole, in
part, or not at all. A store behind the end of a buffer leaves defined
behaviour.
-/

set_option autoImplicit false

namespace MapReduce

inductive Stop where
  | failed
  | undefined
  deriving DecidableEq, Repr

/-! ## `write_all` -/

inductive WriteResult where
  | wrote (n : Nat)
  | eintr
  | error
  deriving DecidableEq, Repr

/-- The loop of `write_all` from offset `off`. A script that ends leaves a
kernel that accepts whatever remains. -/
def writeLoop (buf : Bytes) : List WriteResult → Nat → Bytes → Bytes × Option Nat
  | [], off, file => (file ++ buf.drop off, some buf.length)
  | result :: rest, off, file =>
    if off < buf.length then
      match result with
      | .wrote n => writeLoop buf rest (min (off + n) buf.length) (file ++ (buf.drop off).take n)
      | .eintr => writeLoop buf rest off file
      | .error => (file, none)
    else (file, some off)

/-- The file afterwards, and the number of bytes written unless a hard error ended the loop. -/
def writeAll (script : List WriteResult) (file buf : Bytes) : Bytes × Option Nat :=
  writeLoop buf script 0 file

/-- How many of `remaining` bytes the script accepts before a hard error. -/
def WriteResult.accepted : List WriteResult → Nat → Nat
  | [], remaining => remaining
  | result :: rest, remaining =>
    if remaining = 0 then 0
    else match result with
      | .wrote n => min n remaining + accepted rest (remaining - n)
      | .eintr => accepted rest remaining
      | .error => 0

theorem WriteResult.accepted_le (script : List WriteResult) (remaining : Nat) :
    accepted script remaining ≤ remaining := by
  induction script generalizing remaining with
  | nil => exact Nat.le_refl _
  | cons result rest ih =>
    simp only [accepted]
    split
    · omega
    · cases result with
      | wrote n =>
        have := ih (remaining - n)
        simp only
        omega
      | eintr => exact ih remaining
      | error => exact Nat.zero_le _

theorem WriteResult.accepted_wrote (rest : List WriteResult) (n : Nat) {remaining : Nat}
    (left : remaining ≠ 0) :
    accepted (.wrote n :: rest) remaining = min n remaining + accepted rest (remaining - n) := by
  simp only [accepted, left, ↓reduceIte]

theorem WriteResult.accepted_zero (script : List WriteResult) : accepted script 0 = 0 :=
  Nat.le_zero.mp (accepted_le script 0)

theorem writeLoop_eq (buf : Bytes) (script : List WriteResult) (off : Nat) (file : Bytes)
    (inside : off ≤ buf.length) :
    writeLoop buf script off file =
      (file ++ (buf.drop off).take (WriteResult.accepted script (buf.length - off)),
        if WriteResult.accepted script (buf.length - off) = buf.length - off then some buf.length
        else none) := by
  have whole : (buf.drop off).take (buf.length - off) = buf.drop off :=
    List.take_of_length_le (by simp)
  -- Each result moves the offset; what is accepted from there on is an instance of the claim.
  induction script generalizing off file with
  | nil => simp [writeLoop, WriteResult.accepted, whole]
  | cons result rest ih =>
    by_cases left : off < buf.length
    · have some_left : buf.length - off ≠ 0 := by omega
      cases result with
      | wrote n =>
        rw [WriteResult.accepted_wrote rest n some_left]
        simp only [writeLoop, left, ↓reduceIte]
        by_cases short : off + n ≤ buf.length
        · rw [Nat.min_eq_left short, Nat.min_eq_left (by omega),
            ih (off + n) _ short (List.take_of_length_le (by simp)), List.append_assoc,
            ← List.drop_drop, ← List.take_add, Nat.sub_add_eq]
          congr 2
          apply propext
          constructor <;> intro equal <;> omega
        · -- The kernel never reports more than it was offered; the excess is cut off.
          rw [Nat.min_eq_right (by omega), Nat.min_eq_right (by omega),
            ih buf.length _ (Nat.le_refl _) (by simp), Nat.sub_self,
            show buf.length - off - n = 0 by omega, WriteResult.accepted_zero,
            List.take_of_length_le (show (buf.drop off).length ≤ n by simp; omega)]
          simp [whole]
      | eintr =>
        simp only [writeLoop, left, ↓reduceIte, WriteResult.accepted, some_left]
        exact ih off file inside whole
      | error => simp [writeLoop, left, WriteResult.accepted, some_left, Ne.symm some_left]
    · have same : off = buf.length := by omega
      simp [writeLoop, same, WriteResult.accepted_zero]

theorem writeAll_eq (script : List WriteResult) (file buf : Bytes) :
    writeAll script file buf =
      (file ++ buf.take (WriteResult.accepted script buf.length),
        if WriteResult.accepted script buf.length = buf.length then some buf.length else none) := by
  simpa [writeAll] using writeLoop_eq buf script 0 file (Nat.zero_le _)

@[simp] theorem writeAll_nil (file buf : Bytes) : writeAll [] file buf = (file ++ buf, some buf.length) := rfl

/-! ## File header -/

def aofFileMagic : Bytes := [0x4d, 0x41, 0x50, 0x52, 0x45, 0x44, 0x55, 0x43]
def aofFileMagicLen : Nat := 8
def aofFileVersion : Nat := 1
def aofFileVersionLen : Nat := 4
def aofFileCrcLen : Nat := 8
def aofFileHeaderSize : Nat := 32

/-- A section followed by the checksum of its bytes. -/
def withCrc (section_ : Bytes) : Bytes := section_ ++ BigEndian.encode 8 (crc64 0 section_).toNat

/-- Magic, version, flags and creation time: the bytes the header checksum covers. -/
def aofFileHeaderBody (createdMs : UInt64) : Bytes :=
  aofFileMagic ++ (BigEndian.encode aofFileVersionLen aofFileVersion ++
    (BigEndian.encode 4 0 ++ BigEndian.encode 8 createdMs.toNat))

def aofFileHeader (createdMs : UInt64) : Bytes := withCrc (aofFileHeaderBody createdMs)

def aofWriteFileHeader (script : List WriteResult) (file : Bytes) (createdMs : UInt64) : Bytes × Bool :=
  let (file, written) := writeAll script file (aofFileHeader createdMs)
  (file, written == some aofFileHeaderSize)

/-! ## Completion records -/

def aofRecordKindLen : Nat := 1
def aofRecordTaskIdLen : Nat := 4
def aofRecordAttemptIdLen : Nat := 4
def aofRecordCrcLen : Nat := 8
def aofRecordSize : Nat := aofRecordKindLen + aofRecordTaskIdLen + aofRecordAttemptIdLen + aofRecordCrcLen

/-- The byte stored for a slot's kind; an unassigned slot stores zero. -/
def kindCode : Option TaskKind → UInt8
  | none => 0
  | some .map => 1
  | some .reduce => 2

structure AofRecord where
  kind : UInt8
  taskId : UInt32
  attemptId : UInt32
  deriving DecidableEq, Repr

def AofRecord.body (record : AofRecord) : Bytes :=
  record.kind :: (BigEndian.encode aofRecordTaskIdLen record.taskId.toNat ++
    BigEndian.encode aofRecordAttemptIdLen record.attemptId.toNat)

def AofRecord.bytes (record : AofRecord) : Bytes := withCrc record.body

/-- The record `aof_write_record` builds: kind from the slot, ids from the message. -/
def AofRecord.of (msg : TaskDoneReq) (kind : Option TaskKind) : AofRecord :=
  ⟨kindCode kind, msg.taskId, msg.attemptId⟩

def aofWriteRecord (script : List WriteResult) (file : Bytes) (msg : TaskDoneReq)
    (kind : Option TaskKind) : Bytes × Bool :=
  let buf := (AofRecord.of msg kind).bytes
  let (file, written) := writeAll script file buf
  (file, written == some buf.length)

/-- `aof_append_completed`: one record, then the flush. -/
def aofAppendCompleted (m : Master) (script : List WriteResult) (flush : Bool) (file : Bytes)
    (msg : TaskDoneReq) (kind : Option TaskKind) : Bytes × Bool :=
  if m.aofFd < 0 then (file, false)
  else
    let (file, written) := aofWriteRecord script file msg kind
    (file, written && flush)

/-! ## Job header -/

/-- The loop of `aof_write_job` over the paths from slot `i` on. -/
def writePaths (bufSz : Nat) (maps : Table maxMapTasks Task) : Nat → Nat → Bytes → Except Stop Bytes
  | 0, _, out => .ok out
  | left + 1, i, out =>
    match maps.read i with
    | none => .error .undefined
    | some t =>
      if out.length + 2 + t.inputPathLen > bufSz then .error .failed
      else writePaths bufSz maps left (i + 1)
        (out ++ (BigEndian.encode 2 t.inputPathLen ++ t.inputPath.take t.inputPathLen))

/-- `none` is a read behind the table or a store behind the buffer. -/
def aofWriteJob (script : List WriteResult) (file : Bytes) (bufSz M R : Nat)
    (maps : Table maxMapTasks Task) : Option (Bytes × Bool) :=
  if 8 > bufSz then some (file, false)
  else
    match writePaths bufSz maps M 0 (BigEndian.encode 4 M ++ BigEndian.encode 4 R) with
    | .error .undefined => none
    | .error .failed => some (file, false)
    | .ok out =>
      let buf := withCrc out
      -- The checksum is stored without a look at `buf_sz`.
      if buf.length > bufSz then none
      else
        let (file, written) := writeAll script file buf
        some (file, written == some buf.length)

/-- The size `aof_init` allocates: counts, checksum, and every length with its path. -/
def jobBufSize (m : Master) : Nat :=
  4 + 4 + 8 + ((List.range m.job.M).map fun i => 2 + ((m.maps.read i).map (·.inputPathLen)).getD 0).sum

/-- What the system calls of `aof_init` answer: the descriptor, the clock, the two writes, the flush. -/
structure InitEnv where
  opened : Option Nat
  createdMs : UInt64
  headerScript : List WriteResult
  jobScript : List WriteResult
  flush : Bool

def InitEnv.good (fd : Nat) (createdMs : UInt64) : InitEnv := ⟨some fd, createdMs, [], [], true⟩

/-- `aof_init`: the master and file afterwards, and whether it returned 0. -/
def aofInit (m : Master) (file : Bytes) (env : InitEnv) : Option (Master × Bytes × Bool) :=
  match env.opened with
  | none => some ({ m with aofFd := -1 }, file, false)
  | some fd =>
    -- A file with any byte in it is taken to have its headers.
    if file ≠ [] then some ({ m with aofFd := fd }, file, true)
    else
      let (file, header) := aofWriteFileHeader env.headerScript file env.createdMs
      if header then
        (aofWriteJob env.jobScript file (jobBufSize m) m.job.M m.job.R m.maps).map fun (file, job) =>
          if job && env.flush then ({ m with aofFd := fd }, file, true)
          else ({ m with aofFd := -1 }, file, false)
      else some ({ m with aofFd := -1 }, file, false)

/-! ## The bytes of a whole log -/

def pathField (path : Bytes) : Bytes := BigEndian.encode 2 path.length ++ path

def jobBody (paths : List Bytes) (R : Nat) : Bytes :=
  BigEndian.encode 4 paths.length ++ (BigEndian.encode 4 R ++ paths.flatMap pathField)

def JobDef.header (job : JobDef) : Bytes := withCrc (jobBody job.paths job.R)

def logBytes (createdMs : UInt64) (job : JobDef) (records : List AofRecord) : Bytes :=
  aofFileHeader createdMs ++ (job.header ++ records.flatMap AofRecord.bytes)

@[simp] theorem withCrc_length (section_ : Bytes) : (withCrc section_).length = section_.length + 8 := by
  simp [withCrc]

theorem aofFileHeaderBody_length (createdMs : UInt64) :
    (aofFileHeaderBody createdMs).length = aofFileHeaderSize - aofFileCrcLen := by
  simp [aofFileHeaderBody, aofFileMagic, aofFileVersionLen, aofFileHeaderSize, aofFileCrcLen]

@[simp] theorem aofFileHeader_length (createdMs : UInt64) :
    (aofFileHeader createdMs).length = aofFileHeaderSize := by
  rw [aofFileHeader, withCrc_length, aofFileHeaderBody_length]
  rfl

theorem AofRecord.body_length (record : AofRecord) :
    record.body.length = aofRecordSize - aofRecordCrcLen := by
  simp [AofRecord.body, aofRecordSize, aofRecordKindLen, aofRecordTaskIdLen, aofRecordAttemptIdLen,
    aofRecordCrcLen]

@[simp] theorem AofRecord.bytes_length (record : AofRecord) : record.bytes.length = aofRecordSize := by
  rw [AofRecord.bytes, withCrc_length, AofRecord.body_length]
  rfl

theorem records_length (records : List AofRecord) :
    (records.flatMap AofRecord.bytes).length = records.length * aofRecordSize := by
  induction records with
  | nil => rfl
  | cons record rest ih => simp [List.flatMap_cons, ih, Nat.succ_mul, Nat.add_comm]

theorem logBytes_snoc (createdMs : UInt64) (job : JobDef) (records : List AofRecord) (record : AofRecord) :
    logBytes createdMs job (records ++ [record]) = logBytes createdMs job records ++ record.bytes := by
  simp [logBytes]

theorem logBytes_nonempty (createdMs : UInt64) (job : JobDef) (records : List AofRecord) :
    logBytes createdMs job records ≠ [] := by
  intro empty
  have := congrArg List.length empty
  simp [logBytes, aofFileHeaderSize] at this

/-- A master holds `job` when its header writer would describe exactly that job. -/
structure Master.Holds (m : Master) (job : JobDef) : Prop where
  total : ∀ kind, m.job.total kind = job.total kind
  path : ∀ i path, job.paths[i]? = some path →
    ∃ t, m.maps.read i = some t ∧ t.inputPath = path ∧ t.inputPathLen = path.length

theorem Master.fresh_holds (config : MasterConfig) (job : JobDef) : (Master.fresh config job).Holds job where
  total kind := by cases kind <;> rfl
  path i path found := by
    have below := (List.getElem?_eq_some_iff.mp found).1
    refine ⟨mapSlot path, ?_, rfl, rfl⟩
    rw [show (Master.fresh config job).maps = mapTable job.paths from rfl,
      mapTable_read _ _ (Nat.lt_of_lt_of_le below job.maps_le), found]
    rfl

def PathsHeld (maps : Table maxMapTasks Task) (paths : List Bytes) : Prop :=
  ∀ i path, paths[i]? = some path → ∃ t, maps.read i = some t ∧ t.inputPath = path ∧ t.inputPathLen = path.length

theorem writePaths_eq {maps : Table maxMapTasks Task} {paths : List Bytes} (held : PathsHeld maps paths) (bufSz : Nat)
    (rest : List Bytes) (i : Nat) (out : Bytes) (position : paths.drop i = rest)
    (room : out.length + (rest.flatMap pathField).length ≤ bufSz) :
    writePaths bufSz maps rest.length i out = .ok (out ++ rest.flatMap pathField) := by
  -- `rest` is what the paths still have from slot `i` on; the table is read at that slot.
  induction rest generalizing i out with
  | nil => simp [writePaths]
  | cons path rest ih =>
    have here : paths[i]? = some path := by
      have := congrArg (·[0]?) position
      simpa using this
    obtain ⟨t, found, bytes, length⟩ := held i path here
    have next : paths.drop (i + 1) = rest := by
      have := congrArg List.tail position
      simpa using this
    simp only [List.flatMap_cons, List.length_append, pathField, BigEndian.encode_length] at room
    simp only [List.length_cons, writePaths, found, bytes, length, List.take_length]
    rw [if_neg (by omega), ih (i + 1) _ next (by
      simp only [List.length_append, BigEndian.encode_length]; omega)]
    simp [pathField]

theorem jobBufSize_eq {m : Master} {paths : List Bytes} (count : m.job.M = paths.length)
    (held : PathsHeld m.maps paths) : jobBufSize m = 16 + (paths.flatMap pathField).length := by
  have sizes : (List.range m.job.M).map (fun i => 2 + ((m.maps.read i).map (·.inputPathLen)).getD 0) =
      paths.map fun path => (pathField path).length := by
    apply List.ext_getElem
    · simp [count]
    · intro i left right
      have inside : i < paths.length := by simpa [count] using left
      obtain ⟨t, found, _, length⟩ := held i paths[i] (List.getElem?_eq_getElem inside)
      simp [found, length, pathField]
  simp only [jobBufSize, sizes, List.length_flatMap]

theorem jobBody_length (paths : List Bytes) (R : Nat) :
    (jobBody paths R).length = 8 + (paths.flatMap pathField).length := by
  simp only [jobBody, List.length_append, BigEndian.encode_length]
  omega

theorem aofWriteJob_eq {m : Master} {paths : List Bytes} (count : m.job.M = paths.length)
    (held : PathsHeld m.maps paths) (script : List WriteResult) (file : Bytes) (R : Nat) :
    aofWriteJob script file (jobBufSize m) m.job.M R m.maps =
      some ((writeAll script file (withCrc (jobBody paths R))).1,
        (writeAll script file (withCrc (jobBody paths R))).2 == some (withCrc (jobBody paths R)).length) := by
  have size := jobBufSize_eq count held
  have fields := writePaths_eq held (jobBufSize m) paths 0
    (BigEndian.encode 4 paths.length ++ BigEndian.encode 4 R) rfl (by
      rw [size]
      simp only [List.length_append, BigEndian.encode_length]
      omega)
  rw [List.append_assoc, ← jobBody] at fields
  rw [aofWriteJob, if_neg (by rw [size]; omega), count, fields]
  simp only
  rw [if_neg (by rw [withCrc_length, jobBody_length, size]; omega)]

theorem aofInit_empty {m : Master} {job : JobDef} (holds : m.Holds job) (fd : Nat) (createdMs : UInt64) :
    aofInit m [] (.good fd createdMs) = some ({ m with aofFd := fd }, logBytes createdMs job [], true) := by
  have reduces : m.job.R = job.R := holds.total .reduce
  have written := aofWriteJob_eq (holds.total .map) holds.path [] (aofFileHeader createdMs) job.R
  rw [writeAll_nil, beq_self_eq_true] at written
  simp only [aofInit, InitEnv.good, ne_eq, not_true_eq_false, ↓reduceIte, aofWriteFileHeader, writeAll_nil,
    aofFileHeader_length, beq_self_eq_true, List.nil_append, reduces, written, Option.map_some, Bool.and_self]
  simp [logBytes, JobDef.header]

theorem aofAppendCompleted_file {m : Master} (opened : 0 ≤ m.aofFd) (script : List WriteResult)
    (flush : Bool) (file : Bytes) (msg : TaskDoneReq) (kind : Option TaskKind) :
    (aofAppendCompleted m script flush file msg kind).1 =
      file ++ (AofRecord.of msg kind).bytes.take (WriteResult.accepted script aofRecordSize) := by
  have valid : ¬ m.aofFd < 0 := by omega
  simp [aofAppendCompleted, valid, aofWriteRecord, writeAll_eq]

end MapReduce
