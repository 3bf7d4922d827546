import MapReduce.Aof.Write

/-! The reading half of `aof.c`: header checks, the job header, and replay.

`aof_load` either returns 0 with a restored master, returns -1, or leaves
defined behaviour: `aof_read_job` sizes its buffer from a count it has not
validated, so a read can run past it, and the exits before a buffer exists free
a pointer that was never set.
-/

set_option autoImplicit false

namespace MapReduce

/-- The bytes `read_exact` obtains, and what is left of the file. -/
def readExact (n : Nat) (file : Bytes) : Bytes × Bytes := (file.take n, file.drop n)

/-! ## File header -/

def aofReadFileHeader (file : Bytes) : Except Stop Bytes :=
  let (hdr, rest) := readExact aofFileHeaderSize file
  let crcAt := aofFileHeaderSize - aofFileCrcLen
  if hdr.length ≠ aofFileHeaderSize then .error .failed
  else if hdr.take aofFileMagicLen ≠ aofFileMagic then .error .failed
  else if BigEndian.value ((hdr.drop aofFileMagicLen).take aofFileVersionLen) ≠ aofFileVersion then
    .error .failed
  else if BigEndian.value ((hdr.drop crcAt).take aofFileCrcLen) ≠ (crc64 0 (hdr.take crcAt)).toNat then
    .error .failed
  else .ok rest

/-! ## Job header -/

structure AofJob where
  M : Nat
  R : Nat
  buf : Bytes
  deriving DecidableEq, Repr

/-- One `read_exact` of `n` bytes to the end of `job_buf`, which has room for `size`. -/
def readInto (size n : Nat) (buf file : Bytes) : Except Stop (Bytes × Bytes) :=
  let (field, rest) := readExact n file
  if buf.length + field.length > size then .error .undefined
  else if field.length ≠ n then .error .failed
  else .ok (buf ++ field, rest)

def readPaths (size : Nat) : Nat → Bytes → Bytes → Except Stop (Bytes × Bytes)
  | 0, buf, file => .ok (buf, file)
  | left + 1, buf, file => do
    let (buf, file) ← readInto size 2 buf file
    -- The length is taken back out of the buffer it was just read into.
    let (buf, file) ← readInto size (BigEndian.value (buf.drop (buf.length - 2))) buf file
    readPaths size left buf file

/-- `job_buf_size`; the product is one of 32-bit unsigned numbers. -/
def readBufSize (m : Nat) : Nat := 4 + 4 + m * (2 + mapreducePathMax) % 2 ^ 32 + 8

def aofReadJob (file : Bytes) : Except Stop (AofJob × Bytes) :=
  let (hdr, rest) := readExact 8 file
  -- The jump to `done` passes the declaration of `job_buf`, which is freed there.
  if hdr.length ≠ 8 then .error .undefined
  else do
    let m := BigEndian.value (hdr.take 4)
    let r := BigEndian.value (hdr.drop 4)
    let (buf, rest) ← readPaths (readBufSize m) m hdr rest
    let (buf, rest) ← readInto (readBufSize m) 8 buf rest
    let crcAt := buf.length - 8
    if BigEndian.value (buf.drop crcAt) ≠ (crc64 0 (buf.take crcAt)).toNat then .error .failed
    else .ok (⟨m, r, buf⟩, rest)

/-- The definition pass of `aof_load` over the job buffer, from slot `i` on. -/
def definePaths : Nat → Nat → Bytes → Table maxMapTasks Task → Except Stop (Table maxMapTasks Task)
  | 0, _, _, maps => .ok maps
  | left + 1, i, p, maps =>
    if p.length < 2 then .error .undefined
    else
      let pathLen := BigEndian.value (p.take 2)
      let p := p.drop 2
      if pathLen ≥ mapreducePathMax then .error .failed
      else if p.length < pathLen then .error .undefined
      else match maps.read i with
        | none => .error .undefined
        | some t => definePaths left (i + 1) (p.drop pathLen)
            (maps.write i { t with inputPath := p.take pathLen, inputPathLen := pathLen })

/-! ## Replay -/

/-- `none` is the clean end of the file. -/
def aofReadRecord (file : Bytes) : Except Stop (Option (AofRecord × Bytes)) :=
  let (rec, rest) := readExact aofRecordSize file
  let crcAt := aofRecordSize - aofRecordCrcLen
  if rec.length = 0 then .ok none
  -- A torn record is an error, not the end of the log.
  else if rec.length ≠ aofRecordSize then .error .failed
  else if BigEndian.value ((rec.drop crcAt).take aofRecordCrcLen) ≠ (crc64 0 (rec.take crcAt)).toNat then
    .error .failed
  else
    let kind := UInt8.ofNat (BigEndian.value (rec.take aofRecordKindLen))
    let taskId := UInt32.ofNat (BigEndian.value ((rec.drop aofRecordKindLen).take aofRecordTaskIdLen))
    let attemptId := UInt32.ofNat (BigEndian.value
      ((rec.drop (aofRecordKindLen + aofRecordTaskIdLen)).take aofRecordAttemptIdLen))
    .ok (some (⟨kind, taskId, attemptId⟩, rest))

structure Replay where
  maps : Table maxMapTasks Task
  reduces : Table maxReduceTasks Task
  mapsCount : Nat
  reduceCount : Nat

/-- `tasks[id].state = TASK_COMPLETED` for an id that has passed its range check. -/
def markCompleted {capacity : Nat} (tasks : Table capacity Task) (id : Nat) :
    Except Stop (Table capacity Task) :=
  match tasks.read id with
  | none => .error .undefined
  | some t => .ok (tasks.write id { t with state := .completed })

/-- One record. A kind byte that is neither a map nor a reduce is skipped. -/
def replayRecord (M R : Nat) (s : Replay) (record : AofRecord) : Except Stop Replay :=
  if record.kind = kindCode (some .map) then
    if record.taskId.toNat ≥ M then .error .failed
    else do
      let maps ← markCompleted s.maps record.taskId.toNat
      return { s with maps := maps, mapsCount := s.mapsCount + 1 }
  else if record.kind = kindCode (some .reduce) then
    if record.taskId.toNat ≥ R then .error .failed
    else do
      let reduces ← markCompleted s.reduces record.taskId.toNat
      return { s with reduces := reduces, reduceCount := s.reduceCount + 1 }
  else .ok s

theorem markCompleted_ok {capacity id : Nat} {tasks tasks' : Table capacity Task}
    (marked : markCompleted tasks id = .ok tasks') :
    ∃ t, tasks.read id = some t ∧ tasks' = tasks.write id { t with state := .completed } := by
  unfold markCompleted at marked
  split at marked
  · cases marked
  next t found =>
    cases marked
    exact ⟨t, found, rfl⟩

theorem replayRecord_ok {M R : Nat} {s s' : Replay} {record : AofRecord} (replayed : replayRecord M R s record = .ok s') :
    (record.kind = kindCode (some .map) ∧ record.taskId.toNat < M ∧
      ∃ maps, markCompleted s.maps record.taskId.toNat = .ok maps ∧
        s' = { s with maps := maps, mapsCount := s.mapsCount + 1 }) ∨
    (record.kind = kindCode (some .reduce) ∧ record.taskId.toNat < R ∧
      ∃ reduces, markCompleted s.reduces record.taskId.toNat = .ok reduces ∧
        s' = { s with reduces := reduces, reduceCount := s.reduceCount + 1 }) ∨
    ((∀ kind, record.kind ≠ kindCode (some kind)) ∧ s' = s) := by
  unfold replayRecord at replayed
  split at replayed
  next isMap =>
    split at replayed
    · cases replayed
    next inside =>
      cases marked : markCompleted s.maps record.taskId.toNat with
      | error _ =>
        rw [marked] at replayed
        cases replayed
      | ok maps =>
        rw [marked] at replayed
        cases replayed
        exact .inl ⟨isMap, Nat.not_le.mp inside, maps, rfl, rfl⟩
  next notMap =>
    split at replayed
    next isReduce =>
      split at replayed
      · cases replayed
      next inside =>
        cases marked : markCompleted s.reduces record.taskId.toNat with
        | error _ =>
          rw [marked] at replayed
          cases replayed
        | ok reduces =>
          rw [marked] at replayed
          cases replayed
          exact .inr (.inl ⟨isReduce, Nat.not_le.mp inside, reduces, rfl, rfl⟩)
    next notReduce =>
      cases replayed
      refine .inr (.inr ⟨fun kind => ?_, rfl⟩)
      cases kind
      · exact notMap
      · exact notReduce

/-- The record loop. Each record takes bytes off the file, so its length bounds the passes. -/
def replayLoop (M R : Nat) : Nat → Bytes → Replay → Except Stop Replay
  | 0, _, _ => .error .undefined
  | fuel + 1, file, s => do
    match ← aofReadRecord file with
    | none => return s
    | some (record, rest) => replayLoop M R fuel rest (← replayRecord M R s record)

/-- `aof_load` behind the headers: the counts, the paths and the records. -/
def loadJob (m : Master) (job : AofJob) (rest : Bytes) : Except Stop Master :=
  -- The counts are checked only now, after the paths have been read.
  if job.M > maxMapTasks ∨ job.R > maxReduceTasks then .error .failed
  else do
    let maps ← definePaths job.M 0 (job.buf.drop 8) (resetPrefix m.maps job.M)
    let s ← replayLoop job.M job.R (rest.length + 1) rest
      ⟨maps, resetPrefix m.reduces job.R, 0, 0⟩
    return maybeAdvancePhase { m with
      job := { m.job with
        M := job.M
        R := job.R
        taskTimeoutMs := m.config.taskTimeoutMs
        mapsDone := s.mapsCount % 2 ^ 32
        reducesDone := s.reduceCount % 2 ^ 32 }
      maps := s.maps
      reduces := s.reduces }

/-- `aof_load`. The counters of the loop are `size_t`, those of the job 32 bits wide. -/
def aofLoad (m : Master) (file : Bytes) : Except Stop Master :=
  if file = [] then .ok m
  else if file.length < aofFileHeaderSize then .error .failed
  else do
    -- A bad file header jumps to `done` past the declaration of `aof_job`, whose buffer is freed there.
    let rest ← (aofReadFileHeader file).mapError fun _ => .undefined
    let (job, rest) ← aofReadJob rest
    loadJob m job rest

end MapReduce
