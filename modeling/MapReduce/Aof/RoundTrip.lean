import MapReduce.Aof.Load

/-! What `aof_load` makes of a log the master wrote, whole or cut short.

The bytes are split section by section, and each reader is shown to consume
exactly what its writer produced. Replay of in-range records is then a closed
form: it marks the recorded tasks and counts the records of each kind.
-/

set_option autoImplicit false

namespace MapReduce

/-! ## Reading one section -/

theorem crc_fits (s : Bytes) : (crc64 0 s).toNat < 256 ^ 8 := (crc64 0 s).toNat_lt

theorem withCrc_check {s : Bytes} {n : Nat} (covered : s.length = n) :
    BigEndian.value (((withCrc s).drop n).take 8) = (crc64 0 ((withCrc s).take n)).toNat := by
  have stored : ((withCrc s).drop n).take 8 = BigEndian.encode 8 (crc64 0 s).toNat := by
    rw [withCrc, List.drop_left' covered]
    exact List.take_of_length_le (by simp)
  rw [stored, withCrc, List.take_left' covered, BigEndian.value_encode 8 (crc_fits s)]

theorem withCrc_of_check {body crc : Bytes} (length : crc.length = 8)
    (check : BigEndian.value crc = (crc64 0 body).toNat) : body ++ crc = withCrc body := by
  have stored := BigEndian.encode_value crc
  rw [length, check] at stored
  rw [withCrc, stored]

/-- A file header the reader accepts. The flags and the time of creation are free. -/
structure IsFileHeader (hdr : Bytes) : Prop where
  length : hdr.length = aofFileHeaderSize
  magic : hdr.take aofFileMagicLen = aofFileMagic
  version : BigEndian.value ((hdr.drop aofFileMagicLen).take aofFileVersionLen) = aofFileVersion
  crc : BigEndian.value ((hdr.drop (aofFileHeaderSize - aofFileCrcLen)).take aofFileCrcLen) =
    (crc64 0 (hdr.take (aofFileHeaderSize - aofFileCrcLen))).toNat

theorem aofFileHeader_isFileHeader (createdMs : UInt64) : IsFileHeader (aofFileHeader createdMs) where
  length := aofFileHeader_length createdMs
  magic := rfl
  version := rfl
  crc := withCrc_check (aofFileHeaderBody_length createdMs)

theorem aofReadFileHeader_header {hdr : Bytes} (header : IsFileHeader hdr) (rest : Bytes) :
    aofReadFileHeader (hdr ++ rest) = .ok rest := by
  have front : (hdr ++ rest).take aofFileHeaderSize = hdr := List.take_left' header.length
  have left : (hdr ++ rest).drop aofFileHeaderSize = rest := List.drop_left' header.length
  simp only [aofReadFileHeader, readExact, front, left, header.length, header.magic, header.version, header.crc,
    ne_eq, not_true_eq_false, ↓reduceIte]

/-- The job header of a log within the limits of `aof_load`, which lets both counts be zero. -/
structure LogHeader where
  paths : List Bytes
  R : Nat
  maps_le : paths.length ≤ maxMapTasks
  reduces_le : R ≤ maxReduceTasks
  path_short : ∀ path ∈ paths, path.length < mapreducePathMax

namespace LogHeader

def M (header : LogHeader) : Nat := header.paths.length

def total (header : LogHeader) : TaskKind → Nat
  | .map => header.M
  | .reduce => header.R

theorem total_le (header : LogHeader) (kind : TaskKind) : header.total kind ≤ kind.capacity := by
  cases kind
  · exact header.maps_le
  · exact header.reduces_le

def bytes (header : LogHeader) : Bytes := withCrc (jobBody header.paths header.R)

def log (hdr : Bytes) (header : LogHeader) (records : List AofRecord) : Bytes :=
  hdr ++ (header.bytes ++ records.flatMap AofRecord.bytes)

end LogHeader

def JobDef.logHeader (job : JobDef) : LogHeader where
  paths := job.paths
  R := job.R
  maps_le := job.maps_le
  reduces_le := job.reduces_le
  path_short := job.path_short

theorem JobDef.logHeader_total (job : JobDef) (kind : TaskKind) : job.logHeader.total kind = job.total kind := by
  cases kind <;> rfl

theorem readInto_append (size : Nat) (buf field rest : Bytes) (room : buf.length + field.length ≤ size) :
    readInto size field.length buf (field ++ rest) = .ok (buf ++ field, rest) := by
  simp [readInto, readExact, show ¬ size < buf.length + field.length by omega]

theorem readPaths_fields (size : Nat) (paths : List Bytes) (buf rest : Bytes)
    (short : ∀ path ∈ paths, path.length < mapreducePathMax)
    (room : buf.length + (paths.flatMap pathField).length ≤ size) :
    readPaths size paths.length buf (paths.flatMap pathField ++ rest) =
      .ok (buf ++ paths.flatMap pathField, rest) := by
  induction paths generalizing buf with
  | nil => simp [readPaths]
  | cons path paths ih =>
    have fits : path.length < 256 ^ 2 := by
      have := short path (by simp)
      simp only [mapreducePathMax] at this
      omega
    simp only [List.flatMap_cons, List.length_append, pathField, BigEndian.encode_length] at room
    have len := readInto_append size buf (BigEndian.encode 2 path.length)
      (path ++ (paths.flatMap pathField ++ rest)) (by simp only [BigEndian.encode_length]; omega)
    have body := readInto_append size (buf ++ BigEndian.encode 2 path.length) path
      (paths.flatMap pathField ++ rest) (by simp only [List.length_append, BigEndian.encode_length]; omega)
    rw [BigEndian.encode_length] at len
    have kept : (buf ++ BigEndian.encode 2 path.length).drop
        ((buf ++ BigEndian.encode 2 path.length).length - 2) = BigEndian.encode 2 path.length := by simp
    simp only [List.flatMap_cons, pathField, List.append_assoc, List.length_cons, readPaths]
    simp only [len, kept, BigEndian.value_encode 2 fits, body, bind, Except.bind]
    rw [ih _ (fun p member => short p (by simp [member])) (by
      simp only [List.length_append, BigEndian.encode_length]; omega)]
    simp

theorem pathFields_length_le (paths : List Bytes)
    (short : ∀ path ∈ paths, path.length < mapreducePathMax) :
    (paths.flatMap pathField).length ≤ paths.length * (2 + mapreducePathMax) := by
  induction paths with
  | nil => simp
  | cons path paths ih =>
    have first := short path (by simp)
    have rest := ih fun p member => short p (by simp [member])
    simp only [List.flatMap_cons, List.length_append, pathField, BigEndian.encode_length, List.length_cons,
      Nat.add_mul, Nat.one_mul]
    omega

namespace LogHeader

/-- The size `aof_read_job` computes does not wrap within the limits, and covers the header. -/
theorem room (header : LogHeader) :
    (jobBody header.paths header.R).length + 8 ≤ readBufSize header.M := by
  have maps := header.maps_le
  have fields := pathFields_length_le header.paths header.path_short
  simp only [maxMapTasks] at maps
  -- 256 paths of full length are far below 2 ^ 32.
  rw [readBufSize, Nat.mod_eq_of_lt (by simp only [M, mapreducePathMax]; omega), jobBody_length]
  simp only [M]
  omega

theorem bytes_append (header : LogHeader) (rest : Bytes) :
    header.bytes ++ rest = (BigEndian.encode 4 header.M ++ BigEndian.encode 4 header.R) ++
      (header.paths.flatMap pathField ++
        (BigEndian.encode 8 (crc64 0 (jobBody header.paths header.R)).toNat ++ rest)) := by
  unfold bytes withCrc
  generalize BigEndian.encode 8 (crc64 0 (jobBody header.paths header.R)).toNat = crc
  simp [jobBody, M]

theorem bytes_drop (header : LogHeader) (rest : Bytes) :
    (header.bytes ++ rest).drop 8 = header.paths.flatMap pathField ++
      (BigEndian.encode 8 (crc64 0 (jobBody header.paths header.R)).toNat ++ rest) := by
  rw [header.bytes_append, List.drop_left' (by simp)]

end LogHeader

theorem aofReadJob_header (header : LogHeader) (rest : Bytes) :
    aofReadJob (header.bytes ++ rest) = .ok (⟨header.M, header.R, header.bytes⟩, rest) := by
  have maps : header.M < 256 ^ 4 := by
    have := header.maps_le
    simp only [maxMapTasks] at this
    simp only [LogHeader.M]
    omega
  have reduces : header.R < 256 ^ 4 := by
    have := header.reduces_le
    simp only [maxReduceTasks] at this
    omega
  have front : (BigEndian.encode 4 header.M ++ BigEndian.encode 4 header.R).length = 8 := by simp
  have hdr : (header.bytes ++ rest).take 8 = BigEndian.encode 4 header.M ++ BigEndian.encode 4 header.R := by
    rw [header.bytes_append, List.take_left' front]
  have room := header.room
  have paths := readPaths_fields (readBufSize header.M) header.paths
    (BigEndian.encode 4 header.M ++ BigEndian.encode 4 header.R)
    (BigEndian.encode 8 (crc64 0 (jobBody header.paths header.R)).toNat ++ rest) header.path_short
    (by rw [front]; rw [jobBody_length] at room; omega)
  rw [List.append_assoc, show header.paths.length = header.M from rfl] at paths
  change _ = Except.ok (jobBody header.paths header.R, _) at paths
  have crc := readInto_append (readBufSize header.M) (jobBody header.paths header.R)
    (BigEndian.encode 8 (crc64 0 (jobBody header.paths header.R)).toNat) rest (by simpa using room)
  rw [BigEndian.encode_length, ← withCrc, ← LogHeader.bytes] at crc
  -- The reader checks the buffer it has filled, which is the header again.
  have check := withCrc_check (rfl : (jobBody header.paths header.R).length = _)
  have crcAt : header.bytes.length - 8 = (jobBody header.paths header.R).length := by simp [LogHeader.bytes]
  have last : (header.bytes.drop (jobBody header.paths header.R).length).take 8 =
      header.bytes.drop (jobBody header.paths header.R).length :=
    List.take_of_length_le (by simp [LogHeader.bytes])
  simp only [aofReadJob, readExact, hdr, header.bytes_drop, front, ne_eq, not_true_eq_false, ↓reduceIte,
    List.take_left' (BigEndian.encode_length 4 header.M), List.drop_left' (BigEndian.encode_length 4 header.M),
    BigEndian.value_encode 4 maps, BigEndian.value_encode 4 reduces, bind, Except.bind, paths, crc, crcAt]
  rw [if_neg (not_not_intro (by rw [← last]; exact check))]

theorem mapSlot_eq (path : Bytes) :
    mapSlot path = { taskResetPending with inputPath := path, inputPathLen := path.length } := rfl

theorem definePaths_field {path : Bytes} (fits : path.length < 256 ^ 2) (tail : Bytes) (left i : Nat)
    (maps : Table maxMapTasks Task) :
    definePaths (left + 1) i (pathField path ++ tail) maps =
      if path.length ≥ mapreducePathMax then .error .failed
      else match maps.read i with
        | none => .error .undefined
        | some t => definePaths left (i + 1) tail
            (maps.write i { t with inputPath := path, inputPathLen := path.length }) := by
  have two : (BigEndian.encode 2 path.length).length = 2 := BigEndian.encode_length _ _
  have field : ¬ (BigEndian.encode 2 path.length ++ (path ++ tail)).length < 2 := by
    rw [List.length_append, two]
    omega
  have whole : ¬ (path ++ tail).length < path.length := by
    rw [List.length_append]
    omega
  cases slot : maps.read i <;>
    simp only [pathField, List.append_assoc, definePaths, if_neg field, List.take_left' two, List.drop_left' two,
      BigEndian.value_encode 2 fits, if_neg whole, List.take_left, List.drop_left, slot]

theorem definePaths_fields (done rest : List Bytes) (tail : Bytes) (maps : Table maxMapTasks Task)
    (bound : (done ++ rest).length ≤ maxMapTasks)
    (short : ∀ path ∈ rest, path.length < mapreducePathMax)
    (filled : ∀ i, i < maxMapTasks → maps.read i =
      some (((done[i]?).map mapSlot).getD (if i < (done ++ rest).length then taskResetPending else .zero))) :
    definePaths rest.length done.length (rest.flatMap pathField ++ tail) maps =
      .ok (mapTable (done ++ rest)) := by
  -- `filled` says that the slots before `done.length` are defined and the others are still reset.
  induction rest generalizing done maps with
  | nil =>
    simp only [List.length_nil, definePaths]
    congr 1
    apply Table.ext_read
    intro i inside
    rw [filled i inside, mapTable_read _ _ inside, List.append_nil]
    cases entry : done[i]? with
    | some path => rfl
    | none =>
      have past := List.getElem?_eq_none_iff.mp entry
      simp [show ¬ i < done.length by omega]
  | cons path rest ih =>
    have pathShort := short path (by simp)
    have fits : path.length < 256 ^ 2 := by simp only [mapreducePathMax] at pathShort; omega
    have inside : done.length < maxMapTasks := by
      simp only [List.length_append, List.length_cons] at bound; omega
    have slot : maps.read done.length = some taskResetPending := by
      rw [filled _ inside]; simp
    rw [List.flatMap_cons, List.append_assoc, List.length_cons, definePaths_field fits, if_neg (by omega)]
    simp only [slot]
    rw [← mapSlot_eq]
    have step := ih (done ++ [path]) (maps.write done.length (mapSlot path)) (by simpa using bound)
      (fun p member => short p (by simp [member])) (by
        intro i below
        rw [Table.read_write]
        by_cases same : i = done.length
        · simp [same, inside]
        · rw [if_neg same, filled i below]
          by_cases before : i < done.length
          · simp [List.getElem?_append_left before]
          · have past : (done ++ [path]).length ≤ i := by simp only [List.length_append, List.length_singleton]; omega
            simp [List.getElem?_eq_none past, List.getElem?_eq_none (show done.length ≤ i by omega)])
    simpa using step

theorem definePaths_header (header : LogHeader) :
    definePaths header.M 0 (header.bytes.drop 8) (resetPrefix (Table.fill .zero) header.M) =
      .ok (mapTable header.paths) := by
  have buf := header.bytes_drop []
  rw [List.append_nil, List.append_nil] at buf
  rw [buf]
  refine definePaths_fields [] header.paths _ _ header.maps_le header.path_short ?_
  intro i inside
  rw [resetPrefix_read _ _ _ inside]
  by_cases below : i < header.M
  · simp [below, show i < header.paths.length from below]
  · simp [below, inside, show ¬ i < header.paths.length from below]

/-! ## Reading one record -/

theorem aofReadRecord_bytes (record : AofRecord) (rest : Bytes) :
    aofReadRecord (record.bytes ++ rest) = .ok (some (record, rest)) := by
  have front : (record.bytes ++ rest).take aofRecordSize = record.bytes := List.take_left' record.bytes_length
  have left : (record.bytes ++ rest).drop aofRecordSize = rest := List.drop_left' record.bytes_length
  have kind : record.bytes.take aofRecordKindLen = [record.kind] := rfl
  have taskId : (record.bytes.drop aofRecordKindLen).take aofRecordTaskIdLen =
      BigEndian.encode 4 record.taskId.toNat := by
    simp [AofRecord.bytes, AofRecord.body, withCrc, aofRecordKindLen, aofRecordTaskIdLen]
  have attemptId : (record.bytes.drop (aofRecordKindLen + aofRecordTaskIdLen)).take aofRecordAttemptIdLen =
      BigEndian.encode 4 record.attemptId.toNat := by
    simp [AofRecord.bytes, AofRecord.body, withCrc, aofRecordKindLen, aofRecordTaskIdLen,
      aofRecordAttemptIdLen, Nat.add_comm 1 4]
  have nonempty : ¬ aofRecordSize = 0 := by decide
  have crc : BigEndian.value ((record.bytes.drop (aofRecordSize - aofRecordCrcLen)).take aofRecordCrcLen) =
      (crc64 0 (record.bytes.take (aofRecordSize - aofRecordCrcLen))).toNat := withCrc_check record.body_length
  simp only [aofReadRecord, readExact, front, left, AofRecord.bytes_length, nonempty, ne_eq,
    not_true_eq_false, ↓reduceIte, crc]
  simp only [kind, taskId, attemptId, BigEndian.value_encode 4 record.taskId.toNat_lt,
    BigEndian.value_encode 4 record.attemptId.toNat_lt, UInt32.ofNat_toNat]
  simp [BigEndian.value]

theorem aofReadRecord_nil : aofReadRecord [] = .ok none := rfl

theorem aofReadRecord_torn {tail : Bytes} (some_left : tail ≠ []) (short : tail.length < aofRecordSize) :
    aofReadRecord tail = .error .failed := by
  have whole : tail.take aofRecordSize = tail := List.take_of_length_le (by omega)
  have positive : tail.length ≠ 0 := by simpa using some_left
  simp only [aofReadRecord, readExact, whole, positive, ↓reduceIte]
  rw [if_pos (by omega)]

/-! ## Replay in closed form -/

structure Completion where
  kind : TaskKind
  taskId : UInt32
  attemptId : UInt32
  deriving DecidableEq, Repr

def Completion.record (c : Completion) : AofRecord := ⟨kindCode (some c.kind), c.taskId, c.attemptId⟩

def Completion.task (c : Completion) : TaskKind × Nat := (c.kind, c.taskId.toNat)

def Completion.InRange (job : JobDef) (c : Completion) : Prop := c.taskId.toNat < job.total c.kind

def Completion.Within (header : LogHeader) (c : Completion) : Prop := c.taskId.toNat < header.total c.kind

theorem Completion.InRange.within {job : JobDef} {c : Completion} (range : c.InRange job) : c.Within job.logHeader := by
  unfold Within
  rw [job.logHeader_total]
  exact range

def countKind (kind : TaskKind) (completions : List Completion) : Nat :=
  completions.countP (·.kind == kind)

/-- The table with every recorded task completed and nothing else changed. -/
def markAll {capacity : Nat} (kind : TaskKind) (completions : List Completion) (tasks : Table capacity Task) :
    Table capacity Task :=
  ⟨fun j => if (kind, j.val) ∈ completions.map Completion.task then { tasks.slot j with state := .completed }
    else tasks.slot j⟩

theorem markAll_read {capacity : Nat} (kind : TaskKind) (completions : List Completion)
    (tasks : Table capacity Task) (i : Nat) :
    (markAll kind completions tasks).read i = (tasks.read i).map fun t =>
      if (kind, i) ∈ completions.map Completion.task then { t with state := .completed } else t := by
  unfold markAll Table.read
  split <;> rfl

theorem markAll_cons_other {capacity : Nat} (kind : TaskKind) (c : Completion) (rest : List Completion)
    (tasks : Table capacity Task) (other : c.kind ≠ kind) :
    markAll kind (c :: rest) tasks = markAll kind rest tasks := by
  apply Table.ext_read
  intro i inside
  have different : ¬ (kind, i) = c.task := fun same => other (congrArg Prod.fst same).symm
  simp only [markAll_read, List.map_cons, List.mem_cons, different, false_or]

theorem markAll_cons_same {capacity : Nat} {kind : TaskKind} (c : Completion) (rest : List Completion)
    {tasks : Table capacity Task} {t : Task} (same : c.kind = kind) (found : tasks.read c.taskId.toNat = some t) :
    markAll kind rest (tasks.write c.taskId.toNat { t with state := .completed }) =
      markAll kind (c :: rest) tasks := by
  apply Table.ext_read
  intro i inside
  have task : (kind, i) = c.task ↔ i = c.taskId.toNat := by simp [Completion.task, same]
  simp only [markAll_read, List.map_cons, List.mem_cons, task, Table.read_write, inside, ↓reduceIte]
  by_cases here : i = c.taskId.toNat
  · subst here
    simp [found]
  · simp [here]

/-- One in-range record. The two kinds run through the same code with their own table and counter. -/
theorem replayRecord_completion (header : LogHeader) (s : Replay) (c : Completion) (range : c.Within header) :
    replayRecord header.M header.R s c.record = .ok ⟨markAll .map [c] s.maps, markAll .reduce [c] s.reduces,
      s.mapsCount + countKind .map [c], s.reduceCount + countKind .reduce [c]⟩ := by
  obtain ⟨kind, taskId, attemptId⟩ := c
  have inside := Nat.lt_of_lt_of_le range (header.total_le kind)
  cases kind with
  | map =>
    obtain ⟨t, found⟩ := s.maps.read_isSome inside
    have mark := markAll_cons_same ⟨.map, taskId, attemptId⟩ [] rfl found
    have keep := markAll_cons_other .reduce ⟨.map, taskId, attemptId⟩ [] s.reduces (by simp)
    have below : ¬ header.M ≤ taskId.toNat := Nat.not_le.mpr range
    simp only at mark
    rw [← mark, keep]
    simp [replayRecord, Completion.record, below, markCompleted, found, markAll, countKind]
  | reduce =>
    obtain ⟨t, found⟩ := s.reduces.read_isSome inside
    have mark := markAll_cons_same ⟨.reduce, taskId, attemptId⟩ [] rfl found
    have keep := markAll_cons_other .map ⟨.reduce, taskId, attemptId⟩ [] s.maps (by simp)
    have below : ¬ header.R ≤ taskId.toNat := Nat.not_le.mpr range
    simp only at mark
    rw [← mark, keep]
    simp [replayRecord, Completion.record, kindCode, below, markCompleted, found, markAll, countKind]

theorem markAll_append {capacity : Nat} (kind : TaskKind) (first second : List Completion)
    (tasks : Table capacity Task) :
    markAll kind second (markAll kind first tasks) = markAll kind (first ++ second) tasks := by
  apply Table.ext_read
  intro i inside
  simp only [markAll_read, Option.map_map, List.map_append, List.mem_append]
  congr 1
  funext t
  by_cases early : (kind, i) ∈ first.map Completion.task <;>
    by_cases late : (kind, i) ∈ second.map Completion.task <;> simp [early, late]

theorem markAll_nil {capacity : Nat} (kind : TaskKind) (tasks : Table capacity Task) :
    markAll kind [] tasks = tasks := by
  simp [markAll]

theorem countKind_append (kind : TaskKind) (first second : List Completion) :
    countKind kind (first ++ second) = countKind kind first + countKind kind second :=
  List.countP_append

theorem replay_completions (header : LogHeader) (s : Replay) (completions : List Completion)
    (ranges : ∀ c ∈ completions, c.Within header) :
    (completions.map Completion.record).foldlM (replayRecord header.M header.R) s =
      .ok ⟨markAll .map completions s.maps, markAll .reduce completions s.reduces,
        s.mapsCount + countKind .map completions, s.reduceCount + countKind .reduce completions⟩ := by
  induction completions generalizing s with
  | nil => simp [markAll_nil, countKind, pure, Except.pure]
  | cons c rest ih =>
    simp only [List.map_cons, List.foldlM_cons, replayRecord_completion header s c (ranges c (by simp)), bind,
      Except.bind]
    rw [ih _ fun d member => ranges d (by simp [member])]
    have split : c :: rest = [c] ++ rest := rfl
    simp only [split, countKind_append, ← markAll_append, Nat.add_assoc]

theorem replayLoop_records (M R fuel : Nat) (records : List AofRecord) (tail : Bytes) (s : Replay) :
    replayLoop M R (records.length + fuel) (records.flatMap AofRecord.bytes ++ tail) s =
      (records.foldlM (replayRecord M R) s).bind (replayLoop M R fuel tail) := by
  induction records generalizing s with
  | nil => simp [pure, Except.pure, Except.bind]
  | cons record rest ih =>
    simp only [List.flatMap_cons, List.append_assoc, List.length_cons, Nat.add_right_comm _ 1 fuel, replayLoop,
      aofReadRecord_bytes, List.foldlM_cons]
    simp only [bind, Except.bind]
    cases replayRecord M R s record with
    | error stop => rfl
    | ok next => exact ih next

theorem replayLoop_tail (M R : Nat) (records : List AofRecord) (tail : Bytes) (s : Replay) :
    ∃ fuel, replayLoop M R ((records.flatMap AofRecord.bytes ++ tail).length + 1)
        (records.flatMap AofRecord.bytes ++ tail) s =
      (records.foldlM (replayRecord M R) s).bind (replayLoop M R (fuel + 1) tail) := by
  have bytes := records_length records
  simp only [aofRecordSize, aofRecordKindLen, aofRecordTaskIdLen, aofRecordAttemptIdLen, aofRecordCrcLen] at bytes
  -- A record takes 17 bytes and one unit of fuel.
  refine ⟨records.length * 16 + tail.length, ?_⟩
  rw [← replayLoop_records]
  congr 1
  simp only [List.length_append]
  omega

/-- What the counts of replayed records say about the phase. -/
def phaseOf (M R mapsDone reducesDone : Nat) : JobPhase :=
  if mapsDone = M then (if reducesDone = R then .done else .reduce) else .map

/-- The master `aof_load` rebuilds from a header and records. -/
def LogHeader.restored (config : MasterConfig) (header : LogHeader) (completions : List Completion) : Master :=
  let mapsDone := countKind .map completions % 2 ^ 32
  let reducesDone := countKind .reduce completions % 2 ^ 32
  { Master.zero config with
    job := ⟨header.M, header.R, phaseOf header.M header.R mapsDone reducesDone, mapsDone, reducesDone,
      config.taskTimeoutMs⟩
    maps := markAll .map completions (mapTable header.paths)
    reduces := markAll .reduce completions (resetPrefix (Table.fill .zero) header.R) }

def Master.restored (config : MasterConfig) (job : JobDef) (completions : List Completion) : Master :=
  job.logHeader.restored config completions

theorem maybeAdvancePhase_map (m : Master) (start : m.job.phase = .map) :
    maybeAdvancePhase m =
      { m with job := { m.job with phase := phaseOf m.job.M m.job.R m.job.mapsDone m.job.reducesDone } } := by
  obtain ⟨config, nowMs, cronloops, ⟨M, R, phase, mapsDone, reducesDone, timeout⟩⟩ := m
  simp only at start
  subst start
  by_cases maps : mapsDone = M <;> by_cases reduces : reducesDone = R <;>
    simp [maybeAdvancePhase, phaseOf, maps, reduces]

section Load
variable (config : MasterConfig)

theorem aofLoad_header {hdr : Bytes} (fileHeader : IsFileHeader hdr) (header : LogHeader) (rest : Bytes) :
    aofLoad (Master.zero config) (hdr ++ (header.bytes ++ rest)) =
      (replayLoop header.M header.R (rest.length + 1) rest
        ⟨mapTable header.paths, resetPrefix (Table.fill .zero) header.R, 0, 0⟩).bind fun s =>
          .ok (maybeAdvancePhase { Master.zero config with
            job := ⟨header.M, header.R, .map, s.mapsCount % 2 ^ 32, s.reduceCount % 2 ^ 32, config.taskTimeoutMs⟩
            maps := s.maps
            reduces := s.reduces }) := by
  have size : ¬ (hdr ++ (header.bytes ++ rest)).length < aofFileHeaderSize := by
    simp [fileHeader.length]
  have nonempty : hdr ++ (header.bytes ++ rest) ≠ [] := by
    intro empty
    rw [empty] at size
    exact size (by decide)
  have bounds : ¬ (header.M > maxMapTasks ∨ header.R > maxReduceTasks) := by
    have maps := header.maps_le
    have reduces := header.reduces_le
    simp only [LogHeader.M]
    omega
  have paths := definePaths_header header
  simp only [aofLoad, loadJob, nonempty, ↓reduceIte, size, aofReadFileHeader_header fileHeader, Except.mapError,
    aofReadJob_header, bounds, Master.zero, paths, bind, Except.bind, pure, Except.pure]

theorem aofLoad_completions {hdr : Bytes} (fileHeader : IsFileHeader hdr) (header : LogHeader)
    (completions : List Completion) (ranges : ∀ c ∈ completions, c.Within header) (tail : Bytes) :
    ∃ fuel, aofLoad (Master.zero config)
        (hdr ++ (header.bytes ++ ((completions.map Completion.record).flatMap AofRecord.bytes ++ tail))) =
      (replayLoop header.M header.R (fuel + 1) tail
        ⟨markAll .map completions (mapTable header.paths),
          markAll .reduce completions (resetPrefix (Table.fill .zero) header.R),
          countKind .map completions, countKind .reduce completions⟩).bind fun s =>
          .ok (maybeAdvancePhase { Master.zero config with
            job := ⟨header.M, header.R, .map, s.mapsCount % 2 ^ 32, s.reduceCount % 2 ^ 32, config.taskTimeoutMs⟩
            maps := s.maps
            reduces := s.reduces }) := by
  obtain ⟨fuel, loop⟩ := replayLoop_tail header.M header.R (completions.map Completion.record) tail
    ⟨mapTable header.paths, resetPrefix (Table.fill .zero) header.R, 0, 0⟩
  refine ⟨fuel, ?_⟩
  rw [replay_completions header _ completions ranges] at loop
  rw [aofLoad_header config fileHeader, loop]
  simp only [Except.bind, Nat.zero_add]

theorem aofLoad_whole {hdr : Bytes} (fileHeader : IsFileHeader hdr) (header : LogHeader)
    (completions : List Completion) (ranges : ∀ c ∈ completions, c.Within header) :
    aofLoad (Master.zero config) (header.log hdr (completions.map Completion.record)) =
      .ok (header.restored config completions) := by
  obtain ⟨fuel, load⟩ := aofLoad_completions config fileHeader header completions ranges []
  rw [List.append_nil] at load
  rw [LogHeader.log, load]
  simp only [Except.bind, replayLoop, aofReadRecord_nil, bind, pure, Except.pure]
  rw [maybeAdvancePhase_map _ rfl]
  rfl

variable (createdMs : UInt64) (job : JobDef)

theorem aofLoad_headers (rest : Bytes) :
    aofLoad (Master.zero config) (aofFileHeader createdMs ++ (job.header ++ rest)) =
      (replayLoop job.M job.R (rest.length + 1) rest
        ⟨mapTable job.paths, resetPrefix (Table.fill .zero) job.R, 0, 0⟩).bind fun s =>
          .ok (maybeAdvancePhase { Master.zero config with
            job := ⟨job.M, job.R, .map, s.mapsCount % 2 ^ 32, s.reduceCount % 2 ^ 32, config.taskTimeoutMs⟩
            maps := s.maps
            reduces := s.reduces }) :=
  aofLoad_header config (aofFileHeader_isFileHeader createdMs) job.logHeader rest

theorem aofLoad_log (completions : List Completion) (ranges : ∀ c ∈ completions, c.InRange job) :
    aofLoad (Master.zero config) (logBytes createdMs job (completions.map Completion.record)) =
      .ok (Master.restored config job completions) :=
  aofLoad_whole config (aofFileHeader_isFileHeader createdMs) job.logHeader completions
    fun c member => (ranges c member).within

theorem aofLoad_torn (completions : List Completion) (ranges : ∀ c ∈ completions, c.InRange job) {tail : Bytes}
    (some_left : tail ≠ []) (short : tail.length < aofRecordSize) :
    aofLoad (Master.zero config) (logBytes createdMs job (completions.map Completion.record) ++ tail) =
      .error .failed := by
  obtain ⟨fuel, load⟩ := aofLoad_completions config (aofFileHeader_isFileHeader createdMs) job.logHeader completions
    (fun c member => (ranges c member).within) tail
  rw [logBytes, List.append_assoc, List.append_assoc]
  refine load.trans ?_
  simp only [Except.bind, replayLoop, aofReadRecord_torn some_left short, bind]

end Load

end MapReduce
