import MapReduce.Aof.JobBuffer
import MapReduce.Aof.Recovery

/-! The files `aof_load` accepts, and what it restores from them.

Each reader is inverted: the bytes it accepts are those its writer could have
written, up to the checks it leaves out. Put together, the accepted files are
the logs of headers within the limits, and they have one reading each. The log
language asks for more: tasks of both kinds, and no record of another kind.
-/

set_option autoImplicit false

namespace MapReduce

/-! ## What each reader accepts -/

theorem aofReadFileHeader_ok {file rest : Bytes} (read : aofReadFileHeader file = .ok rest) :
    ∃ hdr, IsFileHeader hdr ∧ file = hdr ++ rest := by
  unfold aofReadFileHeader readExact at read
  simp only at read
  split at read
  · cases read
  next length =>
    split at read
    · cases read
    next magic =>
      split at read
      · cases read
      next version =>
        split at read
        · cases read
        next crc =>
          cases read
          refine ⟨file.take aofFileHeaderSize, ?_, (List.take_append_drop _ _).symm⟩
          exact ⟨not_not.mp length, not_not.mp magic, not_not.mp version, not_not.mp crc⟩

theorem readInto_ok {size n : Nat} {buf file buf' rest : Bytes} (read : readInto size n buf file = .ok (buf', rest)) :
    ∃ field, field.length = n ∧ file = field ++ rest ∧ buf' = buf ++ field := by
  unfold readInto readExact at read
  simp only at read
  split at read
  · cases read
  · split at read
    · cases read
    next length =>
      cases read
      exact ⟨file.take n, not_not.mp length, (List.take_append_drop _ _).symm, rfl⟩

/-- The loop over the paths accepts any lengths; they are looked at later. -/
theorem readPaths_ok {size left : Nat} {buf file buf' rest : Bytes}
    (read : readPaths size left buf file = .ok (buf', rest)) :
    ∃ paths : List Bytes, paths.length = left ∧ (∀ path ∈ paths, path.length < 256 ^ 2) ∧
      file = paths.flatMap pathField ++ rest ∧ buf' = buf ++ paths.flatMap pathField := by
  induction left generalizing buf file with
  | zero =>
    cases read
    exact ⟨[], rfl, by simp, rfl, (List.append_nil _).symm⟩
  | succ left ih =>
    obtain ⟨⟨first, file₁⟩, len, read⟩ := bind_ok_iff.mp read
    obtain ⟨⟨second, file₂⟩, path, read⟩ := bind_ok_iff.mp read
    obtain ⟨field, two, rfl, rfl⟩ := readInto_ok len
    obtain ⟨body, length, rfl, rfl⟩ := readInto_ok path
    obtain ⟨paths, count, short, rfl, rfl⟩ := ih read
    have last : (buf ++ field).drop ((buf ++ field).length - 2) = field := by
      rw [List.length_append, two, Nat.add_sub_cancel, List.drop_left]
    rw [last] at length
    have bound := BigEndian.value_lt field
    have named := BigEndian.encode_value field
    rw [two] at bound named
    refine ⟨body :: paths, by rw [List.length_cons, count], ?_, ?_, ?_⟩
    · intro p member
      rcases List.mem_cons.mp member with rfl | member
      · rw [length]
        exact bound
      · exact short p member
    · simp only [List.flatMap_cons, pathField, length, named, List.append_assoc]
    · simp only [List.flatMap_cons, pathField, length, named, List.append_assoc]

theorem jobBody_of_front {hdr : Bytes} {paths : List Bytes} (eight : hdr.length = 8)
    (count : paths.length = BigEndian.value (hdr.take 4)) :
    hdr ++ paths.flatMap pathField = jobBody paths (BigEndian.value (hdr.drop 4)) := by
  have maps := BigEndian.encode_value (hdr.take 4)
  have reduces := BigEndian.encode_value (hdr.drop 4)
  have low : (hdr.take 4).length = 4 := by rw [List.length_take, eight]; rfl
  have high : (hdr.drop 4).length = 4 := by rw [List.length_drop, eight]
  rw [low] at maps
  rw [high] at reduces
  rw [jobBody, count, maps, reduces, ← List.append_assoc, List.take_append_drop]

theorem aofReadJob_ok {file rest : Bytes} {job : AofJob} (read : aofReadJob file = .ok (job, rest)) :
    ∃ paths : List Bytes, paths.length = job.M ∧ (∀ path ∈ paths, path.length < 256 ^ 2) ∧
      job.buf = withCrc (jobBody paths job.R) ∧ file = withCrc (jobBody paths job.R) ++ rest := by
  have enough : 8 ≤ file.length := by
    apply Nat.not_lt.mp
    intro short
    rw [aofReadJob_undefined.mpr (.inl short)] at read
    cases read
  have eight : (file.take 8).length = 8 := by
    rw [List.length_take]
    omega
  rw [aofReadJob_eq enough] at read
  obtain ⟨⟨buf, tail⟩, filled, check⟩ := bind_ok_iff.mp read
  obtain ⟨⟨body, behind⟩, fields, last⟩ := bind_ok_iff.mp filled
  unfold checkJobCrc at check
  simp only at check
  split at check
  · cases check
  next check' =>
    cases check
    obtain ⟨paths, count, short, split, rfl⟩ := readPaths_ok fields
    obtain ⟨crc, length, rfl, rfl⟩ := readInto_ok last
    have front : file.take 8 ++ paths.flatMap pathField = jobBody paths (BigEndian.value ((file.take 8).drop 4)) :=
      jobBody_of_front eight (by rw [count, List.take_take]; rfl)
    have crcAt : (file.take 8 ++ paths.flatMap pathField ++ crc).length - 8 =
        (file.take 8 ++ paths.flatMap pathField).length := by
      rw [List.length_append, length, Nat.add_sub_cancel]
    rw [crcAt, List.drop_left, List.take_left, front] at check'
    have whole := withCrc_of_check length (not_not.mp check')
    refine ⟨paths, count, short, ?_, ?_⟩
    · rw [front]
      exact whole
    · rw [← whole, ← front, List.append_assoc, List.append_assoc, ← split, List.take_append_drop]

theorem definePaths_ok {paths : List Bytes} {i : Nat} {tail : Bytes} {maps maps' : Table maxMapTasks Task}
    (short : ∀ path ∈ paths, path.length < 256 ^ 2)
    (defined : definePaths paths.length i (paths.flatMap pathField ++ tail) maps = .ok maps') :
    ∀ path ∈ paths, path.length < mapreducePathMax := by
  induction paths generalizing i maps with
  | nil => simp
  | cons path paths ih =>
    rw [List.flatMap_cons, List.append_assoc, List.length_cons, definePaths_field (short path List.mem_cons_self)]
      at defined
    split at defined
    · cases defined
    next fits =>
      split at defined
      · cases defined
      · intro p member
        rcases List.mem_cons.mp member with rfl | member
        · exact Nat.lt_of_not_le fits
        · exact ih (fun q inside => short q (List.mem_cons_of_mem _ inside)) defined p member

theorem aofReadRecord_none {file : Bytes} (read : aofReadRecord file = .ok none) : file = [] := by
  unfold aofReadRecord readExact at read
  simp only at read
  split at read
  next empty =>
    rw [List.length_take] at empty
    apply List.eq_nil_of_length_eq_zero
    simp only [aofRecordSize, aofRecordKindLen, aofRecordTaskIdLen, aofRecordAttemptIdLen, aofRecordCrcLen] at empty
    omega
  · split at read
    · cases read
    · split at read
      · cases read
      · cases read

theorem AofRecord.bytes_of_check {rec : Bytes} (length : rec.length = aofRecordSize)
    (check : BigEndian.value ((rec.drop (aofRecordSize - aofRecordCrcLen)).take aofRecordCrcLen) =
      (crc64 0 (rec.take (aofRecordSize - aofRecordCrcLen))).toNat) :
    rec = AofRecord.bytes ⟨UInt8.ofNat (BigEndian.value (rec.take aofRecordKindLen)),
      UInt32.ofNat (BigEndian.value ((rec.drop aofRecordKindLen).take aofRecordTaskIdLen)),
      UInt32.ofNat (BigEndian.value ((rec.drop (aofRecordKindLen + aofRecordTaskIdLen)).take
        aofRecordAttemptIdLen))⟩ := by
  simp only [aofRecordSize, aofRecordCrcLen, aofRecordKindLen, aofRecordTaskIdLen, aofRecordAttemptIdLen] at *
  obtain ⟨kind, ids, rfl⟩ : ∃ kind ids, rec = kind :: ids := by
    cases rec with
    | nil => cases length
    | cons kind ids => exact ⟨kind, ids, rfl⟩
  simp only [List.length_cons] at length
  have taskId : BigEndian.encode 4 (UInt32.ofNat (BigEndian.value (ids.take 4))).toNat = ids.take 4 :=
    BigEndian.encode_uint32 (by rw [List.length_take]; omega)
  have attemptId : BigEndian.encode 4 (UInt32.ofNat (BigEndian.value ((ids.drop 4).take 4))).toNat =
      (ids.drop 4).take 4 :=
    BigEndian.encode_uint32 (by rw [List.length_take, List.length_drop]; omega)
  have crc : ((ids.drop 4).drop 4).length = 8 := by
    simp only [List.length_drop]
    omega
  have last : ((ids.drop 4).drop 4).take 8 = (ids.drop 4).drop 4 := List.take_of_length_le (by omega)
  have body : (kind :: ids).take 9 = kind :: (ids.take 4 ++ (ids.drop 4).take 4) := by
    rw [List.take_succ_cons, ← List.take_add]
  have tail : (kind :: ids).drop 9 = (ids.drop 4).drop 4 := by
    rw [List.drop_succ_cons, List.drop_drop]
  rw [show 1 + 4 + 4 + 8 - 8 = 9 from rfl, tail, last, body] at check
  have whole := withCrc_of_check crc check
  have kept : UInt8.ofNat (BigEndian.value ((kind :: ids).take 1)) = kind := by simp [BigEndian.value]
  rw [AofRecord.bytes, AofRecord.body, kept]
  simp only [aofRecordTaskIdLen, aofRecordAttemptIdLen]
  rw [show (kind :: ids).drop 1 = ids from rfl, show (kind :: ids).drop (1 + 4) = ids.drop 4 from rfl, taskId,
    attemptId, ← whole, List.cons_append, List.append_assoc, List.take_append_drop, List.take_append_drop]

theorem aofReadRecord_some {file rest : Bytes} {record : AofRecord}
    (read : aofReadRecord file = .ok (some (record, rest))) : file = record.bytes ++ rest := by
  unfold aofReadRecord readExact at read
  simp only at read
  split at read
  · cases read
  · split at read
    · cases read
    next length =>
      split at read
      · cases read
      next check =>
        cases read
        rw [← AofRecord.bytes_of_check (not_not.mp length) (not_not.mp check), List.take_append_drop]

/-! ## Replay -/

/-- The only check on a record: a known kind comes with an id below the count of its tasks. -/
def AofRecord.Replayable (M R : Nat) (record : AofRecord) : Prop :=
  (record.kind = kindCode (some .map) → record.taskId.toNat < M) ∧
    (record.kind = kindCode (some .reduce) → record.taskId.toNat < R)

theorem replayRecord_replayable {M R : Nat} {s s' : Replay} {record : AofRecord}
    (replayed : replayRecord M R s record = .ok s') : record.Replayable M R := by
  rcases replayRecord_ok replayed with ⟨isMap, inside, _⟩ | ⟨isReduce, inside, _⟩ | ⟨unknown, _⟩
  · exact ⟨fun _ => inside, fun isReduce => absurd (isMap.symm.trans isReduce) (by decide)⟩
  · exact ⟨fun isMap => absurd (isMap.symm.trans isReduce) (by decide), fun _ => inside⟩
  · exact ⟨fun isMap => absurd isMap (unknown .map), fun isReduce => absurd isReduce (unknown .reduce)⟩

theorem markCompleted_defined {capacity id : Nat} (tasks : Table capacity Task) (inside : id < capacity) :
    ∃ tasks', markCompleted tasks id = .ok tasks' := by
  obtain ⟨t, found⟩ := tasks.read_isSome inside
  unfold markCompleted
  rw [found]
  exact ⟨_, rfl⟩

theorem replayRecord_defined {M R : Nat} (maps : M ≤ maxMapTasks) (reduces : R ≤ maxReduceTasks) (s : Replay)
    (record : AofRecord) :
    (∃ s', replayRecord M R s record = .ok s') ∨
      (¬ record.Replayable M R ∧ replayRecord M R s record = .error .failed) := by
  unfold replayRecord
  by_cases isMap : record.kind = kindCode (some .map)
  · rw [if_pos isMap]
    by_cases inside : record.taskId.toNat < M
    · obtain ⟨marked, done⟩ := markCompleted_defined s.maps (Nat.lt_of_lt_of_le inside maps)
      rw [if_neg (Nat.not_le.mpr inside), done]
      exact .inl ⟨_, rfl⟩
    · rw [if_pos (Nat.not_lt.mp inside)]
      exact .inr ⟨fun replayable => inside (replayable.1 isMap), rfl⟩
  rw [if_neg isMap]
  by_cases isReduce : record.kind = kindCode (some .reduce)
  · rw [if_pos isReduce]
    by_cases inside : record.taskId.toNat < R
    · obtain ⟨marked, done⟩ := markCompleted_defined s.reduces (Nat.lt_of_lt_of_le inside reduces)
      rw [if_neg (Nat.not_le.mpr inside), done]
      exact .inl ⟨_, rfl⟩
    · rw [if_pos (Nat.not_lt.mp inside)]
      exact .inr ⟨fun replayable => inside (replayable.2 isReduce), rfl⟩
  · rw [if_neg isReduce]
    exact .inl ⟨_, rfl⟩

theorem replay_replayable {M R : Nat} (maps : M ≤ maxMapTasks) (reduces : R ≤ maxReduceTasks)
    {records : List AofRecord} (replayable : ∀ record ∈ records, record.Replayable M R) (s : Replay) :
    ∃ s', records.foldlM (replayRecord M R) s = .ok s' := by
  induction records generalizing s with
  | nil => exact ⟨s, rfl⟩
  | cons record records ih =>
    have first := replayable record List.mem_cons_self
    rcases replayRecord_defined maps reduces s record with ⟨next, replayed⟩ | ⟨refused, _⟩
    · rw [List.foldlM_cons, replayed]
      exact ih (fun other member => replayable other (List.mem_cons_of_mem _ member)) next
    · exact absurd first refused

theorem replayLoop_ok {M R fuel : Nat} {file : Bytes} {s s' : Replay} (replayed : replayLoop M R fuel file s = .ok s') :
    ∃ records : List AofRecord, (∀ record ∈ records, record.Replayable M R) ∧
      file = records.flatMap AofRecord.bytes := by
  induction fuel generalizing file s with
  | zero => cases replayed
  | succ fuel ih =>
    obtain ⟨next, read, replayed⟩ := bind_ok_iff.mp replayed
    cases next with
    | none => exact ⟨[], by simp, aofReadRecord_none read⟩
    | some pair =>
      obtain ⟨record, rest⟩ := pair
      obtain ⟨mid, one, later⟩ := bind_ok_iff.mp replayed
      obtain ⟨records, replayable, rfl⟩ := ih later
      refine ⟨record :: records, ?_, ?_⟩
      · intro other member
        rcases List.mem_cons.mp member with rfl | member
        · exact replayRecord_replayable one
        · exact replayable other member
      · rw [aofReadRecord_some read, List.flatMap_cons]

theorem aofReadRecord_defined (file : Bytes) : aofReadRecord file ≠ .error .undefined := by
  unfold aofReadRecord readExact
  simp only
  split
  · simp
  · split
    · simp
    · split <;> simp

theorem replayLoop_defined {M R fuel : Nat} (maps : M ≤ maxMapTasks) (reduces : R ≤ maxReduceTasks) {file : Bytes}
    (enough : file.length < fuel) (s : Replay) : replayLoop M R fuel file s ≠ .error .undefined := by
  induction fuel generalizing file s with
  | zero => omega
  | succ fuel ih =>
    have defined := aofReadRecord_defined file
    unfold replayLoop
    simp only [bind, Except.bind]
    cases read : aofReadRecord file with
    | error stop =>
      intro undefined
      cases undefined
      exact defined read
    | ok next =>
      cases next with
      | none => simp [pure, Except.pure]
      | some pair =>
        obtain ⟨record, rest⟩ := pair
        have shorter : rest.length < fuel := by
          have split := congrArg List.length (aofReadRecord_some read)
          rw [List.length_append, record.bytes_length] at split
          simp only [aofRecordSize, aofRecordKindLen] at split
          omega
        rcases replayRecord_defined maps reduces s record with ⟨mid, replayed⟩ | ⟨_, refused⟩
        · simp only [replayed]
          exact ih shorter mid
        · simp [refused]

/-! ## The definition pass -/

theorem definePaths_defined {paths : List Bytes} {i : Nat} (bound : i + paths.length ≤ maxMapTasks)
    (short : ∀ path ∈ paths, path.length < 256 ^ 2) (tail : Bytes) (maps : Table maxMapTasks Task) :
    definePaths paths.length i (paths.flatMap pathField ++ tail) maps ≠ .error .undefined := by
  induction paths generalizing i maps with
  | nil => simp [definePaths]
  | cons path paths ih =>
    rw [List.length_cons] at bound
    obtain ⟨t, found⟩ := maps.read_isSome (by omega : i < maxMapTasks)
    rw [List.flatMap_cons, List.append_assoc, List.length_cons, definePaths_field (short path List.mem_cons_self)]
    split
    · simp
    · simp only [found]
      exact ih (by omega) (fun other member => short other (List.mem_cons_of_mem _ member)) _

/-! ## Whole files -/

theorem aofLoad_eq (m : Master) {file : Bytes} (enough : aofFileHeaderSize ≤ file.length) :
    aofLoad m file = ((aofReadFileHeader file).mapError fun _ => .undefined).bind fun rest =>
      (aofReadJob rest).bind fun read => loadJob m read.1 read.2 := by
  have some_bytes : file ≠ [] := by
    rintro rfl
    exact absurd enough (by decide)
  unfold aofLoad
  rw [if_neg some_bytes, if_neg (Nat.not_lt.mpr enough)]
  rfl

theorem jobBody_drop (paths : List Bytes) (R : Nat) :
    ∃ tail, (withCrc (jobBody paths R)).drop 8 = paths.flatMap pathField ++ tail := by
  have front : (BigEndian.encode 4 paths.length ++ BigEndian.encode 4 R).length = 8 := by simp
  refine ⟨BigEndian.encode 8 (crc64 0 (jobBody paths R)).toNat, ?_⟩
  unfold withCrc
  generalize BigEndian.encode 8 (crc64 0 (jobBody paths R)).toNat = crc
  rw [jobBody, ← List.append_assoc (BigEndian.encode 4 paths.length), List.append_assoc, List.drop_left' front]

theorem loadJob_defined (m : Master) {file rest : Bytes} {job : AofJob} (read : aofReadJob file = .ok (job, rest)) :
    loadJob m job rest ≠ .error .undefined := by
  obtain ⟨paths, count, short, buf, -⟩ := aofReadJob_ok read
  obtain ⟨tail, split⟩ := jobBody_drop paths job.R
  unfold loadJob
  split
  · simp
  next bounds =>
    have maps : job.M ≤ maxMapTasks := Nat.not_lt.mp fun past => bounds (.inl past)
    have reduces : job.R ≤ maxReduceTasks := Nat.not_lt.mp fun past => bounds (.inr past)
    have defined := definePaths_defined (by omega : 0 + paths.length ≤ maxMapTasks) short tail
      (resetPrefix m.maps job.M)
    rw [buf, split, ← count]
    rw [← count] at defined
    intro undefined
    cases done : definePaths paths.length 0 (paths.flatMap pathField ++ tail) (resetPrefix m.maps paths.length) with
    | error stop =>
      rw [done] at undefined
      cases undefined
      exact defined done
    | ok table =>
      rw [done] at undefined
      refine replayLoop_defined (count ▸ maps) reduces (Nat.lt_succ_self rest.length) _
        ((bind_undefined_iff ?_).mp undefined)
      simp [pure, Except.pure]

/-- The files on which `aof_load` has no defined behaviour: the file header is bad, the counts are missing,
or the job header leaves its buffer. -/
def Unspecified (file : Bytes) : Prop :=
  aofFileHeaderSize ≤ file.length ∧
    (¬ IsFileHeader (file.take aofFileHeaderSize) ∨ (file.drop aofFileHeaderSize).length < 8 ∨
      ∃ read ∈ jobReads (file.drop aofFileHeaderSize),
        read.Overruns (readBufSize (jobCount (file.drop aofFileHeaderSize))))

theorem aofReadFileHeader_cases {file : Bytes} (enough : aofFileHeaderSize ≤ file.length) :
    (IsFileHeader (file.take aofFileHeaderSize) ∧ aofReadFileHeader file = .ok (file.drop aofFileHeaderSize)) ∨
      (¬ IsFileHeader (file.take aofFileHeaderSize) ∧ ∃ stop, aofReadFileHeader file = .error stop) := by
  by_cases header : IsFileHeader (file.take aofFileHeaderSize)
  · have read := aofReadFileHeader_header header (file.drop aofFileHeaderSize)
    rw [List.take_append_drop] at read
    exact .inl ⟨header, read⟩
  · refine .inr ⟨header, ?_⟩
    cases read : aofReadFileHeader file with
    | error stop => exact ⟨stop, rfl⟩
    | ok rest =>
      obtain ⟨hdr, good, rfl⟩ := aofReadFileHeader_ok read
      rw [List.take_left' good.length] at header
      exact absurd good header

theorem aofLoad_undefined_iff (m : Master) (file : Bytes) :
    aofLoad m file = .error .undefined ↔ Unspecified file := by
  by_cases enough : aofFileHeaderSize ≤ file.length
  · rw [aofLoad_eq m enough]
    unfold Unspecified
    rcases aofReadFileHeader_cases enough with ⟨header, read⟩ | ⟨bad, stop, read⟩
    · rw [read]
      simp only [Except.mapError, Except.bind, enough, true_and, header, not_true_eq_false, false_or]
      rw [← aofReadJob_undefined]
      cases job : aofReadJob (file.drop aofFileHeaderSize) with
      | error stop => simp
      | ok pair => simpa using loadJob_defined m job
    · rw [read]
      exact iff_of_true rfl ⟨enough, .inl bad⟩
  · refine iff_of_false ?_ fun unspecified => enough unspecified.1
    unfold aofLoad
    split
    · simp
    · rw [if_pos (Nat.not_le.mp enough)]
      simp

/-! ## The accepted files -/

/-- The file is made of whole sections, and they pass the checks that `aof_load` makes. -/
structure LogParse (file hdr : Bytes) (header : LogHeader) (records : List AofRecord) : Prop where
  fileHeader : IsFileHeader hdr
  replayable : ∀ record ∈ records, record.Replayable header.M header.R
  bytes : file = header.log hdr records

theorem LogParse.loads (config : MasterConfig) {file hdr : Bytes} {header : LogHeader} {records : List AofRecord}
    (parse : LogParse file hdr header records) : ∃ m, aofLoad (Master.zero config) file = .ok m := by
  obtain ⟨fuel, loop⟩ := replayLoop_tail header.M header.R records []
    ⟨mapTable header.paths, resetPrefix (Table.fill .zero) header.R, 0, 0⟩
  have maps : header.M ≤ maxMapTasks := header.maps_le
  obtain ⟨s, replayed⟩ := replay_replayable maps header.reduces_le parse.replayable
    ⟨mapTable header.paths, resetPrefix (Table.fill .zero) header.R, 0, 0⟩
  rw [List.append_nil, replayed] at loop
  rw [parse.bytes, LogHeader.log, aofLoad_header config parse.fileHeader, loop]
  exact ⟨_, rfl⟩

theorem LogParse.of_loaded {config : MasterConfig} {file : Bytes} {m : Master} (some_bytes : file ≠ [])
    (loaded : aofLoad (Master.zero config) file = .ok m) :
    ∃ hdr header records, LogParse file hdr header records := by
  have enough : aofFileHeaderSize ≤ file.length := by
    apply Nat.not_lt.mp
    intro short
    rw [aofLoad, if_neg some_bytes, if_pos short] at loaded
    cases loaded
  rw [aofLoad_eq _ enough] at loaded
  obtain ⟨behind, read, loaded⟩ := bind_ok_iff.mp loaded
  rcases aofReadFileHeader_cases enough with ⟨fileHeader, good⟩ | ⟨_, stop, bad⟩
  · rw [good] at read
    cases read
    obtain ⟨⟨job, rest⟩, jobRead, loaded⟩ := bind_ok_iff.mp loaded
    obtain ⟨paths, count, fits, buf, split⟩ := aofReadJob_ok jobRead
    obtain ⟨tail, fields⟩ := jobBody_drop paths job.R
    unfold loadJob at loaded
    split at loaded
    · cases loaded
    next bounds =>
      obtain ⟨maps, defined, loaded⟩ := bind_ok_iff.mp loaded
      obtain ⟨s, replayed, -⟩ := bind_ok_iff.mp loaded
      simp only [buf, fields, ← count] at defined replayed
      obtain ⟨records, replayable, rfl⟩ := replayLoop_ok replayed
      let header : LogHeader :=
        { paths := paths
          R := job.R
          maps_le := count ▸ Nat.not_lt.mp fun past => bounds (.inl past)
          reduces_le := Nat.not_lt.mp fun past => bounds (.inr past)
          path_short := definePaths_ok fits defined }
      refine ⟨file.take aofFileHeaderSize, header, records, fileHeader, replayable, ?_⟩
      have job_bytes : header.bytes = withCrc (jobBody paths job.R) := rfl
      rw [LogHeader.log, job_bytes, ← split, List.take_append_drop]
  · rw [bad] at read
    cases read

theorem records_injective {records others : List AofRecord}
    (same : records.flatMap AofRecord.bytes = others.flatMap AofRecord.bytes) : records = others := by
  have first : ∀ (record : AofRecord) (rest : Bytes), record.bytes ++ rest ≠ [] := by
    intro record rest empty
    have length := congrArg List.length empty
    rw [List.length_append, record.bytes_length, List.length_nil] at length
    simp only [aofRecordSize, aofRecordKindLen] at length
    omega
  induction records generalizing others with
  | nil =>
    cases others with
    | nil => rfl
    | cons other others => exact absurd same.symm (first other _)
  | cons record records ih =>
    cases others with
    | nil => exact absurd same (first record _)
    | cons other others =>
      rw [List.flatMap_cons, List.flatMap_cons] at same
      have read := aofReadRecord_bytes record (records.flatMap AofRecord.bytes)
      rw [same, aofReadRecord_bytes] at read
      obtain ⟨rfl, rest⟩ := Prod.mk.inj (Option.some.inj (Except.ok.inj read))
      rw [ih rest.symm]

theorem LogParse.unique {file hdr hdr' : Bytes} {header header' : LogHeader} {records records' : List AofRecord}
    (first : LogParse file hdr header records) (second : LogParse file hdr' header' records') :
    header.M = header'.M ∧ header.R = header'.R ∧ records = records' := by
  have same := first.bytes.symm.trans second.bytes
  have rest := (List.append_inj same (first.fileHeader.length.trans second.fileHeader.length.symm)).2
  have read := aofReadJob_header header (records.flatMap AofRecord.bytes)
  rw [rest, aofReadJob_header] at read
  obtain ⟨job, tail⟩ := Prod.mk.inj (Except.ok.inj read)
  have counts := AofJob.mk.inj job
  exact ⟨counts.1.symm, counts.2.1.symm, records_injective tail.symm⟩

/-! ## The log language -/

/-- The logs of jobs with at least one task of each kind and with completion records only. -/
def LogLanguage (file : Bytes) : Prop :=
  ∃ (hdr : Bytes) (job : JobDef) (completions : List Completion), IsFileHeader hdr ∧
    (∀ c ∈ completions, c.InRange job) ∧
    file = hdr ++ (job.header ++ (completions.map Completion.record).flatMap AofRecord.bytes)

def AofRecord.Unknown (record : AofRecord) : Prop := ∀ kind, record.kind ≠ kindCode (some kind)

/-- A log with no map, or no reduce, or with a record of unknown kind. -/
def Degenerate (file : Bytes) : Prop :=
  ∃ hdr header records, LogParse file hdr header records ∧
    (header.M = 0 ∨ header.R = 0 ∨ ∃ record ∈ records, record.Unknown)

theorem Completion.InRange.replayable {job : JobDef} {c : Completion} (range : c.InRange job) :
    c.record.Replayable job.M job.R := by
  obtain ⟨kind, taskId, attemptId⟩ := c
  cases kind with
  | map => exact ⟨fun _ => range, fun isReduce => absurd isReduce (by simp [Completion.record, kindCode])⟩
  | reduce => exact ⟨fun isMap => absurd isMap (by simp [Completion.record, kindCode]), fun _ => range⟩

theorem LogLanguage.parse {file : Bytes} (language : LogLanguage file) :
    ∃ (hdr : Bytes) (job : JobDef) (completions : List Completion),
      LogParse file hdr job.logHeader (completions.map Completion.record) := by
  obtain ⟨hdr, job, completions, fileHeader, ranges, bytes⟩ := language
  refine ⟨hdr, job, completions, fileHeader, ?_, bytes⟩
  intro record member
  obtain ⟨c, listed, rfl⟩ := List.mem_map.mp member
  exact (ranges c listed).replayable

theorem Degenerate.not_language {file : Bytes} (degenerate : Degenerate file) : ¬ LogLanguage file := by
  intro language
  obtain ⟨hdr, header, records, parse, odd⟩ := degenerate
  obtain ⟨hdr', job, completions, other⟩ := language.parse
  obtain ⟨maps, reduces, rfl⟩ := parse.unique other
  rcases odd with zero | zero | ⟨record, member, unknown⟩
  · have positive : 1 ≤ job.M := job.maps_pos
    have same : header.M = job.M := maps
    omega
  · have positive := job.reduces_pos
    have same : header.R = job.R := reduces
    omega
  · obtain ⟨c, _, rfl⟩ := List.mem_map.mp member
    exact unknown c.kind rfl

theorem completions_of_records {M R : Nat} {records : List AofRecord}
    (replayable : ∀ record ∈ records, record.Replayable M R) (known : ∀ record ∈ records, ¬ record.Unknown) :
    ∃ completions : List Completion, records = completions.map Completion.record ∧
      ∀ c ∈ completions, c.record.Replayable M R := by
  induction records with
  | nil => exact ⟨[], rfl, by simp⟩
  | cons record records ih =>
    obtain ⟨completions, rfl, ranges⟩ := ih (fun other member => replayable other (List.mem_cons_of_mem _ member))
      fun other member => known other (List.mem_cons_of_mem _ member)
    obtain ⟨kind, same⟩ : ∃ kind, record.kind = kindCode (some kind) := by
      by_contra unknown
      exact known record List.mem_cons_self fun kind same => unknown ⟨kind, same⟩
    have whole : record = Completion.record ⟨kind, record.taskId, record.attemptId⟩ := by
      rw [Completion.record, ← same]
    refine ⟨⟨kind, record.taskId, record.attemptId⟩ :: completions, by rw [List.map_cons, ← whole], ?_⟩
    intro c member
    rcases List.mem_cons.mp member with rfl | member
    · rw [← whole]
      exact replayable record List.mem_cons_self
    · exact ranges c member

theorem LogParse.language {file hdr : Bytes} {header : LogHeader} {records : List AofRecord}
    (parse : LogParse file hdr header records) (regular : ¬ Degenerate file) : LogLanguage file := by
  have maps : header.M ≠ 0 := fun zero => regular ⟨hdr, header, records, parse, .inl zero⟩
  have reduces : header.R ≠ 0 := fun zero => regular ⟨hdr, header, records, parse, .inr (.inl zero)⟩
  have known : ∀ record ∈ records, ¬ record.Unknown := fun record member unknown =>
    regular ⟨hdr, header, records, parse, .inr (.inr ⟨record, member, unknown⟩)⟩
  obtain ⟨completions, rfl, ranges⟩ := completions_of_records parse.replayable known
  let job : JobDef :=
    { paths := header.paths
      R := header.R
      maps_pos := Nat.one_le_iff_ne_zero.mpr maps
      maps_le := header.maps_le
      reduces_pos := Nat.one_le_iff_ne_zero.mpr reduces
      reduces_le := header.reduces_le
      path_short := header.path_short }
  refine ⟨hdr, job, completions, parse.fileHeader, ?_, parse.bytes⟩
  intro c member
  have range := ranges c member
  obtain ⟨kind, taskId, attemptId⟩ := c
  cases kind with
  | map => exact range.1 rfl
  | reduce => exact range.2 rfl

/-- `aof_load` accepts the log language, and beyond it exactly the degenerate logs. It has no defined behaviour
exactly on the unspecified files. -/
theorem aofLoad_language (config : MasterConfig) {file : Bytes} (some_bytes : file ≠ []) :
    (aofLoad (Master.zero config) file = .error .undefined ↔ Unspecified file) ∧
    (((∃ m, aofLoad (Master.zero config) file = .ok m) ↔ LogLanguage file) ↔ ¬ Degenerate file) := by
  refine ⟨aofLoad_undefined_iff _ file, ?_⟩
  constructor
  · intro exactly degenerate
    obtain ⟨hdr, header, records, parse, _⟩ := id degenerate
    exact degenerate.not_language (exactly.mp (parse.loads config))
  · intro regular
    constructor
    · rintro ⟨m, loaded⟩
      obtain ⟨hdr, header, records, parse⟩ := LogParse.of_loaded some_bytes loaded
      exact parse.language regular
    · intro language
      obtain ⟨hdr, job, completions, parse⟩ := language.parse
      exact parse.loads config

def emptyHeader : LogHeader := ⟨[], 0, Nat.zero_le _, Nat.zero_le _, by simp⟩

def zeroRecord : AofRecord := ⟨0, 0, 0⟩

/-- The checksum of zeros is zero. A job without tasks is sixteen zero bytes behind the file header, and
seventeen zero bytes are a record of no kind that is skipped. Both are accepted. A file of 32 zero bytes reaches
the cleanup before the pointer it frees is set. -/
theorem aofLoad_degenerate :
    (emptyHeader.bytes = List.replicate 16 0 ∧
      (∃ m, aofLoad (Master.zero sampleConfig) (emptyHeader.log (aofFileHeader 0) []) = .ok m) ∧
      ¬ LogLanguage (emptyHeader.log (aofFileHeader 0) [])) ∧
    (zeroRecord.bytes = List.replicate 17 0 ∧
      (∃ m, aofLoad (Master.zero sampleConfig) (logBytes 0 sampleJob [zeroRecord]) = .ok m) ∧
      ¬ LogLanguage (logBytes 0 sampleJob [zeroRecord])) ∧
    aofLoad (Master.zero sampleConfig) (List.replicate 32 0) = .error .undefined := by
  have bare : LogParse (emptyHeader.log (aofFileHeader 0) []) (aofFileHeader 0) emptyHeader [] :=
    ⟨aofFileHeader_isFileHeader 0, by simp, rfl⟩
  have unknown : zeroRecord.Unknown := by
    intro kind
    cases kind <;> decide
  have skipped : LogParse (logBytes 0 sampleJob [zeroRecord]) (aofFileHeader 0) sampleJob.logHeader [zeroRecord] := by
    refine ⟨aofFileHeader_isFileHeader 0, ?_, rfl⟩
    intro record member
    rw [List.mem_singleton.mp member]
    exact ⟨fun isMap => absurd isMap (unknown .map), fun isReduce => absurd isReduce (unknown .reduce)⟩
  refine ⟨⟨by decide +kernel, bare.loads _, ?_⟩, ⟨by decide +kernel, skipped.loads _, ?_⟩, ?_⟩
  · exact Degenerate.not_language ⟨_, _, _, bare, .inl rfl⟩
  · exact Degenerate.not_language ⟨_, _, _, skipped, .inr (.inr ⟨_, List.mem_singleton_self _, unknown⟩)⟩
  · rw [aofLoad_undefined_iff]
    exact ⟨by decide, .inl fun header => absurd header.magic (by decide)⟩

theorem aofLoad_language_sample :
    LogLanguage (logBytes 0 sampleJob [sampleCompletion.record]) ∧
      ¬ Unspecified (logBytes 0 sampleJob [sampleCompletion.record]) ∧
      ∃ m, aofLoad (Master.zero sampleConfig) (logBytes 0 sampleJob [sampleCompletion.record]) = .ok m := by
  have language : LogLanguage (logBytes 0 sampleJob [sampleCompletion.record]) :=
    ⟨aofFileHeader 0, sampleJob, [sampleCompletion], aofFileHeader_isFileHeader 0, sampleCompletion_inRange, rfl⟩
  have regular : ¬ Degenerate (logBytes 0 sampleJob [sampleCompletion.record]) :=
    fun degenerate => degenerate.not_language language
  obtain ⟨undefined, accepts⟩ := aofLoad_language sampleConfig (logBytes_nonempty 0 sampleJob [sampleCompletion.record])
  obtain ⟨m, loaded⟩ := (accepts.mpr regular).mpr language
  refine ⟨language, ?_, m, loaded⟩
  rw [← undefined, loaded]
  simp

end MapReduce
