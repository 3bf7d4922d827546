import Mathlib.Data.List.Nodup
import MapReduce.Aof.RoundTrip

/-! Recovery from a log on disk: the whole file, and a file cut at any byte.

The job header is written and flushed before the first record, so a crash can
only shorten the record part. `aof_read_record` accepts a clean end of file and
rejects every other short read.
-/

set_option autoImplicit false

namespace MapReduce

/-! ## What a restored master looks like -/

theorem restored_task (config : MasterConfig) (job : JobDef) (completions : List Completion) (kind : TaskKind)
    (i : Nat) :
    (Master.restored config job completions).task? kind i = ((Master.fresh config job).task? kind i).map fun t =>
      if (kind, i) ∈ completions.map Completion.task then { t with state := .completed } else t := by
  cases kind <;> exact markAll_read _ completions _ i

/-- Everything `aof_load` has to bring back for a job with these records. -/
structure Restores (job : JobDef) (completions : List Completion) (r : Master) : Prop where
  maps : r.job.M = job.M
  reduces : r.job.R = job.R
  path : ∀ i path, job.paths[i]? = some path →
    ∃ t, r.maps.read i = some t ∧ t.inputPath = path ∧ t.inputPathLen = path.length
  state : ∀ kind i, i < job.total kind → ∃ t, r.task? kind i = some t ∧ t.ownerFd = -1 ∧
    t.state = if (kind, i) ∈ completions.map Completion.task then .completed else .pending
  mapsDone : r.job.mapsDone = countKind .map completions % 2 ^ 32
  reducesDone : r.job.reducesDone = countKind .reduce completions % 2 ^ 32
  phase : r.job.phase = phaseOf job.M job.R r.job.mapsDone r.job.reducesDone

theorem restored_state (config : MasterConfig) (job : JobDef) (completions : List Completion) {kind : TaskKind}
    {i : Nat} (below : i < job.total kind) :
    ∃ t, (Master.restored config job completions).task? kind i = some t ∧ t.ownerFd = -1 ∧
      t.state = if (kind, i) ∈ completions.map Completion.task then .completed else .pending := by
  obtain ⟨t, found⟩ := (Master.fresh config job).task?_isSome (Nat.lt_of_lt_of_le below (job.total_le kind))
  obtain ⟨pending, _, _, _, _, unowned⟩ := Master.fresh_slot found
  have owner := unowned below
  rw [restored_task, found]
  by_cases recorded : (kind, i) ∈ completions.map Completion.task
  · exact ⟨{ t with state := .completed }, by simp [recorded], owner, by simp [recorded]⟩
  · exact ⟨t, by simp [recorded], owner, by simp [recorded, pending]⟩

theorem restored_restores (config : MasterConfig) (job : JobDef) (completions : List Completion) :
    Restores job completions (Master.restored config job completions) where
  maps := rfl
  reduces := rfl
  path i path found := by
    obtain ⟨t, read, bytes, length⟩ := (Master.fresh_holds config job).path i path found
    have marked := restored_task config job completions .map i
    rw [show (Master.fresh config job).task? .map i = some t from read] at marked
    by_cases recorded : (TaskKind.map, i) ∈ completions.map Completion.task
    · exact ⟨{ t with state := .completed }, marked.trans (by simp [recorded]), bytes, length⟩
    · exact ⟨t, marked.trans (by simp [recorded]), bytes, length⟩
  state kind i below := restored_state config job completions below
  mapsDone := rfl
  reducesDone := rfl
  phase := rfl

/-! ## The whole log -/

/-- One successful `aof_append_completed` per completion, in order. -/
def appendAll (m : Master) (file : Bytes) (completions : List Completion) : Bytes :=
  completions.foldl (fun file c =>
    (aofAppendCompleted m [] true file ⟨c.taskId, c.attemptId, 0⟩ (some c.kind)).1) file

theorem appendAll_eq {m : Master} (opened : 0 ≤ m.aofFd) (createdMs : UInt64) (job : JobDef)
    (earlier completions : List Completion) :
    appendAll m (logBytes createdMs job (earlier.map Completion.record)) completions =
      logBytes createdMs job ((earlier ++ completions).map Completion.record) := by
  induction completions generalizing earlier with
  | nil => simp [appendAll]
  | cons c rest ih =>
    have whole := aofAppendCompleted_file opened [] true (logBytes createdMs job (earlier.map Completion.record))
      ⟨c.taskId, c.attemptId, 0⟩ (some c.kind)
    rw [show WriteResult.accepted [] aofRecordSize = aofRecordSize from rfl,
      List.take_of_length_le (by simp)] at whole
    have step := ih (earlier ++ [c])
    rw [List.map_append, List.map_singleton, logBytes_snoc] at step
    rw [List.append_assoc, List.singleton_append] at step
    rw [← step, appendAll, List.foldl_cons, whole]
    rfl

def idsOf (kind : TaskKind) (completions : List Completion) : List Nat :=
  (completions.filter (·.kind == kind)).map fun c => c.taskId.toNat

theorem idsOf_length (kind : TaskKind) (completions : List Completion) :
    (idsOf kind completions).length = countKind kind completions := by
  simp [idsOf, countKind, List.countP_eq_length_filter]

theorem mem_idsOf {kind : TaskKind} {completions : List Completion} {i : Nat} :
    i ∈ idsOf kind completions ↔ (kind, i) ∈ completions.map Completion.task := by
  simp only [idsOf, Completion.task, List.mem_map, List.mem_filter, beq_iff_eq, Prod.mk.injEq]
  constructor
  · rintro ⟨c, ⟨member, same⟩, id⟩
    exact ⟨c, member, same, id⟩
  · rintro ⟨c, member, same, id⟩
    exact ⟨c, ⟨member, same⟩, id⟩

theorem idsOf_nodup {completions : List Completion} (distinct : (completions.map Completion.task).Nodup)
    (kind : TaskKind) : (idsOf kind completions).Nodup := by
  have sub : ((completions.filter (·.kind == kind)).map Completion.task).Nodup :=
    distinct.sublist (List.filter_sublist.map _)
  have pairs : (completions.filter (·.kind == kind)).map Completion.task =
      (idsOf kind completions).map (kind, ·) := by
    simp only [idsOf, List.map_map]
    apply List.map_congr_left
    intro c member
    have same : c.kind = kind := by simpa using (List.mem_filter.mp member).2
    simp [Completion.task, same]
  -- With the kind fixed, the id determines the task.
  rw [pairs] at sub
  exact List.Nodup.of_map _ sub

theorem idsOf_subset {job : JobDef} {completions : List Completion} (ranges : ∀ c ∈ completions, c.InRange job)
    (kind : TaskKind) : idsOf kind completions ⊆ List.range (job.total kind) := by
  intro i member
  obtain ⟨c, recorded, same⟩ := List.mem_map.mp (mem_idsOf.mp member)
  have range := ranges c recorded
  rw [Completion.InRange, show c.kind = kind from congrArg Prod.fst same,
    show c.taskId.toNat = i from congrArg Prod.snd same] at range
  exact List.mem_range.mpr range

theorem countKind_le_total {job : JobDef} {completions : List Completion}
    (ranges : ∀ c ∈ completions, c.InRange job) (distinct : (completions.map Completion.task).Nodup)
    (kind : TaskKind) : countKind kind completions ≤ job.total kind := by
  have bound := (List.subperm_of_subset (idsOf_nodup distinct kind) (idsOf_subset ranges kind)).length_le
  rwa [idsOf_length, List.length_range] at bound

theorem all_recorded {job : JobDef} {completions : List Completion}
    (ranges : ∀ c ∈ completions, c.InRange job) (distinct : (completions.map Completion.task).Nodup)
    {kind : TaskKind} (full : countKind kind completions = job.total kind) {i : Nat} (below : i < job.total kind) :
    (kind, i) ∈ completions.map Completion.task := by
  have all := (List.subperm_of_subset (idsOf_nodup distinct kind) (idsOf_subset ranges kind)).perm_of_length_le
    (by rw [idsOf_length, List.length_range, full])
  exact mem_idsOf.mp (all.mem_iff.mpr (List.mem_range.mpr below))

theorem aofLoad_appended (config : MasterConfig) (job : JobDef) (m : Master) (fd : Nat) (createdMs : UInt64)
    (completions : List Completion) (ranges : ∀ c ∈ completions, c.InRange job) :
    aofLoad (Master.zero config) (appendAll { m with aofFd := fd } (logBytes createdMs job []) completions) =
      .ok (Master.restored config job completions) := by
  have file := appendAll_eq (m := { m with aofFd := fd }) (Int.natCast_nonneg fd) createdMs job [] completions
  rw [List.map_nil, List.nil_append] at file
  rw [file]
  exact aofLoad_log config createdMs job completions ranges

/-- A job header followed by appended records is read back as that job with those records. The
32-bit counters are exact when no task is recorded twice, and in any log below 2^32 records. -/
theorem aofLoad_roundTrip (config : MasterConfig) (job : JobDef) {m : Master} (holds : m.Holds job) (fd : Nat)
    (createdMs : UInt64) (completions : List Completion) (ranges : ∀ c ∈ completions, c.InRange job) :
    ∃ opened file, aofInit m [] (.good fd createdMs) = some (opened, file, true) ∧
    ∃ r, aofLoad (Master.zero config) (appendAll opened file completions) = .ok r ∧
      Restores job completions r ∧
      ((completions.map Completion.task).Nodup ∨ completions.length < 2 ^ 32 →
        r.job.mapsDone = countKind .map completions ∧ r.job.reducesDone = countKind .reduce completions) := by
  refine ⟨_, _, aofInit_empty holds fd createdMs, Master.restored config job completions,
    aofLoad_appended config job m fd createdMs completions ranges, restored_restores config job completions, ?_⟩
  intro few
  have small : ∀ kind, countKind kind completions < 2 ^ 32 := by
    intro kind
    rcases few with distinct | short
    · have bound := countKind_le_total ranges distinct kind
      have cap := job.total_le kind
      cases kind <;> simp only [TaskKind.capacity, maxMapTasks, maxReduceTasks] at cap <;> omega
    · exact Nat.lt_of_le_of_lt List.countP_le_length short
  exact ⟨Nat.mod_eq_of_lt (small .map), Nat.mod_eq_of_lt (small .reduce)⟩

/-- A job with the single split "in/a" and one reduce. -/
def sampleJob : JobDef where
  paths := [[0x69, 0x6e, 0x2f, 0x61]]
  R := 1
  maps_pos := by decide
  maps_le := by decide
  reduces_pos := by decide
  reduces_le := by decide
  path_short := by decide

def sampleConfig : MasterConfig := ⟨1, 1000, [0x69, 0x6e]⟩

def sampleCompletion : Completion := ⟨.map, 0, 1⟩

theorem sampleCompletion_inRange : ∀ c ∈ [sampleCompletion], c.InRange sampleJob := by
  intro c member
  rw [List.mem_singleton.mp member]
  exact (by decide : 0 < 1)

theorem aofLoad_roundTrip_sample :
    ∃ opened file, aofInit (Master.fresh sampleConfig sampleJob) [] (.good 3 0) = some (opened, file, true) ∧
    ∃ r, aofLoad (Master.zero sampleConfig) (appendAll opened file [sampleCompletion]) = .ok r ∧
      Restores sampleJob [sampleCompletion] r ∧ r.job.mapsDone = 1 ∧ r.job.reducesDone = 0 := by
  obtain ⟨opened, file, started, r, loaded, restores, counted⟩ := aofLoad_roundTrip sampleConfig sampleJob
    (Master.fresh_holds sampleConfig sampleJob) 3 0 [sampleCompletion] sampleCompletion_inRange
  exact ⟨opened, file, started, r, loaded, restores, counted (.inr (by decide))⟩

/-- The records of the one map with every attempt id there is. -/
def everyAttempt : List Completion := (List.range (2 ^ 32)).map fun n => ⟨.map, 0, UInt32.ofNat n⟩

theorem everyAttempt_nodup : everyAttempt.Nodup := by
  refine List.Nodup.map_on (fun n inside n' inside' same => ?_) List.nodup_range
  have ids := congrArg (fun c => c.attemptId.toNat) same
  simp only [UInt32.toNat_ofNat'] at ids
  rwa [Nat.mod_eq_of_lt (List.mem_range.mp inside), Nat.mod_eq_of_lt (List.mem_range.mp inside')] at ids

theorem everyAttempt_count : countKind .map everyAttempt = 2 ^ 32 := by
  have all : ∀ c ∈ everyAttempt, (c.kind == TaskKind.map) = true := by
    intro c member
    obtain ⟨n, _, rfl⟩ := List.mem_map.mp member
    rfl
  rw [countKind, List.countP_eq_length.mpr all, everyAttempt, List.length_map, List.length_range]

/-- A log with as many distinct map records as `maps_done` has values is loaded with none of them counted. -/
theorem aofLoad_counter_wraps :
    everyAttempt.Nodup ∧ (∀ c ∈ everyAttempt, c.InRange sampleJob) ∧ countKind .map everyAttempt = 2 ^ 32 ∧
    ∃ opened file, aofInit (Master.fresh sampleConfig sampleJob) [] (.good 3 0) = some (opened, file, true) ∧
    ∃ r, aofLoad (Master.zero sampleConfig) (appendAll opened file everyAttempt) = .ok r ∧
      r.job.mapsDone = 0 := by
  have ranges : ∀ c ∈ everyAttempt, c.InRange sampleJob := by
    intro c member
    obtain ⟨n, _, rfl⟩ := List.mem_map.mp member
    exact (by decide : 0 < 1)
  have restores := restored_restores sampleConfig sampleJob everyAttempt
  refine ⟨everyAttempt_nodup, ranges, everyAttempt_count, _, _,
    aofInit_empty (Master.fresh_holds sampleConfig sampleJob) 3 0, Master.restored sampleConfig sampleJob everyAttempt,
    aofLoad_appended sampleConfig sampleJob _ 3 0 everyAttempt ranges, ?_⟩
  rw [restores.mapsDone, everyAttempt_count, Nat.mod_self]

/-! ## A log cut at any byte -/

/-- The completions whose records end within the first `n` bytes of the record part. -/
def wholeWithin (completions : List Completion) (n : Nat) : List Completion :=
  completions.take (n / aofRecordSize)

/-- The completion whose record the cut falls into. -/
def tornAt (completions : List Completion) (n : Nat) : Option Completion :=
  if n % aofRecordSize = 0 then none else completions[n / aofRecordSize]?

/-- Recovery as promised, from the file that holds the headers and `n` bytes of records. -/
def RecoversCut (config : MasterConfig) (createdMs : UInt64) (job : JobDef) (completions : List Completion)
    (n : Nat) : Prop :=
  let cut := (logBytes createdMs job []).length + n
  ∃ r, aofLoad (Master.zero config) ((logBytes createdMs job (completions.map Completion.record)).take cut) = .ok r ∧
    (∀ kind i, i < job.total kind → ∃ t, r.task? kind i = some t ∧
      t.state = if (kind, i) ∈ (wholeWithin completions n).map Completion.task then .completed else .pending) ∧
    ∀ c, tornAt completions n = some c → ∃ t, r.task? c.kind c.taskId.toNat = some t ∧ t.state = .pending

theorem logBytes_take (createdMs : UInt64) (job : JobDef) (completions : List Completion) {n : Nat}
    (inside : n ≤ completions.length * aofRecordSize) :
    ∃ tail : Bytes, tail.length = n % aofRecordSize ∧
      (logBytes createdMs job (completions.map Completion.record)).take ((logBytes createdMs job []).length + n) =
        logBytes createdMs job ((wholeWithin completions n).map Completion.record) ++ tail := by
  let q := n / aofRecordSize
  have whole : n = q * aofRecordSize + n % aofRecordSize := (Nat.div_add_mod' n aofRecordSize).symm
  have positive : 0 < aofRecordSize := by decide
  have enough : q ≤ completions.length := by
    have := Nat.div_le_div_right (c := aofRecordSize) inside
    rwa [Nat.mul_div_cancel _ positive] at this
  let front := (completions.take q).map Completion.record
  let back := (completions.drop q).map Completion.record
  have split : completions.map Completion.record = front ++ back := by
    simp only [front, back, ← List.map_append, List.take_append_drop]
  have frontLength : (front.flatMap AofRecord.bytes).length = q * aofRecordSize := by
    rw [records_length]
    simp [front, enough]
  have backLength : (back.flatMap AofRecord.bytes).length = (completions.length - q) * aofRecordSize := by
    rw [records_length]
    simp [back]
  refine ⟨(back.flatMap AofRecord.bytes).take (n % aofRecordSize), ?_, ?_⟩
  · rw [List.length_take, backLength, Nat.sub_mul]
    omega
  · have headers : (logBytes createdMs job []).length = (aofFileHeader createdMs ++ job.header).length := by
      simp [logBytes]
    have file : logBytes createdMs job (completions.map Completion.record) =
        (aofFileHeader createdMs ++ job.header) ++
          (front.flatMap AofRecord.bytes ++ back.flatMap AofRecord.bytes) := by
      simp [logBytes, split]
    rw [file, headers, List.take_length_add_append, whole, ← frontLength, List.take_length_add_append,
      frontLength, ← whole]
    simp [logBytes, wholeWithin, front, q]

section Cut
variable (config : MasterConfig) (createdMs : UInt64) (job : JobDef) {completions : List Completion}
  (ranges : ∀ c ∈ completions, c.InRange job) {n : Nat} (inside : n ≤ completions.length * aofRecordSize)

include ranges inside in
theorem recoversCut_boundary (boundary : n % aofRecordSize = 0) :
    RecoversCut config createdMs job completions n := by
  obtain ⟨tail, length, file⟩ := logBytes_take createdMs job completions inside
  have empty : tail = [] := List.length_eq_zero_iff.mp (length.trans boundary)
  rw [empty, List.append_nil] at file
  refine ⟨Master.restored config job (wholeWithin completions n), ?_, ?_, ?_⟩
  · rw [file]
    exact aofLoad_log config createdMs job _ fun c member => ranges c (List.mem_of_mem_take member)
  · intro kind i below
    obtain ⟨t, found, _, state⟩ := restored_state config job (wholeWithin completions n) below
    exact ⟨t, found, state⟩
  · intro c torn
    simp [tornAt, boundary] at torn

include ranges inside in
theorem not_recoversCut_torn (torn : n % aofRecordSize ≠ 0) :
    ¬ RecoversCut config createdMs job completions n := by
  obtain ⟨tail, length, file⟩ := logBytes_take createdMs job completions inside
  have some_left : tail ≠ [] := by
    intro empty
    rw [empty] at length
    exact torn length.symm
  have short : tail.length < aofRecordSize := by
    rw [length]
    exact Nat.mod_lt _ (by decide)
  have whole : ∀ c ∈ wholeWithin completions n, c.InRange job :=
    fun c member => ranges c (List.mem_of_mem_take member)
  have refused := aofLoad_torn config createdMs job (wholeWithin completions n) whole some_left short
  rintro ⟨r, loaded, _⟩
  rw [file, refused] at loaded
  cases loaded

include ranges inside in
/-- Recovery works exactly when the crash left a whole number of records. -/
theorem recoversCut_iff : RecoversCut config createdMs job completions n ↔ n % aofRecordSize = 0 := by
  constructor
  · intro recovers
    by_contra torn
    exact not_recoversCut_torn config createdMs job ranges inside torn recovers
  · exact recoversCut_boundary config createdMs job ranges inside

end Cut

theorem recoversCut_iff_sample :
    RecoversCut sampleConfig 0 sampleJob [sampleCompletion] 17 ↔ 17 % aofRecordSize = 0 :=
  recoversCut_iff sampleConfig 0 sampleJob sampleCompletion_inRange (by decide)

/-- Five bytes of the first record on disk: the master refuses to start. -/
theorem not_recoversCut_sample : ¬ RecoversCut sampleConfig 0 sampleJob [sampleCompletion] 5 :=
  not_recoversCut_torn sampleConfig 0 sampleJob sampleCompletion_inRange (by decide) (by decide)

/-! ## Replay and the set of completed tasks -/

theorem countKind_eq (kind : TaskKind) (completions : List Completion) :
    countKind kind completions = (completions.map Completion.task).countP (·.1 == kind) := by
  rw [List.countP_map]
  rfl

section SameTasks

variable {first second : List Completion}
  (same : ∀ task, task ∈ first.map Completion.task ↔ task ∈ second.map Completion.task)

include same

theorem markAll_same {capacity : Nat} (kind : TaskKind) (tasks : Table capacity Task) :
    markAll kind first tasks = markAll kind second tasks := by
  apply Table.ext_read
  intro i _
  rw [markAll_read, markAll_read]
  congr 1
  funext t
  simp only [same (kind, i)]

theorem countKind_same (distinct : (first.map Completion.task).Nodup) (distinct' : (second.map Completion.task).Nodup)
    (kind : TaskKind) : countKind kind first = countKind kind second := by
  have perm := (List.perm_ext_iff_of_nodup distinct distinct').mpr same
  rw [countKind_eq, countKind_eq]
  exact perm.countP_eq _

end SameTasks

/-- Two logs of one header whose records name the same set of tasks restore the same tables. The counters and
the phase agree exactly when each kind is recorded equally often in both, modulo the width of the counters, and
so they do when no task is recorded twice. -/
theorem replay_depends_on_counts (config : MasterConfig) {hdr : Bytes} (fileHeader : IsFileHeader hdr)
    (header : LogHeader) {first second : List Completion} (inside : ∀ c ∈ first, c.Within header)
    (inside' : ∀ c ∈ second, c.Within header)
    (same : ∀ task, task ∈ first.map Completion.task ↔ task ∈ second.map Completion.task) :
    ∃ a b, aofLoad (Master.zero config) (header.log hdr (first.map Completion.record)) = .ok a ∧
      aofLoad (Master.zero config) (header.log hdr (second.map Completion.record)) = .ok b ∧
      a.maps = b.maps ∧ a.reduces = b.reduces ∧
      ((a.job.mapsDone = b.job.mapsDone ∧ a.job.reducesDone = b.job.reducesDone ∧ a.job.phase = b.job.phase) ↔
        ∀ kind, countKind kind first % 2 ^ 32 = countKind kind second % 2 ^ 32) ∧
      ((first.map Completion.task).Nodup → (second.map Completion.task).Nodup → a.job = b.job) := by
  have jobs : (∀ kind, countKind kind first % 2 ^ 32 = countKind kind second % 2 ^ 32) →
      (header.restored config first).job = (header.restored config second).job := by
    intro counts
    simp only [LogHeader.restored, counts]
  refine ⟨_, _, aofLoad_whole config fileHeader header first inside,
    aofLoad_whole config fileHeader header second inside', markAll_same same .map _, markAll_same same .reduce _,
    ?_, ?_⟩
  · constructor
    · rintro ⟨maps, reduces, -⟩ kind
      cases kind
      · exact maps
      · exact reduces
    · intro counts
      rw [jobs counts]
      exact ⟨rfl, rfl, rfl⟩
  · intro distinct distinct'
    apply jobs
    intro kind
    rw [countKind_same same distinct distinct']

def twoMaps : LogHeader := ⟨[[0x63], [0x64]], 2, by decide, by decide, by decide⟩

def firstMap : Completion := ⟨.map, 0, 1⟩

theorem firstMap_within : firstMap.Within twoMaps := (by decide : 0 < 2)

/-- The same record once or twice: the second log counts both maps as done and goes on to the reduces, with the
second map still pending. -/
theorem replay_counts_repetitions :
    ∃ once twice t, aofLoad (Master.zero sampleConfig) (twoMaps.log (aofFileHeader 0) [firstMap.record]) = .ok once ∧
      aofLoad (Master.zero sampleConfig) (twoMaps.log (aofFileHeader 0) [firstMap.record, firstMap.record]) =
        .ok twice ∧
      once.job.mapsDone = 1 ∧ once.job.phase = .map ∧ twice.job.mapsDone = 2 ∧ twice.job.phase = .reduce ∧
      twice.maps.read 1 = some t ∧ t.state = .pending := by
  have single : ∀ c ∈ [firstMap], c.Within twoMaps := by
    intro c member
    rw [List.mem_singleton.mp member]
    exact firstMap_within
  have double : ∀ c ∈ [firstMap, firstMap], c.Within twoMaps := by
    intro c member
    rcases List.mem_pair.mp member with rfl | rfl
    · exact firstMap_within
    · exact firstMap_within
  refine ⟨_, _, _, aofLoad_whole sampleConfig (aofFileHeader_isFileHeader 0) twoMaps [firstMap] single,
    aofLoad_whole sampleConfig (aofFileHeader_isFileHeader 0) twoMaps [firstMap, firstMap] double,
    by decide, by decide, by decide, by decide, rfl, by decide⟩

/-- Two records in either order. -/
theorem replay_depends_on_counts_swapped :
    ∃ a b, aofLoad (Master.zero sampleConfig)
        (twoMaps.log (aofFileHeader 0) [firstMap.record, Completion.record ⟨.map, 1, 3⟩]) = .ok a ∧
      aofLoad (Master.zero sampleConfig)
        (twoMaps.log (aofFileHeader 0) [Completion.record ⟨.map, 1, 2⟩, firstMap.record]) = .ok b ∧
      a.maps = b.maps ∧ a.reduces = b.reduces ∧ a.job = b.job := by
  have second : ∀ attempt, Completion.Within twoMaps ⟨.map, 1, attempt⟩ := fun _ => (by decide : 1 < 2)
  have inside : ∀ c ∈ [firstMap, ⟨.map, 1, 3⟩], c.Within twoMaps := by
    intro c member
    rcases List.mem_pair.mp member with rfl | rfl
    · exact firstMap_within
    · exact second 3
  have inside' : ∀ c ∈ [⟨.map, 1, 2⟩, firstMap], c.Within twoMaps := by
    intro c member
    rcases List.mem_pair.mp member with rfl | rfl
    · exact second 2
    · exact firstMap_within
  have same : ∀ task, task ∈ [firstMap, ⟨.map, 1, 3⟩].map Completion.task ↔
      task ∈ [⟨.map, 1, 2⟩, firstMap].map Completion.task := by
    intro task
    simp only [List.map_cons, List.map_nil, List.mem_pair, Completion.task]
    exact or_comm
  obtain ⟨a, b, loaded, loaded', maps, reduces, -, distinct⟩ :=
    replay_depends_on_counts sampleConfig (aofFileHeader_isFileHeader 0) twoMaps inside inside' same
  exact ⟨a, b, loaded, loaded', maps, reduces, distinct (by decide) (by decide)⟩

end MapReduce
