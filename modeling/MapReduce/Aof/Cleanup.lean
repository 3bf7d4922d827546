import MapReduce.Aof.Language

/-! `aof_read_job` and `aof_load` up to the label `done`.

Each declares the pointer that decides its cleanup behind a jump to the label.
A body is run until it reaches the label, and what the pointer was last set to
is kept; what follows the label then gives the functions that are used
elsewhere.
-/

set_option autoImplicit false

namespace MapReduce

/-- `job_buf` or `aof_job.buf`, as the way to the label has left it. -/
inductive Pointer where
  | unassigned
  | null
  | buffer
  deriving DecidableEq, Repr

/-- A body in front of its label. A jump to the label is a failure, and keeps the pointer. -/
abbrev ToDone (α : Type) := ExceptT Stop (StateM Pointer) α

namespace ToDone

variable {α β : Type}

def lift (x : Except Stop α) : ToDone α := ExceptT.mk (pure x)

def runFrom (body : ToDone α) (pointer : Pointer) : Except Stop α × Pointer := body.run.run pointer

theorem runFrom_lift_bind {x : Except Stop α} {next : α → ToDone β} {f : α → Except Stop β} {pointer : Pointer}
    (keeps : ∀ a, (next a).runFrom pointer = (f a, pointer)) :
    (lift x >>= next).runFrom pointer = (x.bind f, pointer) := by
  cases x with
  | error stop => rfl
  | ok a => exact keeps a

/-- The label is reached with this pointer. A body that leaves defined behaviour does not reach it. -/
def Reaches (body : ToDone α) (pointer : Pointer) : Prop :=
  ∃ result, body.runFrom .unassigned = (result, pointer) ∧ result ≠ .error .undefined

/-- Whichever way the label is reached, the pointer has been set. -/
def Assigns (body : ToDone α) : Prop := ¬ body.Reaches .unassigned

theorem assigns_of_run {body : ToDone α} {result : Except Stop α} {pointer : Pointer}
    (run : body.runFrom .unassigned = (result, pointer)) (set : pointer ≠ .unassigned) : body.Assigns := by
  rintro ⟨other, reached, _⟩
  rw [run] at reached
  exact set (Prod.mk.inj reached).2

end ToDone

/-- From the label on. The pointer is looked at after a failure, and after a success as `always` says. -/
def fromDone {α : Type} (always : Bool) : Except Stop α × Pointer → Except Stop α
  | (.error .undefined, _) => .error .undefined
  | (.error .failed, .unassigned) => .error .undefined
  | (.ok value, .unassigned) => if always then .error .undefined else .ok value
  | (result, _) => result

theorem fromDone_assigned {α : Type} (always : Bool) (result : Except Stop α) {pointer : Pointer}
    (set : pointer ≠ .unassigned) : fromDone always (result, pointer) = result := by
  cases pointer with
  | unassigned => exact absurd rfl set
  | null => rcases result with (_ | _) | _ <;> rfl
  | buffer => rcases result with (_ | _) | _ <;> rfl

/-! ## aof_read_job -/

/-- `aof_read_job` up to the label; `allocated` is whether `malloc` gives it a buffer. -/
def jobToDone (allocated : Bool) (file : Bytes) : ToDone (AofJob × Bytes) := do
  let (hdr, rest) := readExact 8 file
  if hdr.length ≠ 8 then throw .failed
  let m := BigEndian.value (hdr.take 4)
  let r := BigEndian.value (hdr.drop 4)
  set (if allocated then Pointer.buffer else .null)
  if !allocated then throw .failed
  let step ← .lift (readPaths (readBufSize m) m hdr rest)
  let last ← .lift (readInto (readBufSize m) 8 step.1 step.2)
  .lift (checkJobCrc m r last)

theorem jobToDone_short (allocated : Bool) {file : Bytes} (short : file.length < 8) :
    (jobToDone allocated file).runFrom .unassigned = (.error .failed, .unassigned) := by
  have cut : (file.take 8).length ≠ 8 := by
    rw [List.length_take]
    omega
  unfold jobToDone readExact
  simp only [if_pos cut]
  rfl

/-- Behind the counts the pointer is what `malloc` gave, whichever way the label is reached. -/
theorem jobToDone_counts (allocated : Bool) {file : Bytes} (enough : 8 ≤ file.length) :
    (jobToDone allocated file).runFrom .unassigned =
      if allocated then (aofReadJob file, .buffer) else (.error .failed, .null) := by
  have eight : ¬ (file.take 8).length ≠ 8 := by
    rw [List.length_take]
    omega
  have count : BigEndian.value ((file.take 8).take 4) = jobCount file := by
    rw [List.take_take]
    rfl
  rw [aofReadJob_eq enough]
  unfold jobToDone readExact
  simp only [if_neg eight, count]
  cases allocated with
  | false => rfl
  | true =>
    refine (ToDone.runFrom_lift_bind fun step => ToDone.runFrom_lift_bind fun last => rfl).trans ?_
    cases readPaths (readBufSize (jobCount file)) (jobCount file) (file.take 8) (file.drop 8) <;> rfl

def aofReadJobWith (allocated : Bool) (file : Bytes) : Except Stop (AofJob × Bytes) :=
  fromDone false ((jobToDone allocated file).runFrom .unassigned)

theorem aofReadJobWith_true (file : Bytes) : aofReadJobWith true file = aofReadJob file := by
  unfold aofReadJobWith
  by_cases short : file.length < 8
  · rw [jobToDone_short true short, aofReadJob_undefined.mpr (.inl short)]
    rfl
  · rw [jobToDone_counts true (Nat.not_lt.mp short)]
    exact fromDone_assigned false _ (by decide)

/-! ## aof_load -/

/-- `aof_load` up to the label, on a file that is at least as long as the file header. -/
def loadToDone (allocated : Bool) (m : Master) (file : Bytes) : ToDone Master := do
  let rest ← .lift (aofReadFileHeader file)
  set Pointer.null
  let read ← .lift (aofReadJobWith allocated rest)
  -- Only a call that succeeds sets `*out`.
  set Pointer.buffer
  .lift (loadJob m read.1 read.2)

theorem loadToDone_bad (allocated : Bool) (m : Master) {file : Bytes} {stop : Stop}
    (read : aofReadFileHeader file = .error stop) :
    (loadToDone allocated m file).runFrom .unassigned = (.error stop, .unassigned) := by
  unfold loadToDone
  rw [read]
  rfl

theorem loadToDone_header (allocated : Bool) (m : Master) {file rest : Bytes} (read : aofReadFileHeader file = .ok rest) :
    ∃ pointer, pointer ≠ Pointer.unassigned ∧ (loadToDone allocated m file).runFrom .unassigned =
      ((aofReadJobWith allocated rest).bind fun job => loadJob m job.1 job.2, pointer) := by
  unfold loadToDone
  rw [read]
  change ∃ pointer, _ ∧ ToDone.runFrom (ToDone.lift (aofReadJobWith allocated rest) >>= _) Pointer.null = _
  cases aofReadJobWith allocated rest with
  | error stop => exact ⟨.null, by decide, rfl⟩
  | ok job => exact ⟨.buffer, by decide, rfl⟩

theorem aofLoad_fromDone (m : Master) {file : Bytes} (enough : aofFileHeaderSize ≤ file.length) :
    fromDone true ((loadToDone true m file).runFrom .unassigned) = aofLoad m file := by
  rw [aofLoad_eq m enough]
  cases read : aofReadFileHeader file with
  | error stop =>
    rw [loadToDone_bad true m read]
    cases stop <;> rfl
  | ok rest =>
    obtain ⟨pointer, set, run⟩ := loadToDone_header true m read
    rw [run, fromDone_assigned true _ set, aofReadJobWith_true]
    rfl

/-! ## The label -/

theorem aofReadFileHeader_failed {file : Bytes} {stop : Stop} (read : aofReadFileHeader file = .error stop) :
    stop = .failed := by
  unfold aofReadFileHeader at read
  grind

/-- `aof_read_job` has set `job_buf` at its label exactly if the file has the two counts, and `aof_load` has set
`aof_job` at its label exactly if the file header is good; it reaches no label on a file shorter than that. -/
theorem done_assigned (allocated : Bool) (m : Master) (file : Bytes) :
    ((jobToDone allocated file).Assigns ↔ 8 ≤ file.length) ∧
      (aofFileHeaderSize ≤ file.length →
        ((loadToDone allocated m file).Assigns ↔ IsFileHeader (file.take aofFileHeaderSize))) := by
  constructor
  · by_cases short : file.length < 8
    · refine iff_of_false (fun assigns => assigns ?_) (Nat.not_le.mpr short)
      exact ⟨_, jobToDone_short allocated short, by simp⟩
    · have enough := Nat.not_lt.mp short
      refine iff_of_true ?_ enough
      have run := jobToDone_counts allocated enough
      cases allocated with
      | false => exact ToDone.assigns_of_run run (by decide)
      | true => exact ToDone.assigns_of_run run (by decide)
  · intro enough
    rcases aofReadFileHeader_cases enough with ⟨header, read⟩ | ⟨bad, stop, read⟩
    · obtain ⟨pointer, set, run⟩ := loadToDone_header allocated m read
      exact iff_of_true (ToDone.assigns_of_run run set) header
    · refine iff_of_false (fun assigns => assigns ?_) bad
      refine ⟨_, loadToDone_bad allocated m read, ?_⟩
      rw [aofReadFileHeader_failed read]
      simp

theorem done_assigned_header :
    (jobToDone true (aofFileHeader 0)).Assigns ∧
      (loadToDone true (Master.zero sampleConfig) (aofFileHeader 0)).Assigns := by
  have assigned := done_assigned true (Master.zero sampleConfig) (aofFileHeader 0)
  have length : (aofFileHeader 0).length = aofFileHeaderSize := aofFileHeader_length 0
  rw [length, ← length, List.take_length] at assigned
  refine ⟨assigned.1.mpr (by decide), (assigned.2 le_rfl).mpr (aofFileHeader_isFileHeader 0)⟩

/-- A log that ends behind its file header, and one of zeros: both frees look at a pointer that was not set. -/
theorem done_unassigned :
    (aofReadFileHeader (aofFileHeader 0) = .ok [] ∧ (jobToDone true []).Reaches .unassigned ∧
      aofLoad (Master.zero sampleConfig) (aofFileHeader 0) = .error .undefined) ∧
    ((loadToDone true (Master.zero sampleConfig) (List.replicate 32 0)).Reaches .unassigned ∧
      aofLoad (Master.zero sampleConfig) (List.replicate 32 0) = .error .undefined) := by
  have header : aofReadFileHeader (aofFileHeader 0) = .ok [] := by
    rw [← List.append_nil (aofFileHeader 0)]
    exact aofReadFileHeader_header (aofFileHeader_isFileHeader 0) []
  have zeros : aofReadFileHeader (List.replicate 32 0) = .error .failed := by decide
  refine ⟨⟨header, ⟨_, jobToDone_short true (by decide), by simp⟩, ?_⟩, ⟨_, loadToDone_bad true _ zeros, by simp⟩, ?_⟩
  · rw [aofLoad_eq _ (by decide), header]
    rfl
  · rw [aofLoad_eq _ (by decide), zeros]
    rfl

end MapReduce
