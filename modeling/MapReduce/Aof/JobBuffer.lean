import MapReduce.Aof.Load

/-! The reads of `aof_read_job` into the buffer it sized from the first count.

A read is described by where it starts in `job_buf`, by the length it asks for
and by the bytes the file still has for it. The list of reads depends on the
file alone; the buffer they go to is compared with it afterwards.
-/

set_option autoImplicit false

namespace MapReduce

/-- One `read_exact(fd, job_buf + off, len)`, which obtains `got` bytes. -/
structure JobRead where
  off : Nat
  len : Nat
  got : Nat
  deriving DecidableEq, Repr

/-- The bytes asked for have room in a buffer of this size. -/
def JobRead.Inside (size : Nat) (read : JobRead) : Prop := read.off + read.len ≤ size

/-- The bytes obtained do not. -/
def JobRead.Overruns (size : Nat) (read : JobRead) : Prop := size < read.off + read.got

instance (size : Nat) (read : JobRead) : Decidable (read.Inside size) := inferInstanceAs (Decidable (_ ≤ _))

instance (size : Nat) (read : JobRead) : Decidable (read.Overruns size) := inferInstanceAs (Decidable (_ < _))

/-- The reads for the paths that are left, from offset `off` on, and the one for the checksum.
A short read is the last. -/
def pathReads : Nat → Nat → Bytes → List JobRead
  | 0, off, file => [⟨off, 8, min 8 file.length⟩]
  | left + 1, off, file =>
    ⟨off, 2, min 2 file.length⟩ ::
      if file.length < 2 then []
      else
        let pathLen := BigEndian.value (file.take 2)
        let file := file.drop 2
        ⟨off + 2, pathLen, min pathLen file.length⟩ ::
          if file.length < pathLen then [] else pathReads left (off + 2 + pathLen) (file.drop pathLen)

/-- `m` as `aof_read_job` takes it from the bytes behind the file header. -/
def jobCount (file : Bytes) : Nat := BigEndian.value (file.take 4)

/-- Every read into `job_buf`. The first eight bytes are read elsewhere and copied. -/
def jobReads (file : Bytes) : List JobRead :=
  if file.length < 8 then [] else pathReads (jobCount file) 8 (file.drop 8)

/-! ## The reads and the reader -/

section Reader

variable {size n : Nat} {buf file : Bytes}

theorem readInto_overruns (overruns : JobRead.Overruns size ⟨buf.length, n, min n file.length⟩) :
    readInto size n buf file = .error .undefined := by
  unfold JobRead.Overruns at overruns
  unfold readInto readExact
  simp only [List.length_take]
  rw [if_pos overruns]

theorem readInto_short (inside : ¬ JobRead.Overruns size ⟨buf.length, n, min n file.length⟩)
    (short : file.length < n) : readInto size n buf file = .error .failed := by
  unfold JobRead.Overruns at inside
  unfold readInto readExact
  simp only [List.length_take]
  rw [if_neg inside, if_pos (by omega)]

theorem readInto_whole (inside : ¬ JobRead.Overruns size ⟨buf.length, n, min n file.length⟩)
    (enough : n ≤ file.length) : readInto size n buf file = .ok (buf ++ file.take n, file.drop n) := by
  unfold JobRead.Overruns at inside
  unfold readInto readExact
  simp only [List.length_take]
  rw [if_neg inside, if_neg (by omega)]

theorem readInto_bind_undefined {β : Type} {next : Bytes × Bytes → Except Stop β} :
    (readInto size n buf file).bind next = .error .undefined ↔
      JobRead.Overruns size ⟨buf.length, n, min n file.length⟩ ∨
        n ≤ file.length ∧ next (buf ++ file.take n, file.drop n) = .error .undefined := by
  by_cases overruns : JobRead.Overruns size ⟨buf.length, n, min n file.length⟩
  · rw [readInto_overruns overruns]
    exact iff_of_true rfl (.inl overruns)
  by_cases short : file.length < n
  · rw [readInto_short overruns short]
    exact iff_of_false (by simp [Except.bind]) (by simp [overruns, short])
  · have enough := Nat.not_lt.mp short
    rw [readInto_whole overruns enough]
    simp only [Except.bind, overruns, enough, false_or, true_and]

end Reader

theorem pathReads_overruns {size left off n : Nat} {file : Bytes} (pathLen : BigEndian.value (file.take 2) = n) :
    (∃ read ∈ pathReads (left + 1) off file, read.Overruns size) ↔
      JobRead.Overruns size ⟨off, 2, min 2 file.length⟩ ∨ 2 ≤ file.length ∧
        (JobRead.Overruns size ⟨off + 2, n, min n (file.drop 2).length⟩ ∨ n ≤ (file.drop 2).length ∧
          ∃ read ∈ pathReads left (off + 2 + n) ((file.drop 2).drop n), read.Overruns size) := by
  rw [pathReads]
  simp only [pathLen, List.mem_cons, exists_eq_or_imp]
  by_cases short : file.length < 2
  · simp [short, Nat.not_le.mpr short]
  by_cases cut : (file.drop 2).length < n
  · rw [if_neg short, if_pos cut]
    simp only [Nat.not_lt.mp short, Nat.not_le.mpr cut, true_and, false_and, or_false, List.mem_cons,
      List.not_mem_nil, exists_eq_left]
  · rw [if_neg short, if_neg cut]
    simp only [Nat.not_lt.mp short, Nat.not_lt.mp cut, true_and, List.mem_cons, exists_eq_or_imp]

theorem readPaths_bind_succ {β : Type} (size left : Nat) (buf file : Bytes) (next : Bytes × Bytes → Except Stop β) :
    (readPaths size (left + 1) buf file).bind next = (readInto size 2 buf file).bind fun field =>
      (readInto size (BigEndian.value (field.1.drop (field.1.length - 2))) field.1 field.2).bind fun path =>
        (readPaths size left path.1 path.2).bind next := by
  change ((readInto size 2 buf file).bind _).bind next = _
  cases readInto size 2 buf file with
  | error stop => rfl
  | ok field =>
    change ((readInto size _ field.1 field.2).bind _).bind next =
      (readInto size (BigEndian.value (field.1.drop (field.1.length - 2))) field.1 field.2).bind _
    cases readInto size (BigEndian.value (field.1.drop (field.1.length - 2))) field.1 field.2 with
    | error stop => rfl
    | ok path => rfl

theorem readPaths_undefined {size left : Nat} {buf file : Bytes} :
    ((readPaths size left buf file).bind fun step => readInto size 8 step.1 step.2) = .error .undefined ↔
      ∃ read ∈ pathReads left buf.length file, read.Overruns size := by
  induction left generalizing buf file with
  | zero =>
    have last := @readInto_bind_undefined size 8 buf file _ Except.ok
    have whole : (readInto size 8 buf file).bind Except.ok = readInto size 8 buf file := by
      cases readInto size 8 buf file <;> rfl
    rw [whole] at last
    simpa [readPaths, Except.bind, pathReads] using last
  | succ left ih =>
    rw [readPaths_bind_succ, readInto_bind_undefined, pathReads_overruns rfl]
    refine or_congr Iff.rfl (and_congr_right fun enough => ?_)
    -- The length field is there, at the end of the buffer.
    have off : (buf ++ file.take 2).length = buf.length + 2 := by
      rw [List.length_append, List.length_take]
      omega
    have field : (buf ++ file.take 2).drop ((buf ++ file.take 2).length - 2) = file.take 2 := by
      rw [off, Nat.add_sub_cancel, List.drop_left]
    simp only [field]
    rw [readInto_bind_undefined, off]
    refine or_congr Iff.rfl (and_congr_right fun path => ?_)
    have later : (buf ++ file.take 2 ++ (file.drop 2).take (BigEndian.value (file.take 2))).length =
        buf.length + 2 + BigEndian.value (file.take 2) := by
      rw [List.length_append, off, List.length_take]
      omega
    rw [← later]
    exact ih

theorem bind_ok_iff {α β : Type} {x : Except Stop α} {f : α → Except Stop β} {b : β} :
    x.bind f = .ok b ↔ ∃ a, x = .ok a ∧ f a = .ok b := by
  cases x with
  | error stop => simp [Except.bind]
  | ok a => simp [Except.bind]

theorem bind_undefined_iff {α β : Type} {x : Except Stop α} {f : α → Except Stop β}
    (defined : ∀ a, f a ≠ .error .undefined) : x.bind f = .error .undefined ↔ x = .error .undefined := by
  cases x with
  | error stop => simp [Except.bind]
  | ok a => simp [Except.bind, defined a]

def checkJobCrc (m r : Nat) (last : Bytes × Bytes) : Except Stop (AofJob × Bytes) :=
  let crcAt := last.1.length - 8
  if BigEndian.value (last.1.drop crcAt) ≠ (crc64 0 (last.1.take crcAt)).toNat then .error .failed
  else .ok (⟨m, r, last.1⟩, last.2)

theorem aofReadJob_eq {file : Bytes} (enough : 8 ≤ file.length) :
    aofReadJob file =
      ((readPaths (readBufSize (jobCount file)) (jobCount file) (file.take 8) (file.drop 8)).bind fun step =>
        readInto (readBufSize (jobCount file)) 8 step.1 step.2).bind
        (checkJobCrc (jobCount file) (BigEndian.value ((file.take 8).drop 4))) := by
  have eight : ¬ (file.take 8).length ≠ 8 := by
    rw [List.length_take]
    omega
  have count : BigEndian.value ((file.take 8).take 4) = jobCount file := by
    rw [List.take_take]
    rfl
  unfold aofReadJob readExact
  simp only [if_neg eight, count]
  change (readPaths (readBufSize (jobCount file)) _ _ _).bind _ = _
  cases readPaths (readBufSize (jobCount file)) (jobCount file) (file.take 8) (file.drop 8) with
  | error stop => rfl
  | ok step => rfl

theorem aofReadJob_undefined {file : Bytes} :
    aofReadJob file = .error .undefined ↔
      file.length < 8 ∨ ∃ read ∈ jobReads file, read.Overruns (readBufSize (jobCount file)) := by
  by_cases short : file.length < 8
  · have cut : (file.take 8).length ≠ 8 := by
      rw [List.length_take]
      omega
    refine iff_of_true ?_ (.inl short)
    unfold aofReadJob readExact
    simp only [if_pos cut]
  have enough : 8 ≤ file.length := Nat.not_lt.mp short
  have eight : (file.take 8).length = 8 := by
    rw [List.length_take]
    omega
  have trace := @readPaths_undefined (readBufSize (jobCount file)) (jobCount file) (file.take 8) (file.drop 8)
  rw [eight] at trace
  rw [aofReadJob_eq enough, bind_undefined_iff, trace, jobReads, if_neg short]
  · simp [short]
  · intro last
    unfold checkJobCrc
    simp only
    split <;> simp

/-! ## The reads and the buffer -/

/-- The `path_len` fields that stand in front of the paths, as far as the file has them. -/
def pathLens : Nat → Bytes → List Nat
  | 0, _ => []
  | left + 1, file =>
    if file.length < 2 then []
    else
      let pathLen := BigEndian.value (file.take 2)
      pathLen :: pathLens left (file.drop (2 + pathLen))

def pathSpan (lens : List Nat) : Nat := (lens.map (2 + ·)).sum

/-- The size of the field behind the paths that are there: the checksum, or the length of the next path. -/
def nextField (count : Nat) (lens : List Nat) : Nat := if lens.length = count then 8 else 2

theorem pathLens_nil (left : Nat) : pathLens left [] = [] := by
  cases left <;> rfl

theorem pathLens_short {left : Nat} {file : Bytes} (short : file.length < 2) : pathLens (left + 1) file = [] :=
  if_pos short

theorem pathLens_succ {left : Nat} {file : Bytes} (enough : ¬ file.length < 2) :
    pathLens (left + 1) file =
      BigEndian.value (file.take 2) :: pathLens left (file.drop (2 + BigEndian.value (file.take 2))) :=
  if_neg enough

theorem pathLens_length_le (left : Nat) (file : Bytes) : (pathLens left file).length ≤ left := by
  induction left generalizing file with
  | zero => exact Nat.le_refl 0
  | succ left ih =>
    by_cases short : file.length < 2
    · rw [pathLens_short short]
      exact Nat.zero_le _
    · rw [pathLens_succ short]
      exact Nat.succ_le_succ (ih _)

@[simp]
theorem pathSpan_nil : pathSpan [] = 0 := rfl

@[simp]
theorem pathSpan_cons (n : Nat) (lens : List Nat) : pathSpan (n :: lens) = 2 + n + pathSpan lens := rfl

@[simp]
theorem nextField_cons (count n : Nat) (lens : List Nat) :
    nextField (count + 1) (n :: lens) = nextField count lens := by
  simp [nextField]

/-- Each read starts where the one before it ended. When the paths are all in the file, one more field is read. -/
theorem pathReads_inside {size left off : Nat} {file : Bytes} :
    (∀ read ∈ pathReads left off file, read.Inside size) ↔
      off + pathSpan (pathLens left file) ≤ size ∧ (pathSpan (pathLens left file) ≤ file.length →
        off + pathSpan (pathLens left file) + nextField left (pathLens left file) ≤ size) := by
  induction left generalizing off file with
  | zero =>
    simp only [pathReads, pathLens, nextField, JobRead.Inside, List.forall_mem_singleton, pathSpan_nil,
      List.length_nil, ↓reduceIte]
    omega
  | succ left ih =>
    by_cases short : file.length < 2
    · rw [pathLens_short short]
      simp only [pathReads, short, nextField, JobRead.Inside, ↓reduceIte, List.forall_mem_singleton, pathSpan_nil,
        List.length_nil]
      rw [if_neg (Nat.succ_ne_zero left).symm]
      omega
    rw [pathLens_succ short, pathReads]
    generalize BigEndian.value (file.take 2) = n
    simp only [short, ↓reduceIte, List.forall_mem_cons, JobRead.Inside, pathSpan_cons, nextField_cons]
    by_cases cut : (file.drop 2).length < n
    · -- The path is cut, and nothing is behind it.
      have empty : file.drop (2 + n) = [] := by
        rw [← List.drop_drop]
        exact List.drop_eq_nil_of_le (Nat.le_of_lt cut)
      rw [List.length_drop] at cut
      simp only [List.length_drop, cut, ↓reduceIte, empty, pathLens_nil, pathSpan_nil, List.not_mem_nil, false_implies,
        implies_true, and_true]
      omega
    · have later := @ih (off + 2 + n) (file.drop (2 + n))
      simp only [JobRead.Inside, List.length_drop] at later
      rw [List.drop_drop, List.length_drop] at *
      simp only [cut, ↓reduceIte]
      rw [later]
      omega

theorem pathSpan_le {lens : List Nat} (short : ∀ n ∈ lens, n ≤ mapreducePathMax) :
    pathSpan lens ≤ lens.length * (2 + mapreducePathMax) := by
  induction lens with
  | nil => exact Nat.zero_le _
  | cons n lens ih =>
    have first := short n List.mem_cons_self
    have others := ih fun n among => short n (List.mem_cons_of_mem _ among)
    rw [pathSpan_cons, List.length_cons, Nat.succ_mul]
    omega

/-- All reads stay inside the buffer exactly when the paths the file announces, and the field behind them where
the file has them all, fit in the wrapped product and the eight bytes of the checksum. That is so when the product
does not wrap and no path is longer than the formula allows. -/
theorem jobReads_inside (file : Bytes) :
    let M := jobCount file
    let lens := pathLens M (file.drop 8)
    let room := M * (2 + mapreducePathMax) % 2 ^ 32 + 8
    ((∀ read ∈ jobReads file, read.Inside (readBufSize M)) ↔
      pathSpan lens ≤ room ∧ (pathSpan lens ≤ file.length - 8 → pathSpan lens + nextField M lens ≤ room)) ∧
    (M * (2 + mapreducePathMax) < 2 ^ 32 → (∀ n ∈ lens, n ≤ mapreducePathMax) →
      ∀ read ∈ jobReads file, read.Inside (readBufSize M)) := by
  intro M lens room
  have size : readBufSize M = 8 + room := by
    unfold readBufSize
    omega
  have exactly : (∀ read ∈ jobReads file, read.Inside (readBufSize M)) ↔
      pathSpan lens ≤ room ∧ (pathSpan lens ≤ file.length - 8 → pathSpan lens + nextField M lens ≤ room) := by
    rw [size, ← List.length_drop]
    unfold jobReads
    split
    next few =>
      -- Without the counts there is no read, and no path either.
      have none : lens = [] := by
        simp only [lens]
        rw [List.drop_eq_nil_of_le (Nat.le_of_lt few), pathLens_nil]
      have last : nextField M lens ≤ 8 := by
        unfold nextField
        split <;> decide
      simp only [none, List.not_mem_nil, false_implies, implies_true, pathSpan_nil, true_iff] at last ⊢
      omega
    next =>
      rw [pathReads_inside]
      change 8 + pathSpan lens ≤ 8 + room ∧
        (pathSpan lens ≤ (file.drop 8).length → 8 + pathSpan lens + nextField M lens ≤ 8 + room) ↔ _
      omega
  refine ⟨exactly, ?_⟩
  intro product short
  rw [exactly]
  have span := pathSpan_le short
  have count : lens.length ≤ M := pathLens_length_le M _
  have whole : room = M * (2 + mapreducePathMax) + 8 := by
    simp only [room, Nat.mod_eq_of_lt product]
  simp only [mapreducePathMax] at span whole
  unfold nextField
  split <;> omega

/-- A path whose length field says 1100, with as many bytes behind it. -/
def longPathHeader : Bytes :=
  BigEndian.encode 4 1 ++ (BigEndian.encode 4 1 ++ (BigEndian.encode 2 1100 ++ List.replicate 1100 97))

/-- A count for which the product is a multiple of `2 ^ 32`, and one path of seven bytes. -/
def wrappedHeader : Bytes :=
  BigEndian.encode 4 (2 ^ 31) ++ (BigEndian.encode 4 1 ++ (BigEndian.encode 2 7 ++ List.replicate 7 97))

/-- Both headers write behind the buffer before the checksum is looked at. -/
theorem jobReads_escape :
    (readBufSize (jobCount longPathHeader) = 1042 ∧ ⟨10, 1100, 1100⟩ ∈ jobReads longPathHeader ∧
      ¬ JobRead.Inside 1042 ⟨10, 1100, 1100⟩ ∧ aofReadJob longPathHeader = .error .undefined) ∧
    (readBufSize (jobCount wrappedHeader) = 16 ∧ ⟨10, 7, 7⟩ ∈ jobReads wrappedHeader ∧
      ¬ JobRead.Inside 16 ⟨10, 7, 7⟩ ∧ aofReadJob wrappedHeader = .error .undefined) := by
  have long : readBufSize (jobCount longPathHeader) = 1042 ∧ ⟨10, 1100, 1100⟩ ∈ jobReads longPathHeader := by
    decide +kernel
  have wrapped : readBufSize (jobCount wrappedHeader) = 16 ∧ ⟨10, 7, 7⟩ ∈ jobReads wrappedHeader := by
    decide +kernel
  refine ⟨⟨long.1, long.2, by decide, ?_⟩, wrapped.1, wrapped.2, by decide, ?_⟩
  · rw [aofReadJob_undefined, long.1]
    exact .inr ⟨_, long.2, by decide⟩
  · rw [aofReadJob_undefined, wrapped.1]
    exact .inr ⟨_, wrapped.2, by decide⟩

end MapReduce
