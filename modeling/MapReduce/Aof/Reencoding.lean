import MapReduce.Aof.Language

/-! The job header read, walked and written again.

`aof_read_job` fills `job_buf` with its own offset, the definition pass of
`aof_load` walks the same buffer with another, and `aof_write_job` builds it
anew. The pass is followed here with its offset and with every copy it makes.
-/

set_option autoImplicit false

namespace MapReduce

/-! ## The definition pass with its offset -/

/-- The definition pass from slot `i` and offset `pathsOff` on: the slots, every `memcpy` out of the buffer, and
the offset at the end. -/
def definitionPass (buf : Bytes) :
    Nat → Nat → Nat → Table maxMapTasks Task → Except Stop (Table maxMapTasks Task × List JobRead × Nat)
  | 0, _, pathsOff, maps => .ok (maps, [], pathsOff)
  | left + 1, i, pathsOff, maps =>
    if buf.length < pathsOff + 2 then .error .undefined
    else
      let pathLen := BigEndian.value ((buf.drop pathsOff).take 2)
      if pathLen ≥ mapreducePathMax then .error .failed
      else if buf.length < pathsOff + 2 + pathLen then .error .undefined
      else match maps.read i with
        | none => .error .undefined
        | some t => do
          let (maps, copies, last) ← definitionPass buf left (i + 1) (pathsOff + 2 + pathLen)
            (maps.write i { t with inputPath := (buf.drop (pathsOff + 2)).take pathLen, inputPathLen := pathLen })
          return (maps, ⟨pathsOff, 2, 2⟩ :: ⟨pathsOff + 2, pathLen, pathLen⟩ :: copies, last)

theorem definitionPass_erase {buf : Bytes} {left i pathsOff : Nat} {maps : Table maxMapTasks Task}
    (inside : pathsOff ≤ buf.length) :
    (definitionPass buf left i pathsOff maps).map (·.1) = definePaths left i (buf.drop pathsOff) maps := by
  induction left generalizing i pathsOff maps with
  | zero => rfl
  | succ left ih =>
    unfold definitionPass definePaths
    simp only [List.length_drop, List.drop_drop]
    generalize BigEndian.value ((buf.drop pathsOff).take 2) = pathLen
    by_cases field : buf.length < pathsOff + 2
    · rw [if_pos field, if_pos (show buf.length - pathsOff < 2 by omega)]
      rfl
    rw [if_neg field, if_neg (show ¬ buf.length - pathsOff < 2 by omega)]
    by_cases long : pathLen ≥ mapreducePathMax
    · rw [if_pos long, if_pos long]
      rfl
    rw [if_neg long, if_neg long]
    by_cases path : buf.length < pathsOff + 2 + pathLen
    · rw [if_pos path, if_pos (show buf.length - (pathsOff + 2) < pathLen by omega)]
      rfl
    rw [if_neg path, if_neg (show ¬ buf.length - (pathsOff + 2) < pathLen by omega)]
    cases maps.read i with
    | none => rfl
    | some t =>
      simp only
      rw [← ih (by omega)]
      cases definitionPass buf left (i + 1) (pathsOff + 2 + pathLen) _ with
      | error stop => rfl
      | ok result => rfl

/-! ## Both loops on the fields of a list of paths -/

def fieldReads : Nat → List Bytes → List JobRead
  | _, [] => []
  | off, path :: rest =>
    ⟨off, 2, 2⟩ :: ⟨off + 2, path.length, path.length⟩ :: fieldReads (off + 2 + path.length) rest

theorem pathField_length (path : Bytes) : (pathField path).length = 2 + path.length := by
  rw [pathField, List.length_append, BigEndian.encode_length]

theorem pathReads_fields {paths : List Bytes} (short : ∀ path ∈ paths, path.length < 256 ^ 2) (off : Nat)
    {crc : Bytes} (eight : crc.length = 8) (rest : Bytes) :
    pathReads paths.length off (paths.flatMap pathField ++ (crc ++ rest)) =
      fieldReads off paths ++ [⟨off + (paths.flatMap pathField).length, 8, 8⟩] := by
  induction paths generalizing off with
  | nil =>
    have enough : min 8 (crc ++ rest).length = 8 := by
      rw [List.length_append]
      omega
    simp only [List.length_nil, List.flatMap_nil, List.nil_append, pathReads, fieldReads, enough, Nat.add_zero]
  | cons path paths ih =>
    have two : (BigEndian.encode 2 path.length).length = 2 := BigEndian.encode_length _ _
    have later := ih (fun p member => short p (List.mem_cons_of_mem _ member)) (off + 2 + path.length)
    have room : ∀ a b : Nat, min a (a + b) = a := fun a b => Nat.min_eq_left (Nat.le_add_right a b)
    simp only [List.length_cons, List.flatMap_cons, pathField, List.append_assoc, pathReads, List.take_left' two,
      List.drop_left' two, BigEndian.value_encode 2 (short path List.mem_cons_self), List.drop_left,
      List.length_append, two, room] at later ⊢
    rw [if_neg (by omega), if_neg (by omega), later]
    simp only [fieldReads, List.cons_append, Nat.add_assoc]

theorem definitionPass_field {path : Bytes} (short : path.length < mapreducePathMax) (front tail : Bytes)
    {left i : Nat} {maps : Table maxMapTasks Task} {t : Task} (found : maps.read i = some t) :
    definitionPass (front ++ (pathField path ++ tail)) (left + 1) i front.length maps =
      (definitionPass (front ++ pathField path ++ tail) left (i + 1) (front ++ pathField path).length
        (maps.write i { t with inputPath := path, inputPathLen := path.length })).map fun (maps, copies, last) =>
          (maps, ⟨front.length, 2, 2⟩ :: ⟨front.length + 2, path.length, path.length⟩ :: copies, last) := by
  have fits : path.length < 256 ^ 2 := by
    simp only [mapreducePathMax] at short
    omega
  have two : (BigEndian.encode 2 path.length).length = 2 := BigEndian.encode_length _ _
  have here : (front ++ (pathField path ++ tail)).drop front.length =
      BigEndian.encode 2 path.length ++ (path ++ tail) := by
    rw [List.drop_left, pathField, List.append_assoc]
  have room : (front ++ (pathField path ++ tail)).length = front.length + 2 + path.length + tail.length := by
    rw [List.length_append, List.length_append, pathField_length]
    omega
  rw [definitionPass, ← List.drop_drop, here, List.take_left' two, List.drop_left' two, BigEndian.value_encode 2 fits]
  simp only [found, List.take_left]
  rw [if_neg (by omega), if_neg (by omega), if_neg (by omega), List.append_assoc, List.length_append,
    pathField_length, ← Nat.add_assoc]
  cases definitionPass (front ++ (pathField path ++ tail)) left (i + 1) (front.length + 2 + path.length) _ <;> rfl

theorem definitionPass_fields {paths : List Bytes} (short : ∀ path ∈ paths, path.length < mapreducePathMax)
    (front tail : Bytes) {i : Nat} (maps : Table maxMapTasks Task) (bound : i + paths.length ≤ maxMapTasks) :
    ∃ maps', definitionPass (front ++ (paths.flatMap pathField ++ tail)) paths.length i front.length maps =
        .ok (maps', fieldReads front.length paths, front.length + (paths.flatMap pathField).length) ∧
      (∀ k < i, maps'.read k = maps.read k) ∧
      ∀ k path, paths[k]? = some path →
        ∃ t, maps'.read (i + k) = some t ∧ t.inputPath = path ∧ t.inputPathLen = path.length := by
  -- The buffer in front grows by one field at each round, and the slots before `i` are finished.
  induction paths generalizing front i maps with
  | nil => exact ⟨maps, rfl, fun _ _ => rfl, fun k path none_left => by simp at none_left⟩
  | cons path paths ih =>
    simp only [List.length_cons] at bound
    obtain ⟨t, found⟩ := maps.read_isSome (by omega : i < maxMapTasks)
    obtain ⟨maps', walked, before, held⟩ := ih (fun p member => short p (List.mem_cons_of_mem _ member))
      (front ++ pathField path) (maps.write i { t with inputPath := path, inputPathLen := path.length })
      (by omega : i + 1 + paths.length ≤ maxMapTasks)
    refine ⟨maps', ?_, ?_, ?_⟩
    · rw [List.flatMap_cons, List.append_assoc, List.length_cons,
        definitionPass_field (short path List.mem_cons_self) front _ found, walked]
      simp only [Except.map, fieldReads, List.length_append, pathField_length, Nat.add_assoc]
    · intro k below
      rw [before k (by omega), Table.read_write, if_neg (by omega)]
    · intro k named listed
      cases k with
      | zero =>
        cases listed
        refine ⟨{ t with inputPath := path, inputPathLen := path.length }, ?_, rfl, rfl⟩
        rw [Nat.add_zero, before i (by omega), Table.read_write_self _ found]
      | succ k =>
        rw [Nat.add_comm k 1, ← Nat.add_assoc]
        exact held k named listed

/-! ## Read, walked and written again -/

theorem mem_fieldReads {paths : List Bytes} {path : Bytes} (member : path ∈ paths) (off : Nat) :
    ∃ read ∈ fieldReads off paths, read.len = path.length := by
  induction paths generalizing off with
  | nil => cases member
  | cons first paths ih =>
    rcases List.mem_cons.mp member with rfl | later
    · exact ⟨⟨off + 2, path.length, path.length⟩, by simp [fieldReads], rfl⟩
    · obtain ⟨read, listed, length⟩ := ih later (off + 2 + first.length)
      exact ⟨read, List.mem_cons_of_mem _ (List.mem_cons_of_mem _ listed), length⟩

theorem withCrc_jobBody (paths : List Bytes) (R : Nat) :
    withCrc (jobBody paths R) = (BigEndian.encode 4 paths.length ++ BigEndian.encode 4 R) ++
      (paths.flatMap pathField ++ BigEndian.encode 8 (crc64 0 (jobBody paths R)).toNat) := by
  simp only [withCrc, jobBody, List.append_assoc]

theorem jobReads_header {paths : List Bytes} {R : Nat} (count : paths.length < 256 ^ 4)
    (short : ∀ path ∈ paths, path.length < 256 ^ 2) (rest : Bytes) :
    jobReads (withCrc (jobBody paths R) ++ rest) =
      fieldReads 8 paths ++ [⟨8 + (paths.flatMap pathField).length, 8, 8⟩] := by
  have four : (BigEndian.encode 4 paths.length).length = 4 := BigEndian.encode_length _ _
  have eight : (BigEndian.encode 4 paths.length ++ BigEndian.encode 4 R).length = 8 := by simp
  have counted : jobCount (withCrc (jobBody paths R) ++ rest) = paths.length := by
    rw [jobCount, withCrc_jobBody, List.append_assoc, List.append_assoc, List.take_left' four,
      BigEndian.value_encode 4 count]
  rw [jobReads, counted, withCrc_jobBody, List.append_assoc, if_neg (by rw [List.length_append]; omega),
    List.drop_left' eight, List.append_assoc]
  exact pathReads_fields short 8 (BigEndian.encode_length 8 _) rest

/-- For every header that `aof_read_job` accepts within the limits on the maps and on the paths, the definition
pass copies exactly what was read, field by field, and ends at the checksum; and `aof_write_job` on what it leaves
writes the bytes that were read. -/
theorem jobHeader_reencoded {file rest : Bytes} {job : AofJob} (accepted : aofReadJob file = .ok (job, rest))
    (maps_le : job.M ≤ maxMapTasks) (short : ∀ read ∈ jobReads file, read.len < mapreducePathMax) (m : Master) :
    ∃ maps copies last,
      definitionPass job.buf job.M 0 8 (resetPrefix m.maps job.M) = .ok (maps, copies, last) ∧
      definePaths job.M 0 (job.buf.drop 8) (resetPrefix m.maps job.M) = .ok maps ∧
      jobReads file = copies ++ [⟨last, 8, 8⟩] ∧ job.buf.length = last + 8 ∧ file = job.buf ++ rest ∧
      ∀ script out, WriteResult.accepted script job.buf.length = job.buf.length →
        aofWriteJob script out (jobBufSize { m with job := { m.job with M := job.M, R := job.R }, maps := maps })
          job.M job.R maps = some (out ++ job.buf, true) := by
  obtain ⟨paths, count, fits, written, consumed⟩ := aofReadJob_ok accepted
  have bound : paths.length ≤ maxMapTasks := count ▸ maps_le
  have small : paths.length < 256 ^ 4 := by
    simp only [maxMapTasks] at bound
    omega
  have reads := @jobReads_header paths job.R small fits rest
  rw [← consumed] at reads
  have paths_short : ∀ path ∈ paths, path.length < mapreducePathMax := by
    intro path member
    obtain ⟨read, listed, length⟩ := mem_fieldReads member 8
    rw [← length]
    exact short read (by rw [reads]; exact List.mem_append_left _ listed)
  have front : (BigEndian.encode 4 paths.length ++ BigEndian.encode 4 job.R).length = 8 := by simp
  have buf := written.trans (withCrc_jobBody paths job.R)
  obtain ⟨maps, walked, -, held⟩ := definitionPass_fields paths_short _
    (BigEndian.encode 8 (crc64 0 (jobBody paths job.R)).toNat) (resetPrefix m.maps job.M)
    (by omega : 0 + paths.length ≤ maxMapTasks)
  rw [← buf, front, count] at walked
  have length : job.buf.length = 8 + (paths.flatMap pathField).length + 8 := by
    rw [buf, List.length_append, front, List.length_append, BigEndian.encode_length, Nat.add_assoc]
  refine ⟨maps, _, _, walked, ?_, reads, length, written ▸ consumed, ?_⟩
  · rw [← definitionPass_erase (by omega), walked]
    rfl
  · intro script out whole
    have encoded := @aofWriteJob_eq { m with job := { m.job with M := job.M, R := job.R }, maps := maps } paths
      count.symm (fun i path listed => by simpa using held i path listed) script out job.R
    rw [encoded, ← written, writeAll_eq, whole, List.take_length]
    simp

/-- A header with an empty path and one that holds a NUL byte, for more reduces than `aof_load` would take. -/
def oddHeader : Bytes := withCrc (jobBody [[], [0x61, 0, 0x62]] 1000)

theorem jobHeader_reencoded_odd :
    aofReadJob oddHeader = .ok (⟨2, 1000, oddHeader⟩, []) ∧
      jobReads oddHeader = [⟨8, 2, 2⟩, ⟨10, 0, 0⟩, ⟨10, 2, 2⟩, ⟨12, 3, 3⟩, ⟨15, 8, 8⟩] ∧
      ∃ maps, definePaths 2 0 (oddHeader.drop 8) (resetPrefix (Table.fill .zero) 2) = .ok maps ∧
        aofWriteJob [] [] (jobBufSize { Master.zero sampleConfig with job := ⟨2, 1000, .map, 0, 0, 0⟩, maps := maps })
          2 1000 maps = some (oddHeader, true) := by
  have accepted : aofReadJob oddHeader = .ok (⟨2, 1000, oddHeader⟩, []) := by decide +kernel
  have reads : jobReads oddHeader = [⟨8, 2, 2⟩, ⟨10, 0, 0⟩, ⟨10, 2, 2⟩, ⟨12, 3, 3⟩, ⟨15, 8, 8⟩] := by decide +kernel
  obtain ⟨maps, _, _, _, defined, _, _, _, written⟩ := jobHeader_reencoded accepted (by decide)
    (by rw [reads]; decide) (Master.zero sampleConfig)
  exact ⟨accepted, reads, maps, defined, written [] [] rfl⟩

end MapReduce
