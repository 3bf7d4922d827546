import MapReduce.Task
import MapReduce.Worker.Stdio

/-! The map side of a worker: `worker_map.c` and `get_hash`.

The `emit` callback prints to one of the open streams; it is a function from
the number of partitions and a token to the partition and the text.
-/

set_option autoImplicit false

namespace MapReduce

open Calls Decimal

/-- `djb2`. A character is a signed byte, and it is widened with its sign. -/
def getHash (key : Bytes) : UInt64 :=
  key.foldl (fun hash c => ((hash <<< 5) + hash) + c.toInt8.toInt64.toUInt64) 5381

def intermediatePath (x y : Nat) : Bytes := ascii "intermediate/mr-" ++ decimal x ++ ascii "-" ++ decimal y

namespace WorkerMap

/-! ## Tokens -/

def lineMax : Nat := 8192

def delims : Bytes := ascii " \t\n\r"

/-- The tokens `emit` is called with for one buffer of input. -/
def lineTokens (line : Bytes) : List Bytes := (strsepAll delims (cString line)).filter (· ≠ [])

def tokensOf (content : Bytes) : List Bytes := (readLines lineMax content).flatMap lineTokens

theorem token_clean {content token : Bytes} (member : token ∈ tokensOf content) : ∀ b ∈ token, b ∉ delims := by
  obtain ⟨line, _, member⟩ := List.mem_flatMap.mp member
  exact strsepLoop_token (List.mem_of_mem_filter member)

def tokenizeFile (path : Bytes) (emit : Bytes → Proc Unit) : Proc Bool := do
  match ← fopenRead path with
  | none => pure false
  | some content =>
    each emit (tokensOf content)
    let failed ← ferror path
    let closed ← fclose path
    pure (!failed && closed)

/-! ## One map task -/

structure Paths where
  temp : Bytes
  final : Bytes
  deriving DecidableEq, Repr

def paths (taskId attemptId pid y : Nat) : Paths where
  temp := intermediatePath taskId y ++ ascii ".tmp." ++ decimal pid ++ ascii "." ++ decimal attemptId
  final := intermediatePath taskId y

def buildPaths (taskId attemptId pid y : Nat) : Option Paths :=
  let built := paths taskId attemptId pid y
  if built.temp.length ≥ mapreducePathMax ∨ built.final.length ≥ mapreducePathMax then none else some built

def closeHandles (opened : List Paths) : Proc Unit :=
  each (fun p => do let _ ← fclose p.temp) opened

/-- The first loop: open a temporary file for each partition, in order. -/
def openTemps (taskId attemptId pid : Nat) : List Nat → List Paths → Proc (Option (List Paths))
  | [], opened => pure (some opened)
  | y :: ys, opened =>
    match buildPaths taskId attemptId pid y with
    -- Both failures close what is open; the temporary files stay on disk.
    | none => do
      closeHandles opened
      pure none
    | some p => do
      if ← fopenWrite p.temp then openTemps taskId attemptId pid ys (opened ++ [p])
      else
        closeHandles opened
        pure none

abbrev Emit := Nat → Bytes → Nat × Bytes

def emitWordCount : Emit := fun nReduce token => ((getHash token).toNat % nReduce, token ++ ascii "\t1\n")

/-- Printing to a partition that has no stream is undefined. -/
def emitTo (emit : Emit) (nReduce : Nat) (opened : List Paths) (token : Bytes) : Proc Unit :=
  match opened[(emit nReduce token).1]? with
  | some p => fprintf p.temp (emit nReduce token).2
  | none => .stuck

def closePass (opened : List Paths) : Proc Bool :=
  all (fun p => do
    let failed ← ferror p.temp
    let closed ← fclose p.temp
    pure (!failed && closed)) opened

def renamePass (opened : List Paths) : Proc Bool := all (fun p => rename p.temp p.final) opened

end WorkerMap

open WorkerMap in
/-- The three arrays have `MAX_REDUCE_TASKS` slots; more partitions overrun them. -/
def workerMapRun (taskId attemptId pid nReduce : Nat) (inputPath : Bytes) (emit : Emit) : Proc Bool := do
  if nReduce > maxReduceTasks then .stuck
  else
    match ← openTemps taskId attemptId pid (List.range nReduce) [] with
    | none => pure false
    | some opened =>
      let read ← tokenizeFile inputPath (emitTo emit nReduce opened)
      -- The streams are closed even if reading failed; a file is renamed only when all went well.
      let closed ← closePass opened
      if read && closed then renamePass opened else pure false

namespace WorkerMap

/-! ## Paths -/

/-- What all files of one map task start with. -/
def stem (x : Nat) : Bytes := ascii "intermediate/mr-" ++ decimal x ++ ascii "-"

theorem intermediatePath_eq (x y : Nat) : intermediatePath x y = stem x ++ decimal y := rfl

theorem stem_append_inj {x x' : Nat} {s t : Bytes} (same : stem x ++ s = stem x' ++ t) : x = x' ∧ s = t := by
  have dash : ∀ rest, ∀ c ∈ (ascii "-" ++ rest).head?, isDigit c = false := by
    rintro rest c ⟨⟩
    rfl
  simp only [stem, List.append_assoc] at same
  obtain ⟨task, rest⟩ := decimal_append_inj (dash s) (dash t) (List.append_cancel_left same)
  exact ⟨task, List.append_cancel_left rest⟩

theorem final_inj {x x' y y' : Nat} (same : intermediatePath x y = intermediatePath x' y') : x = x' ∧ y = y' := by
  obtain ⟨task, partition⟩ := stem_append_inj (by simpa only [intermediatePath_eq] using same)
  exact ⟨task, decimal_injective partition⟩

/-- The part of a temporary name after the name of the final file. -/
def tempTail (attemptId pid : Nat) : Bytes := ascii ".tmp." ++ (decimal pid ++ (ascii "." ++ decimal attemptId))

theorem temp_eq (x attemptId pid y : Nat) :
    (paths x attemptId pid y).temp = stem x ++ (decimal y ++ tempTail attemptId pid) := by
  simp only [paths, intermediatePath_eq, tempTail, List.append_assoc]

theorem tempTail_stops (attemptId pid : Nat) : ∀ c ∈ (tempTail attemptId pid).head?, isDigit c = false := by
  rintro c ⟨⟩
  rfl

theorem tempTail_inj {attemptId attemptId' pid pid' : Nat} (same : tempTail attemptId pid = tempTail attemptId' pid') :
    attemptId = attemptId' ∧ pid = pid' := by
  have dot : ∀ n, ∀ c ∈ (ascii "." ++ decimal n).head?, isDigit c = false := by
    rintro n c ⟨⟩
    rfl
  obtain ⟨process, rest⟩ := decimal_append_inj (dot attemptId) (dot attemptId') (List.append_cancel_left same)
  exact ⟨decimal_injective (List.append_cancel_left rest), process⟩

theorem temp_inj {x x' attemptId attemptId' pid pid' y y' : Nat}
    (same : (paths x attemptId pid y).temp = (paths x' attemptId' pid' y').temp) :
    x = x' ∧ y = y' ∧ attemptId = attemptId' ∧ pid = pid' := by
  rw [temp_eq, temp_eq] at same
  obtain ⟨task, rest⟩ := stem_append_inj same
  obtain ⟨partition, tails⟩ := decimal_append_inj (tempTail_stops _ _) (tempTail_stops _ _) rest
  exact ⟨task, partition, tempTail_inj tails⟩

theorem temp_ne_final (x attemptId pid y x' y' : Nat) : (paths x attemptId pid y).temp ≠ intermediatePath x' y' := by
  intro same
  rw [temp_eq, intermediatePath_eq] at same
  have tails : decimal y ++ tempTail attemptId pid = decimal y' ++ [] := by
    rw [List.append_nil]
    exact (stem_append_inj same).2
  obtain ⟨_, nothing⟩ := decimal_append_inj (tempTail_stops _ _) (by simp) tails
  simp [tempTail, ascii] at nothing

theorem decimal_length_u32 {n : Nat} (small : n < 2 ^ 32) : (decimal n).length ≤ 10 :=
  decimal_length_le (Nat.lt_trans small (by decide)) (by decide)

theorem buildPaths_some {x attemptId pid y : Nat} {p : Paths} (built : buildPaths x attemptId pid y = some p) :
    p = paths x attemptId pid y := by
  unfold buildPaths at built
  simp only at built
  split at built
  · cases built
  · exact (Option.some.inj built).symm

def partitionText (emit : Emit) (nReduce y : Nat) (tokens : List Bytes) : Bytes :=
  (tokens.filter fun token => (emit nReduce token).1 = y).flatMap fun token => (emit nReduce token).2

theorem partitionText_append (emit : Emit) (nReduce y : Nat) (tokens more : List Bytes) :
    partitionText emit nReduce y (tokens ++ more) =
      partitionText emit nReduce y tokens ++ partitionText emit nReduce y more := by
  simp [partitionText]

theorem temp_ne_of_slot {ps : List Paths} {y z : Nat} {p q : Paths} (distinct : (ps.map Paths.temp).Nodup)
    (left : ps[y]? = some p) (right : ps[z]? = some q) (ne : y ≠ z) : q.temp ≠ p.temp := by
  intro clash
  have inside : y < (ps.map Paths.temp).length := by
    rw [List.length_map]
    exact (List.getElem?_eq_some_iff.mp left).1
  have slots : (ps.map Paths.temp)[y]? = (ps.map Paths.temp)[z]? := by
    rw [List.getElem?_map, List.getElem?_map, left, right, Option.map_some, Option.map_some, clash]
  exact ne ((List.getElem?_inj inside distinct).mp slots)

theorem temp_not_visited {visited rest : List Paths} {p : Paths}
    (distinct : ((visited ++ p :: rest).map Paths.temp).Nodup) : p.temp ∉ visited.map Paths.temp := by
  rw [List.map_append, List.map_cons] at distinct
  intro earlier
  exact (List.nodup_append.mp distinct).2.2 _ earlier _ List.mem_cons_self rfl

def attemptPaths (x attemptId pid nReduce : Nat) : List Paths := (List.range nReduce).map (paths x attemptId pid)

section AttemptPaths
variable {x attemptId pid nReduce : Nat}

theorem attemptPaths_getElem? {y : Nat} (below : y < nReduce) :
    (attemptPaths x attemptId pid nReduce)[y]? = some (paths x attemptId pid y) := by
  simp [attemptPaths, below]

theorem mem_attemptPaths {p : Paths} (member : p ∈ attemptPaths x attemptId pid nReduce) :
    ∃ y < nReduce, p = paths x attemptId pid y := by
  obtain ⟨y, range, rfl⟩ := List.mem_map.mp member
  exact ⟨y, List.mem_range.mp range, rfl⟩

theorem attemptPaths_temps : ((attemptPaths x attemptId pid nReduce).map Paths.temp).Nodup := by
  rw [attemptPaths, List.map_map]
  exact List.nodup_range.map fun _ _ same => (temp_inj same).2.1

theorem temp_ne_of_stem {path : Bytes} (other : ¬ stem x <+: path) :
    path ∉ (attemptPaths x attemptId pid nReduce).map Paths.temp := by
  intro member
  obtain ⟨p, inside, rfl⟩ := List.mem_map.mp member
  obtain ⟨y, _, rfl⟩ := mem_attemptPaths inside
  exact other ⟨_, (temp_eq x attemptId pid y).symm⟩

end AttemptPaths

end WorkerMap

end MapReduce
