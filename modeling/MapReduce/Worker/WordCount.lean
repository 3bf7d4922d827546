import MapReduce.Lib.Runs
import MapReduce.Worker.Reduce

/-! Word count from the input splits to the output files.

Workers run map tasks and then reduce tasks, each to its end. The output is
read back as a user reads it: one line for each word, the word before the tab
and its number of occurrences after it.
-/

set_option autoImplicit false

namespace MapReduce

open Calls Decimal Groups WorkerMap WorkerReduce

/-! ## The specification -/

/-- The lines of an output file, cut at the first tab. -/
def outputEntries (content : Bytes) : List (Bytes × Bytes) :=
  (content.splitOnP (· = 10)).dropLast.map fun line => (line.takeWhile (· ≠ 9), (line.dropWhile (· ≠ 9)).tail)

def Fs.entries (fs : Fs) (y : Nat) : List (Bytes × Bytes) := outputEntries ((fs (outputPath y)).getD [])

/-- The outputs hold each word once, with its number of occurrences, and nothing else. -/
structure WordCounted (R : Nat) (tokens : List Bytes) (fs : Fs) : Prop where
  published : ∀ y < R, (fs (outputPath y)).isSome
  once : ∀ w ∈ tokens, ∃ y < R, (fs.entries y).filter (·.1 = w) = [(w, decimal (tokens.count w))] ∧
    ∀ z < R, z ≠ y → ∀ entry ∈ fs.entries z, entry.1 ≠ w
  only : ∀ y < R, ∀ entry ∈ fs.entries y, entry.1 ∈ tokens

/-! ## Runs of workers -/

structure Attempt where
  taskId : UInt32
  attemptId : UInt32
  pid : UInt32
  deriving DecidableEq, Repr

inductive WorkerRun where
  | map (attempt : Attempt)
  | reduce (attempt : Attempt)
  deriving DecidableEq, Repr

/-- What all workers of a job agree on. -/
structure WordCountJob where
  qsort : QSort
  inputs : Nat → Bytes
  M : Nat
  R : Nat

def WorkerRun.program (job : WordCountJob) : WorkerRun → Proc Bool
  | .map a => workerMapRun a.taskId.toNat a.attemptId.toNat a.pid.toNat job.R (job.inputs a.taskId.toNat) emitWordCount
  | .reduce a => workerReduceRun job.qsort a.taskId.toNat a.attemptId.toNat a.pid.toNat job.M foldWordCount

/-- A worker that runs to its end and returns 0. -/
def WordCountJob.next (job : WordCountJob) (fs : Fs) (run : WorkerRun) : Option Fs :=
  match exec Fs.serve (run.program job) fs with
  | some (true, after) => some after
  | _ => none

theorem emitWordCount_inside {nReduce : Nat} (some_reduce : 1 ≤ nReduce) (token : Bytes) :
    (emitWordCount nReduce token).1 < nReduce :=
  Nat.mod_lt _ some_reduce

def WordCountJob.Written (job : WordCountJob) (splits : Nat → Bytes) (fs : Fs) (x : Nat) : Prop :=
  ∀ y < job.R, fs (intermediatePath x y) = some (partitionText emitWordCount job.R y (tokensOf (splits x)))

section Maps
variable {job : WordCountJob} {splits : Nat → Bytes} {fs after : Fs}

theorem stem_intermediate (x : Nat) : ascii "intermediate/" <+: stem x :=
  ⟨ascii "mr-" ++ (decimal x ++ ascii "-"), by simp [stem, ascii]⟩

end Maps

/-! ## Reduce tasks -/

def WordCountJob.records (job : WordCountJob) (splits : Nat → Bytes) (y : Nat) : List Record :=
  (List.range job.M).flatMap fun x => recordsOf (partitionText emitWordCount job.R y (tokensOf (splits x)))

def WordCountJob.grouped (job : WordCountJob) (splits : Nat → Bytes) (y : Nat) : List (Bytes × List Record) :=
  groups Record.key (job.qsort.sort (job.records splits y))

def WordCountJob.Reduced (job : WordCountJob) (splits : Nat → Bytes) (fs : Fs) (y : Nat) : Prop :=
  fs (outputPath y) = some (groupsText foldWordCount (job.grouped splits y))

section Reduces
variable {job : WordCountJob} {splits : Nat → Bytes} {fs after : Fs}

end Reduces

/-! ## Counting -/

theorem outputEntries_cons {key count rest : Bytes} (cleanKey : 9 ∉ key ∧ 10 ∉ key) (cleanCount : 10 ∉ count) :
    outputEntries (key ++ ascii "\t" ++ count ++ ascii "\n" ++ rest) = (key, count) :: outputEntries rest := by
  have shape : key ++ ascii "\t" ++ count ++ ascii "\n" ++ rest = (key ++ 9 :: count) ++ 10 :: rest := by
    simp [ascii]
  have line : ∀ b ∈ key ++ 9 :: count, (decide (b = 10)) = false := by
    intro b member
    rw [decide_eq_false_iff_not]
    rintro rfl
    rcases List.mem_append.mp member with inKey | inCount
    · exact cleanKey.2 inKey
    · rcases List.mem_cons.mp inCount with same | inCount
      · exact absurd same (by decide)
      · exact cleanCount inCount
  have inside : ∀ b ∈ key, (decide (b ≠ 9)) = true := by
    intro b member
    rw [decide_eq_true_eq]
    rintro rfl
    exact cleanKey.1 member
  rw [shape, outputEntries, List.splitOnP_append_cons_of_forall_mem line 10 (by decide),
    List.dropLast_cons_of_ne_nil (List.splitOnP_ne_nil _ _), List.map_cons, List.takeWhile_append_of_pos inside,
    List.dropWhile_append_of_pos inside]
  simp [outputEntries]

theorem outputEntries_groups {gs : List (Bytes × List Record)}
    (clean : ∀ group ∈ gs, 9 ∉ group.1 ∧ 10 ∉ group.1) :
    outputEntries (groupsText foldWordCount gs) = gs.map fun group => (group.1, decimal group.2.length) := by
  induction gs with
  | nil => rfl
  | cons group gs ih =>
    have count : (10 : UInt8) ∉ decimal group.2.length := by
      intro member
      have digit := isDigit_of_mem member
      exact absurd digit (by decide)
    have rest := ih fun other member => clean other (List.mem_cons_of_mem _ member)
    unfold groupsText at rest ⊢
    rw [List.flatMap_cons]
    simp only [foldWordCount, List.length_map] at rest ⊢
    rw [outputEntries_cons (clean group List.mem_cons_self) count, rest, List.map_cons]

/-- Each intermediate file reads back as the tokens written to it. -/
def WordCountJob.ReadsBack (job : WordCountJob) (splits : Nat → Bytes) : Prop :=
  ∀ x < job.M, ∀ y < job.R, (recordsOf (partitionText emitWordCount job.R y (tokensOf (splits x)))).map Record.key =
    (tokensOf (splits x)).filter fun token => (emitWordCount job.R token).1 = y

def WordCountJob.tokens (job : WordCountJob) (splits : Nat → Bytes) : List Bytes :=
  (List.range job.M).flatMap fun x => tokensOf (splits x)

section Counting
variable {job : WordCountJob} {splits : Nat → Bytes} (readsBack : job.ReadsBack splits)

include readsBack in
theorem records_keys {y : Nat} (below : y < job.R) : (job.records splits y).map Record.key =
    (job.tokens splits).filter fun token => (emitWordCount job.R token).1 = y := by
  rw [WordCountJob.records, WordCountJob.tokens, List.map_flatMap, List.filter_flatMap]
  apply List.flatMap_congr
  intro x range
  exact readsBack x (List.mem_range.mp range) y below

theorem grouped_fibres (y : Nat) :
    Fibres Record.key (job.qsort.sort (job.records splits y)) (job.grouped splits y) :=
  job.qsort.fibres _

include readsBack in
theorem mem_sorted_keys {y : Nat} (below : y < job.R) {w : Bytes} :
    w ∈ (job.qsort.sort (job.records splits y)).map Record.key ↔
      w ∈ job.tokens splits ∧ (emitWordCount job.R w).1 = y := by
  rw [((job.qsort.perm _).map _).mem_iff, records_keys readsBack below]
  simp

include readsBack in
theorem sorted_count {y : Nat} (below : y < job.R) {w : Bytes} (mine : (emitWordCount job.R w).1 = y) :
    ((job.qsort.sort (job.records splits y)).filter (·.key = w)).length = (job.tokens splits).count w := by
  rw [length_fibre, ((job.qsort.perm _).map _).count_eq, records_keys readsBack below,
    List.count_filter (by simpa using mine)]

include readsBack in
theorem entries_eq {fs : Fs} {y : Nat} (below : y < job.R) (reduced : job.Reduced splits fs y) :
    fs.entries y = (job.grouped splits y).map fun group => (group.1, decimal group.2.length) := by
  unfold Fs.entries
  rw [reduced, Option.getD_some]
  apply outputEntries_groups
  intro group member
  have key := ((grouped_fibres y).covers group.1).mp (List.mem_map_of_mem member)
  obtain ⟨x, _, token⟩ := List.mem_flatMap.mp ((mem_sorted_keys readsBack below).mp key).1
  have clean := token_clean token
  exact ⟨fun tab => clean 9 tab (by decide), fun newline => clean 10 newline (by decide)⟩

end Counting

end MapReduce
