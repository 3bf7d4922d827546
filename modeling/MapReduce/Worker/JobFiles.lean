import MapReduce.Worker.ReduceAttempts
import MapReduce.Worker.Tokens
import MapReduce.Worker.WordCount

/-! The files of a whole word count, attempted by many processes at once.

All attempts of all tasks share one `Publishing`. The intermediate files are
final files of the maps and inputs of the reduces, so a reduce is safe only
behind their publication. What an output file holds is said word by word.
-/

set_option autoImplicit false

namespace MapReduce

open Calls Decimal Groups Interference WorkerMap WorkerReduce

/-! ## What one output says -/

/-- The output of one partition holds each of its words once, with its number of occurrences, and nothing else. -/
structure PartitionCounted (R y : Nat) (tokens : List Bytes) (content : Bytes) : Prop where
  once : ∀ w ∈ tokens, (emitWordCount R w).1 = y →
    (outputEntries content).filter (·.1 = w) = [(w, decimal (tokens.count w))]
  only : ∀ entry ∈ outputEntries content, entry.1 ∈ tokens ∧ (emitWordCount R entry.1).1 = y

theorem readBack_key {token : Bytes} (fits : token.length + 2 ≤ WorkerReduce.lineMax) :
    (readBack token).map Record.key = [token] := by
  unfold readBack
  by_cases whole : token.length + 3 ≤ WorkerReduce.lineMax
  · rw [if_pos whole]
    rfl
  · rw [if_neg whole, if_pos (by omega)]
    rfl

section Counting
variable {job : WordCountJob} {splits : Nat → Bytes}

theorem readsBack_of_short (short : ∀ w ∈ job.tokens splits, w.length + 2 ≤ WorkerReduce.lineMax) :
    job.ReadsBack splits := by
  intro x below y _
  have member : ∀ w ∈ (tokensOf (splits x)).filter (fun token => (emitWordCount job.R token).1 = y),
      w ∈ tokensOf (splits x) := fun w inside => List.mem_of_mem_filter inside
  rw [partitionText, recordsOf_tokens fun w inside => emittable_iff.mpr ⟨_, member w inside⟩, List.map_flatMap]
  have keys : ∀ w ∈ (tokensOf (splits x)).filter (fun token => (emitWordCount job.R token).1 = y),
      (readBack w).map Record.key = [w] := fun w inside => readBack_key
    (short w (List.mem_flatMap.mpr ⟨x, List.mem_range.mpr below, member w inside⟩))
  rw [List.flatMap_congr keys, List.flatMap_singleton']

def WordCountJob.output (job : WordCountJob) (splits : Nat → Bytes) (y : Nat) : Bytes :=
  groupsText foldWordCount (job.grouped splits y)

theorem output_counted (readsBack : job.ReadsBack splits) {y : Nat} (below : y < job.R) :
    PartitionCounted job.R y (job.tokens splits) (job.output splits y) := by
  have reduced : job.Reduced splits (fun _ => some (job.output splits y)) y := rfl
  have entries : outputEntries (job.output splits y) = _ := entries_eq readsBack below reduced
  constructor
  · intro w occurs mine
    have fibres : Fibres Record.key _ (job.grouped splits y) := grouped_fibres y
    have group := fibres.filter_key ((mem_sorted_keys readsBack below).mpr ⟨occurs, mine⟩)
    rw [entries, List.filter_map, Function.comp_def]
    simp only
    rw [group, List.map_singleton, sorted_count readsBack below mine]
  · intro entry member
    rw [entries] at member
    obtain ⟨group, inside, rfl⟩ := List.mem_map.mp member
    exact (mem_sorted_keys readsBack below).mp (((grouped_fibres y).covers _).mp (List.mem_map_of_mem inside))

theorem wordCounted_of_partitions {R : Nat} {tokens : List Bytes} {fs : Fs} (some_reduce : 1 ≤ R)
    (outputs : ∀ y < R, ∃ content, fs (outputPath y) = some content ∧ PartitionCounted R y tokens content) :
    WordCounted R tokens fs := by
  have read : ∀ y content, fs (outputPath y) = some content → fs.entries y = outputEntries content := by
    intro y content there
    rw [Fs.entries, there, Option.getD_some]
  refine ⟨fun y below => ?_, fun w occurs => ?_, fun y below entry member => ?_⟩
  · obtain ⟨content, there, _⟩ := outputs y below
    rw [there]
    rfl
  · have below := emitWordCount_inside some_reduce w
    obtain ⟨content, there, counted⟩ := outputs _ below
    refine ⟨_, below, read _ _ there ▸ counted.once w occurs rfl, ?_⟩
    rintro z range differs entry member rfl
    obtain ⟨other, found, elsewhere⟩ := outputs z range
    rw [read z other found] at member
    exact differs (elsewhere.only entry member).2.symm
  · obtain ⟨content, there, counted⟩ := outputs y below
    rw [read y content there] at member
    exact (counted.only entry member).1

end Counting

/-! ## Names -/

/-- One attempt of one worker process. -/
structure Ticket where
  process : Nat
  kind : TaskKind
  task : Nat
  attempt : Nat
  deriving DecidableEq, Repr

theorem mapTemp_ne_output (x attemptId pid y : Nat) (rest : Bytes) :
    (paths x attemptId pid y).temp ≠ ascii "output/mr-out-" ++ rest := by
  intro same
  have first := congrArg List.head? same
  simp [paths, intermediatePath, ascii] at first

theorem reduceTemp_eq (y attemptId pid : Nat) :
    tempPath y attemptId pid = ascii "output/mr-out-" ++ (decimal y ++ tempTail attemptId pid) := by
  simp only [tempPath, outputPath, tempTail, List.append_assoc]

theorem intermediatePath_dir (x y : Nat) : ascii "intermediate/" <+: intermediatePath x y :=
  (stem_intermediate x).trans (List.prefix_append _ _)

theorem mapTemp_dir (x attemptId pid y : Nat) : ascii "intermediate/" <+: (paths x attemptId pid y).temp := by
  rw [temp_eq]
  exact (stem_intermediate x).trans (List.prefix_append _ _)

theorem output_dir (rest : Bytes) : ascii "output/" <+: ascii "output/mr-out-" ++ rest :=
  ⟨ascii "mr-out-" ++ rest, by simp [ascii]⟩

/-! ## The files of a job -/

namespace WordCountJob

variable (job : WordCountJob) (splits : Nat → Bytes)

def intermediates : List (Bytes × Bytes) :=
  (List.range job.M).flatMap fun x => (List.range job.R).map fun y =>
    (intermediatePath x y, mapContent emitWordCount job.R (splits x) y)

def outputs : List (Bytes × Bytes) := (List.range job.R).map fun y => (outputPath y, job.output splits y)

def stored (fs : Fs) : Fs := fun path =>
  match (job.intermediates splits).find? (·.1 = path) with
  | some file => some file.2
  | none => fs path

/-- Only the job's workers write below the two directories, and they start empty. -/
structure Ready (fs : Fs) : Prop where
  input : ∀ x < job.M, fs (job.inputs x) = some (splits x)
  empty : ∀ path, ascii "intermediate/" <+: path ∨ ascii "output/" <+: path → fs path = none

variable {job} {splits}

theorem mem_intermediates {file : Bytes × Bytes} : file ∈ job.intermediates splits ↔
    ∃ x < job.M, ∃ y < job.R, file = (intermediatePath x y, mapContent emitWordCount job.R (splits x) y) := by
  simp only [intermediates, List.mem_flatMap, List.mem_range, List.mem_map]
  constructor
  · rintro ⟨x, below, y, inside, rfl⟩
    exact ⟨x, below, y, inside, rfl⟩
  · rintro ⟨x, below, y, inside, rfl⟩
    exact ⟨x, below, y, inside, rfl⟩

theorem mem_outputs {file : Bytes × Bytes} :
    file ∈ job.outputs splits ↔ ∃ y < job.R, file = (outputPath y, job.output splits y) := by
  simp only [outputs, List.mem_map, List.mem_range]
  constructor
  · rintro ⟨y, below, rfl⟩
    exact ⟨y, below, rfl⟩
  · rintro ⟨y, below, rfl⟩
    exact ⟨y, below, rfl⟩

theorem stored_intermediate (fs : Fs) {x y : Nat} (map : x < job.M) (reduce : y < job.R) :
    job.stored splits fs (intermediatePath x y) = some (mapContent emitWordCount job.R (splits x) y) := by
  have listed : (intermediatePath x y, mapContent emitWordCount job.R (splits x) y) ∈ job.intermediates splits :=
    mem_intermediates.mpr ⟨x, map, y, reduce, rfl⟩
  unfold stored
  split
  next file found =>
    have named : file.1 = intermediatePath x y := by simpa using List.find?_some found
    obtain ⟨x', _, y', _, rfl⟩ := mem_intermediates.mp (List.mem_of_find?_eq_some found)
    obtain ⟨rfl, rfl⟩ := final_inj named
    rfl
  next missing => exact absurd (decide_eq_true rfl) (List.find?_eq_none.mp missing _ listed)

theorem stored_other (fs : Fs) {path : Bytes} (other : ¬ ascii "intermediate/" <+: path) :
    job.stored splits fs path = fs path := by
  unfold stored
  split
  next file found =>
    have named : file.1 = path := by simpa using List.find?_some found
    obtain ⟨x, _, y, _, rfl⟩ := mem_intermediates.mp (List.mem_of_find?_eq_some found)
    exact absurd (named ▸ intermediatePath_dir x y) other
  · rfl

theorem reduceContent_stored (fs : Fs) {y : Nat} (below : y < job.R) :
    reduceContent job.qsort foldWordCount (job.stored splits fs) y job.M = some (job.output splits y) := by
  have found : ∀ xs : List Nat, (∀ x ∈ xs, x < job.M) → storedRecords (job.stored splits fs) y xs =
      some (xs.flatMap fun x => recordsOf (partitionText emitWordCount job.R y (tokensOf (splits x)))) := by
    intro xs
    induction xs with
    | nil => exact fun _ => rfl
    | cons x xs ih =>
      intro range
      rw [storedRecords_cons (stored_intermediate fs (range x List.mem_cons_self) below),
        ih fun z member => range z (List.mem_cons_of_mem _ member)]
      rfl
  rw [reduceContent, found _ fun x member => List.mem_range.mp member]
  rfl

namespace Ready

variable {fs : Fs} (ready : job.Ready splits fs)

include ready in
theorem input_outside {x : Nat} (below : x < job.M) :
    ¬ ascii "intermediate/" <+: job.inputs x ∧ ¬ ascii "output/" <+: job.inputs x := by
  have there := ready.input x below
  constructor
  · intro inside
    rw [ready.empty _ (.inl inside)] at there
    cases there
  · intro inside
    rw [ready.empty _ (.inr inside)] at there
    cases there

end Ready

def temps (job : WordCountJob) (pid : Nat → Nat) (t : Ticket) : List Bytes :=
  match t.kind with
  | .map => (attemptPaths t.task t.attempt (pid t.process) job.R).map Paths.temp
  | .reduce => [tempPath t.task t.attempt (pid t.process)]

theorem mem_temps {pid : Nat → Nat} {t : Ticket} {path : Bytes} (member : path ∈ job.temps pid t) :
    (t.kind = .map ∧ ∃ y < job.R, path = (paths t.task t.attempt (pid t.process) y).temp) ∨
      (t.kind = .reduce ∧ path = tempPath t.task t.attempt (pid t.process)) := by
  unfold temps at member
  split at member
  next kind =>
    obtain ⟨p, inside, rfl⟩ := List.mem_map.mp member
    obtain ⟨y, below, rfl⟩ := mem_attemptPaths inside
    exact .inl ⟨kind, y, below, rfl⟩
  next kind => exact .inr ⟨kind, List.mem_singleton.mp member⟩

def finals (job : WordCountJob) (splits : Nat → Bytes) : List (Bytes × Option Bytes) :=
  (job.intermediates splits ++ job.outputs splits).map fun file => (file.1, some file.2)

theorem mem_finals {path : Bytes} {complete : Option Bytes} : (path, complete) ∈ job.finals splits ↔
    (∃ x < job.M, ∃ y < job.R, path = intermediatePath x y ∧
      complete = some (mapContent emitWordCount job.R (splits x) y)) ∨
    ∃ y < job.R, path = outputPath y ∧ complete = some (job.output splits y) := by
  simp only [finals, List.mem_map, List.mem_append, Prod.mk.injEq]
  constructor
  · rintro ⟨file, listed | listed, rfl, rfl⟩
    · obtain ⟨x, below, y, inside, rfl⟩ := mem_intermediates.mp listed
      exact .inl ⟨x, below, y, inside, rfl, rfl⟩
    · obtain ⟨y, below, rfl⟩ := mem_outputs.mp listed
      exact .inr ⟨y, below, rfl, rfl⟩
  · rintro (⟨x, below, y, inside, rfl, rfl⟩ | ⟨y, below, rfl, rfl⟩)
    · exact ⟨_, .inl (mem_intermediates.mpr ⟨x, below, y, inside, rfl⟩), rfl, rfl⟩
    · exact ⟨_, .inr (mem_outputs.mpr ⟨y, below, rfl⟩), rfl, rfl⟩

/-- Everything the workers of a job read and write. No two processes have the same id. -/
def publishing (job : WordCountJob) {splits : Nat → Bytes} {fs : Fs} (ready : job.Ready splits fs) {pid : Nat → Nat}
    (processes : Function.Injective pid) : Publishing Ticket where
  stored := job.stored splits fs
  inputs := (List.range job.M).map job.inputs
  finals := job.finals splits
  temps := job.temps pid
  finals_unique := by
    intro path left right first second
    rcases mem_finals.mp first with ⟨x, _, y, _, rfl, rfl⟩ | ⟨y, _, rfl, rfl⟩
    · rcases mem_finals.mp second with ⟨x', _, y', _, same, rfl⟩ | ⟨y', _, same, rfl⟩
      · obtain ⟨rfl, rfl⟩ := final_inj same
        rfl
      · exact absurd same (intermediate_ne_output x y _)
    · rcases mem_finals.mp second with ⟨x', _, y', _, same, rfl⟩ | ⟨y', _, same, rfl⟩
      · exact absurd same.symm (intermediate_ne_output x' y' _)
      · cases outputPath_inj same
        rfl
  temps_apart := by
    rintro ⟨i, kind, task, attempt⟩ ⟨j, kind', task', attempt'⟩ path left right
    rcases mem_temps left with ⟨rfl, y, _, rfl⟩ | ⟨rfl, rfl⟩
    · rcases mem_temps right with ⟨rfl, y', _, same⟩ | ⟨rfl, same⟩
      · obtain ⟨rfl, -, rfl, process⟩ := WorkerMap.temp_inj same
        cases processes process
        rfl
      · rw [reduceTemp_eq] at same
        exact absurd same (mapTemp_ne_output _ _ _ _ _)
    · rcases mem_temps right with ⟨rfl, y', _, same⟩ | ⟨rfl, same⟩
      · rw [reduceTemp_eq] at same
        exact absurd same.symm (mapTemp_ne_output _ _ _ _ _)
      · obtain ⟨rfl, rfl, process⟩ := WorkerReduce.temp_inj same
        cases processes process
        rfl
  temps_not_final := by
    intro t path member complete final
    rcases mem_temps member with ⟨_, y, _, rfl⟩ | ⟨_, rfl⟩
    · rcases mem_finals.mp final with ⟨x', _, y', _, same, _⟩ | ⟨y', _, same, _⟩
      · exact temp_ne_final _ _ _ _ _ _ same
      · exact mapTemp_ne_output _ _ _ _ _ same
    · rcases mem_finals.mp final with ⟨x', _, y', _, same, _⟩ | ⟨y', _, same, _⟩
      · rw [reduceTemp_eq] at same
        exact intermediate_ne_output _ _ _ same.symm
      · exact temp_ne_output _ _ _ _ same
  inputs_not_temp := by
    intro t path input member
    obtain ⟨x, range, rfl⟩ := List.mem_map.mp input
    obtain ⟨maps, reduces⟩ := ready.input_outside (List.mem_range.mp range)
    rcases mem_temps member with ⟨_, y, _, same⟩ | ⟨_, same⟩
    · exact maps (same ▸ mapTemp_dir _ _ _ _)
    · rw [reduceTemp_eq] at same
      exact reduces (same ▸ output_dir _)
  inputs_not_final := by
    intro path input complete final
    obtain ⟨x, range, rfl⟩ := List.mem_map.mp input
    obtain ⟨maps, reduces⟩ := ready.input_outside (List.mem_range.mp range)
    rcases mem_finals.mp final with ⟨x', _, y', _, same, _⟩ | ⟨y', _, same, _⟩
    · exact maps (same ▸ intermediatePath_dir _ _)
    · exact reduces (same ▸ output_dir _)

/-! ## Safe attempts -/

/-- The names an attempt that returns 0 has published. -/
def results (job : WordCountJob) (kind : TaskKind) (task : Nat) : List Bytes :=
  match kind with
  | .map => (List.range job.R).map (intermediatePath task)
  | .reduce => [outputPath task]

section Attempts
variable {fs : Fs} (ready : job.Ready splits fs) {pid : Nat → Nat} (processes : Function.Injective pid)

/-- An attempt that returns 0 leaves its results in place. -/
def post (t : Ticket) (ok : Bool) : Assertion ((job.publishing ready processes).contract.rely t) :=
  (job.publishing ready processes).owned t (fun _ => True) (if ok then job.results t.kind t.task else [])

theorem map_safe (process attempt : Nat) {x : Nat} (below : x < job.M) :
    Safe Disk.serve (job.publishing ready processes).contract ⟨process, .map, x, attempt⟩
      (workerMapRun x attempt (pid process) job.R (job.inputs x) emitWordCount)
      ((job.publishing ready processes).owned _ (fun _ => True) []) (post ready processes _) := by
  refine workerMapRun_publishes (fun p member => List.mem_map_of_mem member)
    (List.mem_map_of_mem (List.mem_range.mpr below)) fun y inside content found => ?_
  change job.stored splits fs (job.inputs x) = some content at found
  rw [stored_other fs (ready.input_outside below).1, ready.input x below] at found
  cases found
  exact mem_finals.mpr (.inl ⟨x, below, y, inside, rfl, rfl⟩)

def mapped (job : WordCountJob) : List Bytes := (List.range job.M).flatMap (job.results .map)

theorem reduce_safe (process attempt : Nat) {y : Nat} (below : y < job.R) :
    Safe Disk.serve (job.publishing ready processes).contract ⟨process, .reduce, y, attempt⟩
      (workerReduceRun job.qsort y attempt (pid process) job.M foldWordCount)
      ((job.publishing ready processes).owned _ (fun _ => True) job.mapped) (post ready processes _) := by
  refine workerReduceRun_publishes (List.mem_singleton.mpr rfl) (fun x inside => ?_) fun text content => ?_
  · refine Publishing.readable_final ?_ ?_
    · exact List.mem_flatMap.mpr ⟨x, List.mem_range.mpr inside, List.mem_map_of_mem (List.mem_range.mpr below)⟩
    · exact mem_finals.mpr (.inl ⟨x, inside, y, below, rfl, stored_intermediate fs inside below⟩)
  · change reduceContent job.qsort foldWordCount (job.stored splits fs) y job.M = some text at content
    rw [reduceContent_stored fs below] at content
    cases content
    exact mem_finals.mpr (.inr ⟨y, below, rfl, rfl⟩)

end Attempts

end WordCountJob

end MapReduce
