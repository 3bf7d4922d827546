import MapReduce.Worker.Reduce

/-! The calls of `fold` in a reduce task.

The walk is compared with the records as a whole: which keys it folds, in which
order, with which values, and what of this reaches the final file. A call of
`fold` is seen through the text it prints, for every `fold` at once.
-/

set_option autoImplicit false

namespace MapReduce

open Calls Groups WorkerReduce

/-! ## What a reduce task changes -/

/-- The calls that change a file's text or its name. -/
def FileCall.changes : FileCall → Bool
  | .fprintf _ _ | .rename _ _ => true
  | .fopenRead _ | .fopenWrite _ | .ferror _ | .fclose _ | .alloc => false

namespace WorkerReduce

theorem pushAll_silent (records list : List Record) : Silent FileCall.changes (pushAll records list) := by
  induction records generalizing list with
  | nil => exact silent_pure _
  | cons r rest ih =>
    refine Silent.bind (silent_perform rfl) fun room => ?_
    split
    · exact ih _
    · exact silent_pure _

theorem readRecordsFile_silent (path : Bytes) (list : List Record) :
    Silent FileCall.changes (readRecordsFile path list) := by
  refine Silent.bind (silent_perform rfl) fun found => ?_
  cases found with
  | none => exact silent_pure _
  | some content =>
    refine Silent.bind (pushAll_silent _ list) fun result => ?_
    refine Silent.bind (silent_perform rfl) fun failed => ?_
    exact Silent.bind (silent_perform rfl) fun closed => silent_pure _

theorem readInputs_silent (taskId : Nat) (xs : List Nat) (list : List Record) :
    Silent FileCall.changes (readInputs taskId xs list) := by
  induction xs generalizing list with
  | nil => exact silent_pure _
  | cons x xs ih =>
    unfold readInputs
    split
    · exact silent_pure _
    · refine Silent.bind (readRecordsFile_silent _ list) fun result => ?_
      obtain ⟨ok, longer⟩ := result
      cases ok with
      | false => exact silent_pure _
      | true => exact ih longer

theorem printGroups_changes (fold : Fold) (out : Bytes) {gs : List (Bytes × List Record)} (bounded : Bounded gs)
    (fs : Fs) : (made Fs.serve (printGroups fold out gs) fs).filter FileCall.changes =
      gs.map fun group => .fprintf out (fold group.1 (group.2.map Record.value)) := by
  induction gs generalizing fs with
  | nil => rfl
  | cons group gs ih =>
    unfold printGroups
    rw [if_pos (bounded group List.mem_cons_self), made_bind (exec_fprintf _ _ _), List.filter_append,
      ih fun other member => bounded other (List.mem_cons_of_mem _ member)]
    rfl

def isRename : FileCall → Bool
  | .rename _ _ => true
  | _ => false

theorem printGroups_silent (fold : Fold) (out : Bytes) (gs : List (Bytes × List Record)) :
    Silent isRename (printGroups fold out gs) := by
  induction gs with
  | nil => exact silent_pure _
  | cons group gs ih =>
    unfold printGroups
    split
    · exact Silent.bind (silent_perform rfl) fun _ => ih
    · exact silent_pure _

theorem publish_made (fold : Fold) (temp final : Bytes) (records : List Record) (fs : Fs) :
    ∃ ok, (ok = true ↔ Bounded (groups Record.key records)) ∧
      made Fs.serve (publish fold temp final records) fs = .fopenWrite temp ::
        (made Fs.serve (printGroups fold temp (groups Record.key records)) (Function.update fs temp (some [])) ++
          if ok then [.ferror temp, .fclose temp, .rename temp final] else [.fclose temp]) := by
  obtain ⟨ok, written, ran, walked⟩ :=
    printGroups_ensures fold (groups Record.key records) (Function.update_self temp (some []) fs)
  refine ⟨ok, walked.bounded, ?_⟩
  unfold publish
  rw [made_bind (exec_fopenWrite temp fs), if_pos rfl, groupWalk_eq, made_bind ran]
  cases ok with
  | false => rfl
  | true => rfl

end WorkerReduce

/-! ## A reduce task on its inputs -/

/-- A reduce task and the disk it runs on, with the intermediate files of all maps there. -/
structure ReduceRun where
  qsort : QSort
  taskId : UInt32
  attemptId : UInt32
  pid : UInt32
  nMap : UInt32
  some_map : 1 ≤ nMap.toNat
  content : Nat → Bytes
  fs : Fs
  stored : ∀ x < nMap.toNat, fs (intermediatePath x taskId.toNat) = some (content x)

namespace ReduceRun

def records (run : ReduceRun) : List Record := (List.range run.nMap.toNat).flatMap fun x => recordsOf (run.content x)

def temp (run : ReduceRun) : Bytes := tempPath run.taskId.toNat run.attemptId.toNat run.pid.toNat

def final (run : ReduceRun) : Bytes := outputPath run.taskId.toNat

def program (run : ReduceRun) (fold : Fold) : Proc Bool :=
  workerReduceRun run.qsort run.taskId.toNat run.attemptId.toNat run.pid.toNat run.nMap.toNat fold

def changes (run : ReduceRun) (fold : Fold) : List FileCall :=
  (made Fs.serve (run.program fold) run.fs).filter FileCall.changes

def output (run : ReduceRun) (fold : Fold) : Option Bytes :=
  match exec Fs.serve (run.program fold) run.fs with
  | some (true, after) => after run.final
  | _ => none

/-- A list of calls of `fold`: each key once, in strictly increasing order, with the values of that key. -/
structure FoldCalls (run : ReduceRun) (calls : List (Bytes × List Bytes)) : Prop where
  increasing : (calls.map Prod.fst).Pairwise fun a b => strcmp a b = .lt
  keys : ∀ key, key ∈ calls.map Prod.fst ↔ key ∈ run.records.map Record.key
  values : ∀ call ∈ calls, call.2.Perm ((run.records.filter (·.key = call.1)).map Record.value)

def grouped (run : ReduceRun) : List (Bytes × List Record) := groups Record.key (run.qsort.sort run.records)

def foldCalls (run : ReduceRun) : List (Bytes × List Bytes) :=
  run.grouped.map fun group => (group.1, group.2.map Record.value)

theorem fibres (run : ReduceRun) : Fibres Record.key (run.qsort.sort run.records) run.grouped :=
  run.qsort.fibres _

theorem foldCalls_keys (run : ReduceRun) : run.foldCalls.map Prod.fst = run.grouped.map Prod.fst := by
  rw [foldCalls, List.map_map]
  rfl

theorem foldCalls_spec (run : ReduceRun) : run.FoldCalls run.foldCalls := by
  refine ⟨?_, fun key => ?_, fun call member => ?_⟩
  · -- The keys of the groups are sorted, and no key comes back.
    rw [foldCalls_keys]
    have sorted : ((run.qsort.sort run.records).map Record.key).Pairwise fun a b => strcmp a b ≠ .gt :=
      List.pairwise_map.mpr (run.qsort.sorted _)
    refine ((sorted.sublist (groups_keys_sublist _)).and run.fibres.distinct).imp fun {a b} ordered => ?_
    obtain ⟨le, differs⟩ := ordered
    cases order : strcmp a b with
    | lt => rfl
    | eq => exact absurd (strcmp_eq_iff.mp order) differs
    | gt => exact absurd order le
  · rw [foldCalls_keys, run.fibres.covers]
    exact ((run.qsort.perm _).map _).mem_iff
  · obtain ⟨group, inside, rfl⟩ := List.mem_map.mp member
    change (group.2.map Record.value).Perm _
    rw [run.fibres.members group inside]
    exact ((run.qsort.perm _).filter _).map _

theorem bounded_iff (run : ReduceRun) :
    Bounded run.grouped ↔ ∀ key, (run.records.map Record.key).count key ≤ maxValuesPerKey := by
  have size : ∀ group ∈ run.grouped, group.2.length = (run.records.map Record.key).count group.1 := by
    intro group member
    rw [run.fibres.members group member, length_fibre, ((run.qsort.perm run.records).map Record.key).count_eq]
  constructor
  · intro bounded key
    by_cases occurs : key ∈ run.records.map Record.key
    · have occurs' : key ∈ run.grouped.map Prod.fst := by
        rw [← foldCalls_keys]
        exact (run.foldCalls_spec.keys key).mpr occurs
      obtain ⟨group, member, rfl⟩ := List.mem_map.mp occurs'
      rw [← size group member]
      exact bounded group member
    · rw [List.count_eq_zero_of_not_mem occurs]
      exact Nat.zero_le _
  · intro rare group member
    rw [size group member]
    exact rare group.1

theorem reads (run : ReduceRun) :
    exec Fs.serve (readInputs run.taskId.toNat (List.range run.nMap.toNat) []) run.fs =
      some (some run.records, run.fs) :=
  readInputs_exec
    (fun _ range => input_fits (Nat.lt_trans (List.mem_range.mp range) run.nMap.toNat_lt) run.taskId.toNat_lt)
    (fun x range => run.stored x (List.mem_range.mp range)) []

theorem changes_eq (run : ReduceRun) (fold : Fold) : run.changes fold =
    (made Fs.serve (publish fold run.temp run.final (run.qsort.sort run.records)) run.fs).filter
      FileCall.changes := by
  have some_map := run.some_map
  unfold changes program workerReduceRun
  rw [if_neg (by omega), made_bind (exec_alloc run.fs), if_pos rfl,
    if_neg (outputs_fit run.taskId.toNat_lt run.attemptId.toNat_lt run.pid.toNat_lt), made_bind run.reads,
    List.filter_append, List.filter_append, (readInputs_silent _ _ _).made]
  rfl

theorem published (run : ReduceRun) (fold : Fold) :
    Ensures Fs.serve (run.program fold) run.fs (Published fold run.temp run.final run.fs run.grouped) :=
  workerReduceRun_ensures run.qsort fold run.taskId.toNat_lt run.attemptId.toNat_lt run.pid.toNat_lt run.some_map
    (Nat.le_of_lt run.nMap.toNat_lt) run.stored

theorem changes_walk (run : ReduceRun) (fold : Fold) : ∃ ok, (ok = true ↔ Bounded run.grouped) ∧
    run.changes fold =
      (made Fs.serve (printGroups fold run.temp run.grouped) (Function.update run.fs run.temp (some []))).filter
        FileCall.changes ++ if ok then [.rename run.temp run.final] else [] := by
  obtain ⟨ok, went, calls⟩ := publish_made fold run.temp run.final (run.qsort.sort run.records) run.fs
  refine ⟨ok, went, ?_⟩
  rw [changes_eq, calls, List.filter_cons_of_neg (by simp [FileCall.changes]), List.filter_append]
  cases ok with
  | false => rfl
  | true => rfl

theorem changes_bounded (run : ReduceRun) (fold : Fold) (bounded : Bounded run.grouped) :
    run.changes fold =
      run.foldCalls.map (fun call => .fprintf run.temp (fold call.1 call.2)) ++ [.rename run.temp run.final] := by
  obtain ⟨ok, went, calls⟩ := run.changes_walk fold
  rw [calls, went.mpr bounded, if_pos rfl, printGroups_changes fold run.temp bounded, foldCalls, List.map_map]
  rfl

theorem changes_unbounded (run : ReduceRun) (fold : Fold) (unbounded : ¬ Bounded run.grouped) :
    .rename run.temp run.final ∉ run.changes fold := by
  obtain ⟨ok, went, calls⟩ := run.changes_walk fold
  obtain rfl : ok = false := Bool.eq_false_iff.mpr fun returned => unbounded (went.mp returned)
  rw [calls, if_neg (by decide), List.append_nil, List.mem_filter]
  rintro ⟨member, -⟩
  exact List.filter_eq_nil_iff.mp ((printGroups_silent fold run.temp run.grouped).made _) _ member rfl

/-! ## Word count -/

theorem FoldCalls.wordCount {run : ReduceRun} {calls : List (Bytes × List Bytes)} (spec : run.FoldCalls calls) :
    (calls.flatMap fun call => foldWordCount call.1 call.2) =
      (calls.map Prod.fst).flatMap fun key =>
        key ++ ascii "\t" ++ Decimal.decimal ((run.records.map Record.key).count key) ++ ascii "\n" := by
  rw [List.flatMap_map]
  apply List.flatMap_congr
  intro call member
  have size := (spec.values call member).length_eq
  rw [List.length_map, length_fibre] at size
  rw [foldWordCount, size]

theorem FoldCalls.distinct {run : ReduceRun} {calls : List (Bytes × List Bytes)} (spec : run.FoldCalls calls) :
    (calls.map Prod.fst).Nodup := by
  refine spec.increasing.imp fun {a b} below same => ?_
  rw [strcmp_eq_iff.mpr same] at below
  cases below

theorem FoldCalls.keys_eq {run other : ReduceRun} {calls calls' : List (Bytes × List Bytes)}
    (spec : run.FoldCalls calls) (spec' : other.FoldCalls calls')
    (same : ∀ key, key ∈ run.records.map Record.key ↔ key ∈ other.records.map Record.key) :
    calls.map Prod.fst = calls'.map Prod.fst := by
  have perm : (calls.map Prod.fst).Perm (calls'.map Prod.fst) := by
    rw [List.perm_ext_iff_of_nodup spec.distinct spec'.distinct]
    intro key
    rw [spec.keys, spec'.keys, same]
  refine List.Perm.eq_of_pairwise (fun a b _ _ below above => ?_) spec.increasing spec'.increasing perm
  rw [← strcmp_swap, below] at above
  cases above

theorem output_eq (run : ReduceRun) (fold : Fold) :
    (Bounded run.grouped → run.output fold = some (run.foldCalls.flatMap fun call => fold call.1 call.2)) ∧
      (¬ Bounded run.grouped → run.output fold = none) := by
  obtain ⟨ok, after, ran, published⟩ := run.published fold
  unfold output
  rw [ran]
  constructor
  · intro bounded
    obtain rfl : ok = true := published.bounded.mpr bounded
    rw [foldCalls, List.flatMap_map]
    exact published.written rfl
  · intro unbounded
    obtain rfl : ok = false := Bool.eq_false_iff.mpr fun returned => unbounded (published.bounded.mp returned)
    rfl

theorem output_wordCount {run other : ReduceRun}
    (same : (run.records.map Record.key).Perm (other.records.map Record.key)) :
    run.output foldWordCount = other.output foldWordCount := by
  have bounds : Bounded run.grouped ↔ Bounded other.grouped := by
    rw [bounded_iff, bounded_iff]
    simp only [same.count_eq]
  by_cases bounded : Bounded run.grouped
  · rw [(run.output_eq _).1 bounded, (other.output_eq _).1 (bounds.mp bounded), run.foldCalls_spec.wordCount,
      other.foldCalls_spec.wordCount, run.foldCalls_spec.keys_eq other.foldCalls_spec fun _ => same.mem_iff]
    simp only [same.count_eq]
  · rw [(run.output_eq _).2 bounded, (other.output_eq _).2 fun bounded' => bounded (bounds.mpr bounded')]

end ReduceRun

/-- The walk on any collected records. It makes the same calls for every `fold`: one for each distinct key, in
strictly increasing order, with the values of that key. The task succeeds if and only if no key occurs more than
1024 times; only then the calls are all made and the file is published. With word count the published file depends
on the keys alone. -/
theorem reduce_group_walk (run : ReduceRun) :
    (∃ calls, run.FoldCalls calls ∧ ∀ fold, ∃ ok after,
      exec Fs.serve (run.program fold) run.fs = some (ok, after) ∧
      (ok = true ↔ ∀ key, (run.records.map Record.key).count key ≤ 1024) ∧
      (ok = true → after run.final = some (calls.flatMap fun call => fold call.1 call.2) ∧
        run.changes fold =
          calls.map (fun call => .fprintf run.temp (fold call.1 call.2)) ++ [.rename run.temp run.final]) ∧
      (ok = false → after run.final = run.fs run.final ∧ .rename run.temp run.final ∉ run.changes fold)) ∧
    ∀ other : ReduceRun, (run.records.map Record.key).Perm (other.records.map Record.key) →
      run.output foldWordCount = other.output foldWordCount := by
  refine ⟨⟨run.foldCalls, run.foldCalls_spec, fun fold => ?_⟩, fun other same => ReduceRun.output_wordCount same⟩
  obtain ⟨ok, after, ran, published⟩ := run.published fold
  refine ⟨ok, after, ran, published.bounded.trans run.bounded_iff, fun returned => ⟨?_, ?_⟩, fun failed => ⟨?_, ?_⟩⟩
  · rw [ReduceRun.foldCalls, List.flatMap_map]
    exact published.written returned
  · exact run.changes_bounded fold (published.bounded.mp returned)
  · exact published.unpublished failed
  · apply run.changes_unbounded fold
    intro bounded
    rw [published.bounded.mpr bounded] at failed
    cases failed

def twoFiles : ReduceRun where
  qsort := .insertion
  taskId := 0
  attemptId := 1
  pid := 77
  nMap := 2
  some_map := by decide
  content x := if x = 0 then ascii "b\t1\na\t1\n" else ascii "b\t1\n"
  fs path :=
    if path = intermediatePath 0 0 then some (ascii "b\t1\na\t1\n")
    else if path = intermediatePath 1 0 then some (ascii "b\t1\n") else none
  stored := by decide +kernel

example : twoFiles.output foldWordCount = some (ascii "a\t1\nb\t2\n") := by decide +kernel

end MapReduce
