import MapReduce.Lib.Groups
import MapReduce.Worker.Map
import Mathlib.Data.List.Sort

/-! The reduce side of a worker: `worker_reduce.c`.

`qsort` is only known to return a sorted permutation, so it is a parameter that
carries this specification. The `fold` callback is the text it prints for a key
and its values.
-/

set_option autoImplicit false

namespace MapReduce

open Calls Decimal Groups

structure Record where
  key : Bytes
  value : Bytes
  deriving DecidableEq, Repr

def compareByKey (a b : Record) : Ordering := strcmp a.key b.key

structure QSort where
  sort : List Record → List Record
  perm : ∀ records, (sort records).Perm records
  sorted : ∀ records, (sort records).Pairwise fun a b => compareByKey a b ≠ .gt

instance : Std.Total fun a b : Record => compareByKey a b ≠ .gt := ⟨fun a b => strcmp_total a.key b.key⟩

instance : IsTrans Record fun a b => compareByKey a b ≠ .gt := ⟨fun _ _ _ => strcmp_trans⟩

def QSort.insertion : QSort where
  sort := List.insertionSort fun a b => compareByKey a b ≠ .gt
  perm := List.perm_insertionSort _
  sorted := List.pairwise_insertionSort _

theorem QSort.fibres (qsort : QSort) (records : List Record) :
    Fibres Record.key (qsort.sort records) (groups Record.key (qsort.sort records)) :=
  groups_sorted (fun _ _ => strcmp_antisymm) (qsort.sorted records)

def outputPath (y : Nat) : Bytes := ascii "output/mr-out-" ++ decimal y

namespace WorkerReduce

def lineMax : Nat := 8192

def maxValuesPerKey : Nat := 1024

/-! ## Reading records -/

/-- A line without a tab, or with nothing before it, is skipped. -/
def parseLine (line : Bytes) : Option Record :=
  match strsep (ascii "\t") (cString line) with
  | (_, none) => none
  | (key, some rest) => if key = [] then none else some ⟨key, (strsep (ascii "\n") rest).1⟩

def recordsOf (content : Bytes) : List Record := (readLines lineMax content).filterMap parseLine

/-- `record_list_push` for each record, until memory runs out. -/
def pushAll : List Record → List Record → Proc (Bool × List Record)
  | [], list => pure (true, list)
  | r :: rest, list => do
    if ← alloc then pushAll rest (list ++ [r]) else pure (false, list)

def readRecordsFile (path : Bytes) (list : List Record) : Proc (Bool × List Record) := do
  match ← fopenRead path with
  | none => pure (false, list)
  | some content =>
    let (pushed, list) ← pushAll (recordsOf content) list
    let failed ← ferror path
    let closed ← fclose path
    pure (pushed && !failed && closed, list)

def readInputs (taskId : Nat) : List Nat → List Record → Proc (Option (List Record))
  | [], list => pure (some list)
  | x :: xs, list =>
    if (intermediatePath x taskId).length ≥ mapreducePathMax then pure none
    else do
      let (ok, list) ← readRecordsFile (intermediatePath x taskId) list
      if ok then readInputs taskId xs list else pure none

/-! ## The group walk -/

abbrev Fold := Bytes → List Bytes → Bytes

def foldWordCount : Fold := fun key values => key ++ ascii "\t" ++ decimal values.length ++ ascii "\n"

/-- `if (n_vals > 0) fold(cur_key, vals, n_vals, out)`. -/
def flush (fold : Fold) (out : Bytes) : Option Bytes → List Bytes → Proc Unit
  | _, [] => pure ()
  | some curKey, vals => fprintf out (fold curKey vals)
  | none, _ => .stuck

def groupWalk (fold : Fold) (out : Bytes) : Option Bytes → List Bytes → List Record → Proc Bool
  | curKey, vals, [] => do
    flush fold out curKey vals
    pure true
  | curKey, vals, r :: rest =>
    if curKey.any (strcmp r.key · == .eq) then
      if vals.length ≥ maxValuesPerKey then pure false
      else groupWalk fold out curKey (vals ++ [r.value]) rest
    else do
      flush fold out curKey vals
      -- The bound is not reached with an empty group.
      groupWalk fold out (some r.key) [r.value] rest

/-! ## One reduce task -/

def tempPath (taskId attemptId pid : Nat) : Bytes :=
  outputPath taskId ++ ascii ".tmp." ++ decimal pid ++ ascii "." ++ decimal attemptId

def publish (fold : Fold) (temp final : Bytes) (records : List Record) : Proc Bool := do
  if ← fopenWrite temp then
    if ← groupWalk fold temp none [] records then
      -- On failure the temporary file is left, the final one is not touched.
      if ← ferror temp then
        let _ ← fclose temp
        pure false
      else
        if ← fclose temp then rename temp final else pure false
    else
      let _ ← fclose temp
      pure false
  else pure false

end WorkerReduce

open WorkerReduce in
def workerReduceRun (qsort : QSort) (taskId attemptId pid nMap : Nat) (fold : Fold) : Proc Bool := do
  -- `assert(n_map > 0)`
  if nMap = 0 then .stuck
  else
    if ← alloc then
      let temp := tempPath taskId attemptId pid
      let final := outputPath taskId
      if temp.length ≥ mapreducePathMax ∨ final.length ≥ mapreducePathMax then pure false
      else
        match ← readInputs taskId (List.range nMap) [] with
        | none => pure false
        | some list => publish fold temp final (qsort.sort list)
    else pure false

namespace WorkerReduce

/-! ## What is read -/

theorem pushAll_exec (records list : List Record) (fs : Fs) :
    exec Fs.serve (pushAll records list) fs = some ((true, list ++ records), fs) := by
  induction records generalizing list with
  | nil => simp [pushAll, exec, pure]
  | cons r rest ih =>
    unfold pushAll
    rw [exec_bind, exec_alloc]
    exact (ih _).trans (by simp)

theorem readRecordsFile_exec {path content : Bytes} (list : List Record) {fs : Fs} (found : fs path = some content) :
    exec Fs.serve (readRecordsFile path list) fs = some ((true, list ++ recordsOf content), fs) := by
  unfold readRecordsFile
  rw [exec_bind, exec_fopenRead, found]
  simp only [Option.bind_some, exec_bind, pushAll_exec, exec_ferror, exec_fclose]
  rfl

theorem readInputs_exec {y : Nat} {xs : List Nat} {content : Nat → Bytes} {fs : Fs}
    (short : ∀ x ∈ xs, (intermediatePath x y).length < mapreducePathMax)
    (stored : ∀ x ∈ xs, fs (intermediatePath x y) = some (content x)) (list : List Record) :
    exec Fs.serve (readInputs y xs list) fs =
      some (some (list ++ xs.flatMap fun x => recordsOf (content x)), fs) := by
  induction xs generalizing list with
  | nil => simp [readInputs, exec, pure]
  | cons x xs ih =>
    unfold readInputs
    rw [if_neg (Nat.not_le.mpr (short x List.mem_cons_self)), exec_bind,
      readRecordsFile_exec list (stored x List.mem_cons_self)]
    simp only [Option.bind_some, ↓reduceIte]
    rw [ih (fun z member => short z (List.mem_cons_of_mem _ member))
      (fun z member => stored z (List.mem_cons_of_mem _ member))]
    simp

/-! ## What is written -/

def groupsText (fold : Fold) (gs : List (Bytes × List Record)) : Bytes :=
  gs.flatMap fun group => fold group.1 (group.2.map Record.value)

def Bounded (gs : List (Bytes × List Record)) : Prop := ∀ group ∈ gs, group.2.length ≤ maxValuesPerKey

/-- The walk in terms of groups: print one after the other, and stop at one that is too large. -/
def printGroups (fold : Fold) (out : Bytes) : List (Bytes × List Record) → Proc Bool
  | [] => pure true
  | group :: gs =>
    if group.2.length ≤ maxValuesPerKey then do
      fprintf out (fold group.1 (group.2.map Record.value))
      printGroups fold out gs
    else pure false

theorem flush_eq (fold : Fold) {out curKey : Bytes} {pending : List Record} (some_pending : pending ≠ []) :
    flush fold out (some curKey) (pending.map Record.value) =
      fprintf out (fold curKey (pending.map Record.value)) := by
  cases pending with
  | nil => exact absurd rfl some_pending
  | cons r rest => rfl

theorem single_constant (r : Record) : ∀ s ∈ [r], s.key = r.key := by
  intro s member
  rw [List.mem_singleton.mp member]

/-- The walk inside a group: `pending` holds the records whose values are collected. -/
theorem groupWalk_inside (fold : Fold) (out : Bytes) {key : Bytes} {pending : List Record} (some_pending : pending ≠ [])
    (constant : ∀ r ∈ pending, r.key = key) (room : pending.length ≤ maxValuesPerKey) (records : List Record) :
    groupWalk fold out (some key) (pending.map Record.value) records =
      printGroups fold out (groups Record.key (pending ++ records)) := by
  induction records generalizing pending key with
  | nil =>
    rw [groups_append some_pending constant (by simp), groupWalk, flush_eq fold some_pending]
    exact (if_pos room).symm
  | cons r rest ih =>
    unfold groupWalk
    by_cases same : r.key = key
    · -- The group goes on.
      rw [if_pos (by simp [strcmp_eq_iff.mpr same]), List.length_map]
      have longer : ∀ s ∈ pending ++ [r], s.key = key := by
        intro s member
        rcases List.mem_append.mp member with old | new
        · exact constant s old
        · rw [List.mem_singleton.mp new, same]
      have length : (pending ++ [r]).length = pending.length + 1 := by simp
      have shift : pending ++ r :: rest = (pending ++ [r]) ++ rest := by simp
      have values : pending.map Record.value ++ [r.value] = (pending ++ [r]).map Record.value := by simp
      rw [shift]
      by_cases full : maxValuesPerKey ≤ pending.length
      · obtain ⟨members, more, shape⟩ := groups_append_head (by simp) longer rest
        rw [if_pos full, shape]
        refine (if_neg ?_).symm
        simp only [List.length_append, List.length_singleton]
        omega
      · rw [if_neg full, values]
        exact ih (by simp) longer (by omega)
    · -- A new key: the group is written and the next one starts with this record.
      have differs : (some key).any (strcmp r.key · == .eq) = false := by
        simpa [strcmp_eq_iff] using same
      have onward := ih (List.cons_ne_nil r []) (single_constant r) (Nat.le_of_ble_eq_true rfl)
      rw [differs, if_neg (by decide), groups_append some_pending constant (by simpa using same),
        flush_eq fold some_pending]
      simp only [List.map_cons, List.map_nil, List.singleton_append] at onward
      rw [onward]
      exact (if_pos room).symm

theorem groupWalk_eq (fold : Fold) (out : Bytes) (records : List Record) :
    groupWalk fold out none [] records = printGroups fold out (groups Record.key records) := by
  cases records with
  | nil => rfl
  | cons r rest =>
    unfold groupWalk
    rw [if_neg (by simp)]
    exact groupWalk_inside fold out (List.cons_ne_nil r []) (single_constant r) (Nat.le_of_ble_eq_true rfl) rest

/-- What the walk leaves behind: the text of all groups, unless one of them is too large. -/
structure Walked (fold : Fold) (out text : Bytes) (fs : Fs) (gs : List (Bytes × List Record)) (ok : Bool)
    (after : Fs) : Prop where
  bounded : ok = true ↔ Bounded gs
  written : ok = true → after out = some (text ++ groupsText fold gs)
  others : ∀ path, path ≠ out → after path = fs path

theorem printGroups_ensures (fold : Fold) {out text : Bytes} (gs : List (Bytes × List Record)) {fs : Fs}
    (opened : fs out = some text) : Ensures Fs.serve (printGroups fold out gs) fs (Walked fold out text fs gs) := by
  induction gs generalizing text fs with
  | nil => exact ensures_pure ⟨by simp [Bounded], fun _ => by simp [opened, groupsText], fun _ _ => rfl⟩
  | cons group gs ih =>
    unfold printGroups
    by_cases room : group.2.length ≤ maxValuesPerKey
    · rw [if_pos room]
      refine ensures_after (exec_fprintf _ _ _) ?_
      rw [opened, Option.map_some]
      refine (ih (Function.update_self _ _ _)).mono fun ok after walked => ?_
      constructor
      · rw [walked.bounded]
        simp [Bounded, room]
      · intro returned
        rw [walked.written returned]
        simp [groupsText]
      · intro path other
        rw [walked.others path other, Function.update_of_ne other]
    · rw [if_neg room]
      exact ensures_pure ⟨by simp [Bounded, room], by simp, fun _ _ => rfl⟩

/-- What a reduce task leaves behind: the output is published if and only if the task succeeds. -/
structure Published (fold : Fold) (temp final : Bytes) (fs : Fs) (gs : List (Bytes × List Record)) (ok : Bool)
    (after : Fs) : Prop where
  bounded : ok = true ↔ Bounded gs
  written : ok = true → after final = some (groupsText fold gs)
  unpublished : ok = false → after final = fs final
  others : ∀ path, path ≠ temp → path ≠ final → after path = fs path

theorem publish_ensures {fold : Fold} {temp final : Bytes} (apart : temp ≠ final) (fs : Fs) (records : List Record) :
    Ensures Fs.serve (publish fold temp final records) fs
      (Published fold temp final fs (groups Record.key records)) := by
  refine ensures_after (exec_fopenWrite temp fs) ?_
  rw [if_pos rfl, groupWalk_eq]
  refine (printGroups_ensures fold _ (Function.update_self temp (some []) fs)).bind ?_
  rintro ok fs₁ walked
  have unchanged : ∀ path, path ≠ temp → fs₁ path = fs path := by
    intro path other
    rw [walked.others path other, Function.update_of_ne other]
  cases ok with
  | false =>
    refine ensures_after (exec_fclose temp fs₁) (ensures_pure ?_)
    exact ⟨walked.bounded, by simp, fun _ => unchanged final apart.symm, fun path other _ => unchanged path other⟩
  | true =>
    refine ensures_after (exec_ferror temp fs₁) (ensures_after (exec_fclose temp fs₁) ?_)
    refine ⟨true, _, exec_rename (walked.written rfl), walked.bounded, fun _ => ?_, by simp, ?_⟩
    · rw [Function.update_self, List.nil_append]
    · intro path noTemp noFinal
      rw [Function.update_of_ne noFinal, Function.update_of_ne noTemp, unchanged path noTemp]

/-! ## Paths -/

theorem outputPath_inj {y y' : Nat} (same : outputPath y = outputPath y') : y = y' :=
  decimal_injective (List.append_cancel_left same)

theorem temp_ne_output (y attemptId pid y' : Nat) : tempPath y attemptId pid ≠ outputPath y' := by
  intro same
  have tails : decimal y ++ WorkerMap.tempTail attemptId pid = decimal y' ++ [] := by
    simp only [tempPath, outputPath, List.append_assoc] at same
    rw [List.append_nil]
    exact List.append_cancel_left same
  obtain ⟨_, nothing⟩ := decimal_append_inj (WorkerMap.tempTail_stops _ _) (by simp) tails
  simp [WorkerMap.tempTail, ascii] at nothing

theorem intermediate_ne_output (x y : Nat) (rest : Bytes) : intermediatePath x y ≠ ascii "output/mr-out-" ++ rest := by
  intro same
  have first := congrArg List.head? same
  simp [intermediatePath, ascii] at first

theorem input_fits {x y : Nat} (map : x < 2 ^ 32) (task : y < 2 ^ 32) :
    (intermediatePath x y).length < mapreducePathMax := by
  have hx := WorkerMap.decimal_length_u32 map
  have hy := WorkerMap.decimal_length_u32 task
  have texts : (ascii "intermediate/mr-").length = 16 ∧ (ascii "-").length = 1 := by decide
  simp only [intermediatePath, List.length_append, texts, mapreducePathMax]
  omega

theorem outputs_fit {y attemptId pid : Nat} (task : y < 2 ^ 32) (attempt : attemptId < 2 ^ 32)
    (process : pid < 2 ^ 32) :
    ¬ ((tempPath y attemptId pid).length ≥ mapreducePathMax ∨ (outputPath y).length ≥ mapreducePathMax) := by
  have hy := WorkerMap.decimal_length_u32 task
  have ha := WorkerMap.decimal_length_u32 attempt
  have hp := WorkerMap.decimal_length_u32 process
  have texts : (ascii "output/mr-out-").length = 14 ∧ (ascii ".tmp.").length = 5 ∧ (ascii ".").length = 1 := by
    decide
  simp only [tempPath, outputPath, List.length_append, texts, mapreducePathMax]
  omega

end WorkerReduce

open WorkerReduce in
/-- A reduce task whose inputs are there succeeds if and only if no key has too many values, and then it
publishes the text of the groups of all its records. -/
theorem workerReduceRun_ensures (qsort : QSort) (fold : Fold) {y attemptId pid nMap : Nat} {content : Nat → Bytes}
    {fs : Fs} (task : y < 2 ^ 32) (attempt : attemptId < 2 ^ 32) (process : pid < 2 ^ 32) (some_map : 1 ≤ nMap)
    (maps : nMap ≤ 2 ^ 32) (stored : ∀ x < nMap, fs (intermediatePath x y) = some (content x)) :
    Ensures Fs.serve (workerReduceRun qsort y attemptId pid nMap fold) fs
      (Published fold (tempPath y attemptId pid) (outputPath y) fs
        (groups Record.key (qsort.sort ((List.range nMap).flatMap fun x => recordsOf (content x))))) := by
  have short : ∀ x ∈ List.range nMap, (intermediatePath x y).length < mapreducePathMax :=
    fun x range => input_fits (Nat.lt_of_lt_of_le (List.mem_range.mp range) maps) task
  have read := readInputs_exec short (fun x range => stored x (List.mem_range.mp range)) []
  unfold workerReduceRun
  rw [if_neg (by omega)]
  refine ensures_after (exec_alloc fs) ?_
  rw [if_pos rfl, if_neg (outputs_fit task attempt process)]
  exact ensures_after read (publish_ensures (temp_ne_output y attemptId pid y) fs _)

end MapReduce
