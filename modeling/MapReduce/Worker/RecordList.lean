import MapReduce.Lib.Ownership
import MapReduce.Lib.Refinement
import MapReduce.Worker.Reduce

/-! The reduce task and its memory.

`record_list_t` is a growing array of pairs of strings that the list owns. Here
`worker_reduce_run` is written down with its pointers: every allocation can fail,
memory is read only where it has been written, and `free` is given only what is
allocated. The task with plain lists of `Reduce.lean`, where a push either works
or does not, is what this one looks like from outside, and when it returns the
heap is as it was before.

The fields of a list are passed along, its block only stands for the memory.
-/

set_option autoImplicit false

namespace MapReduce

open Calls Ownership

/-! ## The heap -/

abbrev Ptr := Nat

inductive Block where
  | list
  /-- A slot that has not been written holds nothing. -/
  | records (slots : List (Option (Ptr × Ptr)))
  | string (text : Bytes)
  deriving DecidableEq, Repr

abbrev Memory := Heap Ptr Block

inductive HeapCall where
  | mallocList
  | callocRecords (capacity : Nat)
  | reallocRecords (old : Ptr) (capacity : Nat)
  | strdup (text : Bytes)
  | free (p : Ptr)
  | storeRecord (p : Ptr) (i : Nat) (key value : Ptr)
  | loadRecord (p : Ptr) (i : Nat)
  | loadString (p : Ptr)
  | qsort (p : Ptr) (count : Nat)
  deriving DecidableEq, Repr

/-- `NULL` is `none`; `qsort` answers with the records in their new order. -/
abbrev HeapCall.Answer : HeapCall → Type
  | .mallocList | .callocRecords _ | .reallocRecords _ _ | .strdup _ => Option Ptr
  | .free _ | .storeRecord _ _ _ _ => Unit
  | .loadRecord _ _ => Ptr × Ptr
  | .loadString _ => Bytes
  | .qsort _ _ => List (Ptr × Ptr)

abbrev heapCalls : Interface := ⟨HeapCall, HeapCall.Answer⟩

namespace Memory

def allocated (m : Memory) (block : Block) : Option Ptr → Memory
  | none => m
  | some p => Function.update m p (some block)

/-- What the calls do; `none` is undefined. -/
def rule (m : Memory) : Event heapCalls → Option Memory
  | ⟨.mallocList, answer⟩ => some (m.allocated .list answer)
  | ⟨.callocRecords capacity, answer⟩ => some (m.allocated (.records (List.replicate capacity none)) answer)
  | ⟨.reallocRecords old capacity, answer⟩ =>
    match m old, answer with
    | some (.records slots), some new => some (Function.update (Function.update m old none) new
        (some (.records (slots.take capacity ++ List.replicate (capacity - slots.length) none))))
    | some (.records _), none => some m
    | _, _ => none
  | ⟨.strdup text, answer⟩ => some (m.allocated (.string text) answer)
  | ⟨.free p, _⟩ => if m p = none then none else some (Function.update m p none)
  | ⟨.storeRecord p i key value, _⟩ =>
    match m p with
    | some (.records slots) =>
      if i < slots.length then some (Function.update m p (some (.records (slots.set i (some (key, value)))))) else none
    | _ => none
  | ⟨.loadRecord _ _, _⟩ | ⟨.loadString _, _⟩ => some m
  | ⟨.qsort p count, answer⟩ =>
    match m p with
    | some (.records slots) => some (Function.update m p (some (.records (answer.map some ++ slots.drop count))))
    | _ => none

def text (m : Memory) (p : Ptr) : Bytes :=
  match m p with
  | some (.string text) => text
  | _ => []

def record (m : Memory) (pair : Ptr × Ptr) : Record := ⟨m.text pair.1, m.text pair.2⟩

/-- The answers the calls can give. New blocks are new, reads find what was written, and `qsort` compares keys that
are there and returns. -/
def Possible (qsort : QSort) (m : Memory) : Event heapCalls → Prop
  | ⟨.mallocList, answer⟩ | ⟨.callocRecords _, answer⟩ | ⟨.strdup _, answer⟩ => ∀ p, answer = some p → m p = none
  | ⟨.reallocRecords old _, answer⟩ => ∀ p, answer = some p → p = old ∨ m p = none
  | ⟨.free _, _⟩ | ⟨.storeRecord _ _ _ _, _⟩ => True
  | ⟨.loadRecord p i, answer⟩ => ∃ slots, m p = some (.records slots) ∧ slots[i]? = some (some answer)
  | ⟨.loadString p, answer⟩ => m p = some (.string answer)
  | ⟨.qsort p count, answer⟩ => ∃ slots pairs, m p = some (.records slots) ∧ slots.take count = pairs.map some ∧
      pairs.length = count ∧ (∀ pair ∈ pairs, m pair.1 = some (.string (m.text pair.1))) ∧ answer.Perm pairs ∧
      answer.map m.record = qsort.sort (pairs.map m.record)

end Memory

abbrev HeapProc := Program (files.sum heapCalls)

/-! ## Record lists -/

structure RecordList where
  self : Ptr
  records : Ptr
  count : Nat
  capacity : Nat
  deriving DecidableEq, Repr

namespace RecordList

def file (c : FileCall) : HeapProc (FileCall.Answer c) := outer (V := files) c

def heap (c : HeapCall) : HeapProc (HeapCall.Answer c) := inner (P := heapCalls) c

def initialCapacity : Nat := 4

def create : HeapProc (Option RecordList) := do
  match ← heap .mallocList with
  | none => pure none
  | some self =>
    match ← heap (.callocRecords initialCapacity) with
    | none =>
      heap (.free self)
      pure none
    | some records => pure (some ⟨self, records, 0, initialCapacity⟩)

/-- `record_list_push` where there is room. -/
def append (list : RecordList) (key value : Bytes) : HeapProc (Bool × RecordList) := do
  match ← heap (.strdup key) with
  | none => pure (false, list)
  | some k =>
    match ← heap (.strdup value) with
    | none =>
      heap (.free k)
      pure (false, list)
    | some v =>
      heap (.storeRecord list.records list.count k v)
      pure (true, { list with count := list.count + 1 })

def push (list : RecordList) (key value : Bytes) : HeapProc (Bool × RecordList) := do
  if list.count = list.capacity then
    match ← heap (.reallocRecords list.records (list.capacity * 2)) with
    | none => pure (false, list)
    | some grown => append { list with records := grown, capacity := list.capacity * 2 } key value
  else append list key value

def freeStrings (records : Ptr) : Nat → Nat → HeapProc Unit
  | 0, _ => pure ()
  | left + 1, i => do
    let pair ← heap (.loadRecord records i)
    heap (.free pair.1)
    heap (.free pair.2)
    freeStrings records left (i + 1)

def destroy (list : RecordList) : HeapProc Unit := do
  freeStrings list.records list.count 0
  heap (.free list.records)
  heap (.free list.self)

/-! ## The task -/

def pushAll : List Record → RecordList → HeapProc (Bool × RecordList)
  | [], list => pure (true, list)
  | r :: rest, list => do
    let pushed ← push list r.key r.value
    if pushed.1 then pushAll rest pushed.2 else pure (false, pushed.2)

def readRecordsFile (path : Bytes) (list : RecordList) : HeapProc (Bool × RecordList) := do
  match ← file (.fopenRead path) with
  | none => pure (false, list)
  | some content =>
    let pushed ← pushAll (WorkerReduce.recordsOf content) list
    let failed ← file (.ferror path)
    let closed ← file (.fclose path)
    pure (pushed.1 && !failed && closed, pushed.2)

def readInputs (taskId : Nat) : List Nat → RecordList → HeapProc (Bool × RecordList)
  | [], list => pure (true, list)
  | x :: xs, list =>
    if (intermediatePath x taskId).length ≥ mapreducePathMax then pure (false, list)
    else do
      let read ← readRecordsFile (intermediatePath x taskId) list
      if read.1 then readInputs taskId xs read.2 else pure (false, read.2)

def loadStrings : List Ptr → HeapProc (List Bytes)
  | [] => pure []
  | p :: rest => do
    let text ← heap (.loadString p)
    let others ← loadStrings rest
    pure (text :: others)

/-- The group holds pointers into the list; the fold reads the strings. -/
def flush (fold : WorkerReduce.Fold) (out : Bytes) : Option Ptr → List Ptr → HeapProc Unit
  | _, [] => pure ()
  | some curKey, vals => do
    let key ← heap (.loadString curKey)
    let values ← loadStrings vals
    file (.fprintf out (fold key values))
  | none, _ => .stuck

/-- `cur_key != NULL && strcmp(r->key, cur_key) == 0` -/
def sameKey (key : Ptr) : Option Ptr → HeapProc Bool
  | none => pure false
  | some curKey => do
    let text ← heap (.loadString key)
    let current ← heap (.loadString curKey)
    pure (strcmp text current == .eq)

def groupWalk (fold : WorkerReduce.Fold) (out : Bytes) (records : Ptr) :
    Nat → Nat → Option Ptr → List Ptr → HeapProc Bool
  | 0, _, curKey, vals => do
    flush fold out curKey vals
    pure true
  | left + 1, i, curKey, vals => do
    let pair ← heap (.loadRecord records i)
    if ← sameKey pair.1 curKey then
      if vals.length ≥ WorkerReduce.maxValuesPerKey then pure false
      else groupWalk fold out records left (i + 1) curKey (vals ++ [pair.2])
    else
      flush fold out curKey vals
      groupWalk fold out records left (i + 1) (some pair.1) [pair.2]

def publish (fold : WorkerReduce.Fold) (temp final : Bytes) (list : RecordList) : HeapProc Bool := do
  let _ ← heap (.qsort list.records list.count)
  if ← file (.fopenWrite temp) then
    if ← groupWalk fold temp list.records list.count 0 none [] then
      if ← file (.ferror temp) then
        let _ ← file (.fclose temp)
        pure false
      else
        if ← file (.fclose temp) then file (.rename temp final) else pure false
    else
      let _ ← file (.fclose temp)
      pure false
  else pure false

/-- `worker_reduce_run`. The label `done` is reached with the stream closed and frees the list. -/
def workerReduceRun (taskId attemptId pid nMap : Nat) (fold : WorkerReduce.Fold) : HeapProc Bool := do
  if nMap = 0 then .stuck
  else
    match ← create with
    | none => pure false
    | some list =>
      let temp := WorkerReduce.tempPath taskId attemptId pid
      let final := outputPath taskId
      if temp.length ≥ mapreducePathMax ∨ final.length ≥ mapreducePathMax then
        destroy list
        pure false
      else
        let read ← readInputs taskId (List.range nMap) list
        let ok ← if read.1 then publish fold temp final read.2 else pure false
        destroy read.2
        pure ok

/-! ## Calls to the heap -/

/-- The one thing the task with plain lists leaves open. -/
def isAlloc : FileCall → Bool
  | .alloc => true
  | _ => false

section Heap

variable {qsort : QSort} {α β : Type} {m : Memory} {q : Proc β} {post : α → β → Memory → Prop}

variable (qsort) in
abbrev Matches (p : HeapProc α) (m : Memory) (q : Proc β) (post : α → β → Memory → Prop) : Prop :=
  Refines Memory.rule (Memory.Possible qsort) isAlloc p m q post

theorem alloc_chooses (ok : Bool) : Chooses isAlloc alloc (.done ok) := .step (V := files) ok rfl (.refl _)

theorem matches_file {c : FileCall} {f : FileCall.Answer c → HeapProc α} {g : FileCall.Answer c → Proc β}
    (rest : ∀ answer, Matches qsort (f answer) m (g answer) post) :
    Matches qsort (file c >>= f) m (perform (I := files) c >>= g) post := by
  refine (refines_outer (V := files) c).bind fun answer _ after same => ?_
  obtain ⟨rfl, rfl⟩ := same
  exact rest answer

theorem matches_heap {c : HeapCall} {f : HeapCall.Answer c → HeapProc α}
    (answers : ∃ answer, Memory.Possible qsort m ⟨c, answer⟩)
    (keeps : ∀ answer, Memory.Possible qsort m ⟨c, answer⟩ →
      ∃ after, Memory.rule m ⟨c, answer⟩ = some after ∧ Matches qsort (f answer) after q post) :
    Matches qsort (heap c >>= f) m q post :=
  refines_inner (c := c) (P := heapCalls) answers keeps

theorem matches_mallocList {f : Option Ptr → HeapProc α}
    (rest : ∀ answer, (∀ p, answer = some p → m p = none) →
      Matches qsort (f answer) (m.allocated .list answer) q post) :
    Matches qsort (heap .mallocList >>= f) m q post :=
  matches_heap (c := .mallocList) ⟨none, by simp [Memory.Possible]⟩ fun answer fresh => ⟨_, rfl, rest answer fresh⟩

theorem matches_callocRecords {capacity : Nat} {f : Option Ptr → HeapProc α}
    (rest : ∀ answer, (∀ p, answer = some p → m p = none) →
      Matches qsort (f answer) (m.allocated (.records (List.replicate capacity none)) answer) q post) :
    Matches qsort (heap (.callocRecords capacity) >>= f) m q post :=
  matches_heap (c := .callocRecords capacity) ⟨none, by simp [Memory.Possible]⟩ fun answer fresh =>
    ⟨_, rfl, rest answer fresh⟩

theorem matches_strdup {text : Bytes} {f : Option Ptr → HeapProc α}
    (rest : ∀ answer, (∀ p, answer = some p → m p = none) →
      Matches qsort (f answer) (m.allocated (.string text) answer) q post) :
    Matches qsort (heap (.strdup text) >>= f) m q post :=
  matches_heap (c := .strdup text) ⟨none, by simp [Memory.Possible]⟩ fun answer fresh => ⟨_, rfl, rest answer fresh⟩

theorem matches_reallocRecords {old : Ptr} {capacity : Nat} {slots : List (Option (Ptr × Ptr))}
    {f : Option Ptr → HeapProc α} (found : m old = some (.records slots)) (failed : Matches qsort (f none) m q post)
    (grown : ∀ new, new = old ∨ m new = none →
      Matches qsort (f (some new)) (Function.update (Function.update m old none) new
        (some (.records (slots.take capacity ++ List.replicate (capacity - slots.length) none)))) q post) :
    Matches qsort (heap (.reallocRecords old capacity) >>= f) m q post := by
  refine matches_heap (c := .reallocRecords old capacity) ⟨none, by simp [Memory.Possible]⟩ fun answer moved => ?_
  cases answer with
  | none => exact ⟨m, by simp [Memory.rule, found], failed⟩
  | some new => exact ⟨_, by simp [Memory.rule, found], grown new (moved new rfl)⟩

theorem matches_free {p : Ptr} {f : Unit → HeapProc α} (live : m p ≠ none)
    (rest : Matches qsort (f ()) (Function.update m p none) q post) :
    Matches qsort (heap (.free p) >>= f) m q post :=
  matches_heap (c := .free p) ⟨(), trivial⟩ fun _ _ => ⟨_, if_neg live, rest⟩

theorem matches_storeRecord {p key value : Ptr} {i : Nat} {slots : List (Option (Ptr × Ptr))} {f : Unit → HeapProc α}
    (found : m p = some (.records slots)) (inside : i < slots.length)
    (rest : Matches qsort (f ()) (Function.update m p (some (.records (slots.set i (some (key, value)))))) q post) :
    Matches qsort (heap (.storeRecord p i key value) >>= f) m q post :=
  matches_heap (c := .storeRecord p i key value) ⟨(), trivial⟩ fun _ _ =>
    ⟨_, by simp [Memory.rule, found, inside], rest⟩

theorem matches_loadRecord {p : Ptr} {i : Nat} {slots : List (Option (Ptr × Ptr))} {pair : Ptr × Ptr}
    {f : Ptr × Ptr → HeapProc α} (found : m p = some (.records slots)) (written : slots[i]? = some (some pair))
    (rest : Matches qsort (f pair) m q post) : Matches qsort (heap (.loadRecord p i) >>= f) m q post := by
  refine matches_heap (c := .loadRecord p i) ⟨pair, slots, found, written⟩ fun answer read => ⟨m, rfl, ?_⟩
  obtain ⟨others, found', written'⟩ := read
  cases found.symm.trans found'
  cases written.symm.trans written'
  exact rest

theorem matches_loadString {p : Ptr} {text : Bytes} {f : Bytes → HeapProc α} (found : m p = some (.string text))
    (rest : Matches qsort (f text) m q post) : Matches qsort (heap (.loadString p) >>= f) m q post := by
  refine matches_heap (c := .loadString p) ⟨text, found⟩ fun answer read => ⟨m, rfl, ?_⟩
  cases found.symm.trans read
  exact rest

end Heap

end RecordList

end MapReduce
