import MapReduce.Lib.Usage
import MapReduce.Worker.Reduce

/-! How a worker uses its streams.

A stream is used while it is open and in the way it was opened for, it is closed
once, and no file is renamed while it is open. `fclose` closes a stream even
when it fails. Both tasks keep to this on every path, the failing ones included,
and return with everything closed, so a worker that runs task after task does
not run out of descriptors.
-/

set_option autoImplicit false

namespace MapReduce

open Calls

inductive Mode where
  | read
  | write
  deriving DecidableEq, Repr

/-- The streams a process has open, by path. -/
abbrev Handles := Bytes → Option Mode

namespace Handles

def closed : Handles := fun _ => none

/-- The rules of `stdio` for one process. No path is open twice, so a path stands for its stream. -/
def rule (opened : Handles) : Event files → Option Handles
  | ⟨.fopenRead path, answer⟩ =>
    if opened path = none then some (if answer.isSome then Function.update opened path (some .read) else opened)
    else none
  | ⟨.fopenWrite path, answer⟩ =>
    if opened path = none then some (if answer then Function.update opened path (some .write) else opened)
    else none
  | ⟨.fprintf path _, _⟩ => if opened path = some .write then some opened else none
  | ⟨.ferror path, _⟩ => if opened path = none then none else some opened
  | ⟨.fclose path, _⟩ => if opened path = none then none else some (Function.update opened path none)
  | ⟨.rename old new, _⟩ => if opened old = none ∧ opened new = none then some opened else none
  | ⟨.alloc, _⟩ => some opened

/-- Whatever the calls answer. -/
abbrev Keeps {α : Type} (p : Proc α) (opened : Handles) (post : α → Handles → Prop) : Prop :=
  Obeys rule p opened post

/-! ## Single calls -/

section Calls
variable {opened : Handles} {path : Bytes}

theorem fopenRead_keeps (free : opened path = none) : Keeps (fopenRead path) opened fun content after =>
    after = if content.isSome then Function.update opened path (some .read) else opened :=
  obeys_perform fun _ => ⟨_, if_pos free, rfl⟩

theorem fopenWrite_keeps (free : opened path = none) : Keeps (fopenWrite path) opened fun ok after =>
    after = if ok then Function.update opened path (some .write) else opened :=
  obeys_perform fun _ => ⟨_, if_pos free, rfl⟩

theorem fprintf_keeps (text : Bytes) (writing : opened path = some .write) :
    Keeps (fprintf path text) opened fun _ after => after = opened :=
  obeys_perform fun _ => ⟨_, if_pos writing, rfl⟩

theorem ferror_keeps (used : opened path ≠ none) : Keeps (ferror path) opened fun _ after => after = opened :=
  obeys_perform fun _ => ⟨_, if_neg used, rfl⟩

theorem fclose_keeps (used : opened path ≠ none) :
    Keeps (fclose path) opened fun _ after => after = Function.update opened path none :=
  obeys_perform fun _ => ⟨_, if_neg used, rfl⟩

theorem rename_keeps {old new : Bytes} (source : opened old = none) (target : opened new = none) :
    Keeps (rename old new) opened fun _ after => after = opened :=
  obeys_perform fun _ => ⟨_, if_pos ⟨source, target⟩, rfl⟩

theorem alloc_keeps : Keeps alloc opened fun _ after => after = opened :=
  obeys_perform fun _ => ⟨_, rfl, rfl⟩

theorem close_opened (free : opened path = none) (mode : Mode) :
    Function.update (Function.update opened path (some mode)) path none = opened := by
  rw [Function.update_idem, ← free, Function.update_eq_self]

end Calls

/-! ## The map task -/

/-- These files are open for writing, and no others. -/
def writing (paths : List Bytes) : Handles := fun path =>
  if paths.contains path then some .write else none

theorem writing_mem {paths : List Bytes} {path : Bytes} (member : path ∈ paths) :
    writing paths path = some .write :=
  if_pos (List.contains_iff_mem.mpr member)

theorem writing_not_mem {paths : List Bytes} {path : Bytes} (outside : path ∉ paths) : writing paths path = none :=
  if_neg fun listed => outside (List.contains_iff_mem.mp listed)

theorem writing_nil : writing [] = closed := by
  funext path
  simp [writing, closed]

theorem writing_open (paths : List Bytes) (path : Bytes) :
    Function.update (writing paths) path (some .write) = writing (paths ++ [path]) := by
  funext other
  by_cases same : other = path
  · subst same
    simp [writing]
  · simp [writing, same]

theorem writing_close {path : Bytes} {paths : List Bytes} (distinct : (path :: paths).Nodup) :
    Function.update (writing (path :: paths)) path none = writing paths := by
  funext other
  by_cases same : other = path
  · subst same
    simpa [writing] using (List.nodup_cons.mp distinct).1
  · simp [writing, same]

end Handles

namespace WorkerMap

open Handles

theorem closeHandles_keeps {opened : List Paths} (distinct : (opened.map Paths.temp).Nodup) :
    Keeps (closeHandles opened) (writing (opened.map Paths.temp)) fun _ after => after = closed := by
  refine (obeys_each (fun rest held => (rest.map Paths.temp).Nodup ∧ held = writing (rest.map Paths.temp)) ?_
    ⟨distinct, rfl⟩).mono fun _ after ended => ended.2.trans writing_nil
  rintro p rest held ⟨distinct, rfl⟩
  refine (fclose_keeps (by simp [writing])).bind fun _ after closes => obeys_pure ?_
  refine ⟨(List.nodup_cons.mp distinct).2, ?_⟩
  rw [closes, List.map_cons, writing_close distinct]

theorem openTemps_keeps (x attemptId pid : Nat) (ys : List Nat) {opened : List Paths}
    (distinct : (opened.map Paths.temp ++ ys.map fun y => (paths x attemptId pid y).temp).Nodup) :
    Keeps (openTemps x attemptId pid ys opened) (writing (opened.map Paths.temp)) fun result after =>
      match result with
      | none => after = closed
      | some all => all = opened ++ ys.map (paths x attemptId pid) ∧ after = writing (all.map Paths.temp) := by
  induction ys generalizing opened with
  | nil => exact obeys_pure ⟨by simp, rfl⟩
  | cons y ys ih =>
    have apart := List.nodup_append.mp distinct
    have give_up : Keeps (do closeHandles opened; pure none : Proc (Option (List Paths)))
        (writing (opened.map Paths.temp)) fun result after =>
          match result with
          | none => after = closed
          | some all => all = opened ++ (y :: ys).map (paths x attemptId pid) ∧ after = writing (all.map Paths.temp) :=
      (closeHandles_keeps apart.1).bind fun _ after ended => obeys_pure ended
    unfold openTemps
    split
    · exact give_up
    next p built =>
      cases buildPaths_some built
      have free : writing (opened.map Paths.temp) (paths x attemptId pid y).temp = none :=
        writing_not_mem fun member => apart.2.2 _ member _ List.mem_cons_self rfl
      refine (fopenWrite_keeps free).bind fun ok after opens => ?_
      cases ok with
      | false =>
        rw [opens]
        exact give_up
      | true =>
        have more : after = writing ((opened ++ [paths x attemptId pid y]).map Paths.temp) := by
          rw [opens, if_pos rfl, writing_open, List.map_append, List.map_singleton]
        rw [more]
        refine (ih (by simpa using distinct)).mono fun result final ended => ?_
        cases result with
        | none => exact ended
        | some all => exact ⟨by rw [ended.1]; simp, ended.2⟩

theorem tokenizeFile_keeps {path : Bytes} {emit : Bytes → Proc Unit} {opened : Handles} (free : opened path = none)
    (emits : ∀ token, Keeps (emit token) (Function.update opened path (some .read)) fun _ after =>
      after = Function.update opened path (some .read)) :
    Keeps (tokenizeFile path emit) opened fun _ after => after = opened := by
  refine (fopenRead_keeps free).bind fun content after opens => ?_
  cases content with
  | none => exact opens
  | some content =>
    rw [opens, Option.isSome_some, if_pos rfl]
    refine (obeys_each (fun _ held => held = Function.update opened path (some .read)) ?_ rfl).bind
      fun _ held kept => ?_
    · rintro token rest held rfl
      exact emits token
    · have used : held path ≠ none := by simp [kept]
      refine (ferror_keeps used).bind fun failed mid same => ?_
      subst same
      refine (fclose_keeps used).bind fun ok final closes => obeys_pure ?_
      rw [closes, kept, close_opened free]

theorem closePass_keeps {opened : List Paths} (distinct : (opened.map Paths.temp).Nodup) :
    Keeps (closePass opened) (writing (opened.map Paths.temp)) fun _ after => after = closed := by
  refine (obeys_all (fun rest held => (rest.map Paths.temp).Nodup ∧ held = writing (rest.map Paths.temp)) ?_
    ⟨distinct, rfl⟩).mono fun _ after ended => ended.2.trans writing_nil
  rintro p rest held ⟨distinct, rfl⟩
  have used : writing ((p :: rest).map Paths.temp) p.temp ≠ none := by simp [writing]
  refine (ferror_keeps used).bind fun failed mid same => ?_
  subst same
  refine (fclose_keeps used).bind fun ok after closes => obeys_pure ?_
  refine ⟨(List.nodup_cons.mp distinct).2, ?_⟩
  rw [closes, List.map_cons, writing_close distinct]

theorem renamePass_keeps (opened : List Paths) :
    Keeps (renamePass opened) closed fun _ after => after = closed := by
  refine obeys_all (fun _ held => held = closed) ?_ rfl
  rintro p rest held rfl
  exact rename_keeps rfl rfl

theorem emitTo_keeps {emit : Emit} {nReduce : Nat} {opened : List Paths} {token : Bytes} {held : Handles}
    (below : (emit nReduce token).1 < opened.length) (ready : ∀ p ∈ opened, held p.temp = some .write) :
    Keeps (emitTo emit nReduce opened token) held fun _ after => after = held := by
  unfold emitTo
  rw [List.getElem?_eq_getElem below]
  exact fprintf_keeps _ (ready _ (List.getElem_mem below))

end WorkerMap

open Handles WorkerMap in
theorem workerMapRun_keeps {x attemptId pid nReduce : Nat} {input : Bytes} {emit : Emit}
    (few : nReduce ≤ maxReduceTasks) (target : ∀ token, (emit nReduce token).1 < nReduce)
    (apart : ¬ stem x <+: input) :
    Keeps (workerMapRun x attemptId pid nReduce input emit) closed fun _ after => after = closed := by
  have temps : ((attemptPaths x attemptId pid nReduce).map Paths.temp).Nodup := attemptPaths_temps
  unfold workerMapRun
  rw [if_neg (by omega), ← writing_nil]
  refine Obeys.bind (openTemps_keeps x attemptId pid (List.range nReduce) ?_) fun result after opens => ?_
  · simpa [attemptPaths, Function.comp_def] using temps
  · cases result with
    | none => exact opens.trans writing_nil.symm
    | some opened =>
      obtain ⟨all, rfl⟩ := opens
      have all : opened = attemptPaths x attemptId pid nReduce := by simpa [attemptPaths] using all
      subst all
      -- The input is opened beside the temporary files, so it must be none of them.
      have outside : input ∉ (attemptPaths x attemptId pid nReduce).map Paths.temp := temp_ne_of_stem apart
      refine Obeys.bind (tokenizeFile_keeps (writing_not_mem outside) fun token => emitTo_keeps ?_ ?_)
        fun read mid kept => ?_
      · simpa [attemptPaths] using target token
      · intro p member
        have temp := List.mem_map_of_mem (f := Paths.temp) member
        have other : p.temp ≠ input := by
          rintro rfl
          exact outside temp
        rw [Function.update_of_ne other]
        exact writing_mem temp
      · subst kept
        refine (closePass_keeps temps).bind fun ok final ended => ?_
        subst ended
        split
        · exact (renamePass_keeps _).mono fun _ _ kept => kept.trans writing_nil.symm
        · exact writing_nil.symm

namespace WorkerReduce

open Handles

/-! ## The reduce task -/

theorem pushAll_keeps (records list : List Record) (opened : Handles) :
    Keeps (pushAll records list) opened fun _ after => after = opened := by
  induction records generalizing list with
  | nil => exact obeys_pure rfl
  | cons r rest ih =>
    refine alloc_keeps.bind fun ok after same => ?_
    subst same
    cases ok with
    | false => exact obeys_pure rfl
    | true => exact ih _

theorem readRecordsFile_keeps {path : Bytes} (list : List Record) {opened : Handles} (free : opened path = none) :
    Keeps (readRecordsFile path list) opened fun _ after => after = opened := by
  refine (fopenRead_keeps free).bind fun content after opens => ?_
  cases content with
  | none => exact opens
  | some content =>
    rw [opens, Option.isSome_some, if_pos rfl]
    have used : Function.update opened path (some Mode.read) path ≠ none := by simp
    refine (pushAll_keeps _ _ _).bind fun pushed held kept => ?_
    subst kept
    refine (ferror_keeps used).bind fun failed mid same => ?_
    subst same
    refine (fclose_keeps used).bind fun ok final closes => obeys_pure ?_
    rw [closes, close_opened free]

theorem readInputs_keeps (y : Nat) (xs : List Nat) (list : List Record) :
    Keeps (readInputs y xs list) closed fun _ after => after = closed := by
  induction xs generalizing list with
  | nil => exact obeys_pure rfl
  | cons x xs ih =>
    unfold readInputs
    split
    · exact obeys_pure rfl
    · refine (readRecordsFile_keeps list rfl).bind fun result after same => ?_
      subst same
      obtain ⟨ok, list⟩ := result
      cases ok with
      | false => exact obeys_pure rfl
      | true => exact ih _

theorem flush_keeps (fold : Fold) {out : Bytes} {curKey : Option Bytes} {vals : List Bytes} {opened : Handles}
    (writing : opened out = some .write) (keyed : curKey = none → vals = []) :
    Keeps (flush fold out curKey vals) opened fun _ after => after = opened := by
  cases vals with
  | nil => exact obeys_pure rfl
  | cons v vs =>
    cases curKey with
    | none => cases keyed rfl
    | some key => exact fprintf_keeps _ writing

theorem groupWalk_keeps (fold : Fold) {out : Bytes} {opened : Handles} (writing : opened out = some .write)
    (records : List Record) {curKey : Option Bytes} {vals : List Bytes} (keyed : curKey = none → vals = []) :
    Keeps (groupWalk fold out curKey vals records) opened fun _ after => after = opened := by
  induction records generalizing curKey vals with
  | nil => exact (flush_keeps fold writing keyed).bind fun _ after same => obeys_pure same
  | cons r rest ih =>
    unfold groupWalk
    split
    next inside =>
      split
      · exact obeys_pure rfl
      · -- The record has the key of the group, so the group has one.
        refine ih fun absent => ?_
        rw [absent] at inside
        cases inside
    · refine (flush_keeps fold writing keyed).bind fun _ after same => ?_
      subst same
      exact ih fun absent => by cases absent

theorem publish_keeps (fold : Fold) (temp final : Bytes) (records : List Record) :
    Keeps (publish fold temp final records) closed fun _ after => after = closed := by
  refine (fopenWrite_keeps rfl).bind fun ok after opens => ?_
  cases ok with
  | false => exact opens
  | true =>
    rw [opens, if_pos rfl]
    have ready : Function.update closed temp (some Mode.write) temp = some .write := Function.update_self ..
    have used : Function.update closed temp (some Mode.write) temp ≠ none := by simp
    have give_up : Keeps (do let _ ← fclose temp; pure false) (Function.update closed temp (some .write))
        fun _ after => after = closed :=
      (fclose_keeps used).bind fun _ after closes => obeys_pure (closes.trans (close_opened rfl _))
    refine (groupWalk_keeps fold ready records fun _ => rfl).bind fun walked mid same => ?_
    subst same
    cases walked with
    | false => exact give_up
    | true =>
      refine (ferror_keeps used).bind fun failed mid same => ?_
      subst same
      cases failed with
      | true => exact give_up
      | false =>
        refine (fclose_keeps used).bind fun ended final closes => ?_
        rw [close_opened rfl] at closes
        subst closes
        cases ended with
        | false => exact obeys_pure rfl
        | true => exact rename_keeps rfl rfl

end WorkerReduce

open Handles WorkerReduce in
theorem workerReduceRun_keeps (qsort : QSort) (y attemptId pid : Nat) {nMap : Nat} (some_map : nMap ≠ 0) (fold : Fold) :
    Keeps (workerReduceRun qsort y attemptId pid nMap fold) closed fun _ after => after = closed := by
  unfold workerReduceRun
  rw [if_neg some_map]
  refine Obeys.bind alloc_keeps fun ok after same => ?_
  subst same
  cases ok with
  | false => exact obeys_pure rfl
  | true =>
    simp only [↓reduceIte]
    split
    · exact obeys_pure rfl
    · refine Obeys.bind (readInputs_keeps y (List.range nMap) []) fun result after same => ?_
      subst same
      cases result with
      | none => exact obeys_pure rfl
      | some list => exact publish_keeps fold _ _ _

end MapReduce
