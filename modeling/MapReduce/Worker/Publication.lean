import MapReduce.Worker.ReduceAttempts

/-! Atomic publication.

However the attempts of one task interleave, fail and crash, a final file is
absent or complete at every moment, and one attempt that has returned 0 has left
all final files of the task in place.
-/

set_option autoImplicit false

namespace MapReduce

open Calls Interference WorkerMap WorkerReduce

variable {Id : Type} [DecidableEq Id]

/-- Each final file is absent, or it holds its complete content. -/
def AbsentOrComplete (finals : List (Bytes × Option Bytes)) (fs : Fs) : Prop :=
  ∀ final ∈ finals, fs final.1 = none ∨ fs final.1 = final.2

instance (finals : List (Bytes × Option Bytes)) (fs : Fs) : Decidable (AbsentOrComplete finals fs) :=
  inferInstanceAs (Decidable (∀ final ∈ finals, _))

/-- Each final file is there with its complete content. -/
def AllComplete (finals : List (Bytes × Option Bytes)) (fs : Fs) : Prop :=
  ∀ final ∈ finals, ∃ content, final.2 = some content ∧ fs final.1 = some content

/-- At every moment of every run, and from the moment on at which some participant has returned 0. -/
def PublishesAtomically (start : Config files Id (Disk Id) Bool) (finals : List (Bytes × Option Bytes)) : Prop :=
  AbsentOrComplete finals start.state.fs →
    ∀ actions c, Runs.run (next Disk.serve) start actions = some c →
      AbsentOrComplete finals c.state.fs ∧
        ∀ i, Returns Disk.serve start actions i true → AllComplete finals c.state.fs

theorem Publishing.publishes (pub : Publishing Id) {program : Id → Proc Bool} {disk : Disk Id}
    (inputs : disk.fs = pub.stored)
    (safe : ∀ i, Safe Disk.serve pub.contract i (program i) (pub.owned i (fun _ => True) []) fun ok =>
      pub.owned i (fun _ => True) (if ok then pub.finals.map Prod.fst else [])) :
    PublishesAtomically (.start program disk) pub.finals := by
  intro first actions c reached
  have start : pub.contract.inv disk :=
    ⟨fun path _ => congrFun inputs path, fun path complete final => first (path, complete) final⟩
  obtain ⟨inv, returned⟩ := run_safe safe start (fun _ => ⟨trivial, by simp⟩) reached
  refine ⟨fun final member => inv.2 final.1 final.2 member, fun i success final member => ?_⟩
  obtain ⟨content, listed, found⟩ := (returned i true success).2 final.1 (List.mem_map_of_mem member)
  exact ⟨content, pub.finals_unique final.1 _ _ member listed, found⟩

def mapAttempts (a : Attempts Id) (x nReduce : Nat) (input : Bytes) (emit : Emit) (disk : Disk Id) :
    Config files Id (Disk Id) Bool :=
  .start (fun i => workerMapRun x (a.attemptId i) (a.pid i) nReduce input emit) disk

def reduceAttempts (a : Attempts Id) (qsort : QSort) (y nMap : Nat) (fold : Fold) (disk : Disk Id) :
    Config files Id (Disk Id) Bool :=
  .start (fun i => workerReduceRun qsort y (a.attemptId i) (a.pid i) nMap fold) disk

/-- Both kinds of task publish atomically. -/
theorem publication_atomic (a : Attempts Id) (disk : Disk Id) :
    (∀ x nReduce input emit, a.KeepsInput x nReduce input →
      PublishesAtomically (mapAttempts a x nReduce input emit disk) (mapFinals x nReduce emit (disk.fs input))) ∧
    ∀ qsort y nMap fold, PublishesAtomically (reduceAttempts a qsort y nMap fold disk)
      [(outputPath y, reduceContent qsort fold disk.fs y nMap)] := by
  constructor
  · intro x nReduce input emit keeps
    refine (mapPublishing a x nReduce input emit disk.fs keeps).publishes rfl fun i => ?_
    have names : (mapPublishing a x nReduce input emit disk.fs keeps).finals.map Prod.fst =
        (List.range nReduce).map (intermediatePath x) := by
      simp [mapPublishing, mapFinals]
    rw [names]
    exact workerMapRun_safe a x nReduce input emit disk.fs keeps i
  · intro qsort y nMap fold
    exact (reducePublishing a qsort y nMap fold disk.fs).publishes rfl
      (workerReduceRun_safe a qsort y nMap fold disk.fs)

def Attempts.sample : Attempts Bool where
  pid := fun fresh => if fresh then 101 else 100
  attemptId := fun fresh => if fresh then 2 else 1
  distinct := by decide

def Disk.sample : Disk Bool where
  fs := fun path =>
    if path = ascii "in" then some (ascii "a b")
    else if path = intermediatePath 0 0 then some (ascii "a\t1\n")
    else none
  streams := fun _ _ => ⟨false, false⟩

def goodSteps (fresh : Bool) (calls : Nat) : List (Interference.Action Bool Outcome) :=
  List.replicate calls (.step fresh ⟨true, 100⟩)

/-- The stale attempt dies between its two renames, while the fresh one prints. -/
def Attempts.sampleMapRun : List (Interference.Action Bool Outcome) :=
  goodSteps true 4 ++ goodSteps false 12 ++ .crash false :: goodSteps true 9

/-- The stale attempt cannot open its output, the fresh one publishes. -/
def Attempts.sampleReduceRun : List (Interference.Action Bool Outcome) :=
  goodSteps false 5 ++ goodSteps true 5 ++ .step false ⟨false, 0⟩ :: goodSteps true 5

theorem publication_atomic_stale :
    (∃ c, Runs.run (next Disk.serve) (mapAttempts .sample 1 2 (ascii "in") emitWordCount .sample)
        Attempts.sampleMapRun = some c ∧
      AbsentOrComplete (mapFinals 1 2 emitWordCount (some (ascii "a b"))) c.state.fs ∧
      AllComplete (mapFinals 1 2 emitWordCount (some (ascii "a b"))) c.state.fs) ∧
    ∃ c, Runs.run (next Disk.serve) (reduceAttempts .sample .insertion 0 1 foldWordCount .sample)
        Attempts.sampleReduceRun = some c ∧
      AllComplete [(outputPath 0, reduceContent .insertion foldWordCount Disk.sample.fs 0 1)] c.state.fs := by
  have keeps : Attempts.sample.KeepsInput 1 2 (ascii "in") := ⟨by decide, by decide⟩
  constructor
  · have runs : (Runs.run (next Disk.serve) (mapAttempts .sample 1 2 (ascii "in") emitWordCount .sample)
        Attempts.sampleMapRun).any (fun c => c.returned true == some true) = true := by decide +kernel
    obtain ⟨c, reached, returned⟩ := (Option.any_eq_true _ _).mp runs
    obtain ⟨always, once⟩ := (publication_atomic .sample .sample).1 1 2 (ascii "in") emitWordCount keeps
      (by decide +kernel) Attempts.sampleMapRun c reached
    exact ⟨c, reached, always, once true ⟨_, [], c, (List.append_nil _).symm, reached, beq_iff_eq.mp returned⟩⟩
  · have runs : (Runs.run (next Disk.serve) (reduceAttempts .sample .insertion 0 1 foldWordCount .sample)
        Attempts.sampleReduceRun).any (fun c => c.returned true == some true) = true := by decide +kernel
    obtain ⟨c, reached, returned⟩ := (Option.any_eq_true _ _).mp runs
    obtain ⟨_, once⟩ := (publication_atomic .sample .sample).2 .insertion 0 1 foldWordCount
      (by decide +kernel) Attempts.sampleReduceRun c reached
    exact ⟨c, reached, once true ⟨_, [], c, (List.append_nil _).symm, reached, beq_iff_eq.mp returned⟩⟩

end MapReduce
