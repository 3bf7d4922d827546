import MapReduce.Restarts
import MapReduce.Untimed
import MapReduce.Worker.JobFiles

/-! The whole system: the master, its log, its workers and the files they share.

A worker that reads a task response starts an attempt, which makes one file call
after the other while everything else goes on. It reports what the attempt has
returned. A process can die at any time, lose its connection and run on, and the
master can crash and restart from its log.
-/

set_option autoImplicit false

namespace MapReduce

open Calls Interference WorkerMap WorkerReduce

/-! ## States and steps -/

/-- The attempts that run, and the files they share. -/
abbrev Pool := Config files Ticket (Disk Ticket) Bool

structure System where
  cluster : Cluster
  pool : Pool

inductive Move where
  | incident (incident : Incident)
  /-- The next file call of an attempt. -/
  | call (ticket : Ticket) (outcome : Outcome)
  | die (ticket : Ticket)
  deriving DecidableEq, Repr

section Steps

variable (qsort : QSort) (pid : Nat → Nat)

/-- The switch of `main` in `worker.c`: the attempt that process starts on a response. A worker keeps one
connection for all its life, so processes are numbered like connections. -/
def startedBy (process : Nat) (payload : Bytes) : Option (Ticket × Proc Bool) :=
  match taskResponse payload with
  | some (.map msg) =>
    some (⟨process, .map, msg.taskId.toNat, msg.attemptId.toNat⟩,
      workerMapRun msg.taskId.toNat msg.attemptId.toNat (pid process) msg.nReduce.toNat (cString msg.inputPath)
        emitWordCount)
  | some (.reduce msg) =>
    some (⟨process, .reduce, msg.taskId.toNat, msg.attemptId.toNat⟩,
      workerReduceRun qsort msg.taskId.toNat msg.attemptId.toNat (pid process) msg.nMap.toNat foldWordCount)
  | some (.wait _) | some .done | none => none

def System.started (s : System) : Incident → Pool
  | .action (.receive fd) =>
    match s.cluster.conns fd with
    | .answered payload =>
      match startedBy qsort pid (s.cluster.serial fd) payload with
      | some (ticket, program) => s.pool.spawn ticket program
      | none => s.pool
    | _ => s.pool
  | _ => s.pool

/-- A worker reports what its attempt has returned. -/
def System.truthful (s : System) : Incident → Bool
  | .action (.finish fd success) =>
    match s.cluster.conns fd with
    | .running kind taskId attemptId =>
      s.pool.returned ⟨s.cluster.serial fd, kind, taskId.toNat, attemptId.toNat⟩ == some success
    | _ => false
  | _ => true

def System.next (s : System) : Move → Option System
  | .incident incident =>
    if s.truthful incident then
      (s.cluster.survive incident).map fun c => ⟨c, s.started qsort pid incident⟩
    else none
  | .call ticket outcome => (Interference.next Disk.serve s.pool (.step ticket outcome)).map (⟨s.cluster, ·⟩)
  | .die ticket => (Interference.next Disk.serve s.pool (.crash ticket)).map (⟨s.cluster, ·⟩)

end Steps

def System.start (config : MasterConfig) (job : JobDef) (fd : Nat) (createdMs : UInt64) (now realtime : Int)
    (disk : Disk Ticket) : System :=
  ⟨.start config job fd createdMs now realtime, .idle disk⟩

/-- What the workers of a job count: the paths are used as C strings. -/
def JobDef.wordCount (job : JobDef) (qsort : QSort) : WordCountJob where
  qsort := qsort
  inputs x := cString (job.paths[x]?.getD [])
  M := job.M
  R := job.R

/-! ## Steps seen from the cluster and from the attempts -/

theorem Cluster.next_reported {c c' : Cluster} {action : Action} (taken : c.next action = some c') {serial i n : Nat}
    {kind : TaskKind} (reported : .reported serial kind i n 0 ∈ c'.trace) :
    .reported serial kind i n 0 ∈ c.trace ∨ ∃ fd taskId attemptId, action = .finish fd true ∧
      c.conns fd = .running kind taskId attemptId ∧ serial = c.serial fd ∧ i = taskId.toNat ∧ n = attemptId.toNat := by
  cases action with
  | connect | ask | confirm | disconnect =>
    simp only [next] at taken
    split at taken <;> cases taken
    exact .inl reported
  | receive =>
    simp only [next] at taken
    split at taken <;> cases taken
    exact .inl reported
  | deliver fd env =>
    simp only [next, Option.bind_eq_bind, Option.bind_eq_some_iff] at taken
    obtain ⟨_, _, r, _, same⟩ := taken
    cases same
    rw [c.delivered_trace fd env r, List.mem_append] at reported
    refine reported.imp_right fun handed => ?_
    unfold handedBy at handed
    split at handed
    · cases List.mem_singleton.mp handed
    · cases handed
  | finish fd success =>
    simp only [next] at taken
    split at taken <;> cases taken
    next kind' taskId attemptId running =>
      rcases List.mem_append.mp reported with before | now
      · exact .inl before
      · cases success with
        | false => cases List.mem_singleton.mp now
        | true =>
          cases List.mem_singleton.mp now
          exact .inr ⟨fd, taskId, attemptId, rfl, running, rfl, rfl, rfl⟩
  | periodic now realtime =>
    simp only [next] at taken
    split at taken
    · obtain ⟨r, _, rfl⟩ := Option.map_eq_some_iff.mp taken
      exact .inl reported
    · cases taken

/-! ## The invariant of the cluster -/

/-- What the attempts rely on: the books are in order and on disk, and everybody serves the job. -/
structure Cluster.Consistent (createdMs : UInt64) (job : JobDef) (c : Cluster) : Prop where
  inv : ∃ completions, Inv createdMs job completions c
  stored : StoredWhole c
  barrier : Barrier job c.trace
  serves : c.Serves createdMs job

/-- The condition on the steps of the cluster: reports stay with their kind, and the log is written. -/
def Cluster.Orderly (c : Cluster) : Incident → Prop
  | .action action => AcceptsOwnKind c action ∧ (Incident.action action).LogWritten
  | .crash _ _ _ => True

instance (c : Cluster) : (incident : Incident) → Decidable (c.Orderly incident)
  | .action action => inferInstanceAs (Decidable (AcceptsOwnKind c action ∧ (Incident.action action).LogWritten))
  | .crash _ _ _ => .isTrue trivial

theorem Cluster.Orderly.written {c : Cluster} {incident : Incident} (orderly : c.Orderly incident) :
    incident.LogWritten := by
  cases incident with
  | action action => exact orderly.2
  | crash => trivial

theorem Cluster.Consistent.survive {createdMs : UInt64} {job : JobDef} {c c' : Cluster} {incident : Incident}
    (ok : c.Consistent createdMs job) (orderly : c.Orderly incident) (taken : c.survive incident = some c') :
    c'.Consistent createdMs job := by
  obtain ⟨completions, inv⟩ := ok.inv
  have guarded : Guarded createdMs job c := ⟨ok.barrier, .inl ⟨completions, inv, ok.stored⟩⟩
  have barrier := (guarded.survive orderly.written taken).barrier
  have serves := ok.serves.survive taken
  cases incident with
  | action action => exact ⟨inv.next orderly.1 taken, ok.stored.next orderly.2 taken, barrier, serves⟩
  | crash aofFd now realtime =>
    refine ⟨⟨completions, inv.crash ok.stored taken⟩, ?_, barrier, serves⟩
    obtain ⟨w, -, rfl⟩ := Option.map_eq_some_iff.mp taken
    exact ok.stored

/-! ## The invariant of the system -/

section Invariant

variable {createdMs : UInt64} {job : JobDef} {qsort : QSort} {splits : Nat → Bytes} {fs : Fs}
  (ready : (job.wordCount qsort).Ready splits fs) {pid : Nat → Nat} (processes : Function.Injective pid)

/-- The attempts keep their contract, and what was reported as a success is in place. -/
structure System.Consistent (createdMs : UInt64) (s : System) : Prop where
  cluster : s.cluster.Consistent createdMs job
  pool : Interference.Sound Disk.serve ((job.wordCount qsort).publishing ready processes).contract
    (WordCountJob.post ready processes) s.pool
  published : ∀ serial kind i n, .reported serial kind i n 0 ∈ s.cluster.trace →
    ∀ path ∈ (job.wordCount qsort).results kind i,
      ((job.wordCount qsort).publishing ready processes).Complete s.pool.state path

variable {ready} {processes} {s : System}

theorem System.Consistent.mapped (ok : System.Consistent ready processes createdMs s)
    (all : AllMaps job s.cluster.trace) : ∀ path ∈ (job.wordCount qsort).mapped,
      ((job.wordCount qsort).publishing ready processes).Complete s.pool.state path := by
  intro path member
  obtain ⟨x, range, listed⟩ := List.mem_flatMap.mp member
  obtain ⟨serial, attempt, _, reported⟩ := all x (List.mem_range.mp range)
  exact ok.published serial .map x attempt reported path listed

theorem Cluster.Consistent.allMaps {c : Cluster} (ok : c.Consistent createdMs job) {fd : Fd} {y attempt : Nat}
    (held : (c.conns fd).token = some (.reduce, y, attempt)) : AllMaps job c.trace := by
  obtain ⟨completions, inv⟩ := ok.inv
  obtain ⟨before, after, split⟩ := List.append_of_mem (inv.seen.handed fd .reduce y attempt held)
  rw [split]
  exact (ok.barrier before after _ y attempt split).mono _

theorem System.Consistent.started (ok : System.Consistent ready processes createdMs s) (incident : Incident) :
    Interference.Sound Disk.serve ((job.wordCount qsort).publishing ready processes).contract
      (WordCountJob.post ready processes) (s.started qsort pid incident) := by
  unfold System.started
  split
  next fd =>
    split
    next payload conn =>
      obtain ⟨response, read, belongs⟩ := ok.cluster.serves.answered fd payload conn
      unfold startedBy
      rw [read]
      cases response with
      | map msg =>
        obtain ⟨partitions, listed⟩ := belongs
        have below : msg.taskId.toNat < (job.wordCount qsort).M := (List.getElem?_eq_some_iff.mp listed).1
        have input : cString msg.inputPath = (job.wordCount qsort).inputs msg.taskId.toNat := by
          simp only [JobDef.wordCount, listed, Option.getD_some]
        simp only
        rw [partitions, input]
        have safe := WordCountJob.map_safe ready processes (s.cluster.serial fd) msg.attemptId.toNat below
        refine ok.pool.spawn ?_ safe
        exact ⟨trivial, by simp⟩
      | reduce msg =>
        -- The master hands out no reduce task before every map task is confirmed, so the inputs are there.
        obtain ⟨inputs, below⟩ := belongs
        have token : (s.cluster.conns fd).token = some (.reduce, msg.taskId.toNat, msg.attemptId.toNat) := by
          rw [conn]
          simp only [Conn.token, decodeResponse_eq, read, Option.map_some, Response.task]
        simp only
        rw [inputs]
        have safe := WordCountJob.reduce_safe ready processes (s.cluster.serial fd) msg.attemptId.toNat below
        refine ok.pool.spawn ?_ safe
        exact ⟨trivial, ok.mapped (ok.cluster.allMaps token)⟩
      | wait | done => exact ok.pool
    · exact ok.pool
  · exact ok.pool

theorem System.started_state (qsort : QSort) (pid : Nat → Nat) (s : System) (incident : Incident) :
    (s.started qsort pid incident).state = s.pool.state := by
  unfold System.started
  split
  · split
    · split <;> rfl
    · rfl
  · rfl

theorem System.Consistent.incident {s' : System} {incident : Incident}
    (ok : System.Consistent ready processes createdMs s) (orderly : s.cluster.Orderly incident)
    (taken : s.next qsort pid (.incident incident) = some s') : System.Consistent ready processes createdMs s' := by
  simp only [System.next] at taken
  split at taken
  next truthful =>
    obtain ⟨c, survived, rfl⟩ := Option.map_eq_some_iff.mp taken
    refine ⟨ok.cluster.survive orderly survived, ok.started incident, ?_⟩
    intro serial kind i n reported path listed
    simp only [System.started_state]
    have earlier : .reported serial kind i n 0 ∈ s.cluster.trace →
        ((job.wordCount qsort).publishing ready processes).Complete s.pool.state path :=
      fun before => ok.published serial kind i n before path listed
    cases incident with
    | action action =>
      rcases Cluster.next_reported survived reported with before | ⟨fd, taskId, attemptId, rfl, conn, rfl, rfl, rfl⟩
      · exact earlier before
      · -- The attempt behind the report has returned 0.
        simp only [System.truthful, conn, beq_iff_eq] at truthful
        exact (ok.pool.returned truthful).2 path listed
    | crash aofFd now realtime =>
      obtain ⟨w, _, rfl⟩ := Option.map_eq_some_iff.mp survived
      exact earlier reported
  · cases taken

theorem System.Consistent.attempt {pool : Pool} {action : Interference.Action Ticket Outcome}
    (ok : System.Consistent ready processes createdMs s)
    (taken : Interference.next Disk.serve s.pool action = some pool) :
    System.Consistent ready processes createdMs ⟨s.cluster, pool⟩ := by
  refine ⟨ok.cluster, Interference.Sound.next s.pool action pool ok.pool taken, ?_⟩
  intro serial kind i n reported path listed
  have there := ok.published serial kind i n reported path listed
  rcases ok.pool.next_rely taken with same | ⟨id, rely⟩
  · simpa only [same] using there
  · exact (rely ⟨id.process + 1, id.kind, id.task, id.attempt⟩
      fun clash => absurd (congrArg Ticket.process clash) (by simp)).2 path there

end Invariant

/-! ## Word count from the first request to the last report -/

/-- The condition on a run: whenever the cluster moves, it is orderly. -/
def System.Orderly (s : System) : Move → Prop
  | .incident incident => s.cluster.Orderly incident
  | .call _ _ | .die _ => True

instance (s : System) : (move : Move) → Decidable (s.Orderly move)
  | .incident incident => inferInstanceAs (Decidable (s.cluster.Orderly incident))
  | .call _ _ | .die _ => .isTrue trivial

theorem System.Consistent.next {createdMs : UInt64} {job : JobDef} {qsort : QSort} {splits : Nat → Bytes} {fs : Fs}
    {ready : (job.wordCount qsort).Ready splits fs} {pid : Nat → Nat} {processes : Function.Injective pid}
    (s : System) (move : Move) (s' : System) (ok : System.Consistent ready processes createdMs s)
    (orderly : s.Orderly move) (taken : s.next qsort pid move = some s') :
    System.Consistent ready processes createdMs s' := by
  cases move with
  | incident incident => exact ok.incident orderly taken
  | call ticket outcome =>
    obtain ⟨pool, stepped, rfl⟩ := Option.map_eq_some_iff.mp taken
    exact ok.attempt stepped
  | die ticket =>
    obtain ⟨pool, stepped, rfl⟩ := Option.map_eq_some_iff.mp taken
    exact ok.attempt stepped

/-- The outputs agree with the inputs: each one that is there holds the counts of its words, and when the job is
done all of them are there. -/
structure System.Counted (s : System) (R : Nat) (tokens : List Bytes) : Prop where
  present : ∀ y < R, ∀ content, s.pool.state.fs (outputPath y) = some content → PartitionCounted R y tokens content
  complete : s.cluster.world.master.job.phase = .done → WordCounted R tokens s.pool.state.fs

section Counted
variable {createdMs : UInt64} {job : JobDef} {qsort : QSort} {splits : Nat → Bytes} {pid : Nat → Nat}
  {processes : Function.Injective pid}

theorem System.Consistent.counted {fs : Fs} {ready : (job.wordCount qsort).Ready splits fs} {s : System}
    (ok : System.Consistent ready processes createdMs s)
    (short : ∀ w ∈ (job.wordCount qsort).tokens splits, w.length ≤ 8190) :
    s.Counted job.R ((job.wordCount qsort).tokens splits) := by
  have readsBack : (job.wordCount qsort).ReadsBack splits :=
    readsBack_of_short fun w occurs => by
      have bound := short w occurs
      simp only [WorkerReduce.lineMax]
      omega
  have counted : ∀ y < job.R, ∀ content, s.pool.state.fs (outputPath y) = some content →
      PartitionCounted job.R y ((job.wordCount qsort).tokens splits) content := by
    intro y below content there
    have listed : (outputPath y, some ((job.wordCount qsort).output splits y)) ∈ (job.wordCount qsort).finals splits :=
      WordCountJob.mem_finals.mpr (.inr ⟨y, below, rfl, rfl⟩)
    rcases ok.pool.inv.2 (outputPath y) _ listed with absent | complete
    · rw [absent] at there
      cases there
    · rw [complete] at there
      cases there
      exact output_counted readsBack below
  refine ⟨counted, fun done => wordCounted_of_partitions job.reduces_pos fun y below => ?_⟩
  obtain ⟨completions, inv⟩ := ok.cluster.inv
  have phaseOk := inv.books.recorded.sound.phase
  unfold Job.PhaseOk at phaseOk
  rw [done] at phaseOk
  have full : s.cluster.world.master.job.doneCount .reduce = s.cluster.world.master.job.total .reduce := phaseOk.2
  obtain ⟨serial, attempt, _, reported⟩ := inv.all_witnessed full y below
  obtain ⟨content, _, there⟩ := ok.published serial .reduce y attempt reported (outputPath y) List.mem_cons_self
  exact ⟨content, there, counted y below content there⟩

end Counted

def System.sampleDisk : Disk Ticket where
  fs := fun path => if path = ascii "in/a" then some (ascii "a b a\n") else none
  streams := fun _ _ => ⟨false, false⟩

def goodCalls (ticket : Ticket) (calls : Nat) : List Move := List.replicate calls (.call ticket ⟨true, 100⟩)

def System.sample : System := .start sampleConfig sampleJob 3 0 0 0 sampleDisk

/-- The master never ticks, and its log is written. -/
def Move.Usual : Move → Prop
  | .incident happened => happened.Untimed ∧ happened.LogWritten
  | .call _ _ | .die _ => True

instance : (move : Move) → Decidable move.Usual
  | .incident happened => inferInstanceAs (Decidable (happened.Untimed ∧ happened.LogWritten))
  | .call _ _ | .die _ => .isTrue trivial

theorem Tenured.system_next {createdMs : UInt64} {job : JobDef} {qsort : QSort} {pid : Nat → Nat} {s s' : System}
    {move : Move} (tenured : Tenured createdMs job s.cluster) (stored : StoredWhole s.cluster) (usual : move.Usual)
    (taken : s.next qsort pid move = some s') : s.Orderly move ∧ Tenured createdMs job s'.cluster := by
  cases move with
  | incident incident =>
    simp only [System.next] at taken
    split at taken
    · obtain ⟨c, survived, rfl⟩ := Option.map_eq_some_iff.mp taken
      refine ⟨?_, (tenured.survive stored usual.1 usual.2 survived).1⟩
      cases incident with
      | action action => exact ⟨tenured.own_kind action, usual.2⟩
      | crash => trivial
    · cases taken
  | call | die =>
    obtain ⟨pool, _, rfl⟩ := Option.map_eq_some_iff.mp taken
    exact ⟨trivial, tenured⟩

/-- The invariant of runs without ticks. -/
structure System.Settled (createdMs : UInt64) {job : JobDef} {qsort : QSort} {splits : Nat → Bytes} {fs : Fs}
    (ready : (job.wordCount qsort).Ready splits fs) {pid : Nat → Nat} (processes : Function.Injective pid)
    (s : System) : Prop where
  ok : System.Consistent ready processes createdMs s
  tenured : Tenured createdMs job s.cluster

section Settled
variable {createdMs : UInt64} {job : JobDef} {qsort : QSort} {splits : Nat → Bytes} {pid : Nat → Nat}
  {processes : Function.Injective pid}

theorem System.Settled.next {fs : Fs} {ready : (job.wordCount qsort).Ready splits fs} (s : System) (move : Move)
    (s' : System) (settled : System.Settled createdMs ready processes s) (usual : move.Usual)
    (taken : s.next qsort pid move = some s') : System.Settled createdMs ready processes s' := by
  obtain ⟨orderly, after⟩ := settled.tenured.system_next settled.ok.cluster.stored usual taken
  exact ⟨System.Consistent.next s move s' settled.ok orderly taken, after⟩

end Settled

end MapReduce
