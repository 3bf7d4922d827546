import MapReduce.Invariant

/-! The masters a process can start its event loop with.

`master_bootstrap_job` sets up a fresh job or loads a log, and a log is whatever
bytes `aof_load` accepts. Either way no attempt is known yet: every slot is
unused, and the job has not failed.
-/

set_option autoImplicit false

namespace MapReduce

/-- `master_init_job` or `aof_load` has succeeded on the process image. -/
inductive Booted (config : MasterConfig) (m : Master) : Prop
  | fresh {entries : List DirEntry} (ready : masterInitJob (Master.zero config) entries = some m)
  | loaded {file : Bytes} (loaded : aofLoad (Master.zero config) file = .ok m)

def World.boot (m : Master) (log : Bytes) (aofFd now realtime : Int) : World where
  master := masterInit { m with aofFd := aofFd } now realtime
  log := log

/-! ## Unused slots -/

/-- No attempt was ever made. The path is one that fits the messages of the master. -/
structure Task.Unused (t : Task) : Prop where
  state : t.state = .pending ∨ t.state = .completed
  current : t.currentAttempt = 0
  count : t.attemptsCount = 0
  path : t.inputPath.length = t.inputPathLen
  short : t.inputPathLen < mapreducePathMax

/-- A table of which the first `n` slots are tasks, none of them handed out yet. -/
structure UnusedTable {capacity : Nat} (n : Nat) (tasks : Table capacity Task) : Prop where
  slot : ∀ i t, tasks.read i = some t → t.Unused
  owner : ∀ i t, i < n → tasks.read i = some t → t.ownerFd = -1
  idle : ∀ i t, n ≤ i → tasks.read i = some t → t.state = .pending

theorem zero_unused : Task.zero.Unused :=
  ⟨.inl rfl, rfl, rfl, rfl, (by decide : 0 < mapreducePathMax)⟩

theorem resetPrefix_unused {capacity : Nat} (n : Nat) :
    UnusedTable n (resetPrefix (Table.fill .zero : Table capacity Task) n) := by
  have cases : ∀ i t, (resetPrefix (Table.fill .zero : Table capacity Task) n).read i = some t →
      (i < n ∧ t = taskResetPending) ∨ (n ≤ i ∧ t = .zero) := by
    intro i t found
    have inside := Table.lt_of_read found
    rw [resetPrefix_read _ _ _ inside, Table.read_fill, if_pos inside] at found
    split at found
    next below => exact .inl ⟨below, (Option.some.inj found).symm⟩
    next above => exact .inr ⟨Nat.not_lt.mp above, (Option.some.inj found).symm⟩
  constructor
  · intro i t found
    rcases cases i t found with ⟨_, rfl⟩ | ⟨_, rfl⟩
    · exact ⟨.inl rfl, rfl, rfl, rfl, zero_unused.short⟩
    · exact zero_unused
  · intro i t below found
    rcases cases i t found with ⟨_, rfl⟩ | ⟨above, _⟩
    · rfl
    · omega
  · intro i t above found
    rcases cases i t found with ⟨below, _⟩ | ⟨_, rfl⟩
    · omega
    · rfl

theorem UnusedTable.write {capacity n i : Nat} {tasks : Table capacity Task} {t : Task} (new : Task)
    (unused : UnusedTable n tasks) (found : tasks.read i = some t) (slot : new.Unused)
    (owner : new.ownerFd = t.ownerFd) (idle : n ≤ i → new.state = t.state) :
    UnusedTable n (tasks.write i new) := by
  have cases : ∀ j u, (tasks.write i new).read j = some u → (j = i ∧ u = new) ∨ tasks.read j = some u := by
    intro j u read
    rw [Table.read_write] at read
    split at read
    next same =>
      split at read
      · exact .inl ⟨same, (Option.some.inj read).symm⟩
      · cases read
    · exact .inr read
  constructor
  · intro j u read
    rcases cases j u read with ⟨_, rfl⟩ | old
    · exact slot
    · exact unused.slot j u old
  · intro j u below read
    rcases cases j u read with ⟨rfl, rfl⟩ | old
    · exact owner.trans (unused.owner j t below found)
    · exact unused.owner j u below old
  · intro j u above read
    rcases cases j u read with ⟨rfl, rfl⟩ | old
    · exact (idle above).trans (unused.idle j t above found)
    · exact unused.idle j u above old

theorem definePaths_unused {n left i : Nat} {p : Bytes} {maps maps' : Table maxMapTasks Task}
    (unused : UnusedTable n maps) (defined : definePaths left i p maps = .ok maps') : UnusedTable n maps' := by
  induction left generalizing i p maps with
  | zero =>
    cases defined
    exact unused
  | succ left ih =>
    simp only [definePaths] at defined
    split at defined
    · cases defined
    · split at defined
      · cases defined
      next short =>
        split at defined
        · cases defined
        next whole =>
          split at defined
          · cases defined
          next t found =>
            have slot := unused.slot i t found
            refine ih ?_ defined
            refine .write _ unused found ?_ rfl fun _ => rfl
            refine ⟨slot.state, slot.current, slot.count, ?_, Nat.not_le.mp short⟩
            simp only [List.length_take]
            omega

/-! ## Replay -/

structure Replay.Unused (M R : Nat) (s : Replay) : Prop where
  maps : UnusedTable M s.maps
  reduces : UnusedTable R s.reduces

theorem markCompleted_unused {capacity n id : Nat} {tasks tasks' : Table capacity Task}
    (unused : UnusedTable n tasks) (below : id < n) (marked : markCompleted tasks id = .ok tasks') :
    UnusedTable n tasks' := by
  obtain ⟨t, found, rfl⟩ := markCompleted_ok marked
  have slot := unused.slot id t found
  exact .write _ unused found ⟨.inr rfl, slot.current, slot.count, slot.path, slot.short⟩ rfl (by omega)

theorem replayRecord_unused {M R : Nat} {s s' : Replay} {record : AofRecord} (unused : s.Unused M R)
    (replayed : replayRecord M R s record = .ok s') : s'.Unused M R := by
  rcases replayRecord_ok replayed with ⟨-, inside, maps, marked, rfl⟩ | ⟨-, inside, reduces, marked, rfl⟩ | ⟨-, rfl⟩
  · exact ⟨markCompleted_unused unused.maps inside marked, unused.reduces⟩
  · exact ⟨unused.maps, markCompleted_unused unused.reduces inside marked⟩
  · exact unused

theorem replayLoop_unused {M R fuel : Nat} {file : Bytes} {s s' : Replay} (unused : s.Unused M R)
    (replayed : replayLoop M R fuel file s = .ok s') : s'.Unused M R := by
  induction fuel generalizing file s with
  | zero => cases replayed
  | succ fuel ih =>
    simp only [replayLoop, bind, Except.bind] at replayed
    split at replayed
    · cases replayed
    next answer read =>
      split at replayed
      · cases replayed
        exact unused
      · split at replayed
        · cases replayed
        next next_ step => exact ih (replayRecord_unused unused step) replayed

/-! ## The boot state -/

structure Master.Unused (m : Master) : Prop where
  totals : ∀ kind, m.job.total kind ≤ kind.capacity
  maps : UnusedTable m.job.M m.maps
  reduces : UnusedTable m.job.R m.reduces
  phase : m.job.phase ≠ .failed

theorem maybeAdvancePhase_phase {m : Master} (alive : m.job.phase ≠ .failed) :
    (maybeAdvancePhase m).job.phase ≠ .failed := by
  unfold maybeAdvancePhase
  simp only
  split <;> split <;> simp [alive]

theorem maybeAdvancePhase_unused {m : Master} (unused : m.Unused) : (maybeAdvancePhase m).Unused := by
  refine ⟨?_, ?_, ?_, maybeAdvancePhase_phase unused.phase⟩
  · intro kind
    rw [maybeAdvancePhase_job, Job.advance_total]
    exact unused.totals kind
  · unfold maybeAdvancePhase
    simp only
    split <;> split <;> exact unused.maps
  · unfold maybeAdvancePhase
    simp only
    split <;> split <;> exact unused.reduces

theorem fresh_unused (config : MasterConfig) (job : JobDef) : (Master.fresh config job).Unused where
  totals kind := by
    cases kind
    · exact job.maps_le
    · exact job.reduces_le
  maps := by
    have fresh_map : ∀ {i t}, (Master.fresh config job).task? .map i = some t → _ := Master.fresh_slot
    constructor
    · intro i t found
      obtain ⟨pending, current, count, path, short, _⟩ :=
        fresh_map found
      exact ⟨.inl pending, current, count, path, short⟩
    · intro i t below found
      obtain ⟨_, _, _, _, _, owner⟩ := fresh_map found
      exact owner below
    · intro i t _ found
      exact (fresh_map found).1
  reduces := resetPrefix_unused job.R
  phase := by simp [Master.fresh]

theorem loadJob_unused {config : MasterConfig} {job : AofJob} {rest : Bytes} {m : Master}
    (loaded : loadJob (Master.zero config) job rest = .ok m) : m.Unused := by
  unfold loadJob at loaded
  split at loaded
  · cases loaded
  next bounds =>
    simp only [bind, Except.bind] at loaded
    split at loaded
    · cases loaded
    next maps defined =>
      split at loaded
      · cases loaded
      next s replayed =>
        cases loaded
        have start : Replay.Unused job.M job.R ⟨maps, resetPrefix (Table.fill .zero) job.R, 0, 0⟩ :=
          ⟨definePaths_unused (resetPrefix_unused _) defined, resetPrefix_unused _⟩
        have final := replayLoop_unused start replayed
        refine maybeAdvancePhase_unused ⟨?_, final.maps, final.reduces, by simp [Master.zero]⟩
        intro kind
        cases kind
        · exact Nat.not_lt.mp fun past => bounds (.inl past)
        · exact Nat.not_lt.mp fun past => bounds (.inr past)

theorem aofLoad_unused {config : MasterConfig} {file : Bytes} {m : Master}
    (loaded : aofLoad (Master.zero config) file = .ok m) : m.Unused := by
  unfold aofLoad at loaded
  split at loaded
  · -- An empty file leaves the process image, which has no tasks at all.
    cases loaded
    have blank : ∀ {capacity : Nat}, UnusedTable 0 (Table.fill .zero : Table capacity Task) := by
      intro capacity
      have reset : UnusedTable 0 (resetPrefix (Table.fill .zero : Table capacity Task) 0) := resetPrefix_unused 0
      rwa [show resetPrefix (Table.fill .zero : Table capacity Task) 0 = Table.fill .zero from by
        simp [resetPrefix, Table.fill]] at reset
    refine ⟨?_, blank, blank, by simp [Master.zero]⟩
    intro kind
    cases kind <;> exact Nat.zero_le _
  · split at loaded
    · cases loaded
    · simp only [bind, Except.bind] at loaded
      split at loaded
      · cases loaded
      · split at loaded
        · cases loaded
        · exact loadJob_unused loaded

theorem Booted.unused {config : MasterConfig} {m : Master} (booted : Booted config m) : m.Unused := by
  cases booted with
  | fresh ready =>
    obtain ⟨job, rfl⟩ := masterInitJob_fresh ready
    exact fresh_unused config job
  | loaded loaded => exact aofLoad_unused loaded

section Boot
variable {m : Master} (unused : m.Unused) {kind : TaskKind} {i : Nat} {t : Task}

theorem World.boot_task? (m : Master) (log : Bytes) (aofFd now realtime : Int) (kind : TaskKind) (i : Nat) :
    (World.boot m log aofFd now realtime).master.task? kind i = m.task? kind i := by
  cases kind <;> rfl

include unused in
theorem Master.Unused.slot (found : m.task? kind i = some t) : t.Unused := by
  cases kind
  · exact unused.maps.slot i t found
  · exact unused.reduces.slot i t found

include unused in
theorem Master.Unused.owner (below : i < m.job.total kind) (found : m.task? kind i = some t) : t.ownerFd = -1 := by
  cases kind
  · exact unused.maps.owner i t below found
  · exact unused.reduces.owner i t below found

include unused in
theorem Master.Unused.idle (above : m.job.total kind ≤ i) (found : m.task? kind i = some t) :
    t.state = .pending := by
  cases kind
  · exact unused.maps.idle i t above found
  · exact unused.reduces.idle i t above found

end Boot

end MapReduce
