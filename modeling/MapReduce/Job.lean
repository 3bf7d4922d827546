import MapReduce.Task

/-! What a job is, and how `master_init_job` sets one up.

`JobDef` is the part of a job that never changes while it runs: the input paths
and the number of reduces, within the bounds the master enforces.
-/

set_option autoImplicit false

namespace MapReduce

structure JobDef where
  paths : List Bytes
  R : Nat
  maps_pos : 1 ≤ paths.length
  maps_le : paths.length ≤ maxMapTasks
  reduces_pos : 1 ≤ R
  reduces_le : R ≤ maxReduceTasks
  path_short : ∀ path ∈ paths, path.length < mapreducePathMax

def JobDef.M (job : JobDef) : Nat := job.paths.length

def JobDef.total (job : JobDef) : TaskKind → Nat
  | .map => job.M
  | .reduce => job.R

theorem JobDef.total_le (job : JobDef) (kind : TaskKind) : job.total kind ≤ kind.capacity := by
  cases kind
  · exact job.maps_le
  · exact job.reduces_le

/-! ## The tables of a fresh job -/

def mapSlot (path : Bytes) : Task :=
  { taskResetPending with inputPath := path, inputPathLen := path.length }

/-- The paths fill the first slots; the remaining ones stay zero. -/
def mapTable (paths : List Bytes) : Table maxMapTasks Task :=
  ⟨fun j => (paths[j.val]?.map mapSlot).getD .zero⟩

/-- `for (i = 0; i < n; i++) task_reset_pending(&tasks[i])`. -/
def resetPrefix {capacity : Nat} (tasks : Table capacity Task) (n : Nat) : Table capacity Task :=
  ⟨fun j => if j.val < n then taskResetPending else tasks.slot j⟩

theorem resetPrefix_read {capacity : Nat} (tasks : Table capacity Task) (n i : Nat) (inside : i < capacity) :
    (resetPrefix tasks n).read i = if i < n then some taskResetPending else tasks.read i := by
  unfold resetPrefix Table.read
  simp only [inside, ↓reduceDIte]
  split <;> rfl

theorem mapTable_read (paths : List Bytes) (i : Nat) (inside : i < maxMapTasks) :
    (mapTable paths).read i = some ((paths[i]?.map mapSlot).getD .zero) := dif_pos inside

/-- The master right after `master_init_job` has set up `job`. -/
def Master.fresh (config : MasterConfig) (job : JobDef) : Master :=
  { Master.zero config with
    job := ⟨job.M, job.R, .map, 0, 0, config.taskTimeoutMs⟩
    maps := mapTable job.paths
    reduces := resetPrefix (Table.fill .zero) job.R }

theorem Master.fresh_slot {config : MasterConfig} {job : JobDef} {kind : TaskKind} {i : Nat} {t : Task}
    (found : (Master.fresh config job).task? kind i = some t) :
    t.state = .pending ∧ t.currentAttempt = 0 ∧ t.attemptsCount = 0 ∧ t.inputPath.length = t.inputPathLen ∧
      t.inputPathLen < mapreducePathMax ∧ (i < job.total kind → t.ownerFd = -1) := by
  cases kind with
  | map =>
    have entry := (mapTable_read job.paths i (Table.lt_of_read found)).symm.trans found
    cases listed : job.paths[i]? with
    | none =>
      rw [listed] at entry
      cases entry
      refine ⟨rfl, rfl, rfl, rfl, (by decide : 0 < mapreducePathMax), fun below => ?_⟩
      exact absurd below (Nat.not_lt.mpr (List.getElem?_eq_none_iff.mp listed))
    | some path =>
      rw [listed] at entry
      cases entry
      exact ⟨rfl, rfl, rfl, rfl, job.path_short path (List.mem_of_getElem? listed), fun _ => rfl⟩
  | reduce =>
    have entry := (resetPrefix_read _ job.R i (Table.lt_of_read found)).symm.trans found
    have room : 0 < mapreducePathMax := by decide
    split at entry
    · cases entry
      exact ⟨rfl, rfl, rfl, rfl, room, fun _ => rfl⟩
    next outside =>
      rw [Table.read_fill, if_pos (Table.lt_of_read found)] at entry
      cases entry
      exact ⟨rfl, rfl, rfl, rfl, room, fun below => absurd below outside⟩

/-! ## `master_init_job` -/

/-- A visible directory entry in `alphasort` order, with the answer of `stat`:
failure, or whether it is a regular file. -/
structure DirEntry where
  name : Bytes
  stat : Option Bool
  deriving DecidableEq, Repr

def entryPath (inputDir : Bytes) (entry : DirEntry) : Bytes := inputDir ++ 0x2f :: entry.name

def scanEntries (inputDir : Bytes) :
    List DirEntry → Nat → Table maxMapTasks Task → Option (Nat × Table maxMapTasks Task)
  | [], M, maps => some (M, maps)
  | entry :: rest, M, maps =>
    let path := entryPath inputDir entry
    if path.length ≥ mapreducePathMax then none
    else match entry.stat with
      | none => none
      | some false => scanEntries inputDir rest M maps
      | some true =>
        if M ≥ maxMapTasks then none
        else scanEntries inputDir rest (M + 1) (maps.write M (mapSlot path))

def masterInitJob (m : Master) (entries : List DirEntry) : Option Master :=
  match scanEntries m.config.inputDir entries 0 m.maps with
  | none => none
  | some (M, maps) =>
    if M = 0 then none
    else
      -- The cast to uint32_t; a negative setting becomes too large a count.
      let R := (m.config.nReduce % 2 ^ 32).toNat
      if R = 0 ∨ R > maxReduceTasks then none
      else some { m with
        job := ⟨M, R, .map, 0, 0, m.config.taskTimeoutMs⟩
        maps := maps
        reduces := resetPrefix m.reduces R }

theorem mapTable_snoc (paths : List Bytes) (path : Bytes) :
    (mapTable paths).write paths.length (mapSlot path) = mapTable (paths ++ [path]) := by
  apply Table.ext_read
  intro i inside
  rw [Table.read_write, mapTable_read _ _ inside, mapTable_read _ _ inside]
  by_cases same : i = paths.length
  · simp [same, same ▸ inside]
  · rw [if_neg same]
    by_cases before : i < paths.length
    · simp [List.getElem?_append_left before]
    · have past : paths.length + 1 ≤ i := by omega
      simp [List.getElem?_eq_none (show paths.length ≤ i by omega),
        List.getElem?_eq_none (show (paths ++ [path]).length ≤ i by simpa using past)]

theorem scanEntries_paths {inputDir : Bytes} {entries : List DirEntry} (paths : List Bytes) {M : Nat}
    {maps : Table maxMapTasks Task} (bound : paths.length ≤ maxMapTasks)
    (short : ∀ path ∈ paths, path.length < mapreducePathMax)
    (scanned : scanEntries inputDir entries paths.length (mapTable paths) = some (M, maps)) :
    ∃ all : List Bytes, M = all.length ∧ maps = mapTable all ∧ all.length ≤ maxMapTasks ∧
      ∀ path ∈ all, path.length < mapreducePathMax := by
  induction entries generalizing paths with
  | nil =>
    cases scanned
    exact ⟨paths, rfl, rfl, bound, short⟩
  | cons entry rest ih =>
    simp only [scanEntries] at scanned
    split at scanned
    · cases scanned
    next fits =>
      split at scanned
      · cases scanned
      · exact ih paths bound short scanned
      · split at scanned
        · cases scanned
        next room =>
          rw [mapTable_snoc] at scanned
          refine ih (paths ++ [entryPath inputDir entry]) ?_ ?_ (by simpa using scanned)
          · simp only [List.length_append, List.length_singleton]; omega
          · intro path member
            rcases List.mem_append.mp member with old | new
            · exact short path old
            · rw [List.mem_singleton.mp new]; omega

theorem masterInitJob_fresh {config : MasterConfig} {entries : List DirEntry} {m : Master}
    (ready : masterInitJob (Master.zero config) entries = some m) :
    ∃ job : JobDef, m = Master.fresh config job := by
  unfold masterInitJob at ready
  split at ready
  · cases ready
  next M maps scanned =>
    obtain ⟨paths, rfl, rfl, bound, short⟩ :=
      scanEntries_paths [] (by decide) (by simp) scanned
    split at ready
    · cases ready
    next some_map =>
      simp only at ready
      split at ready
      · cases ready
      next reduces =>
        cases ready
        refine ⟨⟨paths, (config.nReduce % 2 ^ 32).toNat, by omega, bound, ?_, ?_, short⟩, rfl⟩
        · simp only [Master.zero] at reduces; omega
        · simp only [Master.zero] at reduces; omega

end MapReduce
