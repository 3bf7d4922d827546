import MapReduce.System
import MapReduce.Worker.Streams

/-! The worker processes of the system, one by one.

Whatever the rest of the system does, an attempt is somewhere in the program of
its task: the response it was started by has the parameters of the job, so the
arrays of `worker_map_run` are large enough and `worker_reduce_run` has inputs.
It uses its streams by their rules, never waits for another process, and returns
with all of them closed.
-/

set_option autoImplicit false

namespace MapReduce

open Calls Interference WorkerMap WorkerReduce

def JobDef.attempt (job : JobDef) (qsort : QSort) (pid : Nat → Nat) (t : Ticket) : Proc Bool :=
  match t.kind with
  | .map =>
    workerMapRun t.task t.attempt (pid t.process) job.R (cString (job.paths[t.task]?.getD [])) emitWordCount
  | .reduce => workerReduceRun qsort t.task t.attempt (pid t.process) job.M foldWordCount

section
variable {createdMs : UInt64} {job : JobDef} {qsort : QSort} {pid : Nat → Nat}

theorem startedBy_attempt {process : Nat} {payload : Bytes} {response : Response} {ticket : Ticket}
    {program : Proc Bool} (read : taskResponse payload = some response) (belongs : response.Of job)
    (started : startedBy qsort pid process payload = some (ticket, program)) :
    ticket.task < job.total ticket.kind ∧ program = job.attempt qsort pid ticket := by
  unfold startedBy at started
  rw [read] at started
  cases response with
  | map msg =>
    cases started
    obtain ⟨partitions, listed⟩ := belongs
    refine ⟨(List.getElem?_eq_some_iff.mp listed).1, ?_⟩
    simp only [JobDef.attempt, listed, Option.getD_some, partitions]
  | reduce msg =>
    cases started
    obtain ⟨inputs, below⟩ := belongs
    exact ⟨below, by simp only [JobDef.attempt, inputs]⟩
  | wait | done => cases started

/-- Every attempt has made some of the calls of its program. -/
structure System.Underway (createdMs : UInt64) (job : JobDef) (qsort : QSort) (pid : Nat → Nat) (s : System) :
    Prop where
  serves : s.cluster.Serves createdMs job
  attempts : ∀ t p, s.pool.participants t = .running p →
    t.task < job.total t.kind ∧ ∃ calls, Makes (job.attempt qsort pid t) calls p

theorem System.Underway.started {s : System} (underway : s.Underway createdMs job qsort pid) (incident : Incident)
    {t : Ticket} {p : Proc Bool} (running : (s.started qsort pid incident).participants t = .running p) :
    t.task < job.total t.kind ∧ ∃ calls, Makes (job.attempt qsort pid t) calls p := by
  unfold System.started at running
  split at running
  next fd =>
    split at running
    next payload conn =>
      split at running
      next ticket program started =>
        by_cases same : t = ticket
        · -- A new attempt has made no call yet.
          subst same
          simp only [Config.spawn, Function.update_self, Participant.running.injEq] at running
          obtain ⟨response, read, belongs⟩ := underway.serves.answered fd payload conn
          obtain ⟨below, program_eq⟩ := startedBy_attempt read belongs started
          subst running program_eq
          exact ⟨below, [], .nil _⟩
        · simp only [Config.spawn, Function.update_of_ne same] at running
          exact underway.attempts t p running
      · exact underway.attempts t p running
    · exact underway.attempts t p running
  · exact underway.attempts t p running

theorem System.Underway.stepped {s : System} {pool : Pool} {action : Interference.Action Ticket Outcome}
    (underway : s.Underway createdMs job qsort pid) (taken : Interference.next Disk.serve s.pool action = some pool) :
    System.Underway createdMs job qsort pid ⟨s.cluster, pool⟩ := by
  refine ⟨underway.serves, fun t p running => ?_⟩
  obtain ⟨id, -, rfl⟩ | ⟨id, outcome, call, answered, answer, disk, here, -, rfl⟩ := next_cases taken
  · by_cases same : t = id
    · subst same
      simp only [Function.update_self] at running
      cases running
    · simp only [Function.update_of_ne same] at running
      exact underway.attempts t p running
  · by_cases same : t = id
    · subst same
      simp only [Function.update_self, Participant.running.injEq] at running
      subst running
      obtain ⟨below, calls, makes⟩ := underway.attempts t _ here
      exact ⟨below, _, makes.snoc answer⟩
    · simp only [Function.update_of_ne same] at running
      exact underway.attempts t p running

theorem System.Underway.next (s : System) (move : Move) (s' : System) (underway : s.Underway createdMs job qsort pid)
    (taken : s.next qsort pid move = some s') : s'.Underway createdMs job qsort pid := by
  cases move with
  | incident incident =>
    simp only [System.next] at taken
    split at taken
    · obtain ⟨c, survived, rfl⟩ := Option.map_eq_some_iff.mp taken
      exact ⟨underway.serves.survive survived, fun t p running => underway.started incident running⟩
    · cases taken
  | call ticket outcome =>
    obtain ⟨pool, stepped, rfl⟩ := Option.map_eq_some_iff.mp taken
    exact underway.stepped stepped
  | die ticket =>
    obtain ⟨pool, stepped, rfl⟩ := Option.map_eq_some_iff.mp taken
    exact underway.stepped stepped

theorem JobDef.attempt_keeps (apart : ∀ path ∈ job.paths, ¬ ascii "intermediate/" <+: cString path) {t : Ticket}
    (below : t.task < job.total t.kind) :
    Handles.Keeps (job.attempt qsort pid t) Handles.closed fun _ after => after = Handles.closed := by
  obtain ⟨process, kind, task, attempt⟩ := t
  cases kind with
  | map =>
    refine workerMapRun_keeps job.reduces_le (fun token => Nat.mod_lt _ job.reduces_pos) fun inside => ?_
    have entry : job.paths[task]? = some _ := List.getElem?_eq_getElem below
    rw [entry, Option.getD_some] at inside
    exact apart _ (List.getElem_mem below) ((stem_intermediate task).trans inside)
  | reduce => exact workerReduceRun_keeps qsort task attempt _ (Nat.one_le_iff_ne_zero.mp job.maps_pos) foldWordCount

theorem Disk.serve_answers {Id : Type} [DecidableEq Id] (id : Id) (c : FileCall) (d : Disk Id) :
    ∃ outcome result, Disk.serve id c outcome d = some result := by
  refine ⟨⟨false, 0⟩, ?_⟩
  cases c <;> exact ⟨_, rfl⟩

end

/-- On every run of the system each attempt is somewhere in the program of its task. Its streams were used by their
rules so far, it has returned with all of them closed or can make its next call, and nothing it does is undefined. -/
theorem attempts_orderly (config : MasterConfig) (job : JobDef) (fd : Nat) (createdMs : UInt64) (now realtime : Int)
    (qsort : QSort) (pid : Nat → Nat) (disk : Disk Ticket)
    (apart : ∀ path ∈ job.paths, ¬ ascii "intermediate/" <+: cString path) {moves : List Move} {s : System}
    (reached : Runs.run (System.next qsort pid) (.start config job fd createdMs now realtime disk) moves = some s)
    {t : Ticket} {p : Proc Bool} (running : s.pool.participants t = .running p) :
    ∃ calls opened, Makes (job.attempt qsort pid t) calls p ∧ Runs.run Handles.rule .closed calls = some opened ∧
      ((∃ ok, p = .done ok ∧ opened = .closed) ∨ ∃ outcome s', s.next qsort pid (.call t outcome) = some s') := by
  have start : System.Underway createdMs job qsort pid (.start config job fd createdMs now realtime disk) :=
    ⟨Cluster.start_serves config job fd createdMs now realtime, fun t p running => by cases running⟩
  have underway := Runs.run_invariant System.Underway.next start reached
  obtain ⟨below, calls, makes⟩ := underway.attempts t p running
  have keeps : Handles.Keeps (job.attempt qsort pid t) .closed fun _ after => after = .closed :=
    JobDef.attempt_keeps apart below
  obtain ⟨opened, watched, left⟩ := keeps.makes makes
  refine ⟨calls, opened, makes, watched, ?_⟩
  cases p with
  | done ok => exact .inl ⟨ok, rfl, left⟩
  | call c next =>
    obtain ⟨outcome, result, served⟩ := Disk.serve_answers t c s.pool.state
    have taken : s.next qsort pid (.call t outcome) = some ⟨s.cluster, result.2,
        Function.update s.pool.participants t (.running (next result.1))⟩ := by
      simp only [System.next, Interference.next, running, served, Option.map_some]
    exact .inr ⟨outcome, _, taken⟩
  | stuck => exact left.elim

/-- The map of the sample job makes ten calls. -/
theorem attempts_orderly_map :
    ∃ s calls, Runs.run (System.next .insertion id) .sample
        ([.connect workerA, .ask workerA, .deliver workerA .good, .receive workerA].map (.incident ∘ .action) ++
          goodCalls ⟨0, .map, 0, 1⟩ 10) = some s ∧
      s.pool.returned ⟨0, .map, 0, 1⟩ = some true ∧
      Makes (sampleJob.attempt .insertion id ⟨0, .map, 0, 1⟩) calls (.done true) ∧
      Runs.run Handles.rule .closed calls = some .closed := by
  have ran : (Runs.run (System.next .insertion id) .sample
      ([.connect workerA, .ask workerA, .deliver workerA .good, .receive workerA].map (.incident ∘ .action) ++
        goodCalls ⟨0, .map, 0, 1⟩ 10)).any (fun s => s.pool.returned ⟨0, .map, 0, 1⟩ == some true) = true := by
    decide +kernel
  obtain ⟨s, reached, returned⟩ := (Option.any_eq_true _ _).mp ran
  have ended := Config.returned_iff.mp (beq_iff_eq.mp returned)
  obtain ⟨calls, opened, makes, watched, ⟨ok, -, rfl⟩ | ⟨outcome, s', more⟩⟩ :=
    attempts_orderly sampleConfig sampleJob 3 0 0 0 .insertion id System.sampleDisk (by decide) reached ended
  · exact ⟨s, calls, reached, beq_iff_eq.mp returned, makes, watched⟩
  · simp only [System.next, Interference.next, ended, Option.map_none] at more
    cases more

end MapReduce
