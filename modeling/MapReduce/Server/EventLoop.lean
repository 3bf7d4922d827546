import MapReduce.Server.Application
import MapReduce.Sweeps

/-! The loop of `event_loop.c` and the timeouts it owes the master.

`server_init` installs `server_before_sleep`, which moves the clock and lets the
master sweep its overdue tasks. The loop tests that the procedure is installed,
but the call itself is commented out, so no pass ever ticks.
-/

set_option autoImplicit false

namespace MapReduce

/-! ## What a tick does -/

theorem masterPeriodic_enforces {m m' : Master} {now realtime : Int}
    (ticked : masterPeriodic m now realtime = some m') (tenth : (m.cronloops + 1) % 10 = 0) :
    m'.job.phase = .failed ∨
      ∀ kind i, m'.job.phase.kind? = some kind → i < m'.job.total kind → ¬ m'.Overdue kind i := by
  rcases masterPeriodic_cases ticked with ⟨rfl, ended⟩ | ⟨kind, phase, swept⟩
  · refine .inr fun kind i phase => ?_
    cases (ended tenth).symm.trans phase
  · rcases sweepFrom_overdue swept with failed | ⟨-, clear⟩
    · exact .inl failed
    refine .inr fun other i phase' inside => ?_
    rcases (sweepFrom_swept swept).job with same | failed
    · rw [same] at phase' inside
      cases phase.symm.trans phase'
      exact clear i (List.mem_range.mpr inside)
    · rw [failed] at phase'
      cases phase'

/-! ## The loop -/

def maxEvents : Nat := 64

inductive Ready (ε : Type) where
  | accept (result : Accept)
  | readable (fd : Fd) (result : SocketRead) (during : During ε)
  | writable (fd : Fd) (result : SocketWrite) (during : During ε)
  | shutdown

def Ready.event {ε : Type} : Ready ε → Server.Event ε
  | .accept result => .accept result
  | .readable fd result during => .readable fd result during
  | .writable fd result during => .writable fd result during
  | .shutdown => .shutdown

inductive Polled (ε : Type) where
  | interrupted
  | failed
  | ready (events : List (Ready ε))

/-- One pass: the two clocks at its beginning and the result of `kevent`. -/
structure Pass (ε : Type) where
  clock : Int
  realtime : Int
  polled : Polled ε

/-- The server, and whether `el_run` has returned an error. -/
structure Loop (σ : Type) where
  server : Server σ
  returned : Bool

section

variable {σ ε : Type}

def elPass (app : App σ ε) (l : Loop σ) (pass : Pass ε) : Option (Loop σ) :=
  if l.returned ∨ l.server.stop then none
  else
    -- The call `el->before_sleep_proc(el)` is commented out: the clocks are not read.
    match pass.polled with
    | .interrupted => some l
    | .failed => some { l with returned := true }
    | .ready events =>
      if events.length > maxEvents then none
      else (Runs.run (Server.next app) l.server (events.map Ready.event)).map fun s => { l with server := s }

variable {app : App σ ε}

theorem ready_clock (s : Server σ) (event : Ready ε) (after : Server σ) (taken : s.next app event.event = some after) :
    after.nowMs = s.nowMs ∧ after.cronloops = s.cronloops := by
  cases event with
  | accept result =>
    cases result with
    | refused => exact Option.some.inj taken ▸ ⟨rfl, rfl⟩
    | taken fd registered =>
      simp only [Ready.event, Server.next, Server.onAccept] at taken
      split at taken
      · cases taken
      · cases registered with
        | true => exact Option.some.inj taken ▸ ⟨rfl, rfl⟩
        | false => exact Option.some.inj taken ▸ ⟨rfl, rfl⟩
  | readable fd result during =>
    simp only [Ready.event, Server.next] at taken
    split at taken
    · have moved := Server.onRead_local taken
      exact ⟨moved.nowMs, moved.cronloops⟩
    · exact Option.some.inj taken ▸ ⟨rfl, rfl⟩
  | writable fd result during =>
    simp only [Ready.event, Server.next] at taken
    split at taken
    · have moved := Server.onWrite_local taken
      exact ⟨moved.nowMs, moved.cronloops⟩
    · exact Option.some.inj taken ▸ ⟨rfl, rfl⟩
  | shutdown => exact Option.some.inj taken ▸ ⟨rfl, rfl⟩

theorem run_ready_clock {s after : Server σ} {events : List (Ready ε)}
    (ran : Runs.run (Server.next app) s (events.map Ready.event) = some after) :
    after.nowMs = s.nowMs ∧ after.cronloops = s.cronloops := by
  induction events generalizing s with
  | nil =>
    cases ran
    exact ⟨rfl, rfl⟩
  | cons event rest ih =>
    obtain ⟨next, taken, remaining⟩ := Runs.run_cons.mp ran
    obtain ⟨now, loops⟩ := ready_clock s event next taken
    obtain ⟨now', loops'⟩ := ih remaining
    exact ⟨now'.trans now, loops'.trans loops⟩

theorem elPass_clock {l after : Loop σ} {pass : Pass ε} (taken : elPass app l pass = some after) :
    after.server.nowMs = l.server.nowMs ∧ after.server.cronloops = l.server.cronloops := by
  unfold elPass at taken
  split at taken
  · cases taken
  · split at taken
    · exact Option.some.inj taken ▸ ⟨rfl, rfl⟩
    · exact Option.some.inj taken ▸ ⟨rfl, rfl⟩
    · split at taken
      · cases taken
      · obtain ⟨s, ran, rfl⟩ := Option.map_eq_some_iff.mp taken
        exact run_ready_clock ran

end

/-- The server at the given time, in step with its copy in the master. -/
structure Server.InStep (s : Server World) (now loops ticks : Int) : Prop where
  nowMs : s.nowMs = now
  cronloops : s.cronloops = loops
  master : s.app.master.cronloops = ticks

theorem Server.InStep.cron {s : Server World} {now loops ticks : Int} (inStep : s.InStep now loops ticks) :
    (s.clientTimeoutsCron masterApp).InStep now loops ticks := by
  unfold clientTimeoutsCron checkClientTimeouts
  split
  · exact inStep
  · have remove : ∀ (s : Server World) (fd : Fd), s.InStep now loops ticks → (s.clients fd).active = true →
        (s.removeClient masterApp fd).InStep now loops ticks :=
      fun s fd inv _ => ⟨inv.nowMs, inv.cronloops, inv.master⟩
    refine checkFrom_invariant remove _ _ ?_
    exact ⟨inStep.nowMs, inStep.cronloops, inStep.master⟩

theorem serverBeforeSleep_enforces {s after : Server World} {now realtime : Int}
    (synced : s.app.master.cronloops = s.cronloops)
    (slept : s.serverBeforeSleep masterApp now realtime = some after) :
    after.cronloops = s.cronloops + 1 ∧ after.nowMs = now ∧
    (after.cronloops % 10 = 0 → after.app.master.job.phase = .failed ∨
      ∀ kind i, after.app.master.job.phase.kind? = some kind → i < after.app.master.job.total kind →
        ¬ after.app.master.Overdue kind i) := by
  unfold Server.serverBeforeSleep at slept
  obtain ⟨w, ticked, rfl⟩ := Option.map_eq_some_iff.mp slept
  have start : ({ s with nowMs := now, cronloops := s.cronloops + 1 } : Server World).InStep now (s.cronloops + 1)
      s.cronloops := ⟨rfl, rfl, synced⟩
  have inStep := start.cron
  refine ⟨inStep.cronloops, inStep.nowMs, fun tenth => ?_⟩
  obtain ⟨m, swept, rfl⟩ := Option.map_eq_some_iff.mp ticked
  refine masterPeriodic_enforces swept ?_
  rw [inStep.master]
  exact inStep.cronloops ▸ tenth

/-! ## What the loop promises -/

/-- After every pass the server has counted it, holds its clock reading and, every tenth time, has no running
task of the phase overdue unless the job has failed. -/
def TimeoutsEnforced (start : Loop World) (passes : List (Pass LogEnv)) : Prop :=
  ∀ earlier last l, earlier ++ [last] <+: passes → Runs.run (elPass masterApp) start (earlier ++ [last]) = some l →
    l.server.cronloops = earlier.length + 1 ∧ l.server.nowMs = last.clock ∧
    (l.server.cronloops % 10 = 0 → l.server.app.master.job.phase = .failed ∨
      ∀ kind i, l.server.app.master.job.phase.kind? = some kind → i < l.server.app.master.job.total kind →
        ¬ l.server.app.master.Overdue kind i)

/-- The loop keeps its promise exactly when it makes no pass at all. -/
theorem timeouts_enforced_iff {w : World} {now clientTimeoutS : Int} {passes : List (Pass LogEnv)} {l : Loop World}
    (reached : Runs.run (elPass masterApp) ⟨.init w now clientTimeoutS, false⟩ passes = some l) :
    TimeoutsEnforced ⟨.init w now clientTimeoutS, false⟩ passes ↔ passes = [] := by
  constructor
  · intro enforced
    cases passes with
    | nil => rfl
    | cons first rest =>
      -- Already the first pass is not counted.
      obtain ⟨next, taken, -⟩ := Runs.run_cons.mp reached
      obtain ⟨counted, -⟩ := enforced [] first next (by simp) (Runs.run_cons.mpr ⟨next, taken, rfl⟩)
      rw [(elPass_clock taken).2] at counted
      cases counted
  · rintro rfl earlier last l within
    simp at within

def silentWorker : List (Pass LogEnv) :=
  [⟨0, 0, .ready [.accept (.taken Server.sampleFd true),
      .readable Server.sampleFd (.data [0, 0, 0, 1, 1]) (Server.allWrites (.wrote bufSize))]⟩,
    ⟨5000, 5000, .interrupted⟩, ⟨60000, 60000, .ready []⟩]

theorem timeouts_enforced_iff_silent :
    ∃ l, Runs.run (elPass masterApp) ⟨Server.sample, false⟩ silentWorker = some l ∧
      ¬ TimeoutsEnforced ⟨Server.sample, false⟩ silentWorker := by
  have ran : (Runs.run (elPass masterApp) ⟨Server.sample, false⟩ silentWorker).any (fun _ => true) = true := by
    decide +kernel
  obtain ⟨l, reached, -⟩ := (Option.any_eq_true _ _).mp ran
  refine ⟨l, reached, fun enforced => ?_⟩
  have none_made := (timeouts_enforced_iff reached).mp enforced
  cases none_made

/-- A minute later the server has counted no pass, its clock stands still, and the task is still running though
the job gives an attempt one second. -/
theorem silent_worker_never_times_out :
    ∃ l t, Runs.run (elPass masterApp) ⟨Server.sample, false⟩ silentWorker = some l ∧ l.server.cronloops = 0 ∧
      l.server.nowMs = 0 ∧ l.server.app.master.task? .map 0 = some t ∧ t.state = .inProgress ∧
      60000 - t.startedAtMs > l.server.app.master.config.taskTimeoutMs := by
  have ran : (Runs.run (elPass masterApp) ⟨Server.sample, false⟩ silentWorker).any (fun l =>
      l.server.cronloops == 0 && (l.server.nowMs == 0 && (l.server.app.master.task? .map 0).any fun t =>
        t.state == .inProgress && decide (60000 - t.startedAtMs > l.server.app.master.config.taskTimeoutMs))) =
      true := by
    decide +kernel
  obtain ⟨l, reached, holds⟩ := (Option.any_eq_true _ _).mp ran
  simp only [Bool.and_eq_true, beq_iff_eq] at holds
  obtain ⟨loops, clock, held⟩ := holds
  obtain ⟨t, found, late⟩ := (Option.any_eq_true _ _).mp held
  simp only [Bool.and_eq_true, beq_iff_eq, decide_eq_true_eq] at late
  exact ⟨l, t, reached, loops, clock, found, late⟩

end MapReduce
