import MapReduce.Responses
import MapReduce.Server.Application

/-! The job of a log.

The headers of the log are written before the first worker connects, and nothing
rewrites them: records are appended behind them, whole or torn. Whatever a crash
leaves behind the headers, a master that boots from the log therefore serves the
job it was created for, whatever its configuration says by then.
-/

set_option autoImplicit false

namespace MapReduce

/-! ## The job stays as it is -/

theorem SameCore.holds {job : JobDef} {m m' : Master} (core : SameCore m m') (holds : m.Holds job) : m'.Holds job where
  total kind := by rw [core.job, holds.total kind]
  path i path listed := by
    rw [core.maps]
    exact holds.path i path listed

theorem Effect.holds {job : JobDef} {w : World} {c : Callback} {r : Reply} (effect : Effect w c r)
    (holds : w.master.Holds job) : r.master.Holds job where
  total kind := (effect.job.total kind).trans (holds.total kind)
  path i path listed := by
    obtain ⟨t, found, named, length⟩ := holds.path i path listed
    have there : w.master.task? .map i = some t := found
    obtain ⟨t', after, move⟩ := effect.task there
    exact ⟨t', after, move.path.1.trans named, move.path.2.trans length⟩

theorem Effect.log_grows {w : World} {c : Callback} {r : Reply} (effect : Effect w c r) (opened : 0 ≤ w.master.aofFd) :
    w.log <+: r.log := by
  cases effect with
  | quiet _ log | assigned _ _ _ _ _ _ log | released _ _ _ log | swept _ _ log => exact log ▸ List.prefix_rfl
  | completed _ _ _ log =>
    rw [log opened]
    exact List.prefix_append _ _

/-! ## Loading -/

theorem markCompleted_path {capacity id i : Nat} {tasks tasks' : Table capacity Task} {t : Task}
    (marked : markCompleted tasks id = .ok tasks') (found : tasks.read i = some t) :
    ∃ t', tasks'.read i = some t' ∧ t'.inputPath = t.inputPath ∧ t'.inputPathLen = t.inputPathLen := by
  obtain ⟨u, before, rfl⟩ := markCompleted_ok marked
  by_cases here : i = id
  · subst here
    cases before.symm.trans found
    exact ⟨_, Table.read_write_self _ found, rfl, rfl⟩
  · rw [Table.read_write, if_neg here]
    exact ⟨t, found, rfl, rfl⟩

theorem replayRecord_path {M R i : Nat} {s s' : Replay} {record : AofRecord} {t : Task}
    (replayed : replayRecord M R s record = .ok s') (found : s.maps.read i = some t) :
    ∃ t', s'.maps.read i = some t' ∧ t'.inputPath = t.inputPath ∧ t'.inputPathLen = t.inputPathLen := by
  rcases replayRecord_ok replayed with ⟨-, -, maps, marked, rfl⟩ | ⟨-, -, reduces, -, rfl⟩ | ⟨-, rfl⟩
  · exact markCompleted_path marked found
  · exact ⟨t, found, rfl, rfl⟩
  · exact ⟨t, found, rfl, rfl⟩

theorem replayLoop_path {M R fuel i : Nat} {file : Bytes} {s s' : Replay} {t : Task}
    (replayed : replayLoop M R fuel file s = .ok s') (found : s.maps.read i = some t) :
    ∃ t', s'.maps.read i = some t' ∧ t'.inputPath = t.inputPath ∧ t'.inputPathLen = t.inputPathLen := by
  induction fuel generalizing file s t with
  | zero => cases replayed
  | succ fuel ih =>
    simp only [replayLoop, bind, Except.bind] at replayed
    split at replayed
    · cases replayed
    next answer read =>
      split at replayed
      · cases replayed
        exact ⟨t, found, rfl, rfl⟩
      · split at replayed
        · cases replayed
        next mid step =>
          obtain ⟨u, marked, path, length⟩ := replayRecord_path step found
          obtain ⟨t', last, path', length'⟩ := ih replayed marked
          exact ⟨t', last, path'.trans path, length'.trans length⟩

theorem aofLoad_holds {config : MasterConfig} {createdMs : UInt64} {job : JobDef} {log : Bytes} {m : Master}
    (headers : logBytes createdMs job [] <+: log) (loaded : aofLoad (Master.zero config) log = .ok m) :
    m.Holds job := by
  obtain ⟨rest, rfl⟩ := headers
  have split : logBytes createdMs job [] ++ rest = aofFileHeader createdMs ++ (job.header ++ rest) := by
    simp [logBytes]
  rw [split, aofLoad_headers] at loaded
  cases replayed : replayLoop job.M job.R (rest.length + 1) rest
      ⟨mapTable job.paths, resetPrefix (Table.fill .zero) job.R, 0, 0⟩ with
  | error stop =>
    rw [replayed] at loaded
    cases loaded
  | ok s =>
    rw [replayed] at loaded
    cases loaded
    refine ⟨fun kind => ?_, fun i path listed => ?_⟩
    · rw [maybeAdvancePhase_map _ rfl]
      cases kind <;> rfl
    · rw [maybeAdvancePhase_map _ rfl]
      obtain ⟨t, found, named, length⟩ := (Master.fresh_holds config job).path i path listed
      obtain ⟨t', last, path', length'⟩ := replayLoop_path replayed found
      exact ⟨t', last, path'.trans named, length'.trans length⟩

theorem masterBootstrapJob_loaded {config : MasterConfig} {entries : List DirEntry} {log : Bytes} {env : InitEnv}
    {w : World} (written : log ≠ []) (booted : masterBootstrapJob config entries log env = some w) :
    ∃ m fd, aofLoad (Master.zero config) log = .ok m ∧ w = ⟨{ m with aofFd := Int.ofNat fd }, log⟩ := by
  unfold masterBootstrapJob at booted
  simp only [if_neg written, Option.bind_eq_bind] at booted
  obtain ⟨m, ready, booted⟩ := Option.bind_eq_some_iff.mp booted
  cases loaded : aofLoad (Master.zero config) log with
  | error stop =>
    rw [loaded] at ready
    cases ready
  | ok found =>
    rw [loaded] at ready
    cases ready
    unfold aofInit at booted
    cases opened : env.opened with
    | none => simp [opened] at booted
    | some fd =>
      simp only [opened, ne_eq, written, not_false_eq_true, ↓reduceIte] at booted
      exact ⟨m, fd, rfl, (Option.some.inj booted).symm⟩

theorem aofInit_master {m started : Master} {file log : Bytes} {env : InitEnv} {ok : Bool}
    (init : aofInit m file env = some (started, log, ok)) : ∃ fd, started = { m with aofFd := fd } := by
  unfold aofInit at init
  split at init
  · cases init
    exact ⟨_, rfl⟩
  · split at init
    · cases init
      exact ⟨_, rfl⟩
    · simp only at init
      split at init
      · obtain ⟨⟨written, job⟩, _, same⟩ := Option.map_eq_some_iff.mp init
        simp only at same
        split at same <;> cases same <;> exact ⟨_, rfl⟩
      · cases init
        exact ⟨_, rfl⟩

theorem masterBootstrapJob_booked {config : MasterConfig} {entries : List DirEntry} {file : Bytes} {env : InitEnv}
    {w : World} (booted : masterBootstrapJob config entries file env = some w) (now realtime : Int) :
    (masterInit w.master now realtime).Booked := by
  have opened : ∀ {m : Master}, m.Unused →
      ((aofInit m file env).bind fun started => if started.2.2 = true then some ⟨started.1, started.2.1⟩ else none) =
        some w → (masterInit w.master now realtime).Booked := by
    intro m unused opened
    obtain ⟨⟨started, log, ok⟩, init, opened⟩ := Option.bind_eq_some_iff.mp opened
    obtain ⟨fd, rfl⟩ := aofInit_master init
    split at opened
    · cases opened
      exact unused.booked [] fd now realtime
    · cases opened
  unfold masterBootstrapJob at booted
  simp only [Option.bind_eq_bind] at booted
  split at booted
  · obtain ⟨m, ready, rest⟩ := Option.bind_eq_some_iff.mp booted
    exact opened (Booted.fresh ready).unused rest
  · obtain ⟨m, ready, rest⟩ := Option.bind_eq_some_iff.mp booted
    cases loaded : aofLoad (Master.zero config) file with
    | ok found =>
      rw [loaded] at ready
      cases ready
      exact opened (Booted.loaded loaded).unused rest
    | error e =>
      rw [loaded] at ready
      cases ready

/-! ## The worlds of a job -/

/-- The master serves the job its log was created for. -/
structure World.Serves (createdMs : UInt64) (job : JobDef) (w : World) : Prop where
  log : logBytes createdMs job [] <+: w.log
  opened : 0 ≤ w.master.aofFd
  holds : w.master.Holds job
  booked : w.master.Booked

section
variable {createdMs : UInt64} {job : JobDef}

theorem World.start_serves (config : MasterConfig) (job : JobDef) (fd : Nat) (createdMs : UInt64) (now realtime : Int) :
    (World.start config job fd createdMs now realtime).Serves createdMs job where
  log := List.prefix_rfl
  opened := Int.natCast_nonneg fd
  holds := ⟨(Master.fresh_holds config job).total, (Master.fresh_holds config job).path⟩
  booked := (fresh_unused config job).booked (logBytes createdMs job []) fd now realtime

theorem World.Serves.next {w w' : World} {c : Callback} (serves : w.Serves createdMs job) (taken : w.next c = some w') :
    w'.Serves createdMs job := by
  have booked := next_booked serves.booked taken
  obtain ⟨r, returned, rfl⟩ := Option.map_eq_some_iff.mp taken
  have effect := callback_effect returned
  refine ⟨serves.log.trans (effect.log_grows serves.opened), ?_, effect.holds serves.holds, booked⟩
  rw [effect.aofFd]
  exact serves.opened

theorem World.Serves.written {w : World} (serves : w.Serves createdMs job) : w.log ≠ [] := by
  intro empty
  have headers := serves.log
  rw [empty, List.prefix_nil] at headers
  exact logBytes_nonempty createdMs job [] headers

theorem World.Serves.boot {w w' : World} {config : MasterConfig} {entries : List DirEntry} {env : InitEnv}
    (serves : w.Serves createdMs job) (booted : masterBootstrapJob config entries w.log env = some w')
    (now realtime : Int) : World.Serves createdMs job { w' with master := masterInit w'.master now realtime } := by
  have booked := masterBootstrapJob_booked booted now realtime
  obtain ⟨m, fd, loaded, rfl⟩ := masterBootstrapJob_loaded serves.written booted
  have holds := aofLoad_holds serves.log loaded
  exact ⟨serves.log, Int.natCast_nonneg fd, ⟨holds.total, holds.path⟩, booked⟩

end

/-! ## Responses in flight -/

theorem Cluster.answered_of_delivered {c : Cluster} {fd other : Fd} {env : Env} {r : Reply} {bytes payload : Bytes}
    (outgoing : (c.conns other).outgoing = some bytes)
    (answered : (c.delivered other env r).conns fd = .answered payload) :
    c.conns fd = .answered payload ∨ fd = other ∧ c.conns fd = .requested ∧ bytes = [RpcKind.getTaskReq.code] ∧
      r.sent = some payload := by
  by_cases here : fd = other
  · subst here
    rcases c.delivered_conns fd env r with ⟨_, sent, reply, _, conns⟩ | conns
    · rw [conns, Function.update_self] at answered
      rcases Conn.outgoing_some outgoing with ⟨conn, asked⟩ | ⟨kind, msg, conn, _⟩
      · rw [conn] at answered
        cases answered
        exact .inr ⟨rfl, conn, asked, reply⟩
      · -- The reply to a report is an acknowledgement.
        rw [conn] at answered
        cases answered
    · rw [conns, Function.update_self] at answered
      cases answered
  · rcases c.delivered_conns other env r with ⟨_, _, _, _, conns⟩ | conns
    · rw [conns, Function.update_of_ne here] at answered
      exact .inl answered
    · rw [conns, Function.update_of_ne here] at answered
      exact .inl answered

theorem Cluster.next_answered {c c' : Cluster} {action : Action} (taken : c.next action = some c') {fd : Fd}
    {payload : Bytes} (answered : c'.conns fd = .answered payload) :
    c.conns fd = .answered payload ∨ ∃ env r, action = .deliver fd env ∧ c.conns fd = .requested ∧
      callback c.world (.message fd [RpcKind.getTaskReq.code] env) = some r ∧ r.sent = some payload := by
  have elsewhere : ∀ (d : Cluster) (other : Fd) (conn : Conn), (∀ sent, conn ≠ .answered sent) →
      d.conns = c.conns → (d.setConn other conn).conns fd = .answered payload → c.conns fd = .answered payload := by
    intro d other conn silent same found
    by_cases here : fd = other
    · subst here
      rw [d.setConn_self] at found
      exact absurd found (silent payload)
    · rwa [d.setConn_ne conn here, same] at found
  cases action with
  | connect other | ask other | finish other | disconnect other =>
    simp only [next] at taken
    split at taken <;> cases taken
    exact .inl (elsewhere _ other _ (by simp) rfl answered)
  | deliver other env =>
    simp only [next, Option.bind_eq_bind, Option.bind_eq_some_iff] at taken
    obtain ⟨bytes, outgoing, r, returned, same⟩ := taken
    cases same
    rcases answered_of_delivered outgoing answered with before | ⟨rfl, conn, rfl, reply⟩
    · exact .inl before
    · exact .inr ⟨env, r, rfl, conn, returned, reply⟩
  | receive other =>
    simp only [next] at taken
    split at taken <;> cases taken
    refine .inl (elsewhere _ other _ ?_ rfl answered)
    intro sent
    unfold Conn.received
    split <;> simp
  | confirm other =>
    simp only [next] at taken
    split at taken <;> cases taken
    exact .inl (elsewhere _ other _ (by split <;> simp) rfl answered)
  | periodic now realtime =>
    simp only [next] at taken
    split at taken
    · obtain ⟨r, _, rfl⟩ := Option.map_eq_some_iff.mp taken
      exact .inl answered
    · cases taken

def Response.Of (job : JobDef) : Response → Prop
  | .map msg => msg.nReduce.toNat = job.R ∧ job.paths[msg.taskId.toNat]? = some msg.inputPath
  | .reduce msg => msg.nMap.toNat = job.M ∧ msg.taskId.toNat < job.R
  | .wait _ | .done => True

theorem Response.About.of {job : JobDef} {m : Master} {response : Response} (about : response.About m)
    (holds : m.Holds job) : response.Of job := by
  have maps : m.job.M = job.M := holds.total .map
  have reduces : m.job.R = job.R := holds.total .reduce
  cases response with
  | map msg =>
    obtain ⟨below, partitions, t, found, _, _, path⟩ := about
    have inside : msg.taskId.toNat < job.M := maps ▸ below
    have entry : job.paths[msg.taskId.toNat]? = some _ := List.getElem?_eq_getElem inside
    obtain ⟨u, there, named, -⟩ := holds.path _ _ entry
    cases found.symm.trans there
    exact ⟨partitions.trans reduces, by rw [entry, path, named]⟩
  | reduce msg =>
    obtain ⟨below, inputs, _⟩ := about
    exact ⟨inputs.trans maps, reduces ▸ below⟩
  | wait | done => trivial

/-! ## Runs of the cluster -/

theorem Cluster.next_drives {c c' : Cluster} {action : Action} (taken : c.next action = some c') :
    Drives c.world c'.world := by
  cases action with
  | connect fd =>
    simp only [next] at taken
    split at taken <;> cases taken
    exact .one (.connect fd) rfl
  | ask fd | finish fd success | receive fd | confirm fd =>
    simp only [next] at taken
    split at taken <;> cases taken
    exact .refl _
  | deliver fd env =>
    simp only [next, Option.bind_eq_bind, Option.bind_eq_some_iff] at taken
    obtain ⟨payload, -, r, returned, same⟩ := taken
    cases same
    have handled : Drives c.world r.toWorld :=
      .one (.message fd payload env) (by rw [World.next, returned, Option.map_some])
    unfold delivered
    simp only
    split
    · exact handled
    · exact handled.trans (.one (.disconnect fd) rfl)
  | disconnect fd =>
    simp only [next] at taken
    split at taken <;> cases taken
    exact .one (.disconnect fd) rfl
  | periodic now realtime =>
    simp only [next] at taken
    split at taken
    · obtain ⟨r, returned, rfl⟩ := Option.map_eq_some_iff.mp taken
      exact .one (.periodic now realtime) (by rw [World.next, returned, Option.map_some])
    · cases taken

theorem Drives.booked {w after : World} (driven : Drives w after) (booked : w.master.Booked) : after.master.Booked := by
  obtain ⟨callbacks, reached⟩ := driven
  exact Runs.run_invariant (fun _ _ _ booked taken => next_booked booked taken) booked reached

theorem Drives.serves {createdMs : UInt64} {job : JobDef} {w after : World} (driven : Drives w after)
    (serves : w.Serves createdMs job) : after.Serves createdMs job := by
  obtain ⟨callbacks, reached⟩ := driven
  exact Runs.run_invariant (fun _ _ _ serves taken => serves.next taken) serves reached

/-- The master serves the job, and so does every response that is under way. -/
structure Cluster.Serves (createdMs : UInt64) (job : JobDef) (c : Cluster) : Prop where
  world : c.world.Serves createdMs job
  answered : ∀ fd payload, c.conns fd = .answered payload →
    ∃ response, taskResponse payload = some response ∧ response.Of job

theorem Cluster.start_serves (config : MasterConfig) (job : JobDef) (fd : Nat) (createdMs : UInt64)
    (now realtime : Int) : (Cluster.start config job fd createdMs now realtime).Serves createdMs job :=
  ⟨World.start_serves config job fd createdMs now realtime, by simp [Cluster.start]⟩

theorem Cluster.Serves.survive {createdMs : UInt64} {job : JobDef} {c c' : Cluster} {incident : Incident}
    (serves : c.Serves createdMs job) (taken : c.survive incident = some c') : c'.Serves createdMs job := by
  cases incident with
  | action action =>
    refine ⟨(Cluster.next_drives taken).serves serves.world, fun fd payload answered => ?_⟩
    rcases Cluster.next_answered taken answered with before | ⟨env, r, _, _, returned, sent⟩
    · exact serves.answered fd payload before
    · obtain ⟨response, read, about⟩ := masterHandleGetTask_about serves.world.booked.answers returned sent
      exact ⟨response, read, about.of serves.world.holds⟩
  | crash aofFd now realtime =>
    obtain ⟨w, booted, rfl⟩ := Option.map_eq_some_iff.mp taken
    exact ⟨serves.world.boot booted now realtime, by simp⟩

/-- Through crashes, lost writes to the log and restarts the master serves the job the log was created for, and so
do the responses under way. Whoever boots from the log later, with whatever configuration and input directory,
serves that job too and leaves the log as it is. -/
theorem job_kept (config : MasterConfig) (job : JobDef) (fd : Nat) (createdMs : UInt64) (now realtime : Int)
    {incidents : List Incident} {c : Cluster}
    (reached : Runs.run Cluster.survive (Cluster.start config job fd createdMs now realtime) incidents = some c) :
    c.world.master.Holds job ∧
      (∀ fd payload, c.conns fd = .answered payload → ∃ response, taskResponse payload = some response ∧
        response.Of job) ∧
      ∀ config' entries env w, masterBootstrapJob config' entries c.world.log env = some w →
        w.master.Holds job ∧ w.log = c.world.log := by
  have serves : c.Serves createdMs job := Runs.run_invariant (fun _ _ _ serves taken => serves.survive taken)
    (Cluster.start_serves config job fd createdMs now realtime) reached
  refine ⟨serves.world.holds, serves.answered, fun config' entries env w booted => ?_⟩
  obtain ⟨m, opened, loaded, rfl⟩ := masterBootstrapJob_loaded serves.world.written booted
  have holds := aofLoad_holds serves.world.log loaded
  exact ⟨⟨holds.total, holds.path⟩, rfl⟩

/-- The master crashes with a task handed out, and the one that boots next is configured for seven reduces. -/
theorem job_kept_configured :
    ∃ c w, Runs.run Cluster.survive (Cluster.start sampleConfig sampleJob 3 0 0 0)
        [.action (.connect workerA), .action (.ask workerA), .action (.deliver workerA .good), .crash 3 5000 0] =
          some c ∧
      masterBootstrapJob ⟨7, 1000, [0x69, 0x6e]⟩ [] c.world.log (.good 4 0) = some w ∧
      w.master.job.total .reduce = 1 := by
  have ran : (Runs.run Cluster.survive (Cluster.start sampleConfig sampleJob 3 0 0 0)
      [.action (.connect workerA), .action (.ask workerA), .action (.deliver workerA .good), .crash 3 5000 0]).any
        (fun c => (masterBootstrapJob ⟨7, 1000, [0x69, 0x6e]⟩ [] c.world.log (.good 4 0)).isSome) = true := by
    decide +kernel
  obtain ⟨c, reached, boots⟩ := (Option.any_eq_true _ _).mp ran
  obtain ⟨w, booted⟩ := Option.isSome_iff_exists.mp boots
  obtain ⟨-, -, later⟩ := job_kept sampleConfig sampleJob 3 0 0 0 reached
  exact ⟨c, w, reached, booted, (later _ _ _ w booted).1.total .reduce⟩

end MapReduce
