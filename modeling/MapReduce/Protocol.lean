import MapReduce.Cluster
import MapReduce.Durability

/-! What the attempt check protects, and what it does not.

A connection that has been handed a task holds a token: kind, id and attempt.
As long as every accepted report is looked up in the table of its own kind, a
token is spent at most once, so the log holds one record for each completed task
and every completed task was reported by a worker that was handed it.
-/

set_option autoImplicit false

namespace MapReduce

/-! ## Tokens -/

/-- The task a connection was handed and has not been acknowledged for. -/
def Conn.token : Conn → Option (TaskKind × Nat × Nat)
  | .answered payload =>
    match decodeResponse payload with
    | some (.task kind taskId attemptId) => some (kind, taskId.toNat, attemptId.toNat)
    | _ => none
  | .running kind taskId attemptId => some (kind, taskId.toNat, attemptId.toNat)
  | .reported kind msg => some (kind, msg.taskId.toNat, msg.attemptId.toNat)
  | _ => none

/-- The slot still names the token's task, and a completed task has moved past its attempt. -/
structure TokenOk (m : Master) (fd : Fd) (kind : TaskKind) (i attempt : Nat) : Prop where
  slotKind : (m.workers fd).currentKind = some kind
  slotTask : (m.workers fd).currentTaskId = i
  live : ∃ t, m.task? kind i = some t ∧ 1 ≤ attempt ∧ attempt ≤ t.currentAttempt ∧
    (t.state = .completed → attempt < t.currentAttempt)

structure Tokens (m : Master) (conns : Fd → Conn) : Prop where
  ok : ∀ fd kind i attempt, (conns fd).token = some (kind, i, attempt) → TokenOk m fd kind i attempt
  unique : ∀ fd other token, (conns fd).token = some token → (conns other).token = some token → fd = other
  phase : ∀ fd i attempt, (conns fd).token = some (.reduce, i, attempt) → m.job.phase ≠ .map

theorem JobMove.phase_ne_map {job job' : Job} {marked : Option (TaskKind × Nat)}
    (move : JobMove job marked job') (past : job.phase ≠ .map) : job'.phase ≠ .map := by
  cases move with
  | keep => exact past
  | fail => simp
  | @count kind =>
    have same : (job.countDone kind).phase ≠ .map := by cases kind <;> exact past
    unfold Job.advance
    simp only [same, false_and, ↓reduceIte]
    split
    · simp
    · exact same

theorem TokenOk.step {w : World} {c : Callback} {r : Reply} {fd : Fd} {kind : TaskKind} {i attempt : Nat}
    (ok : TokenOk w.master fd kind i attempt) (effect : Effect w c r)
    (slot : r.master.workers fd = w.master.workers fd)
    (unspent : ∀ sender payload env msg t, c = .message sender payload env →
      Accepted w.master sender payload msg kind t → i = (w.master.workers sender).currentTaskId →
      attempt ≠ t.currentAttempt) : TokenOk r.master fd kind i attempt where
  slotKind := slot ▸ ok.slotKind
  slotTask := slot ▸ ok.slotTask
  live := by
    obtain ⟨t, found, first, last, completed⟩ := ok.live
    obtain ⟨t', after, move⟩ := effect.task found
    refine ⟨t', after, first, ?_⟩
    cases move with
    | keep => exact ⟨last, completed⟩
    -- A new attempt leaves every older token behind.
    | assign => exact ⟨Nat.le_succ_of_le last, by simp [Task.assigned]⟩
    | succeed accepted at_slot =>
      -- The report that completes the task carries the current attempt, and this token is not its own.
      have fresh := unspent _ _ _ _ _ rfl accepted at_slot
      exact ⟨last, fun _ => Nat.lt_of_le_of_ne last fresh⟩
    | fail | timeout => exact ⟨last, fun now => absurd now (t.ended_state_ne_completed _ _ _)⟩

theorem TokenOk.core {m m' : Master} {fd : Fd} {kind : TaskKind} {i attempt : Nat}
    (ok : TokenOk m fd kind i attempt) (core : SameCore m m') (slot : m'.workers fd = m.workers fd) :
    TokenOk m' fd kind i attempt where
  slotKind := slot ▸ ok.slotKind
  slotTask := slot ▸ ok.slotTask
  live := by
    rw [core.task?]
    exact ok.live

theorem Tokens.shrink {w : World} {c : Callback} {r : Reply} {m : Master} {conns after : Fd → Conn}
    (tokens : Tokens w.master conns) (effect : Effect w c r) (core : SameCore r.master m)
    (kept : ∀ fd token, (after fd).token = some token → (conns fd).token = some token ∧
      r.master.workers fd = w.master.workers fd ∧ m.workers fd = r.master.workers fd)
    (unspent : ∀ fd sender payload env msg kind t, c = .message sender payload env →
      Accepted w.master sender payload msg kind t →
      (after fd).token ≠ some (kind, (w.master.workers sender).currentTaskId, t.currentAttempt)) :
    Tokens m after where
  ok fd kind i attempt held := by
    obtain ⟨before, slot, same⟩ := kept fd _ held
    refine ((tokens.ok fd kind i attempt before).step effect slot ?_).core core same
    rintro sender payload env msg t sent accepted rfl rfl
    exact unspent fd sender payload env msg kind t sent accepted held
  unique fd other token first second := tokens.unique fd other token (kept fd _ first).1 (kept other _ second).1
  phase fd i attempt held := by
    rw [core.job]
    exact effect.job.phase_ne_map (tokens.phase fd i attempt (kept fd _ held).1)

theorem Tokens.add {m : Master} {conns : Fd → Conn} {fd : Fd} {conn : Conn} {kind : TaskKind} {i attempt : Nat}
    (tokens : Tokens m (Function.update conns fd .closed)) (token : conn.token = some (kind, i, attempt))
    (ok : TokenOk m fd kind i attempt)
    (fresh : ∀ other, other ≠ fd → (conns other).token ≠ some (kind, i, attempt))
    (phase : kind = .reduce → m.job.phase ≠ .map) : Tokens m (Function.update conns fd conn) := by
  -- Every other connection is as it was.
  have old : ∀ {other held}, other ≠ fd → ((Function.update conns fd conn) other).token = some held →
      (conns other).token = some held ∧ ((Function.update conns fd .closed) other).token = some held := by
    intro other held differs found
    rw [Function.update_of_ne differs] at found ⊢
    exact ⟨found, found⟩
  have mine : ∀ {held}, ((Function.update conns fd conn) fd).token = some held → held = (kind, i, attempt) := by
    intro held found
    rw [Function.update_self, token] at found
    exact (Option.some.inj found).symm
  refine ⟨?_, ?_, ?_⟩
  · intro other k j n held
    by_cases same : other = fd
    · subst same
      cases mine held
      exact ok
    · exact tokens.ok other k j n (old same held).2
  · intro first second held left right
    by_cases isFirst : first = fd <;> by_cases isSecond : second = fd
    · rw [isFirst, isSecond]
    · subst isFirst
      cases mine left
      exact absurd (old isSecond right).1 (fresh second isSecond)
    · subst isSecond
      cases mine right
      exact absurd (old isFirst left).1 (fresh first isFirst)
    · exact tokens.unique first second held (old isFirst left).2 (old isSecond right).2
  · intro other j n held
    by_cases same : other = fd
    · subst same
      cases mine held
      exact phase rfl
    · exact tokens.phase other j n (old same held).2

/-! ## What a step can do -/

theorem received_token (payload : Bytes) : (Conn.received payload).token = (Conn.answered payload).token := by
  unfold Conn.received
  cases decoded : decodeResponse payload with
  | none => simp [Conn.token, decoded]
  | some response => cases response <;> simp [Conn.token, decoded]

theorem received_ne_reported (payload : Bytes) (kind : TaskKind) (msg : TaskDoneReq) :
    Conn.received payload ≠ .reported kind msg := by
  unfold Conn.received
  split <;> simp

/-- Every step resets one connection, moves one connection on its own side, delivers a message or ticks. -/
inductive Step (c : Cluster) : Action → Cluster → Prop
  | reset {action : Action} {fd : Fd} {conn : Conn} (slot : Worker) (serial : Fd → Nat) (opened : Nat)
      (serials : ∀ other, other ≠ fd → serial other = c.serial other) (empty : conn.token = none)
      (silent : ∀ kind msg, conn ≠ .reported kind msg) :
      Step c action ((Cluster.setMaster { c with serial := serial, opened := opened }
        (c.world.master.setWorker fd slot)).setConn fd conn)
  | moved {action : Action} {fd : Fd} {conn : Conn} {more : List Happened}
      (held : ∀ token, conn.token = some token → (c.conns fd).token = some token)
      (told : ∀ kind msg, conn = .reported kind msg →
        .reported (c.serial fd) kind msg.taskId.toNat msg.attemptId.toNat msg.result ∈ more)
      (one : more.length ≤ 1) (unhanded : ∀ serial kind i attempt, .handed serial kind i attempt ∉ more) :
      Step c action ((c.observe more).setConn fd conn)
  | delivered {fd : Fd} {env : Env} {payload : Bytes} {r : Reply} (outgoing : (c.conns fd).outgoing = some payload)
      (returned : callback c.world (.message fd payload env) = some r) :
      Step c (.deliver fd env) (c.delivered fd env r)
  | ticked {now realtime : Int} {r : Reply} (returned : callback c.world (.periodic now realtime) = some r) :
      Step c (.periodic now realtime) { c with world := r.toWorld }

theorem Step.quiet {c : Cluster} {action : Action} {fd : Fd} {conn : Conn}
    (held : ∀ token, conn.token = some token → (c.conns fd).token = some token)
    (silent : ∀ kind msg, conn ≠ .reported kind msg) : Step c action (c.setConn fd conn) := by
  have step : Step c action ((c.observe []).setConn fd conn) :=
    .moved held (fun kind msg same => absurd same (silent kind msg)) (Nat.zero_le _) (by simp)
  rwa [Cluster.observe_nil] at step

theorem Cluster.next_step {c c' : Cluster} {action : Action} (taken : c.next action = some c') : Step c action c' := by
  cases action with
  | connect fd =>
    simp only [next] at taken
    split at taken <;> cases taken
    exact .reset _ _ _ (fun _ differs => Function.update_of_ne differs _ _) rfl (by simp)
  | ask fd =>
    simp only [next] at taken
    split at taken <;> cases taken
    exact .quiet (by simp [Conn.token]) (by simp)
  | deliver fd env =>
    simp only [next, Option.bind_eq_bind, Option.bind_eq_some_iff] at taken
    obtain ⟨payload, outgoing, r, returned, same⟩ := taken
    cases same
    exact .delivered outgoing returned
  | receive fd =>
    simp only [next] at taken
    split at taken <;> cases taken
    next payload conn =>
      refine .quiet ?_ (received_ne_reported payload)
      rw [received_token, conn]
      exact fun _ held => held
  | finish fd success =>
    simp only [next] at taken
    split at taken <;> cases taken
    next kind taskId attemptId conn =>
      refine .moved ?_ ?_ (Nat.le_refl 1) (by simp)
      · rw [conn]
        exact fun _ held => held
      · rintro _ _ ⟨⟩
        exact List.mem_singleton_self _
  | confirm fd =>
    simp only [next] at taken
    split at taken <;> cases taken
    exact .quiet (by split <;> simp [Conn.token]) (by split <;> simp)
  | disconnect fd =>
    simp only [next] at taken
    split at taken <;> cases taken
    exact .reset .zero c.serial c.opened (fun _ _ => rfl) rfl (by simp)
  | periodic now realtime =>
    simp only [next] at taken
    split at taken
    · obtain ⟨r, returned, rfl⟩ := Option.map_eq_some_iff.mp taken
      exact .ticked returned
    · cases taken

/-! ## Tracing completions back to workers -/

/-- A worker that was handed this task has reported its success. -/
def Witnessed (trace : List Happened) (kind : TaskKind) (i : Nat) : Prop :=
  ∃ serial attempt, .handed serial kind i attempt ∈ trace ∧ .reported serial kind i attempt 0 ∈ trace

theorem Witnessed.mono {trace : List Happened} {kind : TaskKind} {i : Nat} (seen : Witnessed trace kind i)
    (more : List Happened) : Witnessed (trace ++ more) kind i := by
  obtain ⟨serial, attempt, handed, reported⟩ := seen
  exact ⟨serial, attempt, List.mem_append_left _ handed, List.mem_append_left _ reported⟩

/-- The trace knows what every connection was handed and has reported. -/
structure Seen (c : Cluster) : Prop where
  handed : ∀ fd kind i attempt, (c.conns fd).token = some (kind, i, attempt) →
    .handed (c.serial fd) kind i attempt ∈ c.trace
  reported : ∀ fd kind msg, c.conns fd = .reported kind msg →
    .reported (c.serial fd) kind msg.taskId.toNat msg.attemptId.toNat msg.result ∈ c.trace

theorem Seen.update {c c' : Cluster} {fd : Fd} {conn : Conn} {more : List Happened} (seen : Seen c)
    (conns : c'.conns = Function.update c.conns fd conn) (trace : c'.trace = c.trace ++ more)
    (serials : ∀ other, other ≠ fd → c'.serial other = c.serial other)
    (held : ∀ kind i attempt, conn.token = some (kind, i, attempt) →
      .handed (c'.serial fd) kind i attempt ∈ c'.trace)
    (told : ∀ kind msg, conn = .reported kind msg →
      .reported (c'.serial fd) kind msg.taskId.toNat msg.attemptId.toNat msg.result ∈ c'.trace) : Seen c' where
  handed other kind i attempt token := by
    rw [conns] at token
    by_cases same : other = fd
    · subst same
      rw [Function.update_self] at token
      exact held kind i attempt token
    · rw [Function.update_of_ne same] at token
      rw [trace, serials other same]
      exact List.mem_append_left _ (seen.handed other kind i attempt token)
  reported other kind msg sent := by
    rw [conns] at sent
    by_cases same : other = fd
    · subst same
      rw [Function.update_self] at sent
      exact told kind msg sent
    · rw [Function.update_of_ne same] at sent
      rw [trace, serials other same]
      exact List.mem_append_left _ (seen.reported other kind msg sent)

/-! ## Books -/

structure Books (createdMs : UInt64) (job : JobDef) (completions : List Completion) (w : World)
    (records : List (AofRecord × Nat)) : Prop where
  recorded : Recorded job completions w.master
  distinct : (completions.map Completion.task).Nodup
  order : 0 < countKind .reduce completions → countKind .map completions = job.M
  entries : records.map Prod.fst = completions.map Completion.record
  log : w.log = logBytes createdMs job [] ++ records.flatMap fun p => p.1.bytes.take p.2

section Books
variable {createdMs : UInt64} {job : JobDef} {completions : List Completion} {w : World}
  {records : List (AofRecord × Nat)} (books : Books createdMs job completions w records)

include books in
theorem Books.core {w' : World} (core : SameCore w.master w'.master) (log : w'.log = w.log) :
    Books createdMs job completions w' records where
  recorded := books.recorded.core core
  distinct := books.distinct
  order := books.order
  entries := books.entries
  log := log.trans books.log

include books in
theorem Books.unmarked {c : Callback} {r : Reply} (on : ReportsMatchSlot w c) (effect : Effect w c r)
    (unmarked : r.marked = none) : Books createdMs job completions r.toWorld records where
  recorded := books.recorded.unmarked on effect unmarked
  distinct := books.distinct
  order := books.order
  entries := books.entries
  log := (effect.log_unmarked unmarked).trans books.log

include books in
theorem Books.marked {fd : Fd} {payload : Bytes} {env : Env} {msg : TaskDoneReq} {kind : TaskKind} {t : Task}
    {r : Reply} (on : ReportsMatchSlot w (.message fd payload env))
    (effect : Effect w (.message fd payload env) r) (accepted : Accepted w.master fd payload msg kind t)
    (success : msg.result = 0) (open_ : t.state ≠ .completed)
    (marked : r.marked = some (kind, (w.master.workers fd).currentTaskId))
    (below : (w.master.workers fd).currentTaskId < job.total kind)
    (log : r.log = w.log ++ (AofRecord.of msg (w.master.workers fd).currentKind).bytes.take
      (WriteResult.accepted env.write aofRecordSize)) :
    Books createdMs job (completions ++ [⟨kind, msg.taskId, msg.attemptId⟩]) r.toWorld
      (records ++ [(AofRecord.of msg (w.master.workers fd).currentKind,
        WriteResult.accepted env.write aofRecordSize)]) where
  recorded := books.recorded.marked on effect ((on.accepted accepted).2.1 success) below marked
  distinct := by
    have names := (on.accepted accepted).2.1 success
    rw [List.map_append, List.map_singleton, List.nodup_append]
    refine ⟨books.distinct, List.nodup_singleton _, ?_⟩
    intro task old other new same
    rw [List.mem_singleton.mp new] at same
    subst same
    rw [Completion.task, names.2] at old
    obtain ⟨u, found, completed⟩ := (books.recorded.done _ _).mpr old
    cases accepted.found.symm.trans found
    exact open_ completed
  order := by
    -- Reduces are recorded in the reduce phase only, where all maps are done.
    have phaseOk := books.recorded.sound.phase
    have totalM : w.master.job.M = job.M := books.recorded.sound.total .map
    have countM : w.master.job.mapsDone = countKind .map completions := books.recorded.count .map
    have phase := accepted.phase
    unfold Job.PhaseOk at phaseOk
    cases now : w.master.job.phase <;> rw [now] at phase phaseOk <;> cases phase
    · intro some_reduce
      rw [countKind_append, show countKind .reduce [⟨.map, msg.taskId, msg.attemptId⟩] = 0 from rfl] at some_reduce
      have all := books.order some_reduce
      omega
    · intro _
      rw [countKind_append, show countKind .map [⟨.reduce, msg.taskId, msg.attemptId⟩] = 0 from rfl]
      omega
  entries := by
    have names := (on.accepted accepted).2.1 success
    rw [List.map_append, List.map_append, books.entries, names.1]
    rfl
  log := by
    rw [log, books.log, List.flatMap_append, List.flatMap_singleton, List.append_assoc]

end Books

structure Inv (createdMs : UInt64) (job : JobDef) (completions : List Completion) (c : Cluster) : Prop where
  books : Books createdMs job completions c.world c.records
  tokens : Tokens c.world.master c.conns
  seen : Seen c
  witnessed : ∀ kind i, c.world.master.Done kind i → Witnessed c.trace kind i

theorem inv_start (config : MasterConfig) (job : JobDef) (fd : Nat) (createdMs : UInt64) (now realtime : Int) :
    Inv createdMs job [] (Cluster.start config job fd createdMs now realtime) where
  books := ⟨recorded_start config job fd createdMs now realtime, List.nodup_nil, by simp [countKind], rfl,
    by simp [Cluster.start, World.start]⟩
  tokens := ⟨by simp [Cluster.start, Conn.token], by simp [Cluster.start, Conn.token],
    by simp [Cluster.start, Conn.token]⟩
  seen := ⟨by simp [Cluster.start, Conn.token], by simp [Cluster.start]⟩
  witnessed kind i done := by
    have none_done := (recorded_start config job fd createdMs now realtime).done kind i
    simp only [List.map_nil, List.not_mem_nil, iff_false] at none_done
    exact absurd done none_done

theorem Inv.all_witnessed {createdMs : UInt64} {job : JobDef} {completions : List Completion} {c : Cluster}
    (inv : Inv createdMs job completions c) {kind : TaskKind}
    (full : c.world.master.job.doneCount kind = c.world.master.job.total kind) :
    ∀ i < job.total kind, Witnessed c.trace kind i := by
  intro i below
  apply inv.witnessed
  have recorded := inv.books.recorded
  rw [recorded.done]
  rw [recorded.count, recorded.sound.total] at full
  exact all_recorded recorded.ranges inv.books.distinct full below

/-! ## Steps -/

/-- Every accepted report is looked up in the table of the kind its slot was handed. -/
def AcceptsOwnKind (c : Cluster) : Action → Prop
  | .deliver fd env => ∀ payload ∈ (c.conns fd).outgoing,
      OnReport (fun sender _ _ kind _ => (c.world.master.workers sender).currentKind = some kind) c.world
        (.message fd payload env)
  | _ => True

instance (c : Cluster) : (action : Action) → Decidable (AcceptsOwnKind c action)
  | .deliver fd env => inferInstanceAs (Decidable (∀ payload ∈ (c.conns fd).outgoing,
      OnReport (fun sender _ _ kind _ => (c.world.master.workers sender).currentKind = some kind) c.world
        (.message fd payload env)))
  | .connect _ | .ask _ | .receive _ | .finish _ _ | .confirm _ | .disconnect _ | .periodic _ _ => .isTrue trivial

section Steps
variable {createdMs : UInt64} {job : JobDef} {completions : List Completion} {c : Cluster}
  (inv : Inv createdMs job completions c)

include inv in
theorem Inv.local {c' : Cluster} {fd : Fd} {conn : Conn} (more : List Happened)
    (core : SameCore c.world.master c'.world.master) (log : c'.world.log = c.world.log)
    (records : c'.records = c.records) (conns : c'.conns = Function.update c.conns fd conn)
    (trace : c'.trace = c.trace ++ more)
    (others : ∀ other, other ≠ fd →
      c'.world.master.workers other = c.world.master.workers other ∧ c'.serial other = c.serial other)
    (held : ∀ token, conn.token = some token → (c.conns fd).token = some token ∧
      c'.world.master.workers fd = c.world.master.workers fd ∧ c'.serial fd = c.serial fd)
    (told : ∀ kind msg, conn = .reported kind msg →
      .reported (c'.serial fd) kind msg.taskId.toNat msg.attemptId.toNat msg.result ∈ c'.trace) :
    Inv createdMs job completions c' where
  books := records ▸ inv.books.core core log
  tokens := by
    have quiet : Effect c.world (.disconnect fd) ⟨c.world, true, none, none⟩ := .quiet (.refl _) rfl rfl
    refine inv.tokens.shrink quiet core ?_ (by rintro _ _ _ _ _ _ _ ⟨⟩)
    intro other token found
    rw [conns] at found
    by_cases same : other = fd
    · subst same
      rw [Function.update_self] at found
      exact ⟨(held token found).1, rfl, (held token found).2.1⟩
    · rw [Function.update_of_ne same] at found
      exact ⟨found, rfl, (others other same).1⟩
  seen := by
    refine inv.seen.update conns trace (fun other differs => (others other differs).2) ?_ told
    intro kind i attempt token
    obtain ⟨before, _, serial⟩ := held _ token
    rw [trace, serial]
    exact List.mem_append_left _ (inv.seen.handed fd kind i attempt before)
  witnessed kind i done := by
    rw [core.done] at done
    rw [trace]
    exact (inv.witnessed kind i done).mono more

include inv in
theorem Inv.periodic {now realtime : Int} {r : Reply}
    (returned : callback c.world (.periodic now realtime) = some r) :
    Inv createdMs job completions { c with world := r.toWorld } := by
  have effect := callback_effect returned
  have unmarked : r.marked = none := by
    obtain ⟨m, _, rfl⟩ := Option.map_eq_some_iff.mp returned
    rfl
  have workers : r.master.workers = c.world.master.workers := by
    obtain ⟨m, ticked, rfl⟩ := Option.map_eq_some_iff.mp returned
    exact masterPeriodic_workers ticked
  have on : ReportsMatchSlot c.world (.periodic now realtime) := trivial
  refine ⟨inv.books.unmarked on effect unmarked, ?_, ⟨inv.seen.handed, inv.seen.reported⟩, ?_⟩
  · refine inv.tokens.shrink effect (.refl _) ?_ (by rintro _ _ _ _ _ _ _ ⟨⟩)
    intro fd token found
    exact ⟨found, congrFun workers fd, rfl⟩
  · intro kind i done
    rcases (effect.done trivial kind i).mp done with before | marked
    · exact inv.witnessed kind i before
    · rw [unmarked] at marked
      cases marked

end Steps

/-! ## Deliveries -/

section Delivered
variable (c : Cluster) (fd : Fd) (env : Env) (r : Reply)

theorem Cluster.delivered_core : SameCore r.master (c.delivered fd env r).world.master := by
  unfold delivered
  simp only
  split
  · exact .refl _
  · exact sameCore_setWorker _ fd .zero

@[simp] theorem Cluster.delivered_log : (c.delivered fd env r).world.log = r.log := by
  unfold delivered
  simp only
  split <;> rfl

@[simp] theorem Cluster.delivered_serial : (c.delivered fd env r).serial = c.serial := by
  unfold delivered
  simp only
  split <;> rfl

@[simp] theorem Cluster.delivered_trace :
    (c.delivered fd env r).trace = c.trace ++ handedBy (c.serial fd) r.sent := by
  unfold delivered
  simp only
  split <;> rfl

@[simp] theorem Cluster.delivered_records :
    (c.delivered fd env r).records = c.records ++ recordedBy (c.conns fd) (c.world.master.workers fd) env r := by
  unfold delivered
  simp only
  split <;> rfl

theorem Cluster.delivered_workers_ne {other : Fd} (differs : other ≠ fd) :
    (c.delivered fd env r).world.master.workers other = r.master.workers other := by
  unfold delivered
  simp only
  split
  · rfl
  · exact Master.setWorker_ne _ .zero differs

theorem Cluster.delivered_conns :
    (r.ok = true ∧ ∃ payload, r.sent = some payload ∧
      (c.delivered fd env r).world = r.toWorld ∧
      (c.delivered fd env r).conns = Function.update c.conns fd ((c.conns fd).replied payload)) ∨
    (c.delivered fd env r).conns = Function.update c.conns fd .closed := by
  unfold delivered
  simp only
  split
  next payload ok sent => exact .inl ⟨ok, payload, sent, rfl, rfl⟩
  · exact .inr rfl

end Delivered

section Deliveries
variable {createdMs : UInt64} {job : JobDef} {completions : List Completion} {c : Cluster}
  (inv : Inv createdMs job completions c) {fd : Fd} {payload : Bytes} {env : Env} {r : Reply}

include inv in
theorem Inv.delivered_tokens {conn : Conn} (returned : callback c.world (.message fd payload env) = some r)
    (conns : (c.delivered fd env r).conns = Function.update c.conns fd conn) (empty : conn.token = none)
    (unspent : ∀ other, other ≠ fd → ∀ msg kind t, Accepted c.world.master fd payload msg kind t →
      (c.conns other).token ≠ some (kind, (c.world.master.workers fd).currentTaskId, t.currentAttempt)) :
    Tokens (c.delivered fd env r).world.master (c.delivered fd env r).conns := by
  have elsewhere : ∀ other token, ((c.delivered fd env r).conns other).token = some token →
      other ≠ fd ∧ (c.conns other).token = some token := by
    intro other token found
    rw [conns] at found
    by_cases same : other = fd
    · subst same
      rw [Function.update_self, empty] at found
      cases found
    · rw [Function.update_of_ne same] at found
      exact ⟨same, found⟩
  refine inv.tokens.shrink (callback_effect returned) (c.delivered_core fd env r) ?_ ?_
  · intro other token found
    obtain ⟨differs, before⟩ := elsewhere other token found
    exact ⟨before, callback_workers_ne returned differs, c.delivered_workers_ne fd env r differs⟩
  · intro other sender bytes env' msg kind t sent accepted found
    cases sent
    obtain ⟨differs, before⟩ := elsewhere other _ found
    exact unspent other differs msg kind t accepted before

include inv in
theorem Inv.delivered_seen {conn : Conn}
    (conns : (c.delivered fd env r).conns = Function.update c.conns fd conn) (empty : conn.token = none)
    (silent : ∀ kind msg, conn ≠ .reported kind msg) : Seen (c.delivered fd env r) := by
  refine inv.seen.update conns (c.delivered_trace fd env r) (fun _ _ => by simp) ?_ ?_
  · intro kind i attempt token
    rw [empty] at token
    cases token
  · intro kind msg same
    exact absurd same (silent kind msg)

include inv in
theorem Inv.delivered_witnessed (returned : callback c.world (.message fd payload env) = some r)
    (on : ReportsMatchSlot c.world (.message fd payload env))
    (marked : ∀ kind i, r.marked = some (kind, i) → Witnessed c.trace kind i) :
    ∀ kind i, (c.delivered fd env r).world.master.Done kind i → Witnessed (c.delivered fd env r).trace kind i := by
  intro kind i done
  rw [(c.delivered_core fd env r).done,
    (callback_effect returned).done (on.mono fun _ _ _ _ _ holds => holds.2.2)] at done
  rw [Cluster.delivered_trace]
  rcases done with before | now
  · exact (inv.witnessed kind i before).mono _
  · exact (marked kind i now).mono _

end Deliveries

theorem reportOf_encoded (msg : TaskDoneReq) : reportOf (RpcKind.taskDoneReq.code :: msg.body) = some msg := by
  have peeked : rpcPeekKind (RpcKind.taskDoneReq.code :: msg.body) = some .taskDoneReq := rfl
  rw [reportOf, if_pos peeked]
  exact rpcDecodeTaskDoneReq_body msg

theorem callback_encoded (w : World) (fd : Fd) (msg : TaskDoneReq) (env : Env) :
    callback w (.message fd (RpcKind.taskDoneReq.code :: msg.body) env) = masterHandleTaskDone w fd env msg := by
  have peeked : rpcPeekKind (RpcKind.taskDoneReq.code :: msg.body) = some .taskDoneReq := rfl
  simp only [callback, masterOnMessage, peeked, List.tail_cons, rpcDecodeTaskDoneReq_body]

/-- A report in flight, delivered while its connection still holds the token. -/
structure InFlight (c : Cluster) (fd : Fd) (kind : TaskKind) (msg : TaskDoneReq) : Prop where
  conn : c.conns fd = .reported kind msg
  token : (c.conns fd).token = some (kind, msg.taskId.toNat, msg.attemptId.toNat)
  ok : TokenOk c.world.master fd kind msg.taskId.toNat msg.attemptId.toNat

section Reports
variable {createdMs : UInt64} {job : JobDef} {completions : List Completion} {c : Cluster}
  (inv : Inv createdMs job completions c) {fd : Fd} {kind : TaskKind} {msg : TaskDoneReq}

include inv in
theorem Inv.inFlight (conn : c.conns fd = .reported kind msg) : InFlight c fd kind msg := by
  have token : (c.conns fd).token = some (kind, msg.taskId.toNat, msg.attemptId.toNat) := by rw [conn]; rfl
  exact ⟨conn, token, inv.tokens.ok fd _ _ _ token⟩

theorem InFlight.accepted (flight : InFlight c fd kind msg) {other : TaskDoneReq} {k : TaskKind} {t : Task}
    (own : (c.world.master.workers fd).currentKind = some k)
    (accepted : Accepted c.world.master fd (RpcKind.taskDoneReq.code :: msg.body) other k t) :
    other = msg ∧ k = kind ∧ (c.world.master.workers fd).currentTaskId = msg.taskId.toNat ∧
      msg.attemptId.toNat = t.currentAttempt ∧ t.state ≠ .completed := by
  cases (reportOf_encoded msg).symm.trans accepted.decoded
  have same : k = kind := Option.some.inj (own.symm.trans flight.ok.slotKind)
  subst same
  refine ⟨rfl, rfl, flight.ok.slotTask, accepted.current, ?_⟩
  intro completed
  obtain ⟨u, found, _, _, moved⟩ := flight.ok.live
  rw [← flight.ok.slotTask] at found
  cases accepted.found.symm.trans found
  have := moved completed
  have := accepted.current
  omega

include inv in
theorem Inv.reports_match (flight : InFlight c fd kind msg) {env : Env}
    (own : OnReport (fun sender _ _ k _ => (c.world.master.workers sender).currentKind = some k) c.world
      (.message fd (RpcKind.taskDoneReq.code :: msg.body) env)) :
    ReportsMatchSlot c.world (.message fd (RpcKind.taskDoneReq.code :: msg.body) env) := by
  intro other decoded k phase
  obtain ⟨t, found, holds⟩ := own other decoded k phase
  refine ⟨t, found, fun current => ?_⟩
  cases (reportOf_encoded msg).symm.trans decoded
  have same : k = kind := Option.some.inj ((holds current).symm.trans flight.ok.slotKind)
  subst same
  obtain ⟨u, live, first, _, moved⟩ := flight.ok.live
  rw [← flight.ok.slotTask] at live
  cases (show _ = some t from found).symm.trans live
  have count := (inv.books.recorded.sound.task _ _ _ live).count
  refine ⟨by omega, fun _ => ⟨flight.ok.slotKind, flight.ok.slotTask.symm⟩, fun _ completed => ?_⟩
  have := moved completed
  omega

include inv in
theorem Inv.deliver_report {env : Env} {r : Reply} (flight : InFlight c fd kind msg)
    (own : OnReport (fun sender _ _ k _ => (c.world.master.workers sender).currentKind = some k) c.world
      (.message fd (RpcKind.taskDoneReq.code :: msg.body) env))
    (returned : callback c.world (.message fd (RpcKind.taskDoneReq.code :: msg.body) env) = some r) :
    ∃ completions, Inv createdMs job completions (c.delivered fd env r) := by
  have on := inv.reports_match flight own
  have effect := callback_effect returned
  have core := c.delivered_core fd env r
  -- Whatever the reply was, the connection no longer holds a token.
  obtain ⟨conn, conns, empty, silent⟩ : ∃ conn : Conn,
      (c.delivered fd env r).conns = Function.update c.conns fd conn ∧ conn.token = none ∧
        ∀ k m, conn ≠ .reported k m := by
    rcases c.delivered_conns fd env r with ⟨_, payload, _, _, conns⟩ | conns
    · rw [flight.conn] at conns
      exact ⟨_, conns, rfl, by simp [Conn.replied]⟩
    · exact ⟨_, conns, rfl, by simp⟩
  have tokens := inv.delivered_tokens returned conns empty (by
    intro other differs msg' k t accepted found
    obtain ⟨_, rfl, task, current, _⟩ := flight.accepted (own.accepted accepted) accepted
    rw [task, ← current] at found
    exact differs (inv.tokens.unique other fd _ found flight.token))
  have seen := inv.delivered_seen conns empty silent
  cases marked : r.marked with
  | none =>
    refine ⟨completions, ?_, tokens, seen, inv.delivered_witnessed returned on (by simp [marked])⟩
    have same : (c.delivered fd env r).records = c.records := by
      simp [recordedBy, marked]
    rw [same]
    exact (inv.books.unmarked on effect marked).core core (c.delivered_log fd env r)
  | some pair =>
    obtain ⟨k, i⟩ := pair
    obtain ⟨sender, payload, env', msg', t, sent, accepted, success, rfl, below, log, _⟩ :=
      effect.marked_accepted inv.books.recorded.sound marked
    cases sent
    obtain ⟨rfl, rfl, task, current, open_⟩ := flight.accepted (own.accepted accepted) accepted
    refine ⟨completions ++ [⟨k, msg'.taskId, msg'.attemptId⟩], ?_, tokens, seen,
      inv.delivered_witnessed returned on ?_⟩
    · have same : (c.delivered fd env r).records = c.records ++
          [(AofRecord.of msg' (c.world.master.workers fd).currentKind,
            WriteResult.accepted env.write aofRecordSize)] := by
        simp [recordedBy, marked, flight.conn]
      rw [same]
      exact (inv.books.marked on effect accepted success open_ marked below log).core core
        (c.delivered_log fd env r)
    · intro k' j now
      rw [marked] at now
      cases now
      have reported := inv.seen.reported fd k msg' flight.conn
      rw [success] at reported
      rw [task]
      exact ⟨_, _, inv.seen.handed fd _ _ _ flight.token, reported⟩

end Reports

/-! ### Requests -/

theorem toNat_ofNat_small {n : Nat} (small : n < 2 ^ 32) : (UInt32.ofNat n).toNat = n := by
  simp only [UInt32.toNat_ofNat']
  exact Nat.mod_eq_of_lt small

theorem taskResp_decodes (m : Master) (kind : TaskKind) (i : Nat) (t : Task)
    (whole : kind = .map → t.inputPath.length = t.inputPathLen ∧ t.inputPathLen < mapreducePathMax) :
    ∃ payload, taskResp m kind i t = some payload ∧
      decodeResponse payload = some (.task kind (UInt32.ofNat i) (UInt32.ofNat t.currentAttempt)) := by
  cases kind with
  | map =>
    obtain ⟨length, short⟩ := whole rfl
    let msg : TaskMapResp := ⟨UInt32.ofNat i, UInt32.ofNat t.currentAttempt, UInt32.ofNat m.job.R,
      UInt16.ofNat t.inputPathLen, t.inputPath.take t.inputPathLen⟩
    have len : msg.inputPathLen.toNat = t.inputPathLen := by
      simp only [mapreducePathMax] at short
      simp only [msg, UInt16.toNat_ofNat']
      omega
    have fits : msg.inputPathLen.toNat < mapreducePathMax := by rw [len]; exact short
    refine ⟨_, rpcEncodeTaskMapResp_eq msg fits, ?_⟩
    have decoded := rpcDecodeTaskMapResp_body msg fits (by rw [len]; simp [msg, length])
    have peeked : rpcPeekKind (RpcKind.taskMapResp.code :: msg.body) = some .taskMapResp := rfl
    simp only [decodeResponse, peeked, List.tail_cons, decoded, Option.map_some]
    rfl
  | reduce =>
    let msg : TaskReduceResp := ⟨UInt32.ofNat i, UInt32.ofNat t.currentAttempt, UInt32.ofNat m.job.M⟩
    refine ⟨_, rpcEncodeTaskReduceResp_eq msg, ?_⟩
    have decoded := rpcDecodeTaskReduceResp_body msg
    have peeked : rpcPeekKind (RpcKind.taskReduceResp.code :: msg.body) = some .taskReduceResp := rfl
    simp only [decodeResponse, peeked, List.tail_cons, decoded, Option.map_some]
    rfl

theorem decodeResponse_other {buf : Option Bytes} {payload : Bytes}
    (other : buf = rpcEncodeDoneResp msgMax ∨ ∃ msg, buf = rpcEncodeWaitResp msgMax msg)
    (sent : buf = some payload) {kind : TaskKind} {taskId attemptId : UInt32} :
    decodeResponse payload ≠ some (.task kind taskId attemptId) := by
  rcases other with done | ⟨msg, wait⟩
  · rw [done] at sent
    cases sent
    simp [decodeResponse, rpcPeekKind, RpcKind.code]
  · rw [wait, rpcEncodeWaitResp_eq] at sent
    cases sent
    simp [decodeResponse, rpcPeekKind, RpcKind.code]

theorem handedBy_task {serial : Nat} {payload : Bytes} {kind : TaskKind} {taskId attemptId : UInt32}
    (decoded : decodeResponse payload = some (.task kind taskId attemptId)) :
    handedBy serial (some payload) = [.handed serial kind taskId.toNat attemptId.toNat] := by
  simp [handedBy, decoded]

section Requests
variable {createdMs : UInt64} {job : JobDef} {completions : List Completion} {c : Cluster}
  (inv : Inv createdMs job completions c) {fd : Fd} {env : Env}

theorem request_silent (w : World) : ReportsMatchSlot w (.message fd [RpcKind.getTaskReq.code] env) := by
  intro msg report
  cases report

theorem request_unmarked {r : Reply} (handled : masterHandleGetTask c.world fd env = some r) : r.marked = none := by
  rcases masterHandleGetTask_cases handled with ⟨buf, _, rfl⟩ | ⟨kind, i, t, _, _, _, _, rfl⟩
  · exact respond_marked _ _ _ _
  · exact respond_marked _ _ _ _

include inv in
theorem Inv.request_books {r : Reply} (conn : c.conns fd = .requested)
    (returned : callback c.world (.message fd [RpcKind.getTaskReq.code] env) = some r) :
    Books createdMs job completions (c.delivered fd env r).world (c.delivered fd env r).records := by
  have records : (c.delivered fd env r).records = c.records := by
    simp [recordedBy, conn]
  rw [records]
  exact (inv.books.unmarked (request_silent c.world) (callback_effect returned) (request_unmarked returned)).core
    (c.delivered_core fd env r) (c.delivered_log fd env r)

include inv in
theorem Inv.request_refused {r : Reply} {after : Conn} (conn : c.conns fd = .requested)
    (returned : callback c.world (.message fd [RpcKind.getTaskReq.code] env) = some r)
    (conns : (c.delivered fd env r).conns = Function.update c.conns fd after) (empty : after.token = none)
    (silent : ∀ kind msg, after ≠ .reported kind msg) : Inv createdMs job completions (c.delivered fd env r) where
  books := inv.request_books conn returned
  tokens := inv.delivered_tokens returned conns empty fun _ _ msg _ _ accepted => by cases accepted.decoded
  seen := inv.delivered_seen conns empty silent
  witnessed := inv.delivered_witnessed returned (request_silent c.world) (by simp [request_unmarked returned])

include inv in
theorem Inv.request_dropped {r : Reply}
    (returned : callback c.world (.message fd [RpcKind.getTaskReq.code] env) = some r) :
    Tokens r.master (Function.update c.conns fd .closed) := by
  refine inv.tokens.shrink (callback_effect returned) (.refl _) ?_ ?_
  · intro other token held
    by_cases same : other = fd
    · subst same
      rw [Function.update_self] at held
      cases held
    · rw [Function.update_of_ne same] at held
      exact ⟨held, callback_workers_ne returned same, rfl⟩
  · intro other sender bytes env' msg kind t sent accepted
    cases sent
    cases accepted.decoded

include inv in
theorem Inv.handed_small {kind : TaskKind} {i : Nat} {t : Task} (found : c.world.master.task? kind i = some t) :
    (UInt32.ofNat i).toNat = i ∧ (UInt32.ofNat (t.currentAttempt + 1)).toNat = t.currentAttempt + 1 := by
  constructor
  · apply toNat_ofNat_small
    have cap := Master.lt_capacity found
    cases kind <;> simp only [TaskKind.capacity, maxMapTasks, maxReduceTasks] at cap <;> omega
  · apply toNat_ofNat_small
    have task := inv.books.recorded.sound.task kind i t found
    have cap := task.cap
    rw [← task.count] at cap
    simp only [maxAttempts] at cap
    omega

include inv in
theorem Inv.request_handed {kind : TaskKind} {i : Nat} {t : Task} {payload : Bytes} {r : Reply}
    (conn : c.conns fd = .requested)
    (returned : callback c.world (.message fd [RpcKind.getTaskReq.code] env) = some r)
    (phase : c.world.master.job.phase.kind? = some kind) (found : c.world.master.task? kind i = some t)
    (master : r.master = c.world.master.handOut kind i t fd) (sent : r.sent = some payload)
    (decoded : decodeResponse payload = some (.task kind (UInt32.ofNat i) (UInt32.ofNat (t.currentAttempt + 1))))
    (world : (c.delivered fd env r).world = r.toWorld)
    (conns : (c.delivered fd env r).conns = Function.update c.conns fd (.answered payload)) :
    Inv createdMs job completions (c.delivered fd env r) := by
  obtain ⟨small, few⟩ := inv.handed_small found
  have token : (Conn.answered payload).token = some (kind, i, t.currentAttempt + 1) := by
    simp only [Conn.token, decoded]
    rw [small, few]
  refine ⟨inv.request_books conn returned, ?_, ?_,
    inv.delivered_witnessed returned (request_silent c.world) (by simp [request_unmarked returned])⟩
  · rw [world, conns]
    refine (inv.request_dropped returned).add token ⟨?_, ?_, ?_⟩ ?_ ?_
    · rw [master]
      simp [Master.handOut, Master.setWorker]
    · rw [master]
      simp [Master.handOut, Master.setWorker]
    · rw [master, Master.handOut_task fd found]
      exact ⟨_, rfl, Nat.le_add_left 1 _, Nat.le_refl _, by simp [Task.assigned]⟩
    · -- Attempts only grow, so nobody held the one that has just been created.
      intro other _ held
      obtain ⟨u, read, _, last, _⟩ := (inv.tokens.ok other _ _ _ held).live
      cases found.symm.trans read
      omega
    · rintro rfl now
      rw [master, show (c.world.master.handOut .reduce i t fd).job = c.world.master.job from
        Master.setTask_job _ _ _ _] at now
      rw [now] at phase
      cases phase
  · refine inv.seen.update conns (c.delivered_trace fd env _) (fun _ _ => by simp) ?_ (by simp)
    intro k j attempt held
    cases token.symm.trans held
    rw [Cluster.delivered_trace, Cluster.delivered_serial, sent, handedBy_task decoded, small, few]
    exact List.mem_append_right _ (List.mem_singleton_self _)

include inv in
theorem Inv.request_answer {r : Reply} {payload : Bytes} (handled : masterHandleGetTask c.world fd env = some r)
    (sent : r.sent = some payload) :
    (∀ kind taskId attemptId, decodeResponse payload ≠ some (.task kind taskId attemptId)) ∨
      ∃ kind i t, c.world.master.job.phase.kind? = some kind ∧ c.world.master.task? kind i = some t ∧
        r.master = c.world.master.handOut kind i t fd ∧
        decodeResponse payload = some (.task kind (UInt32.ofNat i) (UInt32.ofNat (t.currentAttempt + 1))) := by
  rcases masterHandleGetTask_cases handled with ⟨buf, plain, rfl⟩ | ⟨kind, i, t, phase, _, found, _, rfl⟩
  · exact .inl fun _ _ _ => decodeResponse_other plain (respond_sent sent).1
  · obtain ⟨encoded, unchanged⟩ := respond_sent sent
    obtain ⟨payload', same, decoded⟩ := taskResp_decodes (c.world.master.handOut kind i t fd) kind i
      (t.assigned fd c.world.master.nowMs) (by rintro rfl; exact inv.books.recorded.sound.path i t found)
    cases same.symm.trans encoded
    exact .inr ⟨kind, i, t, phase, found, congrArg World.master unchanged, decoded⟩

include inv in
theorem Inv.deliver_request {r : Reply} (conn : c.conns fd = .requested)
    (returned : callback c.world (.message fd [RpcKind.getTaskReq.code] env) = some r) :
    Inv createdMs job completions (c.delivered fd env r) := by
  rcases c.delivered_conns fd env r with ⟨_, payload, sent, world, conns⟩ | conns
  · rw [conn] at conns
    rcases inv.request_answer returned sent with nothing | ⟨kind, i, t, phase, found, master, decoded⟩
    · refine inv.request_refused conn returned conns ?_ (by simp [Conn.replied])
      simp only [Conn.replied, Conn.token]
    · exact inv.request_handed conn returned phase found master sent decoded world conns
  · exact inv.request_refused conn returned conns rfl (by simp)

include inv in
theorem Inv.answered_task {r : Reply} {payload : Bytes} (handled : masterHandleGetTask c.world fd env = some r)
    (sent : r.sent = some payload) {kind : TaskKind} {i attempt : Nat}
    (held : (Conn.answered payload).token = some (kind, i, attempt)) :
    ∃ t, c.world.master.task? kind i = some t ∧ attempt = t.currentAttempt + 1 ∧
      r.master = c.world.master.handOut kind i t fd := by
  rcases inv.request_answer handled sent with nothing | ⟨k, j, t, _, found, master, decoded⟩
  · simp only [Conn.token] at held
    cases held
  · obtain ⟨small, few⟩ := inv.handed_small found
    simp only [Conn.token, decoded, Option.some.injEq, Prod.mk.injEq, small] at held
    obtain ⟨rfl, rfl, rfl⟩ := held
    exact ⟨t, found, few, master⟩

include inv in
theorem Inv.token_source {action : Action} {c' : Cluster} (taken : c.next action = some c') {other : Fd}
    {kind : TaskKind} {i attempt : Nat} (held : (c'.conns other).token = some (kind, i, attempt)) :
    ((c.conns other).token = some (kind, i, attempt) ∧
      c'.world.master.workers other = c.world.master.workers other) ∨
    ∃ t, c.world.master.task? kind i = some t ∧ attempt = t.currentAttempt + 1 ∧
      c'.world.master = c.world.master.handOut kind i t other := by
  cases Cluster.next_step taken with
  | @reset _ fd conn slot serial opened serials empty silent =>
    by_cases same : other = fd
    · subst same
      rw [Cluster.setConn_self, empty] at held
      cases held
    · rw [Cluster.setConn_ne _ conn same] at held
      exact .inl ⟨held, c.world.master.setWorker_ne slot same⟩
  | @moved _ fd conn more before =>
    refine .inl ⟨?_, rfl⟩
    by_cases same : other = fd
    · subst same
      rw [Cluster.setConn_self] at held
      exact before _ held
    · rwa [Cluster.setConn_ne _ conn same] at held
  | @delivered fd env payload r outgoing returned =>
    by_cases same : other = fd
    · subst same
      rcases c.delivered_conns other env r with ⟨_, reply, sent, world, conns⟩ | conns
      · rw [conns, Function.update_self] at held
        rcases Conn.outgoing_some outgoing with ⟨conn, rfl⟩ | ⟨_, msg, conn, rfl⟩
        · rw [conn] at held
          obtain ⟨t, found, attempts, master⟩ := inv.answered_task returned sent held
          exact .inr ⟨t, found, attempts, (congrArg World.master world).trans master⟩
        · rw [conn] at held
          cases held
      · rw [conns, Function.update_self] at held
        cases held
    · refine .inl ⟨?_, (c.delivered_workers_ne fd env r same).trans (callback_workers_ne returned same)⟩
      rcases c.delivered_conns fd env r with ⟨_, _, _, _, conns⟩ | conns
      · rwa [conns, Function.update_of_ne same] at held
      · rwa [conns, Function.update_of_ne same] at held
  | ticked returned =>
    obtain ⟨m, ticked, rfl⟩ := Option.map_eq_some_iff.mp returned
    exact .inl ⟨held, congrFun (masterPeriodic_workers ticked) other⟩

end Requests

/-! ## Whole runs -/

section Runs
variable {createdMs : UInt64} {job : JobDef} {completions : List Completion} {c : Cluster}
  (inv : Inv createdMs job completions c)

include inv in
theorem Inv.setConn (fd : Fd) (conn : Conn) (more : List Happened)
    (held : ∀ token, conn.token = some token → (c.conns fd).token = some token)
    (told : ∀ kind msg, conn = .reported kind msg →
      .reported (c.serial fd) kind msg.taskId.toNat msg.attemptId.toNat msg.result ∈ c.trace ++ more) :
    Inv createdMs job completions ((c.observe more).setConn fd conn) :=
  inv.local more (.refl _) rfl rfl rfl rfl (fun _ _ => ⟨rfl, rfl⟩) (fun token found => ⟨held token found, rfl, rfl⟩) told

include inv in
theorem Inv.resetSlot {fd : Fd} {conn : Conn} (slot : Worker) (serial : Fd → Nat) (opened : Nat)
    (serials : ∀ other, other ≠ fd → serial other = c.serial other)
    (empty : conn.token = none) (silent : ∀ kind msg, conn ≠ .reported kind msg) :
    Inv createdMs job completions
      ((Cluster.setMaster { c with serial := serial, opened := opened }
        (c.world.master.setWorker fd slot)).setConn fd conn) := by
  refine inv.local [] (sameCore_setWorker _ fd slot) rfl rfl rfl (List.append_nil _).symm ?_ ?_ ?_
  · intro other differs
    exact ⟨Master.setWorker_ne _ slot differs, serials other differs⟩
  · intro token found
    rw [empty] at found
    cases found
  · intro kind msg same
    exact absurd same (silent kind msg)

include inv in
theorem Inv.next {action : Action} {c' : Cluster} (own : AcceptsOwnKind c action)
    (taken : c.next action = some c') : ∃ completions, Inv createdMs job completions c' := by
  cases Cluster.next_step taken with
  | reset slot serial opened serials empty silent =>
    exact ⟨completions, inv.resetSlot slot serial opened serials empty silent⟩
  | moved held told =>
    exact ⟨completions, inv.setConn _ _ _ held fun kind msg same => List.mem_append_right _ (told kind msg same)⟩
  | delivered outgoing returned =>
    have own := own _ outgoing
    rcases Conn.outgoing_some outgoing with ⟨conn, rfl⟩ | ⟨kind, msg, conn, rfl⟩
    · exact ⟨completions, inv.deliver_request conn returned⟩
    · exact inv.deliver_report (inv.inFlight conn) own returned
  | ticked returned => exact ⟨completions, inv.periodic returned⟩

end Runs

/-- Reachable states satisfy the invariant, as long as accepted reports stay with their kind. -/
theorem inv_reached (config : MasterConfig) (job : JobDef) (fd : Nat) (createdMs : UInt64) (now realtime : Int)
    {actions : List Action} {final : Cluster}
    (along : Runs.Along Cluster.next AcceptsOwnKind (Cluster.start config job fd createdMs now realtime) actions)
    (reached : Runs.run Cluster.next (Cluster.start config job fd createdMs now realtime) actions = some final) :
    ∃ completions, Inv createdMs job completions final := by
  have keep : ∀ c action c', (∃ completions, Inv createdMs job completions c) → AcceptsOwnKind c action →
      c.next action = some c' → ∃ completions, Inv createdMs job completions c' := by
    rintro c action c' ⟨completions, inv⟩ own taken
    exact inv.next own taken
  exact Runs.along_invariant keep ⟨[], inv_start config job fd createdMs now realtime⟩ along reached

end MapReduce
