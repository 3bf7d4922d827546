import MapReduce.Safety

/-! The history of a task, against the attempts that were handed out.

A row is written when an attempt is handed out, and written again as a whole
each time the attempt is closed. Next to a run it is noted how each row was
handed out and at which clock it was last closed, and the rows are compared with
these notes.
-/

set_option autoImplicit false

namespace MapReduce

/-! ## The clock -/

def Callback.clock (w : World) : Callback → Int
  | .periodic now _ => now
  | _ => w.master.nowMs

theorem respond_nowMs (w : World) (fd : Fd) (outcome : SendOutcome) (buf : Option Bytes) :
    (respond w fd outcome buf).master.nowMs = w.master.nowMs := by
  cases buf with
  | none => rfl
  | some _ => cases outcome <;> rfl

theorem sendAck_nowMs (w : World) (fd : Fd) (outcome : SendOutcome) (buf : Bytes) (accepted : Bool)
    (marked : Option (TaskKind × Nat)) : (sendAck w fd outcome buf accepted marked).master.nowMs = w.master.nowMs := by
  cases outcome <;> cases accepted <;> rfl

theorem Master.complete_nowMs (m : Master) (kind : TaskKind) (i : Nat) (t : Task) (fd : Fd) :
    (m.complete kind i t fd).nowMs = m.nowMs := by
  unfold complete maybeAdvancePhase
  simp only
  split <;> split <;> exact m.setTask_nowMs kind i _

theorem callback_nowMs {w : World} {c : Callback} {r : Reply} (returned : callback w c = some r) :
    r.master.nowMs = c.clock w := by
  cases c with
  | connect fd | disconnect fd =>
    cases returned
    rfl
  | periodic now realtime =>
    obtain ⟨m, ticked, rfl⟩ := Option.map_eq_some_iff.mp returned
    rcases masterPeriodic_cases ticked with ⟨rfl, -⟩ | ⟨kind, _, swept⟩
    · rfl
    · exact (sweepFrom_swept swept).nowMs
  | message fd payload env =>
    rcases message_cases returned with ⟨_, handled⟩ | ⟨msg, _, handled⟩ | rfl
    · rcases masterHandleGetTask_cases handled with ⟨buf, _, rfl⟩ | ⟨kind, i, t, _, _, _, _, rfl⟩
      · exact respond_nowMs w fd env.send buf
      · rw [respond_nowMs]
        exact w.master.setTask_nowMs kind i _
    · obtain ⟨kind, t, _, _, ⟨_, rfl⟩ | ⟨_, _, ⟨_, applied, master, _, rfl⟩ | ⟨_, rfl⟩⟩⟩ := taskDoneHelper_cases handled
      · exact sendAck_nowMs w fd env.send _ _ _
      · rw [sendAck_nowMs, master]
        exact w.master.complete_nowMs kind _ t fd
      · rw [sendAck_nowMs]
        exact w.master.release_nowMs kind _ t _ _
    · rfl

theorem Cluster.delivered_nowMs (c : Cluster) (fd : Fd) (env : Env) (r : Reply) :
    (c.delivered fd env r).world.master.nowMs = r.master.nowMs := by
  unfold delivered
  simp only
  split <;> rfl

theorem Cluster.next_effect {c c' : Cluster} {action : Action} (taken : c.next action = some c') :
    ∃ cb r, Effect c.world cb r ∧ SameCore r.master c'.world.master ∧ c'.world.master.nowMs = cb.clock c.world ∧
      c.world.master.nowMs ≤ c'.world.master.nowMs ∧
      ∀ fd payload env, cb = .message fd payload env →
        action = .deliver fd env ∧ (c.conns fd).outgoing = some payload := by
  have quiet : ∀ fd, Effect c.world (.disconnect fd) ⟨c.world, true, none, none⟩ := fun fd => .quiet (.refl _) rfl rfl
  cases next_step taken with
  | @reset _ fd _ slot => exact ⟨_, _, quiet fd, sameCore_setWorker _ fd slot, rfl, le_rfl, by simp⟩
  | @moved _ fd => exact ⟨_, _, quiet fd, .refl _, rfl, le_rfl, by simp⟩
  | @delivered fd env payload r outgoing returned =>
    have clock : (c.delivered fd env r).world.master.nowMs = c.world.master.nowMs :=
      (c.delivered_nowMs fd env r).trans (callback_nowMs returned)
    refine ⟨_, r, callback_effect returned, c.delivered_core fd env r, clock, clock.ge, ?_⟩
    rintro _ _ _ ⟨⟩
    exact ⟨rfl, outgoing⟩
  | @ticked now _ r returned =>
    have later : c.world.master.nowMs ≤ now := by
      simp only [next] at taken
      split at taken
      next later => exact later
      · cases taken
    have clock := callback_nowMs returned
    exact ⟨_, r, callback_effect returned, .refl _, clock, later.trans clock.ge, by simp⟩

/-! ## Rows -/

def Task.row? (t : Task) (n : Nat) : Option AttemptRecord := if n < t.attemptsCount then t.history.read n else none

def Master.row? (m : Master) (kind : TaskKind) (i n : Nat) : Option AttemptRecord := (m.task? kind i).bind (·.row? n)

theorem Master.row?_of_task {m : Master} {kind : TaskKind} {i : Nat} {t : Task} (found : m.task? kind i = some t)
    (n : Nat) : m.row? kind i n = t.row? n := by
  rw [row?, found]
  rfl

/-- What a callback can do to a row of the task `t`. -/
inductive RowMove (w : World) (kind : TaskKind) (i : Nat) (t : Task) (n : Nat) :
    Callback → Option AttemptRecord → Option AttemptRecord → Prop
  | keep {c : Callback} {row : Option AttemptRecord} : RowMove w kind i t n c row row
  | handed {fd : Fd} {payload : Bytes} {env : Env} : RowMove w kind i t n (.message fd payload env) none
      (some ⟨t.currentAttempt + 1, fd.val, w.master.nowMs, 0, .running⟩)
  | reported {fd : Fd} {payload : Bytes} {env : Env} {msg : TaskDoneReq} {old : AttemptRecord}
      {endStatus : AttemptEndStatus} (accepted : Accepted w.master fd payload msg kind t)
      (at_slot : i = (w.master.workers fd).currentTaskId) (last : n + 1 = t.attemptsCount)
      (ended : endStatus ≠ .running) : RowMove w kind i t n (.message fd payload env) (some old)
        (some ⟨t.currentAttempt, fd.val, 0, w.master.nowMs, endStatus⟩)
  | timedOut {now realtime : Int} {old : AttemptRecord} (running : t.state = .inProgress)
      (last : n + 1 = t.attemptsCount) : RowMove w kind i t n (.periodic now realtime) (some old)
        (some ⟨t.currentAttempt, t.ownerFd, 0, now, .timeout⟩)

theorem Task.row?_rewrite {t t' : Task} {row : AttemptRecord} {n : Nat}
    {move : Option AttemptRecord → Option AttemptRecord → Prop} (attempted : 1 ≤ t.attemptsCount)
    (cap : t.attemptsCount ≤ maxAttempts) (count : t'.attemptsCount = t.attemptsCount)
    (history : t'.history = t.history.write (t.attemptsCount - 1) row) (keep : ∀ other, move other other)
    (last : ∀ old, n + 1 = t.attemptsCount → move (some old) (some row)) : move (t.row? n) (t'.row? n) := by
  unfold row?
  rw [count, history, Table.read_write]
  by_cases at_last : n + 1 = t.attemptsCount
  · have below : n < t.attemptsCount := by omega
    obtain ⟨old, read⟩ := t.history.read_isSome (show n < maxAttempts by omega)
    rw [if_pos below, if_pos below, if_pos (show n = t.attemptsCount - 1 by omega), if_pos (by omega), read]
    exact last old at_last
  · rw [if_neg (show ¬ n = t.attemptsCount - 1 by omega)]
    exact keep _

theorem Task.row?_assigned {t : Task} (room : t.attemptsCount < maxAttempts) (fd : Fd) (now : Int) :
    (t.assigned fd now).row? t.attemptsCount = some ⟨t.currentAttempt + 1, fd.val, now, 0, .running⟩ := by
  unfold row? assigned
  simp [Table.read_write, room]

theorem TaskMove.row {w : World} {after : JobPhase} {kind : TaskKind} {i : Nat} {t t' : Task} {c : Callback}
    (move : TaskMove w after kind i t c t') (sound : t.Sound) (n : Nat) :
    RowMove w kind i t n c (t.row? n) (t'.row? n) := by
  cases move with
  | keep => exact .keep
  | @assign fd _ _ _ _ _ pending =>
    by_cases fresh : n = t.attemptsCount
    · subst fresh
      rw [Task.row?_assigned (sound.pending pending), Task.row?, if_neg (Nat.lt_irrefl _)]
      exact .handed
    · have below : n < t.attemptsCount + 1 ↔ n < t.attemptsCount := by omega
      simp only [Task.row?, Task.assigned, Table.read_write, if_neg fresh, below]
      exact .keep
  | succeed accepted at_slot =>
    exact Task.row?_rewrite accepted.attempted sound.cap rfl rfl (fun _ => .keep) fun _ last =>
      .reported accepted at_slot last (by simp)
  | fail accepted at_slot =>
    exact Task.row?_rewrite accepted.attempted sound.cap rfl rfl (fun _ => .keep) fun _ last =>
      .reported accepted at_slot last (by simp)
  | timeout running attempted =>
    exact Task.row?_rewrite attempted sound.cap rfl rfl (fun _ => .keep) fun _ last => .timedOut running last

/-! ## Notes -/

/-- A row as it was handed out, and the clock at which it was last closed. -/
structure Handed where
  row : AttemptRecord
  closedAt : Option Int
  deriving DecidableEq, Repr

abbrev Notes := TaskKind → Nat → Nat → Option Handed

/-- A row that appears is handed out, and a row that changes is closed. -/
def Notes.follow (notes : Notes) (m m' : Master) : Notes := fun kind i n =>
  match m.row? kind i n, m'.row? kind i n with
  | none, some row => some ⟨row, none⟩
  | some old, some row =>
    if row = old then notes kind i n else (notes kind i n).map fun h => { h with closedAt := some m'.nowMs }
  | _, none => notes kind i n

/-- A cluster, and the notes of its run. No step reads the notes. -/
structure Noted where
  cluster : Cluster
  notes : Notes

def Noted.start (cluster : Cluster) : Noted := ⟨cluster, fun _ _ _ => none⟩

def Noted.next (s : Noted) (action : Action) : Option Noted :=
  (s.cluster.next action).map fun c => ⟨c, s.notes.follow s.cluster.world.master c.world.master⟩

theorem Noted.next_cluster (s : Noted) (action : Action) :
    (s.next action).map Noted.cluster = s.cluster.next action := by
  unfold next
  cases s.cluster.next action <;> rfl

def Noted.row? (s : Noted) : TaskKind → Nat → Nat → Option AttemptRecord := s.cluster.world.master.row?

/-- Each row of a closed attempt carries the descriptor and the start that were recorded when the attempt was
handed out, and the clock at which it was closed, which is not before its start. -/
def Noted.Faithful (s : Noted) : Prop :=
  ∀ kind i n row, s.row? kind i n = some row → row.endStatus ≠ .running →
    ∃ h, s.notes kind i n = some h ∧ row.workerFd = h.row.workerFd ∧ row.startedAtMs = h.row.startedAtMs ∧
      h.closedAt = some row.endedAtMs ∧ row.startedAtMs ≤ row.endedAtMs

/-! ## What the rows hold -/

/-- A running row is as it was handed out. A closed one has lost its start. -/
structure RowOk (clock : Int) (row : AttemptRecord) (h : Handed) : Prop where
  started : h.row.startedAtMs ≤ clock
  running : row.endStatus = .running → row = h.row
  closed : row.endStatus ≠ .running →
    row.startedAtMs = 0 ∧ h.closedAt = some row.endedAtMs ∧ h.row.startedAtMs ≤ row.endedAtMs

structure Noted.Ok (job : JobDef) (s : Noted) : Prop where
  sound : Sound job s.cluster.world.master
  rows : ∀ kind i n row, s.row? kind i n = some row →
    ∃ h, s.notes kind i n = some h ∧ RowOk s.cluster.world.master.nowMs row h

theorem RowOk.later {clock later : Int} {row : AttemptRecord} {h : Handed} (ok : RowOk clock row h)
    (le : clock ≤ later) : RowOk later row h :=
  ⟨ok.started.trans le, ok.running, ok.closed⟩

theorem RowOk.close {clock now : Int} {old : AttemptRecord} {h : Handed} (ok : RowOk clock old h) (le : clock ≤ now)
    {endStatus : AttemptEndStatus} (ended : endStatus ≠ .running) (attempt : Nat) (fd : Int) :
    RowOk now ⟨attempt, fd, 0, now, endStatus⟩ { h with closedAt := some now } :=
  ⟨ok.started.trans le, fun running => absurd running ended, fun _ => ⟨rfl, rfl, ok.started.trans le⟩⟩

section Follow
variable {notes : Notes} {m m' : Master} {kind : TaskKind} {i n : Nat}

theorem Notes.follow_new {row : AttemptRecord} (before : m.row? kind i n = none) (after : m'.row? kind i n = some row) :
    notes.follow m m' kind i n = some ⟨row, none⟩ := by
  simp only [follow, before, after]

theorem Notes.follow_same {row : AttemptRecord} (before : m.row? kind i n = some row)
    (after : m'.row? kind i n = some row) : notes.follow m m' kind i n = notes kind i n := by
  simp only [follow, before, after, ↓reduceIte]

theorem Notes.follow_changed {old row : AttemptRecord} (before : m.row? kind i n = some old)
    (after : m'.row? kind i n = some row) (differs : row ≠ old) :
    notes.follow m m' kind i n = (notes kind i n).map fun h => { h with closedAt := some m'.nowMs } := by
  simp only [follow, before, after, if_neg differs]

theorem Notes.follow_noted {old : AttemptRecord} {h : Handed} (before : m.row? kind i n = some old)
    (noted : notes kind i n = some h) : ∃ h', notes.follow m m' kind i n = some h' ∧ h'.row = h.row := by
  unfold follow
  rw [before]
  cases m'.row? kind i n with
  | none => exact ⟨h, noted, rfl⟩
  | some row =>
    simp only
    split
    · exact ⟨h, noted, rfl⟩
    · rw [noted]
      exact ⟨_, rfl, rfl⟩

end Follow

theorem Cluster.next_row {job : JobDef} {c c' : Cluster} {action : Action} (sound : Sound job c.world.master)
    (taken : c.next action = some c') {kind : TaskKind} {i n : Nat} {row : AttemptRecord}
    (found : c'.world.master.row? kind i n = some row) :
    ∃ cb t, c.world.master.task? kind i = some t ∧
      RowMove c.world kind i t n cb (c.world.master.row? kind i n) (some row) ∧
      c'.world.master.nowMs = cb.clock c.world ∧ c.world.master.nowMs ≤ c'.world.master.nowMs ∧
      ∀ fd payload env, cb = .message fd payload env →
        action = .deliver fd env ∧ (c.conns fd).outgoing = some payload := by
  obtain ⟨cb, r, effect, core, clock, later, message⟩ := next_effect taken
  obtain ⟨t', after, read⟩ := Option.bind_eq_some_iff.mp found
  rw [core.task?] at after
  obtain ⟨t, before, move⟩ := effect.task_before after
  have moved := move.row (sound.task kind i t before) n
  rw [read] at moved
  refine ⟨cb, t, before, ?_, clock, later, message⟩
  rw [Master.row?_of_task before]
  exact moved

theorem Cluster.next_sound {job : JobDef} {c c' : Cluster} {action : Action} (sound : Sound job c.world.master)
    (taken : c.next action = some c') : Sound job c'.world.master := by
  obtain ⟨_, _, effect, core, _⟩ := next_effect taken
  exact (effect.sound sound).core core

theorem Noted.Ok.next {job : JobDef} {s s' : Noted} {action : Action} (ok : s.Ok job)
    (taken : s.next action = some s') : s'.Ok job := by
  obtain ⟨c', stepped, rfl⟩ := Option.map_eq_some_iff.mp taken
  refine ⟨Cluster.next_sound ok.sound stepped, ?_⟩
  intro kind i n row found
  obtain ⟨cb, t, _, move, clock, later, _⟩ := Cluster.next_row ok.sound stepped found
  generalize before : s.cluster.world.master.row? kind i n = was at move
  -- A row that is closed again with the same contents is not noted again.
  have closed : ∀ old, was = some old → ∀ attempt fd endStatus, endStatus ≠ .running →
      row = ⟨attempt, fd, 0, cb.clock s.cluster.world, endStatus⟩ →
      ∃ h, s.notes.follow s.cluster.world.master c'.world.master kind i n = some h ∧
        RowOk c'.world.master.nowMs row h := by
    rintro old rfl attempt fd endStatus ended rfl
    obtain ⟨h, noted, rowOk⟩ := ok.rows kind i n old before
    by_cases same : ⟨attempt, fd, 0, cb.clock s.cluster.world, endStatus⟩ = old
    · subst same
      exact ⟨h, (Notes.follow_same before found).trans noted, rowOk.later later⟩
    · rw [Notes.follow_changed before found same, noted, ← clock]
      exact ⟨_, rfl, rowOk.close later ended attempt fd⟩
  cases move with
  | keep =>
    obtain ⟨h, noted, rowOk⟩ := ok.rows kind i n row before
    exact ⟨h, (Notes.follow_same before found).trans noted, rowOk.later later⟩
  | handed => exact ⟨_, Notes.follow_new before found, ⟨clock.ge, fun _ => rfl, fun ended => absurd rfl ended⟩⟩
  | reported _ _ _ ended => exact closed _ rfl _ _ _ ended rfl
  | timedOut => exact closed _ rfl _ _ _ (by simp) rfl

/-! ## Who closes a row -/

def Task.OwnerNoted (t : Task) : Prop :=
  t.state = .inProgress → ∃ row, t.row? (t.attemptsCount - 1) = some row ∧ row.workerFd = t.ownerFd

theorem TaskMove.ownerNoted {w : World} {after : JobPhase} {kind : TaskKind} {i : Nat} {t t' : Task} {c : Callback}
    (move : TaskMove w after kind i t c t') (sound : t.Sound) (noted : t.OwnerNoted) : t'.OwnerNoted := by
  cases move with
  | keep => exact noted
  | @assign fd _ _ _ _ _ pending =>
    intro _
    exact ⟨_, Task.row?_assigned (sound.pending pending) fd w.master.nowMs, rfl⟩
  | succeed =>
    intro running
    cases running
  | fail | timeout =>
    intro running
    exact absurd running (t.ended_state_ne _ _ _)

theorem Task.Sound.row? {t : Task} (sound : t.Sound) {n : Nat} (below : n < t.attemptsCount) :
    ∃ row, t.row? n = some row := by
  unfold Task.row?
  rw [if_pos below]
  exact t.history.read_isSome (below.trans_le sound.cap)

/-- Rows, slots and connections name the descriptor an attempt was handed to. -/
structure Noted.Own (createdMs : UInt64) (job : JobDef) (s : Noted) : Prop where
  inv : ∃ completions, Inv createdMs job completions s.cluster
  ok : s.Ok job
  owners : ∀ kind i t, s.cluster.world.master.task? kind i = some t → t.OwnerNoted
  rows : ∀ kind i n row h, s.row? kind i n = some row → s.notes kind i n = some h → row.workerFd = h.row.workerFd
  tokens : ∀ fd kind i attempt, (s.cluster.conns fd).token = some (kind, i, attempt) →
    ∃ h, s.notes kind i (attempt - 1) = some h ∧ h.row.workerFd = fd.val

section Own
variable {createdMs : UInt64} {job : JobDef} {s : Noted} (own : s.Own createdMs job) {action : Action} {c' : Cluster}
  (stepped : s.cluster.next action = some c')

include own in
theorem Noted.Own.reporter (kinds : AcceptsOwnKind s.cluster action) {fd : Fd} {payload : Bytes} {env : Env}
    {msg : TaskDoneReq} {kind : TaskKind} {t : Task} (delivered : action = .deliver fd env)
    (outgoing : (s.cluster.conns fd).outgoing = some payload)
    (accepted : Accepted s.cluster.world.master fd payload msg kind t) :
    ∃ h, s.notes kind (s.cluster.world.master.workers fd).currentTaskId (t.attemptsCount - 1) = some h ∧
      h.row.workerFd = fd.val := by
  subst delivered
  obtain ⟨completions, inv⟩ := own.inv
  have kinds := kinds payload outgoing
  rcases Conn.outgoing_some outgoing with ⟨_, rfl⟩ | ⟨sent, msg', conn, rfl⟩
  · cases accepted.decoded
  · have flight := inv.inFlight conn
    obtain ⟨_, rfl, task, current, _⟩ := flight.accepted (kinds.accepted accepted) accepted
    have count := (own.ok.sound.task _ _ t accepted.found).count
    rw [task, ← count, ← current]
    exact own.tokens fd _ _ _ flight.token

include own stepped in
theorem Noted.Own.rows_next (kinds : AcceptsOwnKind s.cluster action) {kind : TaskKind} {i n : Nat}
    {row : AttemptRecord} {h : Handed} (found : c'.world.master.row? kind i n = some row)
    (noted : s.notes.follow s.cluster.world.master c'.world.master kind i n = some h) :
    row.workerFd = h.row.workerFd := by
  obtain ⟨cb, t, task, move, _, _, message⟩ := Cluster.next_row own.ok.sound stepped found
  have read : s.cluster.world.master.row? kind i n = t.row? n := Master.row?_of_task task n
  generalize before : s.cluster.world.master.row? kind i n = was at move
  -- What was noted of a row that was there before.
  have earlier : ∀ old, was = some old → ∃ h', s.notes kind i n = some h' ∧ h'.row = h.row := by
    rintro old rfl
    obtain ⟨h', was_noted, _⟩ := own.ok.rows kind i n old before
    obtain ⟨h'', now_noted, same⟩ := @Notes.follow_noted _ _ c'.world.master _ _ _ _ _ before was_noted
    cases noted.symm.trans now_noted
    exact ⟨h', was_noted, same.symm⟩
  cases move with
  | keep =>
    obtain ⟨h', was_noted, same⟩ := earlier row rfl
    rw [← same]
    exact own.rows kind i n row h' before was_noted
  | handed =>
    cases noted.symm.trans (Notes.follow_new before found)
    rfl
  | reported accepted at_slot last =>
    obtain ⟨delivered, outgoing⟩ := message _ _ _ rfl
    obtain ⟨h', was_noted, same⟩ := earlier _ rfl
    obtain ⟨h'', reporter, fd⟩ := own.reporter kinds delivered outgoing accepted
    rw [← at_slot, ← last, Nat.add_sub_cancel] at reporter
    cases was_noted.symm.trans reporter
    rw [← same, fd]
  | @timedOut _ _ old running last =>
    obtain ⟨h', was_noted, same⟩ := earlier old rfl
    obtain ⟨row, named, owner⟩ := own.owners kind i t task running
    rw [← last, Nat.add_sub_cancel, ← read] at named
    rw [← same, ← own.rows kind i n row h' named was_noted]
    exact owner.symm

include own stepped in
theorem Noted.Own.tokens_next {fd : Fd} {kind : TaskKind} {i attempt : Nat}
    (held : (c'.conns fd).token = some (kind, i, attempt)) :
    ∃ h, s.notes.follow s.cluster.world.master c'.world.master kind i (attempt - 1) = some h ∧
      h.row.workerFd = fd.val := by
  obtain ⟨completions, inv⟩ := own.inv
  rcases inv.token_source stepped held with ⟨before, _⟩ | ⟨t, found, rfl, master⟩
  · obtain ⟨h, noted, fdNoted⟩ := own.tokens fd kind i attempt before
    obtain ⟨t, found, first, last, _⟩ := (inv.tokens.ok fd kind i attempt before).live
    have sound := own.ok.sound.task kind i t found
    have count := sound.count
    obtain ⟨old, read⟩ := sound.row? (show attempt - 1 < t.attemptsCount by omega)
    have row : s.cluster.world.master.row? kind i (attempt - 1) = some old :=
      (Master.row?_of_task found _).trans read
    obtain ⟨h', now_noted, same⟩ := @Notes.follow_noted _ _ c'.world.master _ _ _ _ _ row noted
    exact ⟨h', now_noted, by rw [same, fdNoted]⟩
  · have count := (own.ok.sound.task kind i t found).count
    have after : c'.world.master.task? kind i = some (t.assigned fd s.cluster.world.master.nowMs) := by
      rw [master]
      exact Master.handOut_task fd found
    have room : t.attemptsCount < maxAttempts := ((Cluster.next_sound own.ok.sound stepped).task kind i _ after).cap
    have absent : s.cluster.world.master.row? kind i t.attemptsCount = none := by
      rw [Master.row?_of_task found]
      exact if_neg (Nat.lt_irrefl _)
    have fresh : c'.world.master.row? kind i t.attemptsCount =
        some ⟨t.currentAttempt + 1, fd.val, s.cluster.world.master.nowMs, 0, .running⟩ := by
      rw [Master.row?_of_task after]
      exact Task.row?_assigned room fd s.cluster.world.master.nowMs
    rw [Nat.add_sub_cancel, count]
    exact ⟨_, Notes.follow_new absent fresh, rfl⟩

include own stepped in
theorem Noted.Own.next (kinds : AcceptsOwnKind s.cluster action) :
    Noted.Own createdMs job ⟨c', s.notes.follow s.cluster.world.master c'.world.master⟩ := by
  obtain ⟨completions, inv⟩ := own.inv
  have taken : s.next action = some ⟨c', s.notes.follow s.cluster.world.master c'.world.master⟩ := by
    rw [Noted.next, stepped]
    rfl
  refine ⟨inv.next kinds stepped, own.ok.next taken, ?_, ?_, ?_⟩
  · intro kind i t' after
    obtain ⟨_, _, effect, core, _⟩ := Cluster.next_effect stepped
    rw [core.task?] at after
    obtain ⟨t, before, move⟩ := effect.task_before after
    exact move.ownerNoted (own.ok.sound.task kind i t before) (own.owners kind i t before)
  · intro kind i n row h found noted
    exact own.rows_next stepped kinds found noted
  · intro fd kind i attempt held
    exact own.tokens_next stepped held

end Own

/-! ## Whole runs -/

theorem own_start (config : MasterConfig) (job : JobDef) (fd : Nat) (createdMs : UInt64) (now realtime : Int) :
    (Noted.start (Cluster.start config job fd createdMs now realtime)).Own createdMs job := by
  have slot : ∀ kind i t, (Cluster.start config job fd createdMs now realtime).world.master.task? kind i = some t →
      t.state = .pending ∧ t.attemptsCount = 0 := by
    intro kind i t found
    have fresh : (Master.fresh config job).task? kind i = some t := by
      cases kind <;> exact found
    obtain ⟨pending, _, count, _⟩ := Master.fresh_slot fresh
    exact ⟨pending, count⟩
  have none : ∀ kind i n row,
      (Noted.start (Cluster.start config job fd createdMs now realtime)).row? kind i n ≠ some row := by
    intro kind i n row found
    obtain ⟨t, task, read⟩ := Option.bind_eq_some_iff.mp found
    rw [Task.row?, (slot kind i t task).2, if_neg (Nat.not_lt_zero n)] at read
    cases read
  refine ⟨⟨[], inv_start config job fd createdMs now realtime⟩, ⟨?_, ?_⟩, ?_, ?_, ?_⟩
  · exact (recorded_start config job fd createdMs now realtime).sound
  · exact fun kind i n row found => absurd found (none kind i n row)
  · intro kind i t found running
    rw [(slot kind i t found).1] at running
    cases running
  · exact fun kind i n row h found => absurd found (none kind i n row)
  · intro other kind i attempt held
    cases held

/-- The attempts in rows that are closed were handed out at clock 0. -/
def Noted.HandedAtZero (s : Noted) : Prop :=
  ∀ kind i n row h, s.row? kind i n = some row → row.endStatus ≠ .running → s.notes kind i n = some h →
    h.row.startedAtMs = 0

theorem Noted.Ok.handedAtZero {job : JobDef} {s : Noted} (ok : s.Ok job) (faithful : s.Faithful) : s.HandedAtZero := by
  intro kind i n row h found ended noted
  obtain ⟨h', noted', _, started, _⟩ := faithful kind i n row found ended
  cases noted.symm.trans noted'
  obtain ⟨_, _, rowOk⟩ := ok.rows kind i n row found
  rw [← started, (rowOk.closed ended).1]

theorem Noted.Own.faithful {createdMs : UInt64} {job : JobDef} {s : Noted} (own : s.Own createdMs job)
    (zero : s.HandedAtZero) : s.Faithful := by
  intro kind i n row found ended
  obtain ⟨h, noted, rowOk⟩ := own.ok.rows kind i n row found
  obtain ⟨lost, closed, order⟩ := rowOk.closed ended
  have start := zero kind i n row h found ended noted
  refine ⟨h, noted, own.rows kind i n row h found noted, by rw [lost, start], closed, ?_⟩
  rw [lost, ← start]
  exact order

theorem Noted.next_own {createdMs : UInt64} {job : JobDef} {s s' : Noted} {action : Action} (own : s.Own createdMs job)
    (kinds : AcceptsOwnKind s.cluster action) (taken : s.next action = some s') : s'.Own createdMs job := by
  obtain ⟨c', stepped, rfl⟩ := Option.map_eq_some_iff.mp taken
  exact own.next stepped kinds

/-- Every run has its notes. As long as every report is taken for a task of its own kind, the history is faithful
exactly if the closed attempts were handed out at clock 0. -/
theorem history_faithful (config : MasterConfig) (job : JobDef) (fd : Nat) (createdMs : UInt64) (now realtime : Int)
    {actions : List Action} {final : Cluster}
    (reached : Runs.run Cluster.next (Cluster.start config job fd createdMs now realtime) actions = some final) :
    ∃ notes, Runs.run Noted.next (.start (Cluster.start config job fd createdMs now realtime)) actions =
        some ⟨final, notes⟩ ∧
      (Runs.Along Cluster.next AcceptsOwnKind (Cluster.start config job fd createdMs now realtime) actions →
        (Noted.Faithful ⟨final, notes⟩ ↔ Noted.HandedAtZero ⟨final, notes⟩)) := by
  have erased := Runs.run_erase Noted.next_cluster (.start (Cluster.start config job fd createdMs now realtime)) actions
  obtain ⟨s, ran, rfl⟩ := Option.map_eq_some_iff.mp (erased.trans reached)
  refine ⟨s.notes, ran, fun along => ?_⟩
  have own : s.Own createdMs job :=
    Runs.along_invariant (fun _ _ _ own kinds taken => Noted.next_own own kinds taken)
      (own_start config job fd createdMs now realtime) (Runs.along_erase Noted.next_cluster along) ran
  exact ⟨own.ok.handedAtZero, own.faithful⟩

def Notes.AtZero (notes : Notes) : Prop := ∀ kind i n h, notes kind i n = some h → h.row.startedAtMs = 0

theorem Noted.Ok.atZero_next {job : JobDef} {s : Noted} {c' : Cluster} {action : Action} (ok : s.Ok job)
    (zero : s.notes.AtZero) (clock : s.cluster.world.master.nowMs = 0) (stepped : s.cluster.next action = some c') :
    (s.notes.follow s.cluster.world.master c'.world.master).AtZero := by
  intro kind i n h noted
  cases before : s.cluster.world.master.row? kind i n with
  | some old =>
    obtain ⟨h', was_noted, _⟩ := ok.rows kind i n old before
    obtain ⟨h'', now_noted, same⟩ := @Notes.follow_noted _ _ c'.world.master _ _ _ _ _ before was_noted
    cases noted.symm.trans now_noted
    rw [same]
    exact zero kind i n h' was_noted
  | none =>
    cases found : c'.world.master.row? kind i n with
    | none =>
      simp only [Notes.follow, before, found] at noted
      exact zero kind i n h noted
    | some row =>
      cases noted.symm.trans (Notes.follow_new before found)
      obtain ⟨_, _, _, move, _⟩ := Cluster.next_row ok.sound stepped found
      rw [before] at move
      cases move
      exact clock

theorem Noted.notes_atZero {job : JobDef} {s final : Noted} {actions : List Action} (ok : s.Ok job)
    (zero : s.notes.AtZero)
    (clock : Runs.Along Cluster.next (fun c _ => c.world.master.nowMs = 0) s.cluster actions)
    (ran : Runs.run Noted.next s actions = some final) : final.notes.AtZero := by
  have keep : ∀ (s : Noted) action s', (s.Ok job ∧ s.notes.AtZero) → s.cluster.world.master.nowMs = 0 →
      s.next action = some s' → s'.Ok job ∧ s'.notes.AtZero := by
    rintro s action s' ⟨ok, zero⟩ clock taken
    refine ⟨ok.next taken, ?_⟩
    obtain ⟨c', stepped, rfl⟩ := Option.map_eq_some_iff.mp taken
    exact ok.atZero_next zero clock stepped
  exact (Runs.along_invariant keep ⟨ok, zero⟩ (Runs.along_erase Noted.next_cluster clock) ran).2

/-- One worker does the map of a job whose clock stands at 0. -/
theorem history_faithful_sample :
    ∃ final notes, Runs.run Noted.next (.start sampleCluster) (.connect workerA :: work workerA) =
        some ⟨final, notes⟩ ∧
      Noted.row? ⟨final, notes⟩ .map 0 0 = some ⟨1, workerA.val, 0, 0, .success⟩ ∧ Noted.Faithful ⟨final, notes⟩ := by
  have along : Runs.Along Cluster.next AcceptsOwnKind sampleCluster (.connect workerA :: work workerA) := by
    decide +kernel
  have clock : Runs.Along Cluster.next (fun c _ => c.world.master.nowMs = 0) sampleCluster
      (.connect workerA :: work workerA) := by
    decide +kernel
  have closed : (Runs.run Cluster.next sampleCluster (.connect workerA :: work workerA)).any (fun c =>
      c.world.master.row? .map 0 0 == some ⟨1, workerA.val, 0, 0, .success⟩) = true := by
    decide +kernel
  obtain ⟨final, reached, row⟩ := (Option.any_eq_true _ _).mp closed
  obtain ⟨notes, ran, faithful⟩ := history_faithful sampleConfig sampleJob 3 0 0 0 reached
  have zero : Notes.AtZero notes := Noted.notes_atZero (own_start sampleConfig sampleJob 3 0 0 0).ok
    (fun _ _ _ _ noted => by cases noted) clock ran
  exact ⟨final, notes, ran, beq_iff_eq.mp row,
    (faithful along).mpr fun kind i n _ h _ _ noted => zero kind i n h noted⟩

def laterCluster : Cluster := Cluster.start sampleConfig sampleJob 3 0 1000 0

/-- A worker is handed the map and reports it at once. The row it leaves says that it started at 0. In the run of
the late report, the row of the reduce names the worker of the map. -/
theorem history_start_lost :
    (∃ s, Runs.run Noted.next (.start laterCluster) (.connect workerA :: work workerA) = some s ∧
      s.row? .map 0 0 = some ⟨1, workerA.val, 0, 1000, .success⟩ ∧
      s.notes .map 0 0 = some ⟨⟨1, workerA.val, 1000, 0, .running⟩, some 1000⟩ ∧ ¬ s.Faithful) ∧
    (∃ s, Runs.run Noted.next (.start sampleCluster) lateRun = some s ∧
      s.row? .reduce 0 0 = some ⟨1, workerA.val, 0, 2000, .success⟩ ∧
      s.notes .reduce 0 0 = some ⟨⟨1, workerB.val, 2000, 0, .running⟩, some 2000⟩ ∧ ¬ s.Faithful) := by
  have first : (Runs.run Noted.next (.start laterCluster) (.connect workerA :: work workerA)).any (fun s =>
      s.row? .map 0 0 == some ⟨1, workerA.val, 0, 1000, .success⟩ &&
      s.notes .map 0 0 == some ⟨⟨1, workerA.val, 1000, 0, .running⟩, some 1000⟩) = true := by
    decide +kernel
  have second : (Runs.run Noted.next (.start sampleCluster) lateRun).any (fun s =>
      s.row? .reduce 0 0 == some ⟨1, workerA.val, 0, 2000, .success⟩ &&
      s.notes .reduce 0 0 == some ⟨⟨1, workerB.val, 2000, 0, .running⟩, some 2000⟩) = true := by
    decide +kernel
  obtain ⟨s, ran, holds⟩ := (Option.any_eq_true _ _).mp first
  obtain ⟨row, notes⟩ := (Bool.and_eq_true _ _).mp holds
  obtain ⟨s', ran', holds'⟩ := (Option.any_eq_true _ _).mp second
  obtain ⟨row', notes'⟩ := (Bool.and_eq_true _ _).mp holds'
  refine ⟨⟨s, ran, beq_iff_eq.mp row, beq_iff_eq.mp notes, fun faithful => ?_⟩,
    s', ran', beq_iff_eq.mp row', beq_iff_eq.mp notes', fun faithful => ?_⟩
  · obtain ⟨h, noted, _, started, _⟩ := faithful .map 0 0 _ (beq_iff_eq.mp row) (by decide)
    cases (beq_iff_eq.mp notes).symm.trans noted
    cases started
  · obtain ⟨h, noted, fd, _⟩ := faithful .reduce 0 0 _ (beq_iff_eq.mp row') (by decide)
    cases (beq_iff_eq.mp notes').symm.trans noted
    cases fd

end MapReduce
