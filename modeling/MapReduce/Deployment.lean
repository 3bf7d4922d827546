import MapReduce.System
import MapReduce.Wire.Outcomes

/-! The whole system byte by byte.

The server and its workers speak over sockets, and every worker makes the file
calls of its attempts. A process starts an attempt when it has read the last byte
of a response and reports what the attempt has returned; it can be killed, or
lose its connection and run on. Every run is matched by a run of the system, in
which messages are handed over whole, so the outputs are the word count of the
inputs here as well.
-/

set_option autoImplicit false

namespace MapReduce

open Interference

/-! ## States and steps -/

/-- Processes are numbered in the order in which their connections are accepted. -/
structure Deployment where
  wire : Wire
  serial : Fd → Nat
  opened : Nat
  pool : Pool

namespace Deployment

inductive Event where
  | wire (event : Wire.Event)
  /-- The next file call of an attempt. -/
  | call (ticket : Ticket) (outcome : Outcome)
  | die (ticket : Ticket)

def ticket (d : Deployment) (fd : Fd) (kind : TaskKind) (taskId attemptId : UInt32) : Ticket :=
  ⟨d.serial fd, kind, taskId.toNat, attemptId.toNat⟩

/-- The calls that run a task return what the attempt has returned. -/
def truthful (d : Deployment) : Wire.Event → Bool
  | .worker fd (.finish success) =>
    match (d.wire.workers fd).point with
    | .working kind taskId attemptId => d.pool.returned (d.ticket fd kind taskId attemptId) == some success
    | _ => false
  | _ => true

def numbered (d : Deployment) : Wire.Event → (Fd → Nat) × Nat
  | .server (.accept (.taken fd true)) => (Function.update d.serial fd d.opened, d.opened + 1)
  | _ => (d.serial, d.opened)

section Steps

variable (qsort : QSort) (pid : Nat → Nat)

/-- The attempts after an event: a response that is read to its end starts one, and a process that is killed takes
its attempt with it. -/
def attempts (d : Deployment) : Wire.Event → Pool
  | .worker fd (.read n) =>
    match (d.wire.workers fd).point with
    | .receiving .getTask got =>
      match frontFrame (got ++ (d.wire.available fd).take n) with
      | .message payload =>
        match startedBy qsort pid (d.serial fd) payload with
        | some (ticket, program) => d.pool.spawn ticket program
        | none => d.pool
      | .short | .oversize => d.pool
    | _ => d.pool
  | .worker fd .quit =>
    match (d.wire.workers fd).point with
    | .working kind taskId attemptId =>
      (Interference.next Disk.serve d.pool (.crash (d.ticket fd kind taskId attemptId))).getD d.pool
    | _ => d.pool
  | _ => d.pool

def next (d : Deployment) : Event → Option Deployment
  | .wire event =>
    if d.truthful event then
      (d.wire.next event).map fun w => ⟨w, (d.numbered event).1, (d.numbered event).2, d.attempts qsort pid event⟩
    else none
  | .call ticket outcome =>
    (Interference.next Disk.serve d.pool (.step ticket outcome)).map fun pool => { d with pool := pool }
  | .die ticket => (Interference.next Disk.serve d.pool (.crash ticket)).map fun pool => { d with pool := pool }

end Steps

def start (config : MasterConfig) (job : JobDef) (aofFd : Nat) (createdMs : UInt64)
    (now realtime clientTimeoutS : Int) (disk : Disk Ticket) : Deployment where
  wire := .start config job aofFd createdMs now realtime clientTimeoutS
  serial := fun _ => 0
  opened := 0
  pool := .idle disk

end Deployment

/-! ## The relation -/

/-- The deployment is in line with the system. Numbers of open connections are distinct, and a report that is being
written says what its attempt has returned. -/
structure Deployment.Refines (d : Deployment) (s : System) : Prop where
  wire : d.wire.Refines s.cluster
  serial : s.cluster.serial = d.serial
  opened : s.cluster.opened = d.opened
  pool : s.pool = d.pool
  early : ∀ fd, s.cluster.conns fd ≠ .closed → d.serial fd < d.opened
  distinct : ∀ fd other, s.cluster.conns fd ≠ .closed → s.cluster.conns other ≠ .closed →
    d.serial fd = d.serial other → fd = other
  reports : ∀ fd kind msg left, s.cluster.conns fd ≠ .closed →
    (d.wire.workers fd).point = .sending (.taskDone kind msg) left →
    d.pool.returned (d.ticket fd kind msg.taskId msg.attemptId) = some (msg.result == 0)

def Deployment.Event.Explains : Deployment.Event → Move → Prop
  | .wire event, .incident incident => event.Explains incident
  | .wire (.worker _ .quit), .die _ => True
  | .call ticket outcome, .call ticket' outcome' => ticket' = ticket ∧ outcome' = outcome
  | .die ticket, .die ticket' => ticket' = ticket
  | _, _ => False

section Steps

variable {qsort : QSort} {pid : Nat → Nat} {d d' : Deployment} {s s' : System}

theorem Deployment.Refines.move (refines : d.Refines s) (wire : d'.wire.Refines s'.cluster)
    (numbers : s'.cluster.serial = s.cluster.serial ∧ s'.cluster.opened = s.cluster.opened)
    (same : d'.serial = d.serial ∧ d'.opened = d.opened) (pool : s'.pool = d'.pool)
    (kept : ∀ fd, s'.cluster.conns fd ≠ .closed → s.cluster.conns fd ≠ .closed)
    (reports : ∀ fd kind msg left, s.cluster.conns fd ≠ .closed →
      (d'.wire.workers fd).point = .sending (.taskDone kind msg) left →
      d'.pool.returned (d.ticket fd kind msg.taskId msg.attemptId) = some (msg.result == 0)) : d'.Refines s' where
  wire := wire
  serial := by rw [numbers.1, refines.serial, same.1]
  opened := by rw [numbers.2, refines.opened, same.2]
  pool := pool
  early fd isOpen := by
    rw [same.1, same.2]
    exact refines.early fd (kept fd isOpen)
  distinct fd other isOpen otherOpen equal := by
    rw [same.1] at equal
    exact refines.distinct fd other (kept fd isOpen) (kept other otherOpen) equal
  reports fd kind msg left isOpen sending := by
    unfold Deployment.ticket
    rw [same.1]
    exact reports fd kind msg left (kept fd isOpen) sending

theorem Deployment.Refines.stays (refines : d.Refines s) {fits : Move → Prop} :
    Runs.Reaches (System.next qsort pid) fits s ⟨s.cluster, d.pool⟩ := by
  rw [← refines.pool]
  exact .refl s

/-! ## The attempts -/

theorem Deployment.Refines.attempt {pool : Pool} {action : Interference.Action Ticket Outcome}
    (refines : d.Refines s) (taken : Interference.next Disk.serve d.pool action = some pool) :
    Deployment.Refines { d with pool := pool } ⟨s.cluster, pool⟩ :=
  refines.move refines.wire ⟨rfl, rfl⟩ ⟨rfl, rfl⟩ rfl (fun _ isOpen => isOpen) fun fd kind msg left isOpen sending =>
    returned_next d.pool action pool (refines.reports fd kind msg left isOpen sending) taken

/-! ## The server -/

theorem System.next_incident {incident : Incident} {c : Cluster} {pool : Pool} (truthful : s.truthful incident = true)
    (taken : s.cluster.survive incident = some c) (started : s.started qsort pid incident = pool) :
    s.next qsort pid (.incident incident) = some ⟨c, pool⟩ := by
  simp only [System.next, truthful, taken, started, ↓reduceIte, Option.map_some]

def Incident.Served : Incident → Prop
  | .action (.deliver _ _) | .action (.disconnect _) | .action (.periodic _ _) => True
  | _ => False

theorem Wire.Event.Explains.served {event : Server.Event LogEnv} {incident : Incident}
    (other : ∀ fd, event ≠ .accept (.taken fd true)) (explains : (Wire.Event.server event).Explains incident) :
    incident.Served := by
  unfold Wire.Event.Explains at explains
  split at explains
  next fd _ joins => exact absurd (Wire.Event.server.inj joins) (other fd)
  next => exact trivial
  next => exact trivial
  next => exact trivial
  next => exact trivial
  next worker => cases worker
  next crash => cases crash
  next => exact explains.elim

/-- The connections that are open in the second state were open in the first, under their numbers. -/
structure Cluster.Keeps (c c' : Cluster) : Prop where
  numbers : c'.serial = c.serial ∧ c'.opened = c.opened
  open_before : ∀ fd, c'.conns fd ≠ .closed → c.conns fd ≠ .closed

theorem Cluster.Keeps.trans {a b c : Cluster} (first : a.Keeps b) (second : b.Keeps c) : a.Keeps c where
  numbers := ⟨second.numbers.1.trans first.numbers.1, second.numbers.2.trans first.numbers.2⟩
  open_before fd isOpen := first.open_before fd (second.open_before fd isOpen)

theorem Cluster.delivered_opened (c : Cluster) (fd : Fd) (env : Env) (r : Reply) :
    (c.delivered fd env r).opened = c.opened := by
  unfold delivered
  simp only
  split <;> rfl

theorem Cluster.survive_keeps {c c' : Cluster} {incident : Incident} (served : incident.Served)
    (taken : c.survive incident = some c') : c.Keeps c' := by
  cases incident with
  | crash => exact served.elim
  | action action =>
    have moved : ∀ (fd : Fd) (conn : Conn), c.conns fd ≠ .closed → c'.conns = Function.update c.conns fd conn →
        ∀ other, c'.conns other ≠ .closed → c.conns other ≠ .closed := by
      intro fd conn isOpen same other later
      by_cases here : other = fd
      · exact here ▸ isOpen
      · rwa [same, Function.update_of_ne here] at later
    cases action with
    | deliver fd env =>
      -- A closed connection has nothing to deliver.
      simp only [Cluster.survive, Cluster.next, Option.bind_eq_bind, Option.bind_eq_some_iff] at taken
      obtain ⟨bytes, outgoing, r, -, same⟩ := taken
      cases same
      have isOpen : c.conns fd ≠ .closed := by
        intro closed
        rw [closed] at outgoing
        cases outgoing
      refine ⟨⟨c.delivered_serial fd env r, c.delivered_opened fd env r⟩, ?_⟩
      rcases c.delivered_conns fd env r with ⟨-, payload, -, -, conns⟩ | conns
      · exact moved fd _ isOpen conns
      · exact moved fd _ isOpen conns
    | disconnect fd =>
      simp only [Cluster.survive, Cluster.next] at taken
      split at taken
      · cases taken
      next isOpen =>
        cases taken
        exact ⟨⟨rfl, rfl⟩, moved fd _ isOpen rfl⟩
    | periodic now realtime =>
      simp only [Cluster.survive, Cluster.next] at taken
      split at taken
      · obtain ⟨r, -, rfl⟩ := Option.map_eq_some_iff.mp taken
        exact ⟨⟨rfl, rfl⟩, fun _ isOpen => isOpen⟩
      · cases taken
    | connect | ask | receive | finish | confirm => exact served.elim

theorem System.next_served {incident : Incident} {c : Cluster} (served : incident.Served)
    (taken : s.cluster.survive incident = some c) : s.next qsort pid (.incident incident) = some ⟨c, s.pool⟩ := by
  cases incident with
  | crash => exact served.elim
  | action action =>
    cases action with
    | deliver | disconnect | periodic => exact System.next_incident rfl taken rfl
    | connect | ask | receive | finish | confirm => exact served.elim

theorem System.reaches_served {fits : Incident → Prop} {c : Cluster}
    (served : ∀ incident, fits incident → incident.Served) (reaches : Runs.Reaches Cluster.survive fits s.cluster c) :
    s.cluster.Keeps c ∧ Runs.Reaches (System.next qsort pid)
      (fun move => ∃ incident, move = .incident incident ∧ fits incident) s ⟨c, s.pool⟩ := by
  obtain ⟨incidents, all, ran⟩ := reaches
  induction incidents generalizing s with
  | nil =>
    cases ran
    exact ⟨⟨⟨rfl, rfl⟩, fun _ isOpen => isOpen⟩, .refl s⟩
  | cons incident rest ih =>
    obtain ⟨mid, taken, later⟩ := Runs.run_cons.mp ran
    have fit := all incident List.mem_cons_self
    have step : s.next qsort pid (.incident incident) = some ⟨mid, s.pool⟩ := System.next_served (served _ fit) taken
    obtain ⟨keeps, reaches⟩ := ih (s := ⟨mid, s.pool⟩)
      (fun other member => all other (List.mem_cons_of_mem _ member)) later
    exact ⟨(Cluster.survive_keeps (served _ fit) taken).trans keeps, .head ⟨incident, rfl, fit⟩ step reaches⟩

theorem Wire.next_workers {w w' : Wire} {event : Server.Event LogEnv} (taken : w.next (.server event) = some w') :
    w'.workers = w.joined event := by
  simp only [Wire.next] at taken
  split at taken
  · obtain ⟨after, -, rfl⟩ := Option.map_eq_some_iff.mp taken
    rfl
  · cases taken

theorem Wire.joined_other {w : Wire} {event : Server.Event LogEnv} (other : ∀ fd, event ≠ .accept (.taken fd true)) :
    w.joined event = w.workers := by
  unfold Wire.joined
  split
  next fd => exact absurd rfl (other fd)
  · rfl

theorem Deployment.Refines.server {event : Server.Event LogEnv} {w : Wire} (refines : d.Refines s)
    (other : ∀ fd, event ≠ .accept (.taken fd true)) (taken : d.wire.next (.server event) = some w) :
    ∃ s', Runs.Reaches (System.next qsort pid) (Deployment.Event.wire (.server event)).Explains s s' ∧
      Deployment.Refines { d with wire := w } s' := by
  obtain ⟨c, reaches, aligned⟩ := refines.wire.server taken
  obtain ⟨keeps, reaches⟩ := System.reaches_served (fun _ explains => explains.served other) reaches
  have workers : w.workers = d.wire.workers := (Wire.next_workers taken).trans (Wire.joined_other other)
  refine ⟨⟨c, s.pool⟩, reaches.mono ?_, refines.move aligned keeps.numbers ⟨rfl, rfl⟩ refines.pool keeps.open_before ?_⟩
  · rintro move ⟨incident, rfl, explains⟩
    exact explains
  · intro fd kind msg left isOpen sending
    simp only [workers] at sending
    exact refines.reports fd kind msg left isOpen sending

theorem Deployment.Refines.accept {fd : Fd} {w : Wire} (refines : d.Refines s)
    (taken : d.wire.next (.server (.accept (.taken fd true))) = some w) :
    ∃ s', s.next qsort pid (.incident (.action (.connect fd))) = some s' ∧
      Deployment.Refines ⟨w, Function.update d.serial fd d.opened, d.opened + 1, d.pool⟩ s' := by
  obtain ⟨c, connected, aligned⟩ := refines.wire.accept taken
  have workers : w.workers = Function.update d.wire.workers fd .start := Wire.next_workers taken
  refine ⟨⟨c, s.pool⟩, System.next_incident rfl connected rfl, ?_⟩
  simp only [Cluster.survive, Cluster.next] at connected
  split at connected
  · cases connected
    have others : ∀ other, other ≠ fd → Function.update s.cluster.conns fd .idle other ≠ .closed →
        s.cluster.conns other ≠ .closed := by
      intro other differs isOpen
      rwa [Function.update_of_ne differs] at isOpen
    refine ⟨aligned, ?_, ?_, refines.pool, ?_, ?_, ?_⟩
    · simp only [Cluster.setConn, Cluster.setMaster, refines.serial, refines.opened]
    · simp only [Cluster.setConn, Cluster.setMaster, refines.opened]
    · intro other isOpen
      by_cases same : other = fd
      · subst same
        simp only [Function.update_self]
        omega
      · have before := refines.early other (others other same isOpen)
        simp only [Function.update_of_ne same]
        omega
    · -- The new number is `opened`, and all others are below it.
      intro first second firstOpen secondOpen equal
      by_cases here : first = fd <;> by_cases there : second = fd
      · rw [here, there]
      · have before := refines.early second (others second there secondOpen)
        simp only [here, Function.update_self, Function.update_of_ne there] at equal
        omega
      · have before := refines.early first (others first here firstOpen)
        simp only [there, Function.update_self, Function.update_of_ne here] at equal
        omega
      · simp only [Function.update_of_ne here, Function.update_of_ne there] at equal
        exact refines.distinct first second (others first here firstOpen) (others second there secondOpen) equal
    · intro other kind msg left isOpen sending
      by_cases same : other = fd
      · -- A process that has just connected writes a request for a task.
        subst same
        simp only [workers, Function.update_self, Process.start, Point.send_eq] at sending
        cases sending
      · simp only [workers, Function.update_of_ne same] at sending
        simp only [Deployment.ticket, Function.update_of_ne same]
        exact refines.reports other kind msg left (others other same isOpen) sending
  · cases connected

theorem Deployment.Refines.crash {aofFd : Nat} {now realtime : Int} {w : Wire} (refines : d.Refines s)
    (taken : d.wire.next (.crash aofFd now realtime) = some w) :
    ∃ s', s.next qsort pid (.incident (.crash aofFd now realtime)) = some s' ∧
      Deployment.Refines { d with wire := w } s' := by
  obtain ⟨c, survived, aligned⟩ := refines.wire.crash taken
  have step : s.next qsort pid (.incident (.crash aofFd now realtime)) = some ⟨c, s.pool⟩ :=
    System.next_incident rfl survived rfl
  obtain ⟨world, -, rfl⟩ := Option.map_eq_some_iff.mp survived
  refine ⟨_, step, refines.move aligned ⟨rfl, rfl⟩ ⟨rfl, rfl⟩ refines.pool (fun fd isOpen => absurd rfl isOpen) ?_⟩
  obtain ⟨booted, -, rfl⟩ := Option.map_eq_some_iff.mp taken
  exact refines.reports

/-! ## The workers -/

theorem Point.receive_not_report (x : Exchange) (got : Bytes) (kind : TaskKind) (msg : TaskDoneReq) (left : Bytes) :
    Point.receive x got ≠ .sending (.taskDone kind msg) left := by
  intro reports
  unfold Point.receive at reports
  split at reports
  · cases reports
  · cases reports
  next payload _ =>
    cases x with
    | getTask =>
      simp only [Exchange.answered] at reports
      split at reports <;> cases reports
    | taskDone _ _ =>
      simp only [Exchange.answered] at reports
      split at reports
      · rw [Point.send_eq] at reports
        cases reports
      · cases reports

section Worker

variable {fd : Fd} {p : Process}

theorem Deployment.Refines.called {call : Call} {pool : Pool} (refines : d.Refines s)
    (active : (d.wire.server.clients fd).active = true)
    (made : (d.wire.workers fd).next (d.wire.available fd) call = some p)
    (own : ∀ kind msg left, p.point = .sending (.taskDone kind msg) left →
      pool.returned (d.ticket fd kind msg.taskId msg.attemptId) = some (msg.result == 0))
    (others : ∀ t value, t.process ≠ d.serial fd → d.pool.returned t = some value → pool.returned t = some value)
    (step : ∀ c, ((d.wire.workers fd).completes fd (d.wire.available fd) call).elim (some s.cluster) s.cluster.next =
      some c → Runs.Reaches (System.next qsort pid) (Deployment.Event.wire (.worker fd call)).Explains s ⟨c, pool⟩) :
    ∃ s', Runs.Reaches (System.next qsort pid) (Deployment.Event.wire (.worker fd call)).Explains s s' ∧
      Deployment.Refines ⟨{ d.wire with workers := Function.update d.wire.workers fd p }, d.serial, d.opened, pool⟩
        s' := by
  obtain ⟨conn, c, advances, fits⟩ := (refines.wire.aligned.fits active).call rfl made
  have isOpen := (refines.wire.aligned.fits active).linked.not_closed
  refine ⟨⟨c, pool⟩, step c advances.taken, refines.move (refines.wire.called active advances fits) advances.numbers
    ⟨rfl, rfl⟩ rfl ?_ ?_⟩
  · intro other later
    by_cases same : other = fd
    · exact same ▸ isOpen
    · rwa [advances.conns, Function.update_of_ne same] at later
  · intro other kind msg left otherOpen sending
    by_cases same : other = fd
    · subst same
      simp only [Function.update_self] at sending
      exact own kind msg left sending
    · simp only [Function.update_of_ne same] at sending
      have before := refines.reports other kind msg left otherOpen sending
      -- The attempts that the call touches belong to the process of this connection.
      refine others _ _ (fun equal => same ?_) before
      exact refines.distinct other fd otherOpen isOpen equal

theorem startedBy_process {process : Nat} {payload : Bytes} {ticket : Ticket} {program : Proc Bool}
    (started : startedBy qsort pid process payload = some (ticket, program)) : ticket.process = process := by
  unfold startedBy at started
  split at started
  · cases started
    rfl
  · cases started
    rfl
  all_goals cases started

theorem Deployment.Refines.asks {x : Exchange} {left : Bytes} (refines : d.Refines s)
    (active : (d.wire.server.clients fd).active = true) (at_point : (d.wire.workers fd).point = .sending x left)
    {c : Cluster} (taken : s.cluster.next (x.asks fd) = some c) :
    s.next qsort pid (.incident (.action (x.asks fd))) = some ⟨c, d.pool⟩ := by
  have linked := (refines.wire.aligned.fits active).linked
  have isOpen := linked.not_closed
  cases x with
  | getTask => exact System.next_incident rfl taken refines.pool
  | taskDone kind msg =>
    refine System.next_incident ?_ taken refines.pool
    have told := refines.reports fd kind msg left isOpen at_point
    rw [at_point] at linked
    cases linked with
    | sending _ _ before =>
      simp only [Exchange.asks, System.truthful, before.1, refines.pool, refines.serial]
      exact beq_iff_eq.mpr told

theorem Deployment.Refines.ends {x : Exchange} {got payload : Bytes} {n : Nat} (refines : d.Refines s)
    (active : (d.wire.server.clients fd).active = true) (at_point : (d.wire.workers fd).point = .receiving x got)
    (whole : frontFrame (got ++ (d.wire.available fd).take n) = .message payload)
    {c : Cluster} (taken : s.cluster.next (x.ends fd) = some c) :
    s.next qsort pid (.incident (.action (x.ends fd))) = some ⟨c, d.attempts qsort pid (.worker fd (.read n))⟩ := by
  have linked := (refines.wire.aligned.fits active).linked
  cases x with
  | taskDone kind msg =>
    refine System.next_incident rfl taken ?_
    simp only [Deployment.attempts, at_point]
    exact refines.pool
  | getTask =>
    refine System.next_incident rfl taken ?_
    rw [at_point] at linked
    have arrived := (List.take_prefix n (d.wire.available fd)).trans (d.wire.available_prefix fd)
    have stage : s.cluster.conns fd = .answered payload := linked.answered arrived whole
    cases started : startedBy qsort pid (d.serial fd) payload <;>
      simp only [Deployment.attempts, at_point, whole, Exchange.ends, System.started, stage, refines.serial,
        refines.pool, started]

theorem Deployment.Refines.quits (refines : d.Refines s) (qsort : QSort) (pid : Nat → Nat) (fd : Fd) :
    Runs.Reaches (System.next qsort pid) (Deployment.Event.wire (.worker fd .quit)).Explains s
        ⟨s.cluster, d.attempts qsort pid (.worker fd .quit)⟩ ∧
      ∀ t value, d.pool.returned t = some value →
        (d.attempts qsort pid (.worker fd .quit)).returned t = some value := by
  simp only [Deployment.attempts]
  split
  next kind taskId attemptId _ =>
    cases taken : Interference.next Disk.serve d.pool (.crash (d.ticket fd kind taskId attemptId)) with
    | none => exact ⟨refines.stays, fun _ _ returned => returned⟩
    | some pool =>
      have step : s.next qsort pid (.die (d.ticket fd kind taskId attemptId)) = some ⟨s.cluster, pool⟩ := by
        simp only [System.next, refines.pool, taken, Option.map_some]
      have own : (Deployment.Event.wire (.worker fd .quit)).Explains
        (.die (d.ticket fd kind taskId attemptId)) := trivial
      exact ⟨.one own step, fun t value returned => returned_next d.pool _ pool returned taken⟩
  · exact ⟨refines.stays, fun _ _ returned => returned⟩

theorem Deployment.attempts_read (d : Deployment) (n : Nat) {t : Ticket} {value : Bool}
    (other : t.process ≠ d.serial fd) (returned : d.pool.returned t = some value) :
    (d.attempts qsort pid (.worker fd (.read n))).returned t = some value := by
  simp only [Deployment.attempts]
  split
  · split
    next payload _ =>
      split
      next ticket program started =>
        have apart : t ≠ ticket := by
          rintro rfl
          exact other (startedBy_process started)
        rw [Config.returned_iff] at returned ⊢
        exact (Function.update_of_ne apart _ _).trans returned
      · exact returned
    · exact returned
    · exact returned
  · exact returned

theorem Deployment.attempts_short (d : Deployment) {x : Exchange} {got : Bytes} {n : Nat}
    (at_point : (d.wire.workers fd).point = .receiving x got)
    (short : ∀ payload, frontFrame (got ++ (d.wire.available fd).take n) ≠ .message payload) :
    d.attempts qsort pid (.worker fd (.read n)) = d.pool := by
  simp only [Deployment.attempts]
  split
  next got' at_point' =>
    cases at_point.symm.trans at_point'
    split
    next payload whole => exact absurd whole (short payload)
    · rfl
    · rfl
  · rfl

theorem Deployment.Refines.writes {x : Exchange} {left : Bytes} {n : Nat} (refines : d.Refines s)
    (active : (d.wire.server.clients fd).active = true) (at_point : (d.wire.workers fd).point = .sending x left)
    {c : Cluster} (advanced : ((d.wire.workers fd).completes fd (d.wire.available fd) (.write n)).elim
      (some s.cluster) s.cluster.next = some c) :
    Runs.Reaches (System.next qsort pid) (Deployment.Event.wire (.worker fd (.write n))).Explains s ⟨c, d.pool⟩ := by
  simp only [Process.completes, at_point] at advanced
  split at advanced
  · have own : (Deployment.Event.wire (.worker fd (.write n))).Explains (.incident (.action (x.asks fd))) :=
      x.asks_own fd
    exact .one own (refines.asks active at_point advanced)
  · cases advanced
    exact refines.stays

theorem Deployment.Refines.reads {x : Exchange} {got : Bytes} {n : Nat} (refines : d.Refines s)
    (active : (d.wire.server.clients fd).active = true) (at_point : (d.wire.workers fd).point = .receiving x got)
    {c : Cluster} (advanced : ((d.wire.workers fd).completes fd (d.wire.available fd) (.read n)).elim
      (some s.cluster) s.cluster.next = some c) :
    Runs.Reaches (System.next qsort pid) (Deployment.Event.wire (.worker fd (.read n))).Explains s
      ⟨c, d.attempts qsort pid (.worker fd (.read n))⟩ := by
  simp only [Process.completes, at_point] at advanced
  split at advanced
  next payload whole =>
    have own : (Deployment.Event.wire (.worker fd (.read n))).Explains (.incident (.action (x.ends fd))) :=
      x.ends_own fd
    exact .one own (refines.ends active at_point whole advanced)
  next short =>
    cases advanced
    rw [d.attempts_short at_point fun payload whole => by rw [short] at whole; cases whole]
    exact refines.stays
  next large =>
    -- The worker gives up on such a response, so it starts nothing either.
    cases advanced
    rw [d.attempts_short at_point fun payload whole => by rw [large] at whole; cases whole]
    exact refines.stays

theorem Deployment.Refines.worker {call : Call} {w : Wire} (refines : d.Refines s)
    (truthful : d.truthful (.worker fd call) = true) (taken : d.wire.next (.worker fd call) = some w) :
    ∃ s', Runs.Reaches (System.next qsort pid) (Deployment.Event.wire (.worker fd call)).Explains s s' ∧
      Deployment.Refines ⟨w, d.serial, d.opened, d.attempts qsort pid (.worker fd call)⟩ s' := by
  simp only [Wire.next] at taken
  split at taken
  next active =>
    obtain ⟨p, made, rfl⟩ := Option.map_eq_some_iff.mp taken
    have isOpen := (refines.wire.aligned.fits active).linked.not_closed
    have step := Process.next_step made
    cases step with
    | @wrote x left n at_point inside =>
      refine refines.called active made (fun kind msg rest sending => ?_) (fun _ _ _ returned => returned) ?_
      · by_cases all : n = left.length
        · simp only [if_pos all] at sending
          cases sending
        · simp only [if_neg all] at sending
          cases sending
          exact refines.reports fd kind msg left isOpen at_point
      · intro c advanced
        exact refines.writes active at_point advanced
    | @took x got n at_point some_byte inside =>
      refine refines.called active made (fun kind msg rest sending => ?_)
        (fun _ _ other returned => d.attempts_read n other returned) ?_
      · exact absurd sending (Point.receive_not_report x _ kind msg rest)
      · intro c advanced
        exact refines.reads active at_point advanced
    | @finished kind taskId attemptId success at_point =>
      refine refines.called active made (fun kind' msg rest sending => ?_) (fun _ _ _ returned => returned) ?_
      · -- The report carries the result that the attempt has returned.
        simp only [Point.send_eq] at sending
        cases sending
        simp only [Deployment.truthful, at_point, beq_iff_eq] at truthful
        rw [show ((if success then 0 else 1 : UInt8) == 0) = success by cases success <;> rfl]
        exact truthful
      · intro c advanced
        cases advanced
        exact refines.stays
    | woke at_point =>
      refine refines.called active made (fun kind msg rest sending => ?_) (fun _ _ _ returned => returned) ?_
      · simp only [Point.send_eq] at sending
        cases sending
      · intro c advanced
        cases advanced
        exact refines.stays
    | quit =>
      obtain ⟨reaches, kept⟩ := refines.quits qsort pid fd
      refine refines.called active made (fun kind msg rest sending => ?_)
        (fun t value _ returned => kept t value returned) ?_
      · exact kept _ _ (refines.reports fd kind msg rest isOpen sending)
      · intro c advanced
        cases advanced
        exact reaches
  · cases taken

end Worker

/-! ## Runs -/

theorem Deployment.numbered_other (d : Deployment) {event : Server.Event LogEnv}
    (other : ∀ fd, event ≠ .accept (.taken fd true)) : d.numbered (.server event) = (d.serial, d.opened) := by
  unfold Deployment.numbered
  split
  next fd same => exact absurd (Wire.Event.server.inj same) (other fd)
  · rfl

theorem Deployment.refines_next (d : Deployment) (event : Deployment.Event) (d' : Deployment) (s : System)
    (refines : d.Refines s) (taken : d.next qsort pid event = some d') :
    ∃ s', Runs.Reaches (System.next qsort pid) event.Explains s s' ∧ d'.Refines s' := by
  cases event with
  | wire event =>
    simp only [Deployment.next] at taken
    split at taken
    next truthful =>
      obtain ⟨w, ran, rfl⟩ := Option.map_eq_some_iff.mp taken
      cases event with
      | worker fd call => exact refines.worker truthful ran
      | crash aofFd now realtime =>
        obtain ⟨s', step, after⟩ := refines.crash ran
        have own : (Deployment.Event.wire (.crash aofFd now realtime)).Explains
          (.incident (.crash aofFd now realtime)) := ⟨rfl, rfl, rfl⟩
        exact ⟨s', .one own step, after⟩
      | server event =>
        by_cases joins : ∃ fd, event = .accept (.taken fd true)
        · obtain ⟨fd, rfl⟩ := joins
          obtain ⟨s', step, after⟩ := refines.accept ran
          have own : (Deployment.Event.wire (.server (.accept (.taken fd true)))).Explains
            (.incident (.action (.connect fd))) := rfl
          exact ⟨s', .one own step, after⟩
        · have other : ∀ fd, event ≠ .accept (.taken fd true) := fun fd same => joins ⟨fd, same⟩
          rw [d.numbered_other other]
          exact refines.server other ran
    · cases taken
  | call ticket outcome =>
    obtain ⟨pool, stepped, rfl⟩ := Option.map_eq_some_iff.mp taken
    have own : (Deployment.Event.call ticket outcome).Explains (.call ticket outcome) := ⟨rfl, rfl⟩
    have step : s.next qsort pid (.call ticket outcome) = some ⟨s.cluster, pool⟩ := by
      simp only [System.next, refines.pool, stepped, Option.map_some]
    exact ⟨_, .one own step, refines.attempt stepped⟩
  | die ticket =>
    obtain ⟨pool, stepped, rfl⟩ := Option.map_eq_some_iff.mp taken
    have own : (Deployment.Event.die ticket).Explains (.die ticket) := rfl
    have step : s.next qsort pid (.die ticket) = some ⟨s.cluster, pool⟩ := by
      simp only [System.next, refines.pool, stepped, Option.map_some]
    exact ⟨_, .one own step, refines.attempt stepped⟩

end Steps

theorem Deployment.start_refines (config : MasterConfig) (job : JobDef) (aofFd : Nat) (createdMs : UInt64)
    (now realtime clientTimeoutS : Int) (disk : Disk Ticket) :
    (Deployment.start config job aofFd createdMs now realtime clientTimeoutS disk).Refines
      (.start config job aofFd createdMs now realtime disk) where
  wire := Wire.start_refines config job aofFd createdMs now realtime clientTimeoutS
  serial := rfl
  opened := rfl
  pool := rfl
  early _ isOpen := absurd rfl isOpen
  distinct _ _ isOpen := absurd rfl isOpen
  reports _ _ _ _ isOpen := absurd rfl isOpen

/-! ## Word count over sockets -/

/-- The loop never ticks, and the log is written whenever a message is handled. -/
def Deployment.Event.Usual : Deployment.Event → Prop
  | .wire (.server (.beforeSleep _ _)) => False
  | .wire (.server (.readable _ _ during)) | .wire (.server (.writable _ _ during)) =>
    ∀ k, WriteResult.accepted (during k).1.write aofRecordSize = aofRecordSize ∧ (during k).1.flush = true
  | _ => True

theorem Deployment.Event.Usual.incident {event : Wire.Event} {happened : Incident}
    (usual : (Deployment.Event.wire event).Usual) (explains : event.Explains happened) :
    happened.Untimed ∧ happened.LogWritten := by
  unfold Wire.Event.Explains at explains
  split at explains
  · exact ⟨trivial, trivial⟩
  · obtain ⟨-, k, outcome, rfl⟩ := explains
    exact ⟨trivial, usual k⟩
  · obtain ⟨-, k, outcome, rfl⟩ := explains
    exact ⟨trivial, usual k⟩
  · exact usual.elim
  · exact ⟨trivial, trivial⟩
  · unfold Incident.Of at explains
    split at explains
    · exact ⟨trivial, trivial⟩
    · exact ⟨trivial, trivial⟩
    · exact ⟨trivial, trivial⟩
    · exact ⟨trivial, trivial⟩
    · exact explains.elim
  · exact ⟨trivial, trivial⟩
  · exact explains.elim

theorem Deployment.Event.Usual.move {event : Deployment.Event} {move : Move} (usual : event.Usual)
    (explains : event.Explains move) : move.Usual := by
  cases move with
  | call | die => exact trivial
  | incident happened =>
    cases event with
    | wire event => exact usual.incident explains
    | call | die => exact explains.elim

end MapReduce
