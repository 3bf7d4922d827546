import MapReduce.Server.Answers
import MapReduce.Server.Reassembly
import MapReduce.Wire.Line

/-! The server and its workers, byte by byte.

The kernel carries what each side writes to the other in order, and every call
moves as many bytes as it likes. The server is the one of `server.c` with the
master behind it, a worker is a process at one of its calls, and the master can
crash and boot from its log. A worker whose connection the server has closed
leaves the model, as nothing it still does reaches the master.

Every run is matched by a run of the cluster, where whole messages are handed
over at once: a request counts as made when its last byte is written, a response
as received when its last byte is read.
-/

set_option autoImplicit false

namespace MapReduce

structure Wire where
  server : Server (Tracked World)
  workers : Fd → Process

namespace Wire

def stream (w : Wire) (fd : Fd) : Bytes := (w.server.app.sent fd).flatMap frame

/-- The part of it that has left the write buffer and that the worker has not read. -/
def available (w : Wire) (fd : Fd) : Bytes :=
  ((w.stream fd).take ((w.stream fd).length - (w.server.clients fd).pending.length)).drop (w.workers fd).consumed

/-- What the worker has written and the server has not handled, in the socket or in the read buffer. -/
def inbound (w : Wire) (fd : Fd) : Bytes :=
  (w.server.clients fd).buf ++ (w.workers fd).written.drop (w.server.sessions fd).received.length

/-- What the server has sent and the worker has not read, in the socket or in the write buffer. -/
def outbound (w : Wire) (fd : Fd) : Bytes := (w.stream fd).drop (w.workers fd).consumed

theorem available_prefix (w : Wire) (fd : Fd) : w.available fd <+: w.outbound fd := by
  unfold available outbound
  rw [List.drop_take]
  exact List.take_prefix _ _

/-- Only what a worker has written is read from its connection, and the monotonic clock does not go back. -/
def Possible (w : Wire) : Server.Event LogEnv → Prop
  | .readable fd (.data chunk) _ => (w.server.sessions fd).received ++ chunk <+: (w.workers fd).written
  | .beforeSleep now _ => w.server.app.state.master.nowMs ≤ now
  | _ => True

instance Possible.decidable (w : Wire) : (event : Server.Event LogEnv) → Decidable (w.Possible event)
  | .readable fd (.data chunk) _ =>
    inferInstanceAs (Decidable ((w.server.sessions fd).received ++ chunk <+: (w.workers fd).written))
  | .beforeSleep now _ => inferInstanceAs (Decidable (w.server.app.state.master.nowMs ≤ now))
  | .accept _ | .readable _ .closed _ | .readable _ .again _ | .readable _ .hardError _ | .writable _ _ _
  | .checkTimeouts | .shutdown => .isTrue trivial

/-- An accepted connection brings a worker that has just connected. -/
def joined (w : Wire) : Server.Event LogEnv → Fd → Process
  | .accept (.taken fd true) => Function.update w.workers fd .start
  | _ => w.workers

inductive Event where
  | server (event : Server.Event LogEnv)
  | worker (fd : Fd) (call : Call)
  | crash (aofFd : Nat) (now realtime : Int)

def next (w : Wire) : Event → Option Wire
  | .server event =>
    if w.Possible event then (w.server.next masterApp.tracked event).map fun server => ⟨server, w.joined event⟩
    else none
  | .worker fd call =>
    if (w.server.clients fd).active then
      ((w.workers fd).next (w.available fd) call).map fun p => { w with workers := Function.update w.workers fd p }
    else none
  | .crash aofFd now realtime =>
    (masterBootstrapJob w.server.app.state.master.config [] w.server.app.state.log (.good aofFd 0)).map fun world =>
      let booted : World := { world with master := masterInit world.master now realtime }
      { w with server := .init ⟨booted, fun _ => []⟩ now w.server.clientTimeoutS }

def start (config : MasterConfig) (job : JobDef) (aofFd : Nat) (createdMs : UInt64)
    (now realtime clientTimeoutS : Int) : Wire where
  server := .init ⟨World.start config job aofFd createdMs now realtime, fun _ => []⟩ now clientTimeoutS
  workers := fun _ => .start

def Event.server? : Event → Option (Server.Event LogEnv)
  | .server event => some event
  | .worker _ _ | .crash _ _ _ => none

/-- Between crashes the server of the wire runs as the one of `server.c` does: the record of what it has sent decides
nothing. -/
theorem server_runs {w final : Wire} {events : List Event}
    (up : ∀ aofFd now realtime, Event.crash aofFd now realtime ∉ events)
    (reached : Runs.run next w events = some final) :
    Runs.run (Server.next masterApp) w.server.erase (events.filterMap Event.server?) = some final.server.erase := by
  induction events generalizing w with
  | nil =>
    cases reached
    rfl
  | cons event rest ih =>
    obtain ⟨mid, taken, remaining⟩ := Runs.run_cons.mp reached
    have later := ih (fun aofFd now realtime member => up aofFd now realtime (List.mem_cons_of_mem _ member)) remaining
    cases event with
    | server event =>
      simp only [List.filterMap_cons, Event.server?]
      refine Runs.run_cons.mpr ⟨mid.server.erase, ?_, later⟩
      simp only [next] at taken
      split at taken
      · obtain ⟨after, ran, rfl⟩ := Option.map_eq_some_iff.mp taken
        rw [← Server.erase_next, ran, Option.map_some]
      · cases taken
    | worker fd call =>
      simp only [List.filterMap_cons, Event.server?]
      simp only [next] at taken
      split at taken
      · obtain ⟨p, -, rfl⟩ := Option.map_eq_some_iff.mp taken
        exact later
      · cases taken
    | crash aofFd now realtime => exact absurd List.mem_cons_self (up aofFd now realtime)

end Wire

/-! ## The relation -/

structure Aligned (s : Server (Tracked World)) (workers : Fd → Process) (c : Cluster) : Prop where
  world : c.world = s.app.state
  line : ∀ fd, Line (s.clients fd) (s.sessions fd).received (s.app.sent fd) (workers fd) (c.conns fd)

section Steps

variable {s after mid : Server (Tracked World)} {workers : Fd → Process} {c c' : Cluster} {fd : Fd}

theorem Aligned.move (aligned : Aligned s workers c) (moved : Server.Local fd s after)
    (sent : ∀ other, other ≠ fd → after.app.sent other = s.app.sent other)
    (conns : ∀ other, other ≠ fd → c'.conns other = c.conns other) (world : c'.world = after.app.state)
    (here : Line (after.clients fd) (after.sessions fd).received (after.app.sent fd) (workers fd) (c'.conns fd)) :
    Aligned after workers c' where
  world := world
  line := by
    intro other
    by_cases same : other = fd
    · exact same ▸ here
    · rw [moved.clients other same, moved.sessions other same, sent other same, conns other same]
      exact aligned.line other

theorem Aligned.fits (aligned : Aligned s workers c) (active : (s.clients fd).active = true) :
    Connected (s.clients fd) (s.sessions fd).received (s.app.sent fd) (workers fd) (c.conns fd) :=
  (aligned.line fd).kept active

theorem Aligned.remove (aligned : Aligned s workers c) (active : (s.clients fd).active = true) :
    ∃ c', c.survive (.action (.disconnect fd)) = some c' ∧
      Aligned (s.removeClient masterApp.tracked fd) workers c' := by
  refine ⟨(c.setMaster (masterOnDisconnect c.world.master fd)).setConn fd .closed,
    if_neg (aligned.fits active).linked.not_closed, ?_⟩
  refine aligned.move (Server.local_removeClient _ s fd) (fun _ _ => rfl) (fun other differs => ?_) ?_ ?_
  · exact Cluster.setConn_ne _ .closed differs
  · simp only [Cluster.setConn, Cluster.setMaster, aligned.world]
    rfl
  · rw [Cluster.setConn_self]
    simpa [Server.removeClient] using line_closed

theorem Cluster.delivered_answered {r : Reply} {reply : Bytes} (c : Cluster) (fd : Fd) (env : Env) (ok : r.ok = true)
    (sent : r.sent = some reply) : (c.delivered fd env r).world = r.toWorld ∧
      (c.delivered fd env r).conns = Function.update c.conns fd ((c.conns fd).replied reply) := by
  simp only [delivered, ok, sent]
  exact ⟨rfl, rfl⟩

theorem Cluster.delivered_refused {r : Reply} (c : Cluster) (fd : Fd) (env : Env) (failed : r.ok = false) :
    (c.delivered fd env r).world = ⟨masterOnDisconnect r.master fd, r.log⟩ ∧
      (c.delivered fd env r).conns = Function.update c.conns fd .closed := by
  simp only [delivered, failed]
  exact ⟨rfl, rfl⟩

section Message

variable {payload : Bytes} {env : LogEnv} {result : SendResult} {handling : Handling (Tracked World)} {ok : Bool}
  (aligned : Aligned s workers c) (active : (s.clients fd).active = true)
  (found : frontFrame (s.clients fd).buf = .message payload)
  (asked : masterApp.tracked.onMessage s.app fd payload env = some handling)

include aligned active found asked

theorem Aligned.deliver (handled : s.handle masterApp.tracked fd result handling = some (mid, ok)) :
    ∃ outcome r, c.survive (.action (.deliver fd (env.sending outcome))) =
        some (c.delivered fd (env.sending outcome) r) ∧ r.toWorld = mid.app.state ∧ r.ok = ok ∧
      (ok = true → ∃ reply, r.sent = some reply ∧ Server.Replied s mid fd reply result) ∧
      (ok = false → mid.app.sent = s.app.sent) := by
  obtain ⟨x, stage, -, rfl, -⟩ := (aligned.fits active).linked.found found
  obtain ⟨outcome, r, returned, rest⟩ := handle_callback asked handled
  have outgoing : (c.conns fd).outgoing = some x.payload := by
    rw [stage]
    cases x with
    | getTask => rfl
    | taskDone kind msg => exact rpcEncodeTaskDoneReq_eq msg
  rw [← aligned.world] at returned
  refine ⟨outcome, r, ?_, rest⟩
  simp [Cluster.survive, Cluster.next, outgoing, returned]

theorem Aligned.accepted (handled : s.handle masterApp.tracked fd result handling = some (mid, true))
    (kept : Server.Kept fd s mid) :
    ∃ outcome c', c.survive (.action (.deliver fd (env.sending outcome))) = some c' ∧
      (((mid.noteDelivered fd payload true).dropFrame fd (frameHdrSize + payload.length)).clients fd).active = true ∧
      Aligned ((mid.noteDelivered fd payload true).dropFrame fd (frameHdrSize + payload.length)) workers c' := by
  obtain ⟨outcome, r, taken, world, answered, sent, -⟩ := aligned.deliver active found asked handled
  obtain ⟨reply, reply_sent, replied⟩ := sent rfl
  obtain ⟨after_world, after_conns⟩ := c.delivered_answered fd (env.sending outcome) answered reply_sent
  have moved := kept.local.trans ((Server.local_noteDelivered mid fd payload true).trans
    (Server.local_dropFrame _ fd (frameHdrSize + payload.length)))
  have still : (((mid.noteDelivered fd payload true).dropFrame fd
      (frameHdrSize + payload.length)).clients fd).active = true := by
    simpa [Server.dropFrame, Server.setClient, Server.noteDelivered] using kept.read.active.trans active
  refine ⟨outcome, _, taken, still, ?_⟩
  refine aligned.move moved (fun other differs => ?_) (fun other differs => ?_) (after_world.trans world) ?_
  · exact (congrFun replied.sent other).trans (Function.update_of_ne differs _ _)
  · rw [after_conns, Function.update_of_ne differs]
  · refine .live still ?_
    have fits := (aligned.fits active).replied found replied.small replied.stored
    have buf : (mid.clients fd).buf = (s.clients fd).buf := kept.read.buf
    simp only [Server.dropFrame, Server.setClient, Server.noteDelivered, Function.update_self, replied.sent,
      replied.client, after_conns, kept.sessions]
    rw [replied.client] at buf
    rw [buf]
    exact fits

theorem Aligned.refused (handled : s.handle masterApp.tracked fd result handling = some (mid, false)) :
    ∃ outcome c', c.survive (.action (.deliver fd (env.sending outcome))) = some c' ∧
      Aligned ((mid.noteDelivered fd payload false).removeClient masterApp.tracked fd) workers c' := by
  obtain ⟨outcome, r, taken, world, failed, -, unsent⟩ := aligned.deliver active found asked handled
  obtain ⟨after_world, after_conns⟩ := c.delivered_refused fd (env.sending outcome) failed
  have moved := (Server.handle_local handled).trans ((Server.local_noteDelivered mid fd payload false).trans
    (Server.local_removeClient masterApp.tracked _ fd))
  refine ⟨outcome, _, taken, aligned.move moved (fun other _ => congrFun (unsent rfl) other) (fun other differs => ?_)
    ?_ ?_⟩
  · rw [after_conns, Function.update_of_ne differs]
  · rw [after_world]
    have same : mid.app.state = ⟨r.master, r.log⟩ := world.symm
    simp only [Server.removeClient, Server.noteDelivered, App.tracked, masterApp, same]
  · rw [after_conns, Function.update_self]
    simpa [Server.removeClient] using line_closed

end Message

/-! ## The callbacks of the server -/

theorem Aligned.received {chunk : Bytes} (aligned : Aligned s workers c) (active : (s.clients fd).active = true)
    (possible : (s.sessions fd).received ++ chunk <+: (workers fd).written) :
    Aligned ((s.setClient fd { s.clients fd with
      lastActiveMs := s.nowMs, buf := (s.clients fd).buf ++ chunk }).noteReceived fd chunk) workers c := by
  have moved := (Server.local_setClient s fd { s.clients fd with
    lastActiveMs := s.nowMs, buf := (s.clients fd).buf ++ chunk }).trans (Server.local_noteReceived _ fd chunk)
  refine aligned.move moved (fun _ _ => rfl) (fun _ _ => rfl) aligned.world ?_
  simp only [Server.noteReceived, Server.setClient, Function.update_self]
  exact .live active ((aligned.fits active).received s.nowMs possible)

theorem Aligned.flushed (aligned : Aligned s workers c) (active : (s.clients fd).active = true) (result : SocketWrite) :
    Aligned (s.setClient fd ((s.clients fd).flush result).client) workers c := by
  have fits := aligned.fits active
  have same := (s.clients fd).flush_sameRead result
  have stream := congrArg List.length (Client.flush_stream fits.buffered result)
  have consumed := fits.consumed
  rw [List.length_append] at stream
  refine aligned.move (Server.local_setClient s fd _) (fun _ _ => rfl) (fun _ _ => rfl) aligned.world ?_
  simp only [Server.setClient, Function.update_self]
  refine .live (same.active.trans active) ⟨Client.flush_buffered fits.buffered result, fits.read, by omega, ?_⟩
  rw [same.buf]
  exact fits.linked

section Callbacks

variable {fits : Incident → Prop} {during : During LogEnv}
  (delivers : ∀ k outcome, fits (.action (.deliver fd ((during k).1.sending outcome))))
  (disconnects : fits (.action (.disconnect fd)))

/-- The cluster goes on, by incidents of one sort, to a state that the server is in line with. -/
def Follows (fits : Incident → Prop) (c : Cluster) (s : Server (Tracked World)) (workers : Fd → Process) : Prop :=
  ∃ c', Runs.Reaches Cluster.survive fits c c' ∧ Aligned s workers c'

include disconnects in
theorem Aligned.removed (aligned : Aligned s workers c) (active : (s.clients fd).active = true) :
    Follows fits c (s.removeClient masterApp.tracked fd) workers := by
  obtain ⟨c', taken, after⟩ := aligned.remove active
  exact ⟨c', .one disconnects taken, after⟩

include delivers disconnects

/-- By induction on the rounds: each is a message that is delivered, and the last one ends them. -/
theorem Aligned.process {rounds k : Nat} (aligned : Aligned s workers c) (active : (s.clients fd).active = true)
    (processed : Server.processBuffer masterApp.tracked during fd rounds k s = some after) :
    Follows fits c after workers := by
  induction rounds generalizing k s c with
  | zero => cases processed
  | succ rounds ih =>
    cases Server.processBuffer_round processed with
    | waits short same => exact same ▸ ⟨c, .refl c, aligned⟩
    | oversize large removed => exact removed ▸ aligned.removed disconnects active
    | refused payload handling mid found asked handled removed =>
      obtain ⟨outcome, c', taken, final⟩ := aligned.refused active found asked handled
      exact removed ▸ ⟨c', .one (delivers k outcome) taken, final⟩
    | accepted payload handling mid found asked handled kept later =>
      obtain ⟨outcome, c', taken, still, onward⟩ := aligned.accepted active found asked handled kept
      obtain ⟨last, reaches, final⟩ := ih onward still later
      exact ⟨last, .head (delivers k outcome) taken reaches, final⟩

theorem Aligned.onRead {result : SocketRead} (aligned : Aligned s workers c)
    (possible : ∀ chunk, result = .data chunk → (s.sessions fd).received ++ chunk <+: (workers fd).written)
    (read : s.onRead masterApp.tracked fd result during = some after) : Follows fits c after workers := by
  simp only [Server.onRead] at read
  split at read
  next active =>
    cases result with
    | closed => exact Option.some.inj read ▸ aligned.removed disconnects active
    | hardError => exact Option.some.inj read ▸ aligned.removed disconnects active
    | again => exact Option.some.inj read ▸ ⟨c, .refl c, aligned⟩
    | data chunk =>
      simp only at read
      split at read
      · cases read
      · refine (aligned.received active (possible chunk rfl)).process delivers disconnects ?_ read
        simpa [Server.noteReceived, Server.setClient] using active
  · exact Option.some.inj read ▸ ⟨c, .refl c, aligned⟩

theorem Aligned.onWrite {result : SocketWrite} (aligned : Aligned s workers c) (active : (s.clients fd).active = true)
    (written : s.onWrite masterApp.tracked fd result during = some after) : Follows fits c after workers := by
  have flushed := aligned.flushed active result
  simp only [Server.onWrite] at written
  cases ending : ((s.clients fd).flush result).ending with
  | lost =>
    simp only [ending] at written
    exact Option.some.inj written ▸ aligned.removed disconnects active
  | full =>
    simp only [ending] at written
    exact Option.some.inj written ▸ ⟨c, .refl c, flushed⟩
  | waiting =>
    simp only [ending] at written
    exact Option.some.inj written ▸ ⟨c, .refl c, flushed⟩
  | drained =>
    simp only [ending] at written
    have watched : Aligned ((s.setClient fd ((s.clients fd).flush result).client).watchWrite fd false) workers c :=
      ⟨flushed.world, flushed.line⟩
    refine watched.process delivers disconnects ?_ written
    simpa [Server.watchWrite, Server.setClient] using
      ((s.clients fd).flush_sameRead result).active.trans active

end Callbacks

theorem accepted_free {registered : Bool}
    (accepted : s.onAccept masterApp.tracked (.taken fd registered) = some after) :
    ¬ (s.clients fd).active = true := by
  intro active
  simp [Server.onAccept, active] at accepted

theorem Aligned.accept (aligned : Aligned s workers c)
    (accepted : s.onAccept masterApp.tracked (.taken fd true) = some after) :
    ∃ c', c.survive (.action (.connect fd)) = some c' ∧ Aligned after (Function.update workers fd .start) c' := by
  have free := accepted_free accepted
  simp only [Server.onAccept, if_neg free, ↓reduceIte] at accepted
  have closed : c.conns fd = .closed := (aligned.line fd).gone (by simpa using free)
  refine ⟨_, if_pos closed, ?_⟩
  cases accepted
  refine ⟨?_, fun other => ?_⟩
  · simp only [Cluster.setConn, Cluster.setMaster, App.tracked, masterApp, aligned.world]
  · by_cases same : other = fd
    · subst same
      simp only [Function.update_self, App.tracked, Cluster.setConn]
      exact .live rfl (.start s.nowMs)
    · simp only [Function.update_of_ne same, App.tracked, Cluster.setConn, Cluster.setMaster]
      exact aligned.line other

theorem Aligned.unregistered (aligned : Aligned s workers c)
    (accepted : s.onAccept masterApp.tracked (.taken fd false) = some after) : Aligned after workers c := by
  have free := accepted_free accepted
  simp only [Server.onAccept, if_neg free, Bool.false_eq_true, ↓reduceIte] at accepted
  cases accepted
  refine ⟨aligned.world, fun other => ?_⟩
  by_cases same : other = fd
  · subst same
    simp only [Function.update_self, (aligned.line other).gone (by simpa using free)]
    exact line_closed
  · simp only [Function.update_of_ne same]
    exact aligned.line other

/-! ## Housekeeping -/

section Housekeeping

variable {fits : Incident → Prop} (disconnects : ∀ fd, fits (.action (.disconnect fd)))

include disconnects

theorem Aligned.checkFrom (aligned : Aligned s workers c) (fds : List Fd) (found : Nat) :
    ∃ c', Runs.Reaches Cluster.survive fits c c' ∧ c'.world.master.nowMs = c.world.master.nowMs ∧
      Aligned (s.checkFrom masterApp.tracked fds found) workers c' := by
  have remove : ∀ (s : Server (Tracked World)) (fd : Fd),
      (∃ c', Runs.Reaches Cluster.survive fits c c' ∧ c'.world.master.nowMs = c.world.master.nowMs ∧
        Aligned s workers c') → (s.clients fd).active = true →
      ∃ c', Runs.Reaches Cluster.survive fits c c' ∧ c'.world.master.nowMs = c.world.master.nowMs ∧
        Aligned (s.removeClient masterApp.tracked fd) workers c' := by
    rintro s fd ⟨mid, reaches, clock, aligned⟩ active
    obtain ⟨last, taken, final⟩ := aligned.remove active
    refine ⟨last, reaches.trans (.one (disconnects fd) taken), ?_, final⟩
    rw [← clock, final.world, aligned.world]
    rfl
  exact Server.checkFrom_invariant remove fds found ⟨c, .refl c, rfl, aligned⟩

theorem Aligned.cron (aligned : Aligned s workers c) :
    ∃ c', Runs.Reaches Cluster.survive fits c c' ∧ c'.world.master.nowMs = c.world.master.nowMs ∧
      Aligned (s.clientTimeoutsCron masterApp.tracked) workers c' := by
  unfold Server.clientTimeoutsCron
  split
  · exact ⟨c, .refl c, rfl, aligned⟩
  · have checked : Aligned { s with lastTimeoutCheckMs := s.nowMs } workers c := ⟨aligned.world, aligned.line⟩
    exact checked.checkFrom disconnects _ _

theorem Aligned.beforeSleep {now realtime : Int} (aligned : Aligned s workers c)
    (ticks : fits (.action (.periodic now realtime))) (monotone : s.app.state.master.nowMs ≤ now)
    (slept : s.serverBeforeSleep masterApp.tracked now realtime = some after) : Follows fits c after workers := by
  have woken : Aligned { s with nowMs := now, cronloops := s.cronloops + 1 } workers c := ⟨aligned.world, aligned.line⟩
  obtain ⟨mid, reaches, clock, checked⟩ := woken.cron disconnects
  unfold Server.serverBeforeSleep at slept
  generalize Server.clientTimeoutsCron masterApp.tracked _ = cleaned at slept checked
  obtain ⟨state, ticked, rfl⟩ := Option.map_eq_some_iff.mp slept
  obtain ⟨world, passed, rfl⟩ := Option.map_eq_some_iff.mp ticked
  obtain ⟨m, swept, rfl⟩ := Option.map_eq_some_iff.mp passed
  rw [← checked.world] at swept
  refine ⟨{ mid with world := { mid.world with master := m } }, reaches.trans (.one ticks ?_), ?_, checked.line⟩
  · simp only [Cluster.survive, Cluster.next, callback, swept]
    exact if_pos (by rw [clock, aligned.world]; exact monotone)
  · simp only [checked.world]

end Housekeeping

end Steps

/-! ## Runs -/

def Wire.Event.Explains : Wire.Event → Incident → Prop
  | .server (.accept (.taken fd true)), .action (.connect other) => other = fd
  | .server (.readable fd _ during), .action (.deliver other env)
  | .server (.writable fd _ during), .action (.deliver other env) =>
    other = fd ∧ ∃ k outcome, env = (during k).1.sending outcome
  | .server (.beforeSleep now realtime), .action (.periodic now' realtime') => now' = now ∧ realtime' = realtime
  | .server _, .action (.disconnect _) => True
  | .worker fd _, incident => incident.Of fd
  | .crash aofFd now realtime, .crash aofFd' now' realtime' => aofFd' = aofFd ∧ now' = now ∧ realtime' = realtime
  | _, _ => False

/-- The wire is in line with the cluster. What the server itself keeps in order comes along. -/
structure Wire.Refines (w : Wire) (c : Cluster) : Prop where
  aligned : Aligned w.server w.workers c
  sound : w.server.Sound

section

variable {w w' : Wire} {c : Cluster}

theorem Wire.Refines.accept {fd : Fd} (refines : w.Refines c)
    (taken : w.next (.server (.accept (.taken fd true))) = some w') :
    ∃ c', c.survive (.action (.connect fd)) = some c' ∧ w'.Refines c' := by
  simp only [Wire.next, Wire.Possible, ↓reduceIte] at taken
  obtain ⟨after, ran, rfl⟩ := Option.map_eq_some_iff.mp taken
  obtain ⟨c', connected, final⟩ := refines.aligned.accept ran
  exact ⟨c', connected, final, Server.next_sound _ _ _ refines.sound ran⟩

theorem Wire.Refines.server {event : Server.Event LogEnv} (refines : w.Refines c)
    (taken : w.next (.server event) = some w') :
    ∃ c', Runs.Reaches Cluster.survive (Wire.Event.server event).Explains c c' ∧ w'.Refines c' := by
  by_cases joins : ∃ fd, event = .accept (.taken fd true)
  · obtain ⟨fd, rfl⟩ := joins
    obtain ⟨c', connected, after⟩ := refines.accept taken
    have own : (Wire.Event.server (.accept (.taken fd true))).Explains (.action (.connect fd)) := rfl
    exact ⟨c', .one own connected, after⟩
  simp only [Wire.next] at taken
  split at taken
  · obtain ⟨after, ran, rfl⟩ := Option.map_eq_some_iff.mp taken
    have sound := Server.next_sound _ _ _ refines.sound ran
    have follow {workers : Fd → Process}
        (follows : Follows (Wire.Event.server event).Explains c after workers) :
        ∃ c', Runs.Reaches Cluster.survive (Wire.Event.server event).Explains c c' ∧
          Wire.Refines ⟨after, workers⟩ c' := by
      obtain ⟨c', reaches, aligned⟩ := follows
      exact ⟨c', reaches, aligned, sound⟩
    have aligned := refines.aligned
    cases event with
    | accept result =>
      cases result with
      | refused =>
        cases ran
        exact follow ⟨c, .refl c, aligned⟩
      | taken fd registered =>
        cases registered with
        | true => exact absurd ⟨fd, rfl⟩ joins
        | false => exact follow ⟨c, .refl c, aligned.unregistered ran⟩
    | readable fd result during =>
      simp only [Server.next] at ran
      split at ran
      next possible _ =>
        refine follow (aligned.onRead (fun k outcome => ⟨rfl, k, outcome, rfl⟩) trivial ?_ ran)
        rintro chunk rfl
        exact possible
      · cases ran
        exact follow ⟨c, .refl c, aligned⟩
    | writable fd result during =>
      simp only [Server.next] at ran
      split at ran
      next on =>
        have active := refines.sound.watched fd on
        exact follow (aligned.onWrite (fun k outcome => ⟨rfl, k, outcome, rfl⟩) trivial active ran)
      · cases ran
        exact follow ⟨c, .refl c, aligned⟩
    | checkTimeouts =>
      have own : ∀ fd, (Wire.Event.server .checkTimeouts).Explains (.action (.disconnect fd)) := fun _ => trivial
      obtain ⟨c', reaches, -, final⟩ := aligned.checkFrom own (List.finRange maxFds) 0
      refine follow ⟨c', reaches, ?_⟩
      rw [← Option.some.inj ran]
      exact final
    | beforeSleep now realtime =>
      next possible => exact follow (aligned.beforeSleep (fun _ => trivial) ⟨rfl, rfl⟩ possible ran)
    | shutdown =>
      cases ran
      exact follow ⟨c, .refl c, aligned.world, aligned.line⟩
  · cases taken

theorem Wire.Refines.called {fd : Fd} {p : Process} {action : Option Action} {conn : Conn} {c' : Cluster}
    (refines : w.Refines c) (active : (w.server.clients fd).active = true) (advances : Advances c fd action conn c')
    (fits : Connected (w.server.clients fd) (w.server.sessions fd).received (w.server.app.sent fd) p conn) :
    Wire.Refines { w with workers := Function.update w.workers fd p } c' := by
  refine ⟨⟨advances.world.trans refines.aligned.world, fun other => ?_⟩, refines.sound⟩
  rw [advances.conns]
  by_cases same : other = fd
  · subst same
    simp only [Function.update_self]
    exact .live active fits
  · simp only [Function.update_of_ne same]
    exact refines.aligned.line other

theorem Wire.Refines.worker {fd : Fd} {call : Call} (refines : w.Refines c)
    (taken : w.next (.worker fd call) = some w') :
    ∃ c', Runs.Reaches Cluster.survive (Wire.Event.worker fd call).Explains c c' ∧ w'.Refines c' := by
  simp only [Wire.next] at taken
  split at taken
  next active =>
    obtain ⟨p, made, rfl⟩ := Option.map_eq_some_iff.mp taken
    obtain ⟨conn, c', advances, fits⟩ := (refines.aligned.fits active).call rfl made
    exact ⟨c', advances.reaches fun _ step => Process.completes_own step, refines.called active advances fits⟩
  · cases taken

theorem Wire.Refines.crash {aofFd : Nat} {now realtime : Int} (refines : w.Refines c)
    (taken : w.next (.crash aofFd now realtime) = some w') :
    ∃ c', c.survive (.crash aofFd now realtime) = some c' ∧ w'.Refines c' := by
  obtain ⟨world, booted, rfl⟩ := Option.map_eq_some_iff.mp taken
  rw [← refines.aligned.world] at booted
  refine ⟨{ c with
      world := { world with master := masterInit world.master now realtime }
      conns := fun _ => .closed }, ?_, ⟨rfl, fun _ => line_closed⟩, Server.init_sound _ _ _⟩
  simp only [Cluster.survive, booted, Option.map_some]

theorem Wire.refines_next (w : Wire) (event : Wire.Event) (w' : Wire) (c : Cluster) (refines : w.Refines c)
    (taken : w.next event = some w') : ∃ c', Runs.Reaches Cluster.survive event.Explains c c' ∧ w'.Refines c' := by
  cases event with
  | server event => exact refines.server taken
  | worker fd call => exact refines.worker taken
  | crash aofFd now realtime =>
    obtain ⟨c', survived, after⟩ := refines.crash taken
    have own : (Wire.Event.crash aofFd now realtime).Explains (.crash aofFd now realtime) := ⟨rfl, rfl, rfl⟩
    exact ⟨c', .one own survived, after⟩

end

theorem Wire.start_refines (config : MasterConfig) (job : JobDef) (aofFd : Nat) (createdMs : UInt64)
    (now realtime clientTimeoutS : Int) :
    (Wire.start config job aofFd createdMs now realtime clientTimeoutS).Refines
      (Cluster.start config job aofFd createdMs now realtime) :=
  ⟨⟨rfl, fun _ => line_closed⟩, Server.init_sound _ _ _⟩

/-- However the kernel splits the bytes of either side, the master goes through the states of a run of the cluster,
in which messages are handed over whole: every connection is at the same stage there, and every incident of that
run belongs to an event of the wire. -/
theorem wire_refines (config : MasterConfig) (job : JobDef) (aofFd : Nat) (createdMs : UInt64)
    (now realtime clientTimeoutS : Int) {events : List Wire.Event} {w : Wire}
    (reached : Runs.run Wire.next (Wire.start config job aofFd createdMs now realtime clientTimeoutS) events = some w) :
    ∃ c, Runs.Reaches Cluster.survive (fun incident => ∃ event ∈ events, event.Explains incident)
        (Cluster.start config job aofFd createdMs now realtime) c ∧
      c.world = w.server.app.state ∧ ∀ fd,
        if (w.server.clients fd).active then
          Linked (c.conns fd) (w.inbound fd) (w.outbound fd) (w.workers fd).point
        else c.conns fd = .closed := by
  have start := Wire.start_refines config job aofFd createdMs now realtime clientTimeoutS
  obtain ⟨c, reaches, refines⟩ := Runs.run_simulated Wire.refines_next start reached
  refine ⟨c, reaches, refines.aligned.world, fun fd => ?_⟩
  split
  next active => exact (refines.aligned.fits active).linked
  next closed => exact (refines.aligned.line fd).gone (by simpa using closed)

/-- A request that is written in two pieces and read in two others, and a response of which three bytes leave at
once and the rest later. -/
def splitExchange : List Wire.Event :=
  [.server (.accept (.taken Server.sampleFd true)),
    .worker Server.sampleFd (.write 3),
    .server (.readable Server.sampleFd (.data [0, 0]) (Server.allWrites (.wrote 3))),
    .worker Server.sampleFd (.write 2),
    .server (.readable Server.sampleFd (.data [0, 1, 1]) (Server.allWrites (.wrote 3))),
    .worker Server.sampleFd (.read 3),
    .server (.writable Server.sampleFd (.wrote bufSize) (Server.allWrites .again)),
    .worker Server.sampleFd (.read 1),
    .worker Server.sampleFd (.read 19)]

theorem wire_refines_split :
    ∃ w c, Runs.run Wire.next (Wire.start sampleConfig sampleJob 3 0 0 0 300) splitExchange = some w ∧
      (w.workers Server.sampleFd).point = .working .map 0 1 ∧ c.conns Server.sampleFd = .running .map 0 1 ∧
      Runs.Reaches Cluster.survive (fun incident => ∃ event ∈ splitExchange, event.Explains incident)
        (Cluster.start sampleConfig sampleJob 3 0 0 0) c := by
  have ran : (Runs.run Wire.next (Wire.start sampleConfig sampleJob 3 0 0 0 300) splitExchange).any (fun w =>
      (w.server.clients Server.sampleFd).active &&
        decide ((w.workers Server.sampleFd).point = .working .map 0 1)) = true := by decide +kernel
  obtain ⟨w, reached, holds⟩ := (Option.any_eq_true _ _).mp ran
  simp only [Bool.and_eq_true, decide_eq_true_eq] at holds
  obtain ⟨c, reaches, -, lines⟩ := wire_refines sampleConfig sampleJob 3 0 0 0 300 reached
  have linked := lines Server.sampleFd
  rw [if_pos holds.1, holds.2] at linked
  refine ⟨w, c, reached, holds.2, ?_, reaches⟩
  cases linked with
  | working _ _ _ stage => exact stage

end MapReduce
