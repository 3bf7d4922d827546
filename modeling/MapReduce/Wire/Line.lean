import MapReduce.Server.Tracked
import MapReduce.Worker.Process

/-! One connection, from both ends and at both levels.

At the level of bytes a connection is the client of the server, the worker
process and what is between them. At the level of messages it is one stage of
the cluster. The stage says what the bytes under way are: part of a request, a
whole request, or the rest of a response, and never more than one of them.
-/

set_option autoImplicit false

namespace MapReduce

/-! ## The two levels of one connection -/

/-- The stage of the cluster once the request is written. -/
def Exchange.sent : Exchange → Conn
  | .getTask => .requested
  | .taskDone kind msg => .reported kind msg

/-- The stage of the cluster while the request is written. -/
def Exchange.Before : Exchange → Conn → Prop
  | .getTask, conn => conn = .idle
  | .taskDone kind msg, conn =>
    conn = .running kind msg.taskId msg.attemptId ∧ ∃ success : Bool, msg.result = if success then 0 else 1

/-- A stage of the cluster, the bytes on their way to the master and those on their way to the worker, which include
what either side has buffered, and the point of the worker. -/
inductive Linked (conn : Conn) (inbound outbound : Bytes) : Point → Prop where
  | sending (x : Exchange) (left : Bytes) (before : x.Before conn) (split : inbound ++ left = frame x.payload)
      (more : left ≠ []) (quiet : outbound = []) : Linked conn inbound outbound (.sending x left)
  | sent (x : Exchange) (stage : conn = x.sent) (whole : inbound = frame x.payload) (quiet : outbound = []) :
      Linked conn inbound outbound (.receiving x [])
  | receiving (x : Exchange) (got payload : Bytes) (stage : conn = x.sent.replied payload)
      (small : payload.length ≤ msgMax) (split : got ++ outbound = frame payload) (more : outbound ≠ [])
      (quiet : inbound = []) : Linked conn inbound outbound (.receiving x got)
  | working (kind : TaskKind) (taskId attemptId : UInt32) (stage : conn = .running kind taskId attemptId)
      (quiet : inbound = [] ∧ outbound = []) : Linked conn inbound outbound (.working kind taskId attemptId)
  | sleeping (stage : conn = .idle) (quiet : inbound = [] ∧ outbound = []) : Linked conn inbound outbound .sleeping
  | exited (stage : conn = .exited) (quiet : inbound = [] ∧ outbound = []) : Linked conn inbound outbound .exited

theorem Linked.not_closed {conn : Conn} {point : Point} {inbound outbound : Bytes}
    (linked : Linked conn inbound outbound point) : conn ≠ .closed := by
  cases linked with
  | sending x left before =>
    cases x with
    | getTask => rw [before]; exact nofun
    | taskDone kind msg => rw [before.1]; exact nofun
  | sent x stage => cases x <;> rw [stage] <;> exact nofun
  | receiving x got payload stage => cases x <;> rw [stage] <;> exact nofun
  | working kind taskId attemptId stage => rw [stage]; exact nofun
  | sleeping stage => rw [stage]; exact nofun
  | exited stage => rw [stage]; exact nofun

theorem frame_ne_nil (payload : Bytes) : frame payload ≠ [] :=
  List.ne_nil_of_length_pos (by simp only [frame, Framing.frame_length, frameHdrSize]; omega)

theorem frame_part {part left payload : Bytes} (split : part ++ left = frame payload)
    (small : payload.length ≤ msgMax) : frontFrame part = if left = [] then .message payload else .short :=
  Framing.front_part split small (by decide)

theorem Linked.starts {conn : Conn} (x : Exchange) (before : x.Before conn) : Linked conn [] [] (.send x) := by
  rw [Point.send_eq]
  exact .sending x _ before rfl (frame_ne_nil _) rfl

theorem Linked.found {conn : Conn} {point : Point} {buf rest outbound payload : Bytes}
    (linked : Linked conn (buf ++ rest) outbound point) (found : frontFrame buf = .message payload) :
    ∃ x : Exchange, conn = x.sent ∧ point = .receiving x [] ∧ payload = x.payload ∧ buf = frame payload ∧
      rest = [] ∧ outbound = [] := by
  have nothing : buf ++ rest ≠ [] := by
    intro empty
    rw [(List.append_eq_nil_iff.mp empty).1] at found
    cases found
  cases linked with
  | sending x left before split more quiet =>
    rw [List.append_assoc] at split
    rw [frame_part split x.payload_small, if_neg (by simp [more])] at found
    cases found
  | sent x stage whole quiet =>
    rw [frame_part whole x.payload_small] at found
    split at found
    next done =>
      cases found
      exact ⟨x, stage, rfl, rfl, by simpa [done] using whole, done, quiet⟩
    · cases found
  | receiving x got payload stage small split more quiet => exact absurd quiet nothing
  | working kind taskId attemptId stage quiet => exact absurd quiet.1 nothing
  | sleeping stage quiet => exact absurd quiet.1 nothing
  | exited stage quiet => exact absurd quiet.1 nothing

theorem Linked.answered {conn : Conn} {inbound outbound part got payload : Bytes} {x : Exchange}
    (linked : Linked conn inbound outbound (.receiving x got)) (arrived : part <+: outbound)
    (whole : frontFrame (got ++ part) = .message payload) : conn = x.sent.replied payload := by
  obtain ⟨rest, rfl⟩ := arrived
  cases linked with
  | sent _ stage _ quiet =>
    rw [(List.append_eq_nil_iff.mp quiet).1] at whole
    cases whole
  | receiving _ _ payload' stage small split _ _ =>
    rw [← List.append_assoc] at split
    rw [frame_part split small] at whole
    split at whole
    · cases whole
      exact stage
    · cases whole

/-! ## The line of a connection -/

/-- An open connection, from both ends and at both levels. -/
structure Connected (client : Client) (received : Bytes) (sent : List Bytes) (p : Process) (conn : Conn) : Prop where
  buffered : client.Buffered
  read : received <+: p.written
  consumed : p.consumed + client.pending.length ≤ (sent.flatMap frame).length
  linked : Linked conn (client.buf ++ p.written.drop received.length) ((sent.flatMap frame).drop p.consumed) p.point

/-- What the server keeps is open in the cluster too, the rest is closed. -/
structure Line (client : Client) (received : Bytes) (sent : List Bytes) (p : Process) (conn : Conn) : Prop where
  kept : client.active = true → Connected client received sent p conn
  gone : client.active = false → conn = .closed

theorem Line.live {client : Client} {received : Bytes} {sent : List Bytes} {p : Process} {conn : Conn}
    (active : client.active = true) (fits : Connected client received sent p conn) : Line client received sent p conn :=
  ⟨fun _ => fits, fun inactive => by rw [active] at inactive; cases inactive⟩

theorem line_closed {received : Bytes} {sent : List Bytes} {p : Process} : Line .zero received sent p .closed :=
  ⟨nofun, fun _ => rfl⟩

theorem Connected.start (now : Int) : Connected (.accepted now) [] [] .start .idle where
  buffered := Client.accepted_buffered now
  read := List.nil_prefix
  consumed := Nat.le_refl _
  linked := .starts .getTask rfl

theorem Connected.received {client : Client} {received chunk : Bytes} {sent : List Bytes} {p : Process} {conn : Conn}
    (fits : Connected client received sent p conn) (now : Int) (possible : received ++ chunk <+: p.written) :
    Connected { client with lastActiveMs := now, buf := client.buf ++ chunk } (received ++ chunk) sent p conn := by
  refine ⟨⟨fits.buffered.offset, fits.buffered.bounded⟩, possible, fits.consumed, ?_⟩
  obtain ⟨left, split⟩ := possible
  have before : p.written.drop received.length = chunk ++ left := by
    rw [← split, List.append_assoc, List.drop_left]
  have later : p.written.drop (received ++ chunk).length = left := by
    rw [← split, List.drop_left]
  rw [later, List.append_assoc, ← before]
  exact fits.linked

theorem Connected.pending_le {client : Client} {received : Bytes} {sent : List Bytes} {p : Process} {conn : Conn}
    (fits : Connected client received sent p conn) :
    client.pending.length ≤ ((sent.flatMap frame).drop p.consumed).length := by
  have consumed := fits.consumed
  rw [List.length_drop]
  omega

theorem Connected.replied {client : Client} {received : Bytes} {sent : List Bytes} {p : Process} {conn : Conn}
    {payload reply : Bytes} {result : SocketWrite} (fits : Connected client received sent p conn)
    (found : frontFrame client.buf = .message payload) (small : reply.length ≤ msgMax)
    (stored : (client.queueWrite (frame reply) result).ending ≠ .full) :
    Connected { (client.queueWrite (frame reply) result).client with
        buf := client.buf.drop (frameHdrSize + payload.length) } received (sent ++ [reply]) p (conn.replied reply) := by
  obtain ⟨x, stage, at_point, -, buf, rest, quiet⟩ := fits.linked.found found
  have stream := Client.queueWrite_stream fits.buffered (frame reply) result
  rw [if_neg stored] at stream
  have pending := congrArg List.length stream
  simp only [List.length_append] at pending
  have consumed := fits.consumed
  refine ⟨⟨(Client.queueWrite_buffered fits.buffered _ result).offset,
    (Client.queueWrite_buffered fits.buffered _ result).bounded⟩, fits.read, ?_, ?_⟩
  · simp only [List.flatMap_append, List.flatMap_singleton, List.length_append]
    rw [show ({ (client.queueWrite (frame reply) result).client with
      buf := client.buf.drop (frameHdrSize + payload.length) } : Client).pending =
        (client.queueWrite (frame reply) result).client.pending from rfl]
    omega
  · have nothing : client.buf.drop (frameHdrSize + payload.length) ++ p.written.drop received.length = [] := by
      rw [rest, List.append_nil, buf]
      exact List.drop_of_length_le (by simp [frame])
    have whole : ((sent ++ [reply]).flatMap frame).drop p.consumed = frame reply := by
      rw [List.flatMap_append, List.drop_append_of_le_length (by omega), quiet, List.flatMap_singleton]
      rfl
    rw [nothing, whole, stage, at_point]
    exact .receiving x [] reply rfl small rfl (frame_ne_nil reply) rfl

/-! ## The calls of a worker -/

/-- The steps of the cluster that the worker of the connection takes. -/
def Incident.Of (fd : Fd) : Incident → Prop
  | .action (.ask other) | .action (.receive other) | .action (.confirm other) | .action (.finish other _) => other = fd
  | _ => False

/-- The step of the cluster at the end of a request, and at the end of its response. -/
def Exchange.asks (fd : Fd) : Exchange → Action
  | .getTask => .ask fd
  | .taskDone _ msg => .finish fd (msg.result == 0)

def Exchange.ends (fd : Fd) : Exchange → Action
  | .getTask => .receive fd
  | .taskDone _ _ => .confirm fd

/-- The step of the cluster that a call completes. -/
def Process.completes (p : Process) (fd : Fd) (available : Bytes) (call : Call) : Option Action :=
  match call, p.point with
  | .write n, .sending x left => if n = left.length then some (x.asks fd) else none
  | .read n, .receiving x got =>
    match frontFrame (got ++ available.take n) with
    | .message _ => some (x.ends fd)
    | .short | .oversize => none
  | _, _ => none

theorem Exchange.asks_own (fd : Fd) (x : Exchange) : Incident.Of fd (.action (x.asks fd)) := by
  cases x <;> rfl

theorem Exchange.ends_own (fd : Fd) (x : Exchange) : Incident.Of fd (.action (x.ends fd)) := by
  cases x <;> rfl

theorem Process.completes_own {p : Process} {fd : Fd} {available : Bytes} {call : Call} {action : Action}
    (step : p.completes fd available call = some action) : Incident.Of fd (.action action) := by
  unfold completes at step
  split at step
  next n x left _ =>
    split at step
    · exact Option.some.inj step ▸ x.asks_own fd
    · cases step
  next n x got _ =>
    split at step
    · exact Option.some.inj step ▸ x.ends_own fd
    · cases step
    · cases step
  · cases step

/-- The worker of one connection goes on in the cluster, by one step or by none, to the given stage. -/
structure Advances (c : Cluster) (fd : Fd) (action : Option Action) (conn : Conn) (c' : Cluster) : Prop where
  taken : action.elim (some c) c.next = some c'
  world : c'.world = c.world
  conns : c'.conns = Function.update c.conns fd conn
  numbers : c'.serial = c.serial ∧ c'.opened = c.opened

theorem Advances.refl (c : Cluster) (fd : Fd) : Advances c fd none (c.conns fd) c :=
  ⟨rfl, rfl, (Function.update_eq_self fd c.conns).symm, rfl, rfl⟩

theorem Advances.reaches {c c' : Cluster} {fd : Fd} {action : Option Action} {conn : Conn}
    (advances : Advances c fd action conn c') (own : ∀ step, action = some step → Incident.Of fd (.action step)) :
    Runs.Reaches Cluster.survive (Incident.Of fd) c c' := by
  cases action with
  | none => exact Option.some.inj advances.taken ▸ .refl c
  | some step => exact .one (own step rfl) advances.taken

theorem Exchange.Before.sent {c : Cluster} {fd : Fd} {x : Exchange} (before : x.Before (c.conns fd)) :
    ∃ c', Advances c fd (some (x.asks fd)) x.sent c' := by
  cases x with
  | getTask => exact ⟨c.setConn fd .requested, if_pos before, rfl, rfl, rfl, rfl⟩
  | taskDone kind msg =>
    obtain ⟨stage, success, result⟩ := before
    have told : (msg.result == 0) = success := by
      rw [result]
      cases success <;> rfl
    refine ⟨(c.observe [.reported (c.serial fd) kind msg.taskId.toNat msg.attemptId.toNat msg.result]).setConn fd
      (.reported kind msg), ?_, rfl, rfl, rfl, rfl⟩
    simp only [Option.elim, Exchange.asks, Cluster.next, stage, told, ← result]

theorem Exchange.done {c : Cluster} {fd : Fd} {x : Exchange} {payload : Bytes}
    (stage : c.conns fd = x.sent.replied payload) :
    ∃ conn c', Advances c fd (some (x.ends fd)) conn c' ∧ Linked conn [] [] (x.answered payload) := by
  cases x with
  | getTask =>
    have taken : c.next (.receive fd) = some (c.setConn fd (.received payload)) := by
      simp only [Cluster.next, stage, Exchange.sent, Conn.replied]
    refine ⟨_, _, ⟨taken, rfl, rfl, rfl, rfl⟩, ?_⟩
    simp only [Conn.received, Exchange.answered]
    cases decodeResponse payload with
    | none => exact .exited rfl ⟨rfl, rfl⟩
    | some response =>
      cases response with
      | task kind taskId attemptId => exact .working kind taskId attemptId rfl ⟨rfl, rfl⟩
      | wait => exact .sleeping rfl ⟨rfl, rfl⟩
      | done => exact .exited rfl ⟨rfl, rfl⟩
  | taskDone kind msg =>
    have taken : c.next (.confirm fd) =
        some (c.setConn fd (if rpcPeekKind payload = some .taskDoneAck then .idle else .exited)) := by
      simp only [Cluster.next, stage, Exchange.sent, Conn.replied]
    refine ⟨_, _, ⟨taken, rfl, rfl, rfl, rfl⟩, ?_⟩
    simp only [Exchange.answered]
    split
    · exact .starts .getTask rfl
    · exact .exited rfl ⟨rfl, rfl⟩

variable {c : Cluster} {fd : Fd} {client : Client} {received : Bytes} {sent : List Bytes} {p : Process}

theorem Connected.wrote {x : Exchange} {left : Bytes} {n : Nat} (fits : Connected client received sent p (c.conns fd))
    (at_point : p.point = .sending x left) (inside : n ≤ left.length) :
    ∃ conn c', Advances c fd (if n = left.length then some (x.asks fd) else none) conn c' ∧
      Connected client received sent { p with
      written := p.written ++ left.take n
      point := if n = left.length then .receiving x [] else .sending x (left.drop n) } conn := by
  have read := fits.read.length_le
  have inbound : client.buf ++ (p.written ++ left.take n).drop received.length =
      (client.buf ++ p.written.drop received.length) ++ left.take n := by
    rw [List.drop_append_of_le_length read, List.append_assoc]
  have longer : received <+: p.written ++ left.take n := fits.read.trans (List.prefix_append _ _)
  have linked := fits.linked
  rw [at_point] at linked
  cases linked with
  | sending _ _ before split more quiet =>
    by_cases all : n = left.length
    · obtain ⟨c', advances⟩ := before.sent
      rw [if_pos all]
      refine ⟨_, c', advances, fits.buffered, longer, fits.consumed, ?_⟩
      simp only [if_pos all, inbound]
      refine .sent x rfl ?_ quiet
      rw [all, List.take_length, split]
    · rw [if_neg all]
      refine ⟨_, c, .refl c fd, fits.buffered, longer, fits.consumed, ?_⟩
      simp only [if_neg all, inbound]
      refine .sending x (left.drop n) before ?_ ?_ quiet
      · rw [List.append_assoc, List.take_append_drop, split]
      · exact List.ne_nil_of_length_pos (by rw [List.length_drop]; omega)

theorem Connected.took {x : Exchange} {got available : Bytes} {n : Nat}
    (fits : Connected client received sent p (c.conns fd))
    (arrived : available = ((sent.flatMap frame).take ((sent.flatMap frame).length - client.pending.length)).drop
      p.consumed)
    (at_point : p.point = .receiving x got) (some_byte : n ≠ 0) (inside : n ≤ available.length) :
    ∃ conn c', Advances c fd (match frontFrame (got ++ available.take n) with
        | .message _ => some (x.ends fd)
        | .short | .oversize => none) conn c' ∧ Connected client received sent { p with
      consumed := p.consumed + n
      point := .receive x (got ++ available.take n) } conn := by
  have consumed := fits.consumed
  have room : p.consumed + n + client.pending.length ≤ (sent.flatMap frame).length := by
    have length := congrArg List.length arrived
    simp only [List.length_drop, List.length_take] at length
    omega
  have taken : available.take n = ((sent.flatMap frame).drop p.consumed).take n := by
    rw [arrived, List.drop_take, List.take_take]
    congr 1
    omega
  have after : (sent.flatMap frame).drop (p.consumed + n) = ((sent.flatMap frame).drop p.consumed).drop n := by
    rw [List.drop_drop]
  have outbound_length : n ≤ ((sent.flatMap frame).drop p.consumed).length := by
    rw [List.length_drop]
    omega
  have linked := fits.linked
  rw [at_point] at linked
  cases linked with
  | receiving _ _ payload stage small split more quiet =>
    have whole : (got ++ available.take n) ++ (sent.flatMap frame).drop (p.consumed + n) = frame payload := by
      rw [taken, after, List.append_assoc, List.take_append_drop, split]
    have front := frame_part whole small
    by_cases last : (sent.flatMap frame).drop (p.consumed + n) = []
    · rw [if_pos last] at front
      obtain ⟨conn, c', advances, linked⟩ := Exchange.done stage
      rw [front]
      refine ⟨conn, c', advances, fits.buffered, fits.read, room, ?_⟩
      simp only [Point.receive, front, quiet, last]
      exact linked
    · rw [if_neg last] at front
      rw [front]
      refine ⟨_, c, .refl c fd, fits.buffered, fits.read, room, ?_⟩
      simp only [Point.receive, front]
      exact .receiving x _ payload stage small whole last quiet
  | sent _ stage whole quiet =>
    -- The request is still on its way, so there is nothing to read.
    rw [quiet] at outbound_length
    exact absurd (Nat.le_zero.mp outbound_length) some_byte

theorem Connected.call {call : Call} {available : Bytes} {p' : Process}
    (fits : Connected client received sent p (c.conns fd))
    (arrived : available = ((sent.flatMap frame).take ((sent.flatMap frame).length - client.pending.length)).drop
      p.consumed) (taken : p.next available call = some p') :
    ∃ conn c', Advances c fd (p.completes fd available call) conn c' ∧ Connected client received sent p' conn := by
  have linked := fits.linked
  cases Process.next_step taken with
  | @wrote x left n at_point inside =>
    have step : p.completes fd available (.write n) = if n = left.length then some (x.asks fd) else none := by
      simp only [Process.completes, at_point]
    rw [step]
    exact fits.wrote at_point inside
  | @took x got n at_point some_byte inside =>
    have step : p.completes fd available (.read n) = match frontFrame (got ++ available.take n) with
        | .message _ => some (x.ends fd)
        | .short | .oversize => none := by
      simp only [Process.completes, at_point]
    rw [step]
    exact fits.took arrived at_point some_byte inside
  | @finished kind taskId attemptId success at_point =>
    refine ⟨_, c, .refl c fd, fits.buffered, fits.read, fits.consumed, ?_⟩
    rw [at_point] at linked
    cases linked with
    | working _ _ _ stage quiet =>
      rw [quiet.1, quiet.2]
      exact .starts (.taskDone kind _) ⟨stage, success, rfl⟩
  | woke at_point =>
    refine ⟨_, c, .refl c fd, fits.buffered, fits.read, fits.consumed, ?_⟩
    rw [at_point] at linked
    cases linked with
    | sleeping stage quiet =>
      rw [quiet.1, quiet.2]
      exact .starts .getTask stage
  | quit => exact ⟨_, c, .refl c fd, fits.buffered, fits.read, fits.consumed, linked⟩

end MapReduce
