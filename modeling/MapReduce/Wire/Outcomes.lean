import MapReduce.Attempts
import MapReduce.Restarts
import MapReduce.Server.Interest
import MapReduce.Wire

/-! What holds on the wire between the server and its workers.

At most one frame is under way on a connection, so the write buffer has room for
every response; bytes that wait are watched for, if the event loop could be told
of them; and a worker leaves its loop on an open connection only when the job is
over.
-/

set_option autoImplicit false

namespace MapReduce

section

variable {config : MasterConfig} {job : JobDef} {aofFd : Nat} {createdMs : UInt64} {now realtime clientTimeoutS : Int}
  {events : List Wire.Event} {w : Wire}

theorem Wire.refines_reached
    (reached : Runs.run Wire.next (Wire.start config job aofFd createdMs now realtime clientTimeoutS) events = some w) :
    ∃ c, Runs.Reaches Cluster.survive (fun _ => True) (Cluster.start config job aofFd createdMs now realtime) c ∧
      w.Refines c := by
  obtain ⟨c, reaches, refines⟩ := Runs.run_simulated Wire.refines_next
    (Wire.start_refines config job aofFd createdMs now realtime clientTimeoutS) reached
  exact ⟨c, reaches.mono fun _ _ => trivial, refines⟩

theorem Wire.Refines.short {c : Cluster} (refines : w.Refines c) {fd : Fd}
    (active : (w.server.clients fd).active = true) : frontFrame (w.server.clients fd).buf = .short := by
  cases refines.sound.streams fd with
  | reading _ _ _ rest => exact rest
  | ended _ _ _ removed _ => rw [removed] at active; cases active
  | oversize _ _ _ removed _ => rw [removed] at active; cases active
  | refused _ _ removed _ _ _ _ => rw [removed] at active; cases active

end

/-! ## One frame at a time -/

theorem Client.queueWrite_not_full {c : Client} (ready : c.Buffered) {data : Bytes}
    (room : c.pending.length + data.length ≤ wbufSize) (result : SocketWrite) :
    (c.queueWrite data result).ending ≠ .full := by
  have pending := c.pending_length
  have inside := ready.offset
  have space : ¬ (c.makeRoom data.length).wbuf.length + data.length > wbufSize := by
    unfold makeRoom
    split
    · simp only
      omega
    · omega
  simp only [queueWrite, if_neg space]
  split
  · exact flush_not_full _ _
  · intro full
    cases full

theorem Linked.outbound_le {conn : Conn} {point : Point} {inbound outbound : Bytes}
    (linked : Linked conn inbound outbound point) : outbound.length ≤ bufSize := by
  have nothing : outbound = [] → outbound.length ≤ bufSize := by
    rintro rfl
    exact Nat.zero_le _
  cases linked with
  | receiving x got payload stage small split more quiet =>
    have total := congrArg List.length split
    simp only [List.length_append, frame, Framing.frame_length, frameHdrSize] at total
    simp only [bufSize, frameHdrSize]
    omega
  | sending x left before split more quiet => exact nothing quiet
  | sent x stage whole quiet => exact nothing quiet
  | working kind taskId attemptId stage quiet => exact nothing quiet.2
  | sleeping stage quiet => exact nothing quiet.2
  | exited stage quiet => exact nothing quiet.2

/-- On an open connection at most one frame is under way. At rest the read buffer holds no whole request, the write
buffer is within its size and at most one response waits in it; a chunk that completes a request brings nothing else,
finds the write buffer empty, and no response to it is refused for lack of room. -/
theorem wire_one_frame (config : MasterConfig) (job : JobDef) (aofFd : Nat) (createdMs : UInt64)
    (now realtime clientTimeoutS : Int) {events : List Wire.Event} {w : Wire}
    (reached : Runs.run Wire.next (Wire.start config job aofFd createdMs now realtime clientTimeoutS) events = some w)
    {fd : Fd} (active : (w.server.clients fd).active = true) :
    frontFrame (w.server.clients fd).buf = .short ∧ (w.server.clients fd).wbuf.length ≤ wbufSize ∧
      (w.server.clients fd).pending.length ≤ bufSize ∧
      ∀ chunk payload, (w.server.sessions fd).received ++ chunk <+: (w.workers fd).written →
        frontFrame ((w.server.clients fd).buf ++ chunk) = .message payload →
        (w.server.clients fd).buf ++ chunk = frame payload ∧ (w.server.clients fd).pending = [] ∧
          ∀ reply result, reply.length ≤ msgMax →
            ((w.server.clients fd).queueWrite (frame reply) result).ending ≠ .full := by
  obtain ⟨c, -, refines⟩ := Wire.refines_reached reached
  have fits := refines.aligned.fits active
  refine ⟨refines.short active, fits.buffered.bounded, fits.pending_le.trans fits.linked.outbound_le,
    fun chunk payload possible found => ?_⟩
  obtain ⟨x, -, -, -, whole, -, quiet⟩ := (fits.received w.server.nowMs possible).linked.found found
  have none_pending : (w.server.clients fd).pending = [] := by
    have bound := fits.pending_le
    rw [quiet] at bound
    exact List.length_eq_zero_iff.mp (Nat.le_zero.mp bound)
  refine ⟨whole, none_pending, fun reply result small => Client.queueWrite_not_full fits.buffered ?_ result⟩
  simp only [none_pending, frame, Framing.frame_length, List.length_nil, wbufSize, frameHdrSize]
  omega

theorem wire_one_frame_split :
    ∃ w, Runs.run Wire.next (Wire.start sampleConfig sampleJob 3 0 0 0 300) (splitExchange.take 4) = some w ∧
      (w.server.clients Server.sampleFd).buf ++ [0, 1, 1] = frame Exchange.getTask.payload ∧
      ∀ reply result, reply.length ≤ msgMax →
        ((w.server.clients Server.sampleFd).queueWrite (frame reply) result).ending ≠ .full := by
  have ran : (Runs.run Wire.next (Wire.start sampleConfig sampleJob 3 0 0 0 300) (splitExchange.take 4)).any (fun w =>
      (w.server.clients Server.sampleFd).active &&
        (decide ((w.server.sessions Server.sampleFd).received ++ [0, 1, 1] = (w.workers Server.sampleFd).written) &&
          decide (frontFrame ((w.server.clients Server.sampleFd).buf ++ [0, 1, 1]) =
            .message Exchange.getTask.payload))) = true := by decide +kernel
  obtain ⟨w, reached, holds⟩ := (Option.any_eq_true _ _).mp ran
  simp only [Bool.and_eq_true, decide_eq_true_eq] at holds
  obtain ⟨active, arrived, found⟩ := holds
  obtain ⟨-, -, -, complete⟩ := wire_one_frame sampleConfig sampleJob 3 0 0 0 300 reached active
  obtain ⟨whole, -, room⟩ := complete [0, 1, 1] _ (arrived ▸ List.prefix_rfl) found
  exact ⟨w, reached, whole, room⟩

/-! ## Nothing is forgotten -/

def Wire.Registers (w : Wire) : Wire.Event → Prop
  | .server event => event.Registers masterApp.tracked w.server
  | .worker _ _ | .crash _ _ _ => True

instance (w : Wire) : (event : Wire.Event) → Decidable (w.Registers event)
  | .server event => inferInstanceAs (Decidable (event.Registers masterApp.tracked w.server))
  | .worker _ _ | .crash _ _ _ => .isTrue trivial

theorem Wire.attended_next (w : Wire) (event : Wire.Event) (w' : Wire) (attended : w.server.Attended True)
    (registers : w.Registers event) (taken : w.next event = some w') : w'.server.Attended True := by
  cases event with
  | server event =>
    simp only [Wire.next] at taken
    split at taken
    · obtain ⟨after, ran, rfl⟩ := Option.map_eq_some_iff.mp taken
      exact Server.Attended.next _ _ _ attended (fun _ => registers) ran
    · cases taken
  | worker fd call =>
    simp only [Wire.next] at taken
    split at taken
    · obtain ⟨p, -, rfl⟩ := Option.map_eq_some_iff.mp taken
      exact attended
    · cases taken
  | crash aofFd now realtime =>
    obtain ⟨world, -, rfl⟩ := Option.map_eq_some_iff.mp taken
    exact Server.init_attended _ _ _ _

/-- As long as the event loop can be told of bytes that wait, a worker that waits for a response is never forgotten:
the server is watched for the unread rest of the request and has room for it, or for the response that waits in its
write buffer, or the worker can read. -/
theorem wire_attended (config : MasterConfig) (job : JobDef) (aofFd : Nat) (createdMs : UInt64)
    (now realtime clientTimeoutS : Int) {events : List Wire.Event} {w : Wire}
    (registers : Runs.Along Wire.next Wire.Registers
      (Wire.start config job aofFd createdMs now realtime clientTimeoutS) events)
    (reached : Runs.run Wire.next (Wire.start config job aofFd createdMs now realtime clientTimeoutS) events = some w)
    {fd : Fd} (active : (w.server.clients fd).active = true) {x : Exchange} {got : Bytes}
    (waits : (w.workers fd).point = .receiving x got) :
    (w.server.readHandlers fd = true ∧ (w.server.clients fd).buf.length < bufSize ∧
        (w.server.sessions fd).received.length < (w.workers fd).written.length) ∨
      (w.server.writeHandlers fd = true ∧ (w.server.clients fd).pending ≠ []) ∨ w.available fd ≠ [] := by
  obtain ⟨c, -, refines⟩ := Wire.refines_reached reached
  have fits := refines.aligned.fits active
  have attended : w.server.Attended True :=
    Runs.along_invariant Wire.attended_next (Server.init_attended _ _ _ _) registers reached
  obtain ⟨-, read, -, waiting, -⟩ := attended fd
  have linked := fits.linked
  rw [waits] at linked
  cases linked with
  | sent _ stage whole quiet =>
    have short := refines.short active
    have room := Framing.length_of_short short
    rw [frame_part whole x.payload_small] at short
    have unread : (w.workers fd).written.drop (w.server.sessions fd).received.length ≠ [] := by
      intro all
      rw [if_pos all] at short
      cases short
    refine .inl ⟨read.trans active, by rwa [bufSize, Nat.add_comm], ?_⟩
    have some_byte := List.length_pos_iff.mpr unread
    rw [List.length_drop] at some_byte
    omega
  | receiving _ _ payload stage small split more quiet =>
    by_cases drained : (w.server.clients fd).pending = []
    · refine .inr (.inr ?_)
      rw [Wire.available, drained, List.length_nil, Nat.sub_zero, List.take_length]
      exact more
    · exact .inr (.inl ⟨waiting trivial drained, drained⟩)

/-- Three bytes of the response have been read, and the rest waits for the socket. -/
theorem wire_attended_split :
    ∃ w, Runs.run Wire.next (Wire.start sampleConfig sampleJob 3 0 0 0 300) (splitExchange.take 6) = some w ∧
      (w.workers Server.sampleFd).point = .receiving .getTask [0, 0, 0] ∧ w.available Server.sampleFd = [] ∧
      w.server.writeHandlers Server.sampleFd = true := by
  have ran : (Runs.run Wire.next (Wire.start sampleConfig sampleJob 3 0 0 0 300) (splitExchange.take 6)).any (fun w =>
      (w.server.clients Server.sampleFd).active &&
        (decide ((w.workers Server.sampleFd).point = .receiving .getTask [0, 0, 0]) &&
          (decide ((w.server.sessions Server.sampleFd).received = (w.workers Server.sampleFd).written) &&
            decide (w.available Server.sampleFd = [])))) = true := by decide +kernel
  obtain ⟨w, reached, holds⟩ := (Option.any_eq_true _ _).mp ran
  simp only [Bool.and_eq_true, decide_eq_true_eq] at holds
  obtain ⟨active, waits, arrived, nothing⟩ := holds
  have registers : Runs.Along Wire.next Wire.Registers (Wire.start sampleConfig sampleJob 3 0 0 0 300)
      (splitExchange.take 6) := by
    decide +kernel
  refine ⟨w, reached, waits, nothing, ?_⟩
  rcases wire_attended sampleConfig sampleJob 3 0 0 0 300 registers reached active waits with
    unread | waiting | ready
  · exact absurd unread.2.2 (by rw [arrived]; omega)
  · exact waiting.1
  · exact absurd nothing ready

/-! ## Why a worker exits -/

theorem Drives.ended {w after : World} (driven : Drives w after) (ended : w.master.job.phase.kind? = none) :
    after.master.job.phase.kind? = none := by
  obtain ⟨callbacks, reached⟩ := driven
  have keep : ∀ (w : World) (c : Callback) (w' : World), w.master.job.phase.kind? = none → w.next c = some w' →
      w'.master.job.phase.kind? = none := by
    intro w c w' ended taken
    obtain ⟨r, returned, rfl⟩ := Option.map_eq_some_iff.mp taken
    rw [((callback_effect returned).finished ended).1.job]
    exact ended
  exact Runs.run_invariant keep ended reached

theorem masterHandleGetTask_done {w : World} {fd : Fd} {env : Env} {r : Reply} {payload : Bytes}
    (answers : w.master.Answers) (handled : masterHandleGetTask w fd env = some r) (sent : r.sent = some payload) :
    ∃ response, decodeResponse payload = some response ∧ (response = .done → w.master.job.phase.kind? = none) := by
  cases phase : w.master.job.phase.kind? with
  | none =>
    obtain ⟨response, read, -⟩ := masterHandleGetTask_about answers handled sent
    exact ⟨response.task, by rw [decodeResponse_eq, read, Option.map_some], fun _ => rfl⟩
  | some kind =>
    unfold masterHandleGetTask at handled
    rw [phase] at handled
    obtain ⟨⟨chosen, m⟩, choice, handled⟩ := Option.bind_eq_some_iff.mp handled
    cases chosen with
    | some i =>
      obtain ⟨t, below, found, pending, rfl⟩ := chooseAvailableTask_some choice
      obtain ⟨u, same, handled⟩ := Option.bind_eq_some_iff.mp handled
      cases (Master.handOut_task fd found).symm.trans same
      cases handled
      obtain ⟨encoded, -⟩ := respond_sent sent
      obtain ⟨other, response, made, read, -, task⟩ := taskResp_about answers fd below found pending
      cases made.symm.trans encoded
      refine ⟨response.task, by rw [decodeResponse_eq, read, Option.map_some], fun done => ?_⟩
      rw [task] at done
      cases done
    | none =>
      obtain ⟨buf, waited, handled⟩ := Option.bind_eq_some_iff.mp handled
      cases handled
      obtain ⟨rfl, -⟩ := respond_sent sent
      unfold waitForAvailableTasks at waited
      split at waited
      · rw [rpcEncodeWaitResp_eq] at waited
        cases waited
        exact ⟨.wait, by rw [decodeResponse_eq, taskResponse_wait]; rfl, nofun⟩
      · cases waited

/-- What a worker has been told or is about to be: something it understands, and the end only when the job is over. -/
def Conn.Told (ended : Prop) : Conn → Prop
  | .answered payload => ∃ response, decodeResponse payload = some response ∧ (response = .done → ended)
  | .acked payload => rpcPeekKind payload = some .taskDoneAck
  | .exited => ended
  | _ => True

theorem Conn.Told.mono {ended later : Prop} {conn : Conn} (told : conn.Told ended) (onward : ended → later) :
    conn.Told later := by
  cases conn with
  | answered payload =>
    obtain ⟨response, read, done⟩ := told
    exact ⟨response, read, fun same => onward (done same)⟩
  | acked payload => exact told
  | exited => exact onward told
  | closed | idle | requested | running | reported => exact trivial

structure Cluster.Informed (c : Cluster) : Prop where
  booked : c.world.master.Booked
  told : ∀ fd, (c.conns fd).Told (c.world.master.job.phase.kind? = none)

theorem Cluster.Informed.next {c c' : Cluster} {action : Action} (informed : c.Informed)
    (taken : c.next action = some c') : c'.Informed := by
  have driven := Cluster.next_drives taken
  have moved : ∀ (fd : Fd) (conn : Conn), c'.conns = Function.update c.conns fd conn →
      conn.Told (c'.world.master.job.phase.kind? = none) → c'.Informed := by
    intro fd conn same told
    refine ⟨driven.booked informed.booked, fun other => ?_⟩
    rw [same]
    by_cases here : other = fd
    · subst here
      rwa [Function.update_self]
    · rw [Function.update_of_ne here]
      exact (informed.told other).mono driven.ended
  cases action with
  | connect fd | ask fd | finish fd success | disconnect fd =>
    simp only [Cluster.next] at taken
    split at taken <;> cases taken
    exact moved fd _ rfl trivial
  | receive fd =>
    simp only [Cluster.next] at taken
    split at taken
    next payload stage =>
      cases taken
      refine moved fd _ rfl ?_
      have told := informed.told fd
      rw [stage] at told
      obtain ⟨response, read, done⟩ := told
      simp only [Conn.received, read]
      cases response with
      | task kind taskId attemptId => exact trivial
      | wait => exact trivial
      | done => exact done rfl
    · cases taken
  | confirm fd =>
    simp only [Cluster.next] at taken
    split at taken
    next payload stage =>
      cases taken
      refine moved fd _ rfl ?_
      have told := informed.told fd
      rw [stage] at told
      have ack : rpcPeekKind payload = some .taskDoneAck := told
      rw [if_pos ack]
      exact trivial
    · cases taken
  | deliver fd env =>
    simp only [Cluster.next, Option.bind_eq_bind, Option.bind_eq_some_iff] at taken
    obtain ⟨bytes, outgoing, r, returned, same⟩ := taken
    cases same
    rcases c.delivered_conns fd env r with ⟨-, payload, sent, world, conns⟩ | conns
    · refine moved fd _ conns ?_
      rcases Conn.outgoing_some outgoing with ⟨stage, rfl⟩ | ⟨kind, msg, stage, rfl⟩
      · obtain ⟨response, read, done⟩ := masterHandleGetTask_done informed.booked.answers returned sent
        rw [stage]
        exact ⟨response, read, fun told => driven.ended (done told)⟩
      · rw [callback_encoded] at returned
        rcases taskDone_sent returned with silent | ⟨-, ack⟩
        · rw [silent] at sent
          cases sent
        · cases ack.symm.trans sent
          rw [stage]
          rfl
    · exact moved fd _ conns trivial
  | periodic now realtime =>
    refine ⟨driven.booked informed.booked, fun fd => ?_⟩
    simp only [Cluster.next] at taken
    split at taken
    · obtain ⟨r, -, rfl⟩ := Option.map_eq_some_iff.mp taken
      exact (informed.told fd).mono driven.ended
    · cases taken

theorem Cluster.start_informed (config : MasterConfig) (job : JobDef) (aofFd : Nat) (createdMs : UInt64)
    (now realtime : Int) : (Cluster.start config job aofFd createdMs now realtime).Informed where
  booked := (fresh_unused config job).booked (logBytes createdMs job []) aofFd now realtime
  told _ := trivial

theorem Cluster.Informed.survive {c c' : Cluster} {incident : Incident} (informed : c.Informed)
    (taken : c.survive incident = some c') : c'.Informed := by
  cases incident with
  | action action => exact informed.next taken
  | crash aofFd now realtime =>
    obtain ⟨w, booted, rfl⟩ := Option.map_eq_some_iff.mp taken
    exact ⟨masterBootstrapJob_booked booted now realtime, fun _ => trivial⟩

/-- A worker leaves its loop on an open connection only when the job is done or has failed. -/
theorem workers_exit_finished (config : MasterConfig) (job : JobDef) (aofFd : Nat) (createdMs : UInt64)
    (now realtime clientTimeoutS : Int) {events : List Wire.Event} {w : Wire}
    (reached : Runs.run Wire.next (Wire.start config job aofFd createdMs now realtime clientTimeoutS) events = some w)
    {fd : Fd} (active : (w.server.clients fd).active = true) (exited : (w.workers fd).point = .exited) :
    w.server.app.state.master.job.phase.kind? = none := by
  obtain ⟨c, reaches, refines⟩ := Wire.refines_reached reached
  have keep : ∀ (c : Cluster) (incident : Incident) (c' : Cluster), c.Informed → True → c.survive incident = some c' →
      c'.Informed := fun _ _ _ informed _ taken => informed.survive taken
  have informed := reaches.invariant keep (Cluster.start_informed config job aofFd createdMs now realtime)
  have told := informed.told fd
  rw [← refines.aligned.world]
  have linked := (refines.aligned.fits active).linked
  rw [exited] at linked
  cases linked with
  | exited stage =>
    rw [stage] at told
    exact told

/-- A request that arrives at once, and its response, of the given size, read in the two reads of `recv_framed`. -/
def wholeExchange (x : Exchange) (size : Nat) : List Wire.Event :=
  [.worker Server.sampleFd (.write (frame x.payload).length),
    .server (.readable Server.sampleFd (.data (frame x.payload)) (Server.allWrites (.wrote bufSize))),
    .worker Server.sampleFd (.read frameHdrSize),
    .worker Server.sampleFd (.read size)]

def wholeJob : List Wire.Event :=
  .server (.accept (.taken Server.sampleFd true)) :: wholeExchange .getTask 19 ++
    .worker Server.sampleFd (.finish true) :: wholeExchange (.taskDone .map ⟨0, 1, 0⟩) 1 ++ wholeExchange .getTask 13 ++
    .worker Server.sampleFd (.finish true) :: wholeExchange (.taskDone .reduce ⟨0, 1, 0⟩) 1 ++ wholeExchange .getTask 1

theorem workers_exit_finished_sample :
    ∃ w, Runs.run Wire.next (Wire.start sampleConfig sampleJob 3 0 0 0 300) wholeJob = some w ∧
      (w.workers Server.sampleFd).point = .exited ∧ w.server.app.state.master.job.phase.kind? = none := by
  have ran : (Runs.run Wire.next (Wire.start sampleConfig sampleJob 3 0 0 0 300) wholeJob).any (fun w =>
      (w.server.clients Server.sampleFd).active &&
        decide ((w.workers Server.sampleFd).point = .exited)) = true := by decide +kernel
  obtain ⟨w, reached, holds⟩ := (Option.any_eq_true _ _).mp ran
  simp only [Bool.and_eq_true, decide_eq_true_eq] at holds
  exact ⟨w, reached, holds.2, workers_exit_finished sampleConfig sampleJob 3 0 0 0 300 reached holds.1 holds.2⟩

end MapReduce
