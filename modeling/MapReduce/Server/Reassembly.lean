import MapReduce.Server.Application

/-! Reassembly of the stream a worker sends.

Reads may split and join frames at any byte. What a connection has received is
at every moment the frames it has delivered, followed by bytes that are not a
whole frame yet; it ends early only at a length over the limit or behind the
first message its handler refuses.
-/

set_option autoImplicit false

namespace MapReduce

namespace Session

def payloads (t : Session) : List Bytes := t.delivered.map Prod.fst

def Accepted (t : Session) : Prop := ∀ message ∈ t.delivered, message.2 = true

structure Framed (t : Session) (rest : Bytes) : Prop where
  received : t.received = t.payloads.flatMap frame ++ rest
  small : ∀ payload ∈ t.payloads, payload.length ≤ msgMax

theorem Framed.deliver {t : Session} {buf payload : Bytes} (framed : t.Framed buf)
    (found : frontFrame buf = .message payload) (ok : Bool) :
    ({ t with delivered := t.delivered ++ [(payload, ok)] } : Session).Framed
      (buf.drop (frameHdrSize + payload.length)) := by
  obtain ⟨split, small⟩ := Framing.eq_of_front found
  constructor
  · rw [framed.received]
    conv_lhs => rw [split]
    simp [payloads, frame]
  · intro p member
    simp only [payloads, List.map_append, List.map_cons, List.map_nil, List.mem_append,
      List.mem_singleton] at member
    rcases member with earlier | rfl
    · exact framed.small p earlier
    · exact small

end Session

/-- A handler whose reply fits a frame and that fails when its reply cannot be sent. -/
def Handling.Careful {σ : Type} : Handling σ → Prop
  | .finish _ _ => True
  | .reply _ payload resume => payload.length ≤ msgMax ∧ ∀ state, (resume state false).2 = false

def App.Returns {σ ε : Type} (app : App σ ε) : Prop :=
  ∀ state fd payload env, ∃ handling, app.onMessage state fd payload env = some handling ∧ handling.Careful

theorem Handling.Careful.handled {σ ε : Type} {handling : Handling σ} (careful : handling.Careful) (app : App σ ε)
    (s : Server σ) (fd : Fd) (result : SendResult) : ∃ answer, s.handle app fd result handling = some answer := by
  cases handling with
  | finish state ok => exact ⟨_, rfl⟩
  | reply state payload resume =>
    have small : ¬ payload.length > msgMax := by
      have := careful.1
      omega
    simp only [Server.handle, Server.sendFramed, if_neg small, Option.map_some]
    exact ⟨_, rfl⟩

theorem Handling.Careful.kept {σ ε : Type} {app : App σ ε} {handling : Handling σ} (careful : handling.Careful)
    {s after : Server σ} {fd : Fd} {result : SendResult}
    (handled : s.handle app fd result handling = some (after, true)) : Server.Kept fd s after := by
  cases handling with
  | finish state ok =>
    cases handled
    exact (Server.Kept.refl fd s).withApp state
  | reply state payload resume =>
    simp only [Server.handle, Server.sendFramed] at handled
    split at handled
    · cases handled
    · simp only [Option.map_some, Option.some.injEq, Prod.mk.injEq] at handled
      obtain ⟨rfl, ok⟩ := handled
      rcases Server.queueWrite_cases app { s with app := state } fd (frame payload) result with
        kept | ⟨-, mid, -, same⟩
      · exact kept.ofApp.withApp _
      · -- The send has failed, so the handler cannot have returned 0.
        rw [same, careful.2] at ok
        cases ok

/-- How far a connection has come in its stream: it still reads, or it has ended with every whole frame
delivered, at a length over the limit, or with the first message that was refused. -/
inductive Reassembled (c : Client) (t : Session) : Prop where
  | reading (framed : t.Framed c.buf) (accepted : t.Accepted) (active : c.active = true)
      (rest : frontFrame c.buf = .short)
  | ended (rest : Bytes) (framed : t.Framed rest) (accepted : t.Accepted) (removed : c.active = false)
      (incomplete : frontFrame rest = .short)
  | oversize (rest : Bytes) (framed : t.Framed rest) (accepted : t.Accepted) (removed : c.active = false)
      (large : frontFrame rest = .oversize)
  | refused (rest : Bytes) (framed : t.Framed rest) (removed : c.active = false)
      (earlier : List (Bytes × Bool)) (payload : Bytes) (last : t.delivered = earlier ++ [(payload, false)])
      (accepted : ∀ message ∈ earlier, message.2 = true)

namespace Reassembled

variable {c other : Client} {t : Session}

theorem remove (done : Reassembled c t) (removed : other.active = false) : Reassembled other t := by
  cases done with
  | reading framed accepted _ rest => exact .ended c.buf framed accepted removed rest
  | ended rest framed accepted _ incomplete => exact .ended rest framed accepted removed incomplete
  | oversize rest framed accepted _ large => exact .oversize rest framed accepted removed large
  | refused rest framed _ earlier payload last accepted =>
    exact .refused rest framed removed earlier payload last accepted

theorem sameRead (done : Reassembled c t) (same : Client.SameRead c other) : Reassembled other t := by
  cases done with
  | reading framed accepted active rest =>
    exact .reading (same.buf ▸ framed) accepted (same.active.trans active) (same.buf ▸ rest)
  | ended rest framed accepted removed incomplete =>
    exact .ended rest framed accepted (same.active.trans removed) incomplete
  | oversize rest framed accepted removed large =>
    exact .oversize rest framed accepted (same.active.trans removed) large
  | refused rest framed removed earlier payload last accepted =>
    exact .refused rest framed (same.active.trans removed) earlier payload last accepted

theorem fresh (now : Int) : Reassembled (.accepted now) ⟨[], []⟩ :=
  .reading ⟨rfl, nofun⟩ nofun rfl rfl

theorem unused : Reassembled .zero ⟨[], []⟩ := (fresh 0).remove rfl

end Reassembled

namespace Server

variable {σ ε : Type} {app : App σ ε} {during : During ε} {fd : Fd}

/-- What `process_buffer` starts from: bytes behind the delivered frames that it has not looked at. -/
structure Reads (s : Server σ) (fd : Fd) : Prop where
  active : (s.clients fd).active = true
  framed : (s.sessions fd).Framed (s.clients fd).buf
  accepted : (s.sessions fd).Accepted

theorem removeClient_inactive (app : App σ ε) (s : Server σ) (fd : Fd) :
    ((s.removeClient app fd).clients fd).active = false := by
  simp [removeClient, Client.zero]

theorem handle_sessions {result : SendResult} {handling : Handling σ} {s after : Server σ} {ok : Bool}
    (handled : s.handle app fd result handling = some (after, ok)) : after.sessions = s.sessions := by
  rcases handle_cases handled with kept | ⟨-, mid, state, kept, rfl⟩
  · exact kept.sessions
  · exact kept.sessions

theorem processBuffer_reassembled {rounds k : Nat} {s after : Server σ} (reads : s.Reads fd)
    (processed : processBuffer app during fd rounds k s = some after) :
    Reassembled (after.clients fd) (after.sessions fd) := by
  induction rounds generalizing k s with
  | zero => cases processed
  | succ rounds ih =>
    cases processBuffer_round processed with
    | waits short same =>
      subst same
      exact .reading reads.framed reads.accepted reads.active short
    | oversize large removed =>
      subst removed
      exact .oversize _ reads.framed reads.accepted (removeClient_inactive app s fd) large
    | refused payload handling mid found asked handled removed =>
      subst removed
      have session : (((mid.noteDelivered fd payload false).removeClient app fd).sessions fd) =
          { s.sessions fd with delivered := (s.sessions fd).delivered ++ [(payload, false)] } := by
        simp [removeClient, noteDelivered, handle_sessions handled]
      rw [session]
      exact .refused _ (reads.framed.deliver found false) (removeClient_inactive app _ fd) _ payload rfl
        reads.accepted
    | accepted payload handling mid found asked handled kept later =>
      refine ih ⟨?_, ?_, ?_⟩ later
      · simpa [dropFrame, setClient, noteDelivered] using kept.read.active.trans reads.active
      · simpa [dropFrame, setClient, noteDelivered, kept.sessions, kept.read.buf] using
          reads.framed.deliver found true
      · intro message member
        simp only [dropFrame, setClient, noteDelivered, kept.sessions, Function.update_self, List.mem_append,
          List.mem_singleton] at member
        rcases member with earlier | rfl
        · exact reads.accepted message earlier
        · rfl

/-- The stream of every connection is reassembled, and only active clients wait for their socket. -/
structure Sound (s : Server σ) : Prop where
  watched : s.Watched
  streams : ∀ fd, Reassembled (s.clients fd) (s.sessions fd)

theorem init_sound (state : σ) (now clientTimeoutS : Int) : (init state now clientTimeoutS).Sound where
  watched := nofun
  streams := fun _ => .unused

theorem Sound.move {s after : Server σ} (sound : s.Sound) (watched : after.Watched) (moved : Local fd s after)
    (here : Reassembled (after.clients fd) (after.sessions fd)) : after.Sound where
  watched := watched
  streams := by
    intro other
    by_cases same : other = fd
    · exact same ▸ here
    · rw [moved.clients other same, moved.sessions other same]
      exact sound.streams other

theorem Sound.remove {s : Server σ} (sound : s.Sound) (app : App σ ε) (fd : Fd) : (s.removeClient app fd).Sound :=
  sound.move (sound.watched.remove app fd) (local_removeClient app s fd)
    ((sound.streams fd).remove (removeClient_inactive app s fd))

theorem Sound.reads {s : Server σ} (sound : s.Sound) (active : (s.clients fd).active = true) : s.Reads fd := by
  cases sound.streams fd with
  | reading framed accepted _ _ => exact ⟨active, framed, accepted⟩
  | ended _ _ _ removed _ => rw [removed] at active; cases active
  | oversize _ _ _ removed _ => rw [removed] at active; cases active
  | refused _ _ removed _ _ _ _ => rw [removed] at active; cases active

theorem Reads.extend {s : Server σ} (reads : s.Reads fd) (chunk : Bytes) :
    ((s.setClient fd { s.clients fd with
      lastActiveMs := s.nowMs, buf := (s.clients fd).buf ++ chunk }).noteReceived fd chunk).Reads fd where
  active := by simpa [noteReceived, setClient] using reads.active
  framed := by
    simp only [noteReceived, setClient, Function.update_self]
    exact ⟨by rw [reads.framed.received, List.append_assoc]; rfl, reads.framed.small⟩
  accepted := by
    simp only [noteReceived, setClient, Function.update_self]
    exact reads.accepted

theorem onRead_sound {s after : Server σ} {result : SocketRead} (sound : s.Sound)
    (read : s.onRead app fd result during = some after) : after.Sound := by
  have watched := onRead_watched sound.watched read
  cases onRead_step read with
  | idle same => exact same ▸ sound
  | removed active same => exact same ▸ sound.remove app fd
  | data chunk arrived active some_byte fits processed =>
    exact sound.move watched (onRead_local read)
      (processBuffer_reassembled ((sound.reads active).extend chunk) processed)

theorem onWrite_sound {s after : Server σ} {result : SocketWrite} (sound : s.Sound)
    (active : (s.clients fd).active = true)
    (written : s.onWrite app fd result during = some after) : after.Sound := by
  have watched := onWrite_watched sound.watched active written
  cases onWrite_step written with
  | removed same => exact same ▸ sound.remove app fd
  | waiting c same_read same =>
    subst same
    refine sound.move watched (local_setClient s fd c) ?_
    simpa [setClient] using (sound.streams fd).sameRead same_read
  | drained drains processed =>
    have same_read := (s.clients fd).flush_sameRead result
    have reads : ((s.setClient fd ((s.clients fd).flush result).client).watchWrite fd false).Reads fd := by
      obtain ⟨-, framed, accepted⟩ := sound.reads active
      refine ⟨?_, ?_, accepted⟩
      · simpa [watchWrite, setClient] using same_read.active.trans active
      · simpa [watchWrite, setClient, same_read.buf] using framed
    exact sound.move watched (onWrite_local written) (processBuffer_reassembled reads processed)

theorem onAccept_sound {s after : Server σ} {result : Accept} (sound : s.Sound)
    (accepted : s.onAccept app result = some after) : after.Sound := by
  refine ⟨onAccept_watched sound.watched accepted, fun other => ?_⟩
  cases result with
  | refused => exact Option.some.inj accepted ▸ sound.streams other
  | taken fd registered =>
    simp only [onAccept] at accepted
    split at accepted
    · cases accepted
    · cases registered with
      | true =>
        cases accepted
        by_cases same : other = fd
        · subst same
          simpa using Reassembled.fresh s.nowMs
        · simpa [Function.update_of_ne same] using sound.streams other
      | false =>
        cases accepted
        by_cases same : other = fd
        · subst same
          have cleared : Reassembled .zero (s.sessions other) := (sound.streams other).remove rfl
          simpa using cleared
        · simpa [Function.update_of_ne same] using sound.streams other

theorem next_sound (s : Server σ) (event : Event ε) (after : Server σ) (sound : s.Sound)
    (taken : s.next app event = some after) : after.Sound := by
  cases event with
  | accept result => exact onAccept_sound sound taken
  | readable fd result during =>
    simp only [next] at taken
    split at taken
    · exact onRead_sound sound taken
    · exact Option.some.inj taken ▸ sound
  | writable fd result during =>
    simp only [next] at taken
    split at taken
    next on => exact onWrite_sound sound (sound.watched fd on) taken
    · exact Option.some.inj taken ▸ sound
  | checkTimeouts =>
    rw [← Option.some.inj taken]
    exact checkFrom_invariant (fun s fd (inv : s.Sound) _ => inv.remove app fd) _ _ sound
  | beforeSleep now realtime =>
    exact beforeSleep_invariant (fun s fd (inv : s.Sound) _ => inv.remove app fd)
      (fun _ _ _ _ _ inv => ⟨inv.watched, inv.streams⟩) sound taken
  | shutdown =>
    rw [← Option.some.inj taken]
    exact ⟨sound.watched, sound.streams⟩

/-! ## Every chunk that fits is processed to the end -/

theorem processBuffer_defined (returns : app.Returns) {rounds k : Nat} {s : Server σ}
    (enough : (s.clients fd).buf.length < rounds) :
    ∃ after, processBuffer app during fd rounds k s = some after := by
  induction rounds generalizing k s with
  | zero => omega
  | succ rounds ih =>
    unfold processBuffer
    split
    · exact ⟨_, rfl⟩
    · exact ⟨_, rfl⟩
    next payload found =>
      obtain ⟨handling, asked, careful⟩ := returns s.app fd payload (during k).1
      obtain ⟨⟨mid, ok⟩, handled⟩ := careful.handled app s fd (during k).2
      simp only [asked, handled, Option.bind_eq_bind, Option.bind_some]
      cases ok with
      | false => exact ⟨_, rfl⟩
      | true =>
        have buf : (mid.clients fd).buf = (s.clients fd).buf := (careful.kept handled).read.buf
        have whole := congrArg List.length (Framing.eq_of_front found).1
        simp only [List.length_append, Framing.frame_length, List.length_drop] at whole
        have header : frameHdrSize = 4 := rfl
        simp only [↓reduceIte]
        rw [if_neg (by simp only [noteDelivered, buf]; omega)]
        refine ih ?_
        simp only [dropFrame, setClient, noteDelivered, Function.update_self, buf, List.length_drop]
        omega

end Server

/-- Whatever the chunks, a connection has delivered the frames of its stream in order, up to the first refused
message or the first length over the limit, where it is removed. A connection that still reads has a free byte
in its buffer, and a chunk that fits is processed to the end if the handler returns. -/
theorem frames_delivered_in_order {σ ε : Type} (app : App σ ε) {state : σ} {now clientTimeoutS : Int}
    {events : List (Server.Event ε)} {s : Server σ}
    (reached : Runs.run (Server.next app) (Server.init state now clientTimeoutS) events = some s) (fd : Fd) :
    Reassembled (s.clients fd) (s.sessions fd) ∧
    ((s.clients fd).active = true → (s.clients fd).buf.length < bufSize) ∧
    (app.Returns → ∀ chunk during, chunk ≠ [] → chunk.length ≤ bufSize - (s.clients fd).buf.length →
      ∃ after, s.onRead app fd (.data chunk) during = some after) := by
  have sound := Runs.run_invariant Server.next_sound (Server.init_sound state now clientTimeoutS) reached
  refine ⟨sound.streams fd, fun active => ?_, fun returns chunk during some_byte fits => ?_⟩
  · cases sound.streams fd with
    | reading framed accepted _ rest =>
      have bound := Framing.length_of_short rest
      rwa [Nat.add_comm] at bound
    | ended _ _ _ removed _ => rw [removed] at active; cases active
    | oversize _ _ _ removed _ => rw [removed] at active; cases active
    | refused _ _ removed _ _ _ _ => rw [removed] at active; cases active
  · simp only [Server.onRead]
    split
    · rw [if_neg (by simp only [not_or]; exact ⟨some_byte, by omega⟩)]
      exact Server.processBuffer_defined returns (Nat.lt_succ_self _)
    · exact ⟨s, rfl⟩

/-- A request for a task whose header arrives in two reads, the second of which also brings the start of the
next frame. -/
def splitReads : List (Server.Event LogEnv) :=
  [.accept (.taken Server.sampleFd true),
    .readable Server.sampleFd (.data [0, 0]) (Server.allWrites (.wrote bufSize)),
    .readable Server.sampleFd (.data [0, 1, 1, 0, 0]) (Server.allWrites (.wrote bufSize))]

theorem frames_delivered_in_order_split :
    ∃ s, Runs.run (Server.next masterApp) Server.sample splitReads = some s ∧
      (s.sessions Server.sampleFd).delivered = [([1], true)] ∧ (s.clients Server.sampleFd).buf.length < bufSize ∧
      Reassembled (s.clients Server.sampleFd) (s.sessions Server.sampleFd) := by
  have ran : (Runs.run (Server.next masterApp) Server.sample splitReads).any (fun s =>
      (s.sessions Server.sampleFd).delivered == [([1], true)] && (s.clients Server.sampleFd).active) = true := by
    decide +kernel
  obtain ⟨s, reached, holds⟩ := (Option.any_eq_true _ _).mp ran
  obtain ⟨delivered, active⟩ := (Bool.and_eq_true _ _).mp holds
  obtain ⟨stream, room, -⟩ := frames_delivered_in_order masterApp reached Server.sampleFd
  exact ⟨s, reached, beq_iff_eq.mp delivered, room active, stream⟩

end MapReduce
