import MapReduce.Worker.Connection

/-! The byte stream from the server to one worker.

A connection takes sends and write-ready events in any order. Whatever part of
the pending bytes each `write` accepts, the stream is the frames of the sends
that succeeded, one behind the other.
-/

set_option autoImplicit false

namespace MapReduce

/-- The slot of a connection, the bytes its writes have taken and the payloads of the sends that returned 0. -/
structure Outgoing where
  client : Client
  accepted : Bytes
  sent : List Bytes
  deriving DecidableEq, Repr

namespace Outgoing

inductive Event where
  | send (payload : Bytes) (result : SocketWrite)
  | writable (result : SocketWrite)
  deriving DecidableEq, Repr

def start (now : Int) : Outgoing := ⟨.accepted now, [], []⟩

/-- What a write leaves, with the payloads sent by then. A hard error removes the client and ends the stream. -/
def after (o : Outgoing) (w : Client.Written) (sent : List Bytes) : Option Outgoing :=
  if w.ending = .lost then none else some ⟨w.client, o.accepted ++ w.taken, sent⟩

/-- `server_send` and `on_write`. -/
def next (o : Outgoing) : Event → Option Outgoing
  | .send payload result =>
    -- `send_framed` copies the payload into a buffer of one maximal frame.
    if payload.length > msgMax then none
    else
      let w := o.client.queueWrite (frame payload) result
      o.after w (if w.ending = .full then o.sent else o.sent ++ [payload])
  | .writable result => o.after (o.client.flush result) o.sent

/-- Accepted and pending bytes together are the frames of what was sent. -/
structure Whole (o : Outgoing) : Prop where
  buffered : o.client.Buffered
  small : ∀ payload ∈ o.sent, payload.length ≤ msgMax
  stream : o.accepted ++ o.client.pending = o.sent.flatMap frame

theorem start_whole (now : Int) : (start now).Whole := ⟨Client.accepted_buffered now, nofun, rfl⟩

theorem of_after {o next : Outgoing} {w : Client.Written} {sent : List Bytes} (taken : o.after w sent = some next) :
    next = ⟨w.client, o.accepted ++ w.taken, sent⟩ := by
  unfold after at taken
  split at taken
  · cases taken
  · exact (Option.some.inj taken).symm

theorem Whole.send {o next : Outgoing} {payload : Bytes} {result : SocketWrite} (whole : o.Whole)
    (small : payload.length ≤ msgMax)
    (taken : o.after (o.client.queueWrite (frame payload) result)
      (if (o.client.queueWrite (frame payload) result).ending = .full then o.sent else o.sent ++ [payload]) =
        some next) : next.Whole := by
  have stream := Client.queueWrite_stream whole.buffered (frame payload) result
  rw [of_after taken]
  refine ⟨Client.queueWrite_buffered whole.buffered _ _, ?_, ?_⟩
  · intro p member
    by_cases full : (o.client.queueWrite (frame payload) result).ending = .full
    · exact whole.small p (by simpa [full] using member)
    · rcases (by simpa [full] using member : p ∈ o.sent ∨ p = payload) with earlier | rfl
      · exact whole.small p earlier
      · exact small
  · calc o.accepted ++ (o.client.queueWrite (frame payload) result).taken ++
          (o.client.queueWrite (frame payload) result).client.pending
        = (o.accepted ++ o.client.pending) ++
          (if (o.client.queueWrite (frame payload) result).ending = .full then [] else frame payload) := by
          rw [List.append_assoc, stream, List.append_assoc]
      _ = _ := by
          rw [whole.stream]
          split <;> simp

theorem Whole.writable {o next : Outgoing} {result : SocketWrite} (whole : o.Whole)
    (taken : o.after (o.client.flush result) o.sent = some next) : next.Whole := by
  rw [of_after taken]
  refine ⟨Client.flush_buffered whole.buffered result, whole.small, ?_⟩
  simp only [List.append_assoc]
  rw [Client.flush_stream whole.buffered, whole.stream]

theorem whole_next (o : Outgoing) (event : Event) (next : Outgoing) (whole : o.Whole)
    (taken : o.next event = some next) : next.Whole := by
  cases event with
  | send payload result =>
    simp only [Outgoing.next] at taken
    split at taken
    · cases taken
    next small => exact whole.send (by omega) taken
  | writable result => exact whole.writable taken

end Outgoing

theorem msgMax_wire : msgMax < 256 ^ frameHdrSize := by decide

/-- At every moment the write buffer is in bounds and completes the accepted bytes to the frames of the
successful sends; a worker that reads that stream receives their payloads in order. -/
theorem sends_arrive_in_order {now : Int} {events : List Outgoing.Event} {o : Outgoing}
    (reached : Runs.run Outgoing.next (Outgoing.start now) events = some o) :
    o.client.woff ≤ o.client.wbuf.length ∧ o.client.wbuf.length ≤ wbufSize ∧
    o.accepted ++ o.client.wbuf.drop o.client.woff = o.sent.flatMap frame ∧
    ∀ results, Connection.Steady (o.sent.flatMap frame).length results →
      ∃ rest, Connection.recvMany msgMax o.sent.length results
        (o.accepted ++ o.client.wbuf.drop o.client.woff) = some ⟨o.sent.map some, [], rest⟩ := by
  have whole := Runs.run_invariant Outgoing.whole_next (Outgoing.start_whole now) reached
  refine ⟨whole.buffered.offset, whole.buffered.bounded, whole.stream, fun results steady => ?_⟩
  have all : Connection.Steady ((o.sent.flatMap frame).length + 0) results := steady
  obtain ⟨rest, received, -⟩ := Connection.recvMany_frames [] whole.small msgMax_wire all
  rw [List.append_nil] at received
  exact ⟨rest, whole.stream ▸ received⟩

def splitSends : List Outgoing.Event :=
  [.send [7, 8] (.wrote 2), .send [9] .again, .writable .again, .writable (.wrote 5)]

theorem sends_arrive_in_order_split : ∃ o, Runs.run Outgoing.next (Outgoing.start 0) splitSends = some o ∧
    o.accepted ++ o.client.wbuf.drop o.client.woff = frame [7, 8] ++ frame [9] ∧
    ∃ rest, Connection.recvMany msgMax 2 (List.replicate 12 (.ready 2))
      (o.accepted ++ o.client.wbuf.drop o.client.woff) = some ⟨[some [7, 8], some [9]], [], rest⟩ := by
  have reached : Runs.run Outgoing.next (Outgoing.start 0) splitSends =
      some ⟨{ Client.accepted 0 with wbuf := frame [7, 8] ++ frame [9], woff := 7 },
        (frame [7, 8] ++ frame [9]).take 7, [[7, 8], [9]]⟩ := by decide +kernel
  obtain ⟨-, -, stream, received⟩ := sends_arrive_in_order reached
  exact ⟨_, reached, stream, received _ ⟨by decide, by decide⟩⟩

end MapReduce
