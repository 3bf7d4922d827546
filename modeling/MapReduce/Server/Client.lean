import MapReduce.Lib.Framing
import MapReduce.Lib.Runs
import MapReduce.Task

/-! The slot of one connection, `client_t`, and its write buffer.

The bytes of `wbuf` before `woff` are with the kernel, those from `woff` on are
still to be written. `taken` records what a single `write` accepted, which the
code itself does not keep.
-/

set_option autoImplicit false

namespace MapReduce

def frameHdrSize : Nat := 4
def wbufSize : Nat := (msgMax + frameHdrSize) * 2

/-- `sizeof(c->buf)`: one maximal frame. -/
def bufSize : Nat := msgMax + frameHdrSize

def frame (payload : Bytes) : Bytes := Framing.frame frameHdrSize payload

/-- A `write` on a non-blocking socket. EAGAIN, EWOULDBLOCK and EINTR are treated alike. -/
inductive SocketWrite where
  | wrote (n : Nat)
  | again
  | hardError
  deriving DecidableEq, Repr

/-- The lengths of `buf` and `wbuf` are the fields `len` and `wlen`. -/
structure Client where
  active : Bool
  lastActiveMs : Int
  buf : Bytes
  wbuf : Bytes
  woff : Nat
  deriving DecidableEq, Repr

namespace Client

def zero : Client := ⟨false, 0, [], [], 0⟩

def accepted (now : Int) : Client := { zero with active := true, lastActiveMs := now }

def pending (c : Client) : Bytes := c.wbuf.drop c.woff

inductive WriteEnd where
  | full
  | waiting
  | drained
  | lost
  deriving DecidableEq, Repr

structure Written where
  client : Client
  ending : WriteEnd
  taken : Bytes
  deriving DecidableEq, Repr

/-- One `write` of all that is pending, as `on_write` and the fast path of `queue_write` do it. -/
def flush (c : Client) : SocketWrite → Written
  | .hardError => ⟨c, .lost, []⟩
  | .again => ⟨c, .waiting, []⟩
  | .wrote n =>
    let taken := c.pending.take n
    let c := { c with woff := c.woff + taken.length }
    if c.woff = c.wbuf.length then ⟨{ c with wbuf := [], woff := 0 }, .drained, taken⟩
    else ⟨c, .waiting, taken⟩

/-- The compaction of `queue_write`, taken only when the new bytes would not fit behind the old. -/
def makeRoom (c : Client) (len : Nat) : Client :=
  if c.wbuf.length + len > wbufSize ∧ c.woff > 0 then { c with wbuf := c.pending, woff := 0 } else c

/-- The part of `queue_write` that concerns the slot. -/
def queueWrite (c : Client) (data : Bytes) (result : SocketWrite) : Written :=
  let c := c.makeRoom data.length
  if c.wbuf.length + data.length > wbufSize then ⟨c, .full, []⟩
  else
    let queued := { c with wbuf := c.wbuf ++ data }
    -- Only bytes with nothing in front of them are written at once.
    if c.wbuf = [] then queued.flush result else ⟨queued, .waiting, []⟩

structure Buffered (c : Client) : Prop where
  offset : c.woff ≤ c.wbuf.length
  bounded : c.wbuf.length ≤ wbufSize

structure SameRead (c other : Client) : Prop where
  active : other.active = c.active
  lastActive : other.lastActiveMs = c.lastActiveMs
  buf : other.buf = c.buf

theorem SameRead.refl (c : Client) : SameRead c c := ⟨rfl, rfl, rfl⟩

theorem accepted_buffered (now : Int) : (accepted now).Buffered := ⟨Nat.le_refl _, Nat.zero_le _⟩

/-! ## `flush` -/

theorem pending_length (c : Client) : c.pending.length = c.wbuf.length - c.woff := List.length_drop

theorem flush_sameRead (c : Client) (result : SocketWrite) : SameRead c (c.flush result).client := by
  cases result with
  | hardError => exact .refl c
  | again => exact .refl c
  | wrote n =>
    simp only [flush]
    split <;> exact ⟨rfl, rfl, rfl⟩

theorem flush_buffered {c : Client} (ready : c.Buffered) (result : SocketWrite) :
    (c.flush result).client.Buffered := by
  cases result with
  | hardError => exact ready
  | again => exact ready
  | wrote n =>
    have taken : (c.pending.take n).length ≤ c.wbuf.length - c.woff := by
      rw [← pending_length]
      exact List.length_take_le' n _
    have inside := ready.offset
    simp only [flush]
    split
    · exact ⟨Nat.le_refl _, Nat.zero_le _⟩
    · exact ⟨by simp only; omega, ready.bounded⟩

theorem flush_stream {c : Client} (ready : c.Buffered) (result : SocketWrite) :
    (c.flush result).taken ++ (c.flush result).client.pending = c.pending := by
  cases result with
  | hardError => rfl
  | again => rfl
  | wrote n =>
    have whole := List.take_append_drop (c.pending.take n).length c.pending
    have front : c.pending.take (c.pending.take n).length = c.pending.take n := by
      rw [List.length_take, List.take_eq_take_iff]
      omega
    simp only [flush]
    split
    next drained =>
      -- Nothing is left behind the accepted bytes, so resetting both offsets drops nothing.
      have all : c.pending.length ≤ (c.pending.take n).length := by
        have inside := ready.offset
        rw [pending_length]
        omega
      rw [List.drop_eq_nil_of_le all, front] at whole
      exact whole
    next =>
      rw [front] at whole
      simp only [pending] at whole ⊢
      rwa [List.drop_drop] at whole

theorem flush_not_full (c : Client) (result : SocketWrite) : (c.flush result).ending ≠ .full := by
  cases result with
  | hardError => exact nofun
  | again => exact nofun
  | wrote n =>
    simp only [flush]
    split <;> exact nofun

theorem hardError_of_flush_lost {c : Client} {result : SocketWrite} (lost : (c.flush result).ending = .lost) :
    result = .hardError := by
  cases result with
  | hardError => rfl
  | again => cases lost
  | wrote n =>
    simp only [flush] at lost
    split at lost <;> cases lost

/-! ## `queueWrite` -/

theorem makeRoom_pending (c : Client) (len : Nat) : (c.makeRoom len).pending = c.pending := by
  unfold makeRoom
  split <;> rfl

theorem makeRoom_sameRead (c : Client) (len : Nat) : SameRead c (c.makeRoom len) := by
  unfold makeRoom
  split <;> exact ⟨rfl, rfl, rfl⟩

theorem makeRoom_buffered {c : Client} (ready : c.Buffered) (len : Nat) : (c.makeRoom len).Buffered := by
  unfold makeRoom
  split
  · refine ⟨Nat.zero_le _, ?_⟩
    have bounded := ready.bounded
    simp only [pending_length]
    omega
  · exact ready

theorem queueWrite_sameRead (c : Client) (data : Bytes) (result : SocketWrite) :
    SameRead c (c.queueWrite data result).client := by
  obtain ⟨active, lastActive, buf⟩ := c.makeRoom_sameRead data.length
  simp only [queueWrite]
  split
  · exact ⟨active, lastActive, buf⟩
  · split
    · obtain ⟨active', lastActive', buf'⟩ :=
        flush_sameRead { c.makeRoom data.length with wbuf := (c.makeRoom data.length).wbuf ++ data } result
      exact ⟨active'.trans active, lastActive'.trans lastActive, buf'.trans buf⟩
    · exact ⟨active, lastActive, buf⟩

/-- Whether `queue_write` writes at once: the bytes have room, and none wait in front of them. -/
def WritesAtOnce (c : Client) (data : Bytes) : Prop :=
  (c.makeRoom data.length).wbuf = [] ∧ data.length ≤ wbufSize

instance (c : Client) (data : Bytes) : Decidable (c.WritesAtOnce data) := inferInstanceAs (Decidable (_ ∧ _))

theorem writesAtOnce_of_lost {c : Client} {data : Bytes} {result : SocketWrite}
    (lost : (c.queueWrite data result).ending = .lost) : c.WritesAtOnce data ∧ result = .hardError := by
  simp only [queueWrite] at lost
  split at lost
  · cases lost
  next fits =>
    split at lost
    next empty =>
      rw [empty, List.length_nil, Nat.zero_add, Nat.not_lt] at fits
      exact ⟨⟨empty, fits⟩, hardError_of_flush_lost lost⟩
    · cases lost

theorem append_buffered {c : Client} (ready : c.Buffered) {data : Bytes}
    (fits : ¬ c.wbuf.length + data.length > wbufSize) : ({ c with wbuf := c.wbuf ++ data } : Client).Buffered := by
  have inside := ready.offset
  exact ⟨by simp only [List.length_append]; omega, by simp only [List.length_append]; omega⟩

theorem queueWrite_buffered {c : Client} (ready : c.Buffered) (data : Bytes) (result : SocketWrite) :
    (c.queueWrite data result).client.Buffered := by
  have room := makeRoom_buffered ready data.length
  simp only [queueWrite]
  split
  · exact room
  next fits =>
    split
    · exact flush_buffered (append_buffered room fits) result
    · exact append_buffered room fits

theorem queueWrite_stream {c : Client} (ready : c.Buffered) (data : Bytes) (result : SocketWrite) :
    (c.queueWrite data result).taken ++ (c.queueWrite data result).client.pending =
      c.pending ++ if (c.queueWrite data result).ending = .full then [] else data := by
  have room := makeRoom_buffered ready data.length
  have same := c.makeRoom_pending data.length
  simp only [queueWrite]
  split
  · rw [if_pos rfl, List.append_nil]
    exact same
  next fits =>
    have behind : ({ c.makeRoom data.length with wbuf := (c.makeRoom data.length).wbuf ++ data } : Client).pending =
        c.pending ++ data := by
      rw [← same]
      exact List.drop_append_of_le_length room.offset
    split
    · rw [flush_stream (append_buffered room fits), if_neg (flush_not_full _ _)]
      exact behind
    · rw [if_neg nofun]
      exact behind

end Client

end MapReduce
