import MapReduce.Server.Client

/-! The receiving half of `worker.c`: `recv_framed` over `read_exact`.

The stream is everything the master sends before it closes the connection. The
results say how the reads of a blocking socket split it. `none` is a call that
still waits for its next read.
-/

set_option autoImplicit false

namespace MapReduce.Connection

/-- A `read` that returns: with one byte and `more` others if the stream and the request have them, or
interrupted by a signal, or with an error. -/
inductive ReadResult where
  | ready (more : Nat)
  | interrupted
  | failed
  deriving DecidableEq, Repr

structure Reading (α : Type) where
  value : α
  stream : Bytes
  results : List ReadResult
  deriving DecidableEq, Repr

def Reading.map {α β : Type} (r : Reading α) (f : α → β) : Reading β := ⟨f r.value, r.stream, r.results⟩

/-- `read_exact`. An error gives no bytes; the end of the stream gives fewer than were asked for. -/
def readExact : List ReadResult → Nat → Bytes → Option (Reading (Option Bytes))
  | results, 0, stream => some ⟨some [], stream, results⟩
  | [], _ + 1, _ => none
  | .interrupted :: rest, len + 1, stream => readExact rest (len + 1) stream
  | .failed :: rest, _ + 1, stream => some ⟨none, stream, rest⟩
  | .ready _ :: rest, _ + 1, [] => some ⟨some [], [], rest⟩
  | .ready more :: rest, len + 1, byte :: stream =>
    let chunk := byte :: stream.take (min more len)
    (readExact rest (len + 1 - chunk.length) (stream.drop (min more len))).map fun r =>
      r.map (Option.map (chunk ++ ·))

/-- `read_exact` where its caller accepts nothing but the length it asked for. -/
def readField (results : List ReadResult) (len : Nat) (stream : Bytes) : Option (Reading (Option Bytes)) :=
  (readExact results len stream).map fun r => r.map (Option.filter (·.length = len))

def recvFramed (cap : Nat) (results : List ReadResult) (stream : Bytes) : Option (Reading (Option Bytes)) := do
  let header ← readField results frameHdrSize stream
  match header.value with
  | none => some header
  | some hdr =>
    -- The length field is not trusted: the caller's buffer bounds it.
    if BigEndian.value hdr > cap then some { header with value := none }
    else readField header.results (BigEndian.value hdr) header.stream

def recvMany (cap : Nat) : Nat → List ReadResult → Bytes → Option (Reading (List (Option Bytes)))
  | 0, results, stream => some ⟨[], stream, results⟩
  | count + 1, results, stream => do
    let first ← recvFramed cap results stream
    let others ← recvMany cap count first.results first.stream
    some (others.map (first.value :: ·))

def readies (results : List ReadResult) : Nat := results.countP fun
  | .ready _ => true
  | _ => false

/-- No read fails, and as many reads bring bytes as there are bytes to come. -/
structure Steady (len : Nat) (results : List ReadResult) : Prop where
  sound : .failed ∉ results
  enough : len ≤ readies results

theorem Steady.mono {len fewer : Nat} {results : List ReadResult} (steady : Steady len results)
    (le : fewer ≤ len) : Steady fewer results := ⟨steady.sound, le.trans steady.enough⟩

theorem readExact_field {results : List ReadResult} {field : Bytes} {more : Nat} (stream : Bytes)
    (steady : Steady (field.length + more) results) :
    ∃ rest, readExact results field.length (field ++ stream) = some ⟨some field, stream, rest⟩ ∧
      Steady more rest := by
  induction results generalizing field with
  | nil =>
    have enough := steady.enough
    simp only [readies, List.countP_nil] at enough
    obtain rfl : field = [] := List.length_eq_zero_iff.mp (by omega)
    exact ⟨[], rfl, steady.mono (by omega)⟩
  | cons result results ih =>
    have sound : .failed ∉ results := fun member => steady.sound (List.mem_cons_of_mem _ member)
    have enough := steady.enough
    simp only [readies, List.countP_cons] at enough
    cases field with
    | nil => exact ⟨result :: results, rfl, steady.mono (by simp)⟩
    | cons byte field =>
      cases result with
      | failed => exact absurd List.mem_cons_self steady.sound
      | interrupted =>
        have later : Steady ((byte :: field).length + more) results := ⟨sound, enough⟩
        exact ih later
      | ready n =>
        -- The read takes the byte and `taken` of the rest; the remaining reads bring what is left.
        simp only [↓reduceIte, List.length_cons] at enough
        generalize taken_eq : min n field.length = taken
        have within : taken ≤ field.length := by omega
        have left : Steady ((field.drop taken).length + more) results :=
          ⟨sound, by rw [List.length_drop, readies]; omega⟩
        obtain ⟨rest, read, kept⟩ := ih left
        refine ⟨rest, ?_, kept⟩
        have remaining : field.length + 1 - ((field.take taken).length + 1) = (field.drop taken).length := by
          rw [List.length_take, List.length_drop]
          omega
        simp only [List.cons_append, List.length_cons, readExact, taken_eq]
        rw [List.take_append_of_le_length within, List.drop_append_of_le_length within, remaining, read]
        simp [Reading.map]

theorem readField_field {results : List ReadResult} {field : Bytes} {more : Nat} (stream : Bytes)
    (steady : Steady (field.length + more) results) :
    ∃ rest, readField results field.length (field ++ stream) = some ⟨some field, stream, rest⟩ ∧
      Steady more rest := by
  obtain ⟨rest, read, kept⟩ := readExact_field stream steady
  refine ⟨rest, ?_, kept⟩
  simp [readField, read, Reading.map]

theorem recvFramed_frame {cap more : Nat} {results : List ReadResult} {payload : Bytes} (stream : Bytes)
    (small : payload.length ≤ cap) (wire : cap < 256 ^ frameHdrSize)
    (steady : Steady ((frame payload).length + more) results) :
    ∃ rest, recvFramed cap results (frame payload ++ stream) = some ⟨some payload, stream, rest⟩ ∧
      Steady more rest := by
  have length : (BigEndian.encode frameHdrSize payload.length).length = frameHdrSize :=
    BigEndian.encode_length _ _
  have size : BigEndian.value (BigEndian.encode frameHdrSize payload.length) = payload.length :=
    BigEndian.value_encode frameHdrSize (Nat.lt_of_le_of_lt small wire)
  have total : (frame payload).length = frameHdrSize + payload.length := Framing.frame_length payload
  have first : Steady ((BigEndian.encode frameHdrSize payload.length).length + (payload.length + more)) results :=
    steady.mono (by rw [length, total]; omega)
  obtain ⟨mid, header, kept⟩ := readField_field (payload ++ stream) first
  obtain ⟨rest, body, left⟩ := readField_field stream kept
  refine ⟨rest, ?_, left⟩
  rw [length] at header
  rw [recvFramed, frame, Framing.frame, List.append_assoc, header, Option.bind_eq_bind, Option.bind_some]
  simp only [size]
  rw [if_neg (by omega), body]

theorem recvMany_frames {cap more : Nat} {results : List ReadResult} {payloads : List Bytes} (stream : Bytes)
    (small : ∀ payload ∈ payloads, payload.length ≤ cap) (wire : cap < 256 ^ frameHdrSize)
    (steady : Steady ((payloads.flatMap frame).length + more) results) :
    ∃ rest, recvMany cap payloads.length results (payloads.flatMap frame ++ stream) =
      some ⟨payloads.map some, stream, rest⟩ ∧ Steady more rest := by
  induction payloads generalizing results with
  | nil => exact ⟨results, rfl, steady.mono (by simp)⟩
  | cons payload payloads ih =>
    have split : Steady ((frame payload).length + ((payloads.flatMap frame).length + more)) results :=
      steady.mono (by simp only [List.flatMap_cons, List.length_append]; omega)
    obtain ⟨mid, first, kept⟩ := recvFramed_frame (payloads.flatMap frame ++ stream)
      (small payload List.mem_cons_self) wire split
    obtain ⟨rest, others, left⟩ := ih (fun p member => small p (List.mem_cons_of_mem _ member)) kept
    refine ⟨rest, ?_, left⟩
    simp [recvMany, List.append_assoc, first, others, Reading.map]

end MapReduce.Connection
