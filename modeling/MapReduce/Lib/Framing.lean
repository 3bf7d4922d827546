import MapReduce.Lib.BigEndian

/-! Frames on a byte stream: a payload behind its length.

The header is a big-endian number of `width` bytes. `front` says what stands at
the front of the bytes a receiver has so far.
-/

set_option autoImplicit false

namespace Framing

variable {width limit : Nat}

def frame (width : Nat) (payload : Bytes) : Bytes := BigEndian.encode width payload.length ++ payload

inductive Front where
  | short
  | oversize
  | message (payload : Bytes)
  deriving DecidableEq, Repr

/-- The first frame, if the bytes hold all of it and its length is within the limit. -/
def front (width limit : Nat) (bytes : Bytes) : Front :=
  if bytes.length < width then .short
  else
    let size := BigEndian.value (bytes.take width)
    if size > limit then .oversize
    else if bytes.length < width + size then .short
    else .message ((bytes.drop width).take size)

@[simp] theorem frame_length (payload : Bytes) : (frame width payload).length = width + payload.length := by
  simp [frame]

theorem eq_of_front {bytes payload : Bytes} (found : front width limit bytes = .message payload) :
    bytes = frame width payload ++ bytes.drop (width + payload.length) ∧ payload.length ≤ limit := by
  unfold front at found
  simp only at found
  split at found
  · cases found
  next header =>
    split at found
    · cases found
    next small =>
      split at found
      · cases found
      next whole =>
        cases found
        have length : ((bytes.drop width).take (BigEndian.value (bytes.take width))).length =
            BigEndian.value (bytes.take width) := by
          rw [List.length_take, List.length_drop]
          omega
        have front_width : (bytes.take width).length = width := by
          rw [List.length_take]
          omega
        have field : BigEndian.encode width (BigEndian.value (bytes.take width)) = bytes.take width := by
          have same := BigEndian.encode_value (bytes.take width)
          rwa [front_width] at same
        refine ⟨?_, by omega⟩
        rw [frame, length, field, List.append_assoc, ← List.drop_drop, List.take_append_drop, List.take_append_drop]

theorem length_of_short {bytes : Bytes} (short : front width limit bytes = .short) :
    bytes.length < width + limit := by
  unfold front at short
  simp only at short
  split at short
  · omega
  · split at short
    · cases short
    · split at short
      · omega
      · cases short

theorem front_frame {payload : Bytes} (small : payload.length ≤ limit) (wire : limit < 256 ^ width) (rest : Bytes) :
    front width limit (frame width payload ++ rest) = .message payload := by
  have field : (BigEndian.encode width payload.length).length = width := BigEndian.encode_length _ _
  have header : (frame width payload ++ rest).take width = BigEndian.encode width payload.length := by
    rw [frame, List.append_assoc, List.take_append_of_le_length (by omega), List.take_of_length_le (by omega)]
  have body : (frame width payload ++ rest).drop width = payload ++ rest := by
    rw [frame, List.append_assoc, List.drop_append_of_le_length (by omega), List.drop_of_length_le (by omega)]
    rfl
  have length : (frame width payload ++ rest).length = width + payload.length + rest.length := by simp
  have size := BigEndian.value_encode width (Nat.lt_of_le_of_lt small wire)
  unfold front
  simp only [header, body, size, length]
  rw [if_neg (by omega), if_neg (by omega), if_neg (by omega), List.take_left]

theorem front_part {part left payload : Bytes} (split : part ++ left = frame width payload)
    (small : payload.length ≤ limit) (wire : limit < 256 ^ width) :
    front width limit part = if left = [] then .message payload else .short := by
  split
  next done =>
    rw [done, List.append_nil] at split
    have whole := front_frame small wire []
    rwa [List.append_nil, ← split] at whole
  next more =>
    have total := congrArg List.length split
    have missing := List.length_pos_iff.mpr more
    rw [List.length_append, frame_length] at total
    unfold front
    split
    · rfl
    next long =>
      have header : part.take width = BigEndian.encode width payload.length := by
        have same : (part ++ left).take width = part.take width := List.take_append_of_le_length (by omega)
        rw [← same, split, frame, List.take_append_of_le_length (by simp), List.take_of_length_le (by simp)]
      simp only [header, BigEndian.value_encode width (Nat.lt_of_le_of_lt small wire)]
      rw [if_neg (by omega), if_pos (by omega)]

end Framing
