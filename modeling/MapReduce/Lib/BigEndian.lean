import Mathlib.Algebra.Order.Ring.Int
import Mathlib.Data.List.Induction

/-! Big-endian fields of a byte string.

`encode width v` keeps the low `width` bytes of `v`, as a store into a fixed
field does, and `value` reads a field of any width back.
-/

set_option autoImplicit false

abbrev Bytes := List UInt8

namespace BigEndian

def encode : Nat → Nat → Bytes
  | 0, _ => []
  | width + 1, v => encode width (v / 256) ++ [UInt8.ofNat v]

def value (field : Bytes) : Nat := field.foldl (fun acc byte => acc * 256 + byte.toNat) 0

@[simp] theorem encode_length (width v : Nat) : (encode width v).length = width := by
  induction width generalizing v with
  | zero => rfl
  | succ width ih => simp [encode, ih]

@[simp] theorem value_nil : value [] = 0 := rfl

theorem value_snoc (field : Bytes) (byte : UInt8) :
    value (field ++ [byte]) = value field * 256 + byte.toNat := by
  simp [value]

theorem value_encode_mod (width v : Nat) : value (encode width v) = v % 256 ^ width := by
  induction width generalizing v with
  | zero => simp [encode, Nat.mod_one]
  | succ width ih =>
    have low : (UInt8.ofNat v).toNat = v % 256 := UInt8.toNat_ofNat'
    have split : v % 256 ^ (width + 1) = v % 256 + 256 * (v / 256 % 256 ^ width) := by
      rw [Nat.pow_succ', Nat.mod_mul]
    rw [encode, value_snoc, ih, low, split]
    omega

theorem value_encode (width : Nat) {v : Nat} (fits : v < 256 ^ width) : value (encode width v) = v := by
  rw [value_encode_mod, Nat.mod_eq_of_lt fits]

theorem encode_value (field : Bytes) : encode field.length (value field) = field := by
  induction field using List.reverseRecOn with
  | nil => rfl
  | append_singleton field byte ih =>
    have bound := byte.toNat_lt
    have high : (value field * 256 + byte.toNat) / 256 = value field := by omega
    rw [value_snoc, List.length_append, List.length_singleton, encode, high, ih]
    congr 2
    apply UInt8.toNat_inj.mp
    rw [UInt8.toNat_ofNat']
    omega

theorem value_lt (field : Bytes) : value field < 256 ^ field.length := by
  have stored := value_encode_mod field.length (value field)
  rw [encode_value] at stored
  rw [stored]
  exact Nat.mod_lt _ (Nat.pow_pos (by decide))

theorem encode_uint16 {field : Bytes} (two : field.length = 2) :
    encode 2 (UInt16.ofNat (value field)).toNat = field := by
  have bound : value field < 2 ^ 16 := by simpa [two] using value_lt field
  rw [UInt16.toNat_ofNat_of_lt' bound, ← two, encode_value]

theorem encode_uint32 {field : Bytes} (four : field.length = 4) :
    encode 4 (UInt32.ofNat (value field)).toNat = field := by
  have bound : value field < 2 ^ 32 := by simpa [four] using value_lt field
  rw [UInt32.toNat_ofNat_of_lt' bound, ← four, encode_value]

end BigEndian
