import Mathlib.Data.Nat.Digits.Lemmas

/-! Decimal numerals as ASCII bytes, the way `printf` writes unsigned numbers. -/

set_option autoImplicit false

namespace Decimal

def isDigit (b : UInt8) : Bool := 48 ≤ b && b ≤ 57

def decimal (n : Nat) : List UInt8 :=
  if n = 0 then [48] else (Nat.digits 10 n).reverse.map fun d => UInt8.ofNat (48 + d)

theorem digit_toNat {d : Nat} (small : d < 10) : (UInt8.ofNat (48 + d)).toNat = 48 + d := by
  rw [UInt8.toNat_ofNat']
  omega

theorem isDigit_of_mem {n : Nat} {b : UInt8} (member : b ∈ decimal n) : isDigit b = true := by
  unfold decimal at member
  split at member
  · rw [List.mem_singleton.mp member]
    rfl
  · obtain ⟨d, digit, rfl⟩ := List.mem_map.mp member
    have small := Nat.digits_lt_base (by decide : 1 < 10) (List.mem_reverse.mp digit)
    have value := digit_toNat small
    simp only [isDigit, Bool.and_eq_true, decide_eq_true_eq, UInt8.le_iff_toNat_le]
    rw [value]
    exact ⟨Nat.le_add_right 48 d, by change 48 + d ≤ 57; omega⟩

def value (digits : List UInt8) : Nat := Nat.ofDigits 10 (digits.reverse.map fun b => b.toNat - 48)

theorem value_decimal (n : Nat) : value (decimal n) = n := by
  unfold value decimal
  split
  next zero => rw [zero]; rfl
  · rw [← List.map_reverse, List.reverse_reverse, List.map_map]
    have back : ∀ d ∈ Nat.digits 10 n, ((fun b => b.toNat - 48) ∘ fun d => UInt8.ofNat (48 + d)) d = id d := by
      intro d digit
      change (UInt8.ofNat (48 + d)).toNat - 48 = d
      rw [digit_toNat (Nat.digits_lt_base (by decide) digit), Nat.add_sub_cancel_left]
    rw [List.map_congr_left back, List.map_id, Nat.ofDigits_digits]

theorem decimal_injective : Function.Injective decimal := by
  intro a b same
  rw [← value_decimal a, same, value_decimal]

theorem decimal_append_inj {a b : Nat} {s t : List UInt8} (left : ∀ c ∈ s.head?, isDigit c = false)
    (right : ∀ c ∈ t.head?, isDigit c = false) (same : decimal a ++ s = decimal b ++ t) : a = b ∧ s = t := by
  have numeral : ∀ (n : Nat) (rest : List UInt8), (∀ c ∈ rest.head?, isDigit c = false) →
      (decimal n ++ rest).takeWhile isDigit = decimal n := by
    intro n rest stops
    rw [List.takeWhile_append_of_pos fun c member => isDigit_of_mem member]
    cases rest with
    | nil => simp
    | cons c rest => simp [stops c rfl]
  have digits : decimal a = decimal b := by
    rw [← numeral a s left, same, numeral b t right]
  rw [digits] at same
  exact ⟨decimal_injective digits, List.append_cancel_left same⟩

theorem decimal_length_le {n k : Nat} (small : n < 10 ^ k) (some_digit : 1 ≤ k) : (decimal n).length ≤ k := by
  unfold decimal
  split
  · exact some_digit
  · rw [List.length_map, List.length_reverse]
    exact Nat.digits_length_le_iff (by decide) _ |>.mpr small

end Decimal
