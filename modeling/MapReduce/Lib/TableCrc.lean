import Mathlib.Data.BitVec
import Mathlib.Data.List.Perm.Subperm
import Mathlib.Data.Nat.Bitwise

/-! CRC registers driven by a table of words.

A register of any width takes a byte in by moving down eight places and adding
the word that the byte and the eight bits moved out select. Where no two words
of the table agree in their leading byte, the leading byte of a register tells
which word was added last. Bytes that fit into the register are then determined
by the register before and after them, and changing them changes every later
register.
-/

set_option autoImplicit false

namespace TableCrc

variable {w : Nat} (table : BitVec 8 → BitVec w)

def index (reg : BitVec w) (byte : BitVec 8) : BitVec 8 := reg.setWidth 8 ^^^ byte

def step (reg : BitVec w) (byte : BitVec 8) : BitVec w := table (index reg byte) ^^^ reg >>> 8

def run (reg : BitVec w) (bytes : List (BitVec 8)) : BitVec w := bytes.foldl (step table) reg

/-- No two words of the table have the same leading byte. -/
def LeadDistinct : Prop := ∀ i j, table i >>> (w - 8) = table j >>> (w - 8) → i = j

variable {table}

theorem eq_of_parts {reg reg' : BitVec w} (low : reg.setWidth 8 = reg'.setWidth 8) (high : reg >>> 8 = reg' >>> 8) :
    reg = reg' := by
  apply BitVec.eq_of_getLsbD_eq
  intro i _
  by_cases inside : i < 8
  · have bit := congrArg (·.getLsbD i) low
    simpa [inside] using bit
  · have bit := congrArg (·.getLsbD (i - 8)) high
    simpa [show 8 + (i - 8) = i by omega] using bit

theorem step_lead {k : Nat} (room : 8 * k + 8 ≤ w) (reg : BitVec w) (byte : BitVec 8) :
    step table reg byte >>> (8 * k) >>> (w - 8 - 8 * k) = table (index reg byte) >>> (w - 8) := by
  rw [← BitVec.shiftRight_add, show 8 * k + (w - 8 - 8 * k) = w - 8 by omega, step, BitVec.ushiftRight_xor_distrib,
    ← BitVec.shiftRight_add, BitVec.ushiftRight_eq_zero (by omega : w ≤ 8 + (w - 8)), BitVec.xor_zero]

theorem step_agree (distinct : LeadDistinct table) {k : Nat} (room : 8 * k + 8 ≤ w) {reg reg' : BitVec w}
    {byte byte' : BitVec 8} (agree : step table reg byte >>> (8 * k) = step table reg' byte' >>> (8 * k)) :
    index reg byte = index reg' byte' ∧ reg >>> (8 * (k + 1)) = reg' >>> (8 * (k + 1)) := by
  have same : index reg byte = index reg' byte' := by
    apply distinct
    rw [← step_lead room, ← step_lead room, agree]
  refine ⟨same, ?_⟩
  rw [step, step, same, BitVec.ushiftRight_xor_distrib, BitVec.ushiftRight_xor_distrib] at agree
  rw [show 8 * (k + 1) = 8 + 8 * k by omega, BitVec.shiftRight_add, BitVec.shiftRight_add]
  exact (BitVec.xor_right_inj _).mp agree

theorem run_agree (distinct : LeadDistinct table) {bytes bytes' : List (BitVec 8)} {k : Nat}
    (length : bytes'.length = bytes.length) (fits : 8 * (k + bytes.length) ≤ w) {reg reg' : BitVec w}
    (agree : run table reg bytes >>> (8 * k) = run table reg' bytes' >>> (8 * k)) :
    reg >>> (8 * (k + bytes.length)) = reg' >>> (8 * (k + bytes.length)) ∧ (reg = reg' → bytes = bytes') := by
  induction bytes generalizing bytes' reg reg' with
  | nil =>
    cases List.eq_nil_of_length_eq_zero length
    exact ⟨agree, fun _ => rfl⟩
  | cons byte bytes ih =>
    obtain ⟨byte', bytes', rfl⟩ := List.exists_cons_of_length_eq_add_one length
    simp only [List.length_cons] at length fits ⊢
    obtain ⟨behind, later⟩ := ih (Nat.succ.inj length) (by omega) agree
    obtain ⟨words, before⟩ := step_agree distinct (by omega) behind
    refine ⟨before, ?_⟩
    rintro rfl
    -- The same register and the same word leave only one byte.
    cases (BitVec.xor_right_inj _).mp words
    rw [later rfl]

theorem run_injective (distinct : LeadDistinct table) {reg : BitVec w} {bytes bytes' : List (BitVec 8)}
    (length : bytes'.length = bytes.length) (fits : 8 * bytes.length ≤ w)
    (same : run table reg bytes = run table reg bytes') : bytes = bytes' := by
  have agree : run table reg bytes >>> (8 * 0) = run table reg bytes' >>> (8 * 0) := by rw [same]
  exact (run_agree distinct length (by omega) agree).2 rfl

theorem run_register (distinct : LeadDistinct table) (byteWide : 8 ≤ w) {bytes : List (BitVec 8)} {reg reg' : BitVec w}
    (same : run table reg bytes = run table reg' bytes) : reg = reg' := by
  induction bytes generalizing reg reg' with
  | nil => exact same
  | cons byte bytes ih =>
    have equal : step table reg byte = step table reg' byte := ih same
    have agree : step table reg byte >>> (8 * 0) = step table reg' byte >>> (8 * 0) := by rw [equal]
    obtain ⟨words, high⟩ := step_agree distinct (by omega) agree
    exact eq_of_parts ((BitVec.xor_left_inj _).mp words) high

/-- A burst that fits into the register changes the result, whatever stands around it. -/
theorem run_burst (distinct : LeadDistinct table) (byteWide : 8 ≤ w) (reg : BitVec w)
    (before after : List (BitVec 8)) {burst burst' : List (BitVec 8)} (length : burst'.length = burst.length)
    (fits : 8 * burst.length ≤ w) (changed : burst ≠ burst') :
    run table reg (before ++ burst ++ after) ≠ run table reg (before ++ burst' ++ after) := by
  intro same
  unfold run at same
  rw [List.foldl_append, List.foldl_append, List.foldl_append, List.foldl_append] at same
  exact changed (run_injective distinct length fits (run_register distinct byteWide same))

/-! ## Checking a table -/

/-- The numbers of a list as the bits of one number. -/
def marks (numbers : List Nat) : Nat := numbers.foldl (fun mask n => mask ||| 1 <<< n) 0

theorem testBit_marks (numbers : List Nat) (i : Nat) : (marks numbers).testBit i = decide (i ∈ numbers) := by
  have from_mask : ∀ mask, (numbers.foldl (fun mask n => mask ||| 1 <<< n) mask).testBit i =
      (mask.testBit i || decide (i ∈ numbers)) := by
    induction numbers with
    | nil => simp
    | cons n numbers ih =>
      intro mask
      rw [List.foldl_cons, ih, Nat.testBit_or, Nat.one_shiftLeft, Nat.testBit_two_pow, Bool.or_assoc]
      simp [eq_comm]
  rw [marks, from_mask, Nat.zero_testBit, Bool.false_or]

theorem nodup_of_marks {numbers : List Nat} (all : marks numbers = 2 ^ numbers.length - 1) : numbers.Nodup := by
  have covered : List.range numbers.length ⊆ numbers := by
    intro i member
    have bit := testBit_marks numbers i
    rw [all, Nat.testBit_two_pow_sub_one, decide_eq_true (List.mem_range.mp member)] at bit
    exact of_decide_eq_true bit.symm
  have perm := (List.subperm_of_subset List.nodup_range covered).perm_of_length_le (by rw [List.length_range])
  exact perm.nodup_iff.mp List.nodup_range

end TableCrc
