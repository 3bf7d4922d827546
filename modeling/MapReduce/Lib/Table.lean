import Mathlib.Data.List.Basic
import Mathlib.Data.List.Count

/-! Fixed-capacity tables with checked access.

A table is a C array: its capacity is part of its type, reading outside it
gives `none`, and scans run over a prefix of the slots.
-/

set_option autoImplicit false

structure Table (capacity : Nat) (α : Type) where
  slot : Fin capacity → α

namespace Table

variable {capacity : Nat} {α : Type}

def fill (value : α) : Table capacity α := ⟨fun _ => value⟩

def read (table : Table capacity α) (i : Nat) : Option α :=
  if inside : i < capacity then some (table.slot ⟨i, inside⟩) else none

def write (table : Table capacity α) (i : Nat) (value : α) : Table capacity α :=
  ⟨fun j => if j.val = i then value else table.slot j⟩

def firstBelow (table : Table capacity α) (p : α → Bool) (n : Nat) : Option Nat :=
  (List.range n).find? fun i => (table.read i).any p

def countBelow (table : Table capacity α) (p : α → Bool) (n : Nat) : Nat :=
  (List.range n).countP fun i => (table.read i).any p

theorem ext_read {first second : Table capacity α}
    (same : ∀ i, i < capacity → first.read i = second.read i) : first = second := by
  cases first with | mk first =>
  cases second with | mk second =>
    congr 1
    funext j
    simpa [read, j.isLt] using same j.val j.isLt

theorem read_eq_some {table : Table capacity α} {i : Nat} {value : α} :
    table.read i = some value ↔ ∃ inside : i < capacity, table.slot ⟨i, inside⟩ = value := by
  unfold read
  split
  next inside => simp [inside]
  next outside => simp [outside]

theorem read_isSome (table : Table capacity α) {i : Nat} (inside : i < capacity) :
    ∃ value, table.read i = some value := ⟨_, dif_pos inside⟩

theorem lt_of_read {table : Table capacity α} {i : Nat} {value : α}
    (found : table.read i = some value) : i < capacity := (read_eq_some.mp found).1

theorem read_write (table : Table capacity α) (i j : Nat) (value : α) :
    (table.write i value).read j =
      if j = i then (if j < capacity then some value else none) else table.read j := by
  unfold read write
  by_cases inside : j < capacity
  · by_cases same : j = i <;> simp [inside, same]
  · simp [inside]

theorem read_write_self {table : Table capacity α} {i : Nat} {old : α} (value : α)
    (found : table.read i = some old) : (table.write i value).read i = some value := by
  simp [read_write, lt_of_read found]

@[simp] theorem read_fill (value : α) (i : Nat) :
    (fill value : Table capacity α).read i = if i < capacity then some value else none := by
  unfold read fill
  split <;> rfl

theorem firstBelow_some {table : Table capacity α} {p : α → Bool} {n i : Nat}
    (found : table.firstBelow p n = some i) :
    i < n ∧ ∃ value, table.read i = some value ∧ p value = true := by
  have holds := List.find?_some found
  have member := List.mem_of_find?_eq_some found
  refine ⟨List.mem_range.mp member, ?_⟩
  cases entry : table.read i with
  | none => simp [entry] at holds
  | some value => exact ⟨value, rfl, by simpa [entry] using holds⟩

theorem firstBelow_none {table : Table capacity α} {p : α → Bool} {n : Nat}
    (missing : table.firstBelow p n = none) {i : Nat} (below : i < n) {value : α}
    (entry : table.read i = some value) : p value = false := by
  have fails := List.find?_eq_none.mp missing i (List.mem_range.mpr below)
  simpa [entry] using fails

theorem countBelow_succ (table : Table capacity α) (p : α → Bool) (n : Nat) :
    table.countBelow p (n + 1) = table.countBelow p n + if (table.read n).any p then 1 else 0 := by
  simp only [countBelow, List.range_succ, List.countP_append, List.countP_singleton]

theorem countBelow_congr {first second : Table capacity α} {p : α → Bool} {n : Nat}
    (same : ∀ i, i < n → (first.read i).any p = (second.read i).any p) :
    first.countBelow p n = second.countBelow p n := by
  apply List.countP_congr
  intro i member
  simp [same i (List.mem_range.mp member)]

theorem countBelow_mono {first second : Table capacity α} {p : α → Bool} {n : Nat}
    (only : ∀ j, j < n → (second.read j).any p = true → (first.read j).any p = true) :
    second.countBelow p n ≤ first.countBelow p n := by
  apply List.countP_mono_left
  intro j member
  exact only j (List.mem_range.mp member)

theorem countBelow_le_succ {first second : Table capacity α} {p : α → Bool} {n i : Nat}
    (only : ∀ j, j ≠ i → (second.read j).any p = true → (first.read j).any p = true) :
    second.countBelow p n ≤ first.countBelow p n + 1 := by
  induction n with
  | zero => exact Nat.zero_le _
  | succ n ih =>
    simp only [countBelow_succ]
    by_cases last : n = i
    · subst last
      have before : second.countBelow p n ≤ first.countBelow p n :=
        countBelow_mono fun j inside => only j (by omega)
      split <;> split <;> omega
    · have here := only n last
      split
      next now =>
        rw [if_pos (here now)]
        omega
      · omega

theorem countBelow_insert {first second : Table capacity α} {p : α → Bool} {n i : Nat} (below : i < n)
    (out : (first.read i).any p = false) (now : (second.read i).any p = true)
    (same : ∀ j, j ≠ i → (first.read j).any p = (second.read j).any p) :
    second.countBelow p n = first.countBelow p n + 1 := by
  induction n with
  | zero => omega
  | succ n ih =>
    simp only [countBelow_succ]
    by_cases last : i = n
    · subst last
      have before : first.countBelow p i = second.countBelow p i :=
        countBelow_congr fun j inside => same j (by omega)
      simp [out, now, before]
    · rw [ih (by omega), same n (Ne.symm last)]
      omega

end Table
