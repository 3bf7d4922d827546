import Mathlib.Data.List.DropRight
import Mathlib.Data.List.TakeWhile

/-! The fields of a line: its first word, and the text behind it without the gaps around it. -/

set_option autoImplicit false

namespace Fields

variable {α : Type} (sep : α → Bool)

def word (s : List α) : List α := (s.dropWhile sep).takeWhile fun c => !sep c

/-- What follows the first word. -/
def behind (s : List α) : List α := (s.dropWhile sep).dropWhile fun c => !sep c

/-- A string without the gaps in front of it and behind it. -/
def trim (s : List α) : List α := (s.dropWhile sep).rdropWhile sep

variable {sep}

theorem word_append_behind (s : List α) : word sep s ++ behind sep s = s.dropWhile sep :=
  List.takeWhile_append_dropWhile

theorem word_letters {s : List α} : ∀ c ∈ word sep s, sep c = false := by
  intro c member
  simpa using List.mem_takeWhile_imp member

theorem word_of_prefix {s t : List α} (front : s <+: t) (more : behind sep s ≠ []) : word sep t = word sep s := by
  obtain ⟨tail, rfl⟩ := front
  have started : s.dropWhile sep ≠ [] := by
    intro empty
    exact more (by simp [behind, empty])
  have ends : ¬ ((s.dropWhile sep).takeWhile fun c => !sep c).length = (s.dropWhile sep).length := by
    intro whole
    have lengths := congrArg List.length (@word_append_behind _ sep s)
    rw [List.length_append, word, whole] at lengths
    exact more (List.eq_nil_of_length_eq_zero (by omega))
  unfold word
  rw [List.dropWhile_append, if_neg (by simpa using started), List.takeWhile_append, if_neg ends]

theorem takeWhile_trim (s : List α) : (trim sep s).takeWhile (fun c => !sep c) = word sep s := by
  unfold trim word
  induction s.dropWhile sep using List.reverseRecOn with
  | nil => rfl
  | append_singleton s c ih =>
    rw [List.rdropWhile_concat]
    split
    next gap =>
      have last : [c].takeWhile (fun c => !sep c) = [] := by simp [gap]
      rw [ih, List.takeWhile_append, last, List.append_nil]
      split
      next whole => exact (List.takeWhile_prefix _).eq_of_length whole
      · rfl
    · rfl

theorem word_eq_trim {s : List α} (letters : ∀ c ∈ trim sep s, sep c = false) : word sep s = trim sep s := by
  rw [← takeWhile_trim, List.takeWhile_eq_self_iff]
  simpa using letters

theorem take_word_eq_trim {s : List α} {n : Nat} :
    (word sep s).take n = trim sep s ↔ (∀ c ∈ trim sep s, sep c = false) ∧ (trim sep s).length ≤ n := by
  constructor
  · intro same
    rw [← same]
    refine ⟨fun c member => word_letters c (List.mem_of_mem_take member), ?_⟩
    rw [List.length_take]
    exact Nat.min_le_left n _
  · rintro ⟨letters, short⟩
    rw [word_eq_trim letters, List.take_of_length_le short]

end Fields
