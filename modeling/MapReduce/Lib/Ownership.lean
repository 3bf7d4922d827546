import Mathlib.Data.List.Perm.Basic
import Mathlib.Logic.Function.Basic

/-! The blocks of a heap that belong to one owner.

An owner lists its blocks, each of them once, and the rest of the heap is a
frame it leaves alone. When the list is empty the heap is the frame again:
whatever was allocated has been given back.
-/

set_option autoImplicit false

namespace Ownership

variable {Ptr Block : Type}

abbrev Heap (Ptr Block : Type) := Ptr → Option Block

/-- The heap is the frame with these blocks in it. -/
structure Owns (frame : Heap Ptr Block) (blocks : List (Ptr × Block)) (heap : Heap Ptr Block) : Prop where
  distinct : (blocks.map Prod.fst).Nodup
  apart : ∀ p ∈ blocks.map Prod.fst, frame p = none
  here : ∀ p b, (p, b) ∈ blocks → heap p = some b
  elsewhere : ∀ p, p ∉ blocks.map Prod.fst → heap p = frame p

variable {frame heap : Heap Ptr Block} {blocks others : List (Ptr × Block)} {p : Ptr} {b : Block}

theorem owns_nothing (heap : Heap Ptr Block) : Owns heap [] heap :=
  ⟨List.nodup_nil, by simp, by simp, fun _ _ => rfl⟩

theorem Owns.eq_frame (owns : Owns frame [] heap) : heap = frame := by
  funext p
  exact owns.elsewhere p (by simp)

theorem Owns.perm (owns : Owns frame blocks heap) (same : blocks.Perm others) : Owns frame others heap where
  distinct := (same.map Prod.fst).nodup_iff.mp owns.distinct
  apart p member := owns.apart p ((same.map Prod.fst).mem_iff.mpr member)
  here p b member := owns.here p b (same.mem_iff.mpr member)
  elsewhere p outside := owns.elsewhere p fun member => outside ((same.map Prod.fst).mem_iff.mp member)

theorem Owns.live (owns : Owns frame blocks heap) (member : (p, b) ∈ blocks) : heap p ≠ none := by
  rw [owns.here p b member]
  exact Option.some_ne_none b

variable [DecidableEq Ptr]

theorem Owns.alloc (owns : Owns frame blocks heap) (fresh : heap p = none) (b : Block) :
    Owns frame ((p, b) :: blocks) (Function.update heap p (some b)) := by
  have new : p ∉ blocks.map Prod.fst := by
    intro member
    obtain ⟨⟨q, c⟩, inside, rfl⟩ := List.mem_map.mp member
    rw [owns.here q c inside] at fresh
    cases fresh
  refine ⟨List.nodup_cons.mpr ⟨new, owns.distinct⟩, fun q member => ?_, fun q c member => ?_, fun q outside => ?_⟩
  · rcases List.mem_cons.mp member with rfl | old
    · exact (owns.elsewhere _ new).symm.trans fresh
    · exact owns.apart q old
  · rcases List.mem_cons.mp member with same | old
    · cases same
      exact Function.update_self ..
    · have other : q ≠ p := by
        rintro rfl
        exact new (List.mem_map_of_mem old)
      rw [Function.update_of_ne other]
      exact owns.here q c old
  · rw [List.map_cons, List.mem_cons, not_or] at outside
    rw [Function.update_of_ne outside.1]
    exact owns.elsewhere q outside.2

theorem Owns.release (owns : Owns frame ((p, b) :: blocks) heap) : Owns frame blocks (Function.update heap p none) := by
  obtain ⟨gone, distinct⟩ := List.nodup_cons.mp owns.distinct
  refine ⟨distinct, fun q member => owns.apart q (List.mem_cons_of_mem _ member), fun q c member => ?_,
    fun q outside => ?_⟩
  · have other : q ≠ p := by
      rintro rfl
      exact gone (List.mem_map.mpr ⟨_, member, rfl⟩)
    rw [Function.update_of_ne other]
    exact owns.here q c (List.mem_cons_of_mem _ member)
  · by_cases same : q = p
    · subst same
      rw [Function.update_self, owns.apart q List.mem_cons_self]
    · rw [Function.update_of_ne same]
      exact owns.elsewhere q (by simpa [same] using outside)

theorem Owns.replace (owns : Owns frame ((p, b) :: blocks) heap) (c : Block) :
    Owns frame ((p, c) :: blocks) (Function.update heap p (some c)) := by
  have without := owns.release.alloc (p := p) (Function.update_self ..) c
  rwa [Function.update_idem] at without

end Ownership
