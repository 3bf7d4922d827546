import Mathlib.Data.List.Nodup

/-! Grouping a list by a key that is constant on runs of adjacent elements.

On a list sorted by the key, the groups are the fibres of the key: every key
occurs once, with all of its elements in their order in the list.
-/

set_option autoImplicit false

namespace Groups

variable {α κ : Type} [DecidableEq κ] (key : α → κ)

def push (a : α) : List (κ × List α) → List (κ × List α)
  | [] => [(key a, [a])]
  | (k, members) :: rest =>
    if key a = k then (k, a :: members) :: rest else (key a, [a]) :: (k, members) :: rest

/-- The maximal runs of elements with the same key. -/
def groups : List α → List (κ × List α)
  | [] => []
  | a :: rest => push key a (groups rest)

/-- A grouping into fibres: each key once, with all of its elements. -/
structure Fibres (l : List α) (gs : List (κ × List α)) : Prop where
  distinct : (gs.map Prod.fst).Nodup
  covers : ∀ k, k ∈ gs.map Prod.fst ↔ k ∈ l.map key
  members : ∀ group ∈ gs, group.2 = l.filter (key · = group.1)

theorem groups_cons_head (a : α) (rest : List α) :
    ∃ members more, groups key (a :: rest) = (key a, a :: members) :: more := by
  unfold groups push
  split
  · exact ⟨_, _, rfl⟩
  · split
    next same => exact ⟨_, _, by rw [same]⟩
    · exact ⟨_, _, rfl⟩

variable {key}

theorem groups_append {k : κ} {pending rest : List α} (some_pending : pending ≠ [])
    (constant : ∀ a ∈ pending, key a = k) (stops : ∀ a ∈ rest.head?, key a ≠ k) :
    groups key (pending ++ rest) = (k, pending) :: groups key rest := by
  induction pending with
  | nil => exact absurd rfl some_pending
  | cons a pending ih =>
    have here : key a = k := constant a List.mem_cons_self
    cases pending with
    | nil =>
      cases rest with
      | nil => simp [groups, push, here]
      | cons b rest =>
        obtain ⟨members, more, shape⟩ := groups_cons_head key b rest
        have differs : ¬ k = key b := fun same => stops b rfl same.symm
        change push key a (groups key (b :: rest)) = _
        rw [shape]
        simp [push, here, differs]
    | cons b pending =>
      have tail := ih (by simp) fun c member => constant c (List.mem_cons_of_mem _ member)
      change push key a (groups key (b :: pending ++ rest)) = _
      rw [tail]
      simp [push, here]

theorem groups_append_head {k : κ} {pending : List α} (some_pending : pending ≠ [])
    (constant : ∀ a ∈ pending, key a = k) (rest : List α) :
    ∃ members more, groups key (pending ++ rest) = (k, pending ++ members) :: more := by
  induction pending with
  | nil => exact absurd rfl some_pending
  | cons a pending ih =>
    have here : key a = k := constant a List.mem_cons_self
    by_cases last : pending = []
    · subst last
      obtain ⟨members, more, shape⟩ := groups_cons_head key a rest
      exact ⟨members, more, by rw [← here]; exact shape⟩
    · obtain ⟨members, more, shape⟩ := ih last fun b member => constant b (List.mem_cons_of_mem _ member)
      refine ⟨members, more, ?_⟩
      change push key a (groups key (pending ++ rest)) = _
      rw [shape]
      simp [push, here]

theorem mem_push_key {a : α} {gs : List (κ × List α)} {k : κ} :
    k ∈ (push key a gs).map Prod.fst ↔ k = key a ∨ k ∈ gs.map Prod.fst := by
  unfold push
  split
  · simp
  · split
    next same => simp [same]
    · simp

theorem length_fibre [BEq κ] [LawfulBEq κ] (l : List α) (k : κ) :
    (l.filter (key · = k)).length = (l.map key).count k := by
  rw [List.count, List.countP_map, List.countP_eq_length_filter]
  congr 2
  funext a
  exact (beq_eq_decide _ _).symm

theorem groups_keys_sublist (l : List α) : ((groups key l).map Prod.fst).Sublist (l.map key) := by
  induction l with
  | nil => exact .slnil
  | cons a rest ih =>
    cases shape : groups key rest with
    | nil => simp [groups, shape, push]
    | cons first more =>
      rw [shape, List.map_cons] at ih
      by_cases same : key a = first.1
      · have pushed : groups key (a :: rest) = (first.1, a :: first.2) :: more := by simp [groups, shape, push, same]
        rw [pushed]
        exact ih.cons _
      · have pushed : groups key (a :: rest) = (key a, [a]) :: first :: more := by simp [groups, shape, push, same]
        rw [pushed]
        exact ih.cons_cons _

theorem fibres_push {a : α} {l : List α} {gs : List (κ × List α)} (fibres : Fibres key l gs)
    (adjacent : key a ∈ l.map key → ∀ group ∈ gs.head?, group.1 = key a) :
    Fibres key (a :: l) (push key a gs) := by
  have others : ∀ k, key a ≠ k → l.filter (key · = k) = (a :: l).filter (key · = k) := by
    intro k differs
    rw [List.filter_cons_of_neg (by simpa using differs)]
  have fresh : key a ∉ l.map key → l.filter (key · = key a) = [] := by
    intro outside
    rw [List.filter_eq_nil_iff]
    intro b member same
    exact outside (List.mem_map.mpr ⟨b, member, of_decide_eq_true same⟩)
  by_cases again : key a ∈ l.map key
  · obtain ⟨group, member, _⟩ := List.mem_map.mp ((fibres.covers _).mpr again)
    cases gs with
    | nil => cases member
    | cons first rest =>
      obtain ⟨k, inside⟩ := first
      obtain rfl : k = key a := adjacent again _ rfl
      have pushed : push key a ((key a, inside) :: rest) = (key a, a :: inside) :: rest := by simp [push]
      refine ⟨by rw [pushed]; exact fibres.distinct, fun k => ?_, ?_⟩
      · rw [mem_push_key, fibres.covers, List.map_cons, List.mem_cons]
      · rw [pushed]
        intro group member
        rcases List.mem_cons.mp member with rfl | old
        · have same := fibres.members _ List.mem_cons_self
          simp [← same]
        · rw [fibres.members group (List.mem_cons_of_mem _ old)]
          refine others _ fun same => (List.nodup_cons.mp fibres.distinct).1 ?_
          exact List.mem_map.mpr ⟨group, old, same.symm⟩
  · have outside : key a ∉ gs.map Prod.fst := fun member => again ((fibres.covers _).mp member)
    have pushed : push key a gs = (key a, [a]) :: gs := by
      cases gs with
      | nil => rfl
      | cons first rest =>
        have differs : ¬ key a = first.1 := fun same => outside (by simp [same])
        simp [push, differs]
    refine ⟨by rw [pushed]; exact List.nodup_cons.mpr ⟨outside, fibres.distinct⟩, fun k => ?_, ?_⟩
    · rw [mem_push_key, fibres.covers, List.map_cons, List.mem_cons]
    · rw [pushed]
      intro group member
      rcases List.mem_cons.mp member with rfl | old
      · rw [List.filter_cons_of_pos (by simp), fresh again]
      · rw [fibres.members group old]
        exact others _ fun same => outside (List.mem_map.mpr ⟨group, old, same.symm⟩)

theorem Fibres.filter_key {l : List α} {gs : List (κ × List α)} (fibres : Fibres key l gs) {k : κ}
    (occurs : k ∈ l.map key) : gs.filter (·.1 = k) = [(k, l.filter (key · = k))] := by
  obtain ⟨group, member, rfl⟩ := List.mem_map.mp ((fibres.covers k).mpr occurs)
  have distinct := fibres.distinct
  have inside := fibres.members group member
  obtain ⟨front, back, rfl⟩ := List.append_of_mem member
  rw [List.map_append, List.map_cons, List.nodup_middle, List.nodup_cons, List.mem_append, not_or] at distinct
  have none_front : front.filter (·.1 = group.1) = [] := by
    rw [List.filter_eq_nil_iff]
    intro other found same
    exact distinct.1.1 (List.mem_map.mpr ⟨other, found, of_decide_eq_true same⟩)
  have none_back : back.filter (·.1 = group.1) = [] := by
    rw [List.filter_eq_nil_iff]
    intro other found same
    exact distinct.1.2 (List.mem_map.mpr ⟨other, found, of_decide_eq_true same⟩)
  rw [List.filter_append, none_front, List.filter_cons_of_pos (by simp), none_back, List.nil_append, ← inside]

theorem groups_sorted {le : κ → κ → Prop} (antisymm : ∀ a b, le a b → le b a → a = b) {l : List α}
    (sorted : l.Pairwise fun a b => le (key a) (key b)) : Fibres key l (groups key l) := by
  induction l with
  | nil => exact ⟨by simp [groups], by simp [groups], by simp [groups]⟩
  | cons a rest ih =>
    obtain ⟨first, later⟩ := List.pairwise_cons.mp sorted
    refine fibres_push (ih later) fun again group head => ?_
    cases rest with
    | nil => cases again
    | cons b tail =>
      obtain ⟨members, more, shape⟩ := groups_cons_head key b tail
      rw [shape] at head
      cases head
      -- A later element with the key of `a` puts the key of `b` between the two.
      obtain ⟨c, found, same⟩ := List.mem_map.mp again
      rcases List.mem_cons.mp found with rfl | found
      · exact same
      · have upper := (List.pairwise_cons.mp later).1 c found
        rw [same] at upper
        exact antisymm _ _ upper (first b List.mem_cons_self)

end Groups
