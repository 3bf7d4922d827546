import Mathlib.Data.List.Chain

/-! The words of a string: its maximal runs of letters.

A string is cut into words by a predicate for separators. Cutting the string
into pieces first gives the same words exactly when no cut lies inside a word.
-/

set_option autoImplicit false

namespace Words

variable {α : Type} (sep : α → Bool)

def opens (s : List α) : Bool := s.head?.any fun c => !sep c

def closes (s : List α) : Bool := s.getLast?.any fun c => !sep c

/-- The cut between two pieces lies inside a word. -/
def Cuts (a b : List α) : Prop := closes sep a ∧ opens sep b

instance (a b : List α) : Decidable (Cuts sep a b) := inferInstanceAs (Decidable (_ ∧ _))

def words : List α → List (List α)
  | [] => []
  | c :: s =>
    if sep c then words s
    else if opens sep s then
      match words s with
      | [] => [[c]]
      | word :: rest => (c :: word) :: rest
    else [c] :: words s

/-- The maximal runs of letters, in the order of the string. -/
inductive MaximalRuns : List α → List (List α) → Prop where
  | nil {gap : List α} : (∀ c ∈ gap, sep c) → MaximalRuns gap []
  | cons {gap run rest : List α} {runs : List (List α)} : (∀ c ∈ gap, sep c) → run ≠ [] →
      (∀ c ∈ run, sep c = false) → opens sep rest = false → MaximalRuns rest runs →
      MaximalRuns (gap ++ run ++ rest) (run :: runs)

variable {sep}

@[simp] theorem opens_nil : opens sep [] = false := rfl

@[simp] theorem opens_cons (c : α) (s : List α) : opens sep (c :: s) = !sep c := rfl

theorem words_cons_sep {c : α} (gap : sep c = true) (s : List α) : words sep (c :: s) = words sep s := by
  simp [words, gap]

theorem words_cons_alone {c : α} {s : List α} (letter : sep c = false) (alone : opens sep s = false) :
    words sep (c :: s) = [c] :: words sep s := by
  simp [words, letter, alone]

theorem words_of_opens {s : List α} (inside : opens sep s = true) :
    ∃ word rest, words sep s = word :: rest := by
  cases s with
  | nil => cases inside
  | cons c s =>
    have letter : sep c = false := by simpa using inside
    simp only [words, letter, Bool.false_eq_true, ↓reduceIte]
    split
    · split <;> exact ⟨_, _, rfl⟩
    · exact ⟨_, _, rfl⟩

theorem words_cons_inside {c : α} {s word : List α} {rest : List (List α)} (letter : sep c = false)
    (inside : opens sep s = true) (split : words sep s = word :: rest) :
    words sep (c :: s) = (c :: word) :: rest := by
  simp [words, letter, inside, split]

/-! ## The words are the maximal runs -/

theorem words_gap {gap : List α} (all : ∀ c ∈ gap, sep c) (s : List α) :
    words sep (gap ++ s) = words sep s := by
  induction gap with
  | nil => rfl
  | cons c gap ih =>
    rw [List.cons_append, words_cons_sep (all c List.mem_cons_self)]
    exact ih fun d member => all d (List.mem_cons_of_mem _ member)

theorem words_run {run s : List α} (some_run : run ≠ []) (letters : ∀ c ∈ run, sep c = false)
    (stops : opens sep s = false) : words sep (run ++ s) = run :: words sep s := by
  induction run with
  | nil => exact absurd rfl some_run
  | cons c run ih =>
    have letter := letters c List.mem_cons_self
    by_cases last : run = []
    · subst last
      exact words_cons_alone letter stops
    · have tail := ih last fun d member => letters d (List.mem_cons_of_mem _ member)
      have inside : opens sep (run ++ s) = true := by
        obtain ⟨d, more, rfl⟩ := List.exists_cons_of_ne_nil last
        simp [letters d (by simp)]
      exact words_cons_inside letter inside tail

theorem MaximalRuns.words_eq {s : List α} {runs : List (List α)} (maximal : MaximalRuns sep s runs) :
    words sep s = runs := by
  induction maximal with
  | @nil gap all =>
    have none := words_gap all []
    rwa [List.append_nil] at none
  | cons all some_run letters stops _ ih =>
    rw [List.append_assoc, words_gap all, words_run some_run letters stops, ih]

theorem MaximalRuns.gap_cons {c : α} {s : List α} {runs : List (List α)} (gap : sep c = true)
    (maximal : MaximalRuns sep s runs) : MaximalRuns sep (c :: s) runs := by
  have more : ∀ {front : List α}, (∀ d ∈ front, sep d) → ∀ d ∈ c :: front, sep d := by
    intro front all d member
    rcases List.mem_cons.mp member with rfl | member
    · exact gap
    · exact all d member
  cases maximal with
  | nil all => exact .nil (more all)
  | cons all some_run letters stops rest => exact .cons (more all) some_run letters stops rest

theorem MaximalRuns.run_nil {run rest : List α} {runs : List (List α)} (some_run : run ≠ [])
    (letters : ∀ c ∈ run, sep c = false) (stops : opens sep rest = false)
    (maximal : MaximalRuns sep rest runs) : MaximalRuns sep (run ++ rest) (run :: runs) :=
  @MaximalRuns.cons α sep [] run rest runs (by simp) some_run letters stops maximal

theorem maximalRuns_words (s : List α) : MaximalRuns sep s (words sep s) := by
  induction s with
  | nil => exact .nil (by simp)
  | cons c s ih =>
    cases letter : sep c with
    | true =>
      rw [words_cons_sep letter]
      exact ih.gap_cons letter
    | false =>
      cases inside : opens sep s with
      | false =>
        rw [words_cons_alone letter inside]
        have one : MaximalRuns sep ([c] ++ s) ([c] :: words sep s) :=
          .run_nil (by simp) (by simpa using letter) inside ih
        exact one
      | true =>
        obtain ⟨word, rest, split⟩ := words_of_opens inside
        rw [words_cons_inside letter inside split]
        rw [split] at ih
        -- a string that starts with a letter has no gap in front of its first run
        generalize runs : word :: rest = all at ih
        cases ih with
        | nil => cases runs
        | @cons gap run tail _ gaps some_run letters stops maximal =>
          obtain ⟨rfl, rfl⟩ := List.cons.inj runs
          have none : gap = [] := by
            cases gap with
            | nil => rfl
            | cons d gap =>
              have first := gaps d List.mem_cons_self
              simp [first] at inside
          subst none
          have longer : ∀ d ∈ c :: word, sep d = false := by
            intro d member
            rcases List.mem_cons.mp member with rfl | member
            · exact letter
            · exact letters d member
          have whole : MaximalRuns sep ((c :: word) ++ tail) ((c :: word) :: rest) :=
            .run_nil (by simp) longer stops maximal
          exact whole

/-- There is one sequence of maximal runs, and it is the words. -/
theorem maximalRuns_iff {s : List α} {runs : List (List α)} : MaximalRuns sep s runs ↔ runs = words sep s := by
  constructor
  · intro maximal
    exact maximal.words_eq.symm
  · rintro rfl
    exact maximalRuns_words s

/-! ## Cutting the string first -/

theorem closes_cons {c : α} {s : List α} (more : s ≠ []) : closes sep (c :: s) = closes sep s := by
  unfold closes
  rw [List.getLast?_cons_of_ne_nil more]

theorem opens_append {a : List α} (some_a : a ≠ []) (b : List α) : opens sep (a ++ b) = opens sep a := by
  obtain ⟨c, a, rfl⟩ := List.exists_cons_of_ne_nil some_a
  rfl

theorem words_append {a b : List α} (apart : ¬ Cuts sep a b) : words sep (a ++ b) = words sep a ++ words sep b := by
  induction a with
  | nil => rfl
  | cons c a ih =>
    by_cases last : a = []
    · subst last
      cases letter : sep c with
      | true => simp [words, letter]
      | false =>
        have stops : opens sep b = false := by
          cases inside : opens sep b with
          | false => rfl
          | true => exact absurd ⟨by simp [closes, letter], inside⟩ apart
        rw [words_cons_alone letter opens_nil]
        exact words_cons_alone letter stops
    · have tail := ih fun cut => apart ⟨by rw [closes_cons last]; exact cut.1, cut.2⟩
      have first : opens sep (a ++ b) = opens sep a := opens_append last b
      rw [List.cons_append]
      cases letter : sep c with
      | true => rw [words_cons_sep letter, words_cons_sep letter, tail]
      | false =>
        cases inside : opens sep a with
        | false =>
          rw [words_cons_alone letter (first.trans inside), words_cons_alone letter inside, tail]
          rfl
        | true =>
          obtain ⟨word, rest, split⟩ := words_of_opens inside
          rw [split] at tail
          rw [words_cons_inside letter (first.trans inside) tail, words_cons_inside letter inside split]
          rfl

theorem words_append_length {a b : List α} (cut : Cuts sep a b) :
    (words sep (a ++ b)).length + 1 = (words sep a).length + (words sep b).length := by
  induction a with
  | nil => cases cut.1
  | cons c a ih =>
    by_cases last : a = []
    · subst last
      have letter : sep c = false := by simpa [closes] using cut.1
      obtain ⟨word, rest, split⟩ := words_of_opens cut.2
      rw [List.singleton_append, words_cons_inside letter cut.2 split, words_cons_alone letter opens_nil, split]
      simp [words]
      omega
    · have tail := ih ⟨by rw [← closes_cons last]; exact cut.1, cut.2⟩
      have first : opens sep (a ++ b) = opens sep a := opens_append last b
      rw [List.cons_append]
      cases letter : sep c with
      | true => rwa [words_cons_sep letter, words_cons_sep letter]
      | false =>
        cases inside : opens sep a with
        | false =>
          rw [words_cons_alone letter (first.trans inside), words_cons_alone letter inside]
          simp only [List.length_cons]
          omega
        | true =>
          obtain ⟨word, rest, split⟩ := words_of_opens inside
          obtain ⟨word', rest', split'⟩ := words_of_opens (first.trans inside)
          rw [words_cons_inside letter (first.trans inside) split', words_cons_inside letter inside split]
          rw [split, split'] at tail
          exact tail

theorem words_flatten_length (pieces : List (List α)) :
    (words sep pieces.flatten).length ≤ (pieces.flatMap (words sep)).length := by
  induction pieces with
  | nil => exact Nat.le_refl _
  | cons a pieces ih =>
    rw [List.flatten_cons, List.flatMap_cons, List.length_append]
    by_cases cut : Cuts sep a pieces.flatten
    · have joined := words_append_length cut
      omega
    · rw [words_append cut, List.length_append]
      omega

theorem words_flatten_iff {pieces : List (List α)} (some_pieces : ∀ piece ∈ pieces, piece ≠ []) :
    pieces.flatMap (words sep) = words sep pieces.flatten ↔ pieces.IsChain fun a b => ¬ Cuts sep a b := by
  induction pieces with
  | nil => simp [words]
  | cons a pieces ih =>
    have tail := ih fun piece member => some_pieces piece (List.mem_cons_of_mem _ member)
    cases pieces with
    | nil => simp
    | cons b pieces =>
      have first : opens sep (b :: pieces).flatten = opens sep b :=
        opens_append (some_pieces b (by simp)) pieces.flatten
      have same : Cuts sep a (b :: pieces).flatten ↔ Cuts sep a b := by
        unfold Cuts
        rw [first]
      rw [List.isChain_cons_cons, ← tail, ← same, List.flatten_cons, List.flatMap_cons]
      by_cases cut : Cuts sep a (b :: pieces).flatten
      · constructor
        · intro equal
          -- one word less than the pieces have, or even fewer
          have joined := words_append_length cut
          have fewer : (words sep (b :: pieces).flatten).length ≤ _ := words_flatten_length (b :: pieces)
          have lengths := congrArg List.length equal
          rw [List.length_append] at lengths
          omega
        · intro apart
          exact absurd cut apart.1
      · rw [words_append cut, List.append_cancel_left_eq]
        exact (and_iff_right cut).symm

end Words
