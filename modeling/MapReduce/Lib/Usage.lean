import MapReduce.Lib.Program
import MapReduce.Lib.Runs

/-! Programs that use what they call by its rules.

The rules are a machine that watches the calls of a program and their answers: a
call it has no successor for breaks them. A program obeys the rules if it never
breaks them and never gets stuck, whatever it is answered, and returns with its
postcondition. What a program has done so far and what it still has to do is a
`Makes`, so that nothing here depends on how its calls are scheduled.
-/

set_option autoImplicit false

namespace Calls

abbrev Event (I : Interface) := (c : I.Call) × I.Answer c

variable {I : Interface} {α β Held : Type}

section Obeys

variable (rule : Held → Event I → Option Held)

/-- No call breaks the rules, and the program returns with its postcondition. -/
def Obeys : Program I α → Held → (α → Held → Prop) → Prop
  | .done value, held, post => post value held
  | .call c next, held, post => ∀ answer, ∃ after, rule held ⟨c, answer⟩ = some after ∧ Obeys (next answer) after post
  | .stuck, _, _ => False

end Obeys

variable {rule : Held → Event I → Option Held}

/-! ## Rules -/

theorem obeys_pure {value : α} {held : Held} {post : α → Held → Prop} (holds : post value held) :
    Obeys rule (pure value : Program I α) held post := holds

theorem obeys_perform {c : I.Call} {held : Held} {post : I.Answer c → Held → Prop}
    (keeps : ∀ answer, ∃ after, rule held ⟨c, answer⟩ = some after ∧ post answer after) :
    Obeys rule (perform c) held post := keeps

theorem Obeys.mono {p : Program I α} {held : Held} {stronger weaker : α → Held → Prop}
    (obeys : Obeys rule p held stronger) (imp : ∀ value after, stronger value after → weaker value after) :
    Obeys rule p held weaker := by
  induction p generalizing held with
  | done value => exact imp value held obeys
  | call c next ih =>
    intro answer
    obtain ⟨after, watched, rest⟩ := obeys answer
    exact ⟨after, watched, ih answer rest⟩
  | stuck => exact obeys

theorem Obeys.bind {p : Program I α} {f : α → Program I β} {held : Held} {mid : α → Held → Prop}
    {post : β → Held → Prop} (first : Obeys rule p held mid)
    (second : ∀ value after, mid value after → Obeys rule (f value) after post) :
    Obeys rule (p >>= f) held post := by
  change Obeys rule (p.bind f) held post
  induction p generalizing held with
  | done value => exact second value held first
  | call c next ih =>
    intro answer
    obtain ⟨after, watched, rest⟩ := first answer
    exact ⟨after, watched, ih answer rest⟩
  | stuck => exact first

/-- The rule for loops: the invariant speaks about the elements still to come. -/
theorem obeys_each (Inv : List β → Held → Prop) {body : β → Program I Unit}
    (step : ∀ x rest held, Inv (x :: rest) held → Obeys rule (body x) held fun _ after => Inv rest after)
    {xs : List β} {held : Held} (start : Inv xs held) :
    Obeys rule (each body xs) held fun _ after => Inv [] after := by
  induction xs generalizing held with
  | nil => exact start
  | cons x rest ih => exact (step x rest held start).bind fun _ after kept => ih kept

theorem obeys_all (Inv : List β → Held → Prop) {body : β → Program I Bool}
    (step : ∀ x rest held, Inv (x :: rest) held → Obeys rule (body x) held fun _ after => Inv rest after)
    {xs : List β} {held : Held} (start : Inv xs held) :
    Obeys rule (all body xs) held fun _ after => Inv [] after := by
  induction xs generalizing held with
  | nil => exact start
  | cons x rest ih =>
    refine (step x rest held start).bind fun ok after kept => ?_
    exact (ih kept).bind fun others final ended => obeys_pure ended

/-! ## Partial runs -/

/-- The program has made these calls, was given these answers, and has the second program left to do. -/
inductive Makes : Program I α → List (Event I) → Program I α → Prop where
  | nil (p : Program I α) : Makes p [] p
  | cons {c : I.Call} {next : I.Answer c → Program I α} (answer : I.Answer c) {events : List (Event I)}
      {q : Program I α} (later : Makes (next answer) events q) : Makes (.call c next) (⟨c, answer⟩ :: events) q

theorem Makes.snoc {p : Program I α} {events : List (Event I)} {c : I.Call} {next : I.Answer c → Program I α}
    (makes : Makes p events (.call c next)) (answer : I.Answer c) :
    Makes p (events ++ [⟨c, answer⟩]) (next answer) := by
  generalize whole : Program.call c next = q at makes
  induction makes with
  | nil p =>
    subst whole
    exact .cons answer (.nil _)
  | cons first later ih => exact .cons first (ih whole)

theorem Obeys.makes {p q : Program I α} {held : Held} {post : α → Held → Prop} {events : List (Event I)}
    (obeys : Obeys rule p held post) (makes : Makes p events q) :
    ∃ after, Runs.run rule held events = some after ∧ Obeys rule q after post := by
  induction makes generalizing held with
  | nil p => exact ⟨held, rfl, obeys⟩
  | cons answer later ih =>
    obtain ⟨mid, watched, rest⟩ := obeys answer
    obtain ⟨after, ran, kept⟩ := ih rest
    exact ⟨after, Runs.run_cons.mpr ⟨mid, watched, ran⟩, kept⟩

end Calls
