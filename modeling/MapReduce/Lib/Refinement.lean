import MapReduce.Lib.Usage

/-! Programs with private calls, and what they look like without them.

An implementation makes the calls of its interface and private calls to a
resource of its own. Its specification is a program without the private calls;
what depends on the resource is a choice there, a call of its own kind whose
answer the specification leaves open. An implementation refines its specification
if it never makes a private call the resource has no answer for, and every run of
it is, seen from outside, a run of the specification.
-/

set_option autoImplicit false

namespace Calls

@[reducible] def Interface.sum (V P : Interface) : Interface :=
  ⟨V.Call ⊕ P.Call, fun | .inl c => V.Answer c | .inr c => P.Answer c⟩

variable {V P : Interface} {α β γ δ Held : Type}

/-- The event as it is seen from outside. -/
def Event.outer? : Event (V.sum P) → Option (Event V)
  | ⟨.inl c, answer⟩ => some ⟨c, answer⟩
  | ⟨.inr _, _⟩ => none

/-- The event as the resource sees it. -/
def Event.inner? : Event (V.sum P) → Option (Event P)
  | ⟨.inl _, _⟩ => none
  | ⟨.inr c, answer⟩ => some ⟨c, answer⟩

def outer (c : V.Call) : Program (V.sum P) (V.Answer c) := .call (.inl c) .done

def inner (c : P.Call) : Program (V.sum P) (P.Answer c) := .call (.inr c) .done

/-! ## Choices -/

/-- The specification gets from one program to the other by choices alone. -/
inductive Chooses (choice : V.Call → Bool) : Program V α → Program V α → Prop where
  | refl (q : Program V α) : Chooses choice q q
  | step {c : V.Call} {next : V.Answer c → Program V α} {q : Program V α} (answer : V.Answer c)
      (chosen : choice c = true) (later : Chooses choice (next answer) q) : Chooses choice (.call c next) q

section Choices

variable {choice : V.Call → Bool}

theorem Chooses.trans {p q r : Program V α} (first : Chooses choice p q) (second : Chooses choice q r) :
    Chooses choice p r := by
  induction first with
  | refl => exact second
  | step answer chosen _ ih => exact .step answer chosen (ih second)

theorem Chooses.bind {p q : Program V α} (chooses : Chooses choice p q) (f : α → Program V β) :
    Chooses choice (p.bind f) (q.bind f) := by
  induction chooses with
  | refl => exact .refl _
  | step answer chosen _ ih => exact .step answer chosen ih

theorem Chooses.makes {p q : Program V α} (chooses : Chooses choice p q) :
    ∃ events, Makes p events q ∧ events.filter (fun event => !choice event.1) = [] := by
  induction chooses with
  | refl q => exact ⟨[], .nil q, rfl⟩
  | step answer chosen _ ih =>
    obtain ⟨events, makes, silent⟩ := ih
    exact ⟨_, .cons answer makes, by rw [List.filter_cons_of_neg (by simp [chosen]), silent]⟩

end Choices

theorem Makes.trans {p q r : Program V α} {first second : List (Event V)} (before : Makes p first q)
    (after : Makes q second r) : Makes p (first ++ second) r := by
  induction before with
  | nil => exact after
  | cons answer _ ih => exact .cons answer (ih after)

/-! ## Refinement -/

section Refines

variable (rule : Held → Event P → Option Held) (possible : Held → Event P → Prop) (choice : V.Call → Bool)

/-- The implementation on the left, the specification on the right, and what the resource holds in between. -/
def Refines : Program (V.sum P) α → Held → Program V β → (α → β → Held → Prop) → Prop
  | .done a, held, q, post => ∃ b, Chooses choice q (.done b) ∧ post a b held
  | .call (.inl c) next, held, q, post =>
    ∃ next', Chooses choice q (.call c next') ∧ ∀ answer, Refines (next answer) held (next' answer) post
  | .call (.inr c) next, held, q, post =>
    (∃ answer, possible held ⟨c, answer⟩) ∧ ∀ answer, possible held ⟨c, answer⟩ →
      ∃ after, rule held ⟨c, answer⟩ = some after ∧ Refines (next answer) after q post
  | .stuck, _, _, _ => False

end Refines

section Rules

variable {rule : Held → Event P → Option Held} {possible : Held → Event P → Prop} {choice : V.Call → Bool}

theorem refines_pure {a : α} {b : β} {held : Held} {post : α → β → Held → Prop} (holds : post a b held) :
    Refines rule possible choice (pure a) held (pure b) post := ⟨b, .refl _, holds⟩

theorem refines_outer (c : V.Call) {held : Held} :
    Refines rule possible choice (outer c) held (perform c) fun a b after => a = b ∧ after = held :=
  ⟨_, .refl _, fun answer => ⟨answer, .refl _, rfl, rfl⟩⟩

theorem refines_inner {c : P.Call} {f : P.Answer c → Program (V.sum P) α} {q : Program V β} {held : Held}
    {post : α → β → Held → Prop} (answers : ∃ answer, possible held ⟨c, answer⟩)
    (keeps : ∀ answer, possible held ⟨c, answer⟩ →
      ∃ after, rule held ⟨c, answer⟩ = some after ∧ Refines rule possible choice (f answer) after q post) :
    Refines rule possible choice (inner c >>= f) held q post := ⟨answers, keeps⟩

theorem Refines.choose {p : Program (V.sum P) α} {q q' : Program V β} {held : Held} {post : α → β → Held → Prop}
    (chooses : Chooses choice q q') (refines : Refines rule possible choice p held q' post) :
    Refines rule possible choice p held q post := by
  induction p generalizing held with
  | done a =>
    obtain ⟨b, later, holds⟩ := refines
    exact ⟨b, chooses.trans later, holds⟩
  | call c next ih =>
    cases c with
    | inl c =>
      obtain ⟨next', later, rest⟩ := refines
      exact ⟨next', chooses.trans later, rest⟩
    | inr c =>
      refine ⟨refines.1, fun answer answers => ?_⟩
      obtain ⟨after, watched, rest⟩ := refines.2 answer answers
      exact ⟨after, watched, ih answer rest⟩
  | stuck => exact refines

theorem Refines.mono {p : Program (V.sum P) α} {q : Program V β} {held : Held}
    {stronger weaker : α → β → Held → Prop} (refines : Refines rule possible choice p held q stronger)
    (imp : ∀ a b after, stronger a b after → weaker a b after) : Refines rule possible choice p held q weaker := by
  induction p generalizing held q with
  | done a =>
    obtain ⟨b, chooses, holds⟩ := refines
    exact ⟨b, chooses, imp a b held holds⟩
  | call c next ih =>
    cases c with
    | inl c =>
      obtain ⟨next', chooses, rest⟩ := refines
      exact ⟨next', chooses, fun answer => ih answer (rest answer)⟩
    | inr c =>
      refine ⟨refines.1, fun answer answers => ?_⟩
      obtain ⟨after, watched, rest⟩ := refines.2 answer answers
      exact ⟨after, watched, ih answer rest⟩
  | stuck => exact refines

theorem Refines.bind {p : Program (V.sum P) α} {q : Program V β} {f : α → Program (V.sum P) γ}
    {g : β → Program V δ} {held : Held} {mid : α → β → Held → Prop} {post : γ → δ → Held → Prop}
    (first : Refines rule possible choice p held q mid)
    (second : ∀ a b after, mid a b after → Refines rule possible choice (f a) after (g b) post) :
    Refines rule possible choice (p >>= f) held (q >>= g) post := by
  change Refines rule possible choice (p.bind f) held (q.bind g) post
  induction p generalizing held q with
  | done a =>
    obtain ⟨b, chooses, holds⟩ := first
    exact (second a b held holds).choose (chooses.bind g)
  | call c next ih =>
    cases c with
    | inl c =>
      obtain ⟨next', chooses, rest⟩ := first
      exact ⟨fun answer => (next' answer).bind g, chooses.bind g, fun answer => ih answer (rest answer)⟩
    | inr c =>
      refine ⟨first.1, fun answer answers => ?_⟩
      obtain ⟨after, watched, rest⟩ := first.2 answer answers
      exact ⟨after, watched, ih answer rest⟩
  | stuck => exact first

theorem Refines.within {p : Program (V.sum P) α} {q : Program V δ} {f : α → Program (V.sum P) γ} {held : Held}
    {mid : α → Unit → Held → Prop} {post : γ → δ → Held → Prop}
    (first : Refines rule possible choice p held (pure ()) mid)
    (second : ∀ a after, mid a () after → Refines rule possible choice (f a) after q post) :
    Refines rule possible choice (p >>= f) held q post :=
  first.bind (g := fun _ => q) fun a _ after holds => second a after holds

theorem Program.bind_done (q : Program V β) : q.bind .done = q := by
  induction q with
  | done b => rfl
  | call c next ih => simp only [Program.bind, ih]
  | stuck => rfl

theorem Refines.cleanup {p : Program (V.sum P) α} {q : Program V β} {f : α → Program (V.sum P) γ} {held : Held}
    {mid : α → β → Held → Prop} {post : γ → β → Held → Prop} (first : Refines rule possible choice p held q mid)
    (second : ∀ a b after, mid a b after → Refines rule possible choice (f a) after (pure b) post) :
    Refines rule possible choice (p >>= f) held q post := by
  have both := first.bind second
  rwa [show q >>= pure = q from q.bind_done] at both

/-! ## Runs -/

/-- What an implementation has done so far, its specification could have done as well, the resource has taken part
in every private call, and what is left refines what is left of the specification. -/
theorem Refines.makes {p p' : Program (V.sum P) α} {q : Program V β} {held : Held} {post : α → β → Held → Prop}
    {events : List (Event (V.sum P))} (refines : Refines rule possible choice p held q post)
    (makes : Makes p events p') (answers : Runs.Along rule possible held (events.filterMap Event.inner?)) :
    ∃ seen q' after, Makes q seen q' ∧
      seen.filter (fun event => !choice event.1) =
        (events.filterMap Event.outer?).filter (fun event => !choice event.1) ∧
      Runs.run rule held (events.filterMap Event.inner?) = some after ∧
      Refines rule possible choice p' after q' post := by
  induction makes generalizing held q with
  | nil p => exact ⟨[], q, held, .nil q, rfl, rfl, refines⟩
  | @cons c next answer events p' later ih =>
    cases c with
    | inl c =>
      obtain ⟨next', chooses, rest⟩ := refines
      obtain ⟨chosen, before, silent⟩ := chooses.makes
      obtain ⟨seen, q', after, follows, same, ran, left⟩ := ih (rest answer) answers
      have both : Makes (.call c next') (⟨c, answer⟩ :: seen) q' := Makes.cons (c := c) (I := V) answer follows
      refine ⟨chosen ++ ⟨c, answer⟩ :: seen, q', after, before.trans both, ?_, ran, left⟩
      have visible : List.filterMap Event.outer? (⟨.inl c, answer⟩ :: events) =
        ⟨c, answer⟩ :: events.filterMap Event.outer? := rfl
      rw [visible, List.filter_append, silent, List.nil_append, List.filter_cons, List.filter_cons, same]
    | inr c =>
      have known : List.filterMap Event.inner? (⟨.inr c, answer⟩ :: events) =
        ⟨c, answer⟩ :: events.filterMap Event.inner? := rfl
      rw [known] at answers ⊢
      obtain ⟨mid, watched, rest⟩ := refines.2 answer answers.1
      obtain ⟨seen, q', after, follows, same, ran, left⟩ := ih rest (answers.2 mid watched)
      exact ⟨seen, q', after, follows, same, Runs.run_cons.mpr ⟨mid, watched, ran⟩, left⟩

end Rules

end Calls
