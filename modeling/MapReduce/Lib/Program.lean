import Mathlib.Data.List.Basic

/-! Programs as trees of calls to their environment.

A program returns a value, makes a call and goes on with the answer, or gets
stuck where the source it stands for has no defined behaviour. A handler says
what the calls do to a state. `Ensures` is total correctness under a handler:
the program returns, and the result meets the postcondition.
-/

set_option autoImplicit false

namespace Calls

/-- The calls a program can make, and the type of answer each of them gives. -/
structure Interface where
  Call : Type
  Answer : Call → Type

inductive Program (I : Interface) (α : Type) where
  | done (value : α)
  | call (c : I.Call) (next : I.Answer c → Program I α)
  | stuck

variable {I : Interface} {α β State : Type}

def Program.bind : Program I α → (α → Program I β) → Program I β
  | .done value, next => next value
  | .call c answered, next => .call c fun answer => (answered answer).bind next
  | .stuck, _ => .stuck

instance : Monad (Program I) where
  pure := .done
  bind := .bind

def perform (c : I.Call) : Program I (I.Answer c) := .call c .done

def each (body : β → Program I Unit) : List β → Program I Unit
  | [] => pure ()
  | x :: rest => do
    body x
    each body rest

/-- Run the same program on every element, whether or not the earlier ones succeeded. -/
def all (body : β → Program I Bool) : List β → Program I Bool
  | [] => pure true
  | x :: rest => do
    let ok ← body x
    let others ← all body rest
    pure (ok && others)

/-! ## Sequential execution -/

abbrev Handler (I : Interface) (State : Type) := (c : I.Call) → State → I.Answer c × State

def exec (handler : Handler I State) : Program I α → State → Option (α × State)
  | .done value, state => some (value, state)
  | .call c next, state => exec handler (next (handler c state).1) (handler c state).2
  | .stuck, _ => none

variable {handler : Handler I State}

theorem exec_bind (p : Program I α) (f : α → Program I β) (state : State) :
    exec handler (p >>= f) state = (exec handler p state).bind fun result => exec handler (f result.1) result.2 := by
  change exec handler (p.bind f) state = _
  induction p generalizing state with
  | done value => rfl
  | call c next ih => exact ih _ _
  | stuck => rfl

/-! ## The calls made -/

def made (handler : Handler I State) : Program I α → State → List I.Call
  | .done _, _ => []
  | .call c next, state => c :: made handler (next (handler c state).1) (handler c state).2
  | .stuck, _ => []

theorem made_bind {p : Program I α} {f : α → Program I β} {state after : State} {value : α}
    (ran : exec handler p state = some (value, after)) :
    made handler (p >>= f) state = made handler p state ++ made handler (f value) after := by
  change made handler (p.bind f) state = _
  induction p generalizing state with
  | done result =>
    cases ran
    rfl
  | call c next ih => exact congrArg (c :: ·) (ih _ ran)
  | stuck => cases ran

/-- Whatever the answers are, no call is one of those observed. -/
def Silent (observed : I.Call → Bool) : Program I α → Prop
  | .done _ => True
  | .call c next => observed c = false ∧ ∀ answer, Silent observed (next answer)
  | .stuck => True

section Silent
variable {observed : I.Call → Bool}

theorem silent_pure (value : α) : Silent observed (pure value : Program I α) := trivial

theorem silent_perform {c : I.Call} (unseen : observed c = false) : Silent observed (perform c) :=
  ⟨unseen, fun _ => trivial⟩

theorem Silent.bind {p : Program I α} {f : α → Program I β} (first : Silent observed p)
    (second : ∀ value, Silent observed (f value)) : Silent observed (p >>= f) := by
  change Silent observed (p.bind f)
  induction p with
  | done value => exact second value
  | call c next ih => exact ⟨first.1, fun answer => ih answer (first.2 answer)⟩
  | stuck => trivial

theorem Silent.made {p : Program I α} (silent : Silent observed p) (state : State) :
    (made handler p state).filter observed = [] := by
  induction p generalizing state with
  | done value => rfl
  | call c next ih =>
    rw [Calls.made, List.filter_cons_of_neg (by rw [silent.1]; decide)]
    exact ih _ (silent.2 _) _
  | stuck => rfl

end Silent

/-! ## Postconditions -/

/-- The program returns, and its value and the state it leaves meet the postcondition. -/
def Ensures (handler : Handler I State) (p : Program I α) (state : State) (post : α → State → Prop) : Prop :=
  ∃ value after, exec handler p state = some (value, after) ∧ post value after

theorem Ensures.mono {p : Program I α} {state : State} {weaker stronger : α → State → Prop}
    (ensures : Ensures handler p state stronger) (imp : ∀ value after, stronger value after → weaker value after) :
    Ensures handler p state weaker := by
  obtain ⟨value, after, ran, holds⟩ := ensures
  exact ⟨value, after, ran, imp value after holds⟩

theorem ensures_pure {value : α} {state : State} {post : α → State → Prop} (holds : post value state) :
    Ensures handler (pure value : Program I α) state post :=
  ⟨value, state, rfl, holds⟩

theorem ensures_after {p : Program I α} {f : α → Program I β} {state after : State} {value : α}
    {post : β → State → Prop} (ran : exec handler p state = some (value, after))
    (rest : Ensures handler (f value) after post) : Ensures handler (p >>= f) state post := by
  obtain ⟨result, final, ran', holds⟩ := rest
  refine ⟨result, final, ?_, holds⟩
  rw [exec_bind, ran]
  exact ran'

theorem Ensures.bind {p : Program I α} {f : α → Program I β} {state : State} {mid : α → State → Prop}
    {post : β → State → Prop} (first : Ensures handler p state mid)
    (second : ∀ value after, mid value after → Ensures handler (f value) after post) :
    Ensures handler (p >>= f) state post := by
  obtain ⟨value, after, ran, holds⟩ := first
  exact ensures_after ran (second value after holds)

end Calls
