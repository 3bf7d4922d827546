import MapReduce.Lib.Program
import MapReduce.Lib.Runs
import Mathlib.Logic.Function.Basic

/-! Programs that run at the same time on a shared state.

Each participant runs a call tree. A call is one atomic step whose outcome the
environment chooses, and a participant can crash between any two calls. A
participant is safe if each of its calls keeps the common invariant and what the
others rely on, where it may use only assertions that the steps of the others
keep. Then the invariant holds at every moment of every interleaving, and a
participant that has returned has established its postcondition.
-/

set_option autoImplicit false

namespace Interference

open Calls

/-- What a call of one participant does under each outcome; `none` is an outcome that cannot happen. -/
abbrev Service (I : Interface) (Id Outcome State : Type) :=
  Id → (c : I.Call) → Outcome → State → Option (I.Answer c × State)

/-- The common invariant, and the changes each participant has to expect from the others. -/
structure Contract (Id State : Type) where
  inv : State → Prop
  rely : Id → State → State → Prop

/-- A property of the state that the steps of the others keep. -/
structure Assertion {State : Type} (rely : State → State → Prop) where
  holds : State → Prop
  stable : ∀ s s', rely s s' → holds s → holds s'

variable {I : Interface} {Id Outcome State α β : Type}

section Safe

variable (service : Service I Id Outcome State) (contract : Contract Id State) (id : Id)

/-- One call keeps the invariant and the contract of the others, and leaves an assertion for each answer. -/
def Keeps (c : I.Call) (pre : Assertion (contract.rely id)) (post : I.Answer c → Assertion (contract.rely id)) :
    Prop :=
  ∀ s outcome answer s', contract.inv s → pre.holds s → service id c outcome s = some (answer, s') →
    contract.inv s' ∧ (∀ other, other ≠ id → contract.rely other s s') ∧ (post answer).holds s'

/-- Every call of the program keeps the contract, and it returns with its postcondition. -/
def Safe : Program I α → Assertion (contract.rely id) → (α → Assertion (contract.rely id)) → Prop
  | .done value, pre, post => ∀ s, contract.inv s → pre.holds s → (post value).holds s
  | .call c next, pre, post =>
    ∃ mid, Keeps service contract id c pre mid ∧ ∀ answer, Safe (next answer) (mid answer) post
  | .stuck, _, _ => True

end Safe

variable {service : Service I Id Outcome State} {contract : Contract Id State} {id : Id}

/-! ## Rules -/

theorem safe_pure {value : α} {pre : Assertion (contract.rely id)} {post : α → Assertion (contract.rely id)}
    (holds : ∀ s, contract.inv s → pre.holds s → (post value).holds s) :
    Safe service contract id (pure value) pre post := holds

theorem safe_perform {c : I.Call} {pre : Assertion (contract.rely id)}
    {post : I.Answer c → Assertion (contract.rely id)} (keeps : Keeps service contract id c pre post) :
    Safe service contract id (perform c) pre post :=
  ⟨post, keeps, fun _ _ _ holds => holds⟩

theorem Safe.weaken {p : Program I α} {pre stronger : Assertion (contract.rely id)}
    {post : α → Assertion (contract.rely id)} (safe : Safe service contract id p pre post)
    (imp : ∀ s, contract.inv s → stronger.holds s → pre.holds s) : Safe service contract id p stronger post := by
  cases p with
  | done value => exact fun s inv holds => safe s inv (imp s inv holds)
  | call c next =>
    obtain ⟨mid, keeps, rest⟩ := safe
    exact ⟨mid, fun s outcome answer s' inv holds => keeps s outcome answer s' inv (imp s inv holds), rest⟩
  | stuck => trivial

theorem safe_absurd {p : Program I α} {pre : Assertion (contract.rely id)} {post : α → Assertion (contract.rely id)}
    (never : ∀ s, contract.inv s → ¬ pre.holds s) : Safe service contract id p pre post := by
  induction p with
  | done value => exact fun s inv holds => absurd holds (never s inv)
  | call c next ih => exact ⟨fun _ => pre, fun s _ _ _ inv holds => absurd holds (never s inv), ih⟩
  | stuck => trivial

theorem safe_of_fact {p : Program I α} {pre : Assertion (contract.rely id)} {post : α → Assertion (contract.rely id)}
    {fact : Prop} (known : ∀ s, contract.inv s → pre.holds s → fact)
    (safe : fact → Safe service contract id p pre post) : Safe service contract id p pre post := by
  by_cases holds : fact
  · exact safe holds
  · exact safe_absurd fun s inv here => holds (known s inv here)

theorem Safe.mono {p : Program I α} {pre : Assertion (contract.rely id)}
    {post weaker : α → Assertion (contract.rely id)} (safe : Safe service contract id p pre post)
    (imp : ∀ value s, contract.inv s → (post value).holds s → (weaker value).holds s) :
    Safe service contract id p pre weaker := by
  induction p generalizing pre with
  | done value => exact fun s inv holds => imp value s inv (safe s inv holds)
  | call c next ih =>
    obtain ⟨mid, keeps, rest⟩ := safe
    exact ⟨mid, keeps, fun answer => ih answer (rest answer)⟩
  | stuck => trivial

theorem Safe.bind {p : Program I α} {f : α → Program I β} {pre : Assertion (contract.rely id)}
    {mid : α → Assertion (contract.rely id)} {post : β → Assertion (contract.rely id)}
    (first : Safe service contract id p pre mid)
    (second : ∀ value, Safe service contract id (f value) (mid value) post) :
    Safe service contract id (p >>= f) pre post := by
  change Safe service contract id (p.bind f) pre post
  induction p generalizing pre with
  | done value => exact (second value).weaken first
  | call c next ih =>
    obtain ⟨after, keeps, rest⟩ := first
    exact ⟨after, keeps, fun answer => ih answer (rest answer)⟩
  | stuck => trivial

/-- The rule for loops: the assertion speaks about the elements already visited. -/
theorem safe_each (A : List β → Assertion (contract.rely id)) {body : β → Program I Unit} {xs : List β}
    (step : ∀ visited x rest, xs = visited ++ x :: rest →
      Safe service contract id (body x) (A visited) fun _ => A (visited ++ [x])) :
    Safe service contract id (each body xs) (A []) fun _ => A xs := by
  suffices general : ∀ visited rest, xs = visited ++ rest →
      Safe service contract id (each body rest) (A visited) fun _ => A xs from general [] xs rfl
  intro visited rest
  induction rest generalizing visited with
  | nil =>
    intro same
    rw [List.append_nil] at same
    subst same
    exact safe_pure fun _ _ holds => holds
  | cons x rest ih =>
    intro same
    exact (step visited x rest same).bind fun _ => ih (visited ++ [x]) (by simp [same])

theorem safe_all (A : List β → Bool → Assertion (contract.rely id)) {body : β → Program I Bool} {xs : List β}
    (step : ∀ visited x rest ok, xs = visited ++ x :: rest →
      Safe service contract id (body x) (A visited ok) fun now => A (visited ++ [x]) (ok && now)) :
    Safe service contract id (all body xs) (A [] true) fun ok => A xs ok := by
  suffices general : ∀ visited rest ok, xs = visited ++ rest →
      Safe service contract id (all body rest) (A visited ok) fun others => A xs (ok && others) from
    general [] xs true rfl
  intro visited rest
  induction rest generalizing visited with
  | nil =>
    intro ok same
    rw [List.append_nil] at same
    subst same
    refine safe_pure fun _ _ holds => ?_
    rwa [Bool.and_true]
  | cons x rest ih =>
    intro ok same
    refine (step visited x rest ok same).bind fun now => ?_
    refine (ih (visited ++ [x]) (ok && now) (by simp [same])).bind fun others => safe_pure fun _ _ holds => ?_
    rwa [← Bool.and_assoc]

/-! ## Interleavings -/

inductive Participant (I : Interface) (α : Type) where
  | running (p : Program I α)
  | crashed

inductive Action (Id Outcome : Type) where
  | step (id : Id) (outcome : Outcome)
  | crash (id : Id)
  deriving DecidableEq, Repr

structure Config (I : Interface) (Id State α : Type) where
  state : State
  participants : Id → Participant I α

def Config.start (program : Id → Program I α) (state : State) : Config I Id State α :=
  ⟨state, fun id => .running (program id)⟩

def Config.returned (c : Config I Id State α) (id : Id) : Option α :=
  match c.participants id with
  | .running (.done value) => some value
  | _ => none

theorem Config.returned_iff {c : Config I Id State α} {id : Id} {value : α} :
    c.returned id = some value ↔ c.participants id = .running (.done value) := by
  unfold Config.returned
  split
  next found => simp [found]
  next other => exact ⟨nofun, fun found => absurd found (other value)⟩

/-- One participant makes its next call, or one that has not returned crashes. -/
def next [DecidableEq Id] (service : Service I Id Outcome State) (c : Config I Id State α) :
    Action Id Outcome → Option (Config I Id State α)
  | .crash id =>
    match c.participants id with
    | .running (.done _) => none
    | _ => some { c with participants := Function.update c.participants id .crashed }
  | .step id outcome =>
    match c.participants id with
    | .running (.call call answered) =>
      (service id call outcome c.state).map fun result =>
        ⟨result.2, Function.update c.participants id (.running (answered result.1))⟩
    | .running (.done _) | .running .stuck | .crashed => none

def Returns [DecidableEq Id] (service : Service I Id Outcome State) (start : Config I Id State α)
    (actions : List (Action Id Outcome)) (id : Id) (value : α) : Prop :=
  ∃ before after mid, actions = before ++ after ∧ Runs.run (next service) start before = some mid ∧
    mid.returned id = some value

/-- What a participant still has to do is safe from what holds now. -/
def Resumes (service : Service I Id Outcome State) (contract : Contract Id State) (id : Id)
    (post : α → Assertion (contract.rely id)) (state : State) : Participant I α → Prop
  | .running p => ∃ pre : Assertion (contract.rely id), pre.holds state ∧ Safe service contract id p pre post
  | .crashed => True

theorem Resumes.others {post : α → Assertion (contract.rely id)} {s s' : State} {p : Participant I α}
    (resumes : Resumes service contract id post s p) (rely : contract.rely id s s') :
    Resumes service contract id post s' p := by
  cases p with
  | running p =>
    obtain ⟨pre, holds, safe⟩ := resumes
    exact ⟨pre, pre.stable s s' rely holds, safe⟩
  | crashed => trivial

/-- The invariant of every interleaving of safe participants. -/
structure Sound (service : Service I Id Outcome State) (contract : Contract Id State)
    (post : (id : Id) → α → Assertion (contract.rely id)) (c : Config I Id State α) : Prop where
  inv : contract.inv c.state
  resumes : ∀ id, Resumes service contract id (post id) c.state (c.participants id)

variable {post : (id : Id) → α → Assertion (contract.rely id)}

theorem Sound.returned {c : Config I Id State α} (sound : Sound service contract post c) {id : Id} {value : α}
    (returned : c.returned id = some value) : (post id value).holds c.state := by
  have resumes := sound.resumes id
  rw [Config.returned_iff.mp returned] at resumes
  obtain ⟨now, holds, safe⟩ := resumes
  exact safe c.state sound.inv holds

/-- Nobody runs: a participant that has not started is like one that has crashed. -/
def Config.idle (state : State) : Config I Id State α := ⟨state, fun _ => .crashed⟩

theorem Sound.idle {state : State} (inv : contract.inv state) :
    Sound service contract post (.idle state : Config I Id State α) := ⟨inv, fun _ => trivial⟩

variable [DecidableEq Id]

theorem next_cases {c after : Config I Id State α} {action : Action Id Outcome}
    (taken : next service c action = some after) :
    (∃ id, (∀ value, c.participants id ≠ .running (.done value)) ∧
      after = { c with participants := Function.update c.participants id .crashed }) ∨
    ∃ id outcome call answered answer s', c.participants id = .running (.call call answered) ∧
      service id call outcome c.state = some (answer, s') ∧
      after = ⟨s', Function.update c.participants id (.running (answered answer))⟩ := by
  cases action with
  | crash id =>
    simp only [next] at taken
    split at taken
    · cases taken
    next active =>
      cases taken
      exact .inl ⟨id, active, rfl⟩
  | step id outcome =>
    simp only [next] at taken
    split at taken
    next call answered running =>
      obtain ⟨⟨answer, s'⟩, served, rfl⟩ := Option.map_eq_some_iff.mp taken
      exact .inr ⟨id, outcome, call, answered, answer, s', running, served, rfl⟩
    all_goals cases taken

theorem returned_next {id : Id} {value : α} (c : Config I Id State α) (action : Action Id Outcome)
    (after : Config I Id State α) (returned : c.returned id = some value) (taken : next service c action = some after) :
    after.returned id = some value := by
  rw [Config.returned_iff] at returned ⊢
  obtain ⟨other, active, rfl⟩ | ⟨other, _, call, answered, _, _, running, _, rfl⟩ := next_cases taken
  · have apart : id ≠ other := by
      rintro rfl
      exact active value returned
    exact (Function.update_of_ne apart _ _).trans returned
  · have apart : id ≠ other := by
      rintro rfl
      cases returned.symm.trans running
    exact (Function.update_of_ne apart _ _).trans returned

theorem Sound.next_rely {c after : Config I Id State α} {action : Action Id Outcome}
    (sound : Sound service contract post c) (taken : Interference.next service c action = some after) :
    after.state = c.state ∨ ∃ id, ∀ other, other ≠ id → contract.rely other c.state after.state := by
  obtain ⟨id, -, rfl⟩ | ⟨id, outcome, call, answered, answer, s', running, served, rfl⟩ := next_cases taken
  · exact .inl rfl
  · have resumes := sound.resumes id
    rw [running] at resumes
    obtain ⟨pre, holds, mid, keeps, -⟩ := resumes
    exact .inr ⟨id, (keeps c.state outcome answer s' sound.inv holds served).2.1⟩

theorem Sound.next (c : Config I Id State α) (action : Action Id Outcome) (after : Config I Id State α)
    (sound : Sound service contract post c) (taken : next service c action = some after) :
    Sound service contract post after := by
  obtain ⟨id, -, rfl⟩ | ⟨id, outcome, call, answered, answer, s', running, served, rfl⟩ := next_cases taken
  · refine ⟨sound.inv, fun other => ?_⟩
    by_cases same : other = id
    · subst same
      simp [Resumes]
    · simpa [Function.update_of_ne same] using sound.resumes other
  · have resumes := sound.resumes id
    rw [running] at resumes
    obtain ⟨pre, holds, mid, keeps, rest⟩ := resumes
    obtain ⟨inv, rely, now⟩ := keeps c.state outcome answer s' sound.inv holds served
    refine ⟨inv, fun other => ?_⟩
    by_cases same : other = id
    · subst same
      simp only [Function.update_self]
      exact ⟨mid answer, now, rest answer⟩
    · simp only [Function.update_of_ne same]
      exact (sound.resumes other).others (rely other same)

/-- At every moment of every interleaving of safe participants the invariant holds, and so does the
postcondition of each one that has returned by then. -/
theorem run_safe {program : Id → Program I α} {pre : (id : Id) → Assertion (contract.rely id)}
    (safe : ∀ id, Safe service contract id (program id) (pre id) (post id)) {state : State}
    (inv : contract.inv state) (holds : ∀ id, (pre id).holds state) {actions : List (Action Id Outcome)}
    {c : Config I Id State α} (reached : Runs.run (next service) (.start program state) actions = some c) :
    contract.inv c.state ∧
      ∀ id value, Returns service (.start program state) actions id value → (post id value).holds c.state := by
  have start : Sound service contract post (.start program state) := ⟨inv, fun id => ⟨pre id, holds id, safe id⟩⟩
  have sound := Runs.run_invariant Sound.next start reached
  refine ⟨sound.inv, fun id value => ?_⟩
  rintro ⟨before, rest, mid, rfl, reached_mid, returned⟩
  rw [Runs.run_append, reached_mid] at reached
  exact sound.returned (Runs.run_invariant returned_next returned reached)

/-! ## Participants that start later -/

/-- Start a participant while the others run. -/
def Config.spawn (c : Config I Id State α) (id : Id) (p : Program I α) : Config I Id State α :=
  { c with participants := Function.update c.participants id (.running p) }

theorem Sound.spawn {c : Config I Id State α} (sound : Sound service contract post c) {id : Id} {p : Program I α}
    {pre : Assertion (contract.rely id)} (holds : pre.holds c.state) (safe : Safe service contract id p pre (post id)) :
    Sound service contract post (c.spawn id p) := by
  refine ⟨sound.inv, fun other => ?_⟩
  by_cases same : other = id
  · subst same
    simp only [Config.spawn, Function.update_self]
    exact ⟨pre, holds, safe⟩
  · simp only [Config.spawn, Function.update_of_ne same]
    exact sound.resumes other

end Interference
