import Mathlib.Data.List.Basic

/-! Runs of a deterministic partial step function.

A step that returns `none` has no successor: the event is not enabled there, or
executing it leaves the defined behaviour of the machine. `Along` collects what
holds at every step a run takes, in the state the step is taken from.
-/

set_option autoImplicit false

namespace Runs

variable {State Event : Type} {step : State → Event → Option State}

/-- The state after a list of events, or `none` as soon as one step has no successor. -/
def run (step : State → Event → Option State) : State → List Event → Option State
  | state, [] => some state
  | state, event :: rest => (step state event).bind fun next => run step next rest

/-- Every step of the run meets the condition in the state it is taken from. -/
def Along (step : State → Event → Option State) (condition : State → Event → Prop) :
    State → List Event → Prop
  | _, [] => True
  | state, event :: rest =>
      condition state event ∧ ∀ next, step state event = some next → Along step condition next rest

instance Along.decidable {condition : State → Event → Prop} [decide : ∀ s e, Decidable (condition s e)] :
    (state : State) → (events : List Event) → Decidable (Along step condition state events)
  | _, [] => .isTrue trivial
  | state, event :: rest =>
    match decide state event, taken : step state event with
    | .isFalse fails, _ => .isFalse fun along => fails along.1
    | .isTrue holds, none => .isTrue ⟨holds, fun _ same => by rw [taken] at same; cases same⟩
    | .isTrue holds, some next =>
      match Along.decidable next rest with
      | .isTrue along => .isTrue ⟨holds, fun _ same => by
          rw [taken] at same
          exact Option.some.inj same ▸ along⟩
      | .isFalse fails => .isFalse fun along => fails (along.2 next taken)

/-- What the steps of a run put out, in order, up to the first step without a successor. -/
def outputs {Out : Type} (step : State → Event → Option State) (out : State → Event → Option Out) :
    State → List Event → List Out
  | _, [] => []
  | state, event :: rest =>
    (out state event).toList ++
      match step state event with
      | none => []
      | some next => outputs step out next rest

theorem run_cons {state final : State} {event : Event} {rest : List Event} :
    run step state (event :: rest) = some final ↔
      ∃ next, step state event = some next ∧ run step next rest = some final := by
  simp only [run, Option.bind_eq_some_iff]

theorem run_taken {state final : State} {events : List Event} (reached : run step state events = some final)
    {event : Event} (member : event ∈ events) : ∃ before after, step before event = some after := by
  induction events generalizing state with
  | nil => cases member
  | cons first rest ih =>
    obtain ⟨next, taken, remaining⟩ := run_cons.mp reached
    rcases List.mem_cons.mp member with rfl | later
    · exact ⟨state, next, taken⟩
    · exact ih remaining later

theorem run_append (state : State) (first second : List Event) :
    run step state (first ++ second) = (run step state first).bind fun mid => run step mid second := by
  induction first generalizing state with
  | nil => rfl
  | cons event rest ih =>
    simp only [List.cons_append, run]
    cases step state event with
    | none => rfl
    | some next => exact ih next

theorem along_invariant {condition : State → Event → Prop} {Inv : State → Prop}
    (keep : ∀ state event next, Inv state → condition state event →
      step state event = some next → Inv next)
    {state final : State} {events : List Event} (start : Inv state)
    (along : Along step condition state events) (reached : run step state events = some final) :
    Inv final := by
  induction events generalizing state with
  | nil =>
    cases reached
    exact start
  | cons event rest ih =>
    obtain ⟨next, taken, remaining⟩ := run_cons.mp reached
    exact ih (keep state event next start along.1 taken) (along.2 next taken) remaining

theorem run_invariant {Inv : State → Prop}
    (keep : ∀ state event next, Inv state → step state event = some next → Inv next)
    {state final : State} {events : List Event} (start : Inv state)
    (reached : run step state events = some final) : Inv final := by
  induction events generalizing state with
  | nil =>
    cases reached
    exact start
  | cons event rest ih =>
    obtain ⟨next, taken, remaining⟩ := run_cons.mp reached
    exact ih (keep state event next start taken) remaining

theorem run_last {Value : Type} {read : State → Value} {writes : Event → Bool} {left : Event → Value → Prop}
    (keep : ∀ state event next, writes event = false → step state event = some next → read next = read state)
    (set : ∀ state event next, writes event = true → step state event = some next → left event (read next))
    {state final : State} {events : List Event} (reached : run step state events = some final) :
    match (events.filter writes).getLast? with
    | none => read final = read state
    | some event => left event (read final) := by
  induction events generalizing state with
  | nil =>
    cases reached
    rfl
  | cons event rest ih =>
    obtain ⟨next, taken, remaining⟩ := run_cons.mp reached
    have later := ih remaining
    cases written : writes event with
    | false =>
      rw [List.filter_cons_of_neg (by simp [written]), ← keep state event next written taken]
      exact later
    | true =>
      rw [List.filter_cons_of_pos written, List.getLast?_cons]
      cases last : (rest.filter writes).getLast? with
      | none =>
        rw [last] at later
        exact later ▸ set state event next written taken
      | some other =>
        rw [last] at later
        exact later

theorem along_defined {condition : State → Event → Prop} {Inv : State → Prop}
    (advance : ∀ state event, Inv state → condition state event →
      ∃ next, step state event = some next ∧ Inv next)
    {state : State} {events : List Event} (start : Inv state)
    (along : Along step condition state events) :
    ∃ final, run step state events = some final ∧ Inv final := by
  induction events generalizing state with
  | nil => exact ⟨state, rfl, start⟩
  | cons event rest ih =>
    obtain ⟨next, taken, kept⟩ := advance state event start along.1
    obtain ⟨final, reached, holds⟩ := ih kept (along.2 next taken)
    exact ⟨final, run_cons.mpr ⟨next, taken, reached⟩, holds⟩

theorem along_congr {left right : State → Event → Prop} {Inv : State → Prop}
    (keep : ∀ state event next, Inv state → left state event → step state event = some next → Inv next)
    (agree : ∀ state event, Inv state → (left state event ↔ right state event))
    {state : State} {events : List Event} (start : Inv state) :
    Along step left state events ↔ Along step right state events := by
  induction events generalizing state with
  | nil => exact Iff.rfl
  | cons event rest ih =>
    rw [Along, Along, ← agree state event start]
    refine and_congr_right fun holds => forall_congr' fun next => ?_
    exact imp_congr_right fun taken => ih (keep state event next start holds taken)

section Projection
variable {Extended : Type} {extended : Extended → Event → Option Extended} {erase : Extended → State}
  (follows : ∀ state event, (extended state event).map erase = step (erase state) event)

include follows in
theorem run_erase (state : Extended) (events : List Event) :
    (run extended state events).map erase = run step (erase state) events := by
  induction events generalizing state with
  | nil => rfl
  | cons event rest ih =>
    rw [run, run, ← follows state event]
    cases extended state event with
    | none => rfl
    | some next => exact ih next

include follows in
theorem along_erase {condition : State → Event → Prop} {state : Extended} {events : List Event}
    (along : Along step condition (erase state) events) :
    Along extended (fun state event => condition (erase state) event) state events := by
  induction events generalizing state with
  | nil => trivial
  | cons event rest ih =>
    refine ⟨along.1, fun next taken => ih (along.2 _ ?_)⟩
    rw [← follows, taken]
    rfl

end Projection

theorem along_events {fits : Event → Prop} {events : List Event} (all : ∀ event ∈ events, fits event)
    (state : State) : Along step (fun _ event => fits event) state events := by
  induction events generalizing state with
  | nil => trivial
  | cons event rest ih =>
    refine ⟨all event List.mem_cons_self, fun next _ => ?_⟩
    exact ih (fun other member => all other (List.mem_cons_of_mem _ member)) next

theorem along_and {condition : State → Event → Prop} {fits : Event → Prop} {state : State} {events : List Event}
    (along : Along step condition state events) (all : ∀ event ∈ events, fits event) :
    Along step (fun state event => condition state event ∧ fits event) state events := by
  induction events generalizing state with
  | nil => trivial
  | cons event rest ih =>
    refine ⟨⟨along.1, all event List.mem_cons_self⟩, fun next taken => ?_⟩
    exact ih (along.2 next taken) fun other member => all other (List.mem_cons_of_mem _ member)

/-! ## Reachability -/

/-- Some run over events of one sort leads there. -/
def Reaches (step : State → Event → Option State) (fits : Event → Prop) (state final : State) : Prop :=
  ∃ events, (∀ event ∈ events, fits event) ∧ run step state events = some final

variable {fits : Event → Prop}

theorem Reaches.refl (state : State) : Reaches step fits state state := ⟨[], by simp, rfl⟩

theorem Reaches.trans {state mid final : State} (first : Reaches step fits state mid)
    (second : Reaches step fits mid final) : Reaches step fits state final := by
  obtain ⟨before, fit, ran⟩ := first
  obtain ⟨after, fit', ran'⟩ := second
  refine ⟨before ++ after, fun event member => (List.mem_append.mp member).elim (fit event) (fit' event), ?_⟩
  rw [run_append, ran]
  exact ran'

theorem Reaches.mono {sort : Event → Prop} {state final : State} (reaches : Reaches step fits state final)
    (weaken : ∀ event, fits event → sort event) : Reaches step sort state final := by
  obtain ⟨events, fit, ran⟩ := reaches
  exact ⟨events, fun event member => weaken event (fit event member), ran⟩

theorem Reaches.one {state final : State} {event : Event} (fit : fits event) (taken : step state event = some final) :
    Reaches step fits state final :=
  ⟨[event], by simpa using fit, run_cons.mpr ⟨final, taken, rfl⟩⟩

theorem Reaches.head {state mid final : State} {event : Event} (fit : fits event) (taken : step state event = some mid)
    (rest : Reaches step fits mid final) : Reaches step fits state final :=
  .trans ⟨[event], by simpa using fit, run_cons.mpr ⟨mid, taken, rfl⟩⟩ rest

theorem Reaches.invariant {Inv : State → Prop}
    (keep : ∀ state event next, Inv state → fits event → step state event = some next → Inv next)
    {state final : State} (reaches : Reaches step fits state final) (start : Inv state) : Inv final := by
  obtain ⟨events, fit, ran⟩ := reaches
  exact along_invariant keep start (along_events fit state) ran

/-! ## Simulation -/

/-- If every step is matched by steps of another machine that the event explains, so is every run. -/
theorem run_simulated {Other Move : Type} {other : Other → Move → Option Other} {related : State → Other → Prop}
    {explains : Event → Move → Prop}
    (simulate : ∀ state event next abstract, related state abstract → step state event = some next →
      ∃ abstract', Reaches other (explains event) abstract abstract' ∧ related next abstract')
    {state final : State} {abstract : Other} {events : List Event} (start : related state abstract)
    (reached : run step state events = some final) :
    ∃ abstract', Reaches other (fun move => ∃ event ∈ events, explains event move) abstract abstract' ∧
      related final abstract' := by
  induction events generalizing state abstract with
  | nil =>
    cases reached
    exact ⟨abstract, .refl abstract, start⟩
  | cons event rest ih =>
    obtain ⟨next, taken, remaining⟩ := run_cons.mp reached
    obtain ⟨mid, first, linked⟩ := simulate state event next abstract start taken
    obtain ⟨last, later, ends⟩ := ih linked remaining
    refine ⟨last, .trans (first.mono fun move explained => ?_) (later.mono fun move explained => ?_), ends⟩
    · exact ⟨event, List.mem_cons_self, explained⟩
    · obtain ⟨other, member, explained⟩ := explained
      exact ⟨other, List.mem_cons_of_mem _ member, explained⟩

end Runs
