import Mathlib.Data.List.Induction

set_option autoImplicit false

namespace Runs

variable {S E : Type}

inductive Run (step : S → E → S → Prop) (start : S) : List E → S → Prop
  | refl : Run step start [] start
  | snoc {events : List E} {mid last : S} {event : E} (before : Run step start events mid)
    (taken : step mid event last) : Run step start (events ++ [event]) last

variable {step step' : S → E → S → Prop} {start last : S} {events : List E}

theorem Run.invariant (Inv : List E → S → Prop) (run : Run step start events last) (init : Inv [] start)
    (keep : ∀ events s event t, Inv events s → step s event t → Inv (events ++ [event]) t) :
    Inv events last := by
  -- an invariant of the state and the events so far holds after every run
  induction run with
  | refl => exact init
  | snoc _ taken ih => exact keep _ _ _ _ ih taken

theorem Run.preserves (Inv : S → Prop) (run : Run step start events last) (init : Inv start)
    (keep : ∀ s event t, Inv s → step s event t → Inv t) : Inv last :=
  run.invariant (fun _ => Inv) init fun _ s event t => keep s event t

theorem Run.mono (weaker : ∀ s event t, step s event t → step' s event t) (run : Run step start events last) :
    Run step' start events last := by
  induction run with
  | refl => exact .refl
  | snoc _ taken ih => exact .snoc ih (weaker _ _ _ taken)

theorem Run.single {event : E} (run : Run step start [event] last) : step start event last := by
  generalize one : [event] = events at run
  cases run with
  | refl => cases one
  | @snoc events mid last other before taken =>
    have split : [] ++ [event] = events ++ [other] := one
    obtain ⟨rfl, same⟩ := List.append_inj' split rfl
    cases same
    generalize none : ([] : List E) = events at before
    cases before with
    | refl => exact taken
    | snoc => simp at none

theorem Run.append {more : List E} {final : S} (first : Run step start events last)
    (second : Run step last more final) : Run step start (events ++ more) final := by
  induction second with
  | refl => simpa using first
  | snoc _ taken ih =>
    rw [← List.append_assoc]
    exact .snoc ih taken

theorem Run.foldl (next : S → E → S) (start : S) (events : List E) :
    Run (fun s event t => next s event = t) start events (events.foldl next start) := by
  induction events using List.reverseRecOn with
  | nil => exact .refl
  | append_singleton events event ih =>
    rw [List.foldl_append]
    exact .snoc ih rfl

theorem Run.eq_foldl {next : S → E → S} (run : Run (fun s event t => next s event = t) start events last) :
    events.foldl next start = last := by
  induction run with
  | refl => rfl
  | snoc _ taken ih => rw [List.foldl_append, ih, List.foldl_cons, List.foldl_nil, taken]

/-- Every step of the run of `next` over `events` is taken from a state that allows it. -/
def AllAlong (next : S → E → S) (ok : S → E → Prop) : S → List E → Prop
  | _, [] => True
  | s, event :: rest => ok s event ∧ AllAlong next ok (next s event) rest

instance AllAlong.decidable (next : S → E → S) (ok : S → E → Prop) [∀ s event, Decidable (ok s event)] :
    ∀ (s : S) (events : List E), Decidable (AllAlong next ok s events)
  | _, [] => .isTrue trivial
  | s, event :: rest =>
    have := AllAlong.decidable next ok (next s event) rest
    inferInstanceAs (Decidable (ok s event ∧ AllAlong next ok (next s event) rest))

theorem Run.cons {event : E} {mid : S} (first : step start event mid) (rest : Run step mid events last) :
    Run step start (event :: events) last :=
  Run.append (.snoc .refl first) rest

theorem Run.of_allAlong (next : S → E → S) {ok : S → E → Prop} {start : S} {events : List E}
    (allowed : AllAlong next ok start events) :
    Run (fun s event t => next s event = t ∧ ok s event) start events (events.foldl next start) := by
  induction events generalizing start with
  | nil => exact .refl
  | cons event rest ih => exact .cons ⟨rfl, allowed.1⟩ (ih allowed.2)

end Runs
