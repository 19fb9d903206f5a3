import Mathlib.Logic.Function.Basic

set_option autoImplicit false

namespace Coalesce

structure Loads (K R : Type) where
  flying : K → Option Nat
  ended : Nat → Option R
  fresh : Nat

variable {K R : Type} {loads later : Loads K R} {key : K} {flight : Nat} {result : R} {right right' : K → R → Prop}

structure Loads.Ordered (loads : Loads K R) : Prop where
  -- every load under way has its own number, which is neither new nor that of a load that has ended
  flying : ∀ key flight, loads.flying key = some flight → flight < loads.fresh ∧ loads.ended flight = none
  distinct : ∀ key other flight, loads.flying key = some flight → loads.flying other = some flight → key = other
  unborn : ∀ flight, loads.fresh ≤ flight → loads.ended flight = none

/-- A load of the key that was joined is still under way, or has ended right. -/
def Loads.Joined (right : K → R → Prop) (loads : Loads K R) (key : K) (flight : Nat) : Prop :=
  loads.flying key = some flight ∨ ∃ result, loads.ended flight = some result ∧ right key result

structure Loads.Prolongs (right : K → R → Prop) (loads later : Loads K R) : Prop where
  ended : ∀ flight result, loads.ended flight = some result → later.ended flight = some result
  flying : ∀ key flight, loads.flying key = some flight → later.Joined right key flight

theorem Loads.Joined.prolongs (joined : loads.Joined right key flight) (prolongs : loads.Prolongs right' later)
    (still : ∀ result, right key result → right' key result) : later.Joined right' key flight := by
  rcases joined with flying | ⟨result, ended, holds⟩
  · exact prolongs.flying key flight flying
  · exact .inr ⟨result, prolongs.ended flight result ended, still result holds⟩

theorem Loads.Joined.ended_right (joined : loads.Joined right key flight) (ordered : loads.Ordered)
    (ended : loads.ended flight = some result) : right key result := by
  rcases joined with flying | ⟨other, same, holds⟩
  · rw [(ordered.flying key flight flying).2] at ended
    cases ended
  · cases same.symm.trans ended
    exact holds

theorem Loads.Ordered.age {fresh : Nat} (ordered : loads.Ordered) (older : loads.fresh ≤ fresh) :
    Loads.Ordered { loads with fresh } := by
  refine ⟨?_, ordered.distinct, ?_⟩
  · intro key flight flying
    obtain ⟨old, unfinished⟩ := ordered.flying key flight flying
    exact ⟨Nat.lt_of_lt_of_le old older, unfinished⟩
  · intro flight new
    exact ordered.unborn flight (Nat.le_trans older new)

def Loads.Owned (loads : Loads K R) (holding : Option (K × Nat)) : Prop :=
  ∀ key flight, holding = some (key, flight) → loads.flying key = some flight

def Separate (holding theirs : Option (K × Nat)) : Prop :=
  ∀ key flight flight', holding = some (key, flight) → theirs ≠ some (key, flight')

theorem Separate.symm {holding theirs : Option (K × Nat)} (separate : Separate holding theirs) : Separate theirs holding :=
  fun key flight flight' their mine => separate key flight' flight mine their

def Loads.out (loads : Loads K R) (key : K) (flight : Nat) : Nat := if loads.flying key = some flight then 1 else 0

theorem Loads.out_pos (flying : loads.flying key = some flight) : 0 < loads.out key flight := by
  simp [Loads.out, flying]

variable [DecidableEq K]

def Loads.lead (loads : Loads K R) (key : K) : Loads K R :=
  { loads with flying := Function.update loads.flying key (some loads.fresh), fresh := loads.fresh + 1 }

def Loads.finish (loads : Loads K R) (key : K) (flight : Nat) (result : R) : Loads K R :=
  { loads with
    flying := Function.update loads.flying key none
    ended := Function.update loads.ended flight (some result) }

theorem Loads.Ordered.lead (ordered : loads.Ordered) (key : K) : (loads.lead key).Ordered := by
  refine ⟨?_, ?_, ?_⟩
  · intro other flight flying
    dsimp only [Loads.lead] at flying ⊢
    by_cases same : other = key
    · rw [same, Function.update_self] at flying
      cases flying
      exact ⟨Nat.lt_succ_self _, ordered.unborn _ (Nat.le_refl _)⟩
    · rw [Function.update_of_ne same] at flying
      obtain ⟨old, unfinished⟩ := ordered.flying other flight flying
      exact ⟨by omega, unfinished⟩
  · intro one other flight first second
    dsimp only [Loads.lead] at first second
    -- the new load has a number that no other one has
    have newer : ∀ old, loads.flying old ≠ some loads.fresh := by
      intro old flying
      exact absurd (ordered.flying old _ flying).1 (Nat.lt_irrefl _)
    rw [Function.update_apply] at first second
    split at first
    next same =>
      cases first
      split at second
      next again => rw [same, again]
      next => exact absurd second (newer other)
    next =>
      split at second
      next =>
        cases second
        exact absurd first (newer one)
      next => exact ordered.distinct one other flight first second
  · intro flight new
    exact ordered.unborn flight (by dsimp only [Loads.lead] at new; omega)

theorem Loads.Prolongs.lead (free : loads.flying key = none) : loads.Prolongs right (loads.lead key) := by
  refine ⟨fun _ _ ended => ended, ?_⟩
  intro other flight flying
  have differ : other ≠ key := by
    rintro rfl
    rw [free] at flying
    cases flying
  exact .inl ((Function.update_of_ne differ _ _).trans flying)

theorem Loads.Ordered.finish (ordered : loads.Ordered) (flying : loads.flying key = some flight) (result : R) :
    (loads.finish key flight result).Ordered := by
  have old := (ordered.flying key flight flying).1
  refine ⟨?_, ?_, ?_⟩
  · intro other number there
    dsimp only [Loads.finish] at there ⊢
    by_cases same : other = key
    · rw [same, Function.update_self] at there
      cases there
    · rw [Function.update_of_ne same] at there
      have differ : number ≠ flight := by
        rintro rfl
        exact same (ordered.distinct other key number there flying)
      rw [Function.update_of_ne differ]
      exact ordered.flying other number there
  · intro one other number first second
    dsimp only [Loads.finish] at first second
    rw [Function.update_apply] at first second
    split at first
    · cases first
    · split at second
      · cases second
      · exact ordered.distinct one other number first second
  · intro number new
    dsimp only [Loads.finish] at new ⊢
    rw [Function.update_of_ne (by omega)]
    exact ordered.unborn number new

theorem Loads.Prolongs.finish (ordered : loads.Ordered) (flying : loads.flying key = some flight)
    (holds : right key result) : loads.Prolongs right (loads.finish key flight result) := by
  refine ⟨?_, ?_⟩
  · intro number other ended
    have differ : number ≠ flight := by
      rintro rfl
      rw [(ordered.flying key number flying).2] at ended
      cases ended
    exact (Function.update_of_ne differ _ _).trans ended
  · intro other number there
    by_cases same : other = key
    · subst same
      cases there.symm.trans flying
      exact .inr ⟨result, Function.update_self .., holds⟩
    · exact .inl ((Function.update_of_ne same _ _).trans there)

/-- What a step of a process does to the loads. The process holds the load that it has begun and not ended, if any. -/
inductive Turn (loads : Loads K R) : Option (K × Nat) → Loads K R → Option (K × Nat) → Prop
  | still {holding : Option (K × Nat)} {fresh : Nat} (older : loads.fresh ≤ fresh) :
    Turn loads holding { loads with fresh } holding
  | lead {key : K} (free : loads.flying key = none) : Turn loads none (loads.lead key) (some (key, loads.fresh))
  | finish {key : K} {flight : Nat} {result : R} {fresh : Nat} (older : loads.fresh ≤ fresh) :
    Turn loads (some (key, flight)) { loads.finish key flight result with fresh } none

def mark (holding : Option (K × Nat)) (key : K) (flight : Nat) : Nat := if holding = some (key, flight) then 1 else 0

theorem of_mark_pos {holding : Option (K × Nat)} (marked : 0 < mark holding key flight) : holding = some (key, flight) := by
  unfold mark at marked
  split at marked
  next same => exact same
  next => cases marked

namespace Turn

variable {holding holding' theirs : Option (K × Nat)}

theorem ordered (turn : Turn loads holding later holding') (ordered : loads.Ordered) (owned : loads.Owned holding) :
    later.Ordered := by
  cases turn with
  | still older => exact ordered.age older
  | lead free => exact ordered.lead _
  | finish older => exact (ordered.finish (owned _ _ rfl) _).age older

theorem owned (turn : Turn loads holding later holding') (owned : loads.Owned holding) : later.Owned holding' := by
  cases turn with
  | still older => exact owned
  | lead free =>
    rintro key flight ⟨⟩
    exact Function.update_self ..
  | finish older =>
    rintro key flight ⟨⟩

theorem prolongs (turn : Turn loads holding later holding') (ordered : loads.Ordered) (owned : loads.Owned holding) :
    loads.Prolongs (fun _ _ => True) later := by
  cases turn with
  | still older => exact ⟨fun _ _ ended => ended, fun _ _ flying => .inl flying⟩
  | lead free => exact .lead free
  | @finish key flight result fresh older =>
    have prolongs : loads.Prolongs (fun _ _ => True) (loads.finish key flight result) :=
      .finish ordered (owned _ _ rfl) trivial
    exact ⟨prolongs.ended, prolongs.flying⟩

/-- A load that was joined stays right if it ends right where its own process ends it. -/
theorem joined (turn : Turn loads holding later holding') (ordered : loads.Ordered) (owned : loads.Owned holding)
    (joined : loads.Joined right key flight)
    (ends : ∀ result, holding = some (key, flight) → later.ended flight = some result → right key result) :
    later.Joined right key flight := by
  have prolongs := turn.prolongs ordered owned
  rcases joined with flying | ⟨result, ended, holds⟩
  · rcases prolongs.flying key flight flying with still | ⟨result, ended, -⟩
    · exact .inl still
    · refine .inr ⟨result, ended, ends result ?_ ended⟩
      have open' := (ordered.flying key flight flying).2
      cases turn with
      | still older =>
        rw [open'] at ended
        cases ended
      | lead free =>
        change loads.ended flight = _ at ended
        rw [open'] at ended
        cases ended
      | @finish other number _ _ older =>
        -- the only load that ends
        by_cases same : flight = number
        · rw [same] at flying ⊢
          rw [ordered.distinct key other number flying (owned other number rfl)]
        · change Function.update loads.ended number _ flight = _ at ended
          rw [Function.update_of_ne same, open'] at ended
          cases ended
  · exact .inr ⟨result, prolongs.ended flight result ended, holds⟩

theorem others (turn : Turn loads holding later holding') (owned : loads.Owned theirs) (separate : Separate holding theirs) :
    later.Owned theirs ∧ Separate holding' theirs := by
  cases turn with
  | still older => exact ⟨owned, separate⟩
  | @lead key free =>
    have differ : ∀ other flight, theirs = some (other, flight) → other ≠ key := by
      rintro _ flight held rfl
      rw [owned _ _ held] at free
      cases free
    refine ⟨fun other flight held => ?_, ?_⟩
    · exact (Function.update_of_ne (differ other flight held) _ _).trans (owned other flight held)
    · rintro _ _ flight' ⟨⟩ held
      exact differ _ flight' held rfl
  | @finish key flight result fresh older =>
    refine ⟨fun other number held => ?_, by rintro _ _ _ ⟨⟩⟩
    have differ : other ≠ key := by
      rintro rfl
      exact separate _ flight number rfl held
    exact (Function.update_of_ne differ _ _).trans (owned other number held)

theorem attended (turn : Turn loads holding later holding') (flying : later.flying key = some flight) :
    holding' = some (key, flight) ∨ loads.flying key = some flight ∧ holding ≠ some (key, flight) := by
  cases turn with
  | still older =>
    by_cases mine : holding = some (key, flight)
    · exact .inl mine
    · exact .inr ⟨flying, mine⟩
  | @lead other free =>
    dsimp only [Loads.lead] at flying
    by_cases same : key = other
    · rw [same, Function.update_self] at flying
      cases flying
      exact .inl (by rw [same])
    · rw [Function.update_of_ne same] at flying
      exact .inr ⟨flying, by simp⟩
  | @finish other number result fresh older =>
    dsimp only [Loads.finish] at flying
    by_cases same : key = other
    · rw [same, Function.update_self] at flying
      cases flying
    · rw [Function.update_of_ne same] at flying
      refine .inr ⟨flying, ?_⟩
      rintro ⟨⟩
      exact same rfl

theorem accounts (turn : Turn loads holding later holding') (owned : loads.Owned holding) (key : K) (flight : Nat) :
    later.out key flight + mark holding key flight ≤ loads.out key flight + mark holding' key flight := by
  unfold Loads.out mark
  have known := owned key flight
  by_cases now : later.flying key = some flight
  · rcases turn.attended now with mine | ⟨before, free⟩
    · by_cases had : holding = some (key, flight)
      · simp [now, had, known had, mine]
      · simp [now, had, mine]
    · simp [now, before, free]
  · by_cases had : holding = some (key, flight)
    · simp [now, had, known had]
    · simp [now, had]

end Turn

end Coalesce
