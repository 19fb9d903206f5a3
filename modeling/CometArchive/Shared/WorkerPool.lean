import Mathlib

set_option autoImplicit false

/-!
# A pool of workers

A submitter hands the slots `0 .. slots - 1` to workers over an unbuffered channel, in order. The workers
share a context derived from the caller's: it is done when the caller's is, or once a worker that
recorded an error has cancelled it. The submitter stops early when it finds the workers' context done.

`job slot done result` says what working on a slot may return, with `done` telling whether the workers'
context was done by then.
-/

namespace WorkerPool

variable {α E : Type} {w : Nat}

inductive Worker (α E : Type) where
  | idle
  | holding (slot : Nat)  -- received, the context not yet looked at
  | running (slot : Nat)
  | returned (slot : Nat) (result : Except E α)
  | failing (slot : Nat)  -- its error is recorded, the context not yet cancelled
  | exited

def Worker.slot : Worker α E → Option Nat
  -- the slot a worker has received and not yet recorded
  | .holding slot => some slot
  | .running slot => some slot
  | .returned slot _ => some slot
  | _ => none

structure Pool (w : Nat) (α E : Type) where
  workers : Fin w → Worker α E
  next : Nat
  closed : Bool
  ctx : Option E
  cancelled : Option E
  results : List (Nat × Except E α)

namespace Pool

def start (w : Nat) (α E : Type) : Pool w α E where
  workers _ := .idle
  next := 0
  closed := false
  ctx := none
  cancelled := none
  results := []

def put (p : Pool w α E) (i : Fin w) (phase : Worker α E) : Pool w α E :=
  { p with workers := Function.update p.workers i phase }

def record (p : Pool w α E) (slot : Nat) (result : Except E α) : Pool w α E :=
  { p with results := p.results ++ [(slot, result)] }

/-- A context that is done already keeps its error. -/
def cancel (p : Pool w α E) (canceled : E) : Pool w α E := { p with cancelled := some (p.cancelled.getD canceled) }

section Fields

variable (p : Pool w α E) (i : Fin w) (phase : Worker α E) (slot : Nat) (result : Except E α) (canceled : E)

@[simp, grind =] theorem put_workers (j : Fin w) :
    (p.put i phase).workers j = if j = i then phase else p.workers j :=
  Function.update_apply ..

@[simp, grind =] theorem put_next : (p.put i phase).next = p.next := rfl
@[simp, grind =] theorem put_closed : (p.put i phase).closed = p.closed := rfl
@[simp, grind =] theorem put_ctx : (p.put i phase).ctx = p.ctx := rfl
@[simp, grind =] theorem put_cancelled : (p.put i phase).cancelled = p.cancelled := rfl
@[simp, grind =] theorem put_results : (p.put i phase).results = p.results := rfl

@[simp, grind =] theorem record_workers (j : Fin w) : (p.record slot result).workers j = p.workers j := rfl
@[simp, grind =] theorem record_next : (p.record slot result).next = p.next := rfl
@[simp, grind =] theorem record_closed : (p.record slot result).closed = p.closed := rfl
@[simp, grind =] theorem record_ctx : (p.record slot result).ctx = p.ctx := rfl
@[simp, grind =] theorem record_cancelled : (p.record slot result).cancelled = p.cancelled := rfl
@[simp, grind =] theorem record_results : (p.record slot result).results = p.results ++ [(slot, result)] := rfl

@[simp, grind =] theorem cancel_workers (j : Fin w) : (p.cancel canceled).workers j = p.workers j := rfl
@[simp, grind =] theorem cancel_next : (p.cancel canceled).next = p.next := rfl
@[simp, grind =] theorem cancel_closed : (p.cancel canceled).closed = p.closed := rfl
@[simp, grind =] theorem cancel_ctx : (p.cancel canceled).ctx = p.ctx := rfl
@[simp, grind =] theorem cancel_cancelled : (p.cancel canceled).cancelled = some (p.cancelled.getD canceled) := rfl
@[simp, grind =] theorem cancel_results : (p.cancel canceled).results = p.results := rfl

end Fields

def Finished (p : Pool w α E) : Prop := p.closed = true ∧ ∀ i, p.workers i = .exited

end Pool

variable (slots : Nat) (job : Nat → Bool → Except E α → Prop) (canceled : E)

inductive Step (p : Pool w α E) : Pool w α E → Prop
  | callerDone (cause : E) (live : p.ctx = none) : Step p { p with ctx := some cause }
  | propagate (cause : E) (done : p.ctx = some cause) (live : p.cancelled = none) :
    Step p { p with cancelled := some cause }
  | submit (i : Fin w) (isOpen : p.closed = false) (more : p.next < slots) (idle : p.workers i = .idle) :
    Step p { p.put i (.holding p.next) with next := p.next + 1 }
  | finish (isOpen : p.closed = false) (all : p.next = slots) : Step p { p with closed := true }
  | stop (cause : E) (isOpen : p.closed = false) (more : p.next < slots) (done : p.cancelled = some cause) :
    Step p { p with closed := true }
  | skip (i : Fin w) (slot : Nat) (cause : E) (holds : p.workers i = .holding slot)
    (done : p.cancelled = some cause) : Step p ((p.put i .idle).record slot (.error cause))
  | run (i : Fin w) (slot : Nat) (holds : p.workers i = .holding slot) (live : p.cancelled = none) :
    Step p (p.put i (.running slot))
  | ret (i : Fin w) (slot : Nat) (result : Except E α) (runs : p.workers i = .running slot)
    (may : job slot p.cancelled.isSome result) : Step p (p.put i (.returned slot result))
  | recordOk (i : Fin w) (slot : Nat) (value : α) (has : p.workers i = .returned slot (.ok value)) :
    Step p ((p.put i .idle).record slot (.ok value))
  | recordError (i : Fin w) (slot : Nat) (err : E) (has : p.workers i = .returned slot (.error err)) :
    Step p ((p.put i (.failing slot)).record slot (.error err))
  | cancel (i : Fin w) (slot : Nat) (fails : p.workers i = .failing slot) : Step p ((p.put i .idle).cancel canceled)
  | exit (i : Fin w) (idle : p.workers i = .idle) (shut : p.closed = true) : Step p (p.put i .exited)

variable {slots job canceled} {p p' : Pool w α E}

section Inversion

theorem Step.results_subset (step : Step slots job canceled p p') : p.results ⊆ p'.results := by
  cases step with
  | skip | recordOk | recordError => exact List.subset_append_left _ _
  | _ => exact List.Subset.refl _

theorem Step.ctx_of_none (step : Step slots job canceled p p') (live : p'.ctx = none) : p.ctx = none := by
  cases step with
  | callerDone cause before => exact before
  | _ => exact live

theorem Step.mem_results (step : Step slots job canceled p p') {slot : Nat} {result : Except E α}
    (member : (slot, result) ∈ p'.results) :
    (slot, result) ∈ p.results ∨ (∃ i, p.workers i = .returned slot result) ∨
      ∃ i cause, p.workers i = .holding slot ∧ p.cancelled = some cause ∧ result = .error cause := by
  cases step with
  | skip i other cause holds done =>
    rcases List.mem_append.mp member with old | new
    · exact .inl old
    · cases List.mem_singleton.mp new
      exact .inr (.inr ⟨i, cause, holds, done, rfl⟩)
  | recordOk i other value has =>
    rcases List.mem_append.mp member with old | new
    · exact .inl old
    · cases List.mem_singleton.mp new
      exact .inr (.inl ⟨i, has⟩)
  | recordError i other err has =>
    rcases List.mem_append.mp member with old | new
    · exact .inl old
    · cases List.mem_singleton.mp new
      exact .inr (.inl ⟨i, has⟩)
  | _ => exact .inl member

theorem Step.returned_cases (step : Step slots job canceled p p') {j : Fin w} {slot : Nat} {result : Except E α}
    (now : p'.workers j = .returned slot result) :
    p.workers j = .returned slot result ∨ p.workers j = .running slot ∧ job slot p.cancelled.isSome result := by
  cases step with
  | callerDone | propagate | finish | stop => exact .inl now
  | ret i other value runs may =>
    rw [Pool.put_workers] at now
    split at now
    next same =>
      cases now
      exact .inr ⟨same ▸ runs, may⟩
    next => exact .inl now
  | _ => grind

end Inversion

section Accounting

/-- Every submitted slot is in one place: held by one worker, or recorded once. -/
structure Accounted (slots next : Nat) (recorded : List Nat) (held : Fin w → Option Nat) : Prop where
  bound : next ≤ slots
  submitted : ∀ slot, slot < next ↔ slot ∈ recorded ∨ ∃ i, held i = some slot
  once : recorded.Nodup
  apart : ∀ i slot, held i = some slot → slot ∉ recorded
  single : ∀ i j slot, held i = some slot → held j = some slot → i = j

namespace Accounted

variable {next slot : Nat} {recorded : List Nat} {held : Fin w → Option Nat} {i : Fin w}

theorem record (kept : Accounted slots next recorded held) (has : held i = some slot) :
    Accounted slots next (recorded ++ [slot]) (Function.update held i none) := by
  obtain ⟨bound, submitted, once, apart, single⟩ := kept
  have absent := apart i slot has
  refine ⟨bound, ?_, ?_, ?_, ?_⟩
  · intro other
    rw [submitted]
    constructor
    · rintro (old | ⟨j, holds⟩)
      · simp [old]
      · by_cases here : j = i
        · grind
        · exact .inr ⟨j, by simp [here, holds]⟩
    · grind [Function.update_apply]
  · grind
  · grind [Function.update_apply]
  · grind [Function.update_apply]

theorem submit (kept : Accounted slots next recorded held) (more : next < slots) (idle : held i = none) :
    Accounted slots (next + 1) recorded (Function.update held i (some next)) := by
  obtain ⟨bound, submitted, once, apart, single⟩ := kept
  have fresh := (submitted next).not.mp (lt_irrefl _)
  refine ⟨more, ?_, once, ?_, ?_⟩
  · intro other
    rw [Nat.lt_succ_iff_lt_or_eq, submitted]
    constructor
    · rintro ((old | ⟨j, holds⟩) | rfl)
      · exact .inl old
      · refine .inr ⟨j, ?_⟩
        grind [Function.update_apply]
      · exact .inr ⟨i, by simp⟩
    · grind [Function.update_apply]
  · grind [Function.update_apply]
  · grind [Function.update_apply]

end Accounted

namespace Pool

def recorded (p : Pool w α E) : List Nat := p.results.map Prod.fst

def held (p : Pool w α E) (i : Fin w) : Option Nat := (p.workers i).slot

theorem put_held (p : Pool w α E) (i : Fin w) (phase : Worker α E) :
    (p.put i phase).held = Function.update p.held i phase.slot := by
  funext j
  by_cases here : j = i <;> simp [held, here]

theorem put_held_of_slot_eq (p : Pool w α E) {i : Fin w} {phase : Worker α E} (same : phase.slot = (p.workers i).slot) :
    (p.put i phase).held = p.held := by
  rw [put_held, same]
  exact Function.update_eq_self i p.held

/-- The slots are accounted for; workers leave once the channel is closed, and the submitter closes it
early only when the context is done. -/
structure Sound (slots : Nat) (p : Pool w α E) : Prop where
  accounted : Accounted slots p.next p.recorded p.held
  shut : ∀ i, p.workers i = .exited → p.closed = true
  stopped : p.closed = true → p.next < slots → p.cancelled ≠ none

theorem sound_start (slots : Nat) : (start w α E).Sound slots := by
  refine ⟨?_, ?_, ?_⟩
  · constructor <;> simp [start, recorded, held, Worker.slot]
  · simp [start]
  · simp [start]

theorem Sound.cancel {p : Pool w α E} {slots : Nat} (sound : p.Sound slots) (canceled : E) :
    (p.cancel canceled).Sound slots :=
  ⟨sound.accounted, sound.shut, by simp⟩

end Pool

theorem Step.sound (step : Step slots job canceled p p') (sound : p.Sound slots) : p'.Sound slots := by
  obtain ⟨accounted, shut, stopped⟩ := sound
  -- a worker's recording, whatever it goes on to
  have recording : ∀ (i : Fin w) (slot : Nat) (phase : Worker α E) (result : Except E α),
      (p.workers i).slot = some slot → phase.slot = none →
      Accounted slots p.next ((p.put i phase).record slot result).recorded ((p.put i phase).record slot result).held := by
    intro i slot phase result has leaves
    have kept := accounted.record (i := i) has
    rw [← leaves, ← Pool.put_held] at kept
    have slots : ((p.put i phase).record slot result).recorded = p.recorded ++ [slot] := by simp [Pool.recorded]
    rwa [slots]
  have stays : ∀ (i : Fin w) (phase : Worker α E), phase.slot = (p.workers i).slot →
      Accounted slots p.next p.recorded (p.put i phase).held := by
    intro i phase same
    rwa [Pool.put_held_of_slot_eq p same]
  cases step with
  | callerDone => exact ⟨accounted, shut, stopped⟩
  | propagate => exact ⟨accounted, shut, by simp⟩
  | finish isOpen all => exact ⟨accounted, fun _ _ => rfl, fun _ more => absurd all more.ne⟩
  | stop cause isOpen more done => exact ⟨accounted, fun _ _ => rfl, fun _ _ => by simp [done]⟩
  | submit i isOpen more idle =>
    refine ⟨?_, by grind, by simp [isOpen]⟩
    have kept := accounted.submit (i := i) more (by simp [Pool.held, idle, Worker.slot])
    rwa [show some p.next = (Worker.holding p.next : Worker α E).slot from rfl, ← Pool.put_held] at kept
  | skip i slot cause holds => exact ⟨recording i slot _ _ (by simp [holds, Worker.slot]) rfl, by grind, stopped⟩
  | run i slot holds => exact ⟨stays i _ (by simp [holds, Worker.slot]), by grind, stopped⟩
  | ret i slot result runs => exact ⟨stays i _ (by simp [runs, Worker.slot]), by grind, stopped⟩
  | recordOk i slot value has => exact ⟨recording i slot _ _ (by simp [has, Worker.slot]) rfl, by grind, stopped⟩
  | recordError i slot err has => exact ⟨recording i slot _ _ (by simp [has, Worker.slot]) rfl, by grind, stopped⟩
  | cancel i slot fails => exact ⟨stays i _ (by simp [fails, Worker.slot]), by grind, by simp⟩
  | exit i idle closed => exact ⟨stays i _ (by simp [idle, Worker.slot]), fun _ _ => closed, stopped⟩

end Accounting

section Cancellation

structure Explained (job : Nat → Bool → Except E α → Prop) (canceled : E) (p : Pool w α E) : Prop where
  -- why the workers' context is done and where errors come from, as long as only workers cancel it
  live : p.ctx = none → p.cancelled = none ∨ p.cancelled = some canceled
  cause : p.cancelled ≠ none → p.ctx ≠ none ∨ ∃ slot err, (slot, .error err) ∈ p.results ∧ job slot false (.error err)
  returned : ∀ i slot result, p.workers i = .returned slot result → ∃ done, job slot done result
  returnedLive : p.cancelled = none → ∀ i slot err, p.workers i = .returned slot (.error err) → job slot false (.error err)
  origin : ∀ slot result, (slot, result) ∈ p.results →
    (∃ done, job slot done result) ∨ ∃ err, result = .error err ∧ p.cancelled = some err
  originLive : p.cancelled = none → ∀ slot err, (slot, .error err) ∈ p.results → job slot false (.error err)
  failing : ∀ i slot, p.workers i = .failing slot → ∃ err, (slot, .error err) ∈ p.results
  erring : ∀ slot err, (slot, .error err) ∈ p.results → p.cancelled ≠ none ∨ ∃ i, p.workers i = .failing slot

namespace Explained

theorem start : Explained job canceled (Pool.start w α E) := by
  constructor <;> simp [Pool.start]

theorem submitter (explained : Explained job canceled p) (next : Nat) (closed : Bool) :
    Explained job canceled { p with next, closed } := by
  obtain ⟨live, cause, returned, returnedLive, origin, originLive, failing, erring⟩ := explained
  exact ⟨live, cause, returned, returnedLive, origin, originLive, failing, erring⟩

theorem put (explained : Explained job canceled p) {i : Fin w} {phase : Worker α E}
    (before : ∀ slot, p.workers i ≠ .failing slot) (after : ∀ slot, phase ≠ .failing slot)
    (result : ∀ slot result, phase = .returned slot result → job slot p.cancelled.isSome result) :
    Explained job canceled (p.put i phase) := by
  obtain ⟨live, cause, returned, returnedLive, origin, originLive, failing, erring⟩ := explained
  refine ⟨live, cause, ?_, ?_, origin, originLive, ?_, ?_⟩
  · intro j slot value now
    rw [Pool.put_workers] at now
    split at now
    · exact ⟨_, result slot value now⟩
    · exact returned j slot value now
  · intro none j slot err now
    rw [Pool.put_cancelled] at none
    rw [Pool.put_workers] at now
    split at now
    · simpa [none] using result slot _ now
    · exact returnedLive none j slot err now
  · intro j slot now
    rw [Pool.put_workers] at now
    split at now
    · exact absurd now (after slot)
    · exact failing j slot now
  · intro slot err member
    rcases erring slot err member with done | ⟨j, now⟩
    · exact .inl done
    · have other : j ≠ i := by
        rintro rfl
        exact before slot now
      exact .inr ⟨j, by simp [other, now]⟩

theorem recordOk (explained : Explained job canceled p) {slot : Nat} {value : α} {done : Bool}
    (result : job slot done (.ok value)) : Explained job canceled (p.record slot (.ok value)) := by
  obtain ⟨live, cause, returned, returnedLive, origin, originLive, failing, erring⟩ := explained
  have errors : ∀ other err,
      (other, Except.error err) ∈ (p.record slot (.ok value)).results ↔ (other, .error err) ∈ p.results := by simp
  refine ⟨live, ?_, returned, returnedLive, ?_, ?_, ?_, ?_⟩
  · simp only [errors]
    exact cause
  · intro other outcome member
    rcases List.mem_append.mp member with old | new
    · exact origin other outcome old
    · cases List.mem_singleton.mp new
      exact .inl ⟨done, result⟩
  · simp only [errors]
    exact originLive
  · simp only [errors]
    exact failing
  · simp only [errors]
    exact erring

theorem recordDone (explained : Explained job canceled p) {slot : Nat} {err : E} (done : p.cancelled = some err) :
    Explained job canceled (p.record slot (.error err)) := by
  obtain ⟨live, cause, returned, returnedLive, origin, originLive, failing, erring⟩ := explained
  have grown : p.results ⊆ (p.record slot (.error err)).results := List.subset_append_left _ _
  refine ⟨live, ?_, returned, returnedLive, ?_, by simp [done], ?_, by simp [done]⟩
  · intro some
    rcases cause some with caller | ⟨other, reason, member, result⟩
    · exact .inl caller
    · exact .inr ⟨other, reason, grown member, result⟩
  · intro other outcome member
    rcases List.mem_append.mp member with old | new
    · exact origin other outcome old
    · cases List.mem_singleton.mp new
      exact .inr ⟨err, rfl, done⟩
  · intro j other now
    obtain ⟨reason, member⟩ := failing j other now
    exact ⟨reason, grown member⟩

theorem recordError (explained : Explained job canceled p) {i : Fin w} {slot : Nat} {err : E}
    (has : p.workers i = .returned slot (.error err)) :
    Explained job canceled ((p.put i (.failing slot)).record slot (.error err)) := by
  obtain ⟨live, cause, returned, returnedLive, origin, originLive, failing, erring⟩ := explained
  have result := returned i slot _ has
  have genuine := fun none => returnedLive none i slot err has
  refine ⟨live, ?_, ?_, ?_, ?_, ?_, ?_, ?_⟩
  · grind
  · grind
  · grind
  · grind
  · grind
  · grind
  · intro other reason member
    rw [Pool.record_results, List.mem_append, List.mem_singleton, Prod.mk.injEq] at member
    rcases member with old | ⟨rfl, -⟩
    · rcases erring other reason old with done | ⟨j, now⟩
      · exact .inl done
      · have elsewhere : j ≠ i := by
          rintro rfl
          rw [has] at now
          cases now
        exact .inr ⟨j, by simp [elsewhere, now]⟩
    · exact .inr ⟨i, by simp⟩

theorem cancel (explained : Explained job canceled p) {i : Fin w} {slot : Nat} (fails : p.workers i = .failing slot) :
    Explained job canceled ((p.put i .idle).cancel canceled) := by
  -- the first worker to cancel the context recorded an error of its job
  obtain ⟨live, cause, returned, returnedLive, origin, originLive, failing, erring⟩ := explained
  obtain ⟨err, recorded⟩ := failing i slot fails
  refine ⟨?_, ?_, ?_, by simp, ?_, by simp, ?_, by simp⟩
  · grind
  · intro _
    cases done : p.cancelled with
    | none => exact .inr ⟨slot, err, recorded, originLive done slot err recorded⟩
    | some reason => exact cause (by simp [done])
  · grind
  · grind
  · grind

end Explained

theorem Step.explained (step : Step slots job canceled p p') (explained : Explained job canceled p) :
    Explained job canceled p' := by
  cases step with
  | finish | stop => exact explained.submitter p.next true
  | submit i isOpen more idle =>
    have moved : Explained job canceled (p.put i (.holding p.next)) :=
      explained.put (by simp [idle]) (by simp) (by simp)
    exact moved.submitter (p.next + 1) p.closed
  | run i slot holds => exact explained.put (by simp [holds]) (by simp) (by simp)
  | exit i idle closed => exact explained.put (by simp [idle]) (by simp) (by simp)
  | callerDone cause live =>
    obtain ⟨-, -, returned, returnedLive, origin, originLive, failing, erring⟩ := explained
    exact ⟨by simp, by simp, returned, returnedLive, origin, originLive, failing, erring⟩
  | propagate cause done live =>
    obtain ⟨-, -, returned, returnedLive, origin, originLive, failing, erring⟩ := explained
    refine ⟨by simp [done], by simp [done], returned, by simp, ?_, by simp, failing, by simp⟩
    grind
  | skip i slot cause holds done =>
    exact (explained.put (by simp [holds]) (by simp) (by simp)).recordDone done
  | ret i slot result runs may =>
    refine explained.put (by simp [runs]) (by simp) fun other value same => ?_
    cases same
    exact may
  | recordOk i slot value has =>
    obtain ⟨done, result⟩ := explained.returned i slot _ has
    exact (explained.put (by simp [has]) (by simp) (by simp)).recordOk result
  | recordError i slot err has => exact explained.recordError has
  | cancel i slot fails => exact explained.cancel fails

end Cancellation

section Termination

def Worker.weight : Worker α E → Nat
  -- how far a worker is from being done with what it holds
  | .holding _ => 5
  | .running _ => 4
  | .returned _ _ => 3
  | .failing _ => 2
  | .idle => 1
  | .exited => 0

namespace Pool

def load (p : Pool w α E) : Nat := ∑ i, (p.workers i).weight

theorem put_load (p : Pool w α E) (i : Fin w) (phase : Worker α E) :
    (p.put i phase).load + (p.workers i).weight = p.load + phase.weight := by
  have rest : ∑ j ∈ Finset.univ.erase i, ((p.put i phase).workers j).weight =
      ∑ j ∈ Finset.univ.erase i, (p.workers j).weight := by
    refine Finset.sum_congr rfl fun j other => ?_
    rw [put_workers, if_neg (Finset.ne_of_mem_erase other)]
  have before := Finset.add_sum_erase Finset.univ (fun j => (p.workers j).weight) (Finset.mem_univ i)
  have after := Finset.add_sum_erase Finset.univ (fun j => ((p.put i phase).workers j).weight) (Finset.mem_univ i)
  have here : (p.put i phase).workers i = phase := by simp
  simp only [rest, here] at after
  unfold load
  omega

/-- Every step makes this number smaller, so that every run ends. -/
def rank (slots : Nat) (p : Pool w α E) : Nat :=
  5 * (slots - p.next) + (!p.closed).toNat + p.ctx.isNone.toNat + p.cancelled.isNone.toNat + p.load

theorem rank_put_lt {p : Pool w α E} {i : Fin w} {phase : Worker α E} (slots : Nat)
    (lighter : phase.weight < (p.workers i).weight) : (p.put i phase).rank slots < p.rank slots := by
  have moved := p.put_load i phase
  simp only [rank, put_next, put_closed, put_ctx, put_cancelled]
  omega

theorem rank_record (p : Pool w α E) (slots slot : Nat) (result : Except E α) :
    (p.record slot result).rank slots = p.rank slots := rfl

theorem rank_cancel_le (p : Pool w α E) (slots : Nat) (canceled : E) : (p.cancel canceled).rank slots ≤ p.rank slots := by
  have same : (p.cancel canceled).load = p.load := rfl
  simp only [rank, cancel_next, cancel_closed, cancel_ctx, cancel_cancelled, same, Option.isNone_some, Bool.toNat_false]
  omega

end Pool

theorem Step.rank_lt (step : Step slots job canceled p p') : p'.rank slots < p.rank slots := by
  cases step with
  | callerDone cause live =>
    have same : ({ p with ctx := some cause } : Pool w α E).load = p.load := rfl
    simp [Pool.rank, live, same]
  | propagate cause done live =>
    have same : ({ p with cancelled := some cause } : Pool w α E).load = p.load := rfl
    simp [Pool.rank, live, same]
  | finish isOpen =>
    have same : ({ p with closed := true } : Pool w α E).load = p.load := rfl
    simp [Pool.rank, isOpen, same]
  | stop cause isOpen =>
    have same : ({ p with closed := true } : Pool w α E).load = p.load := rfl
    simp [Pool.rank, isOpen, same]
  | submit i isOpen more idle =>
    have moved := p.put_load i (.holding p.next)
    simp only [idle, Worker.weight] at moved
    change 5 * (slots - (p.next + 1)) + (!p.closed).toNat + p.ctx.isNone.toNat + p.cancelled.isNone.toNat +
      (p.put i (.holding p.next)).load < p.rank slots
    unfold Pool.rank
    omega
  | skip i slot cause holds done =>
    rw [Pool.rank_record]
    exact Pool.rank_put_lt slots (by simp [holds, Worker.weight])
  | run i slot holds => exact Pool.rank_put_lt slots (by simp [holds, Worker.weight])
  | ret i slot result runs => exact Pool.rank_put_lt slots (by simp [runs, Worker.weight])
  | recordOk i slot value has =>
    rw [Pool.rank_record]
    exact Pool.rank_put_lt slots (by simp [has, Worker.weight])
  | recordError i slot err has =>
    rw [Pool.rank_record]
    exact Pool.rank_put_lt slots (by simp [has, Worker.weight])
  | cancel i slot fails =>
    exact lt_of_le_of_lt (Pool.rank_cancel_le _ slots canceled)
      (Pool.rank_put_lt slots (by simp [fails, Worker.weight]))
  | exit i idle => exact Pool.rank_put_lt slots (by simp [idle, Worker.weight])

theorem Pool.Sound.progress (sound : p.Sound slots) (staffed : 0 < w ∨ slots = 0)
    (returns : ∀ slot < slots, ∀ done, ∃ result, job slot done result) (unfinished : ¬ p.Finished) :
    ∃ p', Step slots job canceled p p' ∧ p'.ctx = p.ctx := by
  -- a pool with work left can go on without the caller's help
  by_cases rest : ∀ i, p.workers i = .idle ∨ p.workers i = .exited
  · cases closed : p.closed with
    | false =>
      have idle : ∀ i, p.workers i = .idle := by
        intro i
        rcases rest i with idle | gone
        · exact idle
        · exact absurd (sound.shut i gone) (by simp [closed])
      rcases Nat.lt_or_ge p.next slots with more | all
      · obtain positive | none := staffed
        · exact ⟨_, .submit ⟨0, positive⟩ closed more (idle _), rfl⟩
        · omega
      · exact ⟨_, .finish closed (le_antisymm sound.accounted.bound all), rfl⟩
    | true =>
      have waiting : ∃ i, p.workers i = .idle := by
        by_contra none
        refine unfinished ⟨closed, fun i => (rest i).resolve_left fun idle => none ⟨i, idle⟩⟩
      obtain ⟨i, idle⟩ := waiting
      exact ⟨_, .exit i idle closed, rfl⟩
  · -- some worker has something to do
    simp only [not_forall, not_or] at rest
    obtain ⟨i, busy, here⟩ := rest
    cases phase : p.workers i with
    | idle => exact absurd phase busy
    | exited => exact absurd phase here
    | holding slot =>
      cases done : p.cancelled with
      | none => exact ⟨_, .run i slot phase done, rfl⟩
      | some cause => exact ⟨_, .skip i slot cause phase done, rfl⟩
    | running slot =>
      have submitted := (sound.accounted.submitted slot).mpr (.inr ⟨i, by simp [Pool.held, phase, Worker.slot]⟩)
      obtain ⟨result, may⟩ := returns slot (lt_of_lt_of_le submitted sound.accounted.bound) p.cancelled.isSome
      exact ⟨_, .ret i slot result phase may, rfl⟩
    | returned slot result =>
      cases result with
      | ok value => exact ⟨_, .recordOk i slot value phase, rfl⟩
      | error err => exact ⟨_, .recordError i slot err phase, rfl⟩
    | failing slot => exact ⟨_, .cancel i slot phase, rfl⟩

end Termination

section Runs

variable (slots job canceled)

abbrev Reaches : Pool w α E → Pool w α E → Prop := Relation.ReflTransGen (Step slots job canceled)

variable {slots job canceled}

theorem Reaches.sound (run : Reaches slots job canceled p p') (sound : p.Sound slots) : p'.Sound slots := by
  induction run with
  | refl => exact sound
  | tail _ step ih => exact step.sound ih

theorem Reaches.explained (run : Reaches slots job canceled p p') (explained : Explained job canceled p) :
    Explained job canceled p' := by
  induction run with
  | refl => exact explained
  | tail _ step ih => exact step.explained ih

theorem Pool.Finished.mem_recorded (finished : p.Finished) (sound : p.Sound slots) (slot : Nat) :
    slot ∈ p.recorded ↔ slot < p.next := by
  rw [sound.accounted.submitted slot]
  constructor
  · exact .inl
  · rintro (recorded | ⟨i, held⟩)
    · exact recorded
    · simp [Pool.held, finished.2 i, Worker.slot] at held

theorem reaches_recorded {i : Fin w} {value : α} (isOpen : p.closed = false) (more : p.next < slots)
    (idle : p.workers i = .idle) (live : p.cancelled = none) (may : job p.next false (.ok value)) :
    Reaches slots job canceled p { p with next := p.next + 1, results := p.results ++ [(p.next, .ok value)] } := by
  have submitted : Reaches slots job canceled p { p.put i (.holding p.next) with next := p.next + 1 } :=
    .single (.submit i isOpen more idle)
  have running := submitted.tail (.run i p.next (by simp [Pool.put]) live)
  have returned := running.tail (.ret i p.next (.ok value) (by simp [Pool.put]) (by simpa [live] using may))
  have recorded := returned.tail (.recordOk i p.next value (by simp [Pool.put]))
  have back : Function.update p.workers i .idle = p.workers := by rw [← idle, Function.update_eq_self]
  simpa [Pool.put, Pool.record, back] using recorded

theorem reaches_failed {i : Fin w} {err : E} (isOpen : p.closed = false) (more : p.next < slots)
    (idle : p.workers i = .idle) (live : p.cancelled = none) (may : job p.next false (.error err)) :
    Reaches slots job canceled p
      { p with next := p.next + 1, results := p.results ++ [(p.next, .error err)], cancelled := some canceled } := by
  have submitted : Reaches slots job canceled p { p.put i (.holding p.next) with next := p.next + 1 } :=
    .single (.submit i isOpen more idle)
  have running := submitted.tail (.run i p.next (by simp [Pool.put]) live)
  have returned := running.tail (.ret i p.next (.error err) (by simp [Pool.put]) (by simpa [live] using may))
  have recorded := returned.tail (.recordError i p.next err (by simp [Pool.put]))
  have cancelled := recorded.tail (.cancel i p.next (by simp [Pool.put, Pool.record]))
  have back : Function.update p.workers i .idle = p.workers := by rw [← idle, Function.update_eq_self]
  simpa [Pool.put, Pool.record, Pool.cancel, back, live] using cancelled

end Runs

end WorkerPool
