import CometArchive.Archive.Verify
import CometArchive.Shared.WorkerPool

set_option autoImplicit false

/-!
# The verification pools

`verifySegments` and `verifyCompletedMigrationSegments` as their goroutines run: a pool of workers under
every schedule, with the caller's context cancelled at any moment or never. `pending` lists the indexes of
the segments to check, and slot `k` of the pool is `pending[k]`. `check i done result` says what checking
segment `i` may return, with `done` telling whether its context was cancelled by then.
-/

namespace CometArchive.Archive

open GoError WorkerPool

variable {α : Type} {w : Nat}

def defaultSegmentConcurrencyCap : Nat := 8

def segmentConcurrency (maxProcs : Nat) (requested : Int) : Nat :=
  -- `segmentConcurrency`, with the value of `runtime.GOMAXPROCS(0)`
  if 0 < requested then requested.toNat else min (max maxProcs 1) defaultSegmentConcurrencyCap

def firstSegmentError (errs : List (Option Err)) (ctxErr : Option Err) : Option Err :=
  match errs.findSome? fun err => err.filter fun err => !err.is .contextCanceled with
  | some err => some err
  | none =>
    match ctxErr with
    | some err => some err
    | none => errs.findSome? id

def noteError (pending : List Nat) (errs : List (Option Err)) (entry : Nat × Except Err α) : List (Option Err) :=
  -- what a worker does to `errs` with its result
  match pending[entry.1]?, entry.2 with
  | some i, .error err => errs.set i (some err)
  | _, _ => errs

def segmentErrs (size : Nat) (pending : List Nat) (results : List (Nat × Except Err α)) : List (Option Err) :=
  results.foldl (noteError pending) (List.replicate size none)

def noteCounts (counts : Nat × Nat) (entry : Nat × Except Err Nat) : Nat × Nat :=
  -- what a worker adds to `segmentsChecked` and `blocksChecked`; nothing reads them before the end
  match entry.2 with
  | .ok blocks => (counts.1 + 1, counts.2 + blocks)
  | .error _ => counts

def verifySegmentsResult (size : Nat) (pending : List Nat) (p : Pool w Nat Err) : Except Err (Nat × Nat) :=
  match firstSegmentError (segmentErrs size pending p.results) p.ctx with
  | some err => .error err
  | none =>
    if p.next < pending.length then
      -- the branch on the workers' context: `return VerifyResult{}, ctx.Err()`
      match p.ctx with
      | some err => .error err
      | none => .ok (0, 0)
    else .ok (p.results.foldl noteCounts (0, 0))

def verifyCompletedMigrationSegmentsResult (size : Nat) (p : Pool w Unit Err) : Except Err Unit :=
  if size = 0 then .ok ()
  else match firstSegmentError (segmentErrs size (List.range size) p.results) p.ctx with
    | some err => .error err
    | none => .ok ()

def checkJob (pending : List Nat) (check : Nat → Bool → Except Err α → Prop) (slot : Nat) (done : Bool)
    (result : Except Err α) : Prop :=
  ∃ i, pending[slot]? = some i ∧ check i done result

section Errors

variable {errs : List (Option Err)} {ctxErr : Option Err} {err : Err}

theorem firstSegmentError_eq_none : firstSegmentError errs ctxErr = none ↔ ctxErr = none ∧ ∀ err, some err ∉ errs := by
  unfold firstSegmentError
  constructor
  · intro none
    split at none
    · cases none
    · split at none
      · cases none
      · refine ⟨rfl, fun err member => ?_⟩
        rw [List.findSome?_eq_none_iff] at none
        exact absurd (none _ member) (by simp)
  · rintro ⟨rfl, none⟩
    have empty : ∀ err ∈ errs, err = Option.none := by
      intro err member
      cases err with
      | none => rfl
      | some err => exact absurd member (none err)
    have real : (errs.findSome? fun err => err.filter fun err => !err.is .contextCanceled) = Option.none := by
      rw [List.findSome?_eq_none_iff]
      intro err member
      simp [empty err member]
    simp only [real, List.findSome?_eq_none_iff]
    exact empty

theorem firstSegmentError_real (real : ∃ err, some err ∈ errs ∧ err.is .contextCanceled = false)
    (first : firstSegmentError errs ctxErr = some err) : some err ∈ errs ∧ err.is .contextCanceled = false := by
  unfold firstSegmentError at first
  split at first
  next other found =>
    cases first
    obtain ⟨entry, member, kept⟩ := List.exists_of_findSome?_eq_some found
    rw [Option.filter_eq_some_iff] at kept
    obtain ⟨rfl, real⟩ := kept
    exact ⟨member, by simpa using real⟩
  next none =>
    obtain ⟨other, member, real⟩ := real
    rw [List.findSome?_eq_none_iff] at none
    exact absurd (none _ member) (by simp [Option.filter, real])

end Errors

section Recorded

variable {size : Nat} {pending : List Nat} {results : List (Nat × Except Err α)}

structure Indexes (size : Nat) (pending : List Nat) : Prop where
  -- the indexes `pendingSegments` lists: some of the manifest's, in order
  distinct : pending.Nodup
  inside : ∀ i ∈ pending, i < size

theorem indexes_filter_range (size : Nat) (unverified : Nat → Bool) :
    Indexes size ((List.range size).filter unverified) where
  distinct := List.nodup_range.filter _
  inside := by
    intro i member
    simpa using (List.mem_filter.mp member).1

theorem noteError_ok (pending : List Nat) (errs : List (Option Err)) (slot : Nat) (value : α) :
    noteError pending errs (slot, .ok value) = errs := by
  unfold noteError
  split <;> simp_all

theorem noteError_error (errs : List (Option Err)) (entry : Nat × Except Err α) {err : Err} (failed : entry.2 = .error err) :
    noteError pending errs entry = (pending[entry.1]?).elim errs fun i => errs.set i (some err) := by
  unfold noteError
  rw [failed]
  cases pending[entry.1]? <;> rfl

theorem length_segmentErrs (size : Nat) (pending : List Nat) (results : List (Nat × Except Err α)) :
    (segmentErrs size pending results).length = size := by
  induction results using List.reverseRecOn with
  | nil => simp [segmentErrs]
  | append_singleton results entry ih =>
    rw [segmentErrs, List.foldl_append, List.foldl_cons, List.foldl_nil, noteError]
    split
    · rwa [List.length_set]
    · exact ih

theorem getElem?_segmentErrs (indexes : Indexes size pending) (once : (results.map Prod.fst).Nodup) (i : Nat) (err : Err) :
    (segmentErrs size pending results)[i]? = some (some err) ↔
      ∃ slot, pending[slot]? = some i ∧ (slot, .error err) ∈ results := by
  induction results using List.reverseRecOn with
  | nil => simp [segmentErrs, List.getElem?_replicate]
  | append_singleton results entry ih =>
    obtain ⟨slot, result⟩ := entry
    rw [List.map_append, List.nodup_append] at once
    obtain ⟨once, -, fresh⟩ := once
    specialize ih once
    have before : segmentErrs size pending (results ++ [(slot, result)]) =
        noteError pending (segmentErrs size pending results) (slot, result) := by
      rw [segmentErrs, List.foldl_append]
      rfl
    have unrecorded : ∀ other, (slot, other) ∉ results := by
      intro other member
      exact fresh slot (List.mem_map_of_mem member) slot (by simp) rfl
    rw [before]
    cases result with
    | ok value =>
      rw [noteError_ok, ih]
      simp
    | error reason =>
      rw [noteError_error _ _ rfl]
      cases place : pending[slot]? with
      | none =>
        rw [Option.elim_none, ih]
        constructor
        · rintro ⟨other, found, member⟩
          exact ⟨other, found, List.mem_append_left _ member⟩
        · rintro ⟨other, found, member⟩
          rcases List.mem_append.mp member with old | new
          · exact ⟨other, found, old⟩
          · cases List.mem_singleton.mp new
            rw [place] at found
            cases found
      | some index =>
        have inside := indexes.inside index (List.mem_of_getElem? place)
        rw [Option.elim_some, List.getElem?_set, length_segmentErrs]
        -- only this slot stands for the index
        have own : ∀ other, pending[other]? = some index → other = slot := by
          intro other found
          have bound := (List.getElem?_eq_some_iff.mp found).1
          exact (List.getElem?_inj bound indexes.distinct).mp (found.trans place.symm)
        by_cases here : index = i
        · subst here
          rw [if_pos rfl, if_pos inside, Option.some.injEq, Option.some.injEq]
          constructor
          · rintro rfl
            exact ⟨slot, place, by simp⟩
          · rintro ⟨other, found, member⟩
            cases own other found
            rcases List.mem_append.mp member with old | new
            · exact absurd old (unrecorded _)
            · cases List.mem_singleton.mp new
              rfl
        · rw [if_neg here, ih]
          constructor
          · rintro ⟨other, found, member⟩
            exact ⟨other, found, List.mem_append_left _ member⟩
          · rintro ⟨other, found, member⟩
            rcases List.mem_append.mp member with old | new
            · exact ⟨other, found, old⟩
            · cases List.mem_singleton.mp new
              rw [place] at found
              exact absurd (Option.some.inj found) here

theorem mem_segmentErrs (indexes : Indexes size pending) (once : (results.map Prod.fst).Nodup) (err : Err) :
    some err ∈ segmentErrs size pending results ↔ ∃ slot < pending.length, (slot, .error err) ∈ results := by
  rw [List.mem_iff_getElem?]
  simp only [getElem?_segmentErrs indexes once]
  constructor
  · rintro ⟨i, slot, found, member⟩
    exact ⟨slot, (List.getElem?_eq_some_iff.mp found).1, member⟩
  · rintro ⟨slot, bound, member⟩
    exact ⟨pending.get ⟨slot, bound⟩, slot, List.getElem?_eq_getElem bound, member⟩

end Recorded

section Outcomes

variable {size : Nat} {pending : List Nat} {check : Nat → Bool → Except Err α → Prop} {p : Pool w α Err}

/-- A check returns `context.Canceled` only when its context is cancelled. -/
def Honest (check : Nat → Bool → Except Err α → Prop) : Prop :=
  ∀ i err, check i false (.error err) → err.is .contextCanceled = false

structure Settled (size : Nat) (pending : List Nat) (check : Nat → Bool → Except Err α → Prop) (p : Pool w α Err) : Prop where
  indexes : Indexes size pending
  sound : p.Sound pending.length
  explained : Explained (checkJob pending check) (.sentinel .contextCanceled) p
  finished : p.Finished

namespace Settled

theorem slot_lt (settled : Settled size pending check p) {slot : Nat} {result : Except Err α}
    (member : (slot, result) ∈ p.results) : slot < pending.length := by
  have recorded := (settled.finished.mem_recorded settled.sound slot).mp (List.mem_map_of_mem member)
  exact lt_of_lt_of_le recorded settled.sound.accounted.bound

theorem mem_errs (settled : Settled size pending check p) (err : Err) :
    some err ∈ segmentErrs size pending p.results ↔ ∃ slot, (slot, .error err) ∈ p.results := by
  rw [mem_segmentErrs settled.indexes settled.sound.accounted.once]
  constructor
  · rintro ⟨slot, -, member⟩
    exact ⟨slot, member⟩
  · rintro ⟨slot, member⟩
    exact ⟨slot, settled.slot_lt member, member⟩

theorem failed (settled : Settled size pending check p) (live : p.ctx = none) {slot : Nat} {err : Err}
    (member : (slot, .error err) ∈ p.results) :
    ∃ slot err, (slot, .error err) ∈ p.results ∧ checkJob pending check slot false (.error err) := by
  -- a recorded error means that some check failed with its context alive, unless the caller gave up
  have done : p.cancelled ≠ none := by
    rcases settled.explained.erring slot err member with done | ⟨i, failing⟩
    · exact done
    · rw [settled.finished.2 i] at failing
      cases failing
  exact (settled.explained.cause done).resolve_left (not_not.mpr live)

theorem complete (settled : Settled size pending check p)
    (none : firstSegmentError (segmentErrs size pending p.results) p.ctx = none) :
    p.next = pending.length ∧
      ∀ slot < pending.length, ∃ value done, (slot, .ok value) ∈ p.results ∧ checkJob pending check slot done (.ok value) := by
  obtain ⟨live, clean⟩ := firstSegmentError_eq_none.mp none
  have passed : ∀ slot err, (slot, .error err) ∉ p.results := fun slot err member =>
    clean err ((settled.mem_errs err).mpr ⟨slot, member⟩)
  have all : p.next = pending.length := by
    by_contra fewer
    have stopped := settled.sound.stopped settled.finished.1 (lt_of_le_of_ne settled.sound.accounted.bound fewer)
    rcases settled.explained.cause stopped with caller | ⟨slot, err, member, -⟩
    · exact caller live
    · exact passed slot err member
  refine ⟨all, fun slot bound => ?_⟩
  have recorded := (settled.finished.mem_recorded settled.sound slot).mpr (all ▸ bound)
  obtain ⟨⟨_, result⟩, member, rfl⟩ := List.mem_map.mp recorded
  cases result with
  | error err => exact absurd member (passed _ err)
  | ok value =>
    rcases settled.explained.origin _ _ member with ⟨done, job⟩ | ⟨err, failed, -⟩
    · exact ⟨value, done, member, job⟩
    · cases failed

theorem real (settled : Settled size pending check p) (honest : Honest check) (live : p.ctx = none) {err : Err}
    (first : firstSegmentError (segmentErrs size pending p.results) p.ctx = some err) :
    err.is .contextCanceled = false ∧ ∃ i ∈ pending, ∃ done, check i done (.error err) := by
  have some : ∃ err, some err ∈ segmentErrs size pending p.results := by
    by_contra none
    have empty := firstSegmentError_eq_none.mpr ⟨live, fun err member => none ⟨err, member⟩⟩
    rw [empty] at first
    cases first
  obtain ⟨other, member⟩ := some
  obtain ⟨slot, recorded⟩ := (settled.mem_errs other).mp member
  obtain ⟨source, cause, kept, i, place, job⟩ := settled.failed live recorded
  have real := firstSegmentError_real ⟨cause, (settled.mem_errs cause).mpr ⟨source, kept⟩, honest i cause job⟩ first
  obtain ⟨slot, recorded⟩ := (settled.mem_errs err).mp real.1
  refine ⟨real.2, ?_⟩
  rcases settled.explained.origin slot _ recorded with ⟨done, i, place, job⟩ | ⟨reason, same, done⟩
  · exact ⟨i, List.mem_of_getElem? place, done, job⟩
  · -- a worker that found the context done records a cancellation
    cases same
    rcases settled.explained.live live with none | canceled
    · rw [none] at done
      cases done
    · rw [canceled] at done
      cases done
      exact absurd real.2 (by simp)

theorem succeeds (settled : Settled size pending check p) (live : p.ctx = none)
    (passes : ∀ i ∈ pending, ∀ err, ¬ check i false (.error err)) :
    firstSegmentError (segmentErrs size pending p.results) p.ctx = none := by
  refine firstSegmentError_eq_none.mpr ⟨live, fun err member => ?_⟩
  obtain ⟨slot, recorded⟩ := (settled.mem_errs err).mp member
  obtain ⟨source, cause, -, i, place, job⟩ := settled.failed live recorded
  exact passes i (List.mem_of_getElem? place) cause job

end Settled

end Outcomes

section Counts

variable {pending : List Nat} {check : Nat → Bool → Except Err Nat → Prop} {size : Nat} {p : Pool w Nat Err}

def blocksOf (entry : Nat × Except Err Nat) : Nat :=
  match entry.2 with
  | .ok blocks => blocks
  | .error _ => 0

theorem foldl_noteCounts {results : List (Nat × Except Err Nat)} (passed : ∀ entry ∈ results, ∃ blocks, entry.2 = .ok blocks)
    (counts : Nat × Nat) :
    results.foldl noteCounts counts = (counts.1 + results.length, counts.2 + (results.map blocksOf).sum) := by
  induction results generalizing counts with
  | nil => simp
  | cons entry rest ih =>
    obtain ⟨blocks, ok⟩ := passed entry (by simp)
    rw [List.foldl_cons, ih fun other member => passed other (List.mem_cons_of_mem _ member)]
    simp only [noteCounts, blocksOf, ok, List.length_cons, List.map_cons, List.sum_cons, Prod.mk.injEq]
    omega

theorem Settled.counted (settled : Settled size pending check p)
    (none : firstSegmentError (segmentErrs size pending p.results) p.ctx = none) :
    ∃ counts : Nat → Nat, (∀ slot < pending.length, ∃ done, checkJob pending check slot done (.ok (counts slot))) ∧
      p.results.foldl noteCounts (0, 0) = (pending.length, ∑ slot ∈ Finset.range pending.length, counts slot) := by
  obtain ⟨all, checked⟩ := settled.complete none
  choose! counts done recorded jobs using checked
  -- the results are the slots in some order, each with its count
  have perm : p.results.Perm ((List.range pending.length).map fun slot => (slot, .ok (counts slot))) := by
    have once := settled.sound.accounted.once
    refine (List.perm_ext_iff_of_nodup (List.Nodup.of_map _ once) ?_).mpr fun entry => ?_
    · exact List.Nodup.map (fun _ _ same => (Prod.mk.inj same).1) List.nodup_range
    · obtain ⟨slot, result⟩ := entry
      simp only [List.mem_map, List.mem_range, Prod.mk.injEq]
      constructor
      · intro member
        have bound := settled.slot_lt member
        refine ⟨slot, bound, rfl, ?_⟩
        exact (Prod.mk.inj (List.inj_on_of_nodup_map once (recorded slot bound) member rfl)).2
      · rintro ⟨other, bound, rfl, rfl⟩
        exact recorded other bound
  refine ⟨counts, fun slot bound => ⟨done slot, jobs slot bound⟩, ?_⟩
  rw [foldl_noteCounts]
  · have sum := (perm.map blocksOf).sum_eq
    have total : ((List.range pending.length).map counts).sum = ∑ slot ∈ Finset.range pending.length, counts slot := rfl
    rw [perm.length_eq, sum, List.length_map, List.length_range, List.map_map, ← total, zero_add, zero_add]
    rfl
  · intro entry member
    have listed := perm.mem_iff.mp member
    simp only [List.mem_map] at listed
    obtain ⟨slot, -, rfl⟩ := listed
    exact ⟨_, rfl⟩

end Counts

/-- How a call may end once its workers have left: a value that is `good`; an error that, while the caller's
context is live, is a segment's own; a value if no check fails and the context stays live. -/
def Exact {α β : Type} (pending : List Nat) (check : Nat → Bool → Except Err α → Prop) (good : β → Prop)
    (outcome : Except Err β) (ctx : Option Err) : Prop :=
  (∀ value, outcome = .ok value → good value) ∧
    (∀ err, outcome = .error err → ctx = none →
      err.is .contextCanceled = false ∧ ∃ i ∈ pending, ∃ done, check i done (.error err)) ∧
    (ctx = none → (∀ i ∈ pending, ∀ err, ¬ check i false (.error err)) → ∃ value, outcome = .ok value)

def Ends {α : Type} {w : Nat} (slots : Nat) (job : Nat → Bool → Except Err α → Prop) (p : Pool w α Err) : Prop :=
  (¬ p.Finished → ∃ p', Step slots job (.sentinel .contextCanceled) p p' ∧ p'.ctx = p.ctx) ∧
    ∀ p', Step slots job (.sentinel .contextCanceled) p p' → p'.rank slots < p.rank slots

theorem workers_staffed (maxProcs : Nat) (requested : Int) (slots : Nat) :
    0 < min (segmentConcurrency maxProcs requested) slots ∨ slots = 0 := by
  unfold segmentConcurrency defaultSegmentConcurrencyCap
  split <;> omega

theorem checkJob_returns (pending : List Nat) {check : Nat → Bool → Except Err α → Prop}
    (returns : ∀ i ∈ pending, ∀ done, ∃ result, check i done result) :
    ∀ slot < pending.length, ∀ done, ∃ result, checkJob pending check slot done result := by
  intro slot bound done
  obtain ⟨result, may⟩ := returns _ (List.getElem_mem bound) done
  exact ⟨result, _, List.getElem?_eq_getElem bound, may⟩

/-- Both pools, under every schedule and with the caller giving up at any moment or never. -/
theorem segment_pools_exact (maxProcs : Nat) (requested : Int) (size : Nat) :
    (∀ (unverified : Nat → Bool) (check : Nat → Bool → Except Err Nat → Prop) (pending : List Nat)
      (p : Pool (min (segmentConcurrency maxProcs requested) pending.length) Nat Err),
      pending = (List.range size).filter unverified → Honest check →
      Reaches pending.length (checkJob pending check) (.sentinel .contextCanceled) (Pool.start _ Nat Err) p →
      (p.Finished → Exact pending check
        (fun result => result.1 = pending.length ∧ ∃ counts : Nat → Nat,
          (∀ slot < pending.length, ∃ done, checkJob pending check slot done (.ok (counts slot))) ∧
          result.2 = ∑ slot ∈ Finset.range pending.length, counts slot)
        (verifySegmentsResult size pending p) p.ctx) ∧
      ((∀ i ∈ pending, ∀ done, ∃ result, check i done result) → Ends pending.length (checkJob pending check) p)) ∧
    ∀ (check : Nat → Bool → Except Err Unit → Prop)
      (p : Pool (min (segmentConcurrency maxProcs requested) size) Unit Err),
      Honest check →
      Reaches size (checkJob (List.range size) check) (.sentinel .contextCanceled) (Pool.start _ Unit Err) p →
      (p.Finished → Exact (List.range size) check (fun _ => ∀ i < size, ∃ done, check i done (.ok ()))
        (verifyCompletedMigrationSegmentsResult size p) p.ctx) ∧
      ((∀ i < size, ∀ done, ∃ result, check i done result) → Ends size (checkJob (List.range size) check) p) := by
  refine ⟨?_, ?_⟩
  · intro unverified check pending p same honest run
    have indexes : Indexes size pending := same ▸ indexes_filter_range size unverified
    have sound := run.sound (Pool.sound_start _)
    refine ⟨fun finished => ?_, fun returns => ⟨fun unfinished => ?_, fun p' step => step.rank_lt⟩⟩
    case refine_2 => exact sound.progress (workers_staffed ..) (checkJob_returns pending returns) unfinished
    have settled : Settled size pending check p := ⟨indexes, sound, run.explained .start, finished⟩
    unfold verifySegmentsResult
    cases first : firstSegmentError (segmentErrs size pending p.results) p.ctx with
    | some err =>
      refine ⟨by simp, ?_, ?_⟩
      · intro other same live
        cases same
        exact settled.real honest live first
      · intro live passes
        rw [settled.succeeds live passes] at first
        cases first
    | none =>
      obtain ⟨counts, checked, total⟩ := settled.counted first
      have all := (settled.complete first).1
      simp only [all, lt_self_iff_false, if_false, total]
      refine ⟨?_, by simp, fun _ _ => ⟨_, rfl⟩⟩
      rintro value same
      cases same
      exact ⟨rfl, counts, checked, rfl⟩
  · intro check p honest run
    have sound := run.sound (Pool.sound_start _)
    refine ⟨fun finished => ?_, fun returns => ⟨fun unfinished => ?_, fun p' step => step.rank_lt⟩⟩
    case refine_2 =>
      have jobs := checkJob_returns (List.range size) fun i member => returns i (List.mem_range.mp member)
      rw [List.length_range] at jobs
      exact sound.progress (workers_staffed ..) jobs unfinished
    have indexes : Indexes size (List.range size) := ⟨List.nodup_range, fun i member => List.mem_range.mp member⟩
    have settled : Settled size (List.range size) check p :=
      ⟨indexes, by rwa [List.length_range], run.explained .start, finished⟩
    unfold verifyCompletedMigrationSegmentsResult
    split
    next empty =>
      subst empty
      exact ⟨fun _ _ i below => absurd below (by omega), by simp, fun _ _ => ⟨_, rfl⟩⟩
    next =>
      cases first : firstSegmentError (segmentErrs size (List.range size) p.results) p.ctx with
      | some err =>
        refine ⟨by simp, ?_, ?_⟩
        · intro other same live
          cases same
          exact settled.real honest live first
        · intro live passes
          rw [settled.succeeds live passes] at first
          cases first
      | none =>
        refine ⟨fun _ _ i below => ?_, by simp, fun _ _ => ⟨_, rfl⟩⟩
        obtain ⟨value, done, -, j, place, checked⟩ := (settled.complete first).2 i (by rwa [List.length_range])
        rw [List.getElem?_range below] at place
        cases place
        exact ⟨done, checked⟩

-- the third segment is corrupt, and its neighbour notices when its context is cancelled
def corruptCheck (i : Nat) (done : Bool) (result : Except Err Nat) : Prop :=
  result = if i = 2 then .error (.new "segment checksum mismatch")
    else if done then .error (.sentinel .contextCanceled) else .ok 3

theorem corruptCheck_honest : Honest corruptCheck := by
  intro i err failed
  unfold corruptCheck at failed
  split at failed
  next => cases failed; decide
  next => cases failed

theorem reaches_corrupted :
    ∃ p, Reaches 2 (checkJob [1, 2] corruptCheck) (.sentinel .contextCanceled) (Pool.start 2 Nat Err) p ∧
      p.Finished ∧ p.ctx = none ∧
      p.results = [(1, .error (.new "segment checksum mismatch")), (0, .error (.sentinel .contextCanceled))] := by
  -- two workers: the second finds the corrupt segment while the first is still checking its own
  have taken : Reaches 2 (checkJob [1, 2] corruptCheck) (.sentinel .contextCanceled) (Pool.start 2 Nat Err) _ :=
    .single (.submit 0 rfl (by decide) rfl)
  have running := taken.tail (.run 0 0 rfl rfl)
  have failed := running.trans (reaches_failed (i := 1) rfl (by decide) rfl rfl ⟨2, rfl, rfl⟩)
  have canceled : corruptCheck 1 true (.error (.sentinel .contextCanceled)) := rfl
  have noticed := failed.tail (.ret 0 0 _ rfl ⟨1, rfl, canceled⟩)
  have recorded := (noticed.tail (.recordError 0 0 _ rfl)).tail (.cancel 0 0 rfl)
  have left := ((recorded.tail (.finish rfl rfl)).tail (.exit 0 rfl rfl)).tail (.exit 1 rfl rfl)
  exact ⟨_, left, ⟨rfl, Fin.forall_fin_two.mpr ⟨rfl, rfl⟩⟩, rfl, rfl⟩

theorem segment_pools_exact_corrupt :
    ∃ p, Reaches 2 (checkJob [1, 2] corruptCheck) (.sentinel .contextCanceled) (Pool.start 2 Nat Err) p ∧
      verifySegmentsResult 3 [1, 2] p = .error (.new "segment checksum mismatch") ∧
      ∃ i ∈ [1, 2], ∃ done, corruptCheck i done (.error (.new "segment checksum mismatch")) := by
  -- the corrupt segment's own error is returned, though a cancelled check stands before it
  obtain ⟨p, run, finished, live, results⟩ := reaches_corrupted
  have outcome : verifySegmentsResult 3 [1, 2] p = .error (.new "segment checksum mismatch") := by
    rw [verifySegmentsResult, results, live]
    rfl
  have exact := ((segment_pools_exact 4 2 3).1 (fun i => i ≠ 0) corruptCheck [1, 2] p rfl corruptCheck_honest run).1 finished
  exact ⟨p, run, outcome, (exact.2.1 _ outcome live).2⟩

end CometArchive.Archive
