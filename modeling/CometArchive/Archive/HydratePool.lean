import CometArchive.Archive.Hydrate
import CometArchive.Archive.PruneSafety
import CometArchive.Archive.VerifyPool

set_option autoImplicit false

/-!
# The hydration pipeline

The goroutines of `Hydrate`: a submitter and workers as in the verification pools, and a writer that takes
the results slot by slot. Each slot has a channel of one result, which stands in the pool's results until
the writer has come to the slot. `fetch slot done result` says what fetching and decoding the segment of
a slot may return, `disk err` which errors writing a block may return.
-/

namespace CometArchive.Archive

open GoBytes GoError WorkerPool Programs

inductive HydrateWriter where
  | waiting (slot : Nat)
  | writing (slot : Nat) (left : List BlockRecord)
  | finishing (writeErr : Option Err)  -- out of the loop, before the last `cancel`
  | draining (writeErr : Option Err)
  | returned (err : Option Err)

def HydrateWriter.slot : HydrateWriter → Option Nat
  | .waiting slot => some slot
  | .writing slot _ => some slot
  | _ => none

structure Hydration (w : Nat) where
  pool : Pool w (List BlockRecord) Err
  writer : HydrateWriter
  worked : List BlockRecord  -- the records the writer is through with

def Hydration.start (w slots : Nat) : Hydration w where
  -- with no segment in the range `Hydrate` returns before it starts any goroutine
  pool := Pool.start w _ _
  writer := if slots = 0 then .returned none else .waiting 0
  worked := []

def nextSlot (slots slot : Nat) : HydrateWriter :=
  if slot + 1 < slots then .waiting (slot + 1) else .finishing none

variable {w : Nat} (slots : Nat) (fetch : Nat → Bool → Except Err (List BlockRecord) → Prop) (disk : Err → Prop)

inductive HydrateStep (h : Hydration w) : Hydration w → Prop
  | goroutine (p : Pool w (List BlockRecord) Err) (step : Step slots fetch (.sentinel .contextCanceled) h.pool p) :
    HydrateStep h { h with pool := p }
  | giveUp (slot : Nat) (err : Err) (waits : h.writer = .waiting slot) (done : h.pool.ctx = some err) :
    HydrateStep h { h with writer := .finishing (some err) }
  | consume (slot : Nat) (records : List BlockRecord) (waits : h.writer = .waiting slot)
    (ready : (slot, .ok records) ∈ h.pool.results) : HydrateStep h { h with writer := .writing slot records }
  | consumeError (slot : Nat) (err : Err) (waits : h.writer = .waiting slot)
    (ready : (slot, .error err) ∈ h.pool.results) : HydrateStep h { h with writer := .finishing (some err) }
  | write (slot : Nat) (record : BlockRecord) (rest : List BlockRecord) (writes : h.writer = .writing slot (record :: rest)) :
    HydrateStep h { h with writer := .writing slot rest, worked := h.worked ++ [record] }
  | writeError (slot : Nat) (record : BlockRecord) (rest : List BlockRecord) (err : Err)
    (writes : h.writer = .writing slot (record :: rest)) (fails : disk err ∨ h.pool.ctx = some err) :
    HydrateStep h { h with writer := .finishing (some err) }
  | wrote (slot : Nat) (writes : h.writer = .writing slot []) : HydrateStep h { h with writer := nextSlot slots slot }
  | cancel (writeErr : Option Err) (leaves : h.writer = .finishing writeErr) :
    HydrateStep h { h with pool := h.pool.cancel (.sentinel .contextCanceled), writer := .draining writeErr }
  | ret (writeErr : Option Err) (drains : h.writer = .draining writeErr) (gone : ∀ i, h.pool.workers i = .exited) :
    HydrateStep h { h with writer := .returned writeErr }

abbrev HydrateReaches : Hydration w → Hydration w → Prop := Relation.ReflTransGen (HydrateStep slots fetch disk)

variable {slots fetch disk} {h h' : Hydration w}

/-- As long as the writer is in its loop, only workers cancel, and the slots before its own were good. -/
structure InLoop (slots : Nat) (fetch : Nat → Bool → Except Err (List BlockRecord) → Prop)
    (p : Pool w (List BlockRecord) Err) (slot : Nat) : Prop where
  explained : Explained fetch (.sentinel .contextCanceled) p
  inside : slot < slots
  good : ∀ earlier < slot, ∃ records, (earlier, .ok records) ∈ p.results

structure Piped (slots : Nat) (fetch : Nat → Bool → Except Err (List BlockRecord) → Prop) (h : Hydration w) : Prop where
  sound : h.pool.Sound slots
  inLoop : ∀ slot, h.writer.slot = some slot → InLoop slots fetch h.pool slot
  written : ∀ slot left, h.writer = .writing slot left → ∃ records, (slot, .ok records) ∈ h.pool.results

theorem piped_start (w slots : Nat) : Piped slots fetch (Hydration.start w slots) := by
  unfold Hydration.start
  split
  · exact ⟨Pool.sound_start slots, by simp [HydrateWriter.slot], by simp⟩
  · refine ⟨Pool.sound_start slots, ?_, by simp⟩
    intro slot here
    cases here
    exact ⟨.start, by omega, by simp⟩

theorem HydrateStep.piped (step : HydrateStep slots fetch disk h h') (piped : Piped slots fetch h) :
    Piped slots fetch h' := by
  obtain ⟨sound, inLoop, written⟩ := piped
  cases step with
  | goroutine p step =>
    refine ⟨step.sound sound, ?_, ?_⟩
    · intro slot here
      obtain ⟨explained, inside, good⟩ := inLoop slot here
      exact ⟨step.explained explained, inside, fun earlier before => (good earlier before).imp fun _ => (step.results_subset ·)⟩
    · intro slot left writes
      exact (written slot left writes).imp fun _ => (step.results_subset ·)
  | giveUp slot err waits done => exact ⟨sound, by simp [HydrateWriter.slot], by simp⟩
  | consume slot records waits ready =>
    refine ⟨sound, ?_, ?_⟩
    · intro other here
      cases here
      exact inLoop slot (by rw [waits]; rfl)
    · intro other left writes
      cases writes
      exact ⟨_, ready⟩
  | consumeError slot err waits ready => exact ⟨sound, by simp [HydrateWriter.slot], by simp⟩
  | write slot record rest writes =>
    refine ⟨sound, ?_, ?_⟩
    · intro other here
      cases here
      exact inLoop slot (by rw [writes]; rfl)
    · intro other left now
      cases now
      exact written slot _ writes
  | writeError slot record rest err writes fails => exact ⟨sound, by simp [HydrateWriter.slot], by simp⟩
  | wrote slot writes =>
    obtain ⟨explained, inside, good⟩ := inLoop slot (by rw [writes]; rfl)
    obtain ⟨records, ready⟩ := written slot _ writes
    unfold nextSlot
    split
    next more =>
      refine ⟨sound, ?_, by simp⟩
      intro other here
      cases here
      refine ⟨explained, more, fun earlier before => ?_⟩
      rcases Nat.lt_succ_iff_lt_or_eq.mp before with earlier | rfl
      · exact good _ earlier
      · exact ⟨records, ready⟩
    next => exact ⟨sound, by simp [HydrateWriter.slot], by simp⟩
  | cancel writeErr leaves => exact ⟨sound.cancel _, by simp [HydrateWriter.slot], by simp⟩
  | ret writeErr drains gone => exact ⟨sound, by simp [HydrateWriter.slot], by simp⟩

theorem HydrateReaches.piped (run : HydrateReaches slots fetch disk (.start w slots) h) : Piped slots fetch h := by
  induction run with
  | refl => exact piped_start w slots
  | tail _ step ih => exact step.piped ih

namespace Piped

theorem ahead (piped : Piped slots fetch h) {slot failed : Nat} {err : Err} (here : h.writer.slot = some slot)
    (recorded : (failed, .error err) ∈ h.pool.results) : slot ≤ failed := by
  by_contra behind
  obtain ⟨records, good⟩ := (piped.inLoop slot here).good failed (by omega)
  have same := List.inj_on_of_nodup_map piped.sound.accounted.once recorded good rfl
  cases same

theorem submitted (piped : Piped slots fetch h) {slot : Nat} (here : h.writer.slot = some slot)
    (live : h.pool.ctx = none) :
    slot < h.pool.next ∨ h.pool.next ≤ slot ∧ h.pool.closed = false ∧ h.pool.cancelled = none := by
  obtain ⟨explained, inside, -⟩ := piped.inLoop slot here
  by_cases past : slot < h.pool.next
  · exact .inl past
  · refine .inr ⟨by omega, ?_⟩
    have running : h.pool.cancelled = none := by
      by_contra done
      obtain ⟨failed, err, recorded, -⟩ := (explained.cause done).resolve_left (not_not.mpr live)
      have ahead := piped.ahead here recorded
      have below := (piped.sound.accounted.submitted failed).mpr (.inl (List.mem_map_of_mem recorded))
      omega
    refine ⟨?_, running⟩
    by_contra closed
    exact piped.sound.stopped (by simpa using closed) (by omega) running

theorem stopped (piped : Piped slots fetch h) {slot unsubmitted : Nat} (here : h.writer.slot = some slot)
    (live : h.pool.ctx = none) (closed : h.pool.closed = true) (inside : unsubmitted < slots)
    (never : h.pool.next ≤ unsubmitted) :
    ∃ failed err, (failed, .error err) ∈ h.pool.results ∧ slot ≤ failed ∧ failed < unsubmitted := by
  -- where the submitter stopped early for a live caller, an error is ahead of the writer
  have done := piped.sound.stopped closed (by omega)
  obtain ⟨failed, err, recorded, -⟩ :=
    ((piped.inLoop slot here).explained.cause done).resolve_left (not_not.mpr live)
  have below := (piped.sound.accounted.submitted failed).mpr (.inl (List.mem_map_of_mem recorded))
  exact ⟨failed, err, recorded, piped.ahead here recorded, by omega⟩

theorem progress (piped : Piped slots fetch h) (disk : Err → Prop) (staffed : 0 < w ∨ slots = 0)
    (returns : ∀ slot < slots, ∀ done, ∃ result, fetch slot done result) (running : ∀ err, h.writer ≠ .returned err) :
    ∃ h', HydrateStep slots fetch disk h h' ∧ h'.pool.ctx = h.pool.ctx := by
  by_cases finished : h.pool.Finished
  · cases writer : h.writer with
    | waiting slot =>
      cases live : h.pool.ctx with
      | some err => exact ⟨_, .giveUp slot err writer live, live⟩
      | none =>
        -- the workers have left, so the slot is recorded
        have here : h.writer.slot = some slot := by rw [writer]; rfl
        have past : slot < h.pool.next := by
          rcases piped.submitted here live with past | ⟨-, isOpen, -⟩
          · exact past
          · rw [finished.1] at isOpen
            cases isOpen
        have recorded := (finished.mem_recorded piped.sound slot).mpr past
        obtain ⟨⟨_, result⟩, member, rfl⟩ := List.mem_map.mp recorded
        cases result with
        | ok records => exact ⟨_, .consume _ records writer member, live⟩
        | error err => exact ⟨_, .consumeError _ err writer member, live⟩
    | writing slot left =>
      cases left with
      | nil => exact ⟨_, .wrote slot writer, rfl⟩
      | cons record rest => exact ⟨_, .write slot record rest writer, rfl⟩
    | finishing writeErr => exact ⟨_, .cancel writeErr writer, rfl⟩
    | draining writeErr => exact ⟨_, .ret writeErr writer finished.2, rfl⟩
    | returned err => exact absurd writer (running err)
  · obtain ⟨p, step, same⟩ := piped.sound.progress staffed returns finished
    exact ⟨_, .goroutine p step, same⟩

end Piped

section Termination

def HydrateWriter.rank (slots : Nat) : HydrateWriter → Nat × Nat
  -- what is left of the writer's work: its place, and the records at hand
  | .waiting slot => (2 * (slots - slot) + 4, 0)
  | .writing slot left => (2 * (slots - slot) + 3, left.length)
  | .finishing _ => (2, 0)
  | .draining _ => (1, 0)
  | .returned _ => (0, 0)

def Hydration.rank (slots : Nat) (h : Hydration w) : Nat × (Nat × Nat) := (h.pool.rank slots, h.writer.rank slots)

/-- Lexicographic, since only the result tells how many records a slot has. -/
def RankLt : Nat × (Nat × Nat) → Nat × (Nat × Nat) → Prop := Prod.Lex (· < ·) (Prod.Lex (· < ·) (· < ·))

theorem rankLt_wf : WellFounded RankLt :=
  WellFounded.prod_lex Nat.lt_wfRel.wf (WellFounded.prod_lex Nat.lt_wfRel.wf Nat.lt_wfRel.wf)

theorem HydrateStep.rank_lt (step : HydrateStep slots fetch disk h h') : RankLt (h'.rank slots) (h.rank slots) := by
  -- a step of the writer leaves the pool's number as it is
  have writer : ∀ writer : HydrateWriter, Prod.Lex (· < ·) (· < ·) (writer.rank slots) (h.writer.rank slots) →
      RankLt (({ h with writer } : Hydration w).rank slots) (h.rank slots) := fun _ lower => .right _ lower
  cases step with
  | goroutine p step => exact .left _ _ step.rank_lt
  | giveUp slot err waits => exact writer _ (by rw [waits]; exact .left _ _ (by omega))
  | consume slot records waits => exact writer _ (by rw [waits]; exact .left _ _ (by omega))
  | consumeError slot err waits => exact writer _ (by rw [waits]; exact .left _ _ (by omega))
  | write slot record rest writes => exact writer _ (by rw [writes]; exact .right _ (by simp))
  | writeError slot record rest err writes => exact writer _ (by rw [writes]; exact .left _ _ (by omega))
  | wrote slot writes =>
    refine writer _ ?_
    rw [writes]
    unfold nextSlot
    split <;> exact .left _ _ (by omega)
  | cancel writeErr leaves =>
    have lower : Prod.Lex (· < ·) (· < ·) ((HydrateWriter.draining writeErr).rank slots) (h.writer.rank slots) := by
      rw [leaves]
      exact .left _ _ (by omega)
    rcases (h.pool.rank_cancel_le slots (.sentinel .contextCanceled)).lt_or_eq with less | same
    · exact .left _ _ less
    · unfold Hydration.rank
      rw [same]
      exact .right _ lower
  | ret writeErr drains => exact writer _ (by rw [drains]; exact .left _ _ (by omega))

theorem hydrateStep_acc (slots : Nat) (fetch : Nat → Bool → Except Err (List BlockRecord) → Prop) (disk : Err → Prop)
    (h : Hydration w) : Acc (fun later earlier => HydrateStep slots fetch disk earlier later) h := by
  have wf : WellFounded (InvImage RankLt fun h : Hydration w => h.rank slots) := InvImage.wf _ rankLt_wf
  exact Subrelation.accessible (fun step => HydrateStep.rank_lt step) (wf.apply h)

end Termination

/-- The writer never waits for a slot that no one will deliver, and `Hydrate` comes to its end. -/
theorem hydrate_pipeline_delivers (maxProcs : Nat) (requested : Int) (slots : Nat)
    (fetch : Nat → Bool → Except Err (List BlockRecord) → Prop) (disk : Err → Prop)
    (h : Hydration (min (segmentConcurrency maxProcs requested) slots))
    (run : HydrateReaches slots fetch disk (.start _ slots) h) :
    (∀ slot, h.writer = .waiting slot → h.pool.ctx ≠ none ∨
      (slot ∈ h.pool.recorded ∨ ∃ i, h.pool.held i = some slot) ∨
      h.pool.next ≤ slot ∧ h.pool.closed = false ∧ h.pool.cancelled = none) ∧
    (∀ slot unsubmitted, h.writer.slot = some slot → h.pool.ctx = none → h.pool.closed = true →
      unsubmitted < slots → h.pool.next ≤ unsubmitted →
      ∃ failed err, (failed, .error err) ∈ h.pool.results ∧ slot ≤ failed ∧ failed < unsubmitted) ∧
    ((∀ slot, slot < h.pool.next ↔ slot ∈ h.pool.recorded ∨ ∃ i, h.pool.held i = some slot) ∧
      h.pool.recorded.Nodup ∧ (∀ i j slot, h.pool.held i = some slot → h.pool.held j = some slot → i = j) ∧
      ∀ i slot, h.pool.held i = some slot → slot ∉ h.pool.recorded) ∧
    ((∀ slot < slots, ∀ done, ∃ result, fetch slot done result) → (∀ err, h.writer ≠ .returned err) →
      ∃ h', HydrateStep slots fetch disk h h' ∧ h'.pool.ctx = h.pool.ctx) ∧
    Acc (fun later earlier => HydrateStep slots fetch disk earlier later) h := by
  have piped := run.piped
  have accounted := piped.sound.accounted
  refine ⟨?_, ?_, ⟨accounted.submitted, accounted.once, accounted.single, accounted.apart⟩, ?_,
    hydrateStep_acc slots fetch disk h⟩
  · intro slot waits
    cases live : h.pool.ctx with
    | some err => exact .inl (by simp)
    | none =>
      rcases piped.submitted (by rw [waits]; rfl) live with past | later
      · exact .inr (.inl ((accounted.submitted slot).mp past))
      · exact .inr (.inr later)
  · intro slot unsubmitted here live closed inside never
    exact piped.stopped here live closed inside never
  · intro returns running
    exact piped.progress disk (workers_staffed ..) returns running

section Schedules

def corruptFetch (corrupt slot : Nat) (done : Bool) (result : Except Err (List BlockRecord)) : Prop :=
  if done then result = .error (.sentinel .contextCanceled)
  else if slot = corrupt then result = .error (.new "segment checksum mismatch")
  else result = .ok []

theorem corruptFetch_returns (corrupt slot : Nat) (done : Bool) : ∃ result, corruptFetch corrupt slot done result := by
  unfold corruptFetch
  split
  · exact ⟨_, rfl⟩
  · split <;> exact ⟨_, rfl⟩

theorem corruptFetch_honest (corrupt : Nat) : Honest (corruptFetch corrupt) := by
  intro slot err fails
  simp only [corruptFetch, Bool.false_eq_true, if_false] at fails
  split at fails
  · cases fails
    rfl
  · cases fails

theorem reaches_hydration (disk : Err → Prop) {p p' : Pool w (List BlockRecord) Err}
    (run : Reaches slots fetch (.sentinel .contextCanceled) p p') (writer : HydrateWriter) :
    HydrateReaches slots fetch disk ⟨p, writer, []⟩ ⟨p', writer, []⟩ := by
  induction run with
  | refl => exact .refl
  | tail _ step ih => exact ih.tail (.goroutine _ step)

end Schedules

theorem hydrate_pipeline_delivers_stopped :
    ∃ h : Hydration (min (segmentConcurrency 1 2) 3),
      HydrateReaches 3 (corruptFetch 1) (fun _ => False) (.start _ 3) h ∧
      h.writer = .waiting 0 ∧ h.pool.closed = true ∧ h.pool.next = 2 ∧
      (∃ failed err, (failed, .error err) ∈ h.pool.results ∧ 0 ≤ failed ∧ failed < 2) ∧
      ∃ h', HydrateStep 3 (corruptFetch 1) (fun _ => False) h h' ∧ h'.pool.ctx = none := by
  -- the second of three segments is corrupt, its worker has stopped the submitter, and the other worker has not
  -- yet looked at the first one
  have first : Reaches 3 (corruptFetch 1) (.sentinel .contextCanceled) (Pool.start 2 _ _)
      { (Pool.start 2 _ _).put 0 (.holding 0) with next := 1 } := .single (.submit 0 rfl (by decide) rfl)
  have failed := first.trans (reaches_failed (i := 1) rfl (by decide) rfl rfl rfl)
  have stopped := failed.tail (.stop _ rfl (by decide) rfl)
  have run : HydrateReaches 3 (corruptFetch 1) (fun _ => False) (.start (min (segmentConcurrency 1 2) 3) 3) _ :=
    reaches_hydration _ stopped (.waiting 0)
  obtain ⟨-, before, -, progress, -⟩ := hydrate_pipeline_delivers 1 2 3 (corruptFetch 1) (fun _ => False) _ run
  refine ⟨_, run, rfl, rfl, rfl, before 0 2 rfl rfl rfl (by decide) le_rfl, ?_⟩
  exact progress (fun slot _ done => corruptFetch_returns 1 slot done) (by simp)

theorem Piped.drains (disk : Err → Prop) (staffed : 0 < w ∨ slots = 0)
    (returns : ∀ slot < slots, ∀ done, ∃ result, fetch slot done result)
    {writeErr : Option Err} (piped : Piped slots fetch h) (draining : h.writer = .draining writeErr) :
    ∃ h', HydrateReaches slots fetch disk h h' ∧ h'.writer = .returned writeErr ∧ h'.pool.ctx = h.pool.ctx ∧
      h'.worked = h.worked := by
  induction hydrateStep_acc slots fetch disk h with
  | intro h _ ih =>
    obtain ⟨next, step, same⟩ := piped.progress disk staffed returns (by simp [draining])
    have after := step.piped piped
    cases step with
    | goroutine p step =>
      obtain ⟨last, run, returned, ctx, worked⟩ := ih _ (.goroutine p step) after draining
      exact ⟨last, .head (.goroutine p step) run, returned, ctx.trans same, worked⟩
    | ret other drains gone =>
      rw [draining] at drains
      cases drains
      exact ⟨_, .single (.ret writeErr draining gone), rfl, rfl, rfl⟩
    | giveUp _ _ other => rw [draining] at other; cases other
    | consume _ _ other => rw [draining] at other; cases other
    | consumeError _ _ other => rw [draining] at other; cases other
    | write _ _ _ other => rw [draining] at other; cases other
    | writeError _ _ _ _ other => rw [draining] at other; cases other
    | wrote _ other => rw [draining] at other; cases other
    | cancel _ other => rw [draining] at other; cases other

section Sequential

/-- The slots whose records the writer has begun with, and the records of the last one that it has yet to
work through. Nothing is said of a writer that met an error. -/
def HydrateWriter.reached (slots : Nat) : HydrateWriter → Option (Nat × List BlockRecord)
  | .waiting slot => some (slot, [])
  | .writing slot left => some (slot + 1, left)
  | .finishing none => some (slots, [])
  | .draining none => some (slots, [])
  | .returned none => some (slots, [])
  | _ => none

def Hydration.InOrder (slots : Nat) (all : List (List BlockRecord)) (h : Hydration w) : Prop :=
  ∀ count left, h.writer.reached slots = some (count, left) → h.worked ++ left = (all.take count).flatten

variable {all : List (List BlockRecord)}

theorem HydrateStep.inOrder (step : HydrateStep slots fetch disk h h') (piped : Piped slots fetch h)
    (fetches : ∀ slot done records, fetch slot done (.ok records) → all[slot]? = some records) (inOrder : h.InOrder slots all) :
    h'.InOrder slots all := by
  cases step with
  | goroutine p step => exact inOrder
  | consume slot records waits ready =>
    rintro _ _ ⟨⟩
    have before := inOrder slot [] (by rw [waits]; rfl)
    have explained := (piped.inLoop slot (by rw [waits]; rfl)).explained
    rcases explained.origin slot _ ready with ⟨done, fetched⟩ | ⟨err, other, -⟩
    · rw [List.append_nil] at before
      rw [List.take_add_one, List.flatten_append, ← before, fetches slot done records fetched]
      simp
    · cases other
  | write slot record rest writes =>
    rintro _ _ ⟨⟩
    have before := inOrder (slot + 1) (record :: rest) (by rw [writes]; rfl)
    rw [← before]
    simp
  | wrote slot writes =>
    have before := inOrder (slot + 1) [] (by rw [writes]; rfl)
    have inside := (piped.inLoop slot (by rw [writes]; rfl)).inside
    unfold nextSlot
    split
    next =>
      rintro _ _ ⟨⟩
      exact before
    next =>
      -- the last slot
      rintro _ _ ⟨⟩
      have last : slots = slot + 1 := by omega
      rw [last]
      exact before
  | cancel writeErr leaves =>
    intro count left ends
    cases writeErr with
    | none => exact inOrder count left (by rw [leaves]; exact ends)
    | some err => cases ends
  | ret writeErr drains =>
    intro count left ends
    cases writeErr with
    | none => exact inOrder count left (by rw [drains]; exact ends)
    | some err => cases ends
  | giveUp => rintro _ _ ⟨⟩
  | consumeError => rintro _ _ ⟨⟩
  | writeError => rintro _ _ ⟨⟩

theorem HydrateReaches.inOrder (run : HydrateReaches slots fetch disk (.start w slots) h)
    (fetches : ∀ slot done records, fetch slot done (.ok records) → all[slot]? = some records) : h.InOrder slots all := by
  induction run with
  | refl =>
    intro count left ends
    unfold Hydration.start at ends ⊢
    dsimp only at ends
    split at ends
    next none =>
      cases ends
      simp [none]
    next =>
      cases ends
      rfl
  | tail before step ih => exact step.inOrder (HydrateReaches.piped before) fetches ih

variable {V : Type} {host : Host V} {contentOf : String → Bytes} {s : ObjectStore contentOf} {segments : List SegmentManifest}

def FetchesFrom (host : Host V) (s : ObjectStore contentOf) (segments : List SegmentManifest)
    (fetch : Nat → Bool → Except Err (List BlockRecord) → Prop) : Prop :=
  ∀ slot done records, fetch slot done (.ok records) →
    ∃ segment, segments[slot]? = some segment ∧ DecodesTo host s segment records

/-- Under every schedule a `Hydrate` without an error goes through the records that fetching one segment
after the other goes through, so both write the same files. -/
theorem hydrate_pipeline_sequential (dir : String) (start stop maxBytes : Int) (result : HydrateResult)
    (fetches : FetchesFrom host s segments fetch) (readable : ∀ segment ∈ segments, Readable host s segment)
    (run : HydrateReaches segments.length fetch disk (.start w segments.length) h) (returned : h.writer = .returned none) :
    (hydrateSegments host dir start stop maxBytes segments result).Leaves (Faithful s) fun trace final =>
      written trace = (h.worked.filter (·.Within start stop)).map (blockFile dir) ∧
        final.blocksWritten = result.blocksWritten + (h.worked.filter (·.Within start stop)).length := by
  obtain ⟨all, decodes⟩ := exists_decoded readable
  have fetched : ∀ slot done records, fetch slot done (.ok records) → (segments.map all)[slot]? = some records := by
    intro slot done records fetched
    obtain ⟨segment, found, decoded⟩ := fetches slot done records fetched
    rw [List.getElem?_map, found, decoded.unique (decodes segment (List.mem_of_getElem? found))]
    rfl
  have worked := HydrateReaches.inOrder run fetched segments.length [] (by rw [returned]; rfl)
  rw [List.append_nil, List.take_of_length_le (by simp), ← List.flatMap_def] at worked
  rw [worked]
  exact hydrateSegments_leaves decodes

def shortFetch (slot : Nat) (_done : Bool) (result : Except Err (List BlockRecord)) : Prop :=
  ∃ code : UInt8, [1, 2][slot]? = some code ∧ result = .ok [shortRecord code]

-- the second segment is there before the first
theorem hydrate_pipeline_sequential_short :
    ∃ h : Hydration 2, HydrateReaches 2 shortFetch (fun _ => False) (.start 2 2) h ∧
      h.worked = [shortRecord 1, shortRecord 2] ∧
      (hydrateSegments shortHost "d" 2 5 0 [shortSegment 1, shortSegment 2] ⟨0, 0, "d"⟩).Leaves (Faithful (shortObjects [1, 2]))
        fun trace final => written trace = [blockFile "d" (shortRecord 2)] ∧ final.blocksWritten = 1 := by
  have submitted : Reaches 2 shortFetch (.sentinel .contextCanceled) (Pool.start 2 _ _)
      { (Pool.start 2 _ _).put 0 (.holding 0) with next := 1 } := .single (.submit 0 rfl (by decide) rfl)
  have second := submitted.trans (reaches_recorded (i := 1) rfl (by decide) rfl rfl ⟨2, rfl, rfl⟩)
  have ready := ((second.tail (.run 0 0 rfl rfl)).tail (.ret 0 0 _ rfl ⟨1, rfl, rfl⟩)).tail (.recordOk 0 0 [shortRecord 1] rfl)
  have run : HydrateReaches 2 shortFetch (fun _ => False) (.start 2 2) _ := reaches_hydration _ ready (.waiting 0)
  have first := ((run.tail (.consume 0 [shortRecord 1] rfl (by simp [Pool.record, Pool.put, Pool.start]))).tail
    (.write 0 _ _ rfl)).tail (.wrote 0 rfl)
  have both := ((first.tail (.consume 1 [shortRecord 2] rfl (by simp [Pool.record, Pool.put, Pool.start]))).tail
    (.write 1 _ _ rfl)).tail (.wrote 1 rfl)
  have draining := both.tail (.cancel none rfl)
  obtain ⟨h, rest, returned, -, worked⟩ := (HydrateReaches.piped draining).drains (fun _ => False)
    (.inl Nat.two_pos) (fun slot inside done => ⟨_, _, List.getElem?_eq_getElem inside, rfl⟩) rfl
  have decodes : ∀ code ∈ [1, 2], DecodesTo shortHost (shortObjects [1, 2]) (shortSegment code) [shortRecord code] := by
    intro code listed
    have stored : ∀ code ∈ [1, 2], ((shortObjects [1, 2]).objects (shortSegment code).key).map (·.data) =
        some (shortData code) := by decide +kernel
    have decoded : ∀ code ∈ [1, 2], decodeSegment Codec.plain shortComet (shortData code) (shortSegment code) =
        .ok [shortRecord code] := by decide +kernel
    obtain ⟨object, there, same⟩ := Option.map_eq_some_iff.mp (stored code listed)
    exact ⟨object, there, by rw [same]; exact decoded code listed⟩
  have fetches : FetchesFrom shortHost (shortObjects [1, 2]) [shortSegment 1, shortSegment 2] shortFetch := by
    rintro slot done _ ⟨code, found, ⟨⟩⟩
    refine ⟨shortSegment code, ?_, decodes code (List.mem_of_getElem? found)⟩
    exact (List.getElem?_map ..).trans (by rw [found])
  have leaves := hydrate_pipeline_sequential "d" 2 5 0 ⟨0, 0, "d"⟩ fetches (by
    intro segment member
    obtain ⟨code, listed, rfl⟩ := List.mem_map.mp (show segment ∈ [1, 2].map shortSegment from member)
    obtain ⟨object, there, decoded⟩ := decodes code listed
    exact ⟨object, _, there, decoded⟩) (draining.trans rest) returned
  rw [worked] at leaves
  exact ⟨h, draining.trans rest, worked, leaves⟩

end Sequential

section RealFailure

variable (slots fetch disk)

def RealFailure (err : Err) : Prop :=
  (∃ slot < slots, ∃ done, fetch slot done (.error err) ∧ err.is .contextCanceled = false) ∨ disk err

def ReportsRealFailure (w : Nat) : Prop :=
  ∀ (h : Hydration w) (err : Err), HydrateReaches slots fetch disk (.start w slots) h → h.writer = .returned (some err) →
    h.pool.ctx = none → RealFailure slots fetch disk err

variable {slots fetch disk}

def FailedBefore (p : Pool w (List BlockRecord) Err) (slot : Nat) : Prop :=
  ∃ earlier < slot, ∃ err, (earlier, .error err) ∈ p.results

structure Led (p : Pool w (List BlockRecord) Err) : Prop where
  -- a cancellation, at hand or recorded, has an error at an earlier slot
  returned : ∀ i slot err, p.workers i = .returned slot (.error err) → err.is .contextCanceled = true → FailedBefore p slot
  recorded : ∀ slot err, (slot, .error err) ∈ p.results → err.is .contextCanceled = true → FailedBefore p slot

def Leading (p : Pool w (List BlockRecord) Err) : Prop :=
  p.cancelled ≠ none → ∀ i slot, p.held i = some slot → FailedBefore p slot

theorem Led.step {p p' : Pool w (List BlockRecord) Err} (led : Led p)
    (step : Step slots fetch (.sentinel .contextCanceled) p p') (honest : Honest fetch) (leading : Leading p) : Led p' := by
  have grown : ∀ slot, FailedBefore p slot → FailedBefore p' slot := by
    rintro slot ⟨earlier, before, err, member⟩
    exact ⟨earlier, before, err, step.results_subset member⟩
  constructor
  · intro i slot err now canceled
    apply grown
    rcases step.returned_cases now with old | ⟨running, may⟩
    · exact led.returned i slot err old canceled
    · -- an honest fetch is only cancelled with its context
      have done : p.cancelled ≠ none := by
        intro none
        rw [none] at may
        rw [honest slot err may] at canceled
        cases canceled
      exact leading done i slot (by simp [Pool.held, running, Worker.slot])
  · intro slot err member canceled
    apply grown
    rcases step.mem_results member with old | ⟨i, returned⟩ | ⟨i, cause, holding, done, -⟩
    · exact led.recorded slot err old canceled
    · exact led.returned i slot err returned canceled
    · exact leading (by simp [done]) i slot (by simp [Pool.held, holding, Worker.slot])

-- workers hold the slot that was submitted last
def Latest (p : Pool w (List BlockRecord) Err) : Prop := ∀ i slot, p.held i = some slot → slot + 1 = p.next

theorem Latest.step (single : w ≤ 1) {p p' : Pool w (List BlockRecord) Err} (latest : Latest p)
    (step : Step slots fetch (.sentinel .contextCanceled) p p') : Latest p' := by
  have only : ∀ i j : Fin w, i = j := by
    intro i j
    ext
    omega
  have stays : ∀ (i : Fin w) (phase : Worker (List BlockRecord) Err), phase.slot = (p.workers i).slot ∨ phase.slot = none →
      ∀ j slot, (p.put i phase).held j = some slot → slot + 1 = p.next := by
    intro i phase same j slot held
    cases only i j
    simp only [Pool.held, Pool.put_workers, if_true] at held
    rcases same with same | none
    · exact latest i slot (by rwa [Pool.held, ← same])
    · rw [none] at held
      cases held
  cases step with
  | callerDone | propagate | finish | stop => exact latest
  | submit i isOpen more idle =>
    intro j slot held
    cases only i j
    have here : some p.next = some slot := by simpa [Pool.held, Worker.slot] using held
    cases here
    rfl
  | skip i slot cause holds => exact stays i .idle (.inr rfl)
  | run i slot holds => exact stays i _ (.inl (by simp [holds, Worker.slot]))
  | ret i slot result runs => exact stays i _ (.inl (by simp [runs, Worker.slot]))
  | recordOk i slot value has => exact stays i .idle (.inr rfl)
  | recordError i slot err has => exact stays i (.failing slot) (.inr rfl)
  | cancel i slot fails => exact stays i .idle (.inr rfl)
  | exit i idle => exact stays i .exited (.inr rfl)

theorem Latest.leading {p : Pool w (List BlockRecord) Err} (latest : Latest p) (sound : p.Sound slots)
    (explained : Explained fetch (.sentinel .contextCanceled) p) (live : p.ctx = none) : Leading p := by
  intro done i slot held
  obtain ⟨failed, err, recorded, -⟩ := (explained.cause done).resolve_left (not_not.mpr live)
  have listed : failed ∈ p.recorded := List.mem_map_of_mem recorded
  have below := (sound.accounted.submitted failed).mpr (.inl listed)
  have other : failed ≠ slot := by
    rintro rfl
    exact sound.accounted.apart i failed held listed
  have last := latest i slot held
  exact ⟨failed, by omega, err, recorded⟩

theorem leading_of_first {p : Pool w (List BlockRecord) Err} (sound : p.Sound slots)
    (explained : Explained fetch (.sentinel .contextCanceled) p) (live : p.ctx = none)
    (first : ∀ slot, 0 < slot → slot < slots → ∀ err, ¬ fetch slot false (.error err)) : Leading p := by
  intro done i slot held
  obtain ⟨failed, err, recorded, fails⟩ := (explained.cause done).resolve_left (not_not.mpr live)
  have listed : failed ∈ p.recorded := List.mem_map_of_mem recorded
  have below := (sound.accounted.submitted failed).mpr (.inl listed)
  have bound := sound.accounted.bound
  have other : failed ≠ slot := by
    rintro rfl
    exact sound.accounted.apart i failed held listed
  have zero : failed = 0 := by
    by_contra positive
    exact first failed (by omega) (by omega) err fails
  exact ⟨failed, by omega, err, recorded⟩

def HydrateWriter.outcome : HydrateWriter → Option Err
  | .finishing writeErr => writeErr
  | .draining writeErr => writeErr
  | .returned err => err
  | _ => none

structure Reported (slots : Nat) (fetch : Nat → Bool → Except Err (List BlockRecord) → Prop) (disk : Err → Prop)
    (keeps : Pool w (List BlockRecord) Err → Prop) (h : Hydration w) : Prop where
  -- what is kept where the workers' cancellations are led by errors; `keeps` is what that rests on
  kept : ∀ slot, h.writer.slot = some slot → keeps h.pool
  led : h.pool.ctx = none → ∀ slot, h.writer.slot = some slot → Led h.pool
  real : ∀ err, h.writer.outcome = some err → h.pool.ctx ≠ none ∨ RealFailure slots fetch disk err

theorem HydrateStep.reported {keeps : Pool w (List BlockRecord) Err → Prop} (step : HydrateStep slots fetch disk h h')
    (piped : Piped slots fetch h) (honest : Honest fetch)
    (keep : ∀ p p', Step slots fetch (.sentinel .contextCanceled) p p' → keeps p → keeps p')
    (leads : ∀ p, p.Sound slots → Explained fetch (.sentinel .contextCanceled) p → p.ctx = none → keeps p → Leading p)
    (reported : Reported slots fetch disk keeps h) : Reported slots fetch disk keeps h' := by
  obtain ⟨kept, led, real⟩ := reported
  cases step with
  | goroutine p step =>
    refine ⟨fun slot here => keep _ _ step (kept slot here), fun live slot here => ?_, fun err left => ?_⟩
    · have before := step.ctx_of_none live
      have explained := (piped.inLoop slot here).explained
      exact (led before slot here).step step honest (leads _ piped.sound explained before (kept slot here))
    · rcases real err left with done | failure
      · exact .inl fun live => done (step.ctx_of_none live)
      · exact .inr failure
  | giveUp slot err waits done =>
    refine ⟨by simp [HydrateWriter.slot], by simp [HydrateWriter.slot], fun other left => .inl ?_⟩
    simp [done]
  | consume slot records waits ready =>
    have here : h.writer.slot = some slot := by rw [waits]; rfl
    exact ⟨fun _ _ => kept slot here, fun live _ _ => led live slot here, by simp [HydrateWriter.outcome]⟩
  | consumeError slot err waits ready =>
    refine ⟨by simp [HydrateWriter.slot], by simp [HydrateWriter.slot], fun other left => ?_⟩
    cases left
    have here : h.writer.slot = some slot := by rw [waits]; rfl
    obtain ⟨explained, inside, -⟩ := piped.inLoop slot here
    by_cases live : h.pool.ctx = none
    · refine .inr (.inl ⟨slot, inside, ?_⟩)
      -- a cancellation would have an error before it, where the writer has been
      have genuine : err.is .contextCanceled = false := by
        by_contra canceled
        obtain ⟨earlier, before, cause, recorded⟩ := (led live slot here).recorded slot err ready (by simpa using canceled)
        have ahead := piped.ahead here recorded
        omega
      rcases explained.origin slot _ ready with ⟨done, fails⟩ | ⟨cause, same, cancelled⟩
      · exact ⟨done, fails, genuine⟩
      · cases same
        rcases explained.live live with none | sentinel
        · rw [none] at cancelled
          cases cancelled
        · rw [sentinel] at cancelled
          cases cancelled
          exact absurd genuine (by simp)
    · exact .inl live
  | write slot record rest writes =>
    have here : h.writer.slot = some slot := by rw [writes]; rfl
    exact ⟨fun _ _ => kept slot here, fun live _ _ => led live slot here, by simp [HydrateWriter.outcome]⟩
  | writeError slot record rest err writes fails =>
    refine ⟨by simp [HydrateWriter.slot], by simp [HydrateWriter.slot], fun other left => ?_⟩
    cases left
    rcases fails with broken | done
    · exact .inr (.inr broken)
    · exact .inl (by simp [done])
  | wrote slot writes =>
    have here : h.writer.slot = some slot := by rw [writes]; rfl
    refine ⟨fun _ _ => kept slot here, fun live _ _ => led live slot here, fun err left => ?_⟩
    unfold nextSlot at left
    split at left <;> cases left
  | cancel writeErr leaves =>
    refine ⟨by simp [HydrateWriter.slot], by simp [HydrateWriter.slot], fun err left => ?_⟩
    exact real err (by rw [leaves]; exact left)
  | ret writeErr drains gone =>
    refine ⟨by simp [HydrateWriter.slot], by simp [HydrateWriter.slot], fun err left => ?_⟩
    exact real err (by rw [drains]; exact left)

theorem HydrateReaches.reported {keeps : Pool w (List BlockRecord) Err → Prop}
    (run : HydrateReaches slots fetch disk (.start w slots) h) (honest : Honest fetch) (start : keeps (Pool.start w _ _))
    (keep : ∀ p p', Step slots fetch (.sentinel .contextCanceled) p p' → keeps p → keeps p')
    (leads : ∀ p, p.Sound slots → Explained fetch (.sentinel .contextCanceled) p → p.ctx = none → keeps p → Leading p) :
    Reported slots fetch disk keeps h := by
  induction run with
  | refl =>
    refine ⟨fun _ _ => start, fun _ _ _ => ⟨by simp [Hydration.start, Pool.start], by simp [Hydration.start, Pool.start]⟩, ?_⟩
    intro err left
    unfold Hydration.start at left
    split at left <;> cases left
  | tail before step ih => exact step.reported (HydrateReaches.piped before) honest keep leads ih

theorem reports_of_leading (keeps : Pool w (List BlockRecord) Err → Prop) (honest : Honest fetch)
    (start : keeps (Pool.start w _ _))
    (keep : ∀ p p', Step slots fetch (.sentinel .contextCanceled) p p' → keeps p → keeps p')
    (leads : ∀ p, p.Sound slots → Explained fetch (.sentinel .contextCanceled) p → p.ctx = none → keeps p → Leading p) :
    ReportsRealFailure slots fetch disk w := by
  intro h err run returned live
  have reported := HydrateReaches.reported run honest start keep leads
  exact (reported.real err (by rw [returned]; rfl)).resolve_left (not_not.mpr live)

theorem reaches_holding (two : 1 < w) {count : Nat} (positive : 0 < count) (bound : count ≤ slots)
    (fine : ∀ slot, 0 < slot → slot < count → ∃ records, fetch slot false (.ok records)) :
    ∃ results, Reaches slots fetch (.sentinel .contextCanceled) (Pool.start w _ _)
      { (Pool.start w _ _).put ⟨0, by omega⟩ (.holding 0) with next := count, results } := by
  induction count, positive using Nat.le_induction with
  | base => exact ⟨[], .single (.submit ⟨0, by omega⟩ rfl bound rfl)⟩
  | succ count positive ih =>
    obtain ⟨results, run⟩ := ih (by omega) fun slot above below => fine slot above (by omega)
    obtain ⟨records, may⟩ := fine count (by omega) (by omega)
    refine ⟨results ++ [(count, .ok records)], run.trans ?_⟩
    exact reaches_recorded (i := ⟨1, two⟩) rfl bound (by simp [Pool.put, Pool.start]) rfl may

theorem canceled_run (two : 1 < w) (returns : ∀ slot < slots, ∀ done, ∃ result, fetch slot done result) {failed : Nat}
    {err : Err} (positive : 0 < failed) (inside : failed < slots) (fails : fetch failed false (.error err))
    (fine : ∀ slot, 0 < slot → slot < failed → ∃ records, fetch slot false (.ok records)) :
    ∃ h : Hydration w, HydrateReaches slots fetch disk (.start w slots) h ∧
      h.writer = .returned (some (.sentinel .contextCanceled)) ∧ h.pool.ctx = none := by
  -- the schedule that hides a failure: a later slot fails before the worker of the first one looks at the context
  obtain ⟨results, holding⟩ := reaches_holding two positive inside.le fine
  have cancelled := holding.trans (reaches_failed (i := ⟨1, two⟩) rfl inside (by simp [Pool.put, Pool.start]) rfl fails)
  have skipped := cancelled.tail (.skip ⟨0, by omega⟩ 0 _ (by simp [Pool.put]) rfl)
  have start : Hydration.start w slots = ⟨Pool.start w _ _, .waiting 0, []⟩ := by
    rw [Hydration.start, if_neg (by omega)]
  have run := reaches_hydration disk skipped (.waiting 0)
  rw [← start] at run
  have consumed := run.tail (.consumeError 0 (.sentinel .contextCanceled) rfl (by simp [Pool.record]))
  have draining := consumed.tail (.cancel _ rfl)
  obtain ⟨h, rest, returned, live, -⟩ := (HydrateReaches.piped draining).drains disk (.inl (by omega)) returns rfl
  exact ⟨h, draining.trans rest, returned, live⟩

end RealFailure

/-- `Hydrate` reports a real failure under every schedule exactly where one worker fetches all segments or
only the first requested segment can fail. -/
theorem hydrate_reports_real_failure_iff (maxProcs : Nat) (requested : Int) (slots : Nat)
    (fetch : Nat → Bool → Except Err (List BlockRecord) → Prop) (disk : Err → Prop) (honest : Honest fetch)
    (quiet : ∀ err, disk err → err.is .contextCanceled = false)
    (returns : ∀ slot < slots, ∀ done, ∃ result, fetch slot done result) :
    ReportsRealFailure slots fetch disk (min (segmentConcurrency maxProcs requested) slots) ↔
      segmentConcurrency maxProcs requested = 1 ∨
        ∀ slot, 0 < slot → slot < slots → ∀ err, ¬ fetch slot false (.error err) := by
  constructor
  · intro reports
    by_contra neither
    simp only [not_or, not_forall, not_not] at neither
    obtain ⟨several, slot, positive, inside, err, fails⟩ := neither
    -- the first of the later slots that fail
    classical
    have some : ∃ slot, 0 < slot ∧ slot < slots ∧ ∃ err, fetch slot false (.error err) := ⟨slot, positive, inside, err, fails⟩
    obtain ⟨positive, inside, err, fails⟩ := Nat.find_spec some
    have fine : ∀ slot, 0 < slot → slot < Nat.find some → ∃ records, fetch slot false (.ok records) := by
      intro slot positive below
      obtain ⟨result, may⟩ := returns slot (by omega) false
      cases result with
      | ok records => exact ⟨records, may⟩
      | error err => exact absurd ⟨positive, by omega, err, may⟩ (Nat.find_min some below)
    have staffed := workers_staffed maxProcs requested 2
    obtain ⟨h, run, returned, live⟩ := canceled_run (w := min (segmentConcurrency maxProcs requested) slots) (by omega)
      returns positive inside fails fine
    rcases reports h _ run returned live with ⟨slot, -, done, -, genuine⟩ | broken
    · cases genuine
    · cases quiet _ broken
  · rintro (single | first)
    · exact reports_of_leading Latest honest (by simp [Latest, Pool.held, Pool.start, Worker.slot])
        (fun p p' step latest => latest.step (by omega) step)
        (fun p sound explained live latest => latest.leading sound explained live)
    · exact reports_of_leading (fun _ => True) honest trivial (fun _ _ _ _ => trivial)
        (fun p sound explained live _ => leading_of_first sound explained live first)

theorem hydrate_reports_corrupt_first :
    Honest (corruptFetch 0) ∧ ReportsRealFailure 2 (corruptFetch 0) (fun _ => False) (min (segmentConcurrency 4 2) 2) ∧
    ∃ h : Hydration (min (segmentConcurrency 4 2) 2), HydrateReaches 2 (corruptFetch 0) (fun _ => False) (.start _ 2) h ∧
      h.writer = .returned (some (.new "segment checksum mismatch")) ∧ h.pool.ctx = none ∧
      RealFailure 2 (corruptFetch 0) (fun _ => False) (.new "segment checksum mismatch") := by
  -- two workers and a corrupt first segment: its checksum error is the one that is reported
  have returns : ∀ slot < 2, ∀ done, ∃ result, corruptFetch 0 slot done result :=
    fun slot _ done => corruptFetch_returns 0 slot done
  have reports := (hydrate_reports_real_failure_iff 4 2 2 (corruptFetch 0) (fun _ => False) (corruptFetch_honest 0)
    (fun _ broken => broken.elim) returns).mpr (.inr (by simp [corruptFetch]; omega))
  have failed : Reaches 2 (corruptFetch 0) (.sentinel .contextCanceled) (Pool.start 2 _ _) _ :=
    reaches_failed (i := 0) rfl (by decide) rfl rfl rfl
  have consumed := (reaches_hydration (fun _ => False) failed (.waiting 0)).tail
    (.consumeError 0 (.new "segment checksum mismatch") rfl (by simp [Pool.start]))
  have draining := consumed.tail (.cancel _ rfl)
  have piped := HydrateReaches.piped (w := 2) draining
  obtain ⟨h, rest, returned, live, -⟩ := piped.drains (fun _ => False) (.inl (by decide)) returns rfl
  have run := draining.trans rest
  exact ⟨corruptFetch_honest 0, reports, h, run, returned, live, reports h _ run returned live⟩

/-- Two workers and a corrupt second segment: the caller is told of a cancellation that it never asked for. -/
theorem hydrate_hides_failure :
    Honest (corruptFetch 1) ∧
    ∃ h : Hydration 2, HydrateReaches 2 (corruptFetch 1) (fun _ => False) (.start 2 2) h ∧
      h.writer = .returned (some (.sentinel .contextCanceled)) ∧ h.pool.ctx = none ∧
      ¬ RealFailure 2 (corruptFetch 1) (fun _ => False) (.sentinel .contextCanceled) := by
  have returns : ∀ slot < 2, ∀ done, ∃ result, corruptFetch 1 slot done result :=
    fun slot _ done => corruptFetch_returns 1 slot done
  obtain ⟨h, run, returned, live⟩ := canceled_run (w := 2) (by decide) returns (Nat.one_pos : 0 < 1) (by decide) rfl
    (fun slot above below => by omega)
  refine ⟨corruptFetch_honest 1, h, run, returned, live, ?_⟩
  rintro (⟨slot, -, done, -, genuine⟩ | broken)
  · cases genuine
  · exact broken

end CometArchive.Archive
