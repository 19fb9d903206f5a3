import CometArchive.Blocksync.IngestChain

set_option autoImplicit false

namespace CometArchive.Ingest

open HotIngestor Linked Runs

variable {V : Type} (comet : Comet V)

def processes (initial : BlockStore) (events : List (Event V)) : List (Process V) :=
  -- the process at every moment of a run, oldest first
  events.scanl (Process.step comet) (.stopped initial)

/-- The block the store held at a height, now or earlier. -/
def everStored (initial : BlockStore) (events : List (Event V)) (h : Int) : Option Block :=
  (processes comet initial events).findSome? fun p => p.store.load h

variable {comet}

theorem everStored_nil (initial : BlockStore) : everStored comet initial ([] : List (Event V)) = initial.load := by
  funext h
  simp [everStored, processes, Process.store]

theorem everStored_snoc {initial : BlockStore} {events : List (Event V)} {p : Process V} {event : Event V}
    (run : Run (Process.Step comet) (.stopped initial) events p) (h : Int) :
    everStored comet initial (events ++ [event]) h =
      (everStored comet initial events h).or ((p.step comet event).store.load h) := by
  unfold everStored processes
  rw [List.scanl_append, List.findSome?_append, run.eq_foldl]
  simp

theorem Process.step_store (p : Process V) (event : Event V) :
    (p.step comet event).store = p.store ∨
      (∃ block, p.store.saveBlock block = some (p.step comet event).store) ∨
      ∃ target, p.store.pruneBlocks target = .ok (p.step comet event).store := by
  cases event with
  | start opts =>
    left
    simp only [Process.step]
    split
    next i built => exact (newHotIngestor_spec comet built).1
    next => rfl
  | submit ask block =>
    cases p with
    | stopped store => exact .inl rfl
    | running i =>
      have store : ((Process.running i).step comet (.submit ask block)).store = (submit comet ask i block).1.store := by
        simp only [Process.step]
        split
        next called => rw [called]; rfl
        next called => rw [called]; rfl
      have cases := submit_cases comet ask i block
      rw [store]
      generalize submit comet ask i block = result at cases
      cases cases with
      | rejected _ i' err cached => exact .inl cached.store
      | first block mid cached => exact .inl (by rw [accept_store]; exact cached.store)
      | persisted block pending mid commit header store cached checked next waiting commits signed saved =>
        exact .inr (.inl ⟨pending, by rw [accept_store]; exact saved⟩)
      | panicked block pending mid cached => exact .inl cached.store
  | prune target =>
    simp only [Process.step]
    split
    next store pruned =>
      refine .inr (.inr ⟨target, ?_⟩)
      rw [pruned]
      cases p <;> rfl
    next => exact .inl rfl

/-- `ever` has what the store has and had: one chain up to the head, linked by `R` from `low` on. -/
structure Recorded (R : Block → Block → Prop) (low : Int) (ever : Int → Option Block) (store : BlockStore) : Prop where
  stored : ∀ h block, store.load h = some block → ever h = some block
  bounds : ∀ h block, ever h = some block → 0 < h ∧ h ≤ store.height
  named : ∀ h block, ever h = some block → block.height = h
  gapless : ∀ h block, ever h = some block → ∀ k, h ≤ k → k ≤ store.height → (ever k).isSome = true
  linked : LinkedBy R ever low

section Recorded

variable {R : Block → Block → Prop} {low : Int} {ever : Int → Option Block} {store store' : BlockStore}

theorem recorded_initial (linked : LinkedBy R store.load low) : Recorded R low store.load store where
  stored _ _ := id
  bounds h block found := by
    have bounds := BlockStore.bounds_of_load found
    omega
  named := store.named
  gapless h block found k above below := by
    have bounds := BlockStore.bounds_of_load found
    exact (store.loaded k).mpr ⟨bounds.1, by omega, below⟩
  linked := linked

theorem Recorded.load (recorded : Recorded R low ever store) {h : Int} {block : Block} (found : ever h = some block)
    (kept : store.base ≤ h) : store.load h = some block := by
  obtain ⟨positive, reach⟩ := recorded.bounds h block found
  have range := store.range
  obtain ⟨other, there⟩ := store.exists_load (by omega) kept reach
  rw [recorded.stored h other there] at found
  rw [there, found]

theorem Recorded.of_subset (recorded : Recorded R low ever store) (same : store'.height = store.height)
    (subset : ∀ h block, store'.load h = some block → store.load h = some block) :
    Recorded R low (fun h => (ever h).or (store'.load h)) store' := by
  -- nothing is new in the store
  have unchanged : (fun h => (ever h).or (store'.load h)) = ever := by
    funext h
    cases found : store'.load h with
    | none => simp
    | some block => simp [recorded.stored h block (subset h block found)]
  rw [unchanged]
  exact ⟨fun h block found => recorded.stored h block (subset h block found), by rw [same]; exact recorded.bounds,
    recorded.named, by rw [same]; exact recorded.gapless, recorded.linked⟩

theorem Recorded.save {block : Block} (recorded : Recorded R low ever store) (saved : store.saveBlock block = some store')
    (linked : LinkedBy R store'.load low) : Recorded R low (fun h => (ever h).or (store'.load h)) store' := by
  obtain ⟨positive, extend⟩ := BlockStore.saveBlock_isSome.mp (Option.isSome_of_eq_some saved)
  obtain ⟨height, -, -⟩ := BlockStore.saveBlock_spec saved
  have self := BlockStore.saveBlock_load_self saved
  have above : ∀ h other, ever h = some other → h < block.height := by
    intro h other found
    have bounds := recorded.bounds h other found
    omega
  -- the one height that is new is that of the block
  have old : ∀ h, h ≠ block.height → (ever h).or (store'.load h) = ever h := by
    intro h differ
    rw [BlockStore.saveBlock_load_of_ne saved differ]
    cases found : store.load h with
    | none => simp
    | some other => simp [recorded.stored h other found]
  have new : (ever block.height).or (store'.load block.height) = some block := by
    cases found : ever block.height with
    | none => simpa using self
    | some other => exact absurd (above _ other found) (lt_irrefl _)
  have cases : ∀ h other, (ever h).or (store'.load h) = some other →
      h = block.height ∧ other = block ∨ h < block.height ∧ ever h = some other := by
    intro h other found
    by_cases same : h = block.height
    · subst same
      exact .inl ⟨rfl, Option.some.inj (found.symm.trans new)⟩
    · rw [old h same] at found
      exact .inr ⟨above h other found, found⟩
  refine ⟨?_, ?_, ?_, ?_, ?_⟩
  · intro h other found
    by_cases same : h = block.height
    · subst same
      rw [new, ← self, found]
    · rw [BlockStore.saveBlock_load_of_ne saved same] at found
      rw [old h same]
      exact recorded.stored h other found
  · intro h other found
    rcases cases h other found with ⟨rfl, -⟩ | ⟨below, found⟩
    · omega
    · have bounds := recorded.bounds h other found
      omega
  · intro h other found
    rcases cases h other found with ⟨rfl, rfl⟩ | ⟨-, found⟩
    · rfl
    · exact recorded.named h other found
  · intro h other found k low high
    by_cases same : k = block.height
    · subst same
      rw [new]
      rfl
    · rw [old k same]
      rcases cases h other found with ⟨rfl, -⟩ | ⟨-, found⟩
      · omega
      · have bounds := recorded.bounds h other found
        exact recorded.gapless h other found k low (by omega)
  · intro h lower upper bound found next
    rcases cases (h + 1) upper next with ⟨top, rfl⟩ | ⟨-, next⟩
    · rcases cases h lower found with ⟨same, -⟩ | ⟨-, found⟩
      · omega
      · -- the head is still there when its successor is saved
        have bounds := recorded.bounds h lower found
        have range := store.range
        have head := recorded.load found (by omega)
        refine linked h lower upper bound (BlockStore.saveBlock_load_mono saved head) ?_
        rw [top]
        exact self
    · rcases cases h lower found with ⟨same, -⟩ | ⟨-, found⟩
      · have bounds := above _ upper next
        omega
      · exact recorded.linked h lower upper bound found next

theorem Recorded.reaches (recorded : Recorded R low ever store) {top h : Int} {last block : Block}
    (found : ever top = some last) (lower : ever h = some block) (bound : low ≤ h) (below : h ≤ top) :
    Relation.ReflTransGen R last block := by
  have reach := (recorded.bounds top last found).2
  have start : top - ((top - h).toNat : Nat) = h := by omega
  refine recorded.linked.reaches found (top - h).toNat block (by omega) ?_ (by rw [start]; exact lower)
  intro k above under
  exact recorded.gapless h block lower k (by omega) (by omega)

end Recorded

theorem run_recorded {initial : BlockStore} {events : List (Event V)} {p : Process V}
    (run : Run (Process.Step comet) (.stopped initial) events p) :
    Recorded (Names comet) initial.height (everStored comet initial events) p.store := by
  induction run with
  | refl =>
    have chained : Chained comet (Names comet) initial.height (.stopped initial) := chained_stopped _ initial
    rw [everStored_nil]
    exact recorded_initial chained.stored
  | @snoc events mid last event before taken ih =>
    have chained := run_names (.snoc before taken)
    subst taken
    have grown : everStored comet initial (events ++ [event]) = fun h =>
        (everStored comet initial events h).or ((mid.step comet event).store.load h) := funext (everStored_snoc before)
    rw [grown]
    rcases mid.step_store event with same | ⟨block, saved⟩ | ⟨target, pruned⟩
    · exact ih.of_subset (by rw [same]) (by rw [same]; exact fun _ _ => id)
    · exact ih.save saved chained.stored
    · obtain ⟨-, -, -, -, -, height, load⟩ := BlockStore.pruneBlocks_spec pruned
      refine ih.of_subset height ?_
      intro h block found
      rw [load] at found
      split at found
      · cases found
      · exact found

theorem everStored_mono {initial : BlockStore} {events : List (Event V)} {event : Event V} {h : Int} {block : Block}
    (found : everStored comet initial events h = some block) :
    everStored comet initial (events ++ [event]) h = some block := by
  unfold everStored processes at found ⊢
  rw [List.scanl_append, List.findSome?_append, found]
  rfl

end CometArchive.Ingest
