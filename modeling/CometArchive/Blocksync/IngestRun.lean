import CometArchive.Blocksync.Ingest
import CometArchive.Shared.Linked
import CometArchive.Shared.Runs

set_option autoImplicit false

namespace CometArchive.Ingest

open GoBytes HotIngestor Linked

inductive Process (V : Type) where
  | stopped (store : BlockStore)
  | running (ingestor : HotIngestor V)

inductive Event (V : Type) where
  | start (opts : IngestOptions V)
  | submit (ask : Int → SourceAnswer V) (block : Option Block)
  | prune (target : Int)

variable {V : Type} (comet : Comet V)

namespace Process

def store : Process V → BlockStore
  | .stopped store => store
  | .running i => i.store

def withStore (p : Process V) (store : BlockStore) : Process V :=
  match p with
  | .stopped _ => .stopped store
  | .running i => .running { i with store }

def step (p : Process V) : Event V → Process V
  | .start opts =>
    match newHotIngestor comet (some p.store) opts with
    | .ok i => .running i
    | .error _ => .stopped p.store
  | .submit ask block =>
    match p with
    | .stopped store => .stopped store
    | .running i =>
      match HotIngestor.submit comet ask i block with
      | (i, .panic) => .stopped i.store
      | (i, _) => .running i
  | .prune target =>
    match p.store.pruneBlocks target with
    | .ok store => p.withStore store
    | .error _ => p

abbrev Step (p : Process V) (event : Event V) (p' : Process V) : Prop := p.step comet event = p'

end Process

def HotIngestor.afterHead (i : HotIngestor V) : Int :=
  if 0 < i.store.height then i.store.height + 1 else i.opts.startHeight

structure Extending (i : HotIngestor V) : Prop where
  -- what is known of the pending block: it passed its checks and comes next
  checked : ∀ pending, i.pending = some pending → Checked comet i.opts pending
  next : ∀ pending, i.pending = some pending → pending.height = i.afterHead

structure Chained (R : Block → Block → Prop) (low : Int) (p : Process V) : Prop where
  -- from height `low` on, the stored blocks and the pending one are linked by `R`
  extending : ∀ i, p = .running i → Extending comet i
  stored : LinkedBy R p.store.load low
  bound : low ≤ p.store.height
  waiting : ∀ i, p = .running i → ∀ pending head, i.pending = some pending →
    i.store.load i.store.height = some head → R pending head

variable {comet} {ask : Int → SourceAnswer V}

theorem Extending.of_cached {i i' : HotIngestor V} (extending : Extending comet i)
    (cached : Cached comet ask i i') : Extending comet i' := by
  obtain ⟨checked, next⟩ := extending
  constructor
  · rwa [cached.pending, cached.opts]
  · unfold afterHead at *
    rwa [cached.pending, cached.store, cached.opts]

theorem Extending.saveBlock_ne_none {i : HotIngestor V} {pending : Block} (extending : Extending comet i)
    (waiting : i.pending = some pending) : i.store.saveBlock pending ≠ none := by
  -- a pending block can always be saved, so `SaveBlock` does not panic
  have positive := (extending.checked pending waiting).positive
  have nonneg := i.store.height_nonneg
  have next := extending.next pending waiting
  unfold afterHead at next
  have saved : (i.store.saveBlock pending).isSome = true := by
    refine BlockStore.saveBlock_isSome.mpr ⟨positive, ?_⟩
    split at next <;> omega
  intro failed
  rw [failed] at saved
  cases saved

@[simp] theorem accept_store (i : HotIngestor V) (block : Block) (persisted : Int) :
    (i.accept block persisted).1.store = i.store := by simp [accept]

@[simp] theorem accept_opts (i : HotIngestor V) (block : Block) (persisted : Int) :
    (i.accept block persisted).1.opts = i.opts := by simp [accept]

@[simp] theorem accept_pending (i : HotIngestor V) (block : Block) (persisted : Int) :
    (i.accept block persisted).1.pending = some block := by simp [accept]

@[simp] theorem accept_fetchedSets (i : HotIngestor V) (block : Block) (persisted : Int) :
    (i.accept block persisted).1.fetchedSets = i.fetchedSets := by simp [accept]

theorem accept_extending {i : HotIngestor V} {block : Block} {persisted : Int}
    (checked : Checked comet i.opts block) (next : block.height = i.afterHead) :
    Extending comet (i.accept block persisted).1 := by
  constructor
  · intro pending waiting
    rw [accept_pending] at waiting
    cases waiting
    rwa [accept_opts]
  · intro pending waiting
    rw [accept_pending] at waiting
    cases waiting
    unfold afterHead at *
    rwa [accept_store, accept_opts]

theorem nextHeight_of_empty {i : HotIngestor V} (empty : i.pending = none) (positive : 0 < i.nextHeight) :
    i.nextHeight = i.afterHead := by
  simp only [nextHeight, afterHead, empty] at positive ⊢
  split
  next nonempty =>
    rw [if_pos nonempty] at positive
    exact succ64_of_pos positive
  next => rfl

theorem nextHeight_eq_afterHead {i : HotIngestor V} (empty : i.pending = none) (within : i.afterHead ≤ maxInt64) :
    i.nextHeight = i.afterHead := by
  simp only [nextHeight, afterHead, empty] at within ⊢
  split
  next nonempty =>
    rw [if_pos nonempty] at within
    exact succ64_of_lt (by omega)
  next => rfl

theorem afterHead_of_pos {i : HotIngestor V} (nonempty : 0 < i.store.height) :
    i.afterHead = i.store.height + 1 := by
  simp [afterHead, nonempty]

theorem nextHeight_of_pending {i : HotIngestor V} {pending : Block} (waiting : i.pending = some pending) :
    i.nextHeight = succ64 pending.height := by
  simp [nextHeight, waiting]

theorem height_of_pending {i : HotIngestor V} {pending block : Block} (waiting : i.pending = some pending)
    (next : block.height = i.nextHeight) (positive : 0 < block.height) : block.height = pending.height + 1 := by
  rw [next, nextHeight_of_pending waiting] at positive ⊢
  exact succ64_of_pos positive

theorem submit_extending {i : HotIngestor V} (extending : Extending comet i) (ask : Int → SourceAnswer V)
    (block : Option Block) :
    Extending comet (submit comet ask i block).1 ∧ (submit comet ask i block).2 ≠ .panic := by
  have cases := submit_cases comet ask i block
  generalize submit comet ask i block = result at cases
  cases cases with
  | rejected _ i' err cached => exact ⟨extending.of_cached cached, by simp⟩
  | first block mid cached checked next empty extended =>
    refine ⟨accept_extending (by rwa [cached.opts]) ?_, by simp [accept]⟩
    rw [next, nextHeight_of_empty empty (next ▸ checked.positive), afterHead, afterHead, cached.store, cached.opts]
  | persisted block pending mid commit header store cached checked next waiting commits signed saved =>
    refine ⟨accept_extending (by dsimp only; rwa [cached.opts]) ?_, by simp [accept]⟩
    have height := (BlockStore.saveBlock_spec saved).1
    have positive := (extending.checked pending waiting).positive
    rw [height_of_pending waiting next checked.positive, afterHead_of_pos (by dsimp only; omega), height]
  | panicked block pending mid cached waiting failed =>
    exact absurd failed (extending.saveBlock_ne_none waiting)

theorem submit_ok {i i' : HotIngestor V} {block : Option Block} {result : IngestResult}
    (accepted : submit comet ask i block = (i', .ok result)) :
    ∃ next, block = some next ∧ next.height = i.nextHeight ∧ i'.pending = some next ∧ i'.opts = i.opts ∧
      (∀ h vals, i'.fetchedSets[h]? = some vals → i.fetchedSets[h]? = some vals ∨ Answered comet ask h vals) ∧
      (i.pending = none ∧ i'.store = i.store ∨
        ∃ pending, i.pending = some pending ∧ i.store.saveBlock pending = some i'.store) := by
  have cases := submit_cases comet ask i block
  rw [accepted] at cases
  generalize same : (i', Outcome.ok result) = final at cases
  cases cases with
  | rejected => cases same
  | panicked => cases same
  | first block mid cached checked next empty =>
    have state : i' = (mid.accept block 0).1 := by rw [← same]
    subst state
    refine ⟨block, rfl, next, accept_pending .., ?_, ?_, .inl ⟨empty, ?_⟩⟩
    · rw [accept_opts, cached.opts]
    · rw [accept_fetchedSets]
      exact cached.fetched
    · rw [accept_store, cached.store]
  | persisted block pending mid commit header store cached checked next waiting commits signed saved =>
    have state : i' = (accept { mid with store } block pending.height).1 := by rw [← same]
    subst state
    refine ⟨block, rfl, next, accept_pending .., ?_, ?_, .inr ⟨pending, waiting, ?_⟩⟩
    · rw [accept_opts]
      exact cached.opts
    · rw [accept_fetchedSets]
      exact cached.fetched
    · rw [accept_store, saved]

theorem submit_pending (comet : Comet V) (ask : Int → SourceAnswer V) (i : HotIngestor V) (block : Option Block) :
    (submit comet ask i block).1.pending = i.pending ∨
      ∃ next, block = some next ∧ next.height = i.nextHeight ∧ (submit comet ask i block).1.pending = some next := by
  have cases := submit_cases comet ask i block
  generalize submit comet ask i block = result at cases
  cases cases with
  | rejected _ i' err cached => exact .inl cached.pending
  | panicked block pending mid cached => exact .inl cached.pending
  | first block mid cached checked next => exact .inr ⟨block, rfl, next, accept_pending ..⟩
  | persisted block pending mid commit header store cached checked next =>
    exact .inr ⟨block, rfl, next, accept_pending ..⟩

theorem linkedBy_saveBlock {R : Block → Block → Prop} {store store' : BlockStore} {low : Int}
    {block : Block} (linked : LinkedBy R store.load low) (saved : store.saveBlock block = some store')
    (next : ∀ head, store.load store.height = some head → R block head) : LinkedBy R store'.load low := by
  have extend := BlockStore.saveBlock_isSome.mp (Option.isSome_of_eq_some saved)
  have after := BlockStore.saveBlock_spec saved
  intro h lower upper bound found above
  have bounds := BlockStore.bounds_of_load above
  rw [BlockStore.saveBlock_load_of_ne saved (by omega)] at found
  by_cases top : h + 1 = block.height
  · rw [top, BlockStore.saveBlock_load_self saved] at above
    cases above
    have inside := BlockStore.bounds_of_load found
    have head : h = store.height := by omega
    exact next lower (head ▸ found)
  · rw [BlockStore.saveBlock_load_of_ne saved top] at above
    exact linked h lower upper bound found above

theorem linkedBy_pruneBlocks {R : Block → Block → Prop} {store store' : BlockStore} {low target : Int}
    (linked : LinkedBy R store.load low) (pruned : store.pruneBlocks target = .ok store') :
    LinkedBy R store'.load low := by
  obtain ⟨-, -, -, -, -, -, load⟩ := BlockStore.pruneBlocks_spec pruned
  refine linked.of_subset fun h b found => ?_
  rw [load] at found
  split at found
  · cases found
  · exact found

theorem load_head_of_pruneBlocks {store store' : BlockStore} {target : Int}
    (pruned : store.pruneBlocks target = .ok store') : store'.load store'.height = store.load store.height := by
  obtain ⟨-, -, reach, -, -, height, load⟩ := BlockStore.pruneBlocks_spec pruned
  rw [load, height, if_neg (by omega)]

theorem step_submit {i : HotIngestor V} {block : Option Block} (alive : (submit comet ask i block).2 ≠ .panic) :
    (Process.running i).step comet (.submit ask block) = .running (submit comet ask i block).1 := by
  cases called : submit comet ask i block with
  | mk i' outcome =>
    rw [called] at alive
    cases outcome with
    | ok value => simp [Process.step, called]
    | error err => simp [Process.step, called]
    | panic => exact absurd rfl alive

structure Links (comet : Comet V) (R : Block → Block → Prop) (p : Process V) (event : Event V) : Prop where
  -- what the two ways a block becomes pending must give for the links to be kept
  first : ∀ i ask block head, p = .running i → event = .submit ask (some block) → i.pending = none →
    Checked comet i.opts block → block.height = i.store.height + 1 → extendsHead comet i.store block = true →
    i.store.load i.store.height = some head → R block head
  commit : ∀ opts pending block commit header, 0 < pending.height → block.height = pending.height + 1 →
    Checked comet opts block → CommitsTo comet pending block commit header → R block pending

theorem Chained.submit {R : Block → Block → Prop} {low : Int} {i : HotIngestor V} {block : Option Block}
    (chained : Chained comet R low (.running i)) (links : Links comet R (.running i) (.submit ask block)) :
    Chained comet R low (.running (submit comet ask i block).1) := by
  obtain ⟨extending, stored, bound, waiting⟩ := chained
  replace extending := extending i rfl
  have kept := submit_extending extending ask block
  suffices LinkedBy R (HotIngestor.submit comet ask i block).1.store.load low ∧
      low ≤ (HotIngestor.submit comet ask i block).1.store.height ∧
      ∀ pending head, (HotIngestor.submit comet ask i block).1.pending = some pending →
        (HotIngestor.submit comet ask i block).1.store.load
          (HotIngestor.submit comet ask i block).1.store.height = some head → R pending head from
    ⟨fun _ same => by cases same; exact kept.1, this.1, this.2.1, fun _ same => by cases same; exact this.2.2⟩
  have cases := submit_cases comet ask i block
  generalize HotIngestor.submit comet ask i block = result at cases
  cases cases with
  | rejected _ i' err cached =>
    dsimp only
    rw [cached.store, cached.pending]
    exact ⟨stored, bound, waiting i rfl⟩
  | first block mid cached checked next empty extended =>
    simp only [accept_store, accept_pending, cached.store, Option.some.injEq]
    refine ⟨stored, bound, ?_⟩
    rintro _ head rfl found
    have bounds := BlockStore.bounds_of_load found
    exact links.first i ask block head rfl rfl empty checked
      (by rw [next, nextHeight_of_empty empty (next ▸ checked.positive), afterHead_of_pos (by omega)]) extended found
  | persisted block pending mid commit header store cached checked next present commits signed saved =>
    have after := BlockStore.saveBlock_spec saved
    have grown := BlockStore.saveBlock_isSome.mp (Option.isSome_of_eq_some saved)
    simp only [accept_store, accept_pending, Option.some.injEq]
    refine ⟨linkedBy_saveBlock stored saved fun head found => waiting i rfl pending head present found,
      ?_, ?_⟩
    · change low ≤ i.store.height at bound
      omega
    · rintro _ head rfl found
      rw [after.1, BlockStore.saveBlock_load_self saved] at found
      cases found
      exact links.commit _ pending block commit header grown.1
        (height_of_pending present next checked.positive) checked commits
  | panicked block pending mid cached present failed =>
    exact absurd failed (extending.saveBlock_ne_none present)

theorem Chained.step {R : Block → Block → Prop} {low : Int} {p : Process V} {event : Event V}
    (chained : Chained comet R low p) (links : Links comet R p event) :
    Chained comet R low (p.step comet event) := by
  cases event with
  | start opts =>
    simp only [Process.step]
    split
    next i built =>
      obtain ⟨store, pending, -⟩ := newHotIngestor_spec comet built
      refine ⟨?_, ?_, ?_, ?_⟩
      · rintro _ ⟨⟩
        exact ⟨by simp [pending], by simp [pending]⟩
      · simpa only [Process.store, store] using chained.stored
      · simpa only [Process.store, store] using chained.bound
      · rintro _ ⟨⟩
        simp [pending]
    · exact ⟨by simp, chained.stored, chained.bound, by simp⟩
  | submit ask block =>
    cases p with
    | stopped store => exact chained
    | running i =>
      have kept := chained.submit links
      have alive := (submit_extending (chained.extending i rfl) ask block).2
      rwa [step_submit alive]
  | prune target =>
    simp only [Process.step]
    split
    next store pruned =>
      obtain ⟨-, -, -, -, -, height, -⟩ := BlockStore.pruneBlocks_spec pruned
      have head := load_head_of_pruneBlocks pruned
      have stored := linkedBy_pruneBlocks chained.stored pruned
      have bound := chained.bound
      cases p with
      | stopped old => exact ⟨by simp [Process.withStore], stored, height ▸ bound, by simp [Process.withStore]⟩
      | running i =>
        refine ⟨?_, stored, height ▸ bound, ?_⟩
        · rintro _ ⟨⟩
          obtain ⟨checked, next⟩ := chained.extending i rfl
          refine ⟨checked, fun pending waiting => ?_⟩
          rw [next pending waiting, afterHead, afterHead]
          simp only [height, Process.store]
        · rintro _ ⟨⟩ pending top waiting found
          exact chained.waiting i rfl pending top waiting (head ▸ found)
    · exact chained

theorem chained_stopped (R : Block → Block → Prop) (store : BlockStore) :
    Chained comet R store.height (.stopped store) := by
  refine ⟨by simp, ?_, le_refl _, by simp⟩
  intro h lower upper bound _ above
  have bounds := BlockStore.bounds_of_load above
  simp only [Process.store] at bounds
  omega

end CometArchive.Ingest
