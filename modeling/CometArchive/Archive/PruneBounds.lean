import CometArchive.Archive.Prune

set_option autoImplicit false

namespace CometArchive.Archive

open GoBytes GoError

variable {V : Type} (comet : Comet V)

/-- Operations on a hot store. An error does not undo them. -/
abbrev Hot := ExceptT Err (StateM BlockStore)

namespace Hot

def blockStore : Hot BlockStore := ExceptT.mk fun store => (.ok store, store)

def raise {α : Type} (outcome : Except Err α) : Hot α := ExceptT.mk fun store => (outcome, store)

-- `PruneBlocks`, which fails with `fault`, if there is one, before it deletes anything
def pruneBlocks (fault : Option Err) (target : Int) : Hot Unit := ExceptT.mk fun store =>
  match fault with
  | some err => (.error err, store)
  | none =>
    match store.pruneBlocks target with
    | .ok pruned => (.ok (), pruned)
    | .error err => (.error err, store)

def pruneHotStore (manifest : Manifest) (opts : PruneHotOptions) (ctx : Except Err Unit) (fault : Option Err) :
    Hot PruneHotResult := do
  raise (refuse (opts.retainBlocks ≤ 0) (.new "retain blocks must be positive"))
  raise ctx
  let store ← blockStore
  let base := store.base
  let head := store.height
  let result : PruneHotResult :=
    { baseBefore := base, baseAfter := base, head, archivedThrough := manifest.lastHeight, pruneToHeight := 0, pruned := 0 }
  if base = 0 ∨ head = 0 then return result
  else
    let retainPruneTo := wrap64 (wrap64 (head - opts.retainBlocks) + 1)
    let archivePruneTo := wrap64 (manifest.lastHeight + 1)
    let pruneTo := min retainPruneTo archivePruneTo
    if pruneTo ≤ base then return result
    else
      let pruneTo := if head < pruneTo then head else pruneTo
      raise (refuse (base < manifest.firstHeight)
        (.new s!"archive starts at {manifest.firstHeight} after hot store base {base}"))
      let chainID ← raise (pruneChainID store)
      raise (validatePruneBoundary comet store manifest chainID (wrap64 (pruneTo - 1)))
      pruneBlocks fault pruneTo
      let after ← blockStore
      return { result with pruneToHeight := pruneTo, pruned := pruneTo - base, baseAfter := after.base }

def on {α : Type} (p : Hot α) (store : BlockStore) : Except Err α × BlockStore := p.run store

section Rules

variable {α β : Type} {store : BlockStore}

theorem on_store_bind (f : BlockStore → Hot β) : (blockStore >>= f).on store = (f store).on store := rfl

theorem on_raise_ok (value : α) (f : α → Hot β) : (raise (.ok value) >>= f).on store = (f value).on store := rfl

theorem on_pruneBlocks_bind (fault : Option Err) (target : Int) (f : Unit → Hot β) :
    (pruneBlocks fault target >>= f).on store = match fault, store.pruneBlocks target with
      | some err, _ => (.error err, store)
      | none, .error err => (.error err, store)
      | none, .ok pruned => (f ()).on pruned := by
  change ExceptT.bindCont f ((pruneBlocks fault target).on store).1 ((pruneBlocks fault target).on store).2 = _
  cases fault with
  | some err => rfl
  | none =>
    unfold pruneBlocks on ExceptT.run ExceptT.mk
    dsimp only
    cases store.pruneBlocks target with
    | error err => rfl
    | ok pruned => rfl

end Rules

end Hot

section Bounds

variable {comet} {blockStore : BlockStore} {manifest : Manifest} {opts : PruneHotOptions} {ctx : Except Err Unit}
  {fault : Option Err}

theorem Manifest.Valid.last_bounds (valid : manifest.Valid) : 0 ≤ manifest.lastHeight ∧ manifest.lastHeight < maxInt64 := by
  rcases valid.range with ⟨-, -, last⟩ | ⟨-, positive, ordered, tiles⟩
  · rw [last]
    exact ⟨le_rfl, by decide⟩
  · obtain ⟨segment, member, -, above⟩ := tiles.exists_segment ordered (by omega)
    have bounded := (valid.segments segment member).bounded
    omega

def pruneTo (blockStore : BlockStore) (manifest : Manifest) (opts : PruneHotOptions) : Int :=
  min (blockStore.height - opts.retainBlocks + 1) (manifest.lastHeight + 1)

inductive PruneRefused (comet : Comet V) (blockStore : BlockStore) (manifest : Manifest) (opts : PruneHotOptions)
    (ctx : Except Err Unit) (fault : Option Err) : Err → Prop
  | cancelled {err : Err} (ended : ctx = .error err) : PruneRefused comet blockStore manifest opts ctx fault err
  | uncovered (first : blockStore.base < manifest.firstHeight) : PruneRefused comet blockStore manifest opts ctx fault
      (.new s!"archive starts at {manifest.firstHeight} after hot store base {blockStore.base}")
  | chainID {latest : Block} (head : blockStore.load blockStore.height = some latest)
    (differ : manifest.chainID ≠ latest.chainID) : PruneRefused comet blockStore manifest opts ctx fault
      (.new s!"archive chain ID {quoted manifest.chainID} does not match hot store chain ID {quoted latest.chainID}")
  | mismatch {block : Block} {hash : Bytes}
    (boundary : blockStore.load (pruneTo blockStore manifest opts - 1) = some block)
    (indexed : manifest.Indexes (pruneTo blockStore manifest opts - 1) hash)
    (differ : equalFold (hexEncode (comet.blockHash block)) hash = false) :
      PruneRefused comet blockStore manifest opts ctx fault
      (.new s!"archive block hash at prune boundary {pruneTo blockStore manifest opts - 1} does not match hot store")
  | failed {err : Err} (faulty : fault = some err) : PruneRefused comet blockStore manifest opts ctx fault err

def keepOnError (blockStore : BlockStore) : Except Err (BlockStore × PruneHotResult) → Except Err PruneHotResult × BlockStore
  -- a prune over unbounded heights, on a store
  | .ok (after, result) => (.ok result, after)
  | .error err => (.error err, blockStore)

theorem Hot.pruneHotStore_on (valid : manifest.Valid) (retained : opts.retainBlocks ≤ maxInt64)
    (bounded : blockStore.height ≤ maxInt64) :
    (Hot.pruneHotStore comet manifest opts ctx fault).on blockStore =
      keepOnError blockStore (Archive.pruneHotStore comet blockStore manifest opts ctx fault) := by
  have last := valid.last_bounds
  have positive := blockStore.height_nonneg
  unfold maxInt64 at retained bounded last
  unfold Hot.pruneHotStore Archive.pruneHotStore
  by_cases none : opts.retainBlocks ≤ 0
  · simp only [refuse, if_pos none]
    rfl
  have sum : wrap64 (wrap64 (blockStore.height - opts.retainBlocks) + 1) = blockStore.height - opts.retainBlocks + 1 := by
    rw [wrap64_of_bounds (blockStore.height - opts.retainBlocks) (by omega) (by omega), wrap64_of_bounds _ (by omega) (by omega)]
  have next : wrap64 (manifest.lastHeight + 1) = manifest.lastHeight + 1 := wrap64_of_bounds _ (by omega) (by omega)
  simp only [refuse, if_neg none, Hot.on_raise_ok]
  cases ctx with
  | error err => rfl
  | ok =>
    rw [Hot.on_raise_ok, Hot.on_store_bind, sum, next]
    change _ = keepOnError blockStore (if blockStore.base = 0 ∨ blockStore.height = 0 then _ else _)
    split
    next => rfl
    next filled =>
      split
      next => rfl
      next above =>
        generalize limited : (if blockStore.height <
          min (blockStore.height - opts.retainBlocks + 1) (manifest.lastHeight + 1) then blockStore.height
          else min (blockStore.height - opts.retainBlocks + 1) (manifest.lastHeight + 1)) = target
        have one : wrap64 (target - 1) = target - 1 := by
          have range := blockStore.range
          apply wrap64_of_bounds <;> split at limited <;> omega
        rw [one]
        by_cases uncovered : blockStore.base < manifest.firstHeight
        · simp only [if_pos uncovered]
          rfl
        simp only [if_neg uncovered]
        rw [Hot.on_raise_ok]
        change _ = keepOnError blockStore (pruneChainID blockStore >>= _)
        cases pruneChainID blockStore with
        | error err => rfl
        | ok chainID =>
          rw [Hot.on_raise_ok]
          change _ = keepOnError blockStore (validatePruneBoundary comet blockStore manifest chainID (target - 1) >>= _)
          cases validatePruneBoundary comet blockStore manifest chainID (target - 1) with
          | error err => rfl
          | ok =>
            rw [Hot.on_raise_ok, Hot.on_pruneBlocks_bind]
            cases fault with
            | some err => rfl
            | none =>
              change _ = keepOnError blockStore (blockStore.pruneBlocks target >>= _)
              cases blockStore.pruneBlocks target with
              | error err => rfl
              | ok pruned => rfl

theorem Tiles.pruneSearch {segments : List SegmentManifest} {segment : SegmentManifest} {next stop height : Int}
    (tiles : Tiles next segments stop) (valid : ∀ segment ∈ segments, segment.Valid) (member : segment ∈ segments)
    (low : segment.firstHeight ≤ height) (high : height ≤ segment.lastHeight) :
    segments[sortSearch segments.length fun i =>
      (segments[i]?.map fun segment => decide (height ≤ segment.lastHeight)).getD false]? = some segment := by
  have bounds := (tiles.bounds valid).2 segment member
  obtain ⟨other, position, above, below⟩ := tiles.sortSearch_segment valid (by omega : next ≤ height) (by omega)
    (fun i bound => by simp [List.getElem?_eq_getElem bound] :
      ∀ i (bound : i < segments.length), ((segments[i]?.map fun segment =>
        decide (height ≤ segment.lastHeight)).getD false) = true ↔ height ≤ segments[i].lastHeight)
  rw [tiles.unique valid segment member other (List.mem_of_getElem? position) low high above below]
  exact position

theorem validatePruneBoundary_eq {chainID : String} {height : Int} {block : Block} {segment : SegmentManifest}
    {entry : BlockIndex} (valid : manifest.Valid) (member : segment ∈ manifest.segments)
    (low : segment.firstHeight ≤ height) (high : height ≤ segment.lastHeight)
    (here : segment.blocks[(height - segment.firstHeight).toNat]? = some entry)
    (found : blockStore.load height = some block) :
    validatePruneBoundary comet blockStore manifest chainID height = (do
      refuse (manifest.chainID ≠ chainID)
        (.new s!"archive chain ID {quoted manifest.chainID} does not match hot store chain ID {quoted chainID}")
      refuse (equalFold (hexEncode (comet.blockHash block)) entry.hash = false)
        (.new s!"archive block hash at prune boundary {height} does not match hot store")) := by
  -- within the archived range the index has an entry, and only two checks are left to fail
  unfold validatePruneBoundary
  rcases valid.range with ⟨empty, -⟩ | ⟨-, -, -, tiles⟩
  · rw [empty] at member
    cases member
  have bounds := (tiles.bounds valid.segments).2 segment member
  have inside : ¬ (height < manifest.firstHeight ∨ manifest.lastHeight < height) := by omega
  have length := (valid.segments segment member).length
  have indexed : ¬ (height - segment.firstHeight < 0 ∨ (segment.blocks.length : Int) ≤ height - segment.firstHeight) := by
    omega
  simp only [found, tiles.pruneSearch valid.segments member low high, here]
  rw [refuse_eq_ok.mpr inside, refuse_eq_ok.mpr indexed]
  rfl

theorem validatePruneBoundary_error {chainID : String} {height : Int} {block : Block} {err : Err} (valid : manifest.Valid)
    (low : manifest.firstHeight ≤ height) (high : height ≤ manifest.lastHeight) (positive : 0 < manifest.firstHeight)
    (found : blockStore.load height = some block)
    (failed : validatePruneBoundary comet blockStore manifest chainID height = .error err) :
    (manifest.chainID ≠ chainID ∧
      err = .new s!"archive chain ID {quoted manifest.chainID} does not match hot store chain ID {quoted chainID}") ∨
    ∃ hash, manifest.Indexes height hash ∧ equalFold (hexEncode (comet.blockHash block)) hash = false ∧
      err = .new s!"archive block hash at prune boundary {height} does not match hot store" := by
  rcases valid.range with ⟨-, first, -⟩ | ⟨-, -, -, tiles⟩
  · omega
  obtain ⟨segment, member, above, below⟩ := tiles.exists_segment low (by omega)
  have length := (valid.segments segment member).length
  obtain ⟨entry, here⟩ : ∃ entry, segment.blocks[(height - segment.firstHeight).toNat]? = some entry :=
    ⟨_, List.getElem?_eq_getElem (by omega)⟩
  have same := (valid.segments segment member).blocks.getElem here
  rw [validatePruneBoundary_eq valid member above below here found] at failed
  by_cases chain : manifest.chainID ≠ chainID
  · rw [refuse, if_pos chain] at failed
    exact .inl ⟨chain, (Except.error.inj failed).symm⟩
  · rw [refuse, if_neg chain] at failed
    refine .inr ⟨entry.hash, ⟨segment, member, entry, List.mem_of_getElem? here, by omega, rfl⟩, ?_⟩
    by_cases differ : equalFold (hexEncode (comet.blockHash block)) entry.hash = false
    · rw [refuse, if_pos differ] at failed
      exact ⟨differ, (Except.error.inj failed).symm⟩
    · rw [refuse, if_neg differ] at failed
      cases failed

theorem pruneHotStore_deletes {after : BlockStore} {result : PruneHotResult}
    (ok : pruneHotStore comet blockStore manifest opts ctx fault = .ok (after, result)) :
    if blockStore.base < pruneTo blockStore manifest opts then
      blockStore.pruneBlocks (pruneTo blockStore manifest opts) = .ok after ∧ manifest.firstHeight ≤ blockStore.base ∧
        result.pruneToHeight = pruneTo blockStore manifest opts ∧
        result.pruned = pruneTo blockStore manifest opts - blockStore.base ∧ result.baseAfter = after.base
    else after = blockStore ∧ result.pruned = 0 := by
  have range := blockStore.range
  simp only [pruneHotStore, then_eq_ok, refuse_eq_ok] at ok
  obtain ⟨retain, -, ok⟩ := ok
  -- with something to retain the target is never above the head
  have within : pruneTo blockStore manifest opts ≤ blockStore.height := by
    unfold pruneTo
    omega
  split at ok
  next empty =>
    cases ok
    rw [if_neg (by omega)]
    exact ⟨rfl, rfl⟩
  next =>
    change (if pruneTo blockStore manifest opts ≤ blockStore.base then _ else _) = _ at ok
    split at ok
    next low =>
      cases ok
      rw [if_neg (by omega)]
      exact ⟨rfl, rfl⟩
    next above =>
      have same : (if blockStore.height < min (blockStore.height - opts.retainBlocks + 1) (manifest.lastHeight + 1) then
          blockStore.height else min (blockStore.height - opts.retainBlocks + 1) (manifest.lastHeight + 1)) =
          pruneTo blockStore manifest opts := if_neg (by unfold pruneTo at within; omega)
      rw [same, then_eq_ok, refuse_eq_ok, bind_eq_ok] at ok
      obtain ⟨covered, chainID, -, ok⟩ := ok
      rw [then_eq_ok] at ok
      obtain ⟨-, ok⟩ := ok
      split at ok
      · cases ok
      next =>
        obtain ⟨pruned, deleted, ok⟩ := bind_eq_ok.mp ok
        cases ok
        rw [if_pos (by omega)]
        exact ⟨deleted, by omega, rfl, rfl, rfl⟩

theorem pruneHotStore_refused {err : Err} (valid : manifest.Valid) (retain : 0 < opts.retainBlocks)
    (failed : pruneHotStore comet blockStore manifest opts ctx fault = .error err) :
    PruneRefused comet blockStore manifest opts ctx fault err := by
  have range := blockStore.range
  have within : pruneTo blockStore manifest opts ≤ blockStore.height ∧
      pruneTo blockStore manifest opts ≤ manifest.lastHeight + 1 := by
    unfold pruneTo
    omega
  unfold pruneHotStore at failed
  have kept : refuse (opts.retainBlocks ≤ 0) (.new "retain blocks must be positive" : Err) = .ok () :=
    refuse_eq_ok.mpr (by omega)
  rw [kept] at failed
  cases ctx with
  | error other =>
    cases failed
    exact .cancelled rfl
  | ok =>
    change (if blockStore.base = 0 ∨ blockStore.height = 0 then _ else _) = Except.error err at failed
    split at failed
    next => cases failed
    next filled =>
      change (if pruneTo blockStore manifest opts ≤ blockStore.base then _ else _) = _ at failed
      split at failed
      next => cases failed
      next above =>
        have same : (if blockStore.height < min (blockStore.height - opts.retainBlocks + 1) (manifest.lastHeight + 1) then
            blockStore.height else min (blockStore.height - opts.retainBlocks + 1) (manifest.lastHeight + 1)) =
            pruneTo blockStore manifest opts := if_neg (by unfold pruneTo at within; omega)
        rw [same] at failed
        by_cases uncovered : blockStore.base < manifest.firstHeight
        · rw [refuse, if_pos uncovered] at failed
          cases failed
          exact .uncovered uncovered
        rw [refuse, if_neg uncovered] at failed
        obtain ⟨latest, head⟩ := blockStore.exists_head (by omega)
        obtain ⟨block, boundary⟩ := blockStore.exists_load (by omega)
          (by omega : blockStore.base ≤ pruneTo blockStore manifest opts - 1) (by omega)
        have chain : pruneChainID blockStore = .ok latest.chainID := by
          rw [pruneChainID, head]
        rw [chain] at failed
        change (validatePruneBoundary comet blockStore manifest latest.chainID (pruneTo blockStore manifest opts - 1) >>= _) =
          Except.error err at failed
        cases checked : validatePruneBoundary comet blockStore manifest latest.chainID
            (pruneTo blockStore manifest opts - 1) with
        | error other =>
          rw [checked] at failed
          cases failed
          have positive : 0 < manifest.firstHeight := by
            rcases valid.range with ⟨-, -, last⟩ | ⟨-, positive, -⟩
            · omega
            · exact positive
          rcases validatePruneBoundary_error valid (by omega) (by omega) positive boundary checked with
            ⟨differ, rfl⟩ | ⟨hash, indexed, differ, rfl⟩
          · exact .chainID head differ
          · exact .mismatch boundary indexed differ
        | ok =>
          rw [checked] at failed
          cases fault with
          | some other =>
            cases failed
            exact .failed rfl
          | none =>
            change (blockStore.pruneBlocks (pruneTo blockStore manifest opts) >>= _) = Except.error err at failed
            unfold BlockStore.pruneBlocks at failed
            rw [dif_neg (by omega), dif_neg (by omega), dif_neg (by omega)] at failed
            cases failed

/-- A prune deletes the blocks below the lower of its two bounds or nothing at all. What it deletes is in the
archived range, what is to be retained stays, and a prune that fails has deleted nothing. -/
theorem prune_bounds (valid : manifest.Valid) (retain : 0 < opts.retainBlocks) (retained : opts.retainBlocks ≤ maxInt64)
    (bounded : blockStore.height ≤ maxInt64) {outcome : Except Err PruneHotResult} {after : BlockStore}
    (ran : (Hot.pruneHotStore comet manifest opts ctx fault).on blockStore = (outcome, after)) :
    (∀ result, outcome = .ok result →
      (blockStore.base < pruneTo blockStore manifest opts →
        (∀ height, after.load height =
          if height < pruneTo blockStore manifest opts then none else blockStore.load height) ∧
        after.base = pruneTo blockStore manifest opts ∧ after.height = blockStore.height) ∧
      (pruneTo blockStore manifest opts ≤ blockStore.base → after = blockStore)) ∧
    (∀ err, outcome = .error err →
      after = blockStore ∧ PruneRefused comet blockStore manifest opts ctx fault err) ∧
    (∀ height, blockStore.height - opts.retainBlocks < height → after.load height = blockStore.load height) ∧
    after.load blockStore.height = blockStore.load blockStore.height ∧
    (∀ height block, blockStore.load height = some block → after.load height = none →
      manifest.firstHeight ≤ height ∧ height ≤ manifest.lastHeight) ∧
    ∀ value, value = blockStore.height - opts.retainBlocks ∨ value = blockStore.height - opts.retainBlocks + 1 ∨
      value = manifest.lastHeight + 1 ∨ blockStore.base < pruneTo blockStore manifest opts ∧
        (value = pruneTo blockStore manifest opts - 1 ∨
          ∃ segment ∈ manifest.segments, value = pruneTo blockStore manifest opts - 1 - segment.firstHeight) →
      -2 ^ 63 ≤ value ∧ value < 2 ^ 63 := by
  have last := valid.last_bounds
  have positive := blockStore.height_nonneg
  have range := blockStore.range
  have target : pruneTo blockStore manifest opts ≤ blockStore.height - opts.retainBlocks + 1 ∧
      pruneTo blockStore manifest opts ≤ manifest.lastHeight + 1 := by
    unfold pruneTo
    omega
  rw [Hot.pruneHotStore_on valid retained bounded] at ran
  unfold maxInt64 at retained bounded last
  have sums : ∀ value, value = blockStore.height - opts.retainBlocks ∨ value = blockStore.height - opts.retainBlocks + 1 ∨
      value = manifest.lastHeight + 1 ∨ blockStore.base < pruneTo blockStore manifest opts ∧
        (value = pruneTo blockStore manifest opts - 1 ∨
          ∃ segment ∈ manifest.segments, value = pruneTo blockStore manifest opts - 1 - segment.firstHeight) →
      -2 ^ 63 ≤ value ∧ value < 2 ^ 63 := by
    rintro value (rfl | rfl | rfl | ⟨above, rfl | ⟨segment, member, rfl⟩⟩)
    · omega
    · omega
    · omega
    · omega
    · have segmentValid := valid.segments segment member
      have first := segmentValid.first
      have ordered := segmentValid.last
      have limit := segmentValid.bounded
      unfold maxInt64 at limit
      omega
  cases pruned : pruneHotStore comet blockStore manifest opts ctx fault with
  | error err =>
    rw [pruned] at ran
    cases ran
    refine ⟨by simp, ?_, fun _ _ => rfl, rfl, ?_, sums⟩
    · intro other same
      cases same
      exact ⟨rfl, pruneHotStore_refused valid retain pruned⟩
    · intro height block found missing
      rw [found] at missing
      cases missing
  | ok returned =>
    obtain ⟨store, result⟩ := returned
    rw [pruned] at ran
    cases ran
    have deletes := pruneHotStore_deletes pruned
    by_cases above : blockStore.base < pruneTo blockStore manifest opts
    · rw [if_pos above] at deletes
      obtain ⟨deleted, first, -⟩ := deletes
      obtain ⟨-, -, -, -, base, head, left⟩ := BlockStore.pruneBlocks_spec deleted
      refine ⟨?_, by simp, ?_, ?_, ?_, sums⟩
      · intro other _
        exact ⟨fun _ => ⟨left, base, head⟩, fun low => by omega⟩
      · intro height late
        rw [left height, if_neg (by omega)]
      · rw [left, if_neg (by omega)]
      · intro height block found missing
        have bounds := BlockStore.bounds_of_load found
        rw [left height] at missing
        split at missing
        next gone => omega
        next =>
          rw [found] at missing
          cases missing
    · rw [if_neg above] at deletes
      obtain ⟨rfl, -⟩ := deletes
      refine ⟨?_, by simp, fun _ _ => rfl, rfl, ?_, sums⟩
      · intro other _
        exact ⟨fun low => by omega, fun _ => rfl⟩
      · intro height block found missing
        rw [found] at missing
        cases missing

end Bounds

section Sample

def shortManifest : Manifest where
  revision := ""
  sourceKey := ""
  version := manifestVersion
  chainID := "c"
  firstHeight := 1
  lastHeight := 1
  createdAt := 0
  updatedAt := 0
  segments :=
    [{ key := "s", firstHeight := 1, lastHeight := 1, compression := compressionNone, sizeBytes := 1
       sha256 := hexEncode (List.replicate 32 0)
       blocks := [{ height := 1, hash := hexEncode (List.replicate 32 1), offset := 0 }] }]

def shortStore : BlockStore :=
  [Block.plain 1 [] (List.replicate 32 1), Block.plain 2 (List.replicate 32 1) (List.replicate 32 2)].foldl
    (fun store block => (store.saveBlock block).getD store) .empty

theorem prune_bounds_short : ∃ outcome after,
    (Hot.pruneHotStore Comet.plain shortManifest ⟨"m", 1⟩ (.ok ()) none).on shortStore = (outcome, after) ∧
    (∃ result, outcome = .ok result) ∧ shortStore.base = 1 ∧ after.base = 2 := by
  have valid : shortManifest.Valid := Manifest.validate_eq_ok.mp (by decide +kernel)
  have succeeds : ((Hot.pruneHotStore Comet.plain shortManifest ⟨"m", 1⟩ (.ok ()) none).on shortStore).1.isOk = true := by
    decide +kernel
  cases ran : (Hot.pruneHotStore Comet.plain shortManifest ⟨"m", 1⟩ (.ok ()) none).on shortStore with
  | mk outcome after =>
    rw [ran] at succeeds
    cases outcome with
    | error err => cases succeeds
    | ok result =>
      have bounds := prune_bounds valid (by decide) (by decide) (by decide +kernel) ran
      refine ⟨_, after, rfl, ⟨result, rfl⟩, by decide +kernel, ?_⟩
      exact (((bounds.1 result rfl).1 (by decide +kernel)).2.1).trans (by decide +kernel)

end Sample

end CometArchive.Archive
