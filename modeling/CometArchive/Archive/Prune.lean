import CometArchive.Archive.Manifest
import CometArchive.Comet.BlockStore

set_option autoImplicit false

namespace CometArchive.Archive

open GoBytes GoError

/-- The evidence options only reach `PruneBlocks` and are not kept. -/
structure PruneHotOptions where
  manifestKey : String
  retainBlocks : Int
  deriving DecidableEq, Repr

structure PruneHotResult where
  baseBefore : Int
  baseAfter : Int
  head : Int
  archivedThrough : Int
  pruneToHeight : Int
  pruned : Int
  deriving DecidableEq, Repr

/-- The loop of `sort.Search`; it halves the range, so `fuel` may be its length. -/
def sortSearchFrom (found : Nat → Bool) : Nat → Nat → Nat → Nat
  | 0, low, _ => low
  | fuel + 1, low, high =>
    if low < high then
      let mid := (low + high) / 2
      if found mid then sortSearchFrom found fuel low mid else sortSearchFrom found fuel (mid + 1) high
    else low

def sortSearch (n : Nat) (found : Nat → Bool) : Nat := sortSearchFrom found n 0 n

theorem sortSearchFrom_spec {n fuel low high : Nat} {found : Nat → Bool}
    (stays : ∀ i j, i ≤ j → j < n → found i = true → found j = true) (enough : high - low ≤ fuel) (ordered : low ≤ high)
    (inside : high ≤ n) (below : ∀ i, i < low → found i = false) (above : ∀ i, high ≤ i → i < n → found i = true) :
    (∀ i, i < sortSearchFrom found fuel low high → found i = false) ∧
      ∀ i, sortSearchFrom found fuel low high ≤ i → i < n → found i = true := by
  -- where `found` stays true once it is, the search ends at the first index at which it is
  induction fuel generalizing low high with
  | zero =>
    have met : low = high := by omega
    subst met
    exact ⟨below, above⟩
  | succ fuel ih =>
    unfold sortSearchFrom
    split
    next =>
      have mid : (low + high) / 2 < n := by omega
      dsimp only
      split
      next here =>
        apply ih (by omega) (by omega) (by omega) below
        intro i least bound
        exact stays _ i least bound here
      next missing =>
        refine ih (by omega) (by omega) inside ?_ above
        intro i most
        by_contra other
        exact missing (stays i _ (by omega) mid (by simpa using other))
    next =>
      have met : low = high := by omega
      subst met
      exact ⟨below, above⟩

theorem sortSearch_spec {n : Nat} {found : Nat → Bool}
    (stays : ∀ i j, i ≤ j → j < n → found i = true → found j = true) :
    (∀ i, i < sortSearch n found → found i = false) ∧ ∀ i, sortSearch n found ≤ i → i < n → found i = true := by
  apply sortSearchFrom_spec stays le_rfl n.zero_le le_rfl
  · intro i none
    cases none
  · intro i above below
    omega

theorem Tiles.sortSearch_segment {next stop height : Int} {segments : List SegmentManifest} {found : Nat → Bool}
    (tiles : Tiles next segments stop) (valid : ∀ segment ∈ segments, segment.Valid) (low : next ≤ height)
    (high : height < stop) (reaches : ∀ i (bound : i < segments.length), found i = true ↔ height ≤ segments[i].lastHeight) :
    ∃ segment, segments[sortSearch segments.length found]? = some segment ∧ segment.firstHeight ≤ height ∧
      height ≤ segment.lastHeight := by
  obtain ⟨segment, member, above, below⟩ := tiles.exists_segment low high
  obtain ⟨k, inside, rfl⟩ := List.getElem_of_mem member
  have apart : ∀ i j (first : i < segments.length) (second : j < segments.length), i < j →
      segments[i].lastHeight < segments[j].firstHeight := fun i j first second =>
    List.pairwise_iff_getElem.mp (tiles.apart valid) i j first second
  have stays : ∀ i j, i ≤ j → j < segments.length → found i = true → found j = true := by
    intro i j order bound here
    rw [reaches i (by omega)] at here
    rw [reaches j bound]
    rcases Nat.lt_or_eq_of_le order with before | rfl
    · have further := apart i j (by omega) bound before
      have last := (valid _ (List.getElem_mem bound)).last
      omega
    · exact here
  obtain ⟨less, more⟩ := sortSearch_spec stays
  have first : sortSearch segments.length found = k := by
    refine Nat.le_antisymm ?_ ?_
    · by_contra later
      have missing := less k (by omega)
      rw [(reaches k inside).mpr below] at missing
      cases missing
    · by_contra earlier
      have bound : sortSearch segments.length found < segments.length := by omega
      have here := (reaches _ bound).mp (more _ le_rfl bound)
      have further := apart _ k bound inside (by omega)
      omega
  rw [first, List.getElem?_eq_getElem inside]
  exact ⟨segments[k], rfl, above, below⟩

variable {V : Type} (comet : Comet V)

def validatePruneBoundary (blockStore : BlockStore) (manifest : Manifest) (chainID : String) (height : Int) :
    Except Err Unit := do
  refuse (manifest.chainID ≠ chainID)
    (.new s!"archive chain ID {quoted manifest.chainID} does not match hot store chain ID {quoted chainID}")
  refuse (height < manifest.firstHeight ∨ manifest.lastHeight < height)
    (.new s!"prune boundary {height} is outside archived range {manifest.firstHeight}-{manifest.lastHeight}")
  match blockStore.load height with
  | none => .error (.new s!"hot store prune boundary block {height} is missing")
  | some block =>
    let position := sortSearch manifest.segments.length fun i =>
      (manifest.segments[i]?.map fun segment => decide (height ≤ segment.lastHeight)).getD false
    match manifest.segments[position]? with
    | none => .error (.new s!"archive has no block index at prune boundary {height}")
    | some segment =>
      let index := height - segment.firstHeight
      refuse (index < 0 ∨ segment.blocks.length ≤ index)
        (.new s!"archive has no block index at prune boundary {height}")
      match segment.blocks[index.toNat]? with
      | none => .error (.new "index out of range")
      | some entry =>
        refuse (equalFold (hexEncode (comet.blockHash block)) entry.hash = false)
          (.new s!"archive block hash at prune boundary {height} does not match hot store")

def pruneChainID (blockStore : BlockStore) : Except Err String :=
  match blockStore.load blockStore.height with
  | none => .error (.new s!"latest block {blockStore.height} is missing")
  | some latest => .ok latest.chainID

/-- `ctx` is the state of the context, and `fault` the error `PruneBlocks` fails with, if it does. -/
def pruneHotStore (blockStore : BlockStore) (manifest : Manifest) (opts : PruneHotOptions) (ctx : Except Err Unit)
    (fault : Option Err) : Except Err (BlockStore × PruneHotResult) := do
  refuse (opts.retainBlocks ≤ 0) (.new "retain blocks must be positive")
  ctx
  let base := blockStore.base
  let head := blockStore.height
  let result : PruneHotResult :=
    { baseBefore := base, baseAfter := base, head, archivedThrough := manifest.lastHeight, pruneToHeight := 0, pruned := 0 }
  if base = 0 ∨ head = 0 then return (blockStore, result)
  else
    let retainPruneTo := head - opts.retainBlocks + 1
    let archivePruneTo := manifest.lastHeight + 1
    let pruneTo := min retainPruneTo archivePruneTo
    if pruneTo ≤ base then return (blockStore, result)
    else
      let pruneTo := if head < pruneTo then head else pruneTo
      refuse (base < manifest.firstHeight)
        (.new s!"archive starts at {manifest.firstHeight} after hot store base {base}")
      let chainID ← pruneChainID blockStore
      validatePruneBoundary comet blockStore manifest chainID (pruneTo - 1)
      match fault with
      | some err => .error err
      | none =>
        let pruned ← blockStore.pruneBlocks pruneTo
        return (pruned, { result with pruneToHeight := pruneTo, pruned := pruneTo - base, baseAfter := pruned.base })

variable {comet} {blockStore after : BlockStore} {manifest : Manifest}

theorem validatePruneBoundary_spec {chainID : String} {height : Int}
    (valid : ∀ segment ∈ manifest.segments, segment.Valid)
    (ok : validatePruneBoundary comet blockStore manifest chainID height = .ok ()) :
    manifest.chainID = chainID ∧ manifest.firstHeight ≤ height ∧ height ≤ manifest.lastHeight ∧
      ∃ block hash, blockStore.load height = some block ∧ manifest.Indexes height hash ∧
        equalFold (hexEncode (comet.blockHash block)) hash = true := by
  -- the block at a boundary that passes has, up to the case of the digits, the hash of the index
  simp only [validatePruneBoundary, then_eq_ok, refuse_eq_ok] at ok
  obtain ⟨chain, range, ok⟩ := ok
  refine ⟨not_not.mp chain, by omega, by omega, ?_⟩
  split at ok
  · cases ok
  next block found =>
    refine ⟨block, ?_⟩
    split at ok
    · cases ok
    next segment position =>
      simp only [then_eq_ok, refuse_eq_ok] at ok
      obtain ⟨inside, ok⟩ := ok
      split at ok
      · cases ok
      next entry index =>
        have member : segment ∈ manifest.segments := List.mem_of_getElem? position
        have indexed := (valid segment member).blocks.getElem index
        rw [refuse_eq_ok] at ok
        exact ⟨entry.hash, found, ⟨segment, member, entry, List.mem_of_getElem? index, by omega, rfl⟩, by simpa using ok⟩

theorem pruneHotStore_spec {opts : PruneHotOptions} {ctx : Except Err Unit} {fault : Option Err} {result : PruneHotResult}
    (ok : pruneHotStore comet blockStore manifest opts ctx fault = .ok (after, result)) :
    after = blockStore ∨
      ∃ pruneTo chainID, blockStore.pruneBlocks pruneTo = .ok after ∧ blockStore.base < pruneTo ∧
        pruneTo ≤ manifest.lastHeight + 1 ∧ pruneTo ≤ blockStore.height - opts.retainBlocks + 1 ∧
        manifest.firstHeight ≤ blockStore.base ∧
        validatePruneBoundary comet blockStore manifest chainID (pruneTo - 1) = .ok () := by
  simp only [pruneHotStore, then_eq_ok, refuse_eq_ok] at ok
  obtain ⟨retain, -, ok⟩ := ok
  split at ok
  next =>
    cases ok
    exact .inl rfl
  next =>
    split at ok
    next =>
      cases ok
      exact .inl rfl
    next above =>
      right
      rw [then_eq_ok, refuse_eq_ok, bind_eq_ok] at ok
      obtain ⟨covered, chainID, -, ok⟩ := ok
      rw [then_eq_ok] at ok
      obtain ⟨boundary, ok⟩ := ok
      split at ok
      · cases ok
      next =>
        obtain ⟨pruned, deleted, ok⟩ := bind_eq_ok.mp ok
        cases ok
        refine ⟨_, chainID, deleted, ?_, ?_, ?_, by omega, boundary⟩
        all_goals split <;> omega

end CometArchive.Archive
