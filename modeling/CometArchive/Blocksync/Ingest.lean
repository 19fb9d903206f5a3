import CometArchive.Comet.BlockStore
import CometArchive.Shared.Maps
import CometArchive.Shared.Text

set_option autoImplicit false

/-!
# The hot ingestor

`HotIngestor` of `ingest.go`. A block is kept pending until its successor commits it; the store only
ever holds committed blocks. The validator-set source is outside the process: each call of `submit`
takes the answers the source gives while that call runs, so they may change from call to call. A Go
map the options hold is the list of its entries, in the order the code ranges over them.
-/

namespace CometArchive.Ingest

open GoBytes GoText

inductive ValidationMode where
  | unset
  | storageOnly
  | checkpoint
  | validatorSet
  | unsupported (name : String)
  deriving DecidableEq, Repr

structure IngestOptions (V : Type) where
  chainID : String
  startHeight : Int
  safetyWindow : Int
  validation : ValidationMode
  checkpoints : List (Int × String)
  validatorSets : List (Int × Option V)
  hasSource : Bool

inductive SourceAnswer (V : Type) where
  | failed (err : Err)
  | missing
  | found (vals : V)

structure IngestResult where
  accepted : Int
  persisted : Int
  hotBase : Int
  hotHeight : Int
  readyToArchiveThrough : Int
  deriving DecidableEq, Repr

structure HotIngestor (V : Type) where
  store : BlockStore
  opts : IngestOptions V
  pending : Option Block
  fetchedSets : GoMap.Map Int V
  fetchedHeights : List Int
  verifiedThrough : Int

inductive Outcome (α : Type) where
  | ok (value : α)
  | error (err : Err)
  | panic
  deriving DecidableEq, Repr

def maxFetchedValidatorSets : Nat := 256

variable {V : Type} (comet : Comet V)

section Construction

def normalizeCheckpoint (entry : Int × String) : Except Err (Int × String) :=
  let hash := toLower (trimSpace entry.2)
  if entry.1 ≤ 0 then .error (.new s!"invalid checkpoint height {entry.1}")
  else if len hash ≠ 64 then
    .error (.new s!"checkpoint at height {entry.1} must be a 64-character hex hash")
  else if isHex (ofText hash) = false then
    .error (.wrap s!"checkpoint at height {entry.1} is not valid hex" (.new (hexDecodeError (ofText hash))))
  else .ok (entry.1, hash)

def normalizeCheckpoints : List (Int × String) → Except Err (List (Int × String))
  | [] => .ok []
  | entry :: rest =>
    match normalizeCheckpoint entry with
    | .error err => .error err
    | .ok entry =>
      match normalizeCheckpoints rest with
      | .error err => .error err
      | .ok rest => .ok (entry :: rest)

def validateValidatorSets : List (Int × Option V) → Except Err Unit
  | [] => .ok ()
  | (height, vals) :: rest =>
    if height ≤ 0 then .error (.new s!"invalid validator-set height {height}")
    else match vals with
      | none => .error (.new s!"nil validator set at height {height}")
      | some vals =>
        match comet.validateBasic vals with
        | .error err => .error (.wrap s!"validator set at height {height}" err)
        | .ok () => validateValidatorSets rest

def validateOptions (opts : IngestOptions V) : Except Err (IngestOptions V) :=
  -- the `switch` over the validation mode
  match opts.validation with
  | .unset => .ok { opts with validation := .storageOnly }
  | .storageOnly => .ok opts
  | .checkpoint =>
    if opts.checkpoints = [] then
      .error (.new "checkpoint validation requires at least one checkpoint")
    else match normalizeCheckpoints opts.checkpoints with
      | .error err => .error err
      | .ok normalized => .ok { opts with checkpoints := normalized }
  | .validatorSet =>
    if opts.validatorSets.length = 0 ∧ opts.hasSource = false then
      .error (.new "validator-set validation requires at least one validator set or validator set source")
    else match validateValidatorSets comet opts.validatorSets with
      | .error err => .error err
      | .ok () => .ok opts
  | .unsupported name => .error (.new s!"unsupported validation mode {GoError.quoted name}")

def hexHash (block : Block) : String := toLower (asciiText (hexEncode (comet.blockHash block)))

def storedCheckpoint (store : BlockStore) (checkpoints : List (Int × String)) : Int :=
  -- the loop that picks the highest checkpoint inside the stored range
  checkpoints.foldl (fun best entry =>
    if store.base ≤ entry.1 ∧ entry.1 ≤ store.height then max best entry.1 else best) 0

def namesPredecessor (chainID : String) (block previous : Block) : Bool :=
  match block.lastCommit with
  | none => false
  | some commit =>
    previous.chainID == chainID && block.lastCommitHash == comet.commitHash commit &&
      block.lastBlockID.hash == comet.blockHash previous && block.lastBlockID == commit.blockID

def checkAncestors (store : BlockStore) (chainID : String) : Nat → Block → Int → Except Err Unit
  -- the walk from a stored checkpoint down to the base, one predecessor a step
  | 0, _, _ => .ok ()
  | steps + 1, block, h =>
    match store.load (h - 1) with
    | none => .error (.new s!"checkpoint chain is broken at height {h}")
    | some previous =>
      if namesPredecessor comet chainID block previous then
        checkAncestors store chainID steps previous (h - 1)
      else .error (.new s!"checkpoint chain is broken at height {h}")

def recoverVerified (store : BlockStore) (opts : IngestOptions V) : Except Err Int :=
  if opts.validation ≠ .checkpoint then .ok 0
  else
    let checkpointHeight := storedCheckpoint store opts.checkpoints
    if checkpointHeight ≤ 0 then .ok 0
    else match store.load checkpointHeight with
      | none => .error (.new s!"stored checkpoint hash mismatch at height {checkpointHeight}")
      | some block =>
        if block.chainID ≠ opts.chainID ∨
            some (hexHash comet block) ≠ opts.checkpoints.lookup checkpointHeight then
          .error (.new s!"stored checkpoint hash mismatch at height {checkpointHeight}")
        else match checkAncestors comet store opts.chainID (checkpointHeight - store.base).toNat
            block checkpointHeight with
          | .error err => .error err
          | .ok () => .ok checkpointHeight

def newHotIngestor (store : Option BlockStore) (opts : IngestOptions V) : Except Err (HotIngestor V) :=
  match store with
  | none => .error (.new "block store is required")
  | some store =>
    if opts.chainID = "" then .error (.new "chain ID is required")
    else if opts.startHeight < 0 then .error (.new "start height cannot be negative")
    else
      let startHeight := if opts.startHeight ≤ 0 then succ64 store.height else opts.startHeight
      match validateOptions comet { opts with startHeight } with
      | .error err => .error err
      | .ok opts =>
        if opts.safetyWindow < 0 then .error (.new "safety window cannot be negative")
        else match recoverVerified comet store opts with
          | .error err => .error err
          | .ok verifiedThrough =>
            .ok { store, opts, pending := none, fetchedSets := ∅, fetchedHeights := [], verifiedThrough }

structure Configured (given opts : IngestOptions V) : Prop where
  -- what `newHotIngestor` leaves of the options it was given
  chainID : opts.chainID = given.chainID
  named : given.chainID ≠ ""
  window : opts.safetyWindow = given.safetyWindow
  windowNonneg : 0 ≤ opts.safetyWindow
  startPos : 0 < opts.startHeight ∨ opts.startHeight = -2 ^ 63
  start : 0 < given.startHeight → opts.startHeight = given.startHeight
  sets : opts.validatorSets = given.validatorSets
  source : opts.hasSource = given.hasSource
  mode : opts.validation = if given.validation = .unset then .storageOnly else given.validation
  checkpoints : opts.validation = .checkpoint → normalizeCheckpoints given.checkpoints = .ok opts.checkpoints

theorem validateOptions_spec {given opts : IngestOptions V} (valid : validateOptions comet given = .ok opts) :
    opts.chainID = given.chainID ∧ opts.safetyWindow = given.safetyWindow ∧
      opts.startHeight = given.startHeight ∧ opts.validatorSets = given.validatorSets ∧
      opts.hasSource = given.hasSource ∧
      opts.validation = (if given.validation = .unset then .storageOnly else given.validation) ∧
      (opts.validation = .checkpoint → normalizeCheckpoints given.checkpoints = .ok opts.checkpoints) := by
  unfold validateOptions at valid
  cases mode : given.validation with
  | unset =>
    simp only [mode, Except.ok.injEq] at valid
    subst valid
    simp
  | storageOnly =>
    simp only [mode, Except.ok.injEq] at valid
    subst valid
    simp [mode]
  | checkpoint =>
    simp only [mode] at valid
    split at valid
    · cases valid
    · cases normal : normalizeCheckpoints given.checkpoints with
      | error err => simp [normal] at valid
      | ok normalized =>
        simp only [normal, Except.ok.injEq] at valid
        subst valid
        simp
  | validatorSet =>
    simp only [mode] at valid
    split at valid
    · cases valid
    · cases checked : validateValidatorSets comet given.validatorSets with
      | error err => simp [checked] at valid
      | ok =>
        simp only [checked, Except.ok.injEq] at valid
        subst valid
        simp [mode]
  | unsupported name => simp [mode] at valid

theorem start_positive {store : BlockStore} {given start : Int} (same : start = if given ≤ 0 then succ64 store.height else given) :
    0 < start ∨ start = -2 ^ 63 := by
  have nonneg := store.height_nonneg
  unfold succ64 at same
  split at same
  · split at same <;> omega
  · omega

theorem newHotIngestor_spec {store : BlockStore} {given : IngestOptions V} {i : HotIngestor V}
    (built : newHotIngestor comet (some store) given = .ok i) :
    i.store = store ∧ i.pending = none ∧ i.fetchedSets = ∅ ∧ i.fetchedHeights = [] ∧
      Configured given i.opts ∧ recoverVerified comet store i.opts = .ok i.verifiedThrough := by
  have nonneg := store.height_nonneg
  simp only [newHotIngestor] at built
  split at built
  · cases built
  · split at built
    · cases built
    · split at built
      · cases built
      next named _ _ opts valid =>
        obtain ⟨chainID, window, start, sets, source, mode, checkpoints⟩ := validateOptions_spec comet valid
        split at built
        · cases built
        · cases recovered : recoverVerified comet store opts with
          | error err => simp [recovered] at built
          | ok verified =>
            simp only [recovered, Except.ok.injEq] at built
            subst built
            refine ⟨rfl, rfl, rfl, rfl, ?_, recovered⟩
            dsimp only at chainID window start sets source mode checkpoints
            exact
              { chainID, named, window, sets, source, mode, checkpoints
                windowNonneg := by dsimp only; omega
                startPos := start_positive start
                start := by intro given; dsimp only; split at start <;> omega }

end Construction

namespace HotIngestor

def nextHeight (i : HotIngestor V) : Int :=
  match i.pending with
  | some pending => succ64 pending.height
  | none => if 0 < i.store.height then succ64 i.store.height else i.opts.startHeight

def archiveHeightLimit (i : HotIngestor V) : Int :=
  if i.opts.validation = .checkpoint then i.verifiedThrough else i.store.height

def readyToArchiveThrough (i : HotIngestor V) : Int :=
  if i.store.height ≤ i.opts.safetyWindow then 0
  else
    let ready := i.store.height - i.opts.safetyWindow
    if i.opts.validation = .checkpoint then min ready i.verifiedThrough else ready

def withStoreState (i : HotIngestor V) (result : IngestResult) : IngestResult :=
  { result with
    hotBase := i.store.base
    hotHeight := i.store.height
    readyToArchiveThrough := i.readyToArchiveThrough }

def markCheckpoint (i : HotIngestor V) (block : Block) : HotIngestor V :=
  if i.opts.validation = .checkpoint ∧ (i.opts.checkpoints.lookup block.height).isSome then
    { i with verifiedThrough := block.height }
  else i

@[simp] theorem markCheckpoint_store (i : HotIngestor V) (block : Block) :
    (i.markCheckpoint block).store = i.store := by
  unfold markCheckpoint
  split <;> rfl

@[simp] theorem markCheckpoint_opts (i : HotIngestor V) (block : Block) :
    (i.markCheckpoint block).opts = i.opts := by
  unfold markCheckpoint
  split <;> rfl

@[simp] theorem markCheckpoint_pending (i : HotIngestor V) (block : Block) :
    (i.markCheckpoint block).pending = i.pending := by
  unfold markCheckpoint
  split <;> rfl

@[simp] theorem markCheckpoint_fetchedSets (i : HotIngestor V) (block : Block) :
    (i.markCheckpoint block).fetchedSets = i.fetchedSets := by
  unfold markCheckpoint
  split <;> rfl

theorem markCheckpoint_verifiedThrough (i : HotIngestor V) (block : Block) :
    (i.markCheckpoint block).verifiedThrough =
      if i.opts.validation = .checkpoint ∧ (i.opts.checkpoints.lookup block.height).isSome then block.height
      else i.verifiedThrough := by
  unfold markCheckpoint
  split <;> rfl

/-- `i.opts.ValidatorSets[height]`; an absent entry and a nil one read the same. -/
def configuredSet (opts : IngestOptions V) (height : Int) : Option V :=
  (opts.validatorSets.lookup height).join

def cacheSet (i : HotIngestor V) (height : Int) (vals : V) : HotIngestor V :=
  -- the insertion at the end of `validatorSetFor`, with the eviction of the oldest entry
  let (sets, heights) :=
    if maxFetchedValidatorSets ≤ i.fetchedHeights.length then
      match i.fetchedHeights with
      | evict :: rest => (i.fetchedSets.erase evict, rest)
      | [] => (i.fetchedSets, [])
    else (i.fetchedSets, i.fetchedHeights)
  { i with fetchedSets := sets.insert height vals, fetchedHeights := heights ++ [height] }

def Answered (ask : Int → SourceAnswer V) (height : Int) (vals : V) : Prop :=
  ask height = .found vals ∧ comet.validateBasic vals = .ok ()

structure Cached (ask : Int → SourceAnswer V) (i i' : HotIngestor V) : Prop where
  -- nothing but the cache of fetched sets differs, and the cache only gained answers of the source
  store : i'.store = i.store
  opts : i'.opts = i.opts
  pending : i'.pending = i.pending
  verified : i'.verifiedThrough = i.verifiedThrough
  fetched : ∀ height vals, i'.fetchedSets[height]? = some vals →
    i.fetchedSets[height]? = some vals ∨ Answered comet ask height vals

variable {comet} {ask : Int → SourceAnswer V}

theorem Cached.refl (i : HotIngestor V) : Cached comet ask i i :=
  ⟨rfl, rfl, rfl, rfl, fun _ _ found => .inl found⟩

theorem Cached.trans {i j k : HotIngestor V} (first : Cached comet ask i j) (second : Cached comet ask j k) :
    Cached comet ask i k where
  store := second.store.trans first.store
  opts := second.opts.trans first.opts
  pending := second.pending.trans first.pending
  verified := second.verified.trans first.verified
  fetched := fun height vals found =>
    (second.fetched height vals found).elim (first.fetched height vals) .inr

theorem cacheSet_cached {i : HotIngestor V} {height : Int} {vals : V}
    (answered : Answered comet ask height vals) : Cached comet ask i (i.cacheSet height vals) where
  store := rfl
  opts := rfl
  pending := rfl
  verified := rfl
  fetched := by
    intro other found present
    simp only [cacheSet, GoMap.get_insert] at present
    split at present
    next same =>
      cases present
      exact .inr (same ▸ answered)
    · refine .inl ?_
      split at present
      · split at present
        · rw [GoMap.get_erase] at present
          split at present
          · cases present
          · exact present
        · exact present
      · exact present

variable (comet) (ask)

def validatorSetFor (i : HotIngestor V) (height : Int) : HotIngestor V × Except Err V :=
  match configuredSet i.opts height with
  | some vals => (i, .ok vals)
  | none =>
    match i.fetchedSets[height]? with
    | some vals => (i, .ok vals)
    | none =>
      if i.opts.hasSource = false then
        (i, .error (.new s!"missing validator set for height {height}"))
      else match ask height with
        | .failed err => (i, .error (.wrap s!"load validator set for height {height}" err))
        | .missing => (i, .error (.new s!"validator set source returned nil for height {height}"))
        | .found vals =>
          match comet.validateBasic vals with
          | .error err => (i, .error (.wrap s!"validator set from source at height {height}" err))
          | .ok () => (i.cacheSet height vals, .ok vals)

/-- The set the ingestor trusts for `height`: a configured one, or else one the source answered. -/
def SetFor (i : HotIngestor V) (height : Int) (vals : V) : Prop :=
  configuredSet i.opts height = some vals ∨
    configuredSet i.opts height = none ∧
      (i.fetchedSets[height]? = some vals ∨ Answered comet ask height vals)

variable {comet} {ask}

theorem SetFor.of_cached {i i' : HotIngestor V} {height : Int} {vals : V} (cached : Cached comet ask i i')
    (set : SetFor comet ask i' height vals) : SetFor comet ask i height vals := by
  unfold SetFor at *
  rw [cached.opts] at set
  rcases set with configured | ⟨absent, found | answered⟩
  · exact .inl configured
  · exact .inr ⟨absent, cached.fetched height vals found⟩
  · exact .inr ⟨absent, .inr answered⟩

theorem validatorSetFor_spec {i i' : HotIngestor V} {height : Int} {result : Except Err V}
    (called : validatorSetFor comet ask i height = (i', result)) :
    Cached comet ask i i' ∧ ∀ vals, result = .ok vals → SetFor comet ask i height vals := by
  unfold validatorSetFor at called
  split at called
  next configured =>
    cases called
    exact ⟨.refl i, fun vals same => .inl (by cases same; exact configured)⟩
  next absent =>
    split at called
    next found =>
      cases called
      exact ⟨.refl i, fun vals same => .inr ⟨absent, .inl (by cases same; exact found)⟩⟩
    next =>
      split at called
      · cases called
        exact ⟨.refl i, by simp⟩
      · split at called
        · cases called
          exact ⟨.refl i, by simp⟩
        · cases called
          exact ⟨.refl i, by simp⟩
        next answer =>
          split at called
          · cases called
            exact ⟨.refl i, by simp⟩
          next basic =>
            cases called
            exact ⟨cacheSet_cached ⟨answer, basic⟩, fun vals same =>
              .inr ⟨absent, .inr (by cases same; exact ⟨answer, basic⟩)⟩⟩

variable (comet) (ask)

def checkBlock (opts : IngestOptions V) (block : Block) : Except Err Unit :=
  -- the checks of `validateBlock` on the block alone
  if block.chainID ≠ opts.chainID then
    .error (.new s!"block {block.height} chain ID {GoError.quoted block.chainID}, expected {GoError.quoted opts.chainID}")
  else if block.height ≤ 0 then .error (.new s!"invalid block height {block.height}")
  else if comet.blockHash block = [] then .error (.new s!"block {block.height} has empty hash")
  else if ∃ commit ∈ block.lastCommit, 1 < block.height ∧ block.lastBlockID ≠ commit.blockID then
    .error (.new s!"block {block.height} last block ID does not match last commit")
  else if ¬ ∃ commit ∈ block.lastCommit, block.lastCommitHash = comet.commitHash commit then
    .error (.new s!"block {block.height} last commit hash mismatch")
  else if opts.validation = .checkpoint then
    match opts.checkpoints.lookup block.height with
    | some want =>
      if hexHash comet block ≠ want then
        .error (.new s!"block {block.height} checkpoint hash mismatch: got {hexHash comet block} want {want}")
      else .ok ()
    | none => .ok ()
  else .ok ()

structure Checked (opts : IngestOptions V) (block : Block) : Prop where
  chainID : block.chainID = opts.chainID
  positive : 0 < block.height
  hashed : comet.blockHash block ≠ []
  committed : ∃ commit, block.lastCommit = some commit ∧ block.lastCommitHash = comet.commitHash commit ∧
    (1 < block.height → block.lastBlockID = commit.blockID)
  checkpoint : opts.validation = .checkpoint →
    ∀ want, opts.checkpoints.lookup block.height = some want → hexHash comet block = want

theorem checkBlock_eq_ok {opts : IngestOptions V} {block : Block} :
    checkBlock comet opts block = .ok () ↔ Checked comet opts block := by
  constructor
  · intro passed
    unfold checkBlock at passed
    split at passed
    · cases passed
    split at passed
    · cases passed
    split at passed
    · cases passed
    split at passed
    · cases passed
    split at passed
    · cases passed
    next chainID positive hashed linked committed =>
      have commit : ∃ commit, block.lastCommit = some commit ∧
          block.lastCommitHash = comet.commitHash commit ∧
            (1 < block.height → block.lastBlockID = commit.blockID) := by
        obtain ⟨commit, present, hash⟩ := not_not.mp committed
        refine ⟨commit, present, hash, fun above => ?_⟩
        by_contra other
        exact linked ⟨commit, present, above, other⟩
      refine ⟨not_not.mp chainID, not_le.mp positive, hashed, commit, fun mode want entry => ?_⟩
      simp only [mode, if_true, entry] at passed
      split at passed
      · cases passed
      next same =>
        exact not_not.mp same
  · intro checked
    obtain ⟨commit, present, hash, linked⟩ := checked.committed
    have positive := checked.positive
    unfold checkBlock
    rw [if_neg (not_not.mpr checked.chainID), if_neg (by omega), if_neg checked.hashed, if_neg, if_neg]
    · split
      next mode =>
        split
        next want entry =>
          rw [if_neg (not_not.mpr (checked.checkpoint mode want entry))]
        · rfl
      · rfl
    · exact not_not.mpr ⟨commit, present, hash⟩
    · rintro ⟨other, found, above, differs⟩
      rw [present] at found
      cases found
      exact differs (linked above)

def checkValidatorsHash (block : Block) (vals : V) : Except Err Unit :=
  if block.validatorsHash ≠ comet.setHash vals then
    .error (.new s!"block {block.height} validators hash mismatch")
  else .ok ()

def checkValidators (i : HotIngestor V) (block : Block) : HotIngestor V × Except Err Unit :=
  -- the validator-set part of `validateBlock`; it may fetch a set and so change the cache
  if i.opts.validation ≠ .validatorSet then (i, .ok ())
  else match configuredSet i.opts block.height with
    | some vals => (i, checkValidatorsHash comet block vals)
    | none =>
      if i.opts.hasSource = false then (i, .ok ())
      else match validatorSetFor comet ask i block.height with
        | (i, .error err) => (i, .error err)
        | (i, .ok vals) => (i, checkValidatorsHash comet block vals)

theorem checkValidators_cached (i : HotIngestor V) (block : Block) :
    Cached comet ask i (checkValidators comet ask i block).1 := by
  unfold checkValidators
  split
  · exact .refl i
  · split
    · exact .refl i
    · split
      · exact .refl i
      · split
        next called => exact (validatorSetFor_spec called).1
        next called => exact (validatorSetFor_spec called).1

def validateBlock (i : HotIngestor V) (block : Block) : HotIngestor V × Except Err Unit :=
  match checkBlock comet i.opts block with
  | .error err => (i, .error err)
  | .ok () => checkValidators comet ask i block

theorem validateBlock_spec {i i' : HotIngestor V} {block : Block} {result : Except Err Unit}
    (called : validateBlock comet ask i block = (i', result)) :
    Cached comet ask i i' ∧ (result = .ok () → Checked comet i.opts block) := by
  unfold validateBlock at called
  split at called
  · cases called
    exact ⟨.refl i, by simp⟩
  next passed =>
    have cached := checkValidators_cached comet ask i block
    rw [called] at cached
    exact ⟨cached, fun _ => (checkBlock_eq_ok comet).mp passed⟩

def checkCommit (pending next : Block) : Except Err (Commit × PartSetHeader) :=
  -- the commit checks of `persistPending`, with the part-set header they compute
  match next.lastCommit with
  | none => .error (.new s!"block {next.height} cannot commit pending block {pending.height}: nil last commit")
  | some commit =>
    if commit.height ≠ pending.height then
      .error (.new s!"block {next.height} last commit height {commit.height}, expected {pending.height}")
    else match comet.partSetHeader pending with
      | .error err => .error (.wrap s!"make part set for block {pending.height}" err)
      | .ok header =>
        if commit.blockID.hash ≠ comet.blockHash pending then
          .error (.new s!"block {next.height} last commit does not reference pending block {pending.height}")
        else if commit.blockID.partSetHeader ≠ header then
          .error (.new s!"block {next.height} last commit part set does not reference pending block {pending.height}")
        else .ok (commit, header)

structure CommitsTo (block next : Block) (commit : Commit) (header : PartSetHeader) : Prop where
  present : next.lastCommit = some commit
  height : commit.height = block.height
  parts : comet.partSetHeader block = .ok header
  blockID : commit.blockID = ⟨comet.blockHash block, header⟩

theorem checkCommit_eq_ok {pending next : Block} {commit : Commit} {header : PartSetHeader} :
    checkCommit comet pending next = .ok (commit, header) ↔ CommitsTo comet pending next commit header := by
  constructor
  · intro passed
    unfold checkCommit at passed
    cases present : next.lastCommit with
    | none => simp [present] at passed
    | some found =>
      cases parts : comet.partSetHeader pending with
      | error err =>
        simp only [present, parts] at passed
        split at passed <;> cases passed
      | ok made =>
        simp only [present, parts] at passed
        split at passed
        · cases passed
        split at passed
        · cases passed
        split at passed
        · cases passed
        next height hash same =>
          cases passed
          refine ⟨present, not_not.mp height, parts, ?_⟩
          rw [← not_not.mp hash, ← not_not.mp same]
  · rintro ⟨present, height, parts, blockID⟩
    simp [checkCommit, present, height, parts, blockID]

def checkSignatures (i : HotIngestor V) (pending : Block) (commit : Commit) (header : PartSetHeader) :
    HotIngestor V × Except Err Unit :=
  if i.opts.validation ≠ .validatorSet then (i, .ok ())
  else match validatorSetFor comet ask i pending.height with
    | (i, .error err) => (i, .error err)
    | (i, .ok vals) =>
      match comet.verifyCommit vals i.opts.chainID ⟨comet.blockHash pending, header⟩ pending.height commit with
      | .error err => (i, .error (.wrap s!"verify commit for block {pending.height}" err))
      | .ok () => (i, .ok ())

def Signed (i : HotIngestor V) (block : Block) (commit : Commit) (header : PartSetHeader) : Prop :=
  i.opts.validation = .validatorSet → ∃ vals, SetFor comet ask i block.height vals ∧
    comet.verifyCommit vals i.opts.chainID ⟨comet.blockHash block, header⟩ block.height commit = .ok ()

theorem checkSignatures_spec {i i' : HotIngestor V} {pending : Block} {commit : Commit}
    {header : PartSetHeader} {result : Except Err Unit}
    (called : checkSignatures comet ask i pending commit header = (i', result)) :
    Cached comet ask i i' ∧ (result = .ok () → Signed comet ask i pending commit header) := by
  unfold checkSignatures at called
  split at called
  next other =>
    cases called
    exact ⟨.refl i, fun _ mode => absurd mode other⟩
  next =>
    split at called
    next fetched =>
      cases called
      exact ⟨(validatorSetFor_spec fetched).1, by simp⟩
    next vals fetched =>
      obtain ⟨cached, set⟩ := validatorSetFor_spec fetched
      split at called
      · cases called
        exact ⟨cached, by simp⟩
      next verified =>
        cases called
        exact ⟨cached, fun _ _ => ⟨vals, set vals rfl, cached.opts ▸ verified⟩⟩

theorem Signed.of_cached {comet : Comet V} {ask : Int → SourceAnswer V} {i i' : HotIngestor V} {block : Block}
    {commit : Commit} {header : PartSetHeader} (cached : Cached comet ask i i')
    (signed : Signed comet ask i' block commit header) : Signed comet ask i block commit header := by
  intro mode
  obtain ⟨vals, set, verified⟩ := signed (by rw [cached.opts, mode])
  exact ⟨vals, set.of_cached cached, cached.opts ▸ verified⟩

def persistPending (i : HotIngestor V) (pending next : Block) : HotIngestor V × Outcome Unit :=
  match checkCommit comet pending next with
  | .error err => (i, .error err)
  | .ok (commit, header) =>
    match checkSignatures comet ask i pending commit header with
    | (i, .error err) => (i, .error err)
    | (i, .ok ()) =>
      match i.store.saveBlock pending with
      | none => (i, .panic)
      | some store => ({ i with store }, .ok ())

def accept (i : HotIngestor V) (block : Block) (persisted : Int) : HotIngestor V × Outcome IngestResult :=
  -- the last lines of `Submit`: the block becomes pending
  let i := markCheckpoint { i with pending := some block } block
  (i, .ok (i.withStoreState
    { accepted := block.height, persisted, hotBase := 0, hotHeight := 0, readyToArchiveThrough := 0 }))

def extendsHead (store : BlockStore) (block : Block) : Bool :=
  -- the check of the first block after a start against the persisted head
  match store.load store.height with
  | none => true
  | some previous =>
    match block.lastCommit with
    | none => false
    | some commit => commit.blockID.hash == comet.blockHash previous

theorem extendsHead_spec {store : BlockStore} {block previous : Block} {commit : Commit}
    (extended : extendsHead comet store block = true) (head : store.load store.height = some previous)
    (present : block.lastCommit = some commit) : commit.blockID.hash = comet.blockHash previous := by
  simpa [extendsHead, head, present] using extended

def submit (i : HotIngestor V) (block : Option Block) : HotIngestor V × Outcome IngestResult :=
  match block with
  | none => (i, .error (.new "nil block"))  -- the first check of `validateBlock`
  | some block =>
    match validateBlock comet ask i block with
    | (i, .error err) => (i, .error err)
    | (i, .ok ()) =>
      if block.height ≠ i.nextHeight then
        (i, .error (.new s!"unexpected block height {block.height}, expected {i.nextHeight}"))
      else match i.pending with
        | none =>
          if extendsHead comet i.store block then i.accept block 0
          else (i, .error (.new "block does not extend persisted head"))
        | some pending =>
          match persistPending comet ask i pending block with
          | (i, .error err) => (i, .error err)
          | (i, .panic) => (i, .panic)
          | (i, .ok ()) => i.accept block pending.height

/-- Everything a call of `submit` can do. -/
inductive Submits (i : HotIngestor V) : Option Block → HotIngestor V × Outcome IngestResult → Prop
  | rejected (block : Option Block) (i' : HotIngestor V) (err : Err) (cached : Cached comet ask i i') :
    Submits i block (i', .error err)
  | first (block : Block) (mid : HotIngestor V) (cached : Cached comet ask i mid)
    (checked : Checked comet i.opts block) (next : block.height = i.nextHeight) (empty : i.pending = none)
    (extended : extendsHead comet i.store block = true) : Submits i (some block) (mid.accept block 0)
  | persisted (block pending : Block) (mid : HotIngestor V) (commit : Commit) (header : PartSetHeader)
    (store : BlockStore) (cached : Cached comet ask i mid) (checked : Checked comet i.opts block)
    (next : block.height = i.nextHeight) (waiting : i.pending = some pending)
    (commits : CommitsTo comet pending block commit header) (signed : Signed comet ask i pending commit header)
    (saved : i.store.saveBlock pending = some store) :
    Submits i (some block) (accept { mid with store } block pending.height)
  | panicked (block pending : Block) (mid : HotIngestor V) (cached : Cached comet ask i mid)
    (waiting : i.pending = some pending) (failed : i.store.saveBlock pending = none) :
    Submits i (some block) (mid, .panic)

theorem nextHeight_cached {comet : Comet V} {ask : Int → SourceAnswer V} {i i' : HotIngestor V}
    (cached : Cached comet ask i i') : i'.nextHeight = i.nextHeight := by
  unfold nextHeight
  rw [cached.pending, cached.store, cached.opts]

theorem submit_cases (i : HotIngestor V) (block : Option Block) :
    Submits comet ask i block (submit comet ask i block) := by
  cases block with
  | none => exact .rejected none i _ (.refl i)
  | some block =>
    unfold submit
    dsimp only
    split
    next mid err validated => exact .rejected _ mid err (validateBlock_spec comet ask validated).1
    next mid validated =>
      obtain ⟨cached, checked⟩ := validateBlock_spec comet ask validated
      specialize checked rfl
      split
      · exact .rejected _ mid _ cached
      next next =>
        replace next : block.height = i.nextHeight := by rw [not_not.mp next, nextHeight_cached cached]
        rw [cached.pending]
        cases waiting : i.pending with
        | none =>
          rw [cached.store]
          dsimp only
          split
          next extended =>
            exact .first block mid cached checked next waiting extended
          · exact .rejected _ mid _ cached
        | some pending =>
          dsimp only [persistPending]
          cases committed : checkCommit comet pending block with
          | error err => exact .rejected _ mid err cached
          | ok pair =>
            obtain ⟨commit, header⟩ := pair
            have commits := (checkCommit_eq_ok comet).mp committed
            dsimp only
            cases verified : checkSignatures comet ask mid pending commit header with
            | mk last result =>
              obtain ⟨again, signed⟩ := checkSignatures_spec comet ask verified
              have all := cached.trans again
              cases result with
              | error err => exact .rejected _ last err all
              | ok =>
                dsimp only
                rw [all.store]
                cases saved : i.store.saveBlock pending with
                | none => exact .panicked block pending last all waiting saved
                | some store =>
                  exact .persisted block pending last commit header store all checked next waiting commits
                    ((signed rfl).of_cached cached) saved

theorem submit_opts (comet : Comet V) (ask : Int → SourceAnswer V) (i : HotIngestor V) (block : Option Block) :
    (submit comet ask i block).1.opts = i.opts := by
  have cases := submit_cases comet ask i block
  generalize submit comet ask i block = result at cases
  cases cases with
  | rejected _ i' err cached => exact cached.opts
  | first block mid cached => exact (markCheckpoint_opts ..).trans cached.opts
  | persisted block pending mid commit header store cached => exact (markCheckpoint_opts ..).trans cached.opts
  | panicked block pending mid cached => exact cached.opts

end HotIngestor

end CometArchive.Ingest
