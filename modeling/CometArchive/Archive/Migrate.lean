import CometArchive.Archive.Verify

set_option autoImplicit false

namespace CometArchive.Archive

open GoBytes GoError Programs Programs.Fallible

variable {V : Type} (host : Host V)

structure MigrationOptions where
  chainID : String
  startHeight : Int
  endHeight : Int
  segmentBlocks : Int
  keyPrefix : String
  manifestName : String
  manifestKey : String
  compression : String
  deriving DecidableEq, Repr

structure MigrationResult where
  manifest : Manifest
  manifestKey : String
  segments : Nat
  uploaded : Nat
  reused : Nat
  deriving DecidableEq, Repr

def validateStateSegments : Int → List String → List SegmentManifest → Except Err Int
  -- the loop over the segments in `validateMigrationState`: the height after the last one
  | expectedFirst, _, [] => .ok expectedFirst
  | expectedFirst, seenKeys, segment :: rest => do
    segment.validate
    refuse (segment.key ∈ seenKeys) (.new s!"duplicate segment key {quoted segment.key}")
    refuse (segment.firstHeight ≠ expectedFirst) (.new s!"segment range gap before height {expectedFirst}")
    validateStateSegments (segment.lastHeight + 1) (segment.key :: seenKeys) rest

def validateMigrationState (state : MigrationState) : Except Err Unit := do
  refuse (state.chainID = "") (.new "chain ID is required")
  refuse (state.startHeight ≤ 0) (.new "start height must be positive")
  refuse (state.endHeight < state.startHeight)
    (.new s!"end height {state.endHeight} before start height {state.startHeight}")
  refuse (state.nextHeight < state.startHeight ∨ wrap64 (state.endHeight + 1) < state.nextHeight)
    (.new s!"next height {state.nextHeight} outside migration range {state.startHeight}-{state.endHeight}")
  if state.segments = [] then
    refuse (state.nextHeight ≠ state.startHeight)
      (.new s!"next height {state.nextHeight} requires completed segments")
  else
    let expectedFirst ← validateStateSegments state.startHeight [] state.segments
    refuse (state.nextHeight ≠ expectedFirst)
      (.new s!"next height {state.nextHeight} does not match completed segments ending at {expectedFirst - 1}")

def absorbMissing {α : Type} (read : M α) : M (Option α) :=
  recover (some <$> read) fun err => if err.is .objectNotFound then return none else lift (.error err)

def loadMigrationStateWithFound (key : String) : M (Option MigrationState) := do
  let found ← absorbMissing (getVersioned key)
  match found with
  | none => return none
  | some (data, revision) =>
    lift (refuse (maxManifestBytes < data.length) (.new "migration state exceeds size limit"))
    let state ← lift (textual (host.json.unmarshalState data))
    lift (wrapping s!"invalid migration state {key}" (validateMigrationState state))
    return some { state with revision, sourceKey := key }

/-- The state with the revision it now has. `TrimSpace` leaves JSON text as it is. -/
def saveMigrationState (key : String) (state : MigrationState) : M MigrationState := do
  lift (wrapping "migration state key" (validateObjectKey key))
  lift (refuse (host.hasStore = false) (.new "object store is required"))
  lift (refuse (state.sourceKey ≠ "" ∧ state.sourceKey ≠ key)
    (.new "migration state revision belongs to another key"))
  lift (validateMigrationState state)
  let data ← lift (textual (host.json.marshalState state))
  let data := data ++ [10]
  lift (refuse (maxManifestBytes < data.length) (.new "migration state exceeds size limit"))
  let revision ← compareAndSwap key data state.revision
  return { state with revision, sourceKey := key }

def appendSegment (segments : List SegmentManifest) (segment : SegmentManifest) : List SegmentManifest :=
  match segments.findIdx? fun existing =>
    decide (existing.firstHeight = segment.firstHeight ∧ existing.lastHeight = segment.lastHeight) with
  | some i => segments.set i segment
  | none => segments ++ [segment]

def clampRange (start stop : Int) : M (Int × Int) := do
  let base ← readerBase
  let height ← readerHeight
  lift (refuse (base = 0 ∨ height = 0) (.new "source blockstore is empty"))
  let start := if start = 0 then base else start
  let stop := if stop = 0 then height else stop
  lift (refuse (start < base) (.new s!"start height {start} is below blockstore base {base}"))
  lift (refuse (height < stop) (.new s!"end height {stop} is above blockstore height {height}"))
  lift (refuse (stop < start) (.new s!"invalid height range {start}-{stop}"))
  return (start, stop)

def verifyCompletedSegment (segment : SegmentManifest) : M Unit := do
  let size ← mapErr (.wrap s!"stat completed segment {segment.key}") (stat segment.key)
  lift (refuse (size ≠ segment.sizeBytes)
    (.new s!"completed segment {segment.key} size {size}, expected {segment.sizeBytes}"))
  let data ← mapErr (.wrap s!"get completed segment {segment.key}") (get segment.key)
  lift (refuse (hexEncode (host.codec.sha256 data) ≠ segment.sha256)
    (.new s!"completed segment {segment.key} checksum mismatch"))
  let _ ← lift (wrapping s!"decode completed segment {segment.key}" (decodeSegment host.codec host.comet data segment))
  return ()

def verifyCompletedMigrationSegments (segments : List SegmentManifest) : M Unit := do
  let _ ← runPool (fun segment => do verifyCompletedSegment host segment; return 0) segments.length segments (0, 0)
  -- with no segments the source does not look at the context
  if segments = [] then return () else ctxErr

def migrateLoop (opts : MigrationOptions) (stateKey : String) (stop : Int) :
    Nat → Int → MigrationState → Nat × Nat → M (MigrationState × Nat × Nat)
  -- the loop of `Migrate`, with the numbers of uploaded and reused segments
  | 0, _, state, counts => return (state, counts)
  | fuel + 1, height, state, counts =>
    if stop < height then return (state, counts)
    else do
      ctxErr
      let last := segmentEnd opts.segmentBlocks stop height
      let (segment, uploaded) ← buildAndUploadSegment host opts.chainID opts.keyPrefix opts.compression height last
      let now ← timeNow
      let state ← saveMigrationState host stateKey
        { state with segments := appendSegment state.segments segment, nextHeight := last + 1, lastUpdatedAt := now }
      migrateLoop opts stateKey stop fuel (last + 1) state
        (if uploaded then (counts.1 + 1, counts.2) else (counts.1, counts.2 + 1))

def findMigrationState (opts : MigrationOptions) (stateKey : String) : M (Option MigrationState × Bool) := do
  -- the saved state, and whether it is one under the legacy key
  let state ← loadMigrationStateWithFound host stateKey
  if state = none ∧ opts.manifestKey = "" ∧ (opts.manifestName = "" ∨ opts.manifestName = defaultManifest) ∧
      legacyMigrationStateKey opts.keyPrefix opts.chainID ≠ stateKey then
    let legacyState ← loadMigrationStateWithFound host (legacyMigrationStateKey opts.keyPrefix opts.chainID)
    match legacyState with
    | none => return (none, false)
    | some state => return (some { state with revision := "", sourceKey := "" }, true)
  else return (state, false)

def startMigrationState (opts : MigrationOptions) (start stop : Int) : Option MigrationState → Except Err MigrationState
  -- the state a migration of `start`-`stop` goes on from
  | none =>
    .ok
      { revision := "", sourceKey := ""
        chainID := opts.chainID
        startHeight := start
        endHeight := stop
        nextHeight := start
        segments := []
        lastUpdatedAt := 0 }
  | some state => do
    refuse (state.chainID ≠ opts.chainID ∨ state.startHeight ≠ start ∨ state.endHeight ≠ stop)
      (.new (s!"existing migration state is for {state.chainID} {state.startHeight}-{state.endHeight}, " ++
        s!"requested {opts.chainID} {start}-{stop}"))
    return state

def adoptLegacyState (stateKey : String) (legacy : Bool) (state : MigrationState) : M MigrationState :=
  -- a state found under the legacy key is saved under the key of this migration at once
  if legacy then saveMigrationState host stateKey state else return state

def checkExisting (opts : MigrationOptions) (start stop : Int) (existing : Option Manifest) : Except Err Unit :=
  -- the check of `Migrate` on a manifest that is there already
  match existing with
  | none => .ok ()
  | some existing =>
    refuse (existing.chainID ≠ opts.chainID ∨
        existing.lastHeight ≠ 0 ∧ (existing.firstHeight ≠ start ∨ existing.lastHeight ≠ stop))
      (.new (s!"existing manifest is for {existing.chainID} {existing.firstHeight}-{existing.lastHeight}, " ++
        s!"requested {start}-{stop} for {opts.chainID}"))

def migrate (opts : MigrationOptions) : M MigrationResult := do
  lift (refuse (opts.chainID = "") (.new "chain ID is required"))
  let segmentBlocks := if opts.segmentBlocks ≤ 0 then defaultSegmentBlocks else opts.segmentBlocks
  lift (refuse (maxSegmentBlocks < segmentBlocks)
    (.new s!"segment blocks {segmentBlocks} exceeds maximum {maxSegmentBlocks}"))
  let compression := orDefaultCompression opts.compression
  lift (validateCompression compression)
  let manifestKey ← lift (resolveManifestKey opts.keyPrefix opts.chainID opts.manifestName opts.manifestKey)
  let stateKey ← lift (migrationStateKey opts.keyPrefix opts.chainID opts.manifestName opts.manifestKey)
  lift (refuse (host.hasReader = false) (.new "block reader is required"))
  lift (refuse (host.hasStore = false) (.new "object store is required"))
  let (start, stop) ← clampRange opts.startHeight opts.endHeight
  let existing ← absorbMissing (loadManifest host manifestKey)
  lift (checkExisting opts start stop existing)
  let (saved, legacy) ← findMigrationState host opts stateKey
  let state ← lift (startMigrationState opts start stop saved)
  let state ← adoptLegacyState host stateKey legacy state
  let (state, uploaded, reused) ← migrateLoop host { opts with segmentBlocks, compression } stateKey stop
    (stop - state.nextHeight + 1).toNat state.nextHeight state (0, 0)
  verifyCompletedMigrationSegments host state.segments
  let manifest ← createManifest opts.chainID state.segments
  let manifest ← saveManifest host manifestKey
    { manifest with
      revision := (existing.map (·.revision)).getD ""
      sourceKey := (existing.map (·.sourceKey)).getD "" }
  return { manifest, manifestKey, segments := manifest.segments.length, uploaded, reused }

end CometArchive.Archive
