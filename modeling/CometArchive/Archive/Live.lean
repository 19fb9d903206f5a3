import CometArchive.Archive.ObjectStore

set_option autoImplicit false

namespace CometArchive.Archive

open GoBytes GoError Programs Programs.Fallible

variable {V : Type} (host : Host V)

-- the bounded read limit of the stores
def maxManifestBytes : Int := maxSegmentPayloadBytes + 2 ^ 20

def loadManifest (key : String) : M Manifest := do
  lift (wrapping "manifest key" (validateObjectKey key))
  lift (refuse (host.hasStore = false) (.new "object store is required"))
  let (data, revision) ← getVersioned key
  lift (refuse (maxManifestBytes < data.length) (.new "manifest exceeds size limit"))
  let manifest ← lift (textual (host.json.unmarshalManifest data))
  let manifest := { manifest with revision, sourceKey := key }
  lift manifest.validate
  return manifest

def saveManifest (key : String) (manifest : Manifest) : M Manifest := do
  lift (wrapping "manifest key" (validateObjectKey key))
  lift (refuse (host.hasStore = false) (.new "object store is required"))
  lift (refuse (manifest.sourceKey ≠ "" ∧ manifest.sourceKey ≠ key) (.new "manifest revision belongs to another key"))
  lift manifest.validate
  let data ← lift (textual (host.json.marshalManifest manifest))
  let data := data ++ [10]
  lift (refuse (maxManifestBytes < data.length) (.new "manifest exceeds size limit"))
  let revision ← mapErr (.wrap s!"publish manifest {key}") (compareAndSwap key data manifest.revision)
  return { manifest with revision, sourceKey := key }

def createManifest (chainID : String) (segments : List SegmentManifest) : M Manifest := do
  let now ← timeNow
  let (manifest, checked) := newManifest chainID segments now
  lift checked
  return manifest

def loadOrCreateLiveManifest (key chainID : String) : M Manifest :=
  recover (loadManifest host key) fun err =>
    if err.is .objectNotFound then createManifest chainID [] else lift (.error err)

def verifyStoredSegment (segment : SegmentManifest) : M Unit := do
  let current ← get segment.key
  lift (refuse ((current.length : Int) ≠ segment.sizeBytes ∨ hexEncode (host.codec.sha256 current) ≠ segment.sha256)
    (.new s!"object {segment.key} differs from expected segment"))

def verifyUploadETag (segment : SegmentManifest) (etag localMD5 : String) : M Unit :=
  if normalizeETag etag ≠ "" ∧ GoText.contains (normalizeETag etag) '-' = false ∧ normalizeETag etag = localMD5 then
    return ()
  else verifyStoredSegment host segment

def absorbExisting {α : Type} (upload : M α) : M (Option α) :=
  -- an upload that finds the object there is not an error
  recover (some <$> upload) fun err => if err.is .objectAlreadyExists then return none else lift (.error err)

/-- Every store has `PutIfAbsent`, so the source's branches for stores without it are never taken. -/
def putImmutableSegment (segment : SegmentManifest) (data : Bytes) : M Bool := do
  let found ← existsKey segment.key
  if found then
    verifyStoredSegment host segment
    return false
  else if host.returnsETag then
    let stored ← absorbExisting (putIfAbsentReturningETag segment.key data)
    match stored with
    | none =>
      verifyStoredSegment host segment
      return false
    | some etag =>
      verifyUploadETag host segment etag (localMD5Hex host.codec data)
      return true
  else
    let stored ← absorbExisting (putIfAbsent segment.key data)
    verifyStoredSegment host segment
    return stored.isSome

def loadRecords (chainID : String) : Nat → Int → M (List BlockRecord)
  -- the loop of `buildAndUploadSegment` over the `count` heights from `height` on
  | 0, _ => return []
  | count + 1, height => do
    ctxErr
    let block ← loadBlock height
    match block with
    | none => lift (.error (.new s!"source block at height {height} is missing"))
    | some block =>
      lift (refuse (block.chainID ≠ chainID)
        (.new s!"source block at height {height} has chain ID {quoted block.chainID}, expected {quoted chainID}"))
      let record ← lift (wrapping s!"encode block {height}" (blockToRecord host.comet block))
      let records ← loadRecords chainID count (height + 1)
      return record :: records

def buildAndUploadSegment (chainID keyPrefix compression : String) (first last : Int) : M (SegmentManifest × Bool) := do
  let records ← loadRecords host chainID (last - first + 1).toNat first
  let (data, segment) ← lift (encodeSegment host.codec records compression)
  let segment :=
    { segment with key := segmentKey keyPrefix chainID segment.firstHeight segment.lastHeight segment.sha256 }
  let uploaded ← putImmutableSegment host segment data
  return (segment, uploaded)

structure LiveArchiveOptions where
  chainID : String
  keyPrefix : String
  manifestName : String
  manifestKey : String
  startHeight : Int
  readyHeight : Int
  segmentBlocks : Int
  compression : String
  deriving DecidableEq, Repr

structure LiveArchiveResult where
  manifest : Manifest
  manifestKey : String
  segments : Nat
  uploaded : Nat
  reused : Nat
  blocksArchived : Int
  firstArchived : Int
  lastArchived : Int
  deriving DecidableEq, Repr

def LiveArchiveResult.unchanged (manifestKey : String) (manifest : Manifest) : LiveArchiveResult :=
  { manifest, manifestKey, segments := manifest.segments.length, uploaded := 0, reused := 0, blocksArchived := 0
    firstArchived := 0, lastArchived := 0 }

def LiveArchiveResult.count (result : LiveArchiveResult) (uploaded : Bool) (first last : Int) : LiveArchiveResult :=
  { result with
    uploaded := if uploaded then result.uploaded + 1 else result.uploaded
    reused := if uploaded then result.reused else result.reused + 1
    blocksArchived := result.blocksArchived + (last - first + 1)
    firstArchived := if result.firstArchived = 0 then first else result.firstArchived
    lastArchived := last }

/-- The end of the segment that starts at `height`; the sum wraps around. -/
def segmentEnd (segmentBlocks stop height : Int) : Int := min (wrap64 (height + segmentBlocks - 1)) stop

/-- The loop of `ArchiveReady`. Each pass moves the height up, so `stop - height + 1` passes are enough. -/
def archiveLoop (opts : LiveArchiveOptions) (manifestKey : String) (stop : Int) :
    Nat → Int → Manifest → LiveArchiveResult → M (Manifest × LiveArchiveResult)
  | 0, _, manifest, result => return (manifest, result)
  | fuel + 1, height, manifest, result =>
    if stop < height then return (manifest, result)
    else do
      ctxErr
      let last := segmentEnd opts.segmentBlocks stop height
      let (segment, uploaded) ←
        buildAndUploadSegment host opts.chainID opts.keyPrefix opts.compression height last
      let now ← timeNow
      let manifest ← lift (manifest.appendSegmentInPlace segment now)
      let manifest ← saveManifest host manifestKey manifest
      archiveLoop opts manifestKey stop fuel (last + 1) manifest (result.count uploaded height last)

def nextHeightToArchive (opts : LiveArchiveOptions) (manifest : Manifest) : M Int :=
  if manifest.lastHeight = 0 then
    if opts.startHeight = 0 then readerBase else return opts.startHeight
  else return manifest.lastHeight + 1

def archiveEnd (readyHeight sourceHeight : Int) : M Int :=
  -- the ready height, cut to what the reader has and lets be archived
  if host.bounded then do
    let limit ← archiveHeightLimit
    return min (min readyHeight sourceHeight) limit
  else return min readyHeight sourceHeight

def archiveReady (opts : LiveArchiveOptions) : M LiveArchiveResult := do
  lift (refuse (opts.chainID = "") (.new "chain ID is required"))
  lift (refuse (opts.readyHeight ≤ 0) (.new "ready height must be positive"))
  let segmentBlocks := if opts.segmentBlocks ≤ 0 then defaultSegmentBlocks else opts.segmentBlocks
  lift (refuse (maxSegmentBlocks < segmentBlocks)
    (.new s!"segment blocks {segmentBlocks} exceeds maximum {maxSegmentBlocks}"))
  let compression := orDefaultCompression opts.compression
  lift (validateCompression compression)
  let manifestKey ← lift (resolveManifestKey opts.keyPrefix opts.chainID opts.manifestName opts.manifestKey)
  lift (refuse (host.hasReader = false) (.new "block reader is required"))
  lift (refuse (host.hasStore = false) (.new "object store is required"))
  let manifest ← loadOrCreateLiveManifest host manifestKey opts.chainID
  lift (refuse (manifest.chainID ≠ opts.chainID)
    (.new s!"manifest chain ID {quoted manifest.chainID}, expected {quoted opts.chainID}"))
  let nextHeight ← nextHeightToArchive opts manifest
  lift (refuse (nextHeight ≤ 0) (.new "source blockstore is empty"))
  let sourceHeight ← readerHeight
  lift (refuse (sourceHeight = 0) (.new "source blockstore is empty"))
  let stop ← archiveEnd host opts.readyHeight sourceHeight
  -- with nothing to archive the loop makes no pass
  let (manifest, result) ← archiveLoop host { opts with segmentBlocks, compression } manifestKey stop
    (stop - nextHeight + 1).toNat nextHeight manifest (.unchanged manifestKey manifest)
  return { result with manifest, segments := manifest.segments.length }

def archiveReadyFromHead (opts : LiveArchiveOptions) (safetyWindow : Int) : M LiveArchiveResult := do
  lift (refuse (safetyWindow < 0) (.new "safety window cannot be negative"))
  lift (refuse (opts.chainID = "") (.new "chain ID is required"))
  let compression := orDefaultCompression opts.compression
  lift (validateCompression compression)
  let manifestKey ← lift (resolveManifestKey opts.keyPrefix opts.chainID opts.manifestName opts.manifestKey)
  lift (refuse (host.hasReader = false) (.new "block reader is required"))
  lift (refuse (host.hasStore = false) (.new "object store is required"))
  let manifest ← loadOrCreateLiveManifest host manifestKey opts.chainID
  let head ← readerHeight
  if head = 0 ∨ head ≤ safetyWindow then return .unchanged manifestKey manifest
  else if host.bounded then
    let limit ← archiveHeightLimit
    let readyHeight := min (head - safetyWindow) limit
    if readyHeight ≤ 0 then return .unchanged manifestKey manifest
    else archiveReady host { opts with compression, readyHeight }
  else archiveReady host { opts with compression, readyHeight := head - safetyWindow }

end CometArchive.Archive
