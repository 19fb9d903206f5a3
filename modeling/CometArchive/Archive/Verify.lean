import CometArchive.Archive.Live
import CometArchive.Shared.Maps

set_option autoImplicit false

namespace CometArchive.Archive

open GoBytes GoError Programs Programs.Fallible

variable {V : Type} (host : Host V)

/-- The worker pools of `verifySegments` and `verifyCompletedMigrationSegments`: how many segments were
checked, and the sum of their counts. There is one pass for each segment. -/
def runPool (check : SegmentManifest → M Nat) : Nat → List SegmentManifest → Nat × Nat → M (Nat × Nat)
  | 0, _, counts => return counts
  | fuel + 1, jobs, counts => do
    let choice ← pick jobs.length
    let i := choice % jobs.length
    match jobs[i]? with
    | none => return counts
    | some segment =>
      ctxErr
      let blocks ← check segment
      runPool check fuel (jobs.eraseIdx i) (counts.1 + 1, counts.2 + blocks)

structure VerifyOptions where
  manifestKey : String
  sampleEvery : Int
  deriving DecidableEq, Repr

structure VerifyResult where
  manifest : Manifest
  segmentsChecked : Nat
  blocksChecked : Nat
  deriving DecidableEq, Repr

def checkSampled (manifestFirstHeight sampleEvery : Int) : List BlockRecord → Nat → M Nat
  -- the loop of `verifySegment` over the records when it samples
  | [], blocks => return blocks
  | record :: rest, blocks => do
    ctxErr
    if (record.height - manifestFirstHeight).tmod sampleEvery ≠ 0 then
      checkSampled manifestFirstHeight sampleEvery rest blocks
    else
      let _ ← lift (wrapping s!"block {record.height}" (recordToBlock host.comet record))
      checkSampled manifestFirstHeight sampleEvery rest (blocks + 1)

def verifySegment (manifestFirstHeight sampleEvery : Int) (segment : SegmentManifest) : M Nat := do
  let size ← mapErr (.wrap s!"stat {segment.key}") (stat segment.key)
  lift (refuse (size ≠ segment.sizeBytes) (.new s!"object {segment.key} size {size}, expected {segment.sizeBytes}"))
  let data ← mapErr (.wrap s!"get {segment.key}") (get segment.key)
  if sampleEvery ≤ 0 then
    let records ← lift (wrapping s!"decode {segment.key}"
      (decodeSegmentRecords host.codec data segment (validateDecodedBlockRecord host.comet)))
    return records.length
  else
    let records ← lift (wrapping s!"decode {segment.key}"
      (decodeSegmentRecords host.codec data segment fun _ => .ok ()))
    checkSampled host manifestFirstHeight sampleEvery records 0

def readSegment (segment : SegmentManifest) : M (List BlockRecord) := do
  let data ← get segment.key
  lift (decodeSegment host.codec host.comet data segment)

def fingerprint (segment : SegmentManifest) : Except Err Bytes := do
  let data ← textual (host.json.marshalSegment segment)
  return host.codec.sha256 data

abbrev VerifiedCache := GoMap.Map String Bytes

def pendingSegments (verified : VerifiedCache) :
    List SegmentManifest → VerifiedCache → Except Err (List SegmentManifest × VerifiedCache)
  -- the segments whose descriptor is not in the cache, and the descriptors of all of them
  | [], fingerprints => .ok ([], fingerprints)
  | segment :: rest, fingerprints => do
    let current ← fingerprint host segment
    let (pending, fingerprints) ← pendingSegments verified rest (fingerprints.insert segment.key current)
    if verified[segment.key]? = some current then return (pending, fingerprints)
    else return (segment :: pending, fingerprints)

/-- `verifyArchive`, with the cache after it; a full verification starts from an empty one. -/
def verifyArchive (opts : VerifyOptions) (verified : VerifiedCache) : M (VerifyResult × VerifiedCache) := do
  lift (refuse (opts.manifestKey = "") (.new "manifest key is required"))
  lift (refuse (opts.sampleEvery < 0) (.new "sample every cannot be negative"))
  lift (refuse (host.hasStore = false) (.new "object store is required"))
  let manifest ← mapErr (fun err =>
    if err.is .objectNotFound then .both (.sentinel .manifestNotFound) err else err) (loadManifest host opts.manifestKey)
  ctxErr
  if manifest.segments = [] then return ({ manifest, segmentsChecked := 0, blocksChecked := 0 }, ∅)
  else
    let (pending, fingerprints) ← lift (pendingSegments host verified manifest.segments ∅)
    let (segmentsChecked, blocksChecked) ←
      runPool (verifySegment host manifest.firstHeight opts.sampleEvery) pending.length pending (0, 0)
    ctxErr
    return ({ manifest, segmentsChecked, blocksChecked }, fingerprints)

def verify (opts : VerifyOptions) : M VerifyResult := do
  let (result, _) ← verifyArchive host opts ∅
  return result

def askPrune (manifest : Manifest) (opts : PruneHotOptions) : M PruneHotResult :=
  attempt (.pruneHotStore manifest opts) fun answer => answer

def pruneVerifiedHotStore (hasHotStore : Bool) (opts : PruneHotOptions) : M PruneHotResult := do
  -- `hasHotStore` tells whether a block store was given
  lift (refuse (hasHotStore = false) (.new "block store is required"))
  lift (refuse (opts.manifestKey = "") (.new "manifest key is required"))
  lift (refuse (opts.retainBlocks ≤ 0) (.new "retain blocks must be positive"))
  lift (refuse (host.hasStore = false) (.new "object store is required"))
  let verified ← mapErr (.wrap "verify archive before prune")
    (verify host { manifestKey := opts.manifestKey, sampleEvery := 0 })
  lift (refuse (verified.blocksChecked = 0) (.new "archive verification checked no blocks"))
  askPrune verified.manifest opts

def noPrune : PruneHotResult :=
  { baseBefore := 0, baseAfter := 0, head := 0, archivedThrough := 0, pruneToHeight := 0, pruned := 0 }

/-- `runLivePrune`: the verifier's cache after it, and the result. A verification that fails leaves the
cache as it was. -/
def runLivePrune (opts : PruneHotOptions) (verified : VerifiedCache) :
    Prog Op Op.Res (VerifiedCache × Except Err PruneHotResult) := do
  let checked ← (verifyArchive host { manifestKey := opts.manifestKey, sampleEvery := 0 } verified).run
  match checked with
  | .error err =>
    if err.is .manifestNotFound then return (verified, .ok noPrune)
    else return (verified, .error (.wrap "verify archive before prune" err))
  | .ok (result, verified) =>
    if result.manifest.lastHeight = 0 then return (verified, .ok noPrune)
    else
      let pruned ← ask (.pruneHotStore result.manifest opts)
      return (verified, pruned)

end CometArchive.Archive
