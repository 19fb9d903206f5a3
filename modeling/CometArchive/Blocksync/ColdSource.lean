import CometArchive.Archive.Verified
import CometArchive.Blocksync.Planner

set_option autoImplicit false

/-!
# The cold block source

`ArchiveBlockSource` answers requests for blocks from the archive. Calls that need the manifest, or one
segment, at the same time share one load. A call is a program over the object store and the critical
sections of the source; each section is one step.
-/

namespace CometArchive.Blocksync

open GoBytes GoError Archive Programs Programs.Fallible

variable {V : Type} (host : Host V)

structure SegmentElement where
  id : Nat
  key : Bytes
  records : List BlockRecord
  bytes : Int

/-- Loads, also those that are through, are known by a number, and so are the elements of the list.
`cachedManifest` is `none` where the source has the zero time. -/
structure ArchiveBlockSource where
  manifestCacheTTL : Int
  cachedManifest : Option (Manifest × Int)
  manifestFlight : Option Nat
  manifestLoads : Nat → Option (Except Err Manifest)
  segments : Bytes → Option SegmentElement
  segmentLRU : List SegmentElement
  segmentBytes : Int
  segmentCacheLimit : Int
  flights : Bytes → Option Nat
  segmentLoads : Nat → Option (Except Err (List BlockRecord))
  fetchSlots : Nat
  fresh : Nat

def defaultColdManifestCacheTTL : Int := 5 * 10 ^ 9
def coldSegmentCacheBytes : Int := 64 * 2 ^ 20
def maxFetchSlots : Nat := 4

def newArchiveBlockSource (manifestKey : String) : Except Err ArchiveBlockSource := do
  refuse (host.hasStore = false) (.new "object store is required")
  refuse (manifestKey = "") (.new "manifest key is required")
  validateObjectKey manifestKey
  return {
    manifestCacheTTL := defaultColdManifestCacheTTL
    cachedManifest := none
    manifestFlight := none
    manifestLoads := fun _ => none
    segments := fun _ => none
    segmentLRU := []
    segmentBytes := 0
    segmentCacheLimit := coldSegmentCacheBytes
    flights := fun _ => none
    segmentLoads := fun _ => none
    fetchSlots := 0
    fresh := 0 }

inductive Entered (α : Type) where
  -- what a call finds when it enters: a value, a load of another call, or its own load to make
  | cached (value : α)
  | follow (flight : Nat)
  | lead (flight : Nat)
  -- all slots for fetches are taken
  | full

namespace ArchiveBlockSource

variable (source : ArchiveBlockSource)

def setManifestCacheTTL (ttl : Int) : Except Err ArchiveBlockSource := do
  refuse (ttl < 0) (.new "manifest cache TTL cannot be negative")
  return { source with
    manifestCacheTTL := ttl
    cachedManifest := if ttl = 0 then none else source.cachedManifest }

def freshManifest (now : Int) : Option Manifest :=
  -- the cached manifest, while it may be used
  match source.cachedManifest with
  | some (manifest, loadedAt) =>
    if 0 < source.manifestCacheTTL ∧ now - loadedAt < source.manifestCacheTTL then some manifest else none
  | none => none

def enterManifest (now : Int) : Entered Manifest × ArchiveBlockSource :=
  match source.freshManifest now with
  | some manifest => (.cached manifest, source)
  | none =>
    match source.manifestFlight with
    | some flight => (.follow flight, source)
    | none => (.lead source.fresh, { source with manifestFlight := some source.fresh, fresh := source.fresh + 1 })

def finishManifest (flight : Nat) (result : Except Err Manifest) (now : Int) : ArchiveBlockSource :=
  { source with
    cachedManifest := match result with
      | .ok manifest => some (manifest, now)
      | .error _ => source.cachedManifest
    manifestLoads := Function.update source.manifestLoads flight (some result)
    manifestFlight := none }

def moveToFront (element : SegmentElement) (elements : List SegmentElement) : List SegmentElement :=
  -- `MoveToFront`, which leaves an element of no list alone
  if elements.any (·.id = element.id) then element :: elements.filter (·.id ≠ element.id) else elements

def enterSegment (key : Bytes) : Entered (List BlockRecord) × ArchiveBlockSource :=
  match source.segments key with
  | some element => (.cached element.records, { source with segmentLRU := moveToFront element source.segmentLRU })
  | none =>
    match source.flights key with
    | some flight => (.follow flight, source)
    | none =>
      if source.fetchSlots < maxFetchSlots then
        (.lead source.fresh, { source with
          flights := Function.update source.flights key (some source.fresh)
          fetchSlots := source.fetchSlots + 1
          fresh := source.fresh + 1 })
      else (.full, source)

/-- The loop that makes room for `size` bytes, over the elements from the back; `none` is its panic on an
empty list. -/
def evict (limit size : Int) :
    List SegmentElement → Int → (Bytes → Option SegmentElement) →
      Option (List SegmentElement × Int × (Bytes → Option SegmentElement))
  | [], bytes, segments => if limit < bytes + size then none else some ([], bytes, segments)
  | element :: rest, bytes, segments =>
    if limit < bytes + size then
      evict limit size rest (bytes - element.bytes) (Function.update segments element.key none)
    else some (element :: rest, bytes, segments)

def recordsSize (key : Bytes) (records : List BlockRecord) : Int :=
  key.length + (records.map fun record => ((record.bytes.length + record.hash.length + 64 : Nat) : Int)).sum

def keepSegment (key : Bytes) (records : List BlockRecord) : Option ArchiveBlockSource :=
  let size := recordsSize key records
  if size ≤ source.segmentCacheLimit then do
    let (kept, bytes, segments) ←
      evict source.segmentCacheLimit size source.segmentLRU.reverse source.segmentBytes source.segments
    let element : SegmentElement := { id := source.fresh, key, records, bytes := size }
    return { source with
      segments := Function.update segments key (some element)
      segmentLRU := element :: kept.reverse
      segmentBytes := bytes + size
      fresh := source.fresh + 1 }
  else some source

def finishSegment (key : Bytes) (flight : Nat) (result : Except Err (List BlockRecord)) : Option ArchiveBlockSource := do
  let source ← match result with
    | .ok records => source.keepSegment key records
    | .error _ => some source
  return { source with
    segmentLoads := Function.update source.segmentLoads flight (some result)
    flights := Function.update source.flights key none }

end ArchiveBlockSource

inductive ColdOp where
  | store (op : Op)
  | enterManifest
  | awaitManifest (flight : Nat)
  | finishManifest (flight : Nat) (result : Except Err Manifest)
  | enterSegment (key : Bytes)
  | awaitSegment (flight : Nat)
  | acquireSlot
  | releaseSlot
  | finishSegment (key : Bytes) (flight : Nat) (result : Except Err (List BlockRecord))
  -- a call that goes on for ever
  | halt

abbrev ColdOp.Res : ColdOp → Type
  | .store op => op.Res
  | .enterManifest => Entered Manifest
  | .awaitManifest _ => Except Err Manifest
  | .finishManifest _ _ => Unit
  | .enterSegment _ => Entered (List BlockRecord)
  | .awaitSegment _ => Except Err (List BlockRecord)
  | .acquireSlot => Except Err Unit
  | .releaseSlot => Unit
  | .finishSegment _ _ _ => Unit
  | .halt => Empty

abbrev C := Fallible ColdOp ColdOp.Res Err

def onStore {α : Type} (p : M α) : C α := ExceptT.mk (p.run.embed ColdOp.store fun _ answer => answer)

def outcome {α : Type} (p : C α) : C (Except Err α) := ExceptT.mk (p.run >>= fun result => .ret (.ok result))

namespace ArchiveBlockSource

def loadManifest (manifestKey : String) : C Manifest := do
  let entered ← query ColdOp.enterManifest
  match entered with
  | .cached manifest => return manifest
  | .follow flight => attempt (.awaitManifest flight) fun answer => answer
  | .lead flight =>
    let result ← outcome (onStore (Archive.loadManifest host manifestKey))
    let _ ← query (ColdOp.finishManifest flight result)
    lift result
  | .full => lift (.error (.new "unreachable"))

/-- The loop of `loadSegment`; it is left after `fuel` rounds that find no slot. -/
def acquireSegment (key : Bytes) (segment : SegmentManifest) : Nat → C (List BlockRecord)
  | 0 => do
    let never ← query ColdOp.halt
    nomatch never
  | fuel + 1 => do
    let entered ← query (ColdOp.enterSegment key)
    match entered with
    | .cached records => return records
    | .follow flight => attempt (.awaitSegment flight) fun answer => answer
    | .full =>
      attempt .acquireSlot fun answer => answer
      let _ ← query ColdOp.releaseSlot
      acquireSegment key segment fuel
    | .lead flight =>
      let result ← outcome (onStore (readSegment host segment))
      let _ ← query (ColdOp.finishSegment key flight result)
      let _ ← query ColdOp.releaseSlot
      lift result

def loadSegment (fuel : Nat) (segment : SegmentManifest) : C (List BlockRecord) := do
  let key ← lift (textual (host.json.marshalSegment segment))
  acquireSegment host key segment fuel

def segmentForHeight (segments : List SegmentManifest) (height : Int) : Option SegmentManifest :=
  -- `slices.BinarySearchFunc` with the comparison of `segmentForHeight`
  let compare (segment : SegmentManifest) : Int :=
    if height < segment.firstHeight then 1 else if segment.lastHeight < height then -1 else 0
  let index := sortSearch segments.length fun i =>
    (segments[i]?.map fun segment => decide (0 ≤ compare segment)).getD false
  match segments[index]? with
  | some segment => if compare segment = 0 then some segment else none
  | none => none

section Search

variable {segments : List SegmentManifest} {height : Int}

theorem segmentForHeight_mem {segment : SegmentManifest} (found : segmentForHeight segments height = some segment) :
    segment ∈ segments ∧ segment.firstHeight ≤ height ∧ height ≤ segment.lastHeight := by
  simp only [segmentForHeight] at found
  split at found
  next other position =>
    by_cases below : height < other.firstHeight
    · simp [below] at found
    · by_cases above : other.lastHeight < height
      · simp [below, above] at found
      · simp only [below, above, if_false, if_true] at found
        cases found
        exact ⟨List.mem_of_getElem? position, by omega, by omega⟩
  next => cases found

theorem segmentForHeight_covers {next stop : Int} (tiles : Tiles next segments stop)
    (valid : ∀ segment ∈ segments, segment.Valid) (low : next ≤ height) (high : height < stop) :
    ∃ segment, segmentForHeight segments height = some segment := by
  simp only [segmentForHeight]
  set found : Nat → Bool := fun i =>
    (segments[i]?.map fun segment => decide (0 ≤ (if height < segment.firstHeight then 1
      else if segment.lastHeight < height then -1 else 0 : Int))).getD false with defined
  have reaches : ∀ i (bound : i < segments.length), found i = true ↔ height ≤ segments[i].lastHeight := by
    intro i bound
    have last := (valid _ (List.getElem_mem bound)).last
    rw [defined]
    simp only [List.getElem?_eq_getElem bound, Option.map_some, Option.getD_some, decide_eq_true_eq]
    split
    · omega
    · split <;> omega
  obtain ⟨segment, position, above, below⟩ := tiles.sortSearch_segment valid low high reaches
  rw [position]
  refine ⟨segment, if_pos ?_⟩
  rw [if_neg (by omega), if_neg (by omega)]

end Search

def advertisedRange (manifestKey : String) : C PeerRange :=
  recover
    (do
      let manifest ← loadManifest host manifestKey
      if manifest.lastHeight = 0 then return ⟨0, 0⟩ else return ⟨manifest.firstHeight, manifest.lastHeight⟩)
    fun err => if err.is .objectNotFound then return ⟨0, 0⟩ else lift (.error err)

def loadBlock (manifestKey : String) (fuel : Nat) (height : Int) : C Block := do
  lift (refuse (height ≤ 0) (.sentinel .coldBlockNotFound))
  let manifest ← mapErr (fun err => if err.is .objectNotFound then .sentinel .coldBlockNotFound else err)
    (loadManifest host manifestKey)
  match segmentForHeight manifest.segments height with
  | none => lift (.error (.sentinel .coldBlockNotFound))
  | some segment =>
    let records ← loadSegment host fuel segment
    let index := height - segment.firstHeight
    match if index < 0 then none else records[index.toNat]? with
    | none => lift (.error (.sentinel .coldBlockNotFound))
    | some record => lift (recordToBlock host.comet record)

end ArchiveBlockSource

structure World (contentOf : String → Bytes) where
  store : ObjectStore contentOf
  source : ArchiveBlockSource
  now : Int

variable {contentOf : String → Bytes}

/-- `honest` says which answers the store may give. A wait may end early if `patient` does not hold. -/
def ColdEffect (honest : ObjectStore contentOf → (op : Op) → op.Res → Prop) (patient : Prop) :
    (op : ColdOp) → World contentOf → op.Res → World contentOf → Prop
  | .store op, w, answer, w' => w' = w ∧ honest w.store op answer
  | .enterManifest, w, answer, w' =>
    answer = (w.source.enterManifest w.now).1 ∧ w' = { w with source := (w.source.enterManifest w.now).2 }
  | .awaitManifest flight, w, answer, w' =>
    w' = w ∧ (w.source.manifestLoads flight = some answer ∨
      ¬ patient ∧ answer = .error (.sentinel .contextCanceled))
  | .finishManifest flight result, w, _, w' => w' = { w with source := w.source.finishManifest flight result w.now }
  | .enterSegment key, w, answer, w' =>
    answer = (w.source.enterSegment key).1 ∧ w' = { w with source := (w.source.enterSegment key).2 }
  | .awaitSegment flight, w, answer, w' =>
    w' = w ∧ (w.source.segmentLoads flight = some answer ∨
      ¬ patient ∧ answer = .error (.sentinel .contextCanceled))
  | .acquireSlot, w, .ok _, w' =>
    w.source.fetchSlots < maxFetchSlots ∧
      w' = { w with source := { w.source with fetchSlots := w.source.fetchSlots + 1 } }
  | .acquireSlot, w, .error err, w' => w' = w ∧ ¬ patient ∧ err = .sentinel .contextCanceled
  | .releaseSlot, w, _, w' =>
    0 < w.source.fetchSlots ∧ w' = { w with source := { w.source with fetchSlots := w.source.fetchSlots - 1 } }
  | .finishSegment key flight result, w, _, w' =>
    ∃ source, w.source.finishSegment key flight result = some source ∧ w' = { w with source }
  | .halt, _, answer, _ => answer.elim

theorem ColdEffect.mono {honest honest' : ObjectStore contentOf → (op : Op) → op.Res → Prop} {patient patient' : Prop}
    {w w' : World contentOf} {op : ColdOp} {answer : op.Res} (taken : ColdEffect honest patient op w answer w')
    (reads : ∀ s op answer, honest s op answer → honest' s op answer) (waits : patient' → patient) :
    ColdEffect honest' patient' op w answer w' := by
  cases op with
  | store op => exact ⟨taken.1, reads _ _ _ taken.2⟩
  | awaitManifest flight => exact ⟨taken.1, taken.2.imp id fun early => ⟨mt waits early.1, early.2⟩⟩
  | awaitSegment flight => exact ⟨taken.1, taken.2.imp id fun early => ⟨mt waits early.1, early.2⟩⟩
  | acquireSlot =>
    cases answer with
    | ok slot => exact taken
    | error err => exact ⟨taken.1, mt waits taken.2.1, taken.2.2⟩
  | halt => exact answer.elim
  | _ => exact taken

end CometArchive.Blocksync
