import CometArchive.Archive.SegmentBlock
import CometArchive.Archive.Verified

set_option autoImplicit false

/-!
# Hydration

`Hydrate` writes the blocks of a height range to disk, one file each. Workers fetch the segments ahead of
the writer, which takes them in the order of the manifest; here each segment is fetched when it is its turn.
-/

namespace CometArchive.Archive

open GoBytes GoError Programs Programs.Fallible

variable {V : Type} (host : Host V)

structure HydrateOptions where
  manifestKey : String
  cacheDir : String
  startHeight : Int
  endHeight : Int
  maxBytes : Int
  deriving DecidableEq, Repr

structure HydrateResult where
  blocksWritten : Nat
  bytesWritten : Nat
  cacheDir : String
  deriving DecidableEq, Repr

def mkdirAll (dir : String) : M Unit := attempt (.mkdirAll dir) fun answer => answer
def atomicWriteFile (path : String) (data : Bytes) : M Unit := attempt (.atomicWriteFile path data) fun answer => answer

def limitCache (dir : String) (maxBytes : Int) : M Unit :=
  if 0 < maxBytes then attempt (.enforceCacheLimit dir maxBytes) fun answer => answer else return ()

-- paths are joined, but not cleaned
def blockDir (cacheDir chainID : String) : String := s!"{cacheDir}/chains/{chainID}/blocks"
def blockPath (dir : String) (height : Int) : String := s!"{dir}/{GoText.decimal12 height}.block"

def hydrateRecords (dir : String) (start stop maxBytes : Int) : List BlockRecord → HydrateResult → M HydrateResult
  -- the writer's loop over the records of one segment
  | [], result => return result
  | record :: rest, result => do
    ctxErr
    if record.height < start ∨ stop < record.height then hydrateRecords dir start stop maxBytes rest result
    else
      atomicWriteFile (blockPath dir record.height) record.bytes
      limitCache dir maxBytes
      hydrateRecords dir start stop maxBytes rest
        { result with
          blocksWritten := result.blocksWritten + 1
          bytesWritten := result.bytesWritten + record.bytes.length }

def fetchSegment (segment : SegmentManifest) : M (List BlockRecord) := do
  -- a worker's job
  ctxErr
  readSegment host segment

def hydrateSegments (dir : String) (start stop maxBytes : Int) : List SegmentManifest → HydrateResult → M HydrateResult
  | [], result => return result
  | segment :: rest, result => do
    let records ← fetchSegment host segment
    let result ← hydrateRecords dir start stop maxBytes records result
    hydrateSegments dir start stop maxBytes rest result

def hydrate (opts : HydrateOptions) : M HydrateResult := do
  lift (refuse (opts.manifestKey = "") (.new "manifest key is required"))
  lift (refuse (opts.cacheDir = "") (.new "cache-dir is required"))
  lift (refuse (opts.maxBytes < 0) (.new "max cache bytes cannot be negative"))
  lift (refuse (host.hasStore = false) (.new "object store is required"))
  let manifest ← loadManifest host opts.manifestKey
  let start := if opts.startHeight = 0 then manifest.firstHeight else opts.startHeight
  let stop := if opts.endHeight = 0 then manifest.lastHeight else opts.endHeight
  lift (refuse (start < manifest.firstHeight ∨ manifest.lastHeight < stop ∨ stop < start)
    (.new s!"hydrate range {start}-{stop} outside archive range {manifest.firstHeight}-{manifest.lastHeight}"))
  ctxErr
  mkdirAll (blockDir opts.cacheDir manifest.chainID)
  let relevant := manifest.segments.filter fun segment =>
    ¬ (segment.lastHeight < start ∨ stop < segment.firstHeight)
  hydrateSegments host (blockDir opts.cacheDir manifest.chainID) start stop opts.maxBytes relevant
    { blocksWritten := 0, bytesWritten := 0, cacheDir := opts.cacheDir }

def Follows : Int → List BlockRecord → Int → Prop
  | next, [], stop => next = stop
  | next, record :: rest, stop => record.height = next ∧ Follows (next + 1) rest stop

section Follows

variable {next mid stop : Int} {records more : List BlockRecord}

theorem Follows.append (first : Follows next records mid) (second : Follows mid more stop) :
    Follows next (records ++ more) stop := by
  induction records generalizing next with
  | nil =>
    cases (first : next = mid)
    exact second
  | cons record rest ih => exact ⟨first.1, ih first.2⟩

theorem Follows.length (follows : Follows next records stop) : next + records.length = stop := by
  induction records generalizing next with
  | nil =>
    have same : next = stop := follows
    simpa using same
  | cons record rest ih =>
    have later := ih follows.2
    rw [List.length_cons]
    push_cast
    omega

theorem Follows.bounds (follows : Follows next records stop) :
    ∀ record ∈ records, next ≤ record.height ∧ record.height < stop := by
  induction records generalizing next with
  | nil => simp
  | cons record rest ih =>
    have length := follows.2.length
    have here := follows.1
    intro other member
    rcases List.mem_cons.mp member with rfl | member
    · omega
    · have later := ih follows.2 other member
      omega

def BlockRecord.Within (first last : Int) (record : BlockRecord) : Prop := first ≤ record.height ∧ record.height ≤ last

instance (first last : Int) (record : BlockRecord) : Decidable (record.Within first last) :=
  inferInstanceAs (Decidable (first ≤ record.height ∧ record.height ≤ last))

theorem Follows.filter {first last : Int} (follows : Follows next records stop) (low : next ≤ first)
    (ordered : first ≤ last + 1) (high : last + 1 ≤ stop) :
    Follows first (records.filter (·.Within first last)) (last + 1) := by
  induction records generalizing next first with
  | nil =>
    have same : next = stop := follows
    change first = last + 1
    omega
  | cons record rest ih =>
    obtain ⟨height, follows⟩ := follows
    by_cases here : next = first
    · -- the range starts here, unless it is empty
      have above := follows.bounds
      have agree : rest.filter (·.Within first last) = rest.filter (·.Within (first + 1) last) := by
        apply List.filter_congr
        intro other member
        have bounds := above other member
        rw [decide_eq_decide]
        unfold BlockRecord.Within
        omega
      by_cases empty : first = last + 1
      · have none : (record :: rest).filter (·.Within first last) = [] := by
          rw [List.filter_eq_nil_iff]
          intro other _
          rw [decide_eq_true_eq]
          unfold BlockRecord.Within
          omega
        rw [none]
        exact empty
      · have inside : record.Within first last := by
          unfold BlockRecord.Within
          omega
        rw [List.filter_cons_of_pos (by simpa using inside), agree]
        exact ⟨by omega, ih follows (by omega) (by omega)⟩
    · have outside : ¬ record.Within first last := by
        unfold BlockRecord.Within
        omega
      rw [List.filter_cons_of_neg (by simpa using outside)]
      exact ih follows (by omega) ordered

theorem Decodes.follows {codec : Codec} {data : Bytes} {segment : SegmentManifest}
    (decodes : Decodes codec data segment records) : Follows segment.firstHeight records (segment.lastHeight + 1) := by
  have indexed := decodes.valid.blocks
  have length := decodes.valid.length
  have same := decodes.index
  have reach : segment.firstHeight + (segment.blocks.length : Int) = segment.lastHeight + 1 := by omega
  generalize segment.firstHeight = first at indexed reach
  generalize segment.blocks = blocks at indexed same reach
  clear length decodes
  induction records generalizing first blocks with
  | nil =>
    rw [List.map_nil, List.map_eq_nil_iff] at same
    subst same
    change first = segment.lastHeight + 1
    simpa using reach
  | cons record rest ih =>
    cases blocks with
    | nil => cases same
    | cons block more =>
      simp only [List.map_cons, List.cons.injEq, Prod.mk.injEq] at same
      rw [List.length_cons] at reach
      push_cast at reach
      exact ⟨same.1.1.symm.trans indexed.1, ih _ _ indexed.2.2.2 same.2 (by omega)⟩

theorem Tiles.follows {segments : List SegmentManifest} {all : SegmentManifest → List BlockRecord}
    (tiles : Tiles next segments stop)
    (each : ∀ segment ∈ segments, Follows segment.firstHeight (all segment) (segment.lastHeight + 1)) :
    Follows next (segments.flatMap all) stop := by
  induction segments generalizing next with
  | nil => exact tiles
  | cons segment rest ih =>
    obtain ⟨first, tiles⟩ := tiles
    rw [List.flatMap_cons]
    refine Follows.append ?_ (ih tiles fun other member => each other (List.mem_cons_of_mem _ member))
    rw [← first]
    exact each segment List.mem_cons_self

end Follows

section Outcomes

variable {contentOf : String → Bytes} {s : ObjectStore contentOf} {host} {dir : String} {start stop maxBytes : Int}
  {result : HydrateResult}

def written : History → List (String × Bytes)
  | [] => []
  | ⟨.atomicWriteFile path data, .ok _⟩ :: rest => (path, data) :: written rest
  | _ :: rest => written rest

theorem written_append (first second : History) : written (first ++ second) = written first ++ written second := by
  induction first with
  | nil => rfl
  | cons entry rest ih =>
    obtain ⟨op, answer⟩ := entry
    cases op with
    | atomicWriteFile path data => cases answer <;> simp [written, ih]
    | _ => simp [written, ih]

def blockFile (dir : String) (record : BlockRecord) : String × Bytes := (blockPath dir record.height, record.bytes)

theorem ctxErr_leaves : ctxErr.Leaves (Faithful s) fun trace _ => written trace = [] := by
  refine Leaves.attempt ?_
  rintro _ rfl
  exact ⟨(), rfl, rfl⟩

theorem limitCache_leaves : (limitCache dir maxBytes).Leaves (Faithful s) fun trace _ => written trace = [] := by
  unfold limitCache
  split
  next =>
    refine Leaves.attempt ?_
    rintro _ rfl
    exact ⟨(), rfl, rfl⟩
  next => exact Leaves.pure rfl

theorem hydrateRecords_leaves {records : List BlockRecord} :
    (hydrateRecords dir start stop maxBytes records result).Leaves (Faithful s) fun trace final =>
      written trace = (records.filter (·.Within start stop)).map (blockFile dir) ∧
        final.blocksWritten = result.blocksWritten + (records.filter (·.Within start stop)).length := by
  induction records generalizing result with
  | nil => exact Leaves.pure ⟨rfl, rfl⟩
  | cons record rest ih =>
    unfold hydrateRecords
    refine Leaves.bind (Leaves.mono ctxErr_leaves fun first _ quiet => ?_)
    split
    next outside =>
      have skipped : ¬ record.Within start stop := by
        unfold BlockRecord.Within
        omega
      rw [List.filter_cons_of_neg (by simpa using skipped)]
      refine Leaves.mono ih ?_
      intro second final ended
      rw [written_append, quiet]
      exact ended
    next inside =>
      have taken : record.Within start stop := by
        unfold BlockRecord.Within
        omega
      rw [List.filter_cons_of_pos (by simpa using taken)]
      refine Leaves.bind (Leaves.attempt ?_)
      rintro _ rfl
      refine ⟨(), rfl, ?_⟩
      refine Leaves.bind (Leaves.mono limitCache_leaves fun limited _ idle => ?_)
      refine Leaves.mono ih ?_
      intro second final ended
      rw [List.map_cons, List.length_cons, ← ended.1, ended.2]
      simp only [written_append, quiet, idle, List.nil_append]
      exact ⟨rfl, by omega⟩

theorem fetchSegment_leaves {segment : SegmentManifest} {records : List BlockRecord}
    (decodes : DecodesTo host s segment records) :
    (fetchSegment host segment).Leaves (Faithful s) fun trace fetched => written trace = [] ∧ fetched = records := by
  unfold fetchSegment
  refine Leaves.bind (Leaves.mono ctxErr_leaves fun first _ quiet => ?_)
  refine Leaves.mono decodes.leaves ?_
  rintro second _ ⟨⟨answer, rfl⟩, rfl⟩
  rw [written_append, quiet]
  exact ⟨rfl, rfl⟩

theorem hydrateSegments_leaves {segments : List SegmentManifest} {all : SegmentManifest → List BlockRecord}
    (decodes : ∀ segment ∈ segments, DecodesTo host s segment (all segment)) :
    (hydrateSegments host dir start stop maxBytes segments result).Leaves (Faithful s) fun trace final =>
      written trace = ((segments.flatMap all).filter (·.Within start stop)).map (blockFile dir) ∧
        final.blocksWritten = result.blocksWritten + ((segments.flatMap all).filter (·.Within start stop)).length := by
  induction segments generalizing result with
  | nil => exact Leaves.pure ⟨rfl, rfl⟩
  | cons segment rest ih =>
    unfold hydrateSegments
    refine Leaves.bind (Leaves.mono (fetchSegment_leaves (decodes segment List.mem_cons_self)) ?_)
    rintro first _ ⟨quiet, rfl⟩
    refine Leaves.bind (Leaves.mono hydrateRecords_leaves ?_)
    rintro second result ⟨files, count⟩
    refine Leaves.mono (ih fun other member => decodes other (List.mem_cons_of_mem _ member)) ?_
    rintro third final ⟨more, total⟩
    rw [List.flatMap_cons, List.filter_append, List.map_append, List.length_append]
    simp only [written_append, quiet, files, more, List.nil_append, true_and]
    omega

theorem filter_relevant {segments : List SegmentManifest} {all : SegmentManifest → List BlockRecord}
    (each : ∀ segment ∈ segments, Follows segment.firstHeight (all segment) (segment.lastHeight + 1)) :
    ((segments.filter fun segment => ¬ (segment.lastHeight < start ∨ stop < segment.firstHeight)).flatMap all).filter
        (·.Within start stop) = (segments.flatMap all).filter (·.Within start stop) := by
  -- the records of a range lie in the segments that overlap it
  induction segments with
  | nil => rfl
  | cons segment rest ih =>
    have later := ih fun other member => each other (List.mem_cons_of_mem _ member)
    rw [List.flatMap_cons, List.filter_append, ← later]
    by_cases outside : segment.lastHeight < start ∨ stop < segment.firstHeight
    · have none : (all segment).filter (·.Within start stop) = [] := by
        rw [List.filter_eq_nil_iff]
        intro record member
        have bounds := (each segment List.mem_cons_self).bounds record member
        rw [decide_eq_true_eq]
        unfold BlockRecord.Within
        omega
      rw [none, List.nil_append, List.filter_cons_of_neg (by rw [decide_eq_true_eq, not_not]; exact outside)]
    · rw [List.filter_cons_of_pos (by simpa using outside), List.flatMap_cons, List.filter_append]

/-- A verified archive hydrates: the files written are those of the records of the range, each once. -/
theorem Intact.hydrate {opts : HydrateOptions} {m : Manifest} (intact : Intact host opts.manifestKey s m)
    (placed : opts.cacheDir ≠ "") (limit : 0 ≤ opts.maxBytes)
    (starts : start = if opts.startHeight = 0 then m.firstHeight else opts.startHeight)
    (stops : stop = if opts.endHeight = 0 then m.lastHeight else opts.endHeight)
    (positive : 0 < start) (low : m.firstHeight ≤ start) (ordered : start ≤ stop) (high : stop ≤ m.lastHeight) :
    ∃ records, Follows start records (stop + 1) ∧
      (∀ record ∈ records, ∃ segment ∈ m.segments, ∃ all, DecodesTo host s segment all ∧ record ∈ all) ∧
      (hydrate host opts).Leaves (Faithful s) fun trace result =>
        written trace = records.map (blockFile (blockDir opts.cacheDir m.chainID)) ∧
          result.blocksWritten = records.length := by
  obtain ⟨all, decodes⟩ := exists_decoded intact.readable
  have each : ∀ segment ∈ m.segments, Follows segment.firstHeight (all segment) (segment.lastHeight + 1) := by
    intro segment member
    obtain ⟨object, -, decoded⟩ := decodes segment member
    exact (decodeSegmentRecords_spec host.codec decoded).1.follows
  have tiles : Tiles m.firstHeight m.segments (m.lastHeight + 1) := by
    rcases intact.loads.valid.range with ⟨-, first, last⟩ | ⟨-, -, -, tiles⟩
    · omega
    · exact tiles
  refine ⟨(m.segments.flatMap all).filter (·.Within start stop), ?_, ?_, ?_⟩
  · exact (tiles.follows each).filter low (by omega) (by omega)
  · intro record member
    obtain ⟨segment, listed, inside⟩ := List.mem_flatMap.mp (List.mem_filter.mp member).1
    exact ⟨segment, listed, all segment, decodes segment listed, inside⟩
  · unfold Archive.hydrate
    refine Leaves.bind (Leaves.lift (refuse_eq_ok.mpr intact.loads.named_ne) ?_)
    refine Leaves.bind (Leaves.lift (refuse_eq_ok.mpr placed) ?_)
    refine Leaves.bind (Leaves.lift (refuse_eq_ok.mpr (by omega)) ?_)
    refine Leaves.bind (Leaves.lift (refuse_eq_ok.mpr (by simp [intact.loads.store])) ?_)
    refine Leaves.bind (Leaves.mono intact.loads.leaves ?_)
    rintro loaded _ ⟨⟨answer, rfl⟩, rfl⟩
    simp only [← starts, ← stops]
    refine Leaves.bind (Leaves.lift (refuse_eq_ok.mpr (by omega)) ?_)
    refine Leaves.bind (Leaves.mono ctxErr_leaves fun asked _ idle => ?_)
    refine Leaves.bind (Leaves.attempt ?_)
    rintro _ rfl
    refine ⟨(), rfl, ?_⟩
    refine Leaves.mono (hydrateSegments_leaves fun segment member => decodes segment (List.mem_filter.mp member).1) ?_
    rintro trace final ⟨files, count⟩
    rw [filter_relevant each] at files count
    simp only [written_append, idle, files, List.nil_append]
    exact ⟨rfl, by simpa using count⟩

end Outcomes

end CometArchive.Archive
