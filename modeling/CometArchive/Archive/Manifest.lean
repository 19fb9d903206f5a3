import CometArchive.Archive.Keys
import Mathlib.Data.List.Sort

set_option autoImplicit false

namespace CometArchive.Archive

open GoBytes GoError

structure BlockIndex where
  height : Int
  -- hex text, as the bytes of the Go string
  hash : Bytes
  offset : Int
  deriving DecidableEq, Repr

structure SegmentManifest where
  key : String
  firstHeight : Int
  lastHeight : Int
  compression : String
  sizeBytes : Int
  sha256 : Bytes
  blocks : List BlockIndex
  deriving DecidableEq, Repr

/-- `revision` and `sourceKey` are not part of the JSON text. Times are in nanoseconds, the zero time is 0. -/
structure Manifest where
  revision : String
  sourceKey : String
  version : Int
  chainID : String
  firstHeight : Int
  lastHeight : Int
  createdAt : Int
  updatedAt : Int
  segments : List SegmentManifest
  deriving DecidableEq, Repr

def blockHashHexLen : Nat := 64
def manifestVersion : Int := 1
def compressionNone : String := "none"
def compressionGzip : String := "gzip"
def defaultCompression : String := compressionGzip
def defaultSegmentBlocks : Int := 100
def maxSegmentBlocks : Int := 1000

def validateCompression (compression : String) : Except Err Unit :=
  refuse (compression ≠ "" ∧ compression ≠ compressionNone ∧ compression ≠ compressionGzip)
    (.new s!"unsupported compression {quoted compression}")

def validateBlockIndex : Int → List BlockIndex → Except Err Unit
  -- the loop over the block index in `SegmentManifest.Validate`
  | _, [] => .ok ()
  | wantHeight, block :: rest => do
    refuse (block.height ≠ wantHeight) (.new s!"block index height {block.height}, expected {wantHeight}")
    refuse (block.hash.length ≠ blockHashHexLen)
      (.new s!"block index for height {block.height} hash must be {blockHashHexLen} hex characters")
    refuse (isHex block.hash = false)
      (.wrap s!"block index for height {block.height} hash is not valid hex" (.new (hexDecodeError block.hash)))
    validateBlockIndex (wantHeight + 1) rest

def SegmentManifest.validate (s : SegmentManifest) : Except Err Unit := do
  validateObjectKey s.key
  -- the source compares with `==`; no int64 is larger
  refuse (s.firstHeight ≤ 0 ∨ s.lastHeight < s.firstHeight ∨ maxInt64 ≤ s.lastHeight)
    (.new s!"invalid height range {s.firstHeight}-{s.lastHeight}")
  refuse (s.compression = "") (.new "compression is required")
  validateCompression s.compression
  refuse (s.sizeBytes ≤ 0) (.new "size_bytes must be positive")
  refuse (s.sha256.length ≠ blockHashHexLen) (.new "sha256 must be 64 hex characters")
  refuse (isHex s.sha256 = false) (.wrap "sha256 is not valid hex" (.new (hexDecodeError s.sha256)))
  refuse (maxSegmentBlocks ≤ s.lastHeight - s.firstHeight) (.new "segment block count exceeds maximum")
  refuse ((s.blocks.length : Int) ≠ s.lastHeight - s.firstHeight + 1)
    (.new s!"block index length {s.blocks.length}, expected {s.lastHeight - s.firstHeight + 1}")
  validateBlockIndex s.firstHeight s.blocks

theorem validateBlockIndex_plain (first : Int) (blocks : List BlockIndex) : Plain (validateBlockIndex first blocks) := by
  induction blocks generalizing first with
  | nil => exact Plain.ok ()
  | cons block rest ih =>
    unfold validateBlockIndex
    repeat' first
      | exact ih _
      | apply Plain.refuse <;> intros <;> rfl
      | apply Plain.bind
      | intro _

theorem SegmentManifest.validate_plain (s : SegmentManifest) : Plain s.validate := by
  unfold SegmentManifest.validate validateCompression
  repeat' first
    | exact validateObjectKey_plain _
    | exact validateBlockIndex_plain _ _
    | apply Plain.refuse <;> intros <;> rfl
    | apply Plain.bind
    | intro _

def Indexed : Int → List BlockIndex → Prop
  | _, [] => True
  | first, block :: rest =>
    block.height = first ∧ block.hash.length = blockHashHexLen ∧ isHex block.hash = true ∧ Indexed (first + 1) rest

structure SegmentManifest.Valid (s : SegmentManifest) : Prop where
  key : validateObjectKey s.key = .ok ()
  first : 0 < s.firstHeight
  last : s.firstHeight ≤ s.lastHeight
  bounded : s.lastHeight < maxInt64
  compression : s.compression = compressionNone ∨ s.compression = compressionGzip
  size : 0 < s.sizeBytes
  sha256 : s.sha256.length = blockHashHexLen ∧ isHex s.sha256 = true
  count : s.lastHeight - s.firstHeight < maxSegmentBlocks
  length : (s.blocks.length : Int) = s.lastHeight - s.firstHeight + 1
  blocks : Indexed s.firstHeight s.blocks

theorem validateBlockIndex_eq_ok {first : Int} {blocks : List BlockIndex} :
    validateBlockIndex first blocks = .ok () ↔ Indexed first blocks := by
  induction blocks generalizing first with
  | nil => simp [validateBlockIndex, Indexed]
  | cons block rest ih => simp [validateBlockIndex, Indexed, ih]

theorem validateCompression_eq_ok {compression : String} (chosen : compression ≠ "") :
    validateCompression compression = .ok () ↔ compression = compressionNone ∨ compression = compressionGzip := by
  rw [validateCompression, refuse_eq_ok]
  tauto

theorem SegmentManifest.validate_eq_ok {s : SegmentManifest} : s.validate = .ok () ↔ s.Valid := by
  simp only [SegmentManifest.validate, then_eq_ok, refuse_eq_ok, validateBlockIndex_eq_ok]
  constructor
  · rintro ⟨key, range, chosen, known, size, shaLength, shaHex, count, length, blocks⟩
    rw [validateCompression_eq_ok chosen] at known
    exact ⟨key, by omega, by omega, by omega, known, by omega, ⟨by simpa using shaLength, by simpa using shaHex⟩,
      by omega, by omega, blocks⟩
  · rintro ⟨key, first, last, bounded, compression, size, ⟨shaLength, shaHex⟩, count, length, blocks⟩
    have chosen : s.compression ≠ "" := by
      rcases compression with same | same <;> rw [same] <;> decide
    exact ⟨key, by omega, chosen, (validateCompression_eq_ok chosen).mpr compression, by omega,
      by simpa using shaLength, by simpa using shaHex, by omega, by omega, blocks⟩

def validateSegments : Nat → Int → List String → List SegmentManifest → Except Err Int
  -- the loop over the segments in `Manifest.Validate`: the height after the last segment
  | _, expected, _, [] => .ok expected
  | i, expected, seen, segment :: rest => do
    wrapping s!"segment {i}" segment.validate
    refuse (segment.key ∈ seen) (.new s!"duplicate segment key {quoted segment.key}")
    refuse (segment.firstHeight ≠ expected)
      (.new s!"segment {i} starts at {segment.firstHeight}, expected {expected}")
    validateSegments (i + 1) (segment.lastHeight + 1) (segment.key :: seen) rest

def Manifest.validate (m : Manifest) : Except Err Unit := do
  refuse (m.version ≠ manifestVersion) (.new s!"unsupported manifest version {m.version}")
  refuse (m.chainID = "") (.new "manifest chain_id is required")
  validateArchiveChainID m.chainID
  refuse (m.createdAt ≠ 0 ∧ m.updatedAt ≠ 0 ∧ m.updatedAt < m.createdAt)
    (.new "manifest updated_at must not be before created_at")
  if m.segments = [] then
    refuse (m.firstHeight ≠ 0 ∨ m.lastHeight ≠ 0) (.new "empty manifest must not define a height range")
  else
    refuse (m.firstHeight ≤ 0 ∨ m.lastHeight < m.firstHeight)
      (.new s!"invalid manifest height range {m.firstHeight}-{m.lastHeight}")
    let expected ← validateSegments 0 m.firstHeight [] m.segments
    refuse (expected - 1 ≠ m.lastHeight)
      (.new s!"manifest last height {m.lastHeight} does not match segments ending at {expected - 1}")

theorem validateSegments_plain (i : Nat) (expected : Int) (seen : List String) (segments : List SegmentManifest) :
    Plain (validateSegments i expected seen segments) := by
  induction segments generalizing i expected seen with
  | nil => exact Plain.ok expected
  | cons segment rest ih =>
    unfold validateSegments
    repeat' first
      | exact ih _ _ _
      | exact Plain.wrapping segment.validate_plain
      | apply Plain.refuse <;> intros <;> rfl
      | apply Plain.bind
      | intro _

theorem Manifest.validate_plain (m : Manifest) : Plain m.validate := by
  unfold Manifest.validate
  repeat' first
    | exact validateArchiveChainID_plain _
    | exact validateSegments_plain _ _ _ _
    | apply Plain.refuse <;> intros <;> rfl
    | apply Plain.bind
    | split
    | intro _

/-- The segments follow each other from `next` up to `stop`. -/
def Tiles : Int → List SegmentManifest → Int → Prop
  | next, [], stop => next = stop
  | next, segment :: rest, stop => segment.firstHeight = next ∧ Tiles (segment.lastHeight + 1) rest stop

structure Manifest.Valid (m : Manifest) : Prop where
  version : m.version = manifestVersion
  chainID : m.chainID ≠ "" ∧ validateArchiveChainID m.chainID = .ok ()
  times : m.createdAt = 0 ∨ m.updatedAt = 0 ∨ m.createdAt ≤ m.updatedAt
  segments : ∀ segment ∈ m.segments, segment.Valid
  keys : (m.segments.map (·.key)).Nodup
  range : (m.segments = [] ∧ m.firstHeight = 0 ∧ m.lastHeight = 0) ∨
    (m.segments ≠ [] ∧ 0 < m.firstHeight ∧ m.firstHeight ≤ m.lastHeight ∧
      Tiles m.firstHeight m.segments (m.lastHeight + 1))

theorem validateSegments_eq_ok {i : Nat} {expected stop : Int} {seen : List String} {segments : List SegmentManifest} :
    validateSegments i expected seen segments = .ok stop ↔
      (∀ segment ∈ segments, segment.Valid) ∧ (segments.map (·.key)).Nodup ∧
        (∀ segment ∈ segments, segment.key ∉ seen) ∧ Tiles expected segments stop := by
  induction segments generalizing i expected seen with
  | nil => simp [validateSegments, Tiles]
  | cons segment rest ih =>
    simp only [validateSegments, then_eq_ok, wrapping_eq_ok, refuse_eq_ok, SegmentManifest.validate_eq_ok, ih, Tiles,
      List.map_cons, List.nodup_cons, List.mem_cons, List.mem_map, forall_eq_or_imp]
    constructor
    · rintro ⟨valid, unseen, first, rest, keys, fresh, tiles⟩
      refine ⟨⟨valid, rest⟩, ⟨?_, keys⟩, ⟨unseen, ?_⟩, not_not.mp first, tiles⟩
      · rintro ⟨other, member, same⟩
        exact fresh other member (.inl same)
      · intro other member seen
        exact fresh other member (.inr seen)
    · rintro ⟨⟨valid, rest⟩, ⟨distinct, keys⟩, ⟨unseen, fresh⟩, first, tiles⟩
      refine ⟨valid, unseen, not_not.mpr first, rest, keys, ?_, tiles⟩
      rintro other member (same | seen)
      · exact distinct ⟨other, member, same⟩
      · exact fresh other member seen

theorem Manifest.validate_eq_ok {m : Manifest} : m.validate = .ok () ↔ m.Valid := by
  simp only [Manifest.validate, then_eq_ok, refuse_eq_ok]
  constructor
  · rintro ⟨version, named, chainID, times, rest⟩
    have ordered : m.createdAt = 0 ∨ m.updatedAt = 0 ∨ m.createdAt ≤ m.updatedAt := by omega
    split at rest
    next empty =>
      rw [refuse_eq_ok] at rest
      refine ⟨not_not.mp version, ⟨named, chainID⟩, ordered, by simp [empty], by simp [empty], .inl ⟨empty, ?_⟩⟩
      omega
    next filled =>
      rw [then_eq_ok, refuse_eq_ok, bind_eq_ok] at rest
      simp only [refuse_eq_ok, validateSegments_eq_ok] at rest
      obtain ⟨range, stop, ⟨valid, keys, -, tiles⟩, last⟩ := rest
      have same : stop = m.lastHeight + 1 := by omega
      exact ⟨not_not.mp version, ⟨named, chainID⟩, ordered, valid, keys, .inr ⟨filled, by omega, by omega, same ▸ tiles⟩⟩
  · rintro ⟨version, ⟨named, chainID⟩, times, valid, keys, range⟩
    refine ⟨not_not.mpr version, named, chainID, by omega, ?_⟩
    rcases range with ⟨empty, first, last⟩ | ⟨filled, first, last, tiles⟩
    · rw [if_pos empty, refuse_eq_ok]
      omega
    · rw [if_neg filled, then_eq_ok, refuse_eq_ok, bind_eq_ok]
      simp only [refuse_eq_ok, validateSegments_eq_ok]
      exact ⟨by omega, _, ⟨valid, keys, by simp, tiles⟩, by omega⟩

def newManifest (chainID : String) (segments : List SegmentManifest) (now : Int) : Manifest × Except Err Unit :=
  -- the sort is unstable in Go, but segments that share their first height do not validate
  let sorted := segments.insertionSort fun a b => a.firstHeight ≤ b.firstHeight
  let m : Manifest :=
    { revision := "", sourceKey := ""
      version := manifestVersion
      chainID
      firstHeight := (sorted.head?.map (·.firstHeight)).getD 0
      lastHeight := (sorted.getLast?.map (·.lastHeight)).getD 0
      createdAt := now
      updatedAt := now
      segments := sorted }
  (m, m.validate)

def Manifest.appendSegmentInPlace (m : Manifest) (segment : SegmentManifest) (now : Int) : Except Err Manifest := do
  let m := if m.version = 0 then { m with version := manifestVersion } else m
  wrapping "segment" segment.validate
  match m.segments.getLast? with
  | none =>
    return { m with
      segments := m.segments ++ [segment]
      firstHeight := segment.firstHeight
      lastHeight := segment.lastHeight
      createdAt := if m.createdAt = 0 then now else m.createdAt
      updatedAt := now }
  | some prev =>
    refuse (segment.firstHeight ≠ prev.lastHeight + 1)
      (.new s!"segment starts at {segment.firstHeight}, expected {prev.lastHeight + 1}")
    refuse (segment.key = prev.key) (.new s!"duplicate segment key {quoted segment.key}")
    return { m with segments := m.segments ++ [segment], lastHeight := segment.lastHeight, updatedAt := now }

theorem Manifest.appendSegmentInPlace_spec {m m' : Manifest} {segment : SegmentManifest} {now : Int}
    (ok : m.appendSegmentInPlace segment now = .ok m') :
    segment.Valid ∧ m'.segments = m.segments ++ [segment] ∧ m'.lastHeight = segment.lastHeight ∧
      m'.chainID = m.chainID ∧ m'.revision = m.revision ∧ m'.sourceKey = m.sourceKey ∧
      (m.segments = [] → m'.firstHeight = segment.firstHeight) ∧
      (m.segments ≠ [] → m'.firstHeight = m.firstHeight) := by
  unfold appendSegmentInPlace at ok
  -- the version is all that the first line may change
  generalize same : (if m.version = 0 then { m with version := manifestVersion } else m) = start at ok
  have kept : start.segments = m.segments ∧ start.chainID = m.chainID ∧ start.revision = m.revision ∧
      start.sourceKey = m.sourceKey ∧ start.firstHeight = m.firstHeight := by
    subst same
    split <;> exact ⟨rfl, rfl, rfl, rfl, rfl⟩
  obtain ⟨segments, chainID, revision, sourceKey, first⟩ := kept
  simp only [then_eq_ok, wrapping_eq_ok, SegmentManifest.validate_eq_ok] at ok
  obtain ⟨valid, ok⟩ := ok
  split at ok
  next empty =>
    cases ok
    have empty : m.segments = [] := by rw [← segments]; exact List.getLast?_eq_none_iff.mp empty
    exact ⟨valid, by rw [segments], rfl, chainID, revision, sourceKey, fun _ => rfl, fun filled => absurd empty filled⟩
  next prev last =>
    simp only [then_eq_ok, refuse_eq_ok] at ok
    obtain ⟨-, -, ok⟩ := ok
    cases ok
    refine ⟨valid, by rw [segments], rfl, chainID, revision, sourceKey, ?_, fun _ => first⟩
    intro empty
    rw [segments, empty] at last
    cases last

def SegmentManifest.Indexes (s : SegmentManifest) (height : Int) (hash : Bytes) : Prop :=
  ∃ block ∈ s.blocks, block.height = height ∧ block.hash = hash

def Manifest.Indexes (m : Manifest) (height : Int) (hash : Bytes) : Prop :=
  ∃ segment ∈ m.segments, segment.Indexes height hash

theorem Indexed.bounds {first : Int} {blocks : List BlockIndex} (indexed : Indexed first blocks) :
    ∀ block ∈ blocks, first ≤ block.height ∧ block.height < first + blocks.length := by
  induction blocks generalizing first with
  | nil => simp
  | cons head rest ih =>
    obtain ⟨height, -, -, indexed⟩ := indexed
    intro block member
    rw [List.length_cons]
    rcases List.mem_cons.mp member with rfl | member
    · omega
    · have bounds := ih indexed block member
      omega

theorem Indexed.exists_block {first height : Int} {blocks : List BlockIndex} (indexed : Indexed first blocks)
    (low : first ≤ height) (high : height < first + blocks.length) : ∃ block ∈ blocks, block.height = height := by
  induction blocks generalizing first with
  | nil =>
    rw [List.length_nil] at high
    omega
  | cons head rest ih =>
    obtain ⟨same, -, -, indexed⟩ := indexed
    rw [List.length_cons] at high
    by_cases here : height = first
    · exact ⟨head, List.mem_cons_self, by omega⟩
    · obtain ⟨block, member, found⟩ := ih indexed (by omega) (by omega)
      exact ⟨block, List.mem_cons_of_mem _ member, found⟩

theorem Indexed.getElem {first : Int} {blocks : List BlockIndex} {i : Nat} {block : BlockIndex}
    (indexed : Indexed first blocks) (found : blocks[i]? = some block) : block.height = first + i := by
  induction blocks generalizing first i with
  | nil => cases found
  | cons head rest ih =>
    obtain ⟨height, -, -, indexed⟩ := indexed
    cases i with
    | zero =>
      cases found
      simpa using height
    | succ i =>
      rw [ih indexed (by simpa using found)]
      push_cast
      ring

theorem Indexed.unique {first : Int} {blocks : List BlockIndex} (indexed : Indexed first blocks) :
    ∀ a ∈ blocks, ∀ b ∈ blocks, a.height = b.height → a = b := by
  induction blocks generalizing first with
  | nil => simp
  | cons head rest ih =>
    obtain ⟨height, -, -, indexed⟩ := indexed
    intro a left b right same
    rcases List.mem_cons.mp left with rfl | laterA
    · rcases List.mem_cons.mp right with rfl | laterB
      · rfl
      · have bounds := indexed.bounds b laterB
        omega
    · rcases List.mem_cons.mp right with rfl | laterB
      · have bounds := indexed.bounds a laterA
        omega
      · exact ih indexed a laterA b laterB same

theorem SegmentManifest.Valid.bounds {s : SegmentManifest} {height : Int} {hash : Bytes} (valid : s.Valid)
    (indexes : s.Indexes height hash) : s.firstHeight ≤ height ∧ height ≤ s.lastHeight := by
  obtain ⟨block, member, rfl, -⟩ := indexes
  have bounds := valid.blocks.bounds block member
  have length := valid.length
  omega

theorem SegmentManifest.Valid.unique {s : SegmentManifest} {height : Int} {left right : Bytes} (valid : s.Valid)
    (first : s.Indexes height left) (second : s.Indexes height right) : left = right := by
  obtain ⟨a, memberA, heightA, rfl⟩ := first
  obtain ⟨b, memberB, heightB, rfl⟩ := second
  rw [valid.blocks.unique a memberA b memberB (heightA.trans heightB.symm)]

theorem Tiles.bounds {next stop : Int} {segments : List SegmentManifest} (tiles : Tiles next segments stop)
    (valid : ∀ segment ∈ segments, segment.Valid) :
    next ≤ stop ∧ ∀ segment ∈ segments, next ≤ segment.firstHeight ∧ segment.lastHeight < stop := by
  induction segments generalizing next with
  | nil => exact ⟨le_of_eq tiles, by simp⟩
  | cons head rest ih =>
    obtain ⟨first, tiles⟩ := tiles
    have ordered := (valid head List.mem_cons_self).last
    obtain ⟨above, within⟩ := ih tiles fun segment member => valid segment (List.mem_cons_of_mem _ member)
    refine ⟨by omega, ?_⟩
    intro segment member
    rcases List.mem_cons.mp member with rfl | member
    · omega
    · have bounds := within segment member
      omega

theorem Tiles.apart {next stop : Int} {segments : List SegmentManifest} (tiles : Tiles next segments stop)
    (valid : ∀ segment ∈ segments, segment.Valid) :
    segments.Pairwise fun a b => a.lastHeight < b.firstHeight := by
  induction segments generalizing next with
  | nil => exact .nil
  | cons head rest ih =>
    obtain ⟨-, tiles⟩ := tiles
    obtain ⟨-, others⟩ := List.forall_mem_cons.mp valid
    refine List.pairwise_cons.mpr ⟨?_, ih tiles others⟩
    intro segment member
    have above := (tiles.bounds others).2 segment member
    omega

theorem Tiles.exists_segment {next stop height : Int} {segments : List SegmentManifest} (tiles : Tiles next segments stop)
    (low : next ≤ height) (high : height < stop) :
    ∃ segment ∈ segments, segment.firstHeight ≤ height ∧ height ≤ segment.lastHeight := by
  induction segments generalizing next with
  | nil =>
    have same : next = stop := tiles
    omega
  | cons head rest ih =>
    obtain ⟨first, tiles⟩ := tiles
    by_cases here : height ≤ head.lastHeight
    · exact ⟨head, List.mem_cons_self, by omega, here⟩
    · obtain ⟨segment, member, found⟩ := ih tiles (by omega)
      exact ⟨segment, List.mem_cons_of_mem _ member, found⟩

theorem Tiles.unique {next stop height : Int} {segments : List SegmentManifest} (tiles : Tiles next segments stop)
    (valid : ∀ segment ∈ segments, segment.Valid) :
    ∀ a ∈ segments, ∀ b ∈ segments, a.firstHeight ≤ height → height ≤ a.lastHeight → b.firstHeight ≤ height →
      height ≤ b.lastHeight → a = b := by
  induction segments generalizing next with
  | nil => simp
  | cons head rest ih =>
    obtain ⟨-, tiles⟩ := tiles
    have validRest := fun segment member => valid segment (List.mem_cons_of_mem head member)
    have above := (tiles.bounds validRest).2
    intro a left b right
    rcases List.mem_cons.mp left with rfl | laterA
    · rcases List.mem_cons.mp right with rfl | laterB
      · intros
        rfl
      · have bounds := above b laterB
        omega
    · rcases List.mem_cons.mp right with rfl | laterB
      · have bounds := above a laterA
        omega
      · exact ih tiles validRest a laterA b laterB

theorem Manifest.Valid.bounds {m : Manifest} {height : Int} {hash : Bytes} (valid : m.Valid)
    (indexes : m.Indexes height hash) : 0 < m.firstHeight ∧ m.firstHeight ≤ height ∧ height ≤ m.lastHeight := by
  obtain ⟨segment, member, indexes⟩ := indexes
  have within := (valid.segments segment member).bounds indexes
  rcases valid.range with ⟨empty, -⟩ | ⟨-, first, -, tiles⟩
  · rw [empty] at member
    cases member
  · have bounds := (tiles.bounds valid.segments).2 segment member
    omega

theorem Manifest.Valid.exists_index {m : Manifest} {height : Int} (valid : m.Valid) (positive : 0 < m.firstHeight)
    (low : m.firstHeight ≤ height) (high : height ≤ m.lastHeight) : ∃ hash, m.Indexes height hash := by
  rcases valid.range with ⟨-, first, -⟩ | ⟨-, -, -, tiles⟩
  · omega
  · obtain ⟨segment, member, from_first, to_last⟩ := tiles.exists_segment low (by omega)
    have segmentValid := valid.segments segment member
    have length := segmentValid.length
    obtain ⟨block, found, same⟩ := segmentValid.blocks.exists_block from_first (by omega)
    exact ⟨block.hash, segment, member, block, found, same, rfl⟩

theorem Manifest.Valid.unique {m : Manifest} {height : Int} {left right : Bytes} (valid : m.Valid)
    (first : m.Indexes height left) (second : m.Indexes height right) : left = right := by
  obtain ⟨a, memberA, first⟩ := first
  obtain ⟨b, memberB, second⟩ := second
  have validA := valid.segments a memberA
  have boundsA := validA.bounds first
  have boundsB := (valid.segments b memberB).bounds second
  rcases valid.range with ⟨empty, -⟩ | ⟨-, -, -, tiles⟩
  · rw [empty] at memberA
    cases memberA
  · have same := tiles.unique valid.segments a memberA b memberB boundsA.1 boundsA.2 boundsB.1 boundsB.2
    subst same
    exact validA.unique first second

end CometArchive.Archive
