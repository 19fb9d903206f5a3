import CometArchive.Archive.Segment

set_option autoImplicit false

namespace CometArchive.Archive

open GoBytes GoError

variable {V : Type} (codec : Codec) (comet : Comet V)

def readStream (ending : Option Err) (n : Nat) (input : Bytes) : Except Err (Bytes × Bytes) :=
  -- `io.ReadFull` from a stream; `ending` is the error that ends it early, if one does
  match readFull n input with
  | .error err => .error (ending.getD err)
  | .ok parts => .ok parts

def decodeOneRecord (ending : Option Err) (input : Bytes) : Except Err BlockRecord := do
  let (height, input) ← readStream ending 8 input
  let (hashLen, input) ← readStream ending 1 input
  let (hash, input) ← readStream ending (fromBigEndian hashLen) input
  let (payloadLen, input) ← readStream ending 4 input
  let payloadLen := fromBigEndian payloadLen
  refuse (payloadLen = 0 ∨ maxRecordPayloadLen < payloadLen) (.new s!"invalid record payload length {payloadLen}")
  let (bytes, _) ← readStream ending payloadLen input
  return { height := int64Of height, hash, bytes }

def seekRecord (body : Bytes) (compression : String) (offset : Int) : Except Err (Bytes × Option Err) := do
  if compression = compressionNone then
    refuse ((body.length : Int) < offset) (.new s!"offset {offset} exceeds payload length {body.length}")
    return (body.drop offset.toNat, none)
  else if compression = compressionGzip then
    let (out, failure) ← codec.gunzip body
    refuse ((out.length : Int) < offset) (failure.getD (.new "EOF"))
    return (out.drop offset.toNat, failure)
  else .error (.new s!"unsupported compression {quoted compression}")

def decodeSegmentBlockFast (data : Bytes) (manifest : SegmentManifest) (entry : BlockIndex) : Except Err Block := do
  manifest.validate
  refuse ((data.length : Int) ≠ manifest.sizeBytes)
    (.new s!"segment size mismatch: got {data.length} want {manifest.sizeBytes}")
  let got := hexEncode (codec.sha256 data)
  refuse (got ≠ manifest.sha256)
    (.new s!"segment checksum mismatch: got {asciiText got} want {asciiText manifest.sha256}")
  refuse (data.take segmentMagic.length ≠ segmentMagic) (.new "invalid segment magic")
  refuse (entry.offset < 0 ∨ maxDecompressedFor manifest < entry.offset) (.new s!"invalid record offset {entry.offset}")
  let (payload, ending) ← seekRecord codec (data.drop segmentMagic.length) manifest.compression entry.offset
  let record ← decodeOneRecord ending payload
  refuse (record.height ≠ entry.height) (.new s!"record height {record.height}, expected {entry.height}")
  refuse (record.hash ≠ entry.hash) (.new s!"record hash {asciiText record.hash}, expected {asciiText entry.hash}")
  recordToBlock comet record

def seekSegmentBlock (data : Bytes) (manifest : SegmentManifest) (height : Int) : Option Block :=
  -- the block the fast path finds, if it is tried and succeeds
  let index := (height - manifest.firstHeight).toNat
  match manifest.blocks[index]? with
  | none => none
  | some entry =>
    -- zero stands for a missing offset, but for that of the first record
    if 0 < entry.offset ∨ index = 0 then (decodeSegmentBlockFast codec comet data manifest entry).toOption else none

def decodeSegmentBlock (data : Bytes) (manifest : SegmentManifest) (height : Int) : Except Err Block := do
  refuse (height < manifest.firstHeight ∨ manifest.lastHeight < height)
    (.both (.sentinel .segmentBlockNotFound)
      (.new s!"height {height} outside segment range {manifest.firstHeight}-{manifest.lastHeight}"))
  match seekSegmentBlock codec comet data manifest height with
  | some block => return block
  | none =>
    let records ← decodeSegmentRecords codec data manifest fun _ => .ok ()
    match records.find? (·.height = height) with
    | some record => recordToBlock comet record
    | none => .error (.both (.sentinel .segmentBlockNotFound) (.new s!"height {height}"))

section Spec

variable {codec comet} {data : Bytes} {segment : SegmentManifest} {height : Int} {records : List BlockRecord}

theorem recordToBlock_spec {record : BlockRecord} {block : Block} (ok : recordToBlock comet record = .ok block) :
    block.height = record.height ∧ hexEncode (comet.blockHash block) = record.hash := by
  unfold recordToBlock at ok
  obtain ⟨read, -, ok⟩ := bind_eq_ok.mp ok
  rw [then_eq_ok, then_eq_ok, refuse_eq_ok, refuse_eq_ok, not_not, not_not] at ok
  obtain ⟨hash, height, same⟩ := ok
  cases same
  exact ⟨height, hash⟩

def SegmentManifest.Names (segment : SegmentManifest) (comet : Comet V) (height : Int) (block : Block) : Prop :=
  block.height = height ∧ segment.Indexes height (hexEncode (comet.blockHash block))

def Manifest.Names (m : Manifest) (comet : Comet V) (height : Int) (block : Block) : Prop :=
  block.height = height ∧ m.Indexes height (hexEncode (comet.blockHash block))

theorem seekSegmentBlock_spec {block : Block} (valid : segment.Valid) (above : segment.firstHeight ≤ height)
    (found : seekSegmentBlock codec comet data segment height = some block) : segment.Names comet height block := by
  simp only [seekSegmentBlock] at found
  split at found
  · cases found
  next entry indexed =>
    split at found
    next =>
      cases decoded : decodeSegmentBlockFast codec comet data segment entry with
      | error err =>
        rw [decoded] at found
        cases found
      | ok other =>
        rw [decoded] at found
        cases found
        -- whatever the offset led to, the record was compared with the index
        unfold decodeSegmentBlockFast at decoded
        rw [then_eq_ok, then_eq_ok, then_eq_ok, then_eq_ok, then_eq_ok] at decoded
        obtain ⟨-, -, -, -, -, decoded⟩ := decoded
        obtain ⟨⟨payload, ending⟩, -, decoded⟩ := bind_eq_ok.mp decoded
        obtain ⟨record, -, decoded⟩ := bind_eq_ok.mp decoded
        rw [then_eq_ok, then_eq_ok, refuse_eq_ok, refuse_eq_ok, not_not, not_not] at decoded
        obtain ⟨sameHeight, sameHash, read⟩ := decoded
        obtain ⟨blockHeight, hash⟩ := recordToBlock_spec read
        have entryHeight := valid.blocks.getElem indexed
        refine ⟨by omega, entry, List.mem_of_getElem? indexed, by omega, ?_⟩
        rw [hash, sameHash]
    next => cases found

theorem Decodes.exists_record (decodes : Decodes codec data segment records) (above : segment.firstHeight ≤ height)
    (below : height ≤ segment.lastHeight) :
    ∃ record ∈ records, record.height = height ∧ segment.Indexes height record.hash ∧
      records[(height - segment.firstHeight).toNat]? = some record := by
  have length : records.length = segment.blocks.length := by
    simpa using (congrArg List.length decodes.index).symm
  have total := decodes.valid.length
  have inside : (height - segment.firstHeight).toNat < records.length := by omega
  have indexed : (height - segment.firstHeight).toNat < segment.blocks.length := by omega
  have same : (segment.blocks[(height - segment.firstHeight).toNat].height,
      segment.blocks[(height - segment.firstHeight).toNat].hash) =
      (records[(height - segment.firstHeight).toNat].height, records[(height - segment.firstHeight).toNat].hash) := by
    simpa [inside, indexed] using congrArg (·[(height - segment.firstHeight).toNat]?) decodes.index
  have entryHeight := decodes.valid.blocks.getElem (List.getElem?_eq_getElem indexed)
  simp only [Prod.mk.injEq] at same
  refine ⟨records[(height - segment.firstHeight).toNat], List.getElem_mem inside, by omega, ?_, ?_⟩
  · exact ⟨_, List.getElem_mem indexed, by omega, same.2⟩
  · exact List.getElem?_eq_getElem inside

/-- Where the whole segment decodes, so does each of its blocks, whatever the offsets are. -/
theorem decodeSegmentBlock_spec (decoded : decodeSegment codec comet data segment = .ok records)
    (above : segment.firstHeight ≤ height) (below : height ≤ segment.lastHeight) :
    ∃ block, decodeSegmentBlock codec comet data segment height = .ok block ∧ segment.Names comet height block := by
  obtain ⟨decodes, accepted⟩ := decodeSegmentRecords_spec codec decoded
  have inside : refuse (height < segment.firstHeight ∨ segment.lastHeight < height)
      (.both (.sentinel .segmentBlockNotFound)
        (.new s!"height {height} outside segment range {segment.firstHeight}-{segment.lastHeight}") : Err) = .ok () :=
    refuse_eq_ok.mpr (by omega)
  unfold decodeSegmentBlock
  cases fast : seekSegmentBlock codec comet data segment height with
  | some block => exact ⟨block, then_eq_ok.mpr ⟨inside, rfl⟩, seekSegmentBlock_spec decodes.valid above fast⟩
  | none =>
    obtain ⟨record, member, sameHeight, -⟩ := decodes.exists_record above below
    obtain ⟨found, search⟩ : ∃ found, records.find? (·.height = height) = some found :=
      Option.isSome_iff_exists.mp (List.find?_isSome.mpr ⟨record, member, by simpa using sameHeight⟩)
    have foundHeight : found.height = height := by simpa using List.find?_some search
    obtain ⟨block, read⟩ := validateDecodedBlockRecord_eq_ok.mp (accepted found (List.mem_of_find?_eq_some search))
    obtain ⟨blockHeight, hash⟩ := recordToBlock_spec read
    -- the record found is the one the index lists for this height
    have listed : (found.height, found.hash) ∈ segment.blocks.map fun block => (block.height, block.hash) := by
      rw [decodes.index]
      exact List.mem_map_of_mem (List.mem_of_find?_eq_some search)
    obtain ⟨entry, entryMember, same⟩ := List.mem_map.mp listed
    simp only [Prod.mk.injEq] at same
    refine ⟨block, then_eq_ok.mpr ⟨inside, ?_⟩, by omega, entry, entryMember, by omega, same.2.trans hash.symm⟩
    refine bind_eq_ok.mpr ⟨records, ?_, ?_⟩
    · exact decodeSegmentRecords_unchecked codec decoded
    · simp only [search]
      exact read

end Spec

end CometArchive.Archive
