import CometArchive.Archive.Manifest

set_option autoImplicit false

namespace CometArchive.Archive

open GoBytes GoError

structure Codec where
  sha256 : Bytes → Bytes
  md5 : Bytes → Bytes
  gzip : Bytes → Bytes
  /-- What the stream decompresses to, up to the error that ends it, if one does. -/
  gunzip : Bytes → Except Err (Bytes × Option Err)

structure BlockRecord where
  height : Int
  hash : Bytes
  bytes : Bytes
  deriving DecidableEq, Repr

-- "CBTASEG1"
def segmentMagic : Bytes := [67, 66, 84, 65, 83, 69, 71, 49]
def maxSegmentPayloadBytes : Int := 2 ^ 30
def maxRecordPayloadLen : Int := 256 * 2 ^ 20

variable {V : Type}

def blockToRecord (comet : Comet V) (block : Block) : Except Err BlockRecord := do
  let data ← comet.marshalBlock block
  return { height := block.height, hash := hexEncode (comet.blockHash block), bytes := data }

def recordToBlock (comet : Comet V) (record : BlockRecord) : Except Err Block := do
  let block ← comet.unmarshalBlock record.bytes
  let got := hexEncode (comet.blockHash block)
  refuse (got ≠ record.hash)
    (.new s!"record hash mismatch at height {record.height}: got {asciiText got} want {asciiText record.hash}")
  refuse (block.height ≠ record.height)
    (.new s!"record height mismatch: block has {block.height}, record has {record.height}")
  return block

def validateDecodedBlockRecord (comet : Comet V) (record : BlockRecord) : Except Err Unit := do
  let _ ← recordToBlock comet record
  return ()

def segmentPayloadWouldExceedLimit (current hashBytes recordBytes maxSize : Int) : Bool :=
  let recordLen := 8 + 1 + 4 + hashBytes + recordBytes
  maxSize ≤ 0 || maxSize < recordLen || maxSize - recordLen < current

def checkRecord (previous : Option Int) (record : BlockRecord) : Except Err Unit := do
  -- the checks of `EncodeSegment` on one record, given the height before it, if any
  refuse (∃ height ∈ previous, record.height ≠ wrap64 (height + 1))
    (.new s!"records are not contiguous at height {record.height}")
  refuse (record.height ≤ 0) (.new s!"invalid record height {record.height}")
  refuse (record.hash = []) (.new s!"record at height {record.height} has empty hash")
  refuse (record.hash.length ≠ blockHashHexLen)
    (.new s!"record hash for height {record.height} must be {blockHashHexLen} hex characters")
  refuse (isHex record.hash = false)
    (.wrap s!"record hash for height {record.height} is not valid hex" (.new (hexDecodeError record.hash)))
  refuse (record.bytes = []) (.new s!"record at height {record.height} has empty payload")
  refuse (255 < record.hash.length) (.new s!"record hash for height {record.height} is too long")
  refuse (maxRecordPayloadLen < record.bytes.length) (.new s!"record at height {record.height} exceeds max payload")

def encodeRecords : Option Int → Bytes → List Int → List BlockRecord → Except Err (Bytes × List Int)
  -- the loop of `EncodeSegment`: the payload and the offsets of the records in it
  | _, payload, offsets, [] => .ok (payload, offsets)
  | previous, payload, offsets, record :: rest => do
    checkRecord previous record
    let header := payload ++ (int64Bytes record.height ++ UInt8.ofNat record.hash.length :: record.hash)
    refuse (segmentPayloadWouldExceedLimit header.length record.hash.length record.bytes.length maxSegmentPayloadBytes)
      (.new s!"segment payload exceeds max size {maxSegmentPayloadBytes}")
    encodeRecords (some record.height) (header ++ (bigEndian 4 record.bytes.length ++ record.bytes))
      (offsets ++ [(payload.length : Int)]) rest

variable (codec : Codec)

def compressPayload (data : Bytes) (compression : String) : Except Err Bytes :=
  if compression = compressionNone then .ok data
  else if compression = compressionGzip then .ok (codec.gzip data)
  else .error (.new s!"unsupported compression {quoted compression}")

def orDefaultCompression (compression : String) : String :=
  if compression = "" then defaultCompression else compression

def encodeSegment (records : List BlockRecord) (compression : String) : Except Err (Bytes × SegmentManifest) := do
  let compression := orDefaultCompression compression
  validateCompression compression
  refuse (records = []) (.new "segment requires at least one record")
  refuse (maxSegmentBlocks < records.length)
    (.new s!"segment has {records.length} records, maximum is {maxSegmentBlocks}")
  let (payload, offsets) ← encodeRecords none [] [] records
  let compressed ← compressPayload codec payload compression
  let data := segmentMagic ++ compressed
  return (data,
    { key := ""
      firstHeight := (records.head?.map (·.height)).getD 0
      lastHeight := (records.getLast?.map (·.height)).getD 0
      compression
      sizeBytes := data.length
      sha256 := hexEncode (codec.sha256 data)
      blocks := records.zipWith (fun record offset => { height := record.height, hash := record.hash, offset }) offsets })

def maxDecompressedForBlockCount (blocks perRecordMax : Int) : Int :=
  let blocks := if blocks ≤ 0 then 1 else blocks
  if perRecordMax ≤ 0 then maxInt64
  else if maxInt64 / perRecordMax < blocks then maxInt64
  else blocks * perRecordMax

def maxDecompressedFor (m : SegmentManifest) : Int :=
  min (maxDecompressedForBlockCount m.blocks.length (maxRecordPayloadLen + (8 + 1 + 255 + 4))) maxSegmentPayloadBytes

def decompressPayload (data : Bytes) (compression : String) (maxSize : Int) : Except Err Bytes := do
  refuse (maxSize ≤ 0) (.new s!"invalid max decompressed size {maxSize}")
  if compression = compressionNone then
    refuse (maxSize < data.length) (.new s!"uncompressed payload exceeds max size {maxSize}")
    return data
  else if compression = compressionGzip then
    let (out, failure) ← codec.gunzip data
    -- the reader stops after one byte too many, so an error further on is not seen
    refuse (maxSize < out.length) (.new s!"decompressed payload exceeds max size {maxSize}")
    match failure with
    | some err => .error err
    | none => return out
  else .error (.new s!"unsupported compression {quoted compression}")

def readFull (n : Nat) (input : Bytes) : Except Err (Bytes × Bytes) := do
  refuse (input.length < n) (.new (if input = [] then "EOF" else "unexpected EOF"))
  return (input.take n, input.drop n)

def decodeRecord (input : Bytes) : Except Err (BlockRecord × Bytes) := do
  -- one pass of the loop of `decodeRecords`
  let (height, input) ← readFull 8 input
  let (hashLen, input) ← readFull 1 input
  let (hash, input) ← readFull (fromBigEndian hashLen) input
  let (payloadLen, input) ← readFull 4 input
  let payloadLen := fromBigEndian payloadLen
  refuse (payloadLen = 0 ∨ maxRecordPayloadLen < payloadLen ∨ input.length < payloadLen)
    (.new s!"invalid record payload length {payloadLen}")
  let (bytes, input) ← readFull payloadLen input
  return ({ height := int64Of height, hash, bytes }, input)

def decodeRecordsUpTo : Nat → Bytes → Except Err (List BlockRecord)
  -- the loop of `decodeRecords`, with room for `room` more records
  | _, [] => .ok []
  | 0, _ :: _ => .error (.new "segment record count exceeds maximum")
  | room + 1, byte :: input => do
    let (record, input) ← decodeRecord (byte :: input)
    let records ← decodeRecordsUpTo room input
    return record :: records

def decodeRecords (payload : Bytes) : Except Err (List BlockRecord) := decodeRecordsUpTo maxSegmentBlocks.toNat payload

def checkRecords (validateRecord : BlockRecord → Except Err Unit) :
    Nat → List (BlockRecord × BlockIndex) → Except Err Unit
  -- the loop of `decodeSegmentRecords` that compares the records with the index
  | _, [] => .ok ()
  | i, (record, index) :: rest => do
    refuse (record.height ≠ index.height) (.new s!"record {i} height {record.height}, expected {index.height}")
    refuse (record.hash ≠ index.hash)
      (.new s!"record {i} hash {asciiText record.hash}, expected {asciiText index.hash}")
    validateRecord record
    checkRecords validateRecord (i + 1) rest

/-- `validateRecord` accepts everything where the source passes nil. -/
def decodeSegmentRecords (data : Bytes) (manifest : SegmentManifest) (validateRecord : BlockRecord → Except Err Unit) :
    Except Err (List BlockRecord) := do
  manifest.validate
  refuse ((data.length : Int) ≠ manifest.sizeBytes)
    (.new s!"segment size mismatch: got {data.length} want {manifest.sizeBytes}")
  let got := hexEncode (codec.sha256 data)
  refuse (got ≠ manifest.sha256)
    (.new s!"segment checksum mismatch: got {asciiText got} want {asciiText manifest.sha256}")
  refuse (data.take segmentMagic.length ≠ segmentMagic) (.new "invalid segment magic")
  let payload ← decompressPayload codec (data.drop segmentMagic.length) manifest.compression (maxDecompressedFor manifest)
  let records ← decodeRecords payload
  refuse (records.length ≠ manifest.blocks.length)
    (.new s!"segment record count {records.length}, expected {manifest.blocks.length}")
  checkRecords validateRecord 0 (records.zip manifest.blocks)
  return records

def decodeSegment (comet : Comet V) (data : Bytes) (manifest : SegmentManifest) : Except Err (List BlockRecord) :=
  decodeSegmentRecords codec data manifest (validateDecodedBlockRecord comet)

section Records

def recordBytes (record : BlockRecord) : Bytes :=
  (int64Bytes record.height ++ UInt8.ofNat record.hash.length :: record.hash) ++
    (bigEndian 4 record.bytes.length ++ record.bytes)

structure BlockRecord.WellFormed (record : BlockRecord) : Prop where
  height : 0 < record.height
  hash : record.hash.length = blockHashHexLen
  hex : isHex record.hash = true
  filled : record.bytes ≠ []
  bounded : (record.bytes.length : Int) ≤ maxRecordPayloadLen

def Contiguous : Option Int → List BlockRecord → Prop
  | _, [] => True
  | previous, record :: rest =>
    (∀ height ∈ previous, record.height = wrap64 (height + 1)) ∧ Contiguous (some record.height) rest

theorem checkRecord_eq_ok {previous : Option Int} {record : BlockRecord} :
    checkRecord previous record = .ok () ↔
      record.WellFormed ∧ ∀ height ∈ previous, record.height = wrap64 (height + 1) := by
  simp only [checkRecord, then_eq_ok, refuse_eq_ok]
  constructor
  · rintro ⟨next, height, -, hash, hex, filled, -, bounded⟩
    refine ⟨⟨by omega, not_not.mp hash, by simpa using hex, filled, by omega⟩, ?_⟩
    intro height member
    by_contra other
    exact next ⟨height, member, other⟩
  · rintro ⟨⟨height, hash, hex, filled, bounded⟩, next⟩
    refine ⟨?_, by omega, ?_, not_not.mpr hash, by simpa using hex, filled, ?_, by omega⟩
    · rintro ⟨height, member, other⟩
      exact other (next height member)
    · intro empty
      rw [empty] at hash
      cases hash
    · rw [hash]
      decide

theorem encodeRecords_spec {previous : Option Int} {payload out : Bytes} {offsets outOffsets : List Int}
    {records : List BlockRecord} (ok : encodeRecords previous payload offsets records = .ok (out, outOffsets)) :
    out = payload ++ records.flatMap recordBytes ∧ outOffsets.length = offsets.length + records.length ∧
      (∀ record ∈ records, record.WellFormed) ∧ Contiguous previous records ∧
      (records = [] ∨ (out.length : Int) ≤ maxSegmentPayloadBytes) := by
  induction records generalizing previous payload offsets with
  | nil =>
    cases ok
    simp [Contiguous]
  | cons record rest ih =>
    simp only [encodeRecords, then_eq_ok, refuse_eq_ok, checkRecord_eq_ok] at ok
    obtain ⟨⟨wellFormed, next⟩, room, ok⟩ := ok
    obtain ⟨same, count, others, contiguous, fits⟩ := ih ok
    refine ⟨?_, ?_, ?_, ⟨next, contiguous⟩, .inr ?_⟩
    · rw [same, List.flatMap_cons, recordBytes]
      simp only [List.append_assoc]
    · rw [count, List.length_append, List.length_cons, List.length_cons]
      simp only [List.length_nil]
      omega
    · intro other member
      rcases List.mem_cons.mp member with rfl | member
      · exact wellFormed
      · exact others other member
    · rcases fits with empty | fits
      · -- the last record: the check leaves room for its header a second time
        rw [same, empty]
        simp only [segmentPayloadWouldExceedLimit, Bool.or_eq_true, decide_eq_true_eq, not_or] at room
        simp only [List.length_append, List.length_cons, bigEndian_length, List.flatMap_nil, List.length_nil] at room ⊢
        push_cast at room ⊢
        omega
      · exact fits

theorem readFull_eq_ok {n : Nat} {input front rest : Bytes} :
    readFull n input = .ok (front, rest) ↔ input = front ++ rest ∧ front.length = n := by
  unfold readFull
  constructor
  · intro ok
    rw [then_eq_ok, refuse_eq_ok] at ok
    obtain ⟨enough, ok⟩ := ok
    cases ok
    refine ⟨(List.take_append_drop n input).symm, ?_⟩
    rw [List.length_take]
    omega
  · rintro ⟨rfl, rfl⟩
    refine then_eq_ok.mpr ⟨refuse_eq_ok.mpr ?_, ?_⟩
    · rw [List.length_append]
      omega
    · rw [List.take_left' rfl, List.drop_left' rfl]
      rfl

structure BlockRecord.Storable (record : BlockRecord) : Prop where
  height : -2 ^ 63 ≤ record.height ∧ record.height < 2 ^ 63
  hash : record.hash.length ≤ 255
  filled : record.bytes ≠ []
  bounded : (record.bytes.length : Int) ≤ maxRecordPayloadLen

theorem BlockRecord.WellFormed.storable {record : BlockRecord} (wellFormed : record.WellFormed)
    (bounded : record.height < maxInt64) : record.Storable := by
  have positive := wellFormed.height
  unfold maxInt64 at bounded
  refine ⟨⟨by omega, by omega⟩, ?_, wellFormed.filled, wellFormed.bounded⟩
  rw [wellFormed.hash]
  decide

theorem decodeRecord_eq_ok {input rest : Bytes} {record : BlockRecord} :
    decodeRecord input = .ok (record, rest) ↔ record.Storable ∧ input = recordBytes record ++ rest := by
  have layout (record : BlockRecord) (rest : Bytes) : recordBytes record ++ rest = int64Bytes record.height ++
      ([UInt8.ofNat record.hash.length] ++ (record.hash ++ (bigEndian 4 record.bytes.length ++ (record.bytes ++ rest)))) := by
    simp [recordBytes]
  unfold decodeRecord
  constructor
  · intro ok
    -- the reads take the parts off one after the other
    rw [bind_eq_ok] at ok
    obtain ⟨⟨height, afterHeight⟩, read, ok⟩ := ok
    obtain ⟨rfl, eight⟩ := readFull_eq_ok.mp read
    rw [bind_eq_ok] at ok
    obtain ⟨⟨hashLen, afterHashLen⟩, read, ok⟩ := ok
    obtain ⟨rfl, one⟩ := readFull_eq_ok.mp read
    rw [bind_eq_ok] at ok
    obtain ⟨⟨hash, afterHash⟩, read, ok⟩ := ok
    obtain ⟨rfl, hashLength⟩ := readFull_eq_ok.mp read
    rw [bind_eq_ok] at ok
    obtain ⟨⟨payloadLen, afterPayloadLen⟩, read, ok⟩ := ok
    obtain ⟨rfl, four⟩ := readFull_eq_ok.mp read
    rw [then_eq_ok, refuse_eq_ok, bind_eq_ok] at ok
    obtain ⟨accepted, ⟨bytes, afterBytes⟩, read, ok⟩ := ok
    obtain ⟨rfl, payload⟩ := readFull_eq_ok.mp read
    obtain ⟨rfl, rfl⟩ := Prod.mk.inj (Except.ok.inj ok)
    obtain ⟨byte, rfl⟩ := List.length_eq_one_iff.mp one
    have single : fromBigEndian [byte] = byte.toNat := by simp [fromBigEndian]
    rw [single] at hashLength
    have small := byte.toNat_lt
    have bounds := int64Of_bounds height
    constructor
    · constructor <;> dsimp only
      · exact bounds
      · omega
      · intro empty
        rw [empty, List.length_nil] at payload
        exact accepted (.inl payload.symm)
      · omega
    · rw [layout, int64Bytes_int64Of eight, hashLength, UInt8.ofNat_toNat, payload, ← four, bigEndian_fromBigEndian]
  · rintro ⟨⟨⟨low, high⟩, hash, filled, bounded⟩, rfl⟩
    have hashLen : fromBigEndian [UInt8.ofNat record.hash.length] = record.hash.length := by
      simp only [fromBigEndian, UInt8.toNat_ofNat']
      simpa using Nat.mod_eq_of_lt (by omega : record.hash.length < 256)
    have payloadLen : fromBigEndian (bigEndian 4 record.bytes.length) = record.bytes.length := by
      rw [fromBigEndian_bigEndian, Nat.mod_eq_of_lt]
      unfold maxRecordPayloadLen at bounded
      omega
    have accepted : refuse (record.bytes.length = 0 ∨ maxRecordPayloadLen < record.bytes.length ∨
        (record.bytes ++ rest).length < record.bytes.length)
        (.new s!"invalid record payload length {record.bytes.length}" : Err) = .ok () := by
      have positive : record.bytes.length ≠ 0 := fun empty => filled (List.length_eq_zero_iff.mp empty)
      rw [refuse_eq_ok, List.length_append]
      omega
    rw [layout]
    refine bind_eq_ok.mpr ⟨_, readFull_eq_ok.mpr ⟨rfl, by simp [int64Bytes]⟩, ?_⟩
    refine bind_eq_ok.mpr ⟨_, readFull_eq_ok.mpr ⟨rfl, List.length_singleton ..⟩, ?_⟩
    refine bind_eq_ok.mpr ⟨_, readFull_eq_ok.mpr ⟨rfl, hashLen.symm⟩, ?_⟩
    refine bind_eq_ok.mpr ⟨_, readFull_eq_ok.mpr ⟨rfl, bigEndian_length ..⟩, ?_⟩
    simp only [payloadLen, int64Of_int64Bytes record.height low high]
    refine then_eq_ok.mpr ⟨accepted, ?_⟩
    exact bind_eq_ok.mpr ⟨_, readFull_eq_ok.mpr ⟨rfl, rfl⟩, rfl⟩

theorem recordBytes_length {record : BlockRecord} (wellFormed : record.WellFormed) :
    ((recordBytes record).length : Int) = 77 + record.bytes.length := by
  simp only [recordBytes, int64Bytes, List.length_append, List.length_cons, bigEndian_length, wellFormed.hash,
    blockHashHexLen]
  push_cast
  ring

theorem recordBytes_ne_nil (record : BlockRecord) : recordBytes record ≠ [] := by
  simp [recordBytes]

theorem decodeRecordsUpTo_eq_ok {room : Nat} {input : Bytes} {records : List BlockRecord} :
    decodeRecordsUpTo room input = .ok records ↔
      (∀ record ∈ records, record.Storable) ∧ records.length ≤ room ∧ input = records.flatMap recordBytes := by
  -- the decoder reads what the layout writes, and nothing else
  induction room generalizing input records with
  | zero =>
    cases input with
    | nil =>
      cases records with
      | nil => simp [decodeRecordsUpTo]
      | cons record rest => simp [decodeRecordsUpTo]
    | cons byte input =>
      cases records with
      | nil => simp [decodeRecordsUpTo]
      | cons record rest => simp [decodeRecordsUpTo]
  | succ room ih =>
    cases input with
    | nil =>
      cases records with
      | nil => simp [decodeRecordsUpTo]
      | cons record rest => simp [decodeRecordsUpTo, recordBytes_ne_nil]
    | cons byte input =>
      rw [decodeRecordsUpTo, bind_eq_ok]
      constructor
      · rintro ⟨⟨record, after⟩, decoded, ok⟩
        obtain ⟨rest, more, ok⟩ := bind_eq_ok.mp ok
        cases ok
        obtain ⟨storable, same⟩ := decodeRecord_eq_ok.mp decoded
        obtain ⟨others, count, rfl⟩ := ih.mp more
        refine ⟨List.forall_mem_cons.mpr ⟨storable, others⟩, ?_, same⟩
        rw [List.length_cons]
        omega
      · rintro ⟨storable, count, same⟩
        cases records with
        | nil => cases same
        | cons record rest =>
          obtain ⟨here, others⟩ := List.forall_mem_cons.mp storable
          rw [List.length_cons] at count
          refine ⟨(record, rest.flatMap recordBytes), decodeRecord_eq_ok.mpr ⟨here, same⟩, ?_⟩
          exact bind_eq_ok.mpr ⟨rest, ih.mpr ⟨others, by omega, rfl⟩, rfl⟩

end Records

/-- `data` holds the records and `segment` describes it, whatever its key. -/
structure Encodes (records : List BlockRecord) (data : Bytes) (segment : SegmentManifest) : Prop where
  filled : records ≠ []
  count : (records.length : Int) ≤ maxSegmentBlocks
  wellFormed : ∀ record ∈ records, record.WellFormed
  contiguous : Contiguous none records
  payload : ((records.flatMap recordBytes).length : Int) ≤ maxSegmentPayloadBytes
  body : (segment.compression = compressionNone ∧ data = segmentMagic ++ records.flatMap recordBytes) ∨
    (segment.compression = compressionGzip ∧ data = segmentMagic ++ codec.gzip (records.flatMap recordBytes))
  size : segment.sizeBytes = data.length
  sha256 : segment.sha256 = hexEncode (codec.sha256 data)
  first : ∀ record ∈ records.head?, segment.firstHeight = record.height
  last : ∀ record ∈ records.getLast?, segment.lastHeight = record.height
  blocks : segment.blocks.map (fun block => (block.height, block.hash)) =
    records.map fun record => (record.height, record.hash)

theorem zipWith_index (records : List BlockRecord) (offsets : List Int) (length : offsets.length = records.length) :
    (records.zipWith (fun record offset => ({ height := record.height, hash := record.hash, offset } : BlockIndex))
      offsets).map (fun block => (block.height, block.hash)) = records.map fun record => (record.height, record.hash) := by
  induction records generalizing offsets with
  | nil => rfl
  | cons record rest ih =>
    cases offsets with
    | nil => cases length
    | cons offset more =>
      rw [List.zipWith_cons_cons, List.map_cons, List.map_cons, ih more (by simpa using length)]

theorem encodeSegment_spec {records : List BlockRecord} {compression : String} {data : Bytes} {segment : SegmentManifest}
    (ok : encodeSegment codec records compression = .ok (data, segment)) : Encodes codec records data segment := by
  simp only [encodeSegment, then_eq_ok, refuse_eq_ok] at ok
  obtain ⟨known, filled, count, ok⟩ := ok
  obtain ⟨⟨payload, offsets⟩, encoded, ok⟩ := bind_eq_ok.mp ok
  obtain ⟨compressed, compress, ok⟩ := bind_eq_ok.mp ok
  cases ok
  obtain ⟨rfl, length, wellFormed, contiguous, fits⟩ := encodeRecords_spec encoded
  rw [List.nil_append] at compress fits
  refine ⟨filled, by omega, wellFormed, contiguous, fits.resolve_left filled, ?_, rfl, rfl, ?_, ?_, ?_⟩
  · unfold compressPayload at compress
    split at compress
    next none =>
      cases compress
      exact .inl ⟨none, rfl⟩
    next =>
      split at compress
      next gzip =>
        cases compress
        exact .inr ⟨gzip, rfl⟩
      next => cases compress
  · intro record first
    simp [Option.mem_def.mp first]
  · intro record last
    simp [Option.mem_def.mp last]
  · exact zipWith_index records offsets (by simpa using length)

theorem Encodes.with_key {records : List BlockRecord} {data : Bytes} {segment : SegmentManifest}
    (encodes : Encodes codec records data segment) (key : String) : Encodes codec records data { segment with key } :=
  { encodes with }

theorem payload_length {records : List BlockRecord} (wellFormed : ∀ record ∈ records, record.WellFormed) :
    ((records.flatMap recordBytes).length : Int) ≤ records.length * (maxRecordPayloadLen + (8 + 1 + 255 + 4)) := by
  induction records with
  | nil => simp
  | cons record rest ih =>
    have here := recordBytes_length (wellFormed record List.mem_cons_self)
    have bounded := (wellFormed record List.mem_cons_self).bounded
    have later := ih fun other member => wellFormed other (List.mem_cons_of_mem _ member)
    rw [List.flatMap_cons, List.length_append, List.length_cons]
    push_cast
    linarith

theorem payload_le_maxDecompressedFor {records : List BlockRecord} {data : Bytes} {segment : SegmentManifest}
    (encodes : Encodes codec records data segment) :
    ((records.flatMap recordBytes).length : Int) ≤ maxDecompressedFor segment ∧ 0 < maxDecompressedFor segment := by
  have length : segment.blocks.length = records.length := by simpa using congrArg List.length encodes.blocks
  have filled : 0 < records.length := List.length_pos_iff.mpr encodes.filled
  have total := payload_length encodes.wellFormed
  have payload := encodes.payload
  have count := encodes.count
  simp only [maxDecompressedFor, maxDecompressedForBlockCount, maxRecordPayloadLen, maxSegmentPayloadBytes, maxInt64,
    maxSegmentBlocks, length] at *
  split <;> omega

theorem checkRecords_eq_ok {validateRecord : BlockRecord → Except Err Unit} {i : Nat}
    {pairs : List (BlockRecord × BlockIndex)} :
    checkRecords validateRecord i pairs = .ok () ↔
      ∀ pair ∈ pairs, pair.1.height = pair.2.height ∧ pair.1.hash = pair.2.hash ∧ validateRecord pair.1 = .ok () := by
  induction pairs generalizing i with
  | nil => simp [checkRecords]
  | cons pair rest ih =>
    obtain ⟨record, index⟩ := pair
    simp only [checkRecords, then_eq_ok, refuse_eq_ok, ih, List.mem_cons, forall_eq_or_imp, not_not, and_assoc]

theorem zip_index {records : List BlockRecord} {blocks : List BlockIndex}
    (same : blocks.map (fun block => (block.height, block.hash)) = records.map fun record => (record.height, record.hash)) :
    ∀ pair ∈ records.zip blocks, pair.1 ∈ records ∧ pair.1.height = pair.2.height ∧ pair.1.hash = pair.2.hash := by
  induction records generalizing blocks with
  | nil => simp
  | cons record rest ih =>
    cases blocks with
    | nil => simp
    | cons block more =>
      simp only [List.map_cons, List.cons.injEq, Prod.mk.injEq] at same
      intro pair member
      rcases List.mem_cons.mp member with rfl | member
      · exact ⟨List.mem_cons_self, same.1.1.symm, same.1.2.symm⟩
      · obtain ⟨found, equal⟩ := ih same.2 pair member
        exact ⟨List.mem_cons_of_mem _ found, equal⟩

def Codec.Inflates (codec : Codec) : Prop := ∀ payload, codec.gunzip (codec.gzip payload) = .ok (payload, none)

theorem Encodes.decode {records : List BlockRecord} {data : Bytes} {segment : SegmentManifest}
    {validateRecord : BlockRecord → Except Err Unit} (encodes : Encodes codec records data segment)
    (inflates : codec.Inflates) (valid : segment.Valid)
    (accepted : ∀ record ∈ records, validateRecord record = .ok ()) :
    decodeSegmentRecords codec data segment validateRecord = .ok records := by
  obtain ⟨fits, positive⟩ := payload_le_maxDecompressedFor codec encodes
  have length : segment.blocks.length = records.length := by simpa using congrArg List.length encodes.blocks
  have magic : ∀ body, (segmentMagic ++ body).take segmentMagic.length = segmentMagic ∧
      (segmentMagic ++ body).drop segmentMagic.length = body :=
    fun body => ⟨List.take_left' rfl, List.drop_left' rfl⟩
  have opened : data.take segmentMagic.length = segmentMagic ∧
      decompressPayload codec (data.drop segmentMagic.length) segment.compression (maxDecompressedFor segment) =
        .ok (records.flatMap recordBytes) := by
    rcases encodes.body with ⟨compression, rfl⟩ | ⟨compression, rfl⟩
    · refine ⟨(magic _).1, ?_⟩
      rw [(magic _).2, decompressPayload, compression]
      refine then_eq_ok.mpr ⟨refuse_eq_ok.mpr (by omega), ?_⟩
      rw [if_pos rfl]
      exact then_eq_ok.mpr ⟨refuse_eq_ok.mpr (by omega), rfl⟩
    · refine ⟨(magic _).1, ?_⟩
      rw [(magic _).2, decompressPayload, compression]
      refine then_eq_ok.mpr ⟨refuse_eq_ok.mpr (by omega), ?_⟩
      rw [if_neg (by decide), if_pos rfl]
      refine bind_eq_ok.mpr ⟨_, inflates _, ?_⟩
      exact then_eq_ok.mpr ⟨refuse_eq_ok.mpr (by omega), rfl⟩
  have decoded : decodeRecords (records.flatMap recordBytes) = .ok records := by
    refine decodeRecordsUpTo_eq_ok.mpr ⟨?_, ?_, rfl⟩
    · intro record member
      apply (encodes.wellFormed record member).storable
      -- the index has the record's height, and lies below the last height of the segment
      have indexed : (record.height, record.hash) ∈ segment.blocks.map fun block => (block.height, block.hash) := by
        rw [encodes.blocks]
        exact List.mem_map_of_mem member
      obtain ⟨block, found, same⟩ := List.mem_map.mp indexed
      have bounds := valid.blocks.bounds block found
      have height : block.height = record.height := congrArg Prod.fst same
      have last := valid.bounded
      have total := valid.length
      omega
    · have count := encodes.count
      omega
  unfold decodeSegmentRecords
  refine then_eq_ok.mpr ⟨SegmentManifest.validate_eq_ok.mpr valid, ?_⟩
  refine then_eq_ok.mpr ⟨refuse_eq_ok.mpr (by simp [encodes.size]), ?_⟩
  refine then_eq_ok.mpr ⟨refuse_eq_ok.mpr (by simp [encodes.sha256]), ?_⟩
  refine then_eq_ok.mpr ⟨refuse_eq_ok.mpr (by simp [opened.1]), ?_⟩
  refine bind_eq_ok.mpr ⟨_, opened.2, bind_eq_ok.mpr ⟨_, decoded, ?_⟩⟩
  refine then_eq_ok.mpr ⟨refuse_eq_ok.mpr (by simp [length]), ?_⟩
  refine then_eq_ok.mpr ⟨checkRecords_eq_ok.mpr ?_, rfl⟩
  intro pair member
  obtain ⟨found, height, hash⟩ := zip_index encodes.blocks pair member
  exact ⟨height, hash, accepted pair.1 found⟩

structure Decodes (data : Bytes) (segment : SegmentManifest) (records : List BlockRecord) : Prop where
  -- what the decoder has checked of the records it returns
  valid : segment.Valid
  size : (data.length : Int) = segment.sizeBytes
  sha256 : hexEncode (codec.sha256 data) = segment.sha256
  magic : data.take segmentMagic.length = segmentMagic
  index : segment.blocks.map (fun block => (block.height, block.hash)) =
    records.map fun record => (record.height, record.hash)

theorem map_index {records : List BlockRecord} {blocks : List BlockIndex} (length : records.length = blocks.length)
    (same : ∀ pair ∈ records.zip blocks, pair.1.height = pair.2.height ∧ pair.1.hash = pair.2.hash) :
    blocks.map (fun block => (block.height, block.hash)) = records.map fun record => (record.height, record.hash) := by
  induction records generalizing blocks with
  | nil =>
    cases blocks with
    | nil => rfl
    | cons block more => cases length
  | cons record rest ih =>
    cases blocks with
    | nil => cases length
    | cons block more =>
      rw [List.zip_cons_cons, List.forall_mem_cons] at same
      rw [List.map_cons, List.map_cons, ih (by simpa using length) same.2, same.1.1, same.1.2]

theorem decodeSegmentRecords_spec {data : Bytes} {segment : SegmentManifest} {records : List BlockRecord}
    {validateRecord : BlockRecord → Except Err Unit}
    (ok : decodeSegmentRecords codec data segment validateRecord = .ok records) :
    Decodes codec data segment records ∧ ∀ record ∈ records, validateRecord record = .ok () := by
  unfold decodeSegmentRecords at ok
  rw [then_eq_ok, then_eq_ok] at ok
  obtain ⟨valid, size, ok⟩ := ok
  rw [then_eq_ok, then_eq_ok] at ok
  obtain ⟨sha256, magic, ok⟩ := ok
  obtain ⟨payload, -, ok⟩ := bind_eq_ok.mp ok
  obtain ⟨decoded, -, ok⟩ := bind_eq_ok.mp ok
  rw [then_eq_ok, then_eq_ok] at ok
  obtain ⟨length, checked, ok⟩ := ok
  cases ok
  rw [refuse_eq_ok, not_not] at size sha256 magic length
  rw [checkRecords_eq_ok] at checked
  refine ⟨⟨SegmentManifest.validate_eq_ok.mp valid, size, sha256, magic, ?_⟩, ?_⟩
  · exact map_index length fun pair member => ⟨(checked pair member).1, (checked pair member).2.1⟩
  · intro record member
    -- each record has its entry of the index beside it
    obtain ⟨i, inside, rfl⟩ := List.getElem_of_mem member
    have indexed : i < segment.blocks.length := length ▸ inside
    have paired : (records[i], segment.blocks[i]) ∈ records.zip segment.blocks :=
      List.mem_iff_getElem.mpr ⟨i, by simp [inside, indexed], by simp⟩
    exact (checked _ paired).2.2

theorem decodeSegmentRecords_unchecked {data : Bytes} {segment : SegmentManifest} {records : List BlockRecord}
    {validateRecord : BlockRecord → Except Err Unit}
    (ok : decodeSegmentRecords codec data segment validateRecord = .ok records) :
    decodeSegmentRecords codec data segment (fun _ => .ok ()) = .ok records := by
  unfold decodeSegmentRecords at ok ⊢
  rw [then_eq_ok, then_eq_ok, then_eq_ok, then_eq_ok] at ok ⊢
  obtain ⟨valid, size, sha256, magic, ok⟩ := ok
  obtain ⟨payload, opened, ok⟩ := bind_eq_ok.mp ok
  obtain ⟨decoded, parsed, ok⟩ := bind_eq_ok.mp ok
  rw [then_eq_ok, then_eq_ok, checkRecords_eq_ok] at ok
  obtain ⟨length, checked, same⟩ := ok
  refine ⟨valid, size, sha256, magic, bind_eq_ok.mpr ⟨payload, opened, bind_eq_ok.mpr ⟨decoded, parsed, ?_⟩⟩⟩
  rw [then_eq_ok, then_eq_ok, checkRecords_eq_ok]
  refine ⟨length, ?_, same⟩
  intro pair member
  obtain ⟨height, hash, -⟩ := checked pair member
  exact ⟨height, hash, rfl⟩

section RoundTrip

def Codec.Digests (codec : Codec) : Prop := ∀ data, (codec.sha256 data).length = 32

def Heights (records : List BlockRecord) : Prop := ∀ record ∈ records, record.height ≤ maxInt64

theorem Contiguous.indexed {previous : Option Int} {records : List BlockRecord} {blocks : List BlockIndex} {first : Int}
    (contiguous : Contiguous previous records) (starts : ∀ record ∈ records.head?, record.height = first)
    (wellFormed : ∀ record ∈ records, record.WellFormed) (heights : Heights records)
    (same : blocks.map (fun block => (block.height, block.hash)) = records.map fun record => (record.height, record.hash)) :
    Indexed first blocks ∧ ∀ record ∈ records.getLast?, record.height = first + records.length - 1 := by
  induction records generalizing previous blocks first with
  | nil =>
    rw [List.map_nil, List.map_eq_nil_iff] at same
    subst same
    exact ⟨trivial, by simp⟩
  | cons record rest ih =>
    cases blocks with
    | nil => cases same
    | cons block more =>
      simp only [List.map_cons, List.cons.injEq, Prod.mk.injEq] at same
      have here : record.height = first := starts record rfl
      have formed := wellFormed record List.mem_cons_self
      have high := heights record List.mem_cons_self
      have next : ∀ other ∈ rest.head?, other.height = first + 1 := by
        intro other second
        have member : other ∈ rest := List.mem_of_head? second
        have positive := (wellFormed other (List.mem_cons_of_mem _ member)).height
        have follows : other.height = wrap64 (record.height + 1) := by
          cases rest with
          | nil => cases second
          | cons following more =>
            cases second
            exact contiguous.2.1 record.height rfl
        -- after the largest height the sum is negative
        have low := formed.height
        unfold maxInt64 at high
        unfold wrap64 at follows
        rw [Int.bmod_def] at follows
        norm_num at follows
        split at follows <;> omega
      obtain ⟨indexed, last⟩ := ih contiguous.2 next (fun other member => wellFormed other (List.mem_cons_of_mem _ member))
        (fun other member => heights other (List.mem_cons_of_mem _ member)) same.2
      refine ⟨⟨same.1.1.trans here, ?_, ?_, indexed⟩, ?_⟩
      · rw [same.1.2]
        exact formed.hash
      · rw [same.1.2]
        exact formed.hex
      · intro other ends
        rw [List.length_cons]
        push_cast
        cases rest with
        | nil =>
          cases ends
          simpa using here
        | cons following more =>
          rw [List.getLast?_cons_cons] at ends
          rw [last other ends]
          ring

theorem Encodes.valid {records : List BlockRecord} {data : Bytes} {segment : SegmentManifest}
    (encodes : Encodes codec records data segment) (digests : codec.Digests) (heights : Heights records)
    (last : segment.lastHeight < maxInt64) (named : validateObjectKey segment.key = .ok ()) : segment.Valid := by
  obtain ⟨record, isFirst⟩ : ∃ record, records.head? = some record := ⟨_, List.head?_eq_some_head encodes.filled⟩
  obtain ⟨final, isLast⟩ : ∃ final, records.getLast? = some final := ⟨_, List.getLast?_eq_some_getLast encodes.filled⟩
  have first : segment.firstHeight = record.height := encodes.first record isFirst
  have lastHeight : segment.lastHeight = final.height := encodes.last final isLast
  have positive := (encodes.wellFormed record (List.mem_of_head? isFirst)).height
  have starts : ∀ other ∈ records.head?, other.height = segment.firstHeight := by
    intro other same
    exact (encodes.first other same).symm
  obtain ⟨indexed, ends⟩ := encodes.contiguous.indexed starts encodes.wellFormed heights encodes.blocks
  have stop := ends final isLast
  have count := encodes.count
  have filled : 0 < records.length := List.length_pos_iff.mpr encodes.filled
  have length : segment.blocks.length = records.length := by simpa using congrArg List.length encodes.blocks
  refine ⟨named, by omega, by omega, last, ?_, ?_, ⟨?_, ?_⟩, by omega, by omega, indexed⟩
  · exact encodes.body.imp And.left And.left
  · have size := encodes.size
    rcases encodes.body with ⟨-, rfl⟩ | ⟨-, rfl⟩ <;>
    · simp only [List.length_append, segmentMagic, List.length_cons] at size
      omega
  · rw [encodes.sha256, hexEncode_length, digests]
    rfl
  · rw [encodes.sha256]
    exact isHex_hexEncode _

theorem validateDecodedBlockRecord_eq_ok {comet : Comet V} {record : BlockRecord} :
    validateDecodedBlockRecord comet record = .ok () ↔ ∃ block, recordToBlock comet record = .ok block := by
  unfold validateDecodedBlockRecord
  rw [bind_eq_ok]
  exact ⟨fun ⟨block, found, _⟩ => ⟨block, found⟩, fun ⟨block, found⟩ => ⟨block, found, rfl⟩⟩

/-- The descriptor of an encoded segment is valid under any key and decodes the data to the records, within
all limits; with the blocks checked it does so exactly if every record holds its block. -/
theorem segment_round_trip (comet : Comet V) {records : List BlockRecord} {compression key : String} {data : Bytes}
    {segment : SegmentManifest} (inflates : codec.Inflates) (digests : codec.Digests) (heights : Heights records)
    (encoded : encodeSegment codec records compression = .ok (data, segment))
    (bounded : ∀ record ∈ records.getLast?, record.height < maxInt64) (named : validateObjectKey key = .ok ()) :
    { segment with key }.validate = .ok () ∧
      decodeSegmentRecords codec data { segment with key } (fun _ => .ok ()) = .ok records ∧
      (decodeSegment codec comet data { segment with key } = .ok records ↔
        ∀ record ∈ records, ∃ block, recordToBlock comet record = .ok block) ∧
      (records.length : Int) ≤ maxSegmentBlocks ∧
      (∀ record ∈ records, (record.bytes.length : Int) ≤ maxRecordPayloadLen) ∧
      ((records.flatMap recordBytes).length : Int) ≤ maxDecompressedFor { segment with key } := by
  have encodes := Encodes.with_key codec (encodeSegment_spec codec encoded) key
  have last : segment.lastHeight < maxInt64 := by
    obtain ⟨final, isLast⟩ : ∃ final, records.getLast? = some final := ⟨_, List.getLast?_eq_some_getLast encodes.filled⟩
    have height : segment.lastHeight = final.height := encodes.last final isLast
    rw [height]
    exact bounded final isLast
  have valid := Encodes.valid codec encodes digests heights last named
  refine ⟨SegmentManifest.validate_eq_ok.mpr valid, ?_, ?_, encodes.count, ?_, ?_⟩
  · exact Encodes.decode codec encodes inflates valid fun _ _ => rfl
  · constructor
    · intro decoded record member
      exact validateDecodedBlockRecord_eq_ok.mp ((decodeSegmentRecords_spec codec decoded).2 record member)
    · intro readable
      apply Encodes.decode codec encodes inflates valid
      exact fun record member => validateDecodedBlockRecord_eq_ok.mpr (readable record member)
  · exact fun record member => (encodes.wellFormed record member).bounded
  · exact (payload_le_maxDecompressedFor codec encodes).1

def Codec.plain : Codec where
  sha256 _ := List.replicate 32 0
  md5 _ := List.replicate 16 0
  gzip data := data
  gunzip data := .ok (data, none)

theorem segment_round_trip_plain :
    let record : BlockRecord := { height := 1, hash := hexEncode (List.replicate 32 7), bytes := [7] }
    ∃ data segment, encodeSegment Codec.plain [record] "" = .ok (data, segment) ∧
      decodeSegmentRecords Codec.plain data { segment with key := "k" } (fun _ => .ok ()) = .ok [record] := by
  intro record
  have accepted : (encodeSegment Codec.plain [record] "").isOk = true := by decide +kernel
  cases encoded : encodeSegment Codec.plain [record] "" with
  | error err =>
    rw [encoded] at accepted
    cases accepted
  | ok result =>
    obtain ⟨data, segment⟩ := result
    refine ⟨data, segment, rfl, ?_⟩
    have heights : Heights [record] := by
      intro other member
      cases List.mem_singleton.mp member
      decide
    exact (segment_round_trip Codec.plain Comet.plain (fun _ => rfl) (fun _ => rfl) heights encoded (by decide)
      (by decide +kernel)).2.1

end RoundTrip

end CometArchive.Archive
