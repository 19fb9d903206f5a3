import CometArchive.Archive.Segment

set_option autoImplicit false

namespace CometArchive.Archive

open GoBytes GoError

variable {V : Type} {codec : Codec} {data : Bytes} {segment : SegmentManifest} {records : List BlockRecord}
  {validateRecord : BlockRecord → Except Err Unit}

def RecordText (text : Bytes) : Prop :=
  -- the bytes of a record: a height, the length of a hash and the hash, the length of a payload and the payload
  ∃ (height hash payloadLen payload : Bytes) (hashLen : UInt8),
    text = height ++ hashLen :: (hash ++ (payloadLen ++ payload)) ∧ height.length = 8 ∧ hash.length = hashLen.toNat ∧
    payloadLen.length = 4 ∧ payload.length = fromBigEndian payloadLen ∧ 1 ≤ payload.length ∧
    (payload.length : Int) ≤ maxRecordPayloadLen

theorem recordText_iff {text : Bytes} : RecordText text ↔ ∃ record : BlockRecord, record.Storable ∧ recordBytes record = text := by
  constructor
  · rintro ⟨height, hash, payloadLen, payload, hashLen, rfl, eight, hashLength, four, length, filled, bounded⟩
    have bounds := int64Of_bounds height
    have small := hashLen.toNat_lt
    refine ⟨{ height := int64Of height, hash, bytes := payload }, ?_, ?_⟩
    · constructor <;> dsimp only
      · exact bounds
      · omega
      · exact List.ne_nil_of_length_pos filled
      · exact bounded
    · have back := bigEndian_fromBigEndian payloadLen
      rw [four, ← length] at back
      simp only [recordBytes, int64Bytes_int64Of eight, hashLength, UInt8.ofNat_toNat, back, List.append_assoc,
        List.cons_append]
  · rintro ⟨record, storable, rfl⟩
    have hash := storable.hash
    have payload := storable.bounded
    refine ⟨int64Bytes record.height, record.hash, bigEndian 4 record.bytes.length, record.bytes,
      UInt8.ofNat record.hash.length, ?_, ?_, ?_, ?_, ?_, ?_, payload⟩
    · simp [recordBytes]
    · simp [int64Bytes]
    · rw [UInt8.toNat_ofNat', Nat.mod_eq_of_lt (by omega)]
    · simp
    · unfold maxRecordPayloadLen at payload
      rw [fromBigEndian_bigEndian, Nat.mod_eq_of_lt (by omega)]
    · exact List.length_pos_iff.mpr storable.filled

theorem decodeSegmentRecords_plain (plain : segment.compression = compressionNone)
    (ok : decodeSegmentRecords codec data segment validateRecord = .ok records) :
    data = segmentMagic ++ records.flatMap recordBytes ∧ (∀ record ∈ records, record.Storable) ∧
      ((records.flatMap recordBytes).length : Int) ≤ maxDecompressedFor segment := by
  unfold decodeSegmentRecords at ok
  rw [then_eq_ok, then_eq_ok, then_eq_ok, then_eq_ok] at ok
  obtain ⟨-, -, -, magic, ok⟩ := ok
  rw [refuse_eq_ok, not_not] at magic
  obtain ⟨payload, opened, ok⟩ := bind_eq_ok.mp ok
  obtain ⟨decoded, parsed, ok⟩ := bind_eq_ok.mp ok
  rw [then_eq_ok, then_eq_ok] at ok
  obtain ⟨-, -, ok⟩ := ok
  cases ok
  rw [decompressPayload, plain, if_pos rfl, then_eq_ok, then_eq_ok] at opened
  obtain ⟨-, fits, opened⟩ := opened
  rw [refuse_eq_ok] at fits
  cases opened
  obtain ⟨storable, -, same⟩ := decodeRecordsUpTo_eq_ok.mp parsed
  refine ⟨?_, storable, ?_⟩
  · have split := List.take_append_drop segmentMagic.length data
    rw [magic, same] at split
    exact split.symm
  · rw [← same]
    omega

/-- The decoder accepts the concatenations of at most 1000 records, and different payloads have different records. -/
theorem decodeRecords_canonical (codec : Codec) :
    (∀ payload, (∃ records, decodeRecords payload = .ok records) ↔
      ∃ texts : List Bytes, (texts.length : Int) ≤ maxSegmentBlocks ∧ (∀ text ∈ texts, RecordText text) ∧
        payload = texts.flatten) ∧
    (∀ payload records, decodeRecords payload = .ok records → records.flatMap recordBytes = payload) ∧
    (∀ records written offsets, encodeRecords none [] [] records = .ok (written, offsets) →
      written = records.flatMap recordBytes) ∧
    ∀ left right leftSegment rightSegment leftCheck rightCheck records,
      leftSegment.compression = compressionNone → rightSegment.compression = compressionNone →
      decodeSegmentRecords codec left leftSegment leftCheck = .ok records →
      decodeSegmentRecords codec right rightSegment rightCheck = .ok records → left = right := by
  refine ⟨?_, ?_, ?_, ?_⟩
  · intro payload
    constructor
    · rintro ⟨records, ok⟩
      obtain ⟨storable, count, rfl⟩ := decodeRecordsUpTo_eq_ok.mp ok
      refine ⟨records.map recordBytes, ?_, ?_, List.flatMap_def⟩
      · rw [List.length_map]
        unfold maxSegmentBlocks at count ⊢
        omega
      · intro text member
        obtain ⟨record, listed, rfl⟩ := List.mem_map.mp member
        exact recordText_iff.mpr ⟨record, storable record listed, rfl⟩
    · rintro ⟨texts, count, each, rfl⟩
      -- one record for each text
      obtain ⟨records, storable, rfl⟩ : ∃ records : List BlockRecord, (∀ record ∈ records, record.Storable) ∧
          records.map recordBytes = texts := by
        induction texts with
        | nil => exact ⟨[], by simp, rfl⟩
        | cons text rest ih =>
          obtain ⟨here, others⟩ := List.forall_mem_cons.mp each
          obtain ⟨record, storable, rfl⟩ := recordText_iff.mp here
          obtain ⟨records, stored, rfl⟩ := ih (by rw [List.length_cons] at count; omega) others
          exact ⟨record :: records, List.forall_mem_cons.mpr ⟨storable, stored⟩, rfl⟩
      refine ⟨records, decodeRecordsUpTo_eq_ok.mpr ⟨storable, ?_, List.flatMap_def.symm⟩⟩
      rw [List.length_map] at count
      unfold maxSegmentBlocks at count ⊢
      omega
  · intro payload records ok
    obtain ⟨-, -, rfl⟩ := decodeRecordsUpTo_eq_ok.mp ok
    rfl
  · intro records written offsets ok
    exact (encodeRecords_spec ok).1
  · intro left right leftSegment rightSegment leftCheck rightCheck records leftPlain rightPlain leftOk rightOk
    rw [(decodeSegmentRecords_plain leftPlain leftOk).1, (decodeSegmentRecords_plain rightPlain rightOk).1]

def smallRecord : BlockRecord := { height := 1, hash := hexEncode (List.replicate 32 7), bytes := [7] }

theorem decodeRecords_canonical_small :
    decodeRecords (recordBytes smallRecord) = .ok [smallRecord] ∧ [smallRecord].flatMap recordBytes = recordBytes smallRecord := by
  have decoded : decodeRecords (recordBytes smallRecord) = .ok [smallRecord] := by decide +kernel
  exact ⟨decoded, (decodeRecords_canonical Codec.plain).2.1 _ _ decoded⟩

section Limit

structure Encodable (records : List BlockRecord) : Prop where
  filled : records ≠ []
  count : (records.length : Int) ≤ maxSegmentBlocks
  consecutive : records.IsChain fun a b => b.height = a.height + 1
  heights : Heights records
  wellFormed : ∀ record ∈ records, record.WellFormed

def encodedSize (records : List BlockRecord) : Int :=
  (records.map fun record => (8 + 1 + 64 + 4 + record.bytes.length : Int)).sum

theorem encodedSize_eq (wellFormed : ∀ record ∈ records, record.WellFormed) :
    encodedSize records = (records.flatMap recordBytes).length := by
  induction records with
  | nil => rfl
  | cons record rest ih =>
    obtain ⟨here, others⟩ := List.forall_mem_cons.mp wellFormed
    have length := recordBytes_length here
    have later := ih others
    have step : encodedSize (record :: rest) = 77 + record.bytes.length + encodedSize rest := by
      simp [encodedSize]
    rw [step, later, List.flatMap_cons, List.length_append]
    push_cast
    omega

theorem Encodable.contiguous {previous : Option Int} (consecutive : records.IsChain fun a b => b.height = a.height + 1)
    (heights : Heights records) (wellFormed : ∀ record ∈ records, record.WellFormed)
    (first : ∀ record ∈ records.head?, ∀ height ∈ previous, record.height = wrap64 (height + 1)) :
    Contiguous previous records := by
  induction records generalizing previous with
  | nil => trivial
  | cons record rest ih =>
    obtain ⟨here, others⟩ := List.forall_mem_cons.mp wellFormed
    refine ⟨first record rfl, ih consecutive.tail (fun other member => heights other (List.mem_cons_of_mem _ member)) others ?_⟩
    intro other second height same
    cases same
    have positive := here.height
    have member : other ∈ rest := List.mem_of_head? second
    have bounded := heights other (List.mem_cons_of_mem _ member)
    have follows : other.height = record.height + 1 := by
      cases rest with
      | nil => cases second
      | cons next more =>
        cases second
        exact (List.isChain_cons_cons.mp consecutive).1
    unfold maxInt64 at bounded
    rw [wrap64_of_bounds _ (by omega) (by omega)]
    exact follows

/-- The check counts the header of the record a second time, so 73 bytes of the limit are never used. -/
theorem encodeRecords_eq_ok {previous : Option Int} {payload : Bytes} {offsets : List Int} :
    (∃ result, encodeRecords previous payload offsets records = .ok result) ↔
      (∀ record ∈ records, record.WellFormed) ∧ Contiguous previous records ∧
        (records = [] ∨ payload.length + (records.flatMap recordBytes).length + 73 ≤ maxSegmentPayloadBytes) := by
  induction records generalizing previous payload offsets with
  | nil => simp [encodeRecords, Contiguous]
  | cons record rest ih =>
    simp only [encodeRecords, then_eq_ok, refuse_eq_ok, checkRecord_eq_ok, exists_and_left, ih, List.forall_mem_cons,
      reduceCtorEq, false_or]
    have room (formed : record.WellFormed) : ¬ (segmentPayloadWouldExceedLimit
          (payload ++ (int64Bytes record.height ++ UInt8.ofNat record.hash.length :: record.hash)).length
          record.hash.length record.bytes.length maxSegmentPayloadBytes = true) ↔
        payload.length + (recordBytes record).length + 73 ≤ maxSegmentPayloadBytes := by
      have length := recordBytes_length formed
      have hash := formed.hash
      unfold blockHashHexLen at hash
      have header : ((payload ++ (int64Bytes record.height ++ UInt8.ofNat record.hash.length :: record.hash)).length : Int) =
          payload.length + 73 := by
        simp only [List.length_append, List.length_cons, int64Bytes, bigEndian_length, hash]
        push_cast
        ring
      rw [header, hash]
      unfold segmentPayloadWouldExceedLimit maxSegmentPayloadBytes
      simp only [Bool.or_eq_true, decide_eq_true_eq]
      omega
    have grown : (payload ++ (int64Bytes record.height ++ UInt8.ofNat record.hash.length :: record.hash) ++
        (bigEndian 4 record.bytes.length ++ record.bytes)).length = payload.length + (recordBytes record).length := by
      simp only [recordBytes, List.length_append]
      omega
    have total : ((record :: rest).flatMap recordBytes).length =
        (recordBytes record).length + (rest.flatMap recordBytes).length := by
      rw [List.flatMap_cons, List.length_append]
    rw [grown, total]
    constructor
    · rintro ⟨⟨formed, next⟩, fits, others, contiguous, more⟩
      rw [room formed] at fits
      refine ⟨⟨formed, others⟩, ⟨next, contiguous⟩, ?_⟩
      rcases more with rfl | more
      · rw [List.flatMap_nil, List.length_nil]
        push_cast
        omega
      · push_cast at more ⊢
        omega
    · rintro ⟨⟨formed, others⟩, ⟨next, contiguous⟩, fits⟩
      push_cast at fits
      refine ⟨⟨formed, next⟩, ?_, others, contiguous, .inr (by push_cast; omega)⟩
      rw [room formed]
      omega

theorem validateCompression_orDefault {compression : String} (known : validateCompression compression = .ok ()) :
    orDefaultCompression compression = compressionNone ∨ orDefaultCompression compression = compressionGzip := by
  unfold orDefaultCompression
  split
  next => exact .inr rfl
  next chosen => exact (validateCompression_eq_ok chosen).mp known

theorem encodeSegment_eq_ok {compression : String} (encodable : Encodable records)
    (known : validateCompression compression = .ok ()) :
    (∃ result, encodeSegment codec records compression = .ok result) ↔
      encodedSize records + 73 ≤ maxSegmentPayloadBytes := by
  have chosen := validateCompression_orDefault known
  have accepted : validateCompression (orDefaultCompression compression) = .ok () := by
    rcases chosen with same | same <;> rw [same] <;> decide
  have contiguous : Contiguous none records :=
    Encodable.contiguous encodable.consecutive encodable.heights encodable.wellFormed (by simp)
  have loop : (∃ result, encodeRecords none [] [] records = .ok result) ↔ _ := encodeRecords_eq_ok
  rw [List.length_nil] at loop
  have size := encodedSize_eq encodable.wellFormed
  have count := encodable.count
  constructor
  · rintro ⟨result, ok⟩
    simp only [encodeSegment, then_eq_ok] at ok
    obtain ⟨-, -, -, ok⟩ := ok
    obtain ⟨encoded, written, -⟩ := bind_eq_ok.mp ok
    obtain ⟨-, -, fits⟩ := loop.mp ⟨encoded, written⟩
    have fits := fits.resolve_left encodable.filled
    omega
  · intro fits
    obtain ⟨⟨payload, offsets⟩, written⟩ := loop.mpr ⟨encodable.wellFormed, contiguous, .inr (by omega)⟩
    obtain ⟨compressed, compress⟩ : ∃ compressed, compressPayload codec payload (orDefaultCompression compression) =
        .ok compressed := by
      rcases chosen with same | same
      · exact ⟨payload, by rw [same]; rfl⟩
      · exact ⟨codec.gzip payload, by rw [same]; rfl⟩
    simp only [encodeSegment, then_eq_ok, refuse_eq_ok]
    refine ⟨_, accepted, encodable.filled, by omega, bind_eq_ok.mpr ⟨_, written, bind_eq_ok.mpr ⟨_, compress, rfl⟩⟩⟩

theorem Indexed.consecutive {first : Int} {blocks : List BlockIndex} (indexed : Indexed first blocks)
    (same : blocks.map (fun block => (block.height, block.hash)) = records.map fun record => (record.height, record.hash)) :
    records.IsChain (fun a b => b.height = a.height + 1) ∧ ∀ record ∈ records.head?, record.height = first := by
  induction records generalizing first blocks with
  | nil => exact ⟨.nil, by simp⟩
  | cons record rest ih =>
    cases blocks with
    | nil => cases same
    | cons block more =>
      simp only [List.map_cons, List.cons.injEq, Prod.mk.injEq] at same
      obtain ⟨height, -, -, later⟩ := indexed
      obtain ⟨chain, starts⟩ := ih later same.2
      constructor
      · cases rest with
        | nil => exact .singleton record
        | cons next others =>
          refine .cons_cons ?_ chain
          rw [starts next rfl, ← same.1.1, height]
      · intro other here
        cases here
        rw [← same.1.1, height]

theorem Indexed.hashes {first : Int} {blocks : List BlockIndex} (indexed : Indexed first blocks) :
    ∀ block ∈ blocks, block.hash.length = blockHashHexLen ∧ isHex block.hash = true := by
  induction blocks generalizing first with
  | nil => simp
  | cons head rest ih =>
    obtain ⟨-, length, hex, later⟩ := indexed
    exact List.forall_mem_cons.mpr ⟨⟨length, hex⟩, ih later⟩

theorem decodeSegmentRecords_encodable (plain : segment.compression = compressionNone)
    (ok : decodeSegmentRecords codec data segment validateRecord = .ok records) : Encodable records := by
  obtain ⟨-, storable, -⟩ := decodeSegmentRecords_plain plain ok
  obtain ⟨decodes, -⟩ := decodeSegmentRecords_spec codec ok
  have valid := decodes.valid
  have length : segment.blocks.length = records.length := by simpa using congrArg List.length decodes.index
  have total := valid.length
  have ordered := valid.last
  have count := valid.count
  have entry {record : BlockRecord} (member : record ∈ records) :
      ∃ block ∈ segment.blocks, block.height = record.height ∧ block.hash = record.hash := by
    have listed : (record.height, record.hash) ∈ segment.blocks.map fun block => (block.height, block.hash) := by
      rw [decodes.index]
      exact List.mem_map_of_mem member
    obtain ⟨block, found, same⟩ := List.mem_map.mp listed
    exact ⟨block, found, Prod.mk.inj same⟩
  refine ⟨?_, by omega, (valid.blocks.consecutive decodes.index).1, ?_, ?_⟩
  · intro empty
    rw [empty, List.length_nil] at length
    omega
  · intro record member
    obtain ⟨block, found, height, -⟩ := entry member
    have bounds := valid.blocks.bounds block found
    have bounded := valid.bounded
    omega
  · intro record member
    obtain ⟨block, found, height, hash⟩ := entry member
    have bounds := valid.blocks.bounds block found
    have first := valid.first
    obtain ⟨hashLength, hex⟩ := valid.blocks.hashes block found
    refine ⟨by omega, ?_, ?_, (storable record member).filled, (storable record member).bounded⟩
    · rw [← hash]
      exact hashLength
    · rw [← hash]
      exact hex

/-- The limit is exact but for the 73 bytes below it; what the decoder accepts lies within the limit. -/
theorem encode_limit_exact_iff (codec : Codec) :
    (∀ data segment validateRecord records, segment.compression = compressionNone →
      decodeSegmentRecords codec data segment validateRecord = .ok records → Encodable records) ∧
    ∀ records compression, Encodable records → validateCompression compression = .ok () →
      ((((∃ result, encodeSegment codec records compression = .ok result) ↔
          encodedSize records ≤ maxSegmentPayloadBytes) ∧
        ∀ data segment validateRecord, segment.compression = compressionNone →
          decodeSegmentRecords codec data segment validateRecord = .ok records →
          ∃ result, encodeSegment codec records compressionNone = .ok result) ↔
      (encodedSize records + 73 ≤ maxSegmentPayloadBytes ∨ maxSegmentPayloadBytes < encodedSize records)) := by
  refine ⟨fun _ _ _ _ => decodeSegmentRecords_encodable, ?_⟩
  intro records compression encodable known
  rw [encodeSegment_eq_ok encodable known]
  constructor
  · rintro ⟨exact, -⟩
    by_cases within : encodedSize records ≤ maxSegmentPayloadBytes
    · exact .inl (exact.mpr within)
    · exact .inr (by omega)
  · intro apart
    refine ⟨by omega, ?_⟩
    intro data segment validateRecord plain ok
    rw [encodeSegment_eq_ok encodable (by decide)]
    -- the decoder has compared the payload with the same limit
    obtain ⟨-, -, fits⟩ := decodeSegmentRecords_plain plain ok
    have capped : maxDecompressedFor segment ≤ maxSegmentPayloadBytes := min_le_right _ _
    have size := encodedSize_eq encodable.wellFormed
    omega

theorem smallRecord_encodable : Encodable [smallRecord] where
  filled := by simp
  count := by decide
  consecutive := .singleton _
  heights := by
    intro record member
    cases List.mem_singleton.mp member
    decide
  wellFormed := by
    intro record member
    cases List.mem_singleton.mp member
    exact ⟨by decide, by decide, by decide +kernel, by decide, by decide⟩

theorem encode_limit_exact_small :
    (∃ result, encodeSegment Codec.plain [smallRecord] "" = .ok result) ↔
      encodedSize [smallRecord] ≤ maxSegmentPayloadBytes :=
  (((encode_limit_exact_iff Codec.plain).2 [smallRecord] "" smallRecord_encodable (by decide)).mpr (.inl (by decide))).1

def blankRecord (height : Int) (size : Nat) : BlockRecord where
  height := height
  hash := hexEncode (List.replicate 32 0)
  bytes := List.replicate size 0

theorem blankRecord_length (height : Int) (size : Nat) : (blankRecord height size).bytes.length = size :=
  List.length_replicate

theorem blankRecord_wellFormed {height : Int} {size : Nat} (positive : 0 < height) (filled : 0 < size)
    (bounded : (size : Int) ≤ maxRecordPayloadLen) : (blankRecord height size).WellFormed where
  height := positive
  hash := by simp [blankRecord, blockHashHexLen]
  hex := isHex_hexEncode _
  filled := by
    apply List.ne_nil_of_length_pos
    rwa [blankRecord_length]
  bounded := by rwa [blankRecord_length]

def fullRecords : List BlockRecord :=
  -- four blocks that take up the whole limit
  [blankRecord 1 (2 ^ 28), blankRecord 2 (2 ^ 28), blankRecord 3 (2 ^ 28), blankRecord 4 (2 ^ 28 - 308)]

theorem encodedSize_fullRecords : encodedSize fullRecords = maxSegmentPayloadBytes := by
  simp only [encodedSize, fullRecords, List.map_cons, List.map_nil, blankRecord_length]
  decide

theorem fullRecords_encodable : Encodable fullRecords where
  filled := List.cons_ne_nil _ _
  count := by
    simp only [fullRecords, List.length_cons, List.length_nil]
    decide
  consecutive := .cons_cons rfl (.cons_cons rfl (.cons_cons rfl (.singleton _)))
  heights := by
    intro record member
    simp only [fullRecords, List.mem_cons, List.not_mem_nil, or_false] at member
    rcases member with rfl | rfl | rfl | rfl <;> decide
  wellFormed := by
    intro record member
    simp only [fullRecords, List.mem_cons, List.not_mem_nil, or_false] at member
    rcases member with rfl | rfl | rfl | rfl <;>
      exact blankRecord_wellFormed (by decide) (by decide) (by decide)

theorem encode_limit_refuses_full :
    Encodable fullRecords ∧ encodedSize fullRecords ≤ maxSegmentPayloadBytes ∧
      ¬ ∃ result, encodeSegment Codec.plain fullRecords compressionNone = .ok result := by
  refine ⟨fullRecords_encodable, encodedSize_fullRecords.le, ?_⟩
  rw [encodeSegment_eq_ok fullRecords_encodable (by decide), encodedSize_fullRecords]
  decide

end Limit

end CometArchive.Archive
