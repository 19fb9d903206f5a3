import CometArchive.Archive.SegmentBlock

set_option autoImplicit false

namespace CometArchive.Archive

open GoBytes GoError

variable {V : Type} {codec : Codec} {comet : Comet V} {data : Bytes} {segment : SegmentManifest}
  {records : List BlockRecord}

section Offsets

def recordOffsets : Int → List BlockRecord → List Int
  | _, [] => []
  | start, record :: rest => start :: recordOffsets (start + (recordBytes record).length) rest

theorem encodeRecords_offsets {previous : Option Int} {payload out : Bytes} {offsets outOffsets : List Int}
    (ok : encodeRecords previous payload offsets records = .ok (out, outOffsets)) :
    outOffsets = offsets ++ recordOffsets payload.length records := by
  induction records generalizing previous payload offsets with
  | nil =>
    cases ok
    exact (List.append_nil _).symm
  | cons record rest ih =>
    simp only [encodeRecords, then_eq_ok] at ok
    obtain ⟨-, -, ok⟩ := ok
    have grown : (payload ++ (int64Bytes record.height ++ UInt8.ofNat record.hash.length :: record.hash) ++
        (bigEndian 4 record.bytes.length ++ record.bytes)).length = payload.length + (recordBytes record).length := by
      simp only [recordBytes, List.length_append]
      omega
    rw [ih ok, grown, recordOffsets, List.append_assoc]
    push_cast
    rfl

theorem recordOffsets_getElem {start : Int} {i : Nat} {record : BlockRecord} (found : records[i]? = some record) :
    (recordOffsets start records)[i]? = some (start + ((records.take i).flatMap recordBytes).length) := by
  induction records generalizing start i with
  | nil => cases found
  | cons head rest ih =>
    cases i with
    | zero => simp [recordOffsets]
    | succ i =>
      rw [recordOffsets, List.getElem?_cons_succ, ih (by simpa using found), List.take_succ_cons, List.flatMap_cons,
        List.length_append]
      push_cast
      rw [add_assoc]

theorem drop_flatMap {i : Nat} {record : BlockRecord} (found : records[i]? = some record) :
    (records.flatMap recordBytes).drop ((records.take i).flatMap recordBytes).length =
      recordBytes record ++ (records.drop (i + 1)).flatMap recordBytes := by
  obtain ⟨inside, rfl⟩ := List.getElem?_eq_some_iff.mp found
  have split : records = records.take i ++ records[i] :: records.drop (i + 1) := by
    rw [← List.drop_eq_getElem_cons inside, List.take_append_drop]
  calc (records.flatMap recordBytes).drop ((records.take i).flatMap recordBytes).length
      = ((records.take i).flatMap recordBytes ++ (records[i] :: records.drop (i + 1)).flatMap recordBytes).drop
          ((records.take i).flatMap recordBytes).length := by rw [← List.flatMap_append, ← split]
    _ = recordBytes records[i] ++ (records.drop (i + 1)).flatMap recordBytes := by
        rw [List.drop_left' rfl, List.flatMap_cons]

end Offsets

section Stream

theorem bind_of_ok {ε α β : Type} {result : Except ε α} {f : α → Except ε β} {value : α} (ok : result = .ok value) :
    (result >>= f) = f value := by
  rw [ok]
  rfl

theorem readStream_of_readFull {n : Nat} {input : Bytes} {parts : Bytes × Bytes} (ending : Option Err)
    (ok : readFull n input = .ok parts) : readStream ending n input = .ok parts := by
  rw [readStream, ok]

theorem decodeOneRecord_of_decodeRecord {input rest : Bytes} {record : BlockRecord} (ending : Option Err)
    (ok : decodeRecord input = .ok (record, rest)) : decodeOneRecord ending input = .ok record := by
  -- the reader of one record agrees with the loop of `decodeRecords`
  unfold decodeRecord at ok
  unfold decodeOneRecord
  obtain ⟨height, read, ok⟩ := bind_eq_ok.mp ok
  refine bind_eq_ok.mpr ⟨height, readStream_of_readFull ending read, ?_⟩
  obtain ⟨hashLen, read, ok⟩ := bind_eq_ok.mp ok
  refine bind_eq_ok.mpr ⟨hashLen, readStream_of_readFull ending read, ?_⟩
  obtain ⟨hash, read, ok⟩ := bind_eq_ok.mp ok
  refine bind_eq_ok.mpr ⟨hash, readStream_of_readFull ending read, ?_⟩
  obtain ⟨payloadLen, read, ok⟩ := bind_eq_ok.mp ok
  refine bind_eq_ok.mpr ⟨payloadLen, readStream_of_readFull ending read, ?_⟩
  obtain ⟨accepted, ok⟩ := then_eq_ok.mp ok
  rw [refuse_eq_ok] at accepted
  refine then_eq_ok.mpr ⟨refuse_eq_ok.mpr (by omega), ?_⟩
  obtain ⟨bytes, read, ok⟩ := bind_eq_ok.mp ok
  refine bind_eq_ok.mpr ⟨bytes, readStream_of_readFull ending read, ?_⟩
  rw [(Prod.mk.inj (Except.ok.inj ok)).1.symm]
  rfl

end Stream

section Seek

theorem Encodes.record_storable (encodes : Encodes codec records data segment) (valid : segment.Valid) :
    ∀ record ∈ records, record.Storable := by
  intro record member
  apply (encodes.wellFormed record member).storable
  have indexed : (record.height, record.hash) ∈ segment.blocks.map fun block => (block.height, block.hash) := by
    rw [encodes.blocks]
    exact List.mem_map_of_mem member
  obtain ⟨block, found, same⟩ := List.mem_map.mp indexed
  have bounds := valid.blocks.bounds block found
  have height : block.height = record.height := congrArg Prod.fst same
  have last := valid.bounded
  have total := valid.length
  omega

theorem Encodes.seekRecord (encodes : Encodes codec records data segment) (inflates : codec.Inflates) {offset : Nat}
    (inside : offset ≤ (records.flatMap recordBytes).length) :
    seekRecord codec (data.drop segmentMagic.length) segment.compression offset =
      .ok ((records.flatMap recordBytes).drop offset, none) := by
  have body (rest : Bytes) : (segmentMagic ++ rest).drop segmentMagic.length = rest := List.drop_left' rfl
  unfold Archive.seekRecord
  rcases encodes.body with ⟨compression, rfl⟩ | ⟨compression, rfl⟩
  · rw [body, compression, if_pos rfl]
    exact then_eq_ok.mpr ⟨refuse_eq_ok.mpr (by omega), rfl⟩
  · rw [body, compression, if_neg (by decide), if_pos rfl]
    refine bind_eq_ok.mpr ⟨_, inflates _, ?_⟩
    exact then_eq_ok.mpr ⟨refuse_eq_ok.mpr (by omega), rfl⟩

theorem Encodes.decodeSegmentBlockFast {i : Nat} {record : BlockRecord} {entry : BlockIndex}
    (encodes : Encodes codec records data segment) (inflates : codec.Inflates) (valid : segment.Valid)
    (found : records[i]? = some record) (height : record.height = entry.height) (hash : record.hash = entry.hash)
    (offset : entry.offset = ((records.take i).flatMap recordBytes).length) :
    decodeSegmentBlockFast codec comet data segment entry = recordToBlock comet record := by
  have rest := drop_flatMap found
  have inside : ((records.take i).flatMap recordBytes).length ≤ (records.flatMap recordBytes).length := by
    by_contra beyond
    rw [List.drop_eq_nil_of_le (by omega)] at rest
    have empty := congrArg List.length rest
    have filled := List.length_pos_iff.mpr (recordBytes_ne_nil record)
    rw [List.length_nil, List.length_append] at empty
    omega
  obtain ⟨fits, -⟩ := payload_le_maxDecompressedFor codec encodes
  have magic : data.take segmentMagic.length = segmentMagic := by
    rcases encodes.body with ⟨-, rfl⟩ | ⟨-, rfl⟩ <;> exact List.take_left' rfl
  have storable := encodes.record_storable valid record (List.mem_of_getElem? found)
  have read : decodeOneRecord none ((records.flatMap recordBytes).drop ((records.take i).flatMap recordBytes).length) =
      .ok record := decodeOneRecord_of_decodeRecord none (decodeRecord_eq_ok.mpr ⟨storable, rest⟩)
  unfold Archive.decodeSegmentBlockFast
  refine (bind_of_ok (SegmentManifest.validate_eq_ok.mpr valid)).trans ?_
  refine (bind_of_ok (refuse_eq_ok.mpr (by simp [encodes.size]))).trans ?_
  refine (bind_of_ok (refuse_eq_ok.mpr (by simp [encodes.sha256]))).trans ?_
  refine (bind_of_ok (refuse_eq_ok.mpr (by simp [magic]))).trans ?_
  refine (bind_of_ok (refuse_eq_ok.mpr (by omega))).trans ?_
  rw [offset]
  refine (bind_of_ok (encodes.seekRecord inflates inside)).trans ?_
  refine (bind_of_ok read).trans ?_
  refine (bind_of_ok (refuse_eq_ok.mpr (by simp [height]))).trans ?_
  exact bind_of_ok (refuse_eq_ok.mpr (by simp [hash]))

theorem Encodes.entry {i : Nat} {record : BlockRecord} (encodes : Encodes codec records data segment)
    (found : records[i]? = some record) :
    ∃ entry, segment.blocks[i]? = some entry ∧ record.height = entry.height ∧ record.hash = entry.hash := by
  have same : (segment.blocks.map fun block => (block.height, block.hash))[i]? = some (record.height, record.hash) := by
    rw [encodes.blocks, List.getElem?_map, found]
    rfl
  rw [List.getElem?_map, Option.map_eq_some_iff] at same
  obtain ⟨entry, indexed, equal⟩ := same
  obtain ⟨height, hash⟩ := Prod.mk.inj equal
  exact ⟨entry, indexed, height.symm, hash.symm⟩

theorem Encodes.record_at {record : BlockRecord} (encodes : Encodes codec records data segment) (valid : segment.Valid)
    (member : record ∈ records) : records[(record.height - segment.firstHeight).toNat]? = some record := by
  obtain ⟨i, found⟩ := List.getElem?_of_mem member
  obtain ⟨entry, indexed, height, -⟩ := encodes.entry found
  have entryHeight := valid.blocks.getElem indexed
  have place : (record.height - segment.firstHeight).toNat = i := by omega
  rw [place]
  exact found

def Placed (records : List BlockRecord) (blocks : List BlockIndex) : Prop :=
  -- the index says where the records start, as far as it says it
  ∀ (i : Nat) (entry : BlockIndex), blocks[i]? = some entry →
    entry.offset = 0 ∨ entry.offset = ((records.take i).flatMap recordBytes).length

theorem Encodes.decodeSegmentBlock {height : Int} {record : BlockRecord} (encodes : Encodes codec records data segment)
    (inflates : codec.Inflates) (valid : segment.Valid) (placed : Placed records segment.blocks)
    (low : segment.firstHeight ≤ height) (high : height ≤ segment.lastHeight)
    (found : records[(height - segment.firstHeight).toNat]? = some record) :
    decodeSegmentBlock codec comet data segment height = recordToBlock comet record := by
  obtain ⟨entry, indexed, sameHeight, sameHash⟩ := encodes.entry found
  have entryHeight := valid.blocks.getElem indexed
  unfold Archive.decodeSegmentBlock
  refine (bind_of_ok (refuse_eq_ok.mpr (by omega))).trans ?_
  cases fast : seekSegmentBlock codec comet data segment height with
  | some block =>
    simp only [seekSegmentBlock, indexed] at fast
    split at fast
    next tried =>
      -- zero is the true offset of the first record, and is not tried for another
      have offset : entry.offset =
          ((records.take (height - segment.firstHeight).toNat).flatMap recordBytes).length := by
        rcases placed _ entry indexed with lost | kept
        · rcases tried with positive | first
          · omega
          · rw [first, lost]
            rfl
        · exact kept
      rw [encodes.decodeSegmentBlockFast inflates valid found sameHeight sameHash offset] at fast
      cases read : recordToBlock comet record with
      | error err =>
        rw [read] at fast
        cases fast
      | ok other =>
        rw [read] at fast
        cases fast
        rfl
    next => cases fast
  | none =>
    have decoded := Encodes.decode codec encodes inflates valid (fun (_ : BlockRecord) _ => (rfl : Except.ok () = .ok ()))
    refine (bind_of_ok decoded).trans ?_
    have search : records.find? (·.height = height) = some record := by
      rw [List.find?_eq_some_iff_getElem]
      obtain ⟨inside, rfl⟩ := List.getElem?_eq_some_iff.mp found
      refine ⟨?_, _, inside, rfl, ?_⟩
      · rw [decide_eq_true_eq]
        omega
      · intro j before
        obtain ⟨other, otherIndexed, otherHeight, -⟩ := encodes.entry (List.getElem?_eq_getElem (by omega : j < records.length))
        have lower := valid.blocks.getElem otherIndexed
        simp only [Bool.not_eq_true', decide_eq_false_iff_not]
        omega
    rw [search]

end Seek

section Agreement

theorem encodeSegment_offset {compression : String} {i : Nat} {record : BlockRecord}
    (encoded : encodeSegment codec records compression = .ok (data, segment)) (found : records[i]? = some record) :
    segment.blocks[i]? = some ⟨record.height, record.hash, ((records.take i).flatMap recordBytes).length⟩ := by
  simp only [encodeSegment, then_eq_ok] at encoded
  obtain ⟨-, -, -, encoded⟩ := encoded
  obtain ⟨⟨payload, offsets⟩, written, encoded⟩ := bind_eq_ok.mp encoded
  obtain ⟨compressed, -, encoded⟩ := bind_eq_ok.mp encoded
  cases encoded
  have offset : offsets[i]? = some (((records.take i).flatMap recordBytes).length : Int) := by
    rw [encodeRecords_offsets written, List.nil_append, List.length_nil, recordOffsets_getElem found]
    simp
  dsimp only
  rw [List.getElem?_zipWith, found, offset]

-- an entry of the index as it was written, or as a manifest without offsets has it
def BlockIndex.Forgets (written read : BlockIndex) : Prop := read = written ∨ read = { written with offset := 0 }

theorem forgets_index {written read : List BlockIndex} (forgets : List.Forall₂ BlockIndex.Forgets written read) :
    read.map (fun block => (block.height, block.hash)) = written.map fun block => (block.height, block.hash) := by
  induction forgets with
  | nil => rfl
  | cons same rest ih =>
    rw [List.map_cons, List.map_cons, ih]
    rcases same with rfl | rfl <;> rfl

theorem forgets_getElem {written read : List BlockIndex} {i : Nat} {entry : BlockIndex}
    (forgets : List.Forall₂ BlockIndex.Forgets written read) (found : read[i]? = some entry) :
    ∃ original, written[i]? = some original ∧ (entry.offset = 0 ∨ entry.offset = original.offset) := by
  induction forgets generalizing i with
  | nil => cases found
  | cons same rest ih =>
    cases i with
    | zero =>
      cases found
      refine ⟨_, rfl, ?_⟩
      rcases same with rfl | rfl
      · exact .inr rfl
      · exact .inl rfl
    | succ i => exact ih (by simpa using found)

/-- The offsets are the positions of the records, and which of them an index has makes no difference. -/
theorem seek_agrees_with_decode (comet : Comet V) {compression key : String} (inflates : codec.Inflates)
    (digests : codec.Digests) (heights : Heights records)
    (encoded : encodeSegment codec records compression = .ok (data, segment))
    (bounded : ∀ record ∈ records.getLast?, record.height < maxInt64) (named : validateObjectKey key = .ok ()) :
    (∀ blocks, List.Forall₂ BlockIndex.Forgets segment.blocks blocks → ∀ height,
      decodeSegmentBlock codec comet data { segment with key, blocks } height =
        decodeSegmentBlock codec comet data { segment with key } height ∧
      ∀ block, decodeSegmentBlock codec comet data { segment with key, blocks } height = .ok block ↔
        segment.firstHeight ≤ height ∧ height ≤ segment.lastHeight ∧
          ∃ record ∈ records, record.height = height ∧ recordToBlock comet record = .ok block) ∧
    ∀ i record, records[i]? = some record → ∃ entry, segment.blocks[i]? = some entry ∧
      entry.offset = (((records.take i).flatMap recordBytes).length : Int) ∧
      decodeOneRecord none ((records.flatMap recordBytes).drop entry.offset.toNat) = .ok record := by
  have written := encodeSegment_spec codec encoded
  have last : segment.lastHeight < maxInt64 := by
    obtain ⟨final, isLast⟩ : ∃ final, records.getLast? = some final := ⟨_, List.getLast?_eq_some_getLast written.filled⟩
    rw [written.last final isLast]
    exact bounded final isLast
  have valid := Encodes.valid codec (Encodes.with_key codec written key) digests heights last named
  have total : records.length = segment.lastHeight - segment.firstHeight + 1 := by
    have length : segment.blocks.length = records.length := by simpa using congrArg List.length written.blocks
    rw [← length]
    exact valid.length
  -- one outcome for every index that forgets offsets
  have outcome {blocks : List BlockIndex} (forgets : List.Forall₂ BlockIndex.Forgets segment.blocks blocks) (height : Int) :
      (height < segment.firstHeight ∨ segment.lastHeight < height) ∧
        decodeSegmentBlock codec comet data { segment with key, blocks } height =
          .error (.both (.sentinel .segmentBlockNotFound)
            (.new s!"height {height} outside segment range {segment.firstHeight}-{segment.lastHeight}")) ∨
      segment.firstHeight ≤ height ∧ height ≤ segment.lastHeight ∧
        ∃ record, records[(height - segment.firstHeight).toNat]? = some record ∧ record.height = height ∧
          decodeSegmentBlock codec comet data { segment with key, blocks } height = recordToBlock comet record := by
    by_cases outside : height < segment.firstHeight ∨ segment.lastHeight < height
    · refine .inl ⟨outside, ?_⟩
      unfold decodeSegmentBlock
      rw [refuse, if_pos outside]
      rfl
    · have encodes : Encodes codec records data { segment with key, blocks } :=
        { written with blocks := (forgets_index forgets).trans written.blocks }
      have valid : { segment with key, blocks }.Valid := Encodes.valid codec encodes digests heights last named
      have placed : Placed records blocks := by
        intro i entry found
        obtain ⟨original, indexed, same⟩ := forgets_getElem forgets found
        obtain ⟨inside, -⟩ := List.getElem?_eq_some_iff.mp indexed
        have length : segment.blocks.length = records.length := by simpa using congrArg List.length written.blocks
        have known := encodeSegment_offset encoded (List.getElem?_eq_getElem (length ▸ inside))
        rw [indexed] at known
        cases known
        exact same
      have inside : (height - segment.firstHeight).toNat < records.length := by omega
      obtain ⟨entry, indexed, sameHeight, -⟩ := encodes.entry (List.getElem?_eq_getElem inside)
      have entryHeight := valid.blocks.getElem indexed
      dsimp only at entryHeight
      refine .inr ⟨by omega, by omega, _, List.getElem?_eq_getElem inside, by omega, ?_⟩
      exact encodes.decodeSegmentBlock inflates valid placed (by dsimp only; omega) (by dsimp only; omega)
        (List.getElem?_eq_getElem inside)
  have unchanged : List.Forall₂ BlockIndex.Forgets segment.blocks segment.blocks :=
    List.forall₂_same.mpr fun _ _ => .inl rfl
  constructor
  · intro blocks forgets height
    rcases outcome forgets height with ⟨outside, failed⟩ | ⟨low, high, record, found, same, read⟩
    · rcases outcome unchanged height with ⟨-, other⟩ | ⟨low, high, -⟩
      · refine ⟨failed.trans other.symm, ?_⟩
        intro block
        rw [failed]
        constructor
        · intro impossible
          cases impossible
        · rintro ⟨low, high, -⟩
          omega
      · omega
    · rcases outcome unchanged height with ⟨outside, -⟩ | ⟨-, -, other, here, -, same'⟩
      · omega
      · rw [found] at here
        cases here
        refine ⟨read.trans same'.symm, ?_⟩
        intro block
        rw [read]
        constructor
        · intro ok
          exact ⟨low, high, record, List.mem_of_getElem? found, same, ok⟩
        · rintro ⟨-, -, other, member, rfl, ok⟩
          have there := (Encodes.with_key codec written key).record_at valid member
          rw [found] at there
          cases there
          exact ok
  · intro i record found
    refine ⟨_, encodeSegment_offset encoded found, rfl, ?_⟩
    have storable := (Encodes.with_key codec written key).record_storable valid record (List.mem_of_getElem? found)
    exact decodeOneRecord_of_decodeRecord none (decodeRecord_eq_ok.mpr ⟨storable, drop_flatMap found⟩)

def twoRecords : List BlockRecord :=
  [⟨1, hexEncode (List.replicate 32 7), [7]⟩, ⟨2, hexEncode (List.replicate 32 8), [8]⟩]

theorem seek_agrees_with_decode_two :
    ∃ data segment, encodeSegment Codec.plain twoRecords "" = .ok (data, segment) ∧
      ∃ entry, segment.blocks[1]? = some entry ∧ entry.offset = 78 ∧
        decodeOneRecord none ((twoRecords.flatMap recordBytes).drop entry.offset.toNat) =
          .ok ⟨2, hexEncode (List.replicate 32 8), [8]⟩ := by
  have accepted : (encodeSegment Codec.plain twoRecords "").isOk = true := by decide +kernel
  cases encoded : encodeSegment Codec.plain twoRecords "" with
  | error err =>
    rw [encoded] at accepted
    cases accepted
  | ok result =>
    obtain ⟨data, segment⟩ := result
    have heights : Heights twoRecords := by
      unfold Heights
      decide
    obtain ⟨entry, indexed, offset, read⟩ := (seek_agrees_with_decode Comet.plain (fun _ => rfl) (fun _ => rfl) heights encoded
      (by decide) (by decide +kernel : validateObjectKey "k" = .ok ())).2 1 _ rfl
    exact ⟨data, segment, rfl, entry, indexed, offset, read⟩

end Agreement

end CometArchive.Archive
