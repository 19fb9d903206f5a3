import CometArchive.Archive.Knowledge

set_option autoImplicit false

namespace CometArchive.Archive

open GoBytes GoError Programs Programs.Fallible

variable {V : Type} (host : Host V)

structure Publishes (key chainID : String) (history : History) (data : Bytes) (revision : String)
    (before after : Manifest) : Prop where
  -- `after` goes to the manifest key in place of `before`
  based : Based host key before (known key history)
  valid : before.Valid
  chain : before.chainID = chainID
  revision : revision = before.revision
  validAfter : after.Valid
  chainAfter : after.chainID = chainID
  encoded : Holds host data after
  fits : (data.length : Int) ≤ maxManifestBytes
  named : validateObjectKey key = .ok ()

/-- The object of the segment was compared with the data that was to be there. -/
def Stored (history : History) (segment : SegmentManifest) (data : Bytes) : Prop :=
  (∃ current, ⟨.get segment.key, .ok current⟩ ∈ history ∧ (current.length : Int) = segment.sizeBytes ∧
    hexEncode (host.codec.sha256 current) = segment.sha256) ∨
  ∃ etag, ⟨.putIfAbsentReturningETag segment.key data, .ok etag⟩ ∈ history ∧
    normalizeETag etag = localMD5Hex host.codec data

def Read (chainID : String) (first last : Int) (history : History) (record : BlockRecord) : Prop :=
  ∃ height block, first ≤ height ∧ height ≤ last ∧ ⟨.loadBlock height, some block⟩ ∈ history ∧
    block.chainID = chainID ∧ blockToRecord host.comet block = .ok record

def Built (chainID : String) (first last : Int) (history : History) (segment : SegmentManifest) : Prop :=
  -- the segment holds blocks that were read at the heights from `first` to `last`, and is in the store
  ∃ records data, Encodes host.codec records data segment ∧ Stored host history segment data ∧
    ∀ record ∈ records, Read host chainID first last history record

def Limited (history : History) (stop : Int) : Prop :=
  host.bounded = true → ∃ limit, ⟨.archiveHeightLimit, limit⟩ ∈ history ∧ stop ≤ limit

def Loaded (chainID : String) (history : History) : Int → List BlockRecord → Prop
  -- the records are those of blocks that were read, from `height` on one after the other
  | _, [] => True
  | height, record :: rest =>
    (∃ block, ⟨.loadBlock height, some block⟩ ∈ history ∧ block.chainID = chainID ∧
      blockToRecord host.comet block = .ok record) ∧ Loaded chainID history (height + 1) rest

def Archived (keyPrefix chainID compression : String) (first last : Int) (history : History) (segment : SegmentManifest) :
    Prop :=
  ∃ records data encoded, encodeSegment host.codec records compression = .ok (data, encoded) ∧
    segment = { encoded with
      key := segmentKey keyPrefix chainID encoded.firstHeight encoded.lastHeight encoded.sha256 } ∧
    first + records.length - 1 = last ∧ Loaded host chainID history first records ∧ Stored host history segment data

def LivePublishes (key chainID : String) (history : History) (data : Bytes) (revision : String) : Prop :=
  ∃ before after segment first last, Publishes host key chainID history data revision before after ∧
    after.segments = before.segments ++ [segment] ∧
    (before.segments ≠ [] → after.firstHeight = before.firstHeight) ∧
    Built host chainID first last history segment ∧ Limited host history last

def SegmentKeys (keyPrefix chainID : String) (key : String) : Prop :=
  ∃ firstHeight lastHeight sha256, key = segmentKey keyPrefix chainID firstHeight lastHeight sha256

variable {host} {key chainID keyPrefix : String} {uploads : String → Bytes → Prop} {history : History}

theorem Stored.mono {later : History} {segment : SegmentManifest} {data : Bytes}
    (stored : Stored host history segment data) (grown : history ⊆ later) : Stored host later segment data := by
  rcases stored with ⟨current, read, same⟩ | ⟨etag, put, same⟩
  · exact .inl ⟨current, grown read, same⟩
  · exact .inr ⟨etag, grown put, same⟩

theorem Read.mono {later : History} {first last first' last' : Int} {record : BlockRecord}
    (read : Read host chainID first last history record) (grown : history ⊆ later) (low : first' ≤ first)
    (high : last ≤ last') : Read host chainID first' last' later record := by
  obtain ⟨height, block, above, below, loaded, rest⟩ := read
  exact ⟨height, block, by omega, by omega, grown loaded, rest⟩

theorem Built.mono {later : History} {first last : Int} {segment : SegmentManifest}
    (built : Built host chainID first last history segment) (grown : history ⊆ later) :
    Built host chainID first last later segment := by
  obtain ⟨records, data, encodes, stored, read⟩ := built
  exact ⟨records, data, encodes, stored.mono grown, fun record member => (read record member).mono grown le_rfl le_rfl⟩

theorem Limited.mono {later : History} {stop stop' : Int} (limited : Limited host history stop)
    (grown : history ⊆ later) (below : stop' ≤ stop) : Limited host later stop' := by
  intro bounded
  obtain ⟨limit, answered, within⟩ := limited bounded
  exact ⟨limit, grown answered, by omega⟩

theorem Loaded.mono {later : History} {height : Int} {records : List BlockRecord}
    (loaded : Loaded host chainID history height records) (grown : history ⊆ later) :
    Loaded host chainID later height records := by
  induction records generalizing height with
  | nil => trivial
  | cons record rest ih =>
    obtain ⟨⟨block, read, same⟩, loaded⟩ := loaded
    exact ⟨⟨block, grown read, same⟩, ih loaded⟩

theorem Loaded.read {height : Int} {records : List BlockRecord} (loaded : Loaded host chainID history height records) :
    ∀ record ∈ records, Read host chainID height (height + records.length - 1) history record := by
  induction records generalizing height with
  | nil => simp
  | cons record rest ih =>
    obtain ⟨⟨block, read, same⟩, loaded⟩ := loaded
    rw [List.length_cons]
    push_cast
    intro other member
    rcases List.mem_cons.mp member with rfl | member
    · exact ⟨height, block, le_rfl, by omega, read, same⟩
    · exact (ih loaded other member).mono (List.Subset.refl _) (by omega) (by omega)

theorem blockToRecord_spec {block : Block} {record : BlockRecord} (ok : blockToRecord host.comet block = .ok record) :
    record.height = block.height ∧ record.hash = hexEncode (host.comet.blockHash block) := by
  unfold blockToRecord at ok
  obtain ⟨data, -, ok⟩ := bind_eq_ok.mp ok
  cases ok
  exact ⟨rfl, rfl⟩

theorem Archived.built {compression : String} {first last : Int} {segment : SegmentManifest}
    (archived : Archived host keyPrefix chainID compression first last history segment) :
    Built host chainID first last history segment := by
  obtain ⟨records, data, encoded, ok, rfl, rfl, loaded, stored⟩ := archived
  exact ⟨records, data, Encodes.with_key host.codec (encodeSegment_spec host.codec ok) _, stored, loaded.read⟩

theorem Encodes.isSegment {records : List BlockRecord} {data : Bytes} {segment : SegmentManifest}
    (encodes : Encodes host.codec records data segment) : IsSegment data := by
  rcases encodes.body with ⟨-, rfl⟩ | ⟨-, rfl⟩
  · exact List.take_left' rfl
  · exact List.take_left' rfl

theorem mem_snoc (history : History) (entry : Entry Op Op.Res) : entry ∈ history ++ [entry] :=
  List.mem_append_right _ List.mem_cons_self

structure Permits (calm : Op → Prop) (writes : String → Bytes → Prop) : Prop where
  -- the calls that building and uploading a segment takes; `writes` are the objects it may upload
  get : ∀ key, calm (.get key)
  existsKey : ∀ key, calm (.existsKey key)
  loadBlock : ∀ height, calm (.loadBlock height)
  ctxErr : calm .ctxErr
  put : ∀ key data, writes key data → calm (.putIfAbsent key data)
  putReturningETag : ∀ key data, writes key data → calm (.putIfAbsentReturningETag key data)

theorem calm_permits (key : String) (uploads : String → Bytes → Prop) : Permits (Calm key uploads) uploads :=
  ⟨fun _ => trivial, fun _ => trivial, fun _ => trivial, trivial, fun _ _ => id, fun _ _ => id⟩

section Permits

variable {calm : Op → Prop} {writes : String → Bytes → Prop}

theorem verifyStoredSegment_ok {segment : SegmentManifest} (permits : Permits calm writes) (data : Bytes) :
    (verifyStoredSegment host segment).Ok (fun _ op => calm op) (fun _ _ => True)
      (fun later _ => Stored host later segment data) history := by
  unfold verifyStoredSegment
  refine Ok.bind (Ok.attempt (permits.get _) (fun _ _ _ => trivial) ?_)
  rintro answer current rfl
  refine Ok.lift (fun _ _ => trivial) fun _ same => ?_
  rw [refuse_eq_ok, not_or, not_not, not_not] at same
  exact .inl ⟨current, mem_snoc .., same⟩

theorem verifyUploadETag_ok {segment : SegmentManifest} {data : Bytes} {etag : String} (permits : Permits calm writes)
    (put : ⟨.putIfAbsentReturningETag segment.key data, .ok etag⟩ ∈ history) :
    (verifyUploadETag host segment etag (localMD5Hex host.codec data)).Ok (fun _ op => calm op)
      (fun _ _ => True) (fun later _ => Stored host later segment data) history := by
  unfold verifyUploadETag
  by_cases same : normalizeETag etag ≠ "" ∧ GoText.contains (normalizeETag etag) '-' = false ∧
      normalizeETag etag = localMD5Hex host.codec data
  · rw [if_pos same]
    apply Ok.pure
    exact .inr ⟨etag, put, same.2.2⟩
  · rw [if_neg same]
    exact verifyStoredSegment_ok permits data

theorem absorbExisting_ok {α : Type} {upload : M α} {post : History → Option α → Prop}
    (ok : upload.Ok (fun _ op => calm op) (fun later _ => post later none)
      (fun later value => post later (some value)) history) :
    (absorbExisting upload).Ok (fun _ op => calm op) (fun _ _ => True) post history := by
  unfold absorbExisting
  refine Ok.recover ?_
  change ((upload >>= fun value => pure (some value) : M (Option α))).Ok _ _ _ _
  refine Ok.bind (Ok.mono ok ?_ fun later value holds => Ok.pure holds)
  intro later err none
  split
  next => exact Ok.pure none
  next => exact Ok.lift (fun _ _ => trivial) (by rintro _ ⟨⟩)

theorem putImmutableSegment_ok {segment : SegmentManifest} {data : Bytes} (permits : Permits calm writes)
    (allowed : writes segment.key data) :
    (putImmutableSegment host segment data).Ok (fun _ op => calm op) (fun _ _ => True)
      (fun later _ => Stored host later segment data) history := by
  -- what is read back may answer either way
  have compare {uploaded : Bool} {later : History} : (do verifyStoredSegment host segment; return uploaded : M Bool).Ok
      (fun _ op => calm op) (fun _ _ => True) (fun later _ => Stored host later segment data) later :=
    Ok.bind (Ok.mono (verifyStoredSegment_ok permits data) (fun _ _ _ => trivial) fun _ _ stored => Ok.pure stored)
  unfold putImmutableSegment
  refine Ok.bind (Ok.attempt (permits.existsKey _) (fun _ _ _ => trivial) fun _ found _ => ?_)
  cases found with
  | true => exact compare
  | false =>
    rw [if_neg Bool.false_ne_true]
    by_cases tagged : host.returnsETag = true
    · rw [if_pos tagged]
      apply Ok.bind
      apply absorbExisting_ok
      apply Ok.attempt (permits.putReturningETag _ _ allowed)
      · intros
        exact compare
      rintro answer etag rfl
      refine Ok.bind (Ok.mono (verifyUploadETag_ok permits (mem_snoc ..)) (fun _ _ _ => trivial) ?_)
      intro later _ stored
      exact Ok.pure stored
    · rw [if_neg tagged]
      apply Ok.bind
      apply absorbExisting_ok
      apply Ok.attempt (permits.put _ _ allowed)
      all_goals
        intros
        exact compare

theorem loadRecords_ok {count : Nat} {height : Int} (permits : Permits calm writes) :
    (loadRecords host chainID count height).Ok (fun _ op => calm op) (fun _ _ => True)
      (fun later records => records.length = count ∧ Loaded host chainID later height records) history := by
  induction count generalizing height history with
  | zero => exact Ok.pure ⟨rfl, trivial⟩
  | succ count ih =>
    unfold loadRecords
    refine Ok.bind (Ok.attempt permits.ctxErr (fun _ _ _ => trivial) fun _ _ _ => ?_)
    refine Ok.bind (Ok.query (Op.loadBlock height) (permits.loadBlock _) fun block => ?_)
    cases block with
    | none => exact Ok.lift (fun _ _ => trivial) (by rintro _ ⟨⟩)
    | some block =>
      refine Ok.check (fun _ _ => trivial) fun _ chain => ?_
      refine Ok.check (fun _ _ => trivial) fun record recorded => ?_
      rw [refuse_eq_ok, not_not] at chain
      rw [wrapping_eq_ok] at recorded
      refine Ok.bind (Ok.mono (Ok.grows ih) (fun _ _ _ => trivial) ?_)
      rintro later records ⟨⟨length, loaded⟩, grown⟩
      apply Ok.pure
      exact ⟨by rw [List.length_cons, length], ⟨block, grown (mem_snoc ..), chain, recorded⟩, loaded⟩

theorem buildAndUploadSegment_ok {compression : String} {first last : Int} (permits : Permits calm writes)
    (allowed : ∀ records data segment, encodeSegment host.codec records compression = .ok (data, segment) →
      writes (segmentKey keyPrefix chainID segment.firstHeight segment.lastHeight segment.sha256) data) :
    (buildAndUploadSegment host chainID keyPrefix compression first last).Ok (fun _ op => calm op)
      (fun _ _ => True)
      (fun later built => first ≤ last ∧ Archived host keyPrefix chainID compression first last later built.1) history := by
  unfold buildAndUploadSegment
  refine Ok.bind (Ok.mono (loadRecords_ok permits) (fun _ _ _ => trivial) ?_)
  rintro read records ⟨length, loaded⟩
  refine Ok.check (fun _ _ => trivial) ?_
  rintro ⟨data, segment⟩ encoded
  -- a segment has at least one record, so the range is not empty
  have filled := List.length_pos_iff.mpr (encodeSegment_spec host.codec encoded).filled
  refine Ok.bind (Ok.mono (Ok.grows (putImmutableSegment_ok permits (allowed _ _ _ encoded))) (fun _ _ _ => trivial) ?_)
  rintro later uploaded ⟨stored, grown⟩
  apply Ok.pure
  exact ⟨by omega, records, data, segment, encoded, rfl, by omega, loaded.mono grown, stored⟩

end Permits

theorem archiveLoop_ok {opts : LiveArchiveOptions} {stop : Int} (json : host.json.Lawful)
    (chained : opts.chainID = chainID)
    (allowed : ∀ other data, SegmentKeys opts.keyPrefix opts.chainID other → IsSegment data → uploads other data)
    {fuel : Nat} {height : Int} {manifest : Manifest} {result : LiveArchiveResult} (valid : manifest.Valid)
    (based : Based host key manifest (known key history)) (chain : manifest.chainID = chainID)
    (limited : Limited host history stop) :
    (archiveLoop host opts key stop fuel height manifest result).Ok
      (May key uploads (LivePublishes host key chainID)) (fun _ _ => True)
      (fun later _ => known key later ≠ .refused) history := by
  rw [chained] at allowed
  induction fuel generalizing height manifest result history with
  | zero => exact Ok.pure based.clean
  | succ fuel ih =>
    unfold archiveLoop
    rw [chained]
    split
    next => exact Ok.pure based.clean
    next =>
      refine Ok.bind (Ok.attempt ⟨based.clean, trivial⟩ (fun _ _ _ => trivial) fun answer _ _ => ?_)
      have same : known key (history ++ [⟨.ctxErr, answer⟩]) = known key history := known_snoc ..
      refine Ok.bind (Ok.mono (quiet (buildAndUploadSegment_ok (calm_permits key uploads)
        fun _ _ _ encoded => allowed _ _ ⟨_, _, _, rfl⟩ (encodeSegment_spec host.codec encoded).isSegment)
        (by rw [same]; exact based.clean)) (fun _ _ _ => trivial) ?_)
      rintro later ⟨segment, uploaded⟩ ⟨⟨⟨-, archived⟩, unchanged⟩, grown⟩
      rw [same] at unchanged
      refine Ok.bind (Ok.query Op.now ⟨by rw [unchanged]; exact based.clean, trivial⟩ fun now => ?_)
      refine Ok.check (fun _ _ => trivial) fun extended ok => ?_
      obtain ⟨-, segments, -, sameChain, revision, -, -, first⟩ := Manifest.appendSegmentInPlace_spec ok
      have still : known key (later ++ [⟨.now, now⟩]) = known key history :=
        (known_snoc ..).trans unchanged
      have whole : history ⊆ later ++ [⟨.now, now⟩] :=
        List.Subset.trans (List.Subset.trans (List.subset_append_left ..) grown) (List.subset_append_left ..)
      refine Ok.bind (Ok.mono (Ok.grows (saveManifest_ok json (by rw [still]; exact based.clean) ?_)) (fun _ _ _ => trivial) ?_)
      · intro data named validAfter holds fits
        refine ⟨manifest, extended, segment, height, _, ⟨by rw [still]; exact based, valid, chain, revision, validAfter,
          sameChain.trans chain, holds, fits, named⟩, segments, first, archived.built.mono (List.subset_append_left ..),
          limited.mono whole (min_le_right _ _)⟩
      · rintro last published ⟨⟨content, validAfter, basedAfter⟩, more⟩
        have chainAfter : published.chainID = chainID := by
          have named := congrArg Manifest.chainID content
          exact named.trans (sameChain.trans chain)
        exact ih validAfter basedAfter chainAfter (limited.mono (List.Subset.trans whole more) le_rfl)

theorem nextHeightToArchive_ok {opts : LiveArchiveOptions} {manifest : Manifest} :
    (nextHeightToArchive opts manifest).Ok (fun _ op => Calm key uploads op) (fun _ _ => True) (fun _ _ => True)
      history := by
  unfold nextHeightToArchive
  repeat' split
  · exact Ok.query Op.base trivial fun _ => trivial
  · exact Ok.pure trivial
  · exact Ok.pure trivial

theorem archiveEnd_ok {readyHeight sourceHeight : Int} :
    (archiveEnd host readyHeight sourceHeight).Ok (fun _ op => Calm key uploads op) (fun _ _ => True)
      (fun later stop => Limited host later stop) history := by
  unfold archiveEnd
  split
  next =>
    refine Ok.bind (Ok.query Op.archiveHeightLimit trivial fun limit => ?_)
    exact Ok.pure fun _ => ⟨limit, mem_snoc .., min_le_right _ _⟩
  next unbounded => exact Ok.pure fun bounded => absurd bounded unbounded

theorem archiveReady_ok {opts : LiveArchiveOptions} (json : host.json.Lawful)
    (named : chosenManifestKey opts.keyPrefix opts.chainID opts.manifestName opts.manifestKey = key)
    (chained : opts.chainID = chainID)
    (allowed : ∀ other data, SegmentKeys opts.keyPrefix opts.chainID other → IsSegment data → uploads other data)
    (clean : known key history ≠ .refused) :
    (archiveReady host opts).Ok
      (May key uploads (LivePublishes host key chainID)) (fun _ _ => True) (fun later _ => known key later ≠ .refused)
      history := by
  unfold archiveReady
  refine Ok.check (fun _ _ => trivial) fun _ _ => ?_
  refine Ok.check (fun _ _ => trivial) fun _ _ => ?_
  refine Ok.check (fun _ _ => trivial) fun _ _ => ?_
  refine Ok.check (fun _ _ => trivial) fun _ _ => ?_
  refine Ok.check (fun _ _ => trivial) fun resolved resolves => ?_
  rw [resolveManifestKey, named] at resolves
  obtain rfl : resolved = key := (resolveKey_spec resolves).1
  refine Ok.check (fun _ _ => trivial) fun _ _ => ?_
  refine Ok.check (fun _ _ => trivial) fun _ _ => ?_
  refine Ok.bind (Ok.mono (loadOrCreateLiveManifest_ok clean) (fun _ _ _ => trivial) ?_)
  rintro loaded manifest ⟨valid, based⟩
  refine Ok.check (fun _ _ => trivial) fun _ chain => ?_
  rw [refuse_eq_ok, not_not] at chain
  refine Ok.bind (Ok.mono (quiet nextHeightToArchive_ok based.clean) (fun _ _ _ => trivial) ?_)
  rintro asked nextHeight ⟨⟨-, unchanged⟩, -⟩
  refine Ok.check (fun _ _ => trivial) fun _ _ => ?_
  refine Ok.bind (Ok.query Op.height ⟨by rw [unchanged]; exact based.clean, trivial⟩ fun sourceHeight => ?_)
  refine Ok.check (fun _ _ => trivial) fun _ _ => ?_
  have same : known resolved (asked ++ [⟨.height, sourceHeight⟩]) = known resolved loaded :=
    (known_snoc ..).trans unchanged
  refine Ok.bind (Ok.mono (quiet archiveEnd_ok (by rw [same]; exact based.clean)) (fun _ _ _ => trivial) ?_)
  rintro later stop ⟨⟨limited, still⟩, -⟩
  rw [same] at still
  apply Ok.bind
  refine Ok.mono (archiveLoop_ok json ?_ ?_ valid (by rw [still]; exact based) (chain.trans chained) limited)
    (fun _ _ _ => trivial) ?_
  · exact chained
  · exact allowed
  · intro last _ ended
    exact Ok.pure ended

theorem archiveReadyFromHead_ok {opts : LiveArchiveOptions} {safetyWindow : Int} (json : host.json.Lawful)
    (named : chosenManifestKey opts.keyPrefix opts.chainID opts.manifestName opts.manifestKey = key)
    (chained : opts.chainID = chainID)
    (allowed : ∀ other data, SegmentKeys opts.keyPrefix opts.chainID other → IsSegment data → uploads other data)
    (clean : known key history ≠ .refused) :
    (archiveReadyFromHead host opts safetyWindow).Ok
      (May key uploads (LivePublishes host key chainID)) (fun _ _ => True) (fun later _ => known key later ≠ .refused)
      history := by
  unfold archiveReadyFromHead
  refine Ok.check (fun _ _ => trivial) fun _ _ => ?_
  refine Ok.check (fun _ _ => trivial) fun _ _ => ?_
  refine Ok.check (fun _ _ => trivial) fun _ _ => ?_
  refine Ok.check (fun _ _ => trivial) fun resolved resolves => ?_
  rw [resolveManifestKey, named] at resolves
  obtain rfl : resolved = key := (resolveKey_spec resolves).1
  refine Ok.check (fun _ _ => trivial) fun _ _ => ?_
  refine Ok.check (fun _ _ => trivial) fun _ _ => ?_
  refine Ok.bind (Ok.mono (loadOrCreateLiveManifest_ok clean) (fun _ _ _ => trivial) ?_)
  rintro loaded manifest ⟨-, based⟩
  refine Ok.bind (Ok.query Op.height ⟨based.clean, trivial⟩ fun head => ?_)
  have same : known resolved (loaded ++ [⟨.height, head⟩]) = known resolved loaded :=
    known_snoc ..
  have going : known resolved (loaded ++ [⟨.height, head⟩]) ≠ .refused := by
    rw [same]
    exact based.clean
  split
  next => exact Ok.pure going
  next =>
    split
    next =>
      refine Ok.bind (Ok.query Op.archiveHeightLimit ⟨going, trivial⟩ fun limit => ?_)
      have still : known resolved ((loaded ++ [⟨.height, head⟩]) ++ [⟨.archiveHeightLimit, limit⟩]) = known resolved loaded :=
        (known_snoc ..).trans same
      simp only []
      split
      next => exact Ok.pure (by rw [still]; exact based.clean)
      next =>
        refine archiveReady_ok json ?_ ?_ ?_ ?_
        · exact named
        · exact chained
        · exact allowed
        · rw [still]
          exact based.clean
    next =>
      refine archiveReady_ok json ?_ ?_ ?_ ?_
      · exact named
      · exact chained
      · exact allowed
      · exact going

end CometArchive.Archive
