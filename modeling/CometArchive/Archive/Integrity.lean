import CometArchive.Archive.Publication
import CometArchive.Archive.Verified

set_option autoImplicit false

namespace CometArchive.Archive

open GoBytes GoError Programs Programs.Fallible Runs

variable {V : Type} {host : Host V} {contentOf : String → Bytes} {key : String} {blocks : Block → Prop}
  {occurs : Bytes → Prop}

/-- What the archive takes on trust: the round trips of its libraries for the blocks it reads, and that no
two of the byte strings that occur have the same digest. -/
structure Trusted (host : Host V) (blocks : Block → Prop) (occurs : Bytes → Prop) : Prop where
  json : host.json.Lawful
  inflates : host.codec.Inflates
  readBack : ∀ block data, blocks block → host.comet.marshalBlock block = .ok data →
    ∃ read, host.comet.unmarshalBlock data = .ok read ∧ host.comet.blockHash read = host.comet.blockHash block ∧
      read.height = block.height
  encoded : ∀ records data segment, Encodes host.codec records data segment →
    (∀ record ∈ records, ∃ block, blocks block ∧ blockToRecord host.comet block = .ok record) → occurs data
  collisionFree : ∀ a b, occurs a → occurs b → host.codec.sha256 a = host.codec.sha256 b → a = b

def Reads (blocks : Block → Prop) (occurs : Bytes → Prop) : (op : Op) → op.Res → Prop
  -- the blocks and objects that calls answer with
  | .loadBlock _, some block => blocks block
  | .get _, .ok data => occurs data
  | _, _ => True

/-- A store that never alters a segment. Uploads may store anything. -/
def Orderly (codec : Codec) (blocks : Block → Prop) (occurs : Bytes → Prop) (op : Op) (s : ObjectStore contentOf)
    (answer : op.Res) (s' : ObjectStore contentOf) : Prop :=
  Effect codec (fun _ _ => True) op s answer s' ∧ KeepsSegments s s' ∧ Reads blocks occurs op answer

def Lasting (codec : Codec) (blocks : Block → Prop) (occurs : Bytes → Prop) (s : ObjectStore contentOf) :
    Entry Op Op.Res → Prop
  -- what an answer says about the store from then on
  | ⟨.get key, .ok data⟩ => occurs data ∧ (IsSegment data → ∃ revision, s.objects key = some ⟨data, revision⟩)
  | ⟨.putIfAbsentReturningETag key data, .ok etag⟩ =>
    normalizeETag etag = localMD5Hex codec data → IsSegment data → ∃ revision, s.objects key = some ⟨data, revision⟩
  | ⟨.loadBlock _, some block⟩ => blocks block
  | _ => True

theorem Lasting.keeps {codec : Codec} {s s' : ObjectStore contentOf} {entry : Entry Op Op.Res}
    (lasting : Lasting codec blocks occurs s entry) (keeps : KeepsSegments s s') :
    Lasting codec blocks occurs s' entry := by
  have still {key : String} {data : Bytes} (segment : IsSegment data)
      (there : ∃ revision, s.objects key = some ⟨data, revision⟩) : ∃ revision, s'.objects key = some ⟨data, revision⟩ := by
    obtain ⟨revision, found⟩ := there
    exact ⟨revision, keeps key _ found segment⟩
  obtain ⟨op, answer⟩ := entry
  cases op with
  | get key =>
    cases answer with
    | error err => exact trivial
    | ok data => exact ⟨lasting.1, fun segment => still segment (lasting.2 segment)⟩
  | putIfAbsentReturningETag key data =>
    cases answer with
    | error err => exact trivial
    | ok etag => exact fun vouched segment => still segment (lasting vouched segment)
  | loadBlock height =>
    cases answer with
    | none => exact trivial
    | some block => exact lasting
  | _ => exact trivial

theorem Orderly.lasting {codec : Codec} {op : Op} {s s' : ObjectStore contentOf} {answer : op.Res}
    (taken : Orderly codec blocks occurs op s answer s') : Lasting codec blocks occurs s' ⟨op, answer⟩ := by
  obtain ⟨effect, -, reads⟩ := taken
  cases op with
  | get key =>
    cases answer with
    | error err => exact trivial
    | ok data =>
      obtain ⟨same, found⟩ := effect
      exact ⟨reads, fun _ => same ▸ found⟩
  | putIfAbsentReturningETag key data =>
    cases answer with
    | error err => exact trivial
    | ok etag =>
      obtain ⟨-, object, ⟨-, vouches⟩, written⟩ := effect
      intro vouched _
      refine ⟨object.revision, ?_⟩
      rw [show s'.objects = _ from written, Function.update_self, ← vouches vouched]
  | loadBlock height =>
    cases answer with
    | none => exact trivial
    | some block => exact reads
  | _ => exact trivial

section Segments

variable {s s' : ObjectStore contentOf} {history : History} {segment : SegmentManifest} {chainID : String}
  {first last : Int}

theorem DecodesTo.keeps {records : List BlockRecord} (decodes : DecodesTo host s segment records)
    (keeps : KeepsSegments s s') : DecodesTo host s' segment records := by
  obtain ⟨object, found, decoded⟩ := decodes
  have magic := (decodeSegmentRecords_spec host.codec decoded).1.magic
  exact ⟨object, keeps _ object found magic, decoded⟩

theorem Readable.keeps (readable : Readable host s segment) (keeps : KeepsSegments s s') : Readable host s' segment := by
  obtain ⟨records, decodes⟩ := readable.decodesTo
  obtain ⟨object, found, decoded⟩ := decodes.keeps keeps
  exact ⟨object, records, found, decoded⟩

theorem Checked.readable (checked : Checked host history segment)
    (facts : ∀ entry ∈ history, Lasting host.codec blocks occurs s entry) : Readable host s segment := by
  obtain ⟨data, records, read, decoded⟩ := checked
  have magic := (decodeSegmentRecords_spec host.codec decoded).1.magic
  obtain ⟨revision, found⟩ := (facts _ read).2 magic
  exact ⟨⟨data, revision⟩, records, found, decoded⟩

theorem Trusted.accepts (trusted : Trusted host blocks occurs) {block : Block} {record : BlockRecord}
    (read : blocks block) (recorded : blockToRecord host.comet block = .ok record) :
    validateDecodedBlockRecord host.comet record = .ok () := by
  obtain ⟨data, marshalled, made⟩ := bind_eq_ok.mp recorded
  cases made
  obtain ⟨back, unmarshalled, hash, height⟩ := trusted.readBack block data read marshalled
  refine bind_eq_ok.mpr ⟨back, ?_, rfl⟩
  refine bind_eq_ok.mpr ⟨back, unmarshalled, ?_⟩
  refine then_eq_ok.mpr ⟨refuse_eq_ok.mpr (by simp [hash]), ?_⟩
  exact then_eq_ok.mpr ⟨refuse_eq_ok.mpr (by simp [height]), rfl⟩

theorem Built.readable (trusted : Trusted host blocks occurs) (valid : segment.Valid)
    (built : Built host chainID first last history segment)
    (facts : ∀ entry ∈ history, Lasting host.codec blocks occurs s entry) : Readable host s segment := by
  obtain ⟨records, data, encodes, stored, read⟩ := built
  have sources : ∀ record ∈ records, ∃ block, blocks block ∧ blockToRecord host.comet block = .ok record := by
    intro record member
    obtain ⟨height, block, -, -, loaded, -, recorded⟩ := read record member
    exact ⟨block, facts _ loaded, recorded⟩
  have found : ∃ revision, s.objects segment.key = some ⟨data, revision⟩ := by
    rcases stored with ⟨current, got, -, digest⟩ | ⟨etag, put, vouched⟩
    · -- what was read back has the digest of the data, so it is the data
      obtain ⟨occurred, there⟩ := facts _ got
      rw [encodes.sha256] at digest
      have same := trusted.collisionFree _ _ occurred (trusted.encoded _ _ _ encodes sources)
        (hexEncode_injective digest)
      subst same
      exact there encodes.isSegment
    · exact facts _ put vouched encodes.isSegment
  obtain ⟨revision, found⟩ := found
  refine ⟨⟨data, revision⟩, records, found, ?_⟩
  apply Encodes.decode host.codec encodes trusted.inflates valid
  intro record member
  obtain ⟨block, loaded, recorded⟩ := sources record member
  exact trusted.accepts loaded recorded

end Segments

section Runs

variable {s s' : ObjectStore contentOf} {m : Site contentOf} {events : List SiteEvent}

def Sane (host : Host V) (key : String) (s : ObjectStore contentOf) : Prop :=
  s.objects key = none ∨ ∃ manifest, Intact host key s manifest

theorem Manifest.segments_of_content {a b : Manifest} (same : a.content = b.content) : a.segments = b.segments :=
  (congrArg Manifest.segments same :)

theorem Replaces.intact {history : History} {data : Bytes} {revision newRevision : String}
    (trusted : Trusted host blocks occurs) (hasStore : host.hasStore = true)
    (replaces : Replaces host key history data revision) (revised : ∀ entry ∈ history, Revised contentOf entry)
    (facts : ∀ entry ∈ history, Lasting host.codec blocks occurs s entry) (sane : Sane host key s)
    (matched : s.revision key = revision) (keeps : KeepsSegments s s')
    (written : s'.objects key = some ⟨data, newRevision⟩) : Sane host key s' := by
  have replaced := replaces.current revised matched
  obtain ⟨chainID, before, after, published, -, -, segments⟩ := replaces
  -- the segments the old manifest lists are those of the manifest in the store
  have old : ∀ segment ∈ before.segments, Readable host s segment := by
    have based := published.based
    rcases replaced with ⟨missing, -⟩ | ⟨stored, seen, seenOld, present⟩
    · rw [missing] at based
      simp [based.2.2]
    · rw [seenOld] at based
      obtain ⟨-, -, read, parsed, content⟩ := based
      rcases sane with absent | ⟨manifest, intact⟩
      · rw [absent] at present
        cases present
      · obtain ⟨object, reread, found, -, parsedAgain, rfl⟩ := intact.loads.stored
        cases present.symm.trans found
        cases parsed.symm.trans parsedAgain
        rw [← Manifest.segments_of_content content]
        exact intact.readable
  have readable : ∀ segment ∈ after.segments, Readable host s' segment := by
    intro segment member
    refine Readable.keeps ?_ keeps
    rcases segments segment member with kept | ⟨first, last, built⟩ | checked
    · exact old segment kept
    · exact built.readable trusted (published.validAfter.segments segment member) facts
    · exact checked.readable facts
  obtain ⟨read, parsed, content⟩ := published.encoded
  refine .inr ⟨{ read with revision := newRevision, sourceKey := key }, ⟨published.named, hasStore, ?_, ?_⟩, ?_⟩
  · exact ⟨_, read, written, published.fits, parsed, rfl⟩
  · exact published.validAfter.of_content content
  · change ∀ segment ∈ read.segments, _
    rw [Manifest.segments_of_content content]
    exact readable

def TidyFleet (host : Host V) (key : String) (events : List SiteEvent) : Prop :=
  ∀ id p, .spawn id p ∈ events → ∃ job : Job, job.key = key ∧ ¬ job.Uploads key ∧ p = job.program host

theorem orderly_keeps (trusted : Trusted host blocks occurs) (hasStore : host.hasStore = true) :
    Keeps (@Orderly contentOf host.codec blocks occurs) (Sane host key)
      (fun s entry => Revised contentOf entry ∧ Lasting host.codec blocks occurs s entry)
      (May key (fun other _ => other ≠ key) (Replaces host key)) := by
  -- one call of any job keeps the archive intact
  intro history op s answer s' sane facts may taken
  refine ⟨?_, fun entry fact => ⟨fact.1, fact.2.keeps taken.2.1⟩, taken.1.revised, taken.lasting⟩
  have kept (same : s'.objects key = s.objects key) : Sane host key s' := by
    rcases sane with absent | ⟨manifest, ⟨named, store, stored, valid⟩, readable⟩
    · exact .inl (same.trans absent)
    · refine .inr ⟨manifest, ⟨named, store, same ▸ stored, valid⟩, ?_⟩
      exact fun segment member => (readable segment member).keeps taken.2.1
  rcases taken.1.touch key with same | ⟨-, data, rfl | rfl⟩ | ⟨data, revision, newRevision, rfl, matched, written⟩
  · exact kept same
  · exact absurd rfl may.2
  · exact absurd rfl may.2
  · exact (may.2 rfl).intact trusted hasStore (fun entry member => (facts entry member).1)
      (fun entry member => (facts entry member).2) sane matched taken.2.1 written

theorem TidyFleet.sane (trusted : Trusted host blocks occurs) (hasStore : host.hasStore = true)
    (fleet : TidyFleet host key events) {start : ObjectStore contentOf} (sane : Sane host key start)
    (run : Run (Step (Orderly host.codec blocks occurs) noEnv) (.idle start) events m) : Sane host key m.shared := by
  have follows : ∀ id p, .spawn id p ∈ events → p.All (May key (fun other _ => other ≠ key) (Replaces host key))
      (fun later result => result = .ok () → known key later ≠ .refused) [] := by
    intro id p spawned
    obtain ⟨job, named, apart, rfl⟩ := fleet id p spawned
    refine job.follows trusted.json named ?_
    rintro other data uploads - rfl
    exact apart uploads
  refine (Programs.Run.sound (orderly_keeps trusted hasStore) ?_ run follows (Machine.idle_sound sane)).inv
  intro s label
  cases label

end Runs

/-- At every point of any run of jobs on one manifest key, whether they fail, are killed or store other
bytes than they meant to, there is no manifest or a full verification of it succeeds. -/
theorem archive_integrity {start : ObjectStore contentOf} {m : Site contentOf} {events : List SiteEvent}
    (trusted : Trusted host blocks occurs) (hasStore : host.hasStore = true) (fleet : TidyFleet host key events)
    (initially : start.objects key = none ∨
      ∃ result, (verify host { manifestKey := key, sampleEvery := 0 }).Returns (Faithful start) result)
    (run : Run (Step (Orderly host.codec blocks occurs) noEnv) (.idle start) events m) :
    m.shared.objects key = none ∨ ∃ manifest, Loads host key m.shared manifest ∧
      (verify host { manifestKey := key, sampleEvery := 0 }).Sure (Faithful m.shared)
        (fun result => result.manifest = manifest) ∧
      ∀ segment ∈ manifest.segments, ∃ object records, m.shared.objects segment.key = some object ∧
        decodeSegment host.codec host.comet object.data segment = .ok records ∧
        Decodes host.codec object.data segment records := by
  have sane : Sane host key start := by
    rcases initially with absent | ⟨result, verified⟩
    · exact .inl absent
    · exact .inr ⟨result.manifest, verify_returns rfl (returns_truthful verified)⟩
  rcases fleet.sane trusted hasStore sane run with absent | ⟨manifest, intact⟩
  · exact .inl absent
  · refine .inr ⟨manifest, intact.loads, ?_, ?_⟩
    · apply Intact.sure trusted.json rfl
      exact intact
    · intro segment member
      obtain ⟨object, records, found, decoded⟩ := intact.readable segment member
      exact ⟨object, records, found, decoded, (decodeSegmentRecords_spec host.codec decoded).1⟩

section Sample

theorem sampleCodec_injective : Function.Injective sampleCodec.sha256 := by
  intro a b same
  simp only [sampleCodec] at same
  split at same
  next first =>
    split at same
    next second => exact first.trans second.symm
    next => cases same
  next =>
    split at same
    next => cases same
    next => exact List.tail_eq_of_cons_eq same

theorem sampleHost_trusted : Trusted sampleHost (· = sampleBlock) fun _ => True where
  json := sampleHost_lawful
  inflates := fun _ => rfl
  readBack := by
    rintro _ _ rfl ⟨⟩
    exact ⟨_, rfl, rfl, rfl⟩
  encoded := fun _ _ _ _ _ => trivial
  collisionFree := fun a b _ _ same => sampleCodec_injective same

theorem serve_orderly (op : Op) (s : ObjectStore spelledContent) :
    Orderly sampleCodec (· = sampleBlock) (fun _ => True) op s (serve sampleCodec sampleSource op s).1
      (serve sampleCodec sampleSource op s).2 := by
  refine ⟨serve_effect (fun _ => trivial) op s, serve_keepsSegments op s, ?_⟩
  cases op with
  | get key => cases found : s.objects key <;> simp [serve, Reads, found]
  | loadBlock height =>
    by_cases first : height = 1
    · simp [serve, Reads, sampleSource, first]
    · simp [serve, Reads, sampleSource, first]
  | _ => exact trivial

theorem sampleStore_orderly (manifestKey : String) (n : Nat) :
    ∃ events procs, (∀ id p, .spawn id p ∈ events → p = (sampleJob manifestKey).program sampleHost) ∧
      Run (Step (Orderly sampleCodec (· = sampleBlock) fun _ => True) noEnv) (.idle .empty) events
        ⟨sampleStore manifestKey n, procs⟩ :=
  Run.alone serve_orderly n ((sampleJob manifestKey).program sampleHost) ObjectStore.empty

theorem sampleJob_tidy {events : List SiteEvent}
    (only : ∀ id p, .spawn id p ∈ events → p = (sampleJob "").program sampleHost) :
    TidyFleet sampleHost (sampleJob "").key events := by
  intro id p spawned
  refine ⟨sampleJob "", rfl, ?_, only id p spawned⟩
  rintro ⟨firstHeight, lastHeight, sha256, same⟩
  exact segmentKey_ne_manifestKey _ _ _ _ _ _ same.symm

theorem archive_integrity_sample : ∃ (events : List SiteEvent) (m : Site spelledContent),
    TidyFleet sampleHost (sampleJob "").key events ∧
      Run (Step (Orderly sampleCodec (· = sampleBlock) fun _ => True) noEnv) (.idle .empty) events m ∧
      manifestAt sampleHost (sampleJob "").key m.shared = some sampleManifest ∧
      ∃ manifest, (verify sampleHost { manifestKey := (sampleJob "").key, sampleEvery := 0 }).Sure (Faithful m.shared)
        fun result => result.manifest = manifest := by
  obtain ⟨events, procs, only, run⟩ := sampleStore_orderly "" 30
  have fleet := sampleJob_tidy only
  have stored := sampleStore_manifest
  have intact := archive_integrity sampleHost_trusted rfl fleet (.inl rfl) run
  generalize sampleStore "" 30 = store at run intact stored
  refine ⟨events, ⟨store, procs⟩, fleet, run, stored, ?_⟩
  rcases intact with absent | ⟨manifest, -, verified, -⟩
  · change store.objects _ = none at absent
    rw [manifestAt, absent] at stored
    cases stored
  · exact ⟨manifest, verified⟩

theorem sampleStore_intact : ∃ (store : ObjectStore spelledContent) (manifest : Manifest),
    Intact sampleHost (sampleJob "").key store manifest := by
  obtain ⟨events, procs, only, run⟩ := sampleStore_orderly "" 30
  have stored := sampleStore_manifest
  have sane := (sampleJob_tidy only).sane sampleHost_trusted rfl (.inl rfl) run
  generalize sampleStore "" 30 = store at sane stored
  rcases sane with absent | ⟨manifest, intact⟩
  · change store.objects _ = none at absent
    rw [manifestAt, absent] at stored
    cases stored
  · exact ⟨store, manifest, intact⟩

theorem sampleStore_segment : ((sampleStore sampleSegment.key 30).objects sampleSegment.key).map (·.data) = some sampleData := by
  decide +kernel

/-- Under a manifest key that is also the key of a segment, the segment is stored where the manifest should be. -/
theorem segment_at_manifest_key : ∃ (events : List SiteEvent) (m : Site spelledContent),
    Fleet sampleHost sampleSegment.key events ∧
      Run (Step (Orderly sampleCodec (· = sampleBlock) fun _ => True) noEnv) (.idle .empty) events m ∧
      Trusted sampleHost (· = sampleBlock) (fun _ => True) ∧
      m.shared.objects sampleSegment.key ≠ none ∧
      ¬ ∃ result, (verify sampleHost { manifestKey := sampleSegment.key, sampleEvery := 0 }).Returns (Faithful m.shared)
        result := by
  obtain ⟨events, procs, only, run⟩ := sampleStore_orderly sampleSegment.key 30
  have stored := sampleStore_segment
  have named : (sampleJob sampleSegment.key).key = sampleSegment.key := by decide +kernel
  have unread : sampleHost.json.unmarshalManifest sampleData = .error "invalid character" := by decide +kernel
  generalize sampleStore sampleSegment.key 30 = store at run stored
  generalize sampleSegment.key = key at *
  obtain ⟨object, found, data⟩ := Option.map_eq_some_iff.mp stored
  refine ⟨events, ⟨store, procs⟩, ?_, run, sampleHost_trusted, ?_, ?_⟩
  · exact fun id p spawned => ⟨sampleJob key, named, only id p spawned⟩
  · simp [found]
  · rintro ⟨result, verified⟩
    obtain ⟨other, read, there, -, parsed, -⟩ := (verify_returns rfl (returns_truthful verified)).loads.stored
    cases found.symm.trans there
    rw [data, unread] at parsed
    cases parsed

end Sample

end CometArchive.Archive
