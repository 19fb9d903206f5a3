import CometArchive.Archive.MigratePublish

set_option autoImplicit false

namespace CometArchive.Archive

open GoBytes GoError Programs Programs.Fallible

variable {V : Type} (host : Host V)

structure Setup where
  hasReader : Bool
  hasStore : Bool
  returnsETag : Bool
  bounded : Bool

def Setup.on (setup : Setup) : Host V :=
  { host with
    hasReader := setup.hasReader
    hasStore := setup.hasStore
    returnsETag := setup.returnsETag
    bounded := setup.bounded }

inductive Job where
  | archiveReady (setup : Setup) (opts : LiveArchiveOptions)
  | archiveReadyFromHead (setup : Setup) (opts : LiveArchiveOptions) (safetyWindow : Int)
  | migrate (setup : Setup) (opts : MigrationOptions)

def Job.key : Job → String
  | .archiveReady _ opts => chosenManifestKey opts.keyPrefix opts.chainID opts.manifestName opts.manifestKey
  | .archiveReadyFromHead _ opts _ => chosenManifestKey opts.keyPrefix opts.chainID opts.manifestName opts.manifestKey
  | .migrate _ opts => chosenManifestKey opts.keyPrefix opts.chainID opts.manifestName opts.manifestKey

def Job.Uploads : Job → String → Prop
  -- where the job uploads segments
  | .archiveReady _ opts => SegmentKeys opts.keyPrefix opts.chainID
  | .archiveReadyFromHead _ opts _ => SegmentKeys opts.keyPrefix opts.chainID
  | .migrate _ opts => SegmentKeys opts.keyPrefix opts.chainID

def Job.program : Job → Prog Op Op.Res (Except Err Unit)
  | .archiveReady setup opts => (do let _ ← Archive.archiveReady (setup.on host) opts : M Unit).run
  | .archiveReadyFromHead setup opts safetyWindow =>
    (do let _ ← Archive.archiveReadyFromHead (setup.on host) opts safetyWindow : M Unit).run
  | .migrate setup opts => (do let _ ← Archive.migrate (setup.on host) opts : M Unit).run

/-- A manifest may replace another one of its chain if it starts where that one starts and reaches as
far, and if its new segments were uploaded or looked at. -/
def Replaces (key : String) (history : History) (data : Bytes) (revision : String) : Prop :=
  ∃ chainID before after, Publishes host key chainID history data revision before after ∧
    (before.segments ≠ [] → after.firstHeight = before.firstHeight ∧ before.lastHeight ≤ after.lastHeight) ∧
    after.segments ≠ [] ∧
    ∀ segment ∈ after.segments, segment ∈ before.segments ∨
      (∃ first last, Built host chainID first last history segment) ∨ Checked host history segment

variable {host} {key chainID : String} {history : History} {data : Bytes} {revision : String}

theorem Publishes.of_setup {setup : Setup} {before after : Manifest}
    (publishes : Publishes (setup.on host) key chainID history data revision before after) :
    Publishes host key chainID history data revision before after where
  based := publishes.based
  valid := publishes.valid
  chain := publishes.chain
  revision := publishes.revision
  validAfter := publishes.validAfter
  chainAfter := publishes.chainAfter
  encoded := publishes.encoded
  fits := publishes.fits
  named := publishes.named

theorem Manifest.Valid.last_le_append {before after : Manifest} {segment : SegmentManifest} (valid : before.Valid)
    (validAfter : after.Valid) (segments : after.segments = before.segments ++ [segment]) (filled : before.segments ≠ []) :
    before.lastHeight ≤ after.lastHeight := by
  rcases valid.range with ⟨empty, -⟩ | ⟨-, -, -, tiles⟩
  · exact absurd empty filled
  rcases validAfter.range with ⟨empty, -⟩ | ⟨-, -, -, tilesAfter⟩
  · rw [segments] at empty
    simp at empty
  -- the last of the old segments ends at the old last height
  obtain ⟨last, isLast⟩ := Option.isSome_iff_exists.mp (List.getLast?_isSome.mpr filled)
  have reached := tiles.getLast isLast
  have inside : last ∈ after.segments := by
    rw [segments]
    exact List.mem_append_left _ (List.mem_of_getLast? isLast)
  have bound := (tilesAfter.bounds validAfter.segments).2 last inside
  omega

theorem LivePublishes.replaces {setup : Setup}
    (publishes : LivePublishes (setup.on host) key chainID history data revision) :
    Replaces host key history data revision := by
  obtain ⟨before, after, segment, first, last, published, segments, start, built, -⟩ := publishes
  refine ⟨chainID, before, after, published.of_setup, ?_, by simp [segments], ?_⟩
  · intro filled
    exact ⟨start filled, published.valid.last_le_append published.validAfter segments filled⟩
  · intro other member
    rw [segments] at member
    rcases List.mem_append.mp member with old | new
    · exact .inl old
    · cases List.mem_singleton.mp new
      exact .inr (.inl ⟨first, last, built⟩)

theorem MigratePublishes.replaces {setup : Setup}
    (publishes : MigratePublishes (setup.on host) key chainID history data revision) :
    Replaces host key history data revision := by
  obtain ⟨before, after, published, range, filled, checked⟩ := publishes
  refine ⟨chainID, before, after, published.of_setup, ?_, filled, fun segment member => .inr (.inr (checked segment member))⟩
  intro filled
  have same := range.resolve_left filled
  exact ⟨same.1, by omega⟩

theorem Job.follows {job : Job} {uploads : String → Bytes → Prop} (json : host.json.Lawful) (named : job.key = key)
    (allowed : ∀ other data, job.Uploads other → IsSegment data → uploads other data) :
    (job.program host).All (May key uploads (Replaces host key))
      (fun later result => result = .ok () → known key later ≠ .refused) [] := by
  have start : known key [] ≠ .refused := by simp [known]
  have relax {publishes : History → Bytes → String → Prop} {p : M Unit}
      (replaces : ∀ {history data revision}, publishes history data revision → Replaces host key history data revision)
      (ok : p.Ok (May key uploads publishes) (fun _ _ => True) (fun later _ => known key later ≠ .refused) []) :
      p.run.All (May key uploads (Replaces host key))
        (fun later result => result = .ok () → known key later ≠ .refused) [] := by
    refine Prog.All.weaken (Prog.All.mono ok.all ?_) ?_
    · rintro later result ended rfl
      exact ended
    · rintro later op ⟨clean, rule⟩
      refine ⟨clean, ?_⟩
      cases op with
      | compareAndSwap other data revision => exact fun same => replaces (rule same)
      | _ => exact rule
  cases job with
  | archiveReady setup opts =>
    exact relax LivePublishes.replaces (Ok.bind (Ok.mono (archiveReady_ok json named rfl allowed start)
      (fun _ _ _ => trivial) fun _ _ ended => Ok.pure ended))
  | archiveReadyFromHead setup opts safetyWindow =>
    exact relax LivePublishes.replaces (Ok.bind (Ok.mono (archiveReadyFromHead_ok json named rfl allowed start)
      (fun _ _ _ => trivial) fun _ _ ended => Ok.pure ended))
  | migrate setup opts =>
    exact relax MigratePublishes.replaces (Ok.bind (Ok.mono (migrate_ok json named allowed start)
      (fun _ _ _ => trivial) fun _ _ ended => Ok.pure ended))

section Sample

def Json.only (one : Manifest) : Json where
  marshalManifest m := if m.content = one.content then .ok [123, 125] else .error "unsupported value"
  unmarshalManifest data := if data = [123, 125, 10] then .ok one else .error "invalid character"
  marshalState _ := .error "unsupported value"
  unmarshalState _ := .error "invalid character"
  marshalSegment _ := .ok []

theorem Json.only_lawful (one : Manifest) : (Json.only one).Lawful where
  manifest := by
    intro m data _ marshalled
    simp only [Json.only] at marshalled
    split at marshalled
    next same =>
      cases marshalled
      exact ⟨one, rfl, same.symm⟩
    next => cases marshalled
  segment := fun _ => ⟨[], rfl⟩

def sampleComet : Comet Unit := { Comet.plain with unmarshalBlock := fun data => .ok (Block.plain 1 [] data) }

def sampleBlock : Block := Block.plain 1 [] (List.replicate 32 7)

def sampleRecord : BlockRecord := { height := 1, hash := hexEncode sampleBlock.body, bytes := sampleBlock.body }

def sampleData : Bytes := segmentMagic ++ recordBytes sampleRecord

-- the digest of the one segment has the length of a digest
def sampleCodec : Codec :=
  { Codec.plain with sha256 := fun data => if data = sampleData then List.replicate 32 0 else 1 :: data }

def sampleSegment : SegmentManifest where
  key := segmentKey "" "c" 1 1 (hexEncode (List.replicate 32 0))
  firstHeight := 1
  lastHeight := 1
  compression := compressionNone
  sizeBytes := sampleData.length
  sha256 := hexEncode (List.replicate 32 0)
  blocks := [{ height := 1, hash := sampleRecord.hash, offset := 0 }]

def sampleManifest : Manifest where
  revision := ""
  sourceKey := ""
  version := manifestVersion
  chainID := "c"
  firstHeight := 1
  lastHeight := 1
  createdAt := 0
  updatedAt := 0
  segments := [sampleSegment]

def sampleHost : Host Unit where
  comet := sampleComet
  codec := sampleCodec
  json := Json.only sampleManifest
  hasReader := true
  hasStore := true
  returnsETag := false
  bounded := false

theorem sampleHost_lawful : sampleHost.json.Lawful := Json.only_lawful sampleManifest

def sampleSource : Source where
  base := 1
  height := 1
  block height := if height = 1 then some sampleBlock else none
  limit := 1

def liveOptions : LiveArchiveOptions :=
  { chainID := "c", keyPrefix := "", manifestName := "", manifestKey := "m", startHeight := 0, readyHeight := 1
    segmentBlocks := 1, compression := compressionNone }

def sampleJob (manifestKey : String) : Job :=
  .archiveReady { hasReader := true, hasStore := true, returnsETag := false, bounded := false }
    { chainID := "c", keyPrefix := "", manifestName := "", manifestKey, startHeight := 1, readyHeight := 1
      segmentBlocks := 1, compression := compressionNone }

def ObjectStore.empty : ObjectStore spelledContent := ⟨fun _ => none, by simp⟩

def sampleStore (manifestKey : String) (n : Nat) : ObjectStore spelledContent :=
  (drive (serve sampleCodec sampleSource) n ⟨(sampleJob manifestKey).program sampleHost, []⟩ .empty).2

end Sample

end CometArchive.Archive
