import CometArchive.Archive.Incremental
import CometArchive.Archive.PruneBounds
import CometArchive.Shared.Linked

set_option autoImplicit false

namespace CometArchive.Archive

open GoBytes GoError Programs Programs.Fallible Runs Linked

variable {V : Type} {host : Host V} {contentOf : String → Bytes} {s : ObjectStore contentOf} {key : String}
  {verified : VerifiedCache} {history : History}

structure Snapshot (host : Host V) (key : String) (verified : VerifiedCache) (history : History) (m : Manifest) :
    Prop where
  -- the history holds a verification of the manifest, which may have skipped what is in the cache
  named : validateObjectKey key = .ok ()
  store : host.hasStore = true
  valid : m.Valid
  loaded : ∃ data read revision, ⟨.getVersioned key, .ok (data, revision)⟩ ∈ history ∧
    (data.length : Int) ≤ maxManifestBytes ∧ host.json.unmarshalManifest data = .ok read ∧
    m = { read with revision, sourceKey := key }
  segments : ∀ segment ∈ m.segments, Cached host verified segment ∨ Checked host history segment

def Reading : Op → Prop
  | .putIfAbsent _ _ => False
  | .putIfAbsentReturningETag _ _ => False
  | .compareAndSwap _ _ _ => False
  | .pruneHotStore _ _ => False
  | _ => True

/-- The rules of a prune: it reads, and deletes once, by a manifest that it has verified. -/
def PruneMay (host : Host V) (verified : VerifiedCache) (opts : PruneHotOptions) (history : History) : Op → Prop
  | .pruneHotStore m chosen => chosen = opts ∧ Snapshot host opts.manifestKey verified history m ∧
      ∀ entry ∈ history, Reading entry.1
  | op => Reading op

section Rules

variable {opts : PruneHotOptions}

theorem verifySegment_ok {first : Int} {segment : SegmentManifest} :
    (verifySegment host first 0 segment).Ok (fun _ op => Reading op) (fun _ _ => True)
      (fun later _ => Checked host later segment) history := by
  unfold verifySegment
  refine Ok.bind (Ok.mapErr (Ok.attempt trivial (fun _ _ _ => trivial) fun _ _ _ => ?_))
  refine Ok.check (fun _ _ => trivial) fun _ _ => ?_
  refine Ok.bind (Ok.mapErr (Ok.attempt trivial (fun _ _ _ => trivial) ?_))
  rintro answer data rfl
  rw [if_pos le_rfl]
  refine Ok.check (fun _ _ => trivial) fun records decoded => ?_
  exact Ok.pure ⟨data, records, mem_snoc .., wrapping_eq_ok.mp decoded⟩

theorem loadManifest_reads :
    (loadManifest host key).Ok (fun _ op => Reading op) (fun _ _ => True)
      (fun later m => validateObjectKey key = .ok () ∧ host.hasStore = true ∧ m.Valid ∧
        ∃ data read revision, ⟨.getVersioned key, .ok (data, revision)⟩ ∈ later ∧
          (data.length : Int) ≤ maxManifestBytes ∧ host.json.unmarshalManifest data = .ok read ∧
          m = { read with revision, sourceKey := key }) history := by
  unfold loadManifest
  refine Ok.check (fun _ _ => trivial) fun _ named => ?_
  refine Ok.check (fun _ _ => trivial) fun _ store => ?_
  refine Ok.bind (Ok.attempt trivial (fun _ _ _ => trivial) ?_)
  rintro answer ⟨data, revision⟩ rfl
  refine Ok.check (fun _ _ => trivial) fun _ small => ?_
  refine Ok.check (fun _ _ => trivial) fun read parsed => ?_
  refine Ok.check (fun _ _ => trivial) fun _ valid => ?_
  apply Ok.pure
  rw [refuse_eq_ok] at small store
  exact ⟨wrapping_eq_ok.mp named, by simpa using store, Manifest.validate_eq_ok.mp valid, data, read, revision, mem_snoc ..,
    by omega, textual_eq_ok.mp parsed, rfl⟩

theorem verifyArchive_snapshot :
    (verifyArchive host { manifestKey := key, sampleEvery := 0 } verified).Ok (fun _ op => Reading op)
      (fun _ _ => True) (fun later returned => Snapshot host key verified later returned.1.manifest) history := by
  unfold verifyArchive
  refine Ok.check (fun _ _ => trivial) fun _ _ => ?_
  refine Ok.check (fun _ _ => trivial) fun _ _ => ?_
  refine Ok.check (fun _ _ => trivial) fun _ _ => ?_
  refine Ok.bind (Ok.mapErr (Ok.mono loadManifest_reads (fun _ _ _ => trivial) ?_))
  rintro read manifest ⟨named, store, valid, data, text, revision, entry, small, parsed, same⟩
  have snapshot : ∀ later, read ⊆ later →
      (∀ segment ∈ manifest.segments, Cached host verified segment ∨ Checked host later segment) →
      Snapshot host key verified later manifest := fun later grown segments =>
    ⟨named, store, valid, ⟨data, text, revision, grown entry, small, parsed, same⟩, segments⟩
  refine Ok.bind (Ok.attempt trivial (fun _ _ _ => trivial) fun _ _ _ => ?_)
  split
  next empty =>
    apply Ok.pure
    exact snapshot _ (List.subset_append_left ..) (by simp [empty])
  next =>
    refine Ok.check (fun _ _ => trivial) ?_
    rintro ⟨pending, fingerprints⟩ asked
    have skipped := (pendingSegments_spec asked).1
    refine Ok.bind (Ok.mono (Ok.grows (runPool_ok (Checked host) Checked.mono (fun segment _ => verifySegment_ok)
      (fun _ => trivial) trivial rfl)) (fun _ _ _ => trivial) ?_)
    rintro later counts ⟨checked, grown⟩
    refine Ok.bind (Ok.attempt trivial (fun _ _ _ => trivial) fun _ _ _ => ?_)
    apply Ok.pure
    refine snapshot _ ?_ ?_
    · exact fun _ member => List.mem_append_left _ (grown (List.mem_append_left _ member))
    · intro segment member
      by_cases seen : Cached host verified segment
      · exact .inl seen
      · exact .inr ((checked segment ((skipped segment).mpr ⟨member, seen⟩)).mono (List.subset_append_left ..))

theorem Reading.prune {op : Op} (reading : Reading op) : PruneMay host verified opts history op := by
  cases op with
  | pruneHotStore m chosen => exact reading.elim
  | _ => exact reading

end Rules

inductive PruneJob where
  -- the command, and the prune of the maintenance loop with the cache of its verifier
  | pruneVerifiedHotStore (hasHotStore : Bool)
  | runLivePrune (verified : VerifiedCache)

def PruneJob.cache : PruneJob → VerifiedCache
  | .pruneVerifiedHotStore _ => ∅
  | .runLivePrune verified => verified

def PruneJob.program (host : Host V) (opts : PruneHotOptions) : PruneJob → Prog Op Op.Res (Except Err PruneHotResult)
  | .pruneVerifiedHotStore hasHotStore => (Archive.pruneVerifiedHotStore host hasHotStore opts).run
  | .runLivePrune verified => do
    let (_, result) ← Archive.runLivePrune host opts verified
    return result

theorem PruneJob.follows (job : PruneJob) (opts : PruneHotOptions) :
    (job.program host opts).All (PruneMay host job.cache opts) (fun _ _ => True) [] := by
  have verifies : ∀ verified, (verifyArchive host { manifestKey := opts.manifestKey, sampleEvery := 0 } verified).Ok
      (PruneMay host verified opts) (fun _ _ => True)
      (fun later returned => Snapshot host opts.manifestKey verified later returned.1.manifest ∧
        ∀ entry ∈ later, Reading entry.1) [] := by
    intro verified
    refine Ok.mono (Ok.carry (fun later => ∀ entry ∈ later, Reading entry.1) verifyArchive_snapshot (by simp) ?_
      fun _ _ _ reading => reading.prune) (fun _ _ _ => trivial) fun _ _ holds => holds
    intro later op answer kept reading entry member
    rcases List.mem_append.mp member with old | new
    · exact kept entry old
    · cases List.mem_singleton.mp new
      exact reading
  cases job with
  | pruneVerifiedHotStore hasHotStore =>
    have ok : (Archive.pruneVerifiedHotStore host hasHotStore opts).Ok (PruneMay host ∅ opts) (fun _ _ => True)
        (fun _ _ => True) [] := by
      unfold Archive.pruneVerifiedHotStore
      refine Ok.check (fun _ _ => trivial) fun _ _ => ?_
      refine Ok.check (fun _ _ => trivial) fun _ _ => ?_
      refine Ok.check (fun _ _ => trivial) fun _ _ => ?_
      refine Ok.check (fun _ _ => trivial) fun _ _ => ?_
      refine Ok.bind (Ok.mapErr ?_)
      unfold verify
      refine Ok.bind (Ok.mono (verifies ∅) (fun _ _ _ => trivial) ?_)
      rintro later ⟨result, after⟩ snapshot
      apply Ok.pure
      refine Ok.check (fun _ _ => trivial) fun _ _ => ?_
      exact Ok.attempt ⟨rfl, snapshot⟩ (fun _ _ _ => trivial) fun _ _ _ => trivial
    exact Prog.All.mono ok.all fun _ _ _ => trivial
  | runLivePrune verified =>
    refine Prog.All.bind (Prog.All.mono (?_ : (Archive.runLivePrune host opts verified).All
      (PruneMay host verified opts) (fun _ _ => True) []) fun _ _ _ => trivial)
    unfold Archive.runLivePrune
    refine Prog.All.bind (Prog.All.mono (verifies verified).all ?_)
    intro later checked holds
    cases checked with
    | error err =>
      dsimp only
      split
      · trivial
      · trivial
    | ok returned =>
      obtain ⟨result, after⟩ := returned
      dsimp only
      split
      · trivial
      · exact ⟨⟨rfl, holds⟩, fun _ => trivial⟩

/-- The cache of the maintenance loop's verifier comes from its verifications, and no two of the descriptors it
was shown have the same fingerprint. -/
def PruneJob.Watched (host : Host V) (key : String) (s : ObjectStore contentOf) : PruneJob → Prop
  | .pruneVerifiedHotStore _ => True
  | .runLivePrune verified => ∃ (start : ObjectStore contentOf) (events : List WatchEvent)
      (described : SegmentManifest → Prop), Fingerprinted host described ∧ Describes host key described start ∧
      Run (WatchStep host key described) ⟨start, ∅⟩ events ⟨s, verified⟩

def PruneEffect (host : Host V) (s : ObjectStore contentOf) : (op : Op) → BlockStore → op.Res → BlockStore → Prop
  | .pruneHotStore m opts, hot, answer, hot' =>
    ∃ ctx fault, (answer, hot') = keepOnError hot (pruneHotStore host.comet hot m opts ctx fault)
  | op, hot, answer, hot' => Truthful s op answer ∧ hot' = hot

def archivedBlock (host : Host V) (s : ObjectStore contentOf) (m : Manifest) (height : Int) : Option Block := do
  let segment ← m.segments.find? fun segment => segment.firstHeight ≤ height ∧ height ≤ segment.lastHeight
  let object ← s.objects segment.key
  (decodeSegmentBlock host.codec host.comet object.data segment height).toOption

abbrev HashLinked (comet : Comet V) (blocks : Int → Option Block) (low : Int) : Prop :=
  LinkedBy (fun upper lower => upper.lastBlockID.hash = comet.blockHash lower) blocks low

section Deleted

variable {opts : PruneHotOptions} {hot hot' : BlockStore} {m : Manifest} {height : Int} {job : PruneJob}

theorem Intact.archivedBlock (intact : Intact host key s m) (positive : 0 < m.firstHeight) (low : m.firstHeight ≤ height)
    (high : height ≤ m.lastHeight) :
    ∃ block, archivedBlock host s m height = some block ∧ m.Names host.comet height block := by
  obtain ⟨hash, segment, member, indexed⟩ := intact.loads.valid.exists_index positive low high
  have bounds := (intact.loads.valid.segments segment member).bounds indexed
  cases found : m.segments.find? fun segment => segment.firstHeight ≤ height ∧ height ≤ segment.lastHeight with
  | none =>
    have missing := List.find?_eq_none.mp found segment member
    simp only [decide_eq_true_eq] at missing
    omega
  | some other =>
    have inside := List.find?_some found
    simp only [decide_eq_true_eq] at inside
    obtain ⟨object, block, stored, decoded, names⟩ :=
      intact.decodes_block (List.mem_of_find?_eq_some found) inside.1 inside.2
    refine ⟨block, ?_, names⟩
    rw [Archive.archivedBlock, found]
    change (s.objects other.key >>= _) = _
    rw [stored]
    change (decodeSegmentBlock host.codec host.comet object.data other height).toOption = _
    rw [decoded]
    rfl

theorem Intact.hash_archivedBlock {block : Block} {hash : Bytes} (intact : Intact host key s m)
    (found : Archive.archivedBlock host s m height = some block) (indexed : m.Indexes height hash) :
    hash = hexEncode (host.comet.blockHash block) := by
  -- the hash that the archive indexes for a block that it holds
  have bounds := intact.loads.valid.bounds indexed
  obtain ⟨other, again, -, names⟩ := intact.archivedBlock bounds.1 bounds.2.1 bounds.2.2
  cases found.symm.trans again
  exact intact.loads.valid.unique indexed names

theorem PruneJob.Watched.readable (watched : job.Watched host key s) (loads : Loads host key s m)
    {segment : SegmentManifest} (member : segment ∈ m.segments) (cached : Cached host job.cache segment) :
    Readable host s segment := by
  cases job with
  | pruneVerifiedHotStore hasHotStore =>
    obtain ⟨current, -, found⟩ := cached
    simp [PruneJob.cache] at found
  | runLivePrune verified =>
    obtain ⟨start, events, described, prints, describes, run⟩ := watched
    have sound := Watch.run_sound prints describes run
    exact (sound.skipped prints (sound.describes m loads segment member) cached).1

theorem Snapshot.intact (snapshot : Snapshot host key job.cache history m) (watched : job.Watched host key s)
    (facts : ∀ entry ∈ history, Truthful s entry.1 entry.2) : Intact host key s m := by
  obtain ⟨named, store, valid, ⟨data, read, revision, entry, small, parsed, same⟩, segments⟩ := snapshot
  have loads : Loads host key s m := ⟨named, store, ⟨⟨data, revision⟩, read, facts _ entry, small, parsed, same⟩, valid⟩
  refine ⟨loads, ?_⟩
  intro segment member
  rcases segments segment member with cached | ⟨data, records, entry, decoded⟩
  · exact watched.readable loads member cached
  · obtain ⟨revision, stored⟩ := facts _ entry
    exact ⟨_, records, stored, decoded⟩

theorem PruneJob.prunes {result : Except Err PruneHotResult} (watched : job.Watched host opts.manifestKey s)
    (led : (job.program host opts).Leads (PruneEffect host s) hot result hot') :
    hot' = hot ∨ ∃ m ctx fault pruned, Intact host opts.manifestKey s m ∧
      pruneHotStore host.comet hot m opts ctx fault = .ok (hot', pruned) := by
  -- a prune changes the hot store at most once, by a manifest that is in the store with all its segments
  let Inv (history : History) (now : BlockStore) : Prop :=
    (∀ entry ∈ history, Truthful s entry.1 entry.2) ∧ ((∀ entry ∈ history, Reading entry.1) → now = hot) ∧
      (now = hot ∨ ∃ m ctx fault pruned, Intact host opts.manifestKey s m ∧
        pruneHotStore host.comet hot m opts ctx fault = .ok (now, pruned))
  obtain ⟨later, ⟨-, -, holds⟩, -⟩ := Prog.All.leads Inv (job.follows opts) led ⟨by simp, fun _ => rfl, .inl rfl⟩ (by
    rintro history op now answer next ⟨facts, unchanged, holds⟩ allowed taken
    -- a call that reads leaves the hot store alone
    have reads : Truthful s op answer ∧ next = now → Inv (history ++ [⟨op, answer⟩]) next := by
      rintro ⟨truthful, rfl⟩
      refine ⟨?_, fun calm => unchanged fun entry member => calm entry (List.mem_append_left _ member), holds⟩
      intro entry member
      rcases List.mem_append.mp member with old | new
      · exact facts entry old
      · cases List.mem_singleton.mp new
        exact truthful
    cases op with
    | pruneHotStore m chosen =>
      obtain ⟨rfl, snapshot, calm⟩ := allowed
      obtain ⟨ctx, fault, ended⟩ := taken
      cases unchanged calm
      refine ⟨?_, ?_, ?_⟩
      · intro entry member
        rcases List.mem_append.mp member with old | new
        · exact facts entry old
        · cases List.mem_singleton.mp new
          trivial
      · intro impossible
        exact (impossible _ (mem_snoc ..)).elim
      · cases pruned : pruneHotStore host.comet hot m chosen ctx fault with
        | error err =>
          rw [pruned] at ended
          cases ended
          exact .inl rfl
        | ok returned =>
          rw [pruned] at ended
          cases ended
          exact .inr ⟨m, ctx, fault, _, snapshot.intact watched facts, pruned⟩
    | _ => exact reads taken)
  exact holds

/-- Every height that a prune deletes is in the verified archive. The block there is the one deleted at the
boundary, and below it where the hot blocks and the archived ones are chains. -/
theorem pruned_heights_archived {result : Except Err PruneHotResult} {block : Block}
    (watched : job.Watched host opts.manifestKey s)
    (led : (job.program host opts).Leads (PruneEffect host s) hot result hot') (present : hot.load height = some block)
    (deleted : hot'.load height = none) :
    ∃ m archived, Intact host opts.manifestKey s m ∧ archivedBlock host s m height = some archived ∧
      m.Names host.comet height archived ∧
      (height = hot'.base - 1 → host.comet.blockHash archived = host.comet.blockHash block) ∧
      (HashLinked host.comet hot.load hot.base → HashLinked host.comet (archivedBlock host s m) hot.base →
        (∀ a b, host.comet.blockHash a = host.comet.blockHash b → a.lastBlockID.hash = b.lastBlockID.hash) →
        host.comet.blockHash archived = host.comet.blockHash block) := by
  rcases PruneJob.prunes watched led with rfl | ⟨m, ctx, fault, pruned, intact, ended⟩
  · rw [present] at deleted
    cases deleted
  rcases pruneHotStore_spec ended with rfl | ⟨target, chainID, gone, above, within, -, first, boundary⟩
  · rw [present] at deleted
    cases deleted
  have valid := intact.loads.valid
  obtain ⟨-, -, below, filled, base, -, left⟩ := BlockStore.pruneBlocks_spec gone
  have bounds := BlockStore.bounds_of_load present
  have low : height < target := by
    by_contra high
    rw [left height, if_neg high, present] at deleted
    cases deleted
  have positive : 0 < m.firstHeight := by
    rcases valid.range with ⟨-, -, last⟩ | ⟨-, positive, -⟩
    · omega
    · exact positive
  obtain ⟨archived, found, names⟩ := intact.archivedBlock positive (by omega : m.firstHeight ≤ height) (by omega)
  obtain ⟨-, -, -, top, hash, topFound, topIndexed, topSame⟩ := validatePruneBoundary_spec valid.segments boundary
  obtain ⟨topArchived, topThere, -⟩ :=
    intact.archivedBlock positive (by omega : m.firstHeight ≤ target - 1) (by omega)
  rw [intact.hash_archivedBlock topThere topIndexed, equalFold_hexEncode] at topSame
  refine ⟨m, archived, intact, found, names, ?_, ?_⟩
  · intro last
    have here : height = target - 1 := by omega
    subst here
    cases present.symm.trans topFound
    cases found.symm.trans topThere
    exact topSame.symm
  · intro hotLinked archiveLinked fixes
    -- from the boundary down to the height
    have same := hash_eq_below hotLinked archiveLinked (fun _ a b _ _ equal => fixes a b equal) topFound topThere topSame
      (target - 1 - height).toNat
    have here : target - 1 - ((target - 1 - height).toNat : Int) = height := by omega
    rw [here] at same
    refine (same block archived (by omega) ?_ present found).symm
    intro h lower higher
    obtain ⟨_, there⟩ := BlockStore.exists_load filled (by omega : hot.base ≤ h) (by omega)
    obtain ⟨_, kept, -⟩ := intact.archivedBlock positive (by omega : m.firstHeight ≤ h) (by omega)
    rw [there, kept]
    exact ⟨rfl, rfl⟩

end Deleted

section Sample

def shortHash (code : UInt8) : Bytes := code :: List.replicate 31 7

def shortBlock (code : UInt8) : Block :=
  -- the block names the first of those one height below
  Block.plain (code % 16).toNat (if code % 16 ≤ 1 then [] else shortHash (code % 16 - 1)) [code]

def shortComet : Comet Unit :=
  { Comet.plain with
    blockHash := fun block => shortHash (block.body.headD 0)
    unmarshalBlock := fun data => .ok (shortBlock (data.headD 0)) }

def shortRecord (code : UInt8) : BlockRecord :=
  { height := (code % 16).toNat, hash := hexEncode (shortHash code), bytes := [code] }

def shortData (code : UInt8) : Bytes := segmentMagic ++ recordBytes (shortRecord code)

def shortSegment (code : UInt8) : SegmentManifest where
  key := segmentKey "" "c" (code % 16).toNat (code % 16).toNat (hexEncode (List.replicate 32 0))
  firstHeight := (code % 16).toNat
  lastHeight := (code % 16).toNat
  compression := compressionNone
  sizeBytes := (shortData code).length
  sha256 := hexEncode (List.replicate 32 0)
  blocks := [{ height := (code % 16).toNat, hash := hexEncode (shortHash code), offset := 0 }]

def shortArchive (codes : List UInt8) : Manifest where
  revision := ""
  sourceKey := ""
  version := manifestVersion
  chainID := "c"
  firstHeight := (codes.headD 0 % 16).toNat
  lastHeight := (codes.getLastD 0 % 16).toNat
  createdAt := 0
  updatedAt := 0
  segments := codes.map shortSegment

def shortJson : Json where
  marshalManifest _ := .error "unsupported value"
  unmarshalManifest data := .ok (shortArchive data)
  marshalState _ := .error "unsupported value"
  unmarshalState _ := .error "invalid character"
  marshalSegment segment := .ok [UInt8.ofNat segment.firstHeight.toNat]

theorem shortJson_lawful : shortJson.Lawful where
  manifest m data _ marshalled := by cases marshalled
  segment _ := ⟨_, rfl⟩

def shortHost : Host Unit where
  comet := shortComet
  codec := Codec.plain
  json := shortJson
  hasReader := true
  hasStore := true
  returnsETag := false
  bounded := false

def shortObjects (codes : List UInt8) : ObjectStore spelledContent :=
  codes.foldl (fun s code => s.put (shortSegment code).key (shortData code)) (ObjectStore.empty.put "m" codes)

def shortHot (codes : List UInt8) : BlockStore :=
  codes.foldl (fun store code => (store.saveBlock (shortBlock code)).getD store) .empty

def servePrune (s : ObjectStore spelledContent) : (op : Op) → BlockStore → op.Res × BlockStore
  | .pruneHotStore m opts, hot => keepOnError hot (pruneHotStore shortComet hot m opts (.ok ()) none)
  | op, hot => ((serve Codec.plain sampleSource op s).1, hot)

def shortPrune : PruneHotOptions := { manifestKey := "m", retainBlocks := 1 }

theorem servePrune_effect (s : ObjectStore spelledContent) (op : Op) (hot : BlockStore) :
    PruneEffect shortHost s op hot (servePrune s op hot).1 (servePrune s op hot).2 := by
  cases op with
  | pruneHotStore m opts => exact ⟨.ok (), none, rfl⟩
  | get key => exact ⟨Faithful.truthful rfl, rfl⟩
  | getVersioned key => exact ⟨Faithful.truthful rfl, rfl⟩
  | _ => exact ⟨trivial, rfl⟩

def shortLoaded (codes : List UInt8) : Manifest :=
  { shortArchive codes with revision := spelledRevision codes, sourceKey := "m" }

theorem short_intact {codes : List UInt8} (checked : (shortLoaded codes).validate = .ok ())
    (stored : ((shortObjects codes).objects "m").map (fun object => (object.data, object.revision)) =
      some (codes, spelledRevision codes)) (small : (codes.length : Int) ≤ maxManifestBytes)
    (segments : ∀ code ∈ codes, ((shortObjects codes).objects (shortSegment code).key).map (·.data) =
      some (shortData code))
    (decodes : ∀ code ∈ codes, decodeSegment Codec.plain shortComet (shortData code) (shortSegment code) =
      .ok [shortRecord code]) : Intact shortHost "m" (shortObjects codes) (shortLoaded codes) := by
  refine ⟨⟨by decide +kernel, rfl, ?_, Manifest.validate_eq_ok.mp checked⟩, ?_⟩
  · obtain ⟨object, there, same⟩ := Option.map_eq_some_iff.mp stored
    obtain ⟨data, revision⟩ := Prod.mk.inj same
    refine ⟨object, shortArchive codes, there, by rw [data]; exact small, by rw [data]; rfl, ?_⟩
    rw [revision]
    rfl
  · intro segment member
    obtain ⟨code, listed, rfl⟩ := List.mem_map.mp member
    obtain ⟨object, there, same⟩ := Option.map_eq_some_iff.mp (segments code listed)
    exact ⟨object, _, there, by rw [same]; exact decodes code listed⟩

theorem shortObjects_intact : Intact shortHost "m" (shortObjects [1]) (shortLoaded [1]) ∧
    Intact shortHost "m" (shortObjects [1, 2]) (shortLoaded [1, 2]) := by
  constructor
  · exact short_intact (by decide +kernel) (by decide +kernel) (by decide) (by decide +kernel) (by decide +kernel)
  · exact short_intact (by decide +kernel) (by decide +kernel) (by decide) (by decide +kernel) (by decide +kernel)

def shortRun (codes : List UInt8) : Proc Op Op.Res (Except Err PruneHotResult) × BlockStore :=
  drive (servePrune (shortObjects codes)) 20
    ⟨(PruneJob.pruneVerifiedHotStore true).program shortHost shortPrune, []⟩ (shortHot [1, 2, 3])

def shortPruned : PruneHotResult :=
  { baseBefore := 1, baseAfter := 3, head := 3, archivedThrough := 2, pruneToHeight := 3, pruned := 2 }

theorem shortRun_leads {codes : List UInt8} {result : Except Err PruneHotResult}
    (ended : (shortRun codes).1.rest.returned = some result) :
    ((PruneJob.pruneVerifiedHotStore true).program shortHost shortPrune).Leads
      (PruneEffect shortHost (shortObjects codes)) (shortHot [1, 2, 3]) result (shortRun codes).2 :=
  drive_leads (servePrune_effect (shortObjects codes)) 20 ended

theorem pruned_heights_short : ∃ result hot' m archived,
    ((PruneJob.pruneVerifiedHotStore true).program shortHost shortPrune).Leads
      (PruneEffect shortHost (shortObjects [1, 2])) (shortHot [1, 2, 3]) result hot' ∧ hot'.load 2 = none ∧
    archivedBlock shortHost (shortObjects [1, 2]) m 2 = some archived ∧
    shortComet.blockHash archived = shortComet.blockHash (shortBlock 2) := by
  have ended : (shortRun [1, 2]).1.rest.returned = some (.ok shortPruned) := by decide +kernel
  have deleted : (shortRun [1, 2]).2.load 2 = none := by decide +kernel
  have base : 2 = (shortRun [1, 2]).2.base - 1 := by decide +kernel
  have led := shortRun_leads ended
  -- from here on the run itself is not looked at
  generalize (shortRun [1, 2]).2 = hot' at led deleted base
  have present : (shortHot [1, 2, 3]).load 2 = some (shortBlock 2) := by decide +kernel
  obtain ⟨m, archived, -, found, -, boundary, -⟩ := pruned_heights_archived (by trivial) led present deleted
  exact ⟨_, hot', m, archived, led, deleted, found, boundary base⟩

theorem pruned_block_differs : ∃ hot',
    ((PruneJob.pruneVerifiedHotStore true).program shortHost shortPrune).Leads
      (PruneEffect shortHost (shortObjects [17, 2])) (shortHot [1, 2, 3]) (.ok shortPruned) hot' ∧
    Intact shortHost "m" (shortObjects [17, 2]) (shortLoaded [17, 2]) ∧
    HashLinked shortComet (shortHot [1, 2, 3]).load 1 ∧
    (shortHot [1, 2, 3]).load 1 = some (shortBlock 1) ∧ hot'.load 1 = none ∧
    archivedBlock shortHost (shortObjects [17, 2]) (shortLoaded [17, 2]) 1 = some (shortBlock 17) ∧
    shortComet.blockHash (shortBlock 17) ≠ shortComet.blockHash (shortBlock 1) := by
  -- the archive has another block than the hot store at height 1, and the same at height 2
  have intact : Intact shortHost "m" (shortObjects [17, 2]) (shortLoaded [17, 2]) :=
    short_intact (by decide +kernel) (by decide +kernel) (by decide) (by decide +kernel) (by decide +kernel)
  have ended : (shortRun [17, 2]).1.rest.returned = some (.ok shortPruned) := by decide +kernel
  have deleted : (shortRun [17, 2]).2.load 1 = none := by decide +kernel
  have archived : archivedBlock shortHost (shortObjects [17, 2]) (shortLoaded [17, 2]) 1 = some (shortBlock 17) := by
    decide +kernel
  have first : (shortHot [1, 2, 3]).load 1 = some (shortBlock 1) := by decide +kernel
  refine ⟨_, shortRun_leads ended, intact, ?_, first, deleted, archived, by decide +kernel⟩
  intro h lower upper above found next
  have bounds := BlockStore.bounds_of_load next
  have head : (shortHot [1, 2, 3]).height = 3 := by decide +kernel
  have second : (shortHot [1, 2, 3]).load 2 = some (shortBlock 2) := by decide +kernel
  have third : (shortHot [1, 2, 3]).load 3 = some (shortBlock 3) := by decide +kernel
  rcases (by omega : h = 1 ∨ h = 2) with rfl | rfl
  · cases found.symm.trans first
    cases next.symm.trans second
    decide
  · cases found.symm.trans second
    cases next.symm.trans third
    decide

end Sample

end CometArchive.Archive
