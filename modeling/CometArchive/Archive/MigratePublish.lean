import CometArchive.Archive.LivePublish
import CometArchive.Archive.Tiling

set_option autoImplicit false

namespace CometArchive.Archive

open GoBytes GoError Programs Programs.Fallible

variable {V : Type} (host : Host V)

def Checked (history : History) (segment : SegmentManifest) : Prop :=
  ∃ data records, ⟨.get segment.key, .ok data⟩ ∈ history ∧ decodeSegment host.codec host.comet data segment = .ok records

def MigratePublishes (key chainID : String) (history : History) (data : Bytes) (revision : String) : Prop :=
  ∃ before after, Publishes host key chainID history data revision before after ∧
    (before.segments = [] ∨ after.firstHeight = before.firstHeight ∧ after.lastHeight = before.lastHeight) ∧
    after.segments ≠ [] ∧ ∀ segment ∈ after.segments, Checked host history segment

variable {host} {key chainID keyPrefix : String} {uploads : String → Bytes → Prop} {history : History}

theorem Checked.mono {later : History} {segment : SegmentManifest} (checked : Checked host history segment)
    (grown : history ⊆ later) : Checked host later segment := by
  obtain ⟨data, records, read, decoded⟩ := checked
  exact ⟨data, records, grown read, decoded⟩

theorem absorbMissing_ok {α : Type} {may : History → Op → Prop} {read : M α} {post : History → Option α → Prop}
    (ok : read.Ok may (fun later err => err.is .objectNotFound = true → post later none)
      (fun later value => post later (some value)) history) :
    (absorbMissing read).Ok may (fun _ _ => True) post history := by
  unfold absorbMissing
  refine Ok.recover ?_
  change ((read >>= fun value => pure (some value) : M (Option α))).Ok _ _ _ _
  refine Ok.bind (Ok.mono ok ?_ fun later value holds => Ok.pure holds)
  intro later err none
  split
  next missing => exact Ok.pure (none missing)
  next => exact Ok.lift (fun _ _ => trivial) (by rintro _ ⟨⟩)

theorem runPool_ok {check : SegmentManifest → M Nat} {calm : Op → Prop} (good : History → SegmentManifest → Prop)
    (mono : ∀ {earlier later segment}, good earlier segment → earlier ⊆ later → good later segment)
    (checks : ∀ segment history, (check segment).Ok (fun _ op => calm op) (fun _ _ => True)
      (fun later _ => good later segment) history) (picks : ∀ count, calm (.pick count)) (waits : calm .ctxErr)
    {fuel : Nat} {jobs : List SegmentManifest} {counts : Nat × Nat} (enough : jobs.length = fuel) :
    (runPool check fuel jobs counts).Ok (fun _ op => calm op) (fun _ _ => True)
      (fun later _ => ∀ segment ∈ jobs, good later segment) history := by
  induction fuel generalizing jobs counts history with
  | zero =>
    rw [List.length_eq_zero_iff] at enough
    subst enough
    exact Ok.pure (by simp)
  | succ fuel ih =>
    unfold runPool
    refine Ok.bind (Ok.query (Op.pick jobs.length) (picks _) fun choice => ?_)
    have inside : choice % jobs.length < jobs.length := Nat.mod_lt _ (by omega)
    simp only [List.getElem?_eq_getElem inside]
    refine Ok.bind (Ok.attempt waits (fun _ _ _ => trivial) fun _ _ _ => ?_)
    refine Ok.bind (Ok.mono (checks _ _) (fun _ _ _ => trivial) ?_)
    intro checked _ here
    have fewer : (jobs.eraseIdx (choice % jobs.length)).length = fuel := by
      rw [List.length_eraseIdx_of_lt inside]
      omega
    refine Ok.mono (Ok.grows (ih fewer)) (fun _ _ _ => trivial) ?_
    rintro later _ ⟨others, grown⟩ segment member
    -- the segment taken and the others are all of them
    rcases List.mem_cons.mp ((List.getElem_cons_eraseIdx_perm inside).mem_iff.mpr member) with rfl | member
    · exact mono here grown
    · exact others segment member

theorem verifyCompletedSegment_ok {segment : SegmentManifest} :
    (verifyCompletedSegment host segment).Ok (fun _ op => Calm key uploads op) (fun _ _ => True)
      (fun later _ => Checked host later segment) history := by
  unfold verifyCompletedSegment
  refine Ok.bind (Ok.mapErr (Ok.attempt trivial (fun _ _ _ => trivial) fun _ _ _ => ?_))
  refine Ok.check (fun _ _ => trivial) fun _ _ => ?_
  refine Ok.bind (Ok.mapErr (Ok.attempt trivial (fun _ _ _ => trivial) ?_))
  rintro answer data rfl
  refine Ok.check (fun _ _ => trivial) fun _ _ => ?_
  refine Ok.check (fun _ _ => trivial) fun records decoded => ?_
  exact Ok.pure ⟨data, records, mem_snoc .., wrapping_eq_ok.mp decoded⟩

theorem verifyCompletedMigrationSegments_ok {segments : List SegmentManifest} :
    (verifyCompletedMigrationSegments host segments).Ok (fun _ op => Calm key uploads op) (fun _ _ => True)
      (fun later _ => ∀ segment ∈ segments, Checked host later segment) history := by
  unfold verifyCompletedMigrationSegments
  refine Ok.bind (Ok.mono (runPool_ok (Checked host) Checked.mono ?_ (fun _ => trivial) trivial rfl) (fun _ _ _ => trivial) ?_)
  · intro segment history
    exact Ok.bind (Ok.mono verifyCompletedSegment_ok (fun _ _ _ => trivial) fun _ _ checked => Ok.pure checked)
  · intro later _ checked
    split
    next => exact Ok.pure checked
    next =>
      refine Ok.attempt trivial (fun _ _ _ => trivial) fun _ _ _ segment member => ?_
      exact (checked segment member).mono (List.subset_append_left ..)

theorem loadMigrationStateWithFound_ok {stateKey : String} (apart : stateKey ≠ key) :
    (loadMigrationStateWithFound host stateKey).Ok (fun _ op => Calm key uploads op) (fun _ _ => True)
      (fun _ found => ∀ state ∈ found, validateMigrationState state = .ok ()) history := by
  unfold loadMigrationStateWithFound
  apply Ok.bind
  apply absorbMissing_ok
  refine Ok.attempt apart (fun _ _ _ _ => Ok.pure (by simp)) fun _ found _ => ?_
  refine Ok.check (fun _ _ => trivial) fun _ _ => ?_
  refine Ok.check (fun _ _ => trivial) fun state _ => ?_
  refine Ok.check (fun _ _ => trivial) fun _ valid => ?_
  apply Ok.pure
  rintro _ ⟨⟩
  exact wrapping_eq_ok.mp valid

theorem saveMigrationState_ok {stateKey : String} {state : MigrationState} (apart : stateKey ≠ key) :
    (saveMigrationState host stateKey state).Ok (fun _ op => Calm key uploads op) (fun _ _ => True)
      (fun _ saved => validateMigrationState saved = .ok () ∧
        ∃ revision, saved = { state with revision, sourceKey := stateKey }) history := by
  unfold saveMigrationState
  refine Ok.check (fun _ _ => trivial) fun _ _ => ?_
  refine Ok.check (fun _ _ => trivial) fun _ _ => ?_
  refine Ok.check (fun _ _ => trivial) fun _ _ => ?_
  refine Ok.check (fun _ _ => trivial) fun _ valid => ?_
  refine Ok.check (fun _ _ => trivial) fun _ _ => ?_
  refine Ok.check (fun _ _ => trivial) fun _ _ => ?_
  refine Ok.bind (Ok.attempt apart (fun _ _ _ => trivial) fun _ revision _ => ?_)
  exact Ok.pure ⟨valid, revision, rfl⟩

theorem findMigrationState_ok {opts : MigrationOptions} {stateKey : String} (apart : stateKey ≠ key)
    (named : chosenManifestKey opts.keyPrefix opts.chainID opts.manifestName opts.manifestKey = key) :
    (findMigrationState host opts stateKey).Ok (fun _ op => Calm key uploads op) (fun _ _ => True)
      (fun _ found => ∀ state ∈ found.1, validateMigrationState state = .ok ()) history := by
  unfold findMigrationState
  refine Ok.bind (Ok.mono (loadMigrationStateWithFound_ok apart) (fun _ _ _ => trivial) ?_)
  intro later state valid
  split
  next legacy =>
    obtain ⟨-, unnamed, -⟩ := legacy
    have other : legacyMigrationStateKey opts.keyPrefix opts.chainID ≠ key := by
      rw [← named, chosenManifestKey, if_neg (not_not.mpr unnamed)]
      exact legacyMigrationStateKey_ne_manifestKey _ _ _
    refine Ok.bind (Ok.mono (loadMigrationStateWithFound_ok other) (fun _ _ _ => trivial) ?_)
    intro last legacyState validLegacy
    cases legacyState with
    | none => exact Ok.pure (by simp)
    | some state =>
      apply Ok.pure
      rintro _ ⟨⟩
      exact validLegacy state rfl
  next => exact Ok.pure valid

/-- A state of the migration of `start`-`stop` that was validated, or that has still something to do. -/
structure Going (start stop : Int) (state : MigrationState) : Prop where
  first : state.startHeight = start
  last : state.endHeight = stop
  checked : validateMigrationState state = .ok () ∨ state.nextHeight ≤ stop

theorem startMigrationState_spec {opts : MigrationOptions} {start stop : Int} {saved : Option MigrationState}
    {state : MigrationState} (range : start ≤ stop) (valid : ∀ state ∈ saved, validateMigrationState state = .ok ())
    (ok : startMigrationState opts start stop saved = .ok state) : Going start stop state := by
  cases saved with
  | none =>
    cases ok
    exact ⟨rfl, rfl, .inr range⟩
  | some found =>
    simp only [startMigrationState, then_eq_ok, refuse_eq_ok] at ok
    obtain ⟨same, ok⟩ := ok
    cases ok
    simp only [not_or, not_not] at same
    exact ⟨same.2.1, same.2.2, .inl (valid state rfl)⟩

theorem adoptLegacyState_ok {stateKey : String} {legacy : Bool} {start stop : Int} {state : MigrationState}
    (apart : stateKey ≠ key) (going : Going start stop state) :
    (adoptLegacyState host stateKey legacy state).Ok (fun _ op => Calm key uploads op) (fun _ _ => True)
      (fun _ saved => Going start stop saved) history := by
  unfold adoptLegacyState
  split
  next =>
    refine Ok.mono (saveMigrationState_ok apart) (fun _ _ _ => trivial) ?_
    rintro _ _ ⟨valid, revision, rfl⟩
    exact ⟨going.first, going.last, .inl valid⟩
  next => exact Ok.pure going

theorem validateStateSegments_spec {next stop : Int} {seen : List String} {segments : List SegmentManifest}
    (ok : validateStateSegments next seen segments = .ok stop) :
    (∀ segment ∈ segments, segment.Valid) ∧ Tiles next segments stop := by
  induction segments generalizing next seen with
  | nil =>
    cases ok
    exact ⟨by simp, rfl⟩
  | cons segment rest ih =>
    simp only [validateStateSegments, then_eq_ok, refuse_eq_ok, SegmentManifest.validate_eq_ok, not_not] at ok
    obtain ⟨valid, -, first, ok⟩ := ok
    obtain ⟨others, tiles⟩ := ih ok
    exact ⟨List.forall_mem_cons.mpr ⟨valid, others⟩, first, tiles⟩

theorem Going.tiles {start stop : Int} {state : MigrationState} (going : Going start stop state)
    (through : stop < state.nextHeight) :
    (∀ segment ∈ state.segments, segment.Valid) ∧ Tiles start state.segments (stop + 1) ∧ state.segments ≠ [] := by
  -- the segments of a migration that is through cover its range
  have ok := going.checked.resolve_right (by omega)
  simp only [validateMigrationState, then_eq_ok, refuse_eq_ok, going.first, going.last] at ok
  obtain ⟨-, positive, range, next, ok⟩ := ok
  -- the sum only wraps where the next height is out of range
  have small : wrap64 (stop + 1) ≤ stop + 1 := by
    simp only [wrap64, Int.bmod_def]
    norm_num
    split <;> omega
  split at ok
  next empty =>
    rw [refuse_eq_ok] at ok
    omega
  next filled =>
    obtain ⟨reached, tiled, ok⟩ := bind_eq_ok.mp ok
    obtain ⟨valid, tiles⟩ := validateStateSegments_spec tiled
    rw [refuse_eq_ok] at ok
    have exact : reached = stop + 1 := by omega
    exact ⟨valid, exact ▸ tiles, filled⟩

theorem migrateLoop_ok {opts : MigrationOptions} {stateKey : String} {start stop height : Int} (apart : stateKey ≠ key)
    (allowed : ∀ other data, SegmentKeys opts.keyPrefix opts.chainID other → IsSegment data → uploads other data)
    {fuel : Nat} {state : MigrationState} {counts : Nat × Nat} (going : Going start stop state) (here : state.nextHeight = height)
    (enough : (stop - height + 1).toNat ≤ fuel) :
    (migrateLoop host opts stateKey stop fuel height state counts).Ok (fun _ op => Calm key uploads op)
      (fun _ _ => True) (fun _ result => Going start stop result.1 ∧ stop < result.1.nextHeight) history := by
  induction fuel generalizing height state counts history with
  | zero =>
    have through : stop < state.nextHeight := by omega
    exact Ok.pure ⟨going, through⟩
  | succ fuel ih =>
    unfold migrateLoop
    split
    next through => exact Ok.pure ⟨going, here ▸ through⟩
    next =>
      refine Ok.bind (Ok.attempt trivial (fun _ _ _ => trivial) fun _ _ _ => ?_)
      refine Ok.bind (Ok.mono (buildAndUploadSegment_ok (calm_permits key uploads)
        fun _ _ _ encoded => allowed _ _ ⟨_, _, _, rfl⟩ (encodeSegment_spec host.codec encoded).isSegment)
        (fun _ _ _ => trivial) ?_)
      rintro built ⟨segment, uploaded⟩ ⟨moved, -⟩
      refine Ok.bind (Ok.query Op.now trivial fun now => ?_)
      refine Ok.bind (Ok.mono (saveMigrationState_ok apart) (fun _ _ _ => trivial) ?_)
      rintro later saved ⟨valid, revision, rfl⟩
      refine ih ?_ rfl (by omega)
      exact ⟨going.first, going.last, .inl valid⟩

theorem clampRange_ok {start stop : Int} :
    (clampRange start stop).Ok (fun _ op => Calm key uploads op) (fun _ _ => True) (fun _ range => range.1 ≤ range.2)
      history := by
  unfold clampRange
  refine Ok.bind (Ok.query Op.base trivial fun base => ?_)
  refine Ok.bind (Ok.query Op.height trivial fun height => ?_)
  refine Ok.check (fun _ _ => trivial) fun _ _ => ?_
  refine Ok.check (fun _ _ => trivial) fun _ _ => ?_
  refine Ok.check (fun _ _ => trivial) fun _ _ => ?_
  refine Ok.check (fun _ _ => trivial) fun _ ordered => ?_
  rw [refuse_eq_ok] at ordered
  exact Ok.pure (not_lt.mp ordered)

def Manifest.emptied (m : Manifest) : Manifest :=
  { m with revision := "", sourceKey := "", segments := [], firstHeight := 0, lastHeight := 0 }

theorem Manifest.Valid.emptied {m : Manifest} (valid : m.Valid) : m.emptied.Valid :=
  ⟨valid.version, valid.chainID, valid.times, by simp [Manifest.emptied], by simp [Manifest.emptied],
    .inl ⟨rfl, rfl, rfl⟩⟩

def Existing (host : Host V) (key : String) (knowledge : Knowledge) : Option Manifest → Prop
  -- what a migration knows of a manifest that was there before it
  | none => knowledge = .missing
  | some m => m.Valid ∧ Based host key m knowledge

theorem Existing.clean {knowledge : Knowledge} {existing : Option Manifest} (known : Existing host key knowledge existing) :
    knowledge ≠ .refused := by
  cases existing with
  | none =>
    rw [show knowledge = .missing from known]
    rintro ⟨⟩
  | some m => exact known.2.clean

theorem loadExisting_ok {publishes : History → Bytes → String → Prop} (clean : known key history ≠ .refused) :
    (absorbMissing (loadManifest host key)).Ok (May key uploads publishes) (fun _ _ => True)
      (fun later existing => Existing host key (known key later) existing) history := by
  apply absorbMissing_ok
  refine Ok.mono (loadManifest_ok clean) ?_ ?_
  · intro later err missed missing
    exact missed missing
  · intro later m loaded
    exact ⟨loaded.1, loaded.2.1⟩

theorem Existing.publishes {opts : MigrationOptions} {existing : Option Manifest} {manifest : Manifest}
    {segments : List SegmentManifest} {start stop now : Int} {data : Bytes}
    (known : Existing host key (known key history) existing) (same : checkExisting opts start stop existing = .ok ())
    (valid : ∀ segment ∈ segments, segment.Valid) (tiles : Tiles start segments (stop + 1)) (filled : segments ≠ [])
    (checked : ∀ segment ∈ segments, Checked host history segment)
    (made : manifest = (newManifest opts.chainID segments now).1)
    (validAfter : { manifest with
      revision := (existing.map (·.revision)).getD ""
      sourceKey := (existing.map (·.sourceKey)).getD "" : Manifest }.Valid)
    (holds : Holds host data { manifest with
      revision := (existing.map (·.revision)).getD ""
      sourceKey := (existing.map (·.sourceKey)).getD "" })
    (fits : (data.length : Int) ≤ maxManifestBytes) (keyed : validateObjectKey key = .ok ()) :
    MigratePublishes host key opts.chainID history data ((existing.map (·.revision)).getD "") := by
  obtain ⟨sameSegments, first, last⟩ := newManifestBy_tiles opts.chainID now insertionSort_sorts valid tiles filled
  rw [← newManifest_eq, ← made] at sameSegments first last
  have chain : manifest.chainID = opts.chainID := by
    rw [made]
    rfl
  cases existing with
  | none =>
    refine ⟨_, _, ⟨?_, validAfter.emptied, chain, rfl, validAfter, chain, holds, fits, keyed⟩, .inl rfl, ?_, ?_⟩
    · rw [show Archive.known key history = .missing from known]
      exact ⟨rfl, rfl, rfl⟩
    · exact sameSegments ▸ filled
    · exact fun segment member => checked segment (sameSegments ▸ member)
  | some m =>
    simp only [checkExisting, refuse_eq_ok, not_or, not_and, not_not] at same
    refine ⟨m, _, ⟨known.2, known.1, same.1, rfl, validAfter, chain, holds, fits, keyed⟩, ?_, sameSegments ▸ filled, ?_⟩
    · rcases known.1.range with ⟨empty, -⟩ | ⟨-, positive, ordered, -⟩
      · exact .inl empty
      · have range := same.2 (by omega)
        exact .inr ⟨first.trans range.1.symm, last.trans range.2.symm⟩
    · exact fun segment member => checked segment (sameSegments ▸ member)

theorem migrate_ok {opts : MigrationOptions} (json : host.json.Lawful)
    (named : chosenManifestKey opts.keyPrefix opts.chainID opts.manifestName opts.manifestKey = key)
    (allowed : ∀ other data, SegmentKeys opts.keyPrefix opts.chainID other → IsSegment data → uploads other data)
    (clean : known key history ≠ .refused) :
    (migrate host opts).Ok (May key uploads (MigratePublishes host key opts.chainID)) (fun _ _ => True)
      (fun later _ => known key later ≠ .refused) history := by
  unfold migrate
  refine Ok.check (fun _ _ => trivial) fun _ _ => ?_
  refine Ok.check (fun _ _ => trivial) fun _ _ => ?_
  refine Ok.check (fun _ _ => trivial) fun _ _ => ?_
  refine Ok.check (fun _ _ => trivial) fun resolved resolves => ?_
  rw [resolveManifestKey, named] at resolves
  obtain rfl : resolved = key := (resolveKey_spec resolves).1
  refine Ok.check (fun _ _ => trivial) fun stateKey resolvesState => ?_
  rw [migrationStateKey] at resolvesState
  have apart : stateKey ≠ resolved := by
    rw [(resolveKey_spec resolvesState).1, ← named]
    exact chosenStateKey_ne_chosenManifestKey _ _ _ _
  refine Ok.check (fun _ _ => trivial) fun _ _ => ?_
  refine Ok.check (fun _ _ => trivial) fun _ _ => ?_
  refine Ok.bind (Ok.mono (quiet clampRange_ok clean) (fun _ _ _ => trivial) ?_)
  rintro clamped ⟨start, stop⟩ ⟨⟨range, unchanged⟩, -⟩
  -- the manifest is looked at once, long before it is published
  refine Ok.bind (Ok.mono (loadExisting_ok (by rw [unchanged]; exact clean)) (fun _ _ _ => trivial) ?_)
  intro loaded existing before
  refine Ok.check (fun _ _ => trivial) fun _ same => ?_
  refine Ok.bind (Ok.mono (quiet (findMigrationState_ok apart named) before.clean) (fun _ _ _ => trivial) ?_)
  rintro found ⟨saved, legacy⟩ ⟨⟨valid, unchangedFound⟩, -⟩
  refine Ok.check (fun _ _ => trivial) fun state started => ?_
  have going := startMigrationState_spec range valid started
  have cleanFound : known resolved found ≠ .refused := by
    rw [unchangedFound]
    exact before.clean
  refine Ok.bind (Ok.mono (quiet (adoptLegacyState_ok apart going) cleanFound) (fun _ _ _ => trivial) ?_)
  rintro ready state ⟨⟨going, unchangedReady⟩, -⟩
  have cleanReady : known resolved ready ≠ .refused := by
    rw [unchangedReady]
    exact cleanFound
  refine Ok.bind (Ok.mono (quiet (migrateLoop_ok apart ?_ going rfl le_rfl) cleanReady) (fun _ _ _ => trivial) ?_)
  · exact allowed
  rintro moved ⟨state, uploaded, reused⟩ ⟨⟨⟨going, through⟩, unchangedMoved⟩, -⟩
  obtain ⟨validSegments, tiles, filled⟩ := going.tiles through
  have cleanMoved : known resolved moved ≠ .refused := by
    rw [unchangedMoved]
    exact cleanReady
  refine Ok.bind (Ok.mono (quiet verifyCompletedMigrationSegments_ok cleanMoved) (fun _ _ _ => trivial) ?_)
  rintro verified _ ⟨⟨checked, unchangedVerified⟩, -⟩
  have cleanVerified : known resolved verified ≠ .refused := by
    rw [unchangedVerified]
    exact cleanMoved
  refine Ok.bind (Ok.mono (Ok.grows (createManifest_ok cleanVerified)) (fun _ _ _ => trivial) ?_)
  rintro created manifest ⟨⟨⟨now, made, -⟩, unchangedCreated⟩, grown⟩
  have still : known resolved created = known resolved loaded := by
    rw [unchangedCreated, unchangedVerified, unchangedMoved, unchangedReady, unchangedFound]
  have cleanCreated : known resolved created ≠ .refused := by
    rw [still]
    exact before.clean
  refine Ok.bind (Ok.mono (saveManifest_ok json cleanCreated ?_) (fun _ _ _ => trivial) ?_)
  · intro data keyed validAfter holds fits
    refine Existing.publishes ?_ same validSegments tiles filled ?_ made validAfter holds fits keyed
    · rw [still]
      exact before
    · exact fun segment member => (checked segment member).mono grown
  · rintro later published ⟨-, -, based⟩
    exact Ok.pure based.clean

end CometArchive.Archive
