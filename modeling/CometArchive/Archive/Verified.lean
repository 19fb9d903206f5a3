import CometArchive.Archive.Knowledge
import CometArchive.Archive.SegmentBlock
import CometArchive.Shared.Outcomes

set_option autoImplicit false

namespace CometArchive.Archive

open GoBytes GoError Programs Programs.Fallible

variable {V : Type} {host : Host V} {contentOf : String → Bytes} {s : ObjectStore contentOf} {key : String}

/-- The answers of a store that does not change and does not fail; the order of a pool is not fixed. -/
def Faithful (s : ObjectStore contentOf) : (op : Op) → op.Res → Prop
  | .get key, answer =>
    answer = ((s.objects key).map fun object => .ok object.data).getD (.error (.sentinel .objectNotFound))
  | .getVersioned key, answer =>
    answer = ((s.objects key).map fun object => .ok (object.data, object.revision)).getD
      (.error (.sentinel .objectNotFound))
  | .stat key, answer =>
    answer = ((s.objects key).map fun object => .ok (object.data.length : Int)).getD (.error (.sentinel .objectNotFound))
  | .existsKey key, answer => answer = .ok (s.objects key).isSome
  | .ctxErr, answer => answer = .ok ()
  | .mkdirAll _, answer => answer = .ok ()
  | .atomicWriteFile _ _, answer => answer = .ok ()
  | .enforceCacheLimit _ _, answer => answer = .ok ()
  | _, _ => True

theorem faithful_served (s : ObjectStore contentOf) (op : Op) : ∃ answer, Faithful s op answer := by
  cases op with
  | get key => exact ⟨_, rfl⟩
  | getVersioned key => exact ⟨_, rfl⟩
  | stat key => exact ⟨_, rfl⟩
  | existsKey key => exact ⟨_, rfl⟩
  | ctxErr => exact ⟨_, rfl⟩
  | putIfAbsent key data => exact ⟨.ok (), trivial⟩
  | putIfAbsentReturningETag key data => exact ⟨.ok "", trivial⟩
  | compareAndSwap key data revision => exact ⟨.ok "", trivial⟩
  | base => exact ⟨(0 : Int), trivial⟩
  | height => exact ⟨(0 : Int), trivial⟩
  | loadBlock height => exact ⟨(none : Option Block), trivial⟩
  | archiveHeightLimit => exact ⟨(0 : Int), trivial⟩
  | now => exact ⟨(0 : Int), trivial⟩
  | pick count => exact ⟨(0 : Nat), trivial⟩
  | pruneHotStore manifest opts => exact ⟨.error (.new ""), trivial⟩
  | mkdirAll dir => exact ⟨_, rfl⟩
  | atomicWriteFile path data => exact ⟨_, rfl⟩
  | enforceCacheLimit dir maxBytes => exact ⟨_, rfl⟩

/-- The answers of a store that does not change and may fail. -/
def Truthful (s : ObjectStore contentOf) : (op : Op) → op.Res → Prop
  | .get key, .ok data => ∃ revision, s.objects key = some ⟨data, revision⟩
  | .getVersioned key, .ok found => s.objects key = some ⟨found.1, found.2⟩
  | _, _ => True

theorem Faithful.truthful {op : Op} {answer : op.Res} (faithful : Faithful s op answer) : Truthful s op answer := by
  cases op with
  | get key =>
    cases found : s.objects key with
    | none =>
      rw [Faithful, found] at faithful
      subst faithful
      exact trivial
    | some object =>
      rw [Faithful, found] at faithful
      subst faithful
      exact ⟨object.revision, found⟩
  | getVersioned key =>
    cases found : s.objects key with
    | none =>
      rw [Faithful, found] at faithful
      subst faithful
      exact trivial
    | some object =>
      rw [Faithful, found] at faithful
      subst faithful
      exact found
  | _ => exact trivial

theorem returns_truthful {α : Type} {p : M α} {value : α} (returned : p.Returns (Faithful s) value) :
    p.Returns (Truthful s) value :=
  Prog.Outcome.mono returned fun _ _ faithful => faithful.truthful

section Calls

@[simp] theorem returns_get {data : Bytes} :
    (get key).Returns (Truthful s) data ↔ ∃ revision, s.objects key = some ⟨data, revision⟩ := by
  simp [get, returns_attempt, Truthful]

@[simp] theorem returns_getVersioned {found : Bytes × String} :
    (getVersioned key).Returns (Truthful s) found ↔ s.objects key = some ⟨found.1, found.2⟩ := by
  simp [getVersioned, returns_attempt, Truthful]

end Calls

structure Loads (host : Host V) (key : String) (s : ObjectStore contentOf) (m : Manifest) : Prop where
  named : validateObjectKey key = .ok ()
  store : host.hasStore = true
  stored : ∃ object read, s.objects key = some object ∧ (object.data.length : Int) ≤ maxManifestBytes ∧
    host.json.unmarshalManifest object.data = .ok read ∧ m = { read with revision := object.revision, sourceKey := key }
  valid : m.Valid

theorem loadManifest_returns {m : Manifest} : (loadManifest host key).Returns (Truthful s) m ↔ Loads host key s m := by
  simp only [loadManifest, returns_bind, returns_lift, exists_unit, wrapping_eq_ok, refuse_eq_ok, returns_getVersioned,
    returns_pure, textual_eq_ok, Manifest.validate_eq_ok, Bool.not_eq_false, not_lt]
  constructor
  · rintro ⟨named, store, ⟨data, revision⟩, found, fits, read, parsed, valid, rfl⟩
    exact ⟨named, store, ⟨_, read, found, fits, parsed, rfl⟩, valid⟩
  · rintro ⟨named, store, ⟨object, read, found, fits, parsed, rfl⟩, valid⟩
    exact ⟨named, store, (object.data, object.revision), found, fits, read, parsed, valid, rfl⟩

theorem Loads.unique {m m' : Manifest} (first : Loads host key s m) (second : Loads host key s m') : m = m' := by
  obtain ⟨object, read, stored, -, parsed, rfl⟩ := first.stored
  obtain ⟨object', read', stored', -, parsed', rfl⟩ := second.stored
  cases stored.symm.trans stored'
  cases parsed.symm.trans parsed'
  rfl

theorem Loads.named_ne {m : Manifest} (loads : Loads host key s m) : key ≠ "" := by
  rintro rfl
  have named := loads.named
  revert named
  decide +kernel

theorem Loads.leaves {m : Manifest} (loads : Loads host key s m) :
    (loadManifest host key).Leaves (Faithful s) fun trace loaded =>
      (∃ answer, trace = [⟨.getVersioned key, answer⟩]) ∧ loaded = m := by
  obtain ⟨named, store, ⟨object, read, found, fits, parsed, rfl⟩, valid⟩ := loads
  unfold loadManifest
  refine Leaves.bind (Leaves.lift (wrapping_eq_ok.mpr named) ?_)
  refine Leaves.bind (Leaves.lift (refuse_eq_ok.mpr (by simp [store])) ?_)
  refine Leaves.bind (Leaves.attempt ?_)
  rintro _ rfl
  refine ⟨(object.data, object.revision), by simp [found], ?_⟩
  refine Leaves.bind (Leaves.lift (refuse_eq_ok.mpr (by simpa using fits)) ?_)
  refine Leaves.bind (Leaves.lift (textual_eq_ok.mpr parsed) ?_)
  refine Leaves.bind (Leaves.lift (Manifest.validate_eq_ok.mpr valid) ?_)
  exact Leaves.pure ⟨⟨_, rfl⟩, rfl⟩

theorem Loads.sure {m : Manifest} (loads : Loads host key s m) : (loadManifest host key).Sure (Faithful s) (· = m) :=
  Leaves.mono loads.leaves fun _ _ loaded => loaded.2

def Readable (host : Host V) (s : ObjectStore contentOf) (segment : SegmentManifest) : Prop :=
  ∃ object records, s.objects segment.key = some object ∧
    decodeSegment host.codec host.comet object.data segment = .ok records

def DecodesTo (host : Host V) (s : ObjectStore contentOf) (segment : SegmentManifest) (records : List BlockRecord) : Prop :=
  ∃ object, s.objects segment.key = some object ∧ decodeSegment host.codec host.comet object.data segment = .ok records

theorem Readable.decodesTo {segment : SegmentManifest} (readable : Readable host s segment) :
    ∃ records, DecodesTo host s segment records := by
  obtain ⟨object, records, found, decoded⟩ := readable
  exact ⟨records, object, found, decoded⟩

theorem exists_decoded {segments : List SegmentManifest} (readable : ∀ segment ∈ segments, Readable host s segment) :
    ∃ all : SegmentManifest → List BlockRecord, ∀ segment ∈ segments, DecodesTo host s segment (all segment) := by
  have decodes : ∀ segment, ∃ records, segment ∈ segments → DecodesTo host s segment records := by
    intro segment
    by_cases listed : segment ∈ segments
    · obtain ⟨records, decodes⟩ := (readable segment listed).decodesTo
      exact ⟨records, fun _ => decodes⟩
    · exact ⟨[], fun member => absurd member listed⟩
  choose all decodes using decodes
  exact ⟨all, decodes⟩

theorem DecodesTo.unique {segment : SegmentManifest} {records others : List BlockRecord}
    (first : DecodesTo host s segment records) (second : DecodesTo host s segment others) : records = others := by
  obtain ⟨object, found, decoded⟩ := first
  obtain ⟨again, foundAgain, decodedAgain⟩ := second
  cases found.symm.trans foundAgain
  exact Except.ok.inj (decoded.symm.trans decodedAgain)

theorem DecodesTo.leaves {segment : SegmentManifest} {records : List BlockRecord} (decodes : DecodesTo host s segment records) :
    (readSegment host segment).Leaves (Faithful s) fun trace read =>
      (∃ answer, trace = [⟨.get segment.key, answer⟩]) ∧ read = records := by
  obtain ⟨object, found, decoded⟩ := decodes
  unfold readSegment
  refine Leaves.bind (Leaves.attempt ?_)
  rintro _ rfl
  refine ⟨object.data, by simp [found], ?_⟩
  exact Leaves.lift decoded ⟨⟨_, rfl⟩, rfl⟩

section Segments

variable {first : Int} {segment : SegmentManifest}

theorem verifySegment_returns {count : Nat} (returned : (verifySegment host first 0 segment).Returns (Truthful s) count) :
    Readable host s segment := by
  simp only [verifySegment, returns_bind, returns_mapErr, returns_lift, exists_unit, refuse_eq_ok,
    returns_get, le_refl, if_true, wrapping_eq_ok, returns_pure, not_not] at returned
  obtain ⟨size, -, -, data, ⟨revision, found⟩, records, decoded, -⟩ := returned
  exact ⟨⟨data, revision⟩, records, found, decoded⟩

theorem Readable.sure (readable : Readable host s segment) :
    (verifySegment host first 0 segment).Sure (Faithful s) fun _ => True := by
  obtain ⟨object, records, found, decoded⟩ := readable
  have size := (decodeSegmentRecords_spec host.codec decoded).1.size
  unfold verifySegment
  refine Leaves.bind (Leaves.mapErr (Leaves.attempt ?_))
  rintro _ rfl
  refine ⟨object.data.length, by simp [found], ?_⟩
  refine Leaves.bind (Leaves.lift (refuse_eq_ok.mpr (not_not.mpr size)) ?_)
  refine Leaves.bind (Leaves.mapErr (Leaves.attempt ?_))
  rintro _ rfl
  refine ⟨object.data, by simp [found], ?_⟩
  rw [if_pos le_rfl]
  refine Leaves.bind (Leaves.lift (wrapping_eq_ok.mpr decoded) ?_)
  exact Leaves.pure trivial

theorem ctxErr_sure : ctxErr.Sure (Faithful s) fun _ => True := by
  refine Leaves.attempt ?_
  rintro _ rfl
  exact ⟨(), rfl, trivial⟩

variable {check : SegmentManifest → M Nat} {fuel : Nat} {jobs : List SegmentManifest} {counts result : Nat × Nat}

theorem runPool_returns (enough : jobs.length = fuel)
    (returned : (runPool check fuel jobs counts).Returns (Truthful s) result) :
    ∀ segment ∈ jobs, ∃ count, (check segment).Returns (Truthful s) count := by
  -- a pool that comes through has checked all of its jobs
  induction fuel generalizing jobs counts with
  | zero =>
    rw [List.length_eq_zero_iff] at enough
    simp [enough]
  | succ fuel ih =>
    unfold runPool at returned
    obtain ⟨choice, -, returned⟩ := returns_bind.mp returned
    have inside : choice % jobs.length < jobs.length := Nat.mod_lt _ (by omega)
    simp only [List.getElem?_eq_getElem inside] at returned
    obtain ⟨_, -, returned⟩ := returns_bind.mp returned
    obtain ⟨blocks, here, returned⟩ := returns_bind.mp returned
    have others := ih (by rw [List.length_eraseIdx_of_lt inside]; omega) returned
    intro segment member
    rcases List.mem_cons.mp ((List.getElem_cons_eraseIdx_perm inside).mem_iff.mpr member) with rfl | member
    · exact ⟨blocks, here⟩
    · exact others segment member

theorem runPool_sure (checks : ∀ segment ∈ jobs, (check segment).Sure (Faithful s) fun _ => True) :
    (runPool check fuel jobs counts).Sure (Faithful s) fun _ => True := by
  induction fuel generalizing jobs counts with
  | zero => exact Leaves.pure trivial
  | succ fuel ih =>
    unfold runPool
    refine Leaves.bind (Leaves.query (Op.pick jobs.length) fun choice _ => ?_)
    dsimp only
    cases taken : jobs[choice % jobs.length]? with
    | none => exact Leaves.pure trivial
    | some segment =>
      refine Leaves.bind (Leaves.mono ctxErr_sure fun _ _ _ => ?_)
      refine Leaves.bind (Leaves.mono (checks segment (List.mem_of_getElem? taken)) fun _ blocks _ => ?_)
      exact ih fun other member => checks other (List.mem_of_mem_eraseIdx member)

end Segments

def Cached (host : Host V) (verified : VerifiedCache) (segment : SegmentManifest) : Prop :=
  -- the verifier has seen the segment under this descriptor
  ∃ current, fingerprint host segment = .ok current ∧ verified[segment.key]? = some current

section Archives

variable {verified after fingerprints : VerifiedCache} {segments pending : List SegmentManifest} {opts : VerifyOptions}

theorem pendingSegments_spec (ok : pendingSegments host verified segments fingerprints = .ok (pending, after)) :
    (∀ segment, segment ∈ pending ↔ segment ∈ segments ∧ ¬ Cached host verified segment) ∧
      ∀ key current, after[key]? = some current → fingerprints[key]? = some current ∨
        ∃ segment ∈ segments, segment.key = key ∧ fingerprint host segment = .ok current := by
  induction segments generalizing fingerprints pending after with
  | nil =>
    cases ok
    exact ⟨by simp, fun key current found => .inl found⟩
  | cons segment rest ih =>
    unfold pendingSegments at ok
    obtain ⟨current, printed, ok⟩ := bind_eq_ok.mp ok
    obtain ⟨⟨others, all⟩, later, ok⟩ := bind_eq_ok.mp ok
    obtain ⟨remaining, entries⟩ := ih later
    have cached : Cached host verified segment ↔ verified[segment.key]? = some current := by
      constructor
      · rintro ⟨seen, again, found⟩
        cases printed.symm.trans again
        exact found
      · exact fun found => ⟨current, printed, found⟩
    have sameEntries : all = after := by
      dsimp only at ok
      split at ok <;> cases ok <;> rfl
    subst sameEntries
    constructor
    · intro other
      dsimp only at ok
      split at ok
      next skipped =>
        cases ok
        rw [remaining, List.mem_cons]
        constructor
        · exact fun ⟨member, fresh⟩ => ⟨.inr member, fresh⟩
        · rintro ⟨rfl | member, fresh⟩
          · exact absurd (cached.mpr skipped) fresh
          · exact ⟨member, fresh⟩
      next fresh =>
        cases ok
        rw [List.mem_cons, List.mem_cons, remaining]
        constructor
        · rintro (rfl | ⟨member, new⟩)
          · exact ⟨.inl rfl, fun seen => fresh (cached.mp seen)⟩
          · exact ⟨.inr member, new⟩
        · rintro ⟨rfl | member, new⟩
          · exact .inl rfl
          · exact .inr ⟨member, new⟩
    · intro key entry found
      rcases entries key entry found with before | ⟨other, member, named, printed⟩
      · rw [GoMap.get_insert] at before
        split at before
        next same =>
          cases before
          exact .inr ⟨segment, List.mem_cons_self, same, printed⟩
        next => exact .inl before
      · exact .inr ⟨other, List.mem_cons_of_mem _ member, named, printed⟩

theorem pendingSegments_defined (json : host.json.Lawful) :
    ∃ pending after, pendingSegments host verified segments fingerprints = .ok (pending, after) := by
  induction segments generalizing fingerprints with
  | nil => exact ⟨_, _, rfl⟩
  | cons segment rest ih =>
    obtain ⟨data, marshalled⟩ := json.segment segment
    have printed : fingerprint host segment = .ok (host.codec.sha256 data) := by
      rw [fingerprint, marshalled]
      rfl
    obtain ⟨pending, after, later⟩ := @ih (fingerprints.insert segment.key (host.codec.sha256 data))
    by_cases skipped : verified[segment.key]? = some (host.codec.sha256 data)
    · refine ⟨pending, after, ?_⟩
      rw [pendingSegments]
      refine bind_eq_ok.mpr ⟨_, printed, bind_eq_ok.mpr ⟨_, later, ?_⟩⟩
      exact if_pos skipped
    · refine ⟨segment :: pending, after, ?_⟩
      rw [pendingSegments]
      refine bind_eq_ok.mpr ⟨_, printed, bind_eq_ok.mpr ⟨_, later, ?_⟩⟩
      exact if_neg skipped

theorem verifyArchive_returns {result : VerifyResult} (full : opts.sampleEvery = 0)
    (returned : (verifyArchive host opts verified).Returns (Truthful s) (result, after)) :
    Loads host opts.manifestKey s result.manifest ∧
      (∀ segment ∈ result.manifest.segments, Cached host verified segment ∨ Readable host s segment) ∧
      ∀ key current, after[key]? = some current →
        ∃ segment ∈ result.manifest.segments, segment.key = key ∧ fingerprint host segment = .ok current := by
  unfold verifyArchive at returned
  obtain ⟨_, -, returned⟩ := returns_bind.mp returned
  obtain ⟨_, -, returned⟩ := returns_bind.mp returned
  obtain ⟨_, -, returned⟩ := returns_bind.mp returned
  obtain ⟨manifest, loaded, returned⟩ := returns_bind.mp returned
  obtain ⟨_, -, returned⟩ := returns_bind.mp returned
  rw [returns_mapErr, loadManifest_returns] at loaded
  split at returned
  next empty =>
    cases returns_pure.mp returned
    exact ⟨loaded, by simp [empty], by simp⟩
  next =>
    obtain ⟨⟨pending, fingerprints⟩, asked, returned⟩ := returns_bind.mp returned
    obtain ⟨⟨segmentsChecked, blocksChecked⟩, pooled, returned⟩ := returns_bind.mp returned
    obtain ⟨_, -, returned⟩ := returns_bind.mp returned
    cases returns_pure.mp returned
    obtain ⟨skipped, entries⟩ := pendingSegments_spec (returns_lift.mp asked)
    rw [full] at pooled
    refine ⟨loaded, ?_, ?_⟩
    · intro segment member
      by_cases seen : Cached host verified segment
      · exact .inl seen
      · obtain ⟨count, checked⟩ := runPool_returns rfl pooled segment ((skipped segment).mpr ⟨member, seen⟩)
        exact .inr (verifySegment_returns checked)
    · intro key current found
      exact (entries key current found).resolve_left (by simp)

theorem verifyArchive_sure {m : Manifest} (json : host.json.Lawful) (full : opts.sampleEvery = 0)
    (loads : Loads host opts.manifestKey s m)
    (readable : ∀ segment ∈ m.segments, Cached host verified segment ∨ Readable host s segment) :
    (verifyArchive host opts verified).Sure (Faithful s) fun returned => returned.1.manifest = m := by
  unfold verifyArchive
  refine Leaves.bind (Leaves.lift (refuse_eq_ok.mpr loads.named_ne) ?_)
  refine Leaves.bind (Leaves.lift (refuse_eq_ok.mpr (by omega)) ?_)
  refine Leaves.bind (Leaves.lift (refuse_eq_ok.mpr (by simp [loads.store])) ?_)
  refine Leaves.bind (Leaves.mapErr (Leaves.mono loads.sure ?_))
  rintro _ _ rfl
  refine Leaves.bind (Leaves.mono ctxErr_sure fun _ _ _ => ?_)
  split
  next => exact Leaves.pure rfl
  next =>
    obtain ⟨pending, fingerprints, asked⟩ := pendingSegments_defined json
    refine Leaves.bind (Leaves.lift asked ?_)
    have skipped := (pendingSegments_spec asked).1
    refine Leaves.bind (Leaves.mono (runPool_sure ?_) ?_)
    · intro segment member
      obtain ⟨inside, fresh⟩ := (skipped segment).mp member
      rw [full]
      exact ((readable segment inside).resolve_left fresh).sure
    · intro _ counts _
      exact Leaves.bind (Leaves.mono ctxErr_sure fun _ _ _ => Leaves.pure rfl)

structure Intact (host : Host V) (key : String) (s : ObjectStore contentOf) (m : Manifest) : Prop where
  loads : Loads host key s m
  readable : ∀ segment ∈ m.segments, Readable host s segment

theorem verify_returns {result : VerifyResult} (full : opts.sampleEvery = 0)
    (returned : (verify host opts).Returns (Truthful s) result) : Intact host opts.manifestKey s result.manifest := by
  unfold verify at returned
  obtain ⟨⟨checked, after⟩, archived, returned⟩ := returns_bind.mp returned
  cases returns_pure.mp returned
  obtain ⟨loads, readable, -⟩ := verifyArchive_returns full archived
  refine ⟨loads, ?_⟩
  intro segment member
  refine (readable segment member).resolve_left ?_
  rintro ⟨current, -, found⟩
  simp at found

theorem Intact.decodes_block {m : Manifest} {segment : SegmentManifest} {height : Int} (intact : Intact host key s m)
    (listed : segment ∈ m.segments) (above : segment.firstHeight ≤ height) (below : height ≤ segment.lastHeight) :
    ∃ object block, s.objects segment.key = some object ∧
      decodeSegmentBlock host.codec host.comet object.data segment height = .ok block ∧
      m.Names host.comet height block := by
  obtain ⟨object, records, stored, decoded⟩ := intact.readable segment listed
  obtain ⟨block, found, same, indexes⟩ := decodeSegmentBlock_spec decoded above below
  exact ⟨object, block, stored, found, same, segment, listed, indexes⟩

theorem Intact.sure {m : Manifest} (json : host.json.Lawful) (full : opts.sampleEvery = 0)
    (intact : Intact host opts.manifestKey s m) :
    (verify host opts).Sure (Faithful s) fun result => result.manifest = m := by
  unfold verify
  refine Leaves.bind (Leaves.mono (verifyArchive_sure json full intact.loads fun segment member => ?_) ?_)
  · exact .inr (intact.readable segment member)
  · rintro _ ⟨result, after⟩ same
    exact Leaves.pure same

end Archives

end CometArchive.Archive
