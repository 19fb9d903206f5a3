import CometArchive.Archive.Integrity

set_option autoImplicit false

namespace CometArchive.Archive

open GoBytes GoError Programs Programs.Fallible Runs

variable {V : Type} {host : Host V} {contentOf : String → Bytes} {key : String} {described : SegmentManifest → Prop}

section InPlace

variable {α β : Type}

/-- Code that changes the map it is given; an error keeps what was written before it. -/
abbrev InPlace := ExceptT Err (StateT VerifiedCache (Prog Op Op.Res))

def aside (p : M α) : InPlace α := ExceptT.mk (StateT.lift p.run)

def verifyInPlace (host : Host V) (opts : VerifyOptions) : InPlace VerifyResult := do
  -- `verifyArchive` where it clears the map and fills it again
  aside (lift (refuse (opts.manifestKey = "") (.new "manifest key is required")))
  aside (lift (refuse (opts.sampleEvery < 0) (.new "sample every cannot be negative")))
  aside (lift (refuse (host.hasStore = false) (.new "object store is required")))
  let manifest ← aside (mapErr (fun err =>
    if err.is .objectNotFound then .both (.sentinel .manifestNotFound) err else err) (loadManifest host opts.manifestKey))
  aside ctxErr
  if manifest.segments = [] then
    set (∅ : VerifiedCache)
    return { manifest, segmentsChecked := 0, blocksChecked := 0 }
  else
    let verified ← getThe VerifiedCache
    let (pending, fingerprints) ← aside (lift (pendingSegments host verified manifest.segments ∅))
    let (segmentsChecked, blocksChecked) ←
      aside (runPool (verifySegment host manifest.firstHeight opts.sampleEvery) pending.length pending (0, 0))
    aside ctxErr
    set fingerprints
    return { manifest, segmentsChecked, blocksChecked }

def mapAfter (verified : VerifiedCache) : Except Err (α × VerifiedCache) → Except Err α × VerifiedCache
  -- the map after a call that returns the contents it is to have
  | .ok (value, after) => (.ok value, after)
  | .error err => (.error err, verified)

/-- The map is written at the end of the code or not at all. -/
def WritesLast (q : InPlace α) (p : M (α × VerifiedCache)) (verified : VerifiedCache) : Prop :=
  q.run.run verified = p.run >>= fun checked => .ret (mapAfter verified checked)

theorem WritesLast.aside {p : M β} {f : β → InPlace α} {g : β → M (α × VerifiedCache)} {verified : VerifiedCache}
    (rest : ∀ value, WritesLast (f value) (g value) verified) : WritesLast (aside p >>= f) (p >>= g) verified := by
  unfold WritesLast at rest ⊢
  change (p.run >>= fun outcome => _) >>= _ = (p.run >>= fun outcome => _) >>= _
  generalize p.run = calls
  induction calls with
  | ret outcome =>
    cases outcome with
    | ok value => exact rest value
    | error err => rfl
  | call op next ih => exact congrArg (Prog.call op) (funext ih)

theorem WritesLast.set (value : α) (verified after : VerifiedCache) :
    WritesLast (do set after; return value) (return (value, after)) verified := rfl

theorem WritesLast.get {f : VerifiedCache → InPlace α} {p : M (α × VerifiedCache)} {verified : VerifiedCache}
    (rest : WritesLast (f verified) p verified) : WritesLast (getThe VerifiedCache >>= f) p verified := rest

theorem verifyInPlace_writesLast (opts : VerifyOptions) (verified : VerifiedCache) :
    WritesLast (verifyInPlace host opts) (verifyArchive host opts verified) verified := by
  unfold verifyInPlace verifyArchive
  refine .aside fun _ => .aside fun _ => .aside fun _ => .aside fun manifest => .aside fun _ => ?_
  split
  · exact .set ..
  · exact .get (.aside fun _ => .aside fun _ => .aside fun _ => .set ..)

end InPlace

structure Watch (contentOf : String → Bytes) where
  store : ObjectStore contentOf
  verified : VerifiedCache

inductive WatchEvent where
  | changed
  | verified (result : Except Err VerifyResult)

def incrementalVerify (host : Host V) (key : String) : InPlace VerifyResult :=
  verifyInPlace host { manifestKey := key, sampleEvery := 0 }

def fullVerify (host : Host V) (key : String) : M VerifyResult := verify host { manifestKey := key, sampleEvery := 0 }

def Describes (host : Host V) (key : String) (described : SegmentManifest → Prop) (s : ObjectStore contentOf) : Prop :=
  -- the manifest lists only descriptors among `described`
  ∀ m, Loads host key s m → ∀ segment ∈ m.segments, described segment

/-- Between two verifications anything may happen to the store, but for its segments. -/
inductive WatchStep (host : Host V) (key : String) (described : SegmentManifest → Prop) :
    Watch contentOf → WatchEvent → Watch contentOf → Prop
  | changed {w : Watch contentOf} {s : ObjectStore contentOf} (keeps : KeepsSegments w.store s)
    (describes : Describes host key described s) : WatchStep host key described w .changed { w with store := s }
  | verified {w : Watch contentOf} {result : Except Err VerifyResult} {after : VerifiedCache}
    (ended : ((incrementalVerify host key).run.run w.verified).Outcome (Truthful w.store) (result, after)) :
    WatchStep host key described w (.verified result) { w with verified := after }

def Accepted (events : List WatchEvent) (segment : SegmentManifest) : Prop :=
  ∃ result, .verified (.ok result) ∈ events ∧ segment ∈ result.manifest.segments

structure Watch.Sound (host : Host V) (key : String) (described : SegmentManifest → Prop) (events : List WatchEvent)
    (w : Watch contentOf) : Prop where
  describes : Describes host key described w.store
  entries : ∀ other current, w.verified[other]? = some current →
    ∃ segment, segment.key = other ∧ fingerprint host segment = .ok current ∧ described segment ∧
      Readable host w.store segment ∧ Accepted events segment

section Outcomes

variable {honest : (op : Op) → op.Res → Prop} {verified after : VerifiedCache} {result : VerifyResult} {err : Err}

theorem incrementalVerify_outcome {outcome : Except Err VerifyResult × VerifiedCache} :
    ((incrementalVerify host key).run.run verified).Outcome honest outcome ↔
      ∃ checked, (verifyArchive host { manifestKey := key, sampleEvery := 0 } verified).run.Outcome honest checked ∧
        outcome = mapAfter verified checked := by
  rw [incrementalVerify, verifyInPlace_writesLast, Prog.outcome_bind]
  rfl

theorem incrementalVerify_ok : ((incrementalVerify host key).run.run verified).Outcome honest (.ok result, after) ↔
    (verifyArchive host { manifestKey := key, sampleEvery := 0 } verified).Returns honest (result, after) := by
  rw [incrementalVerify_outcome]
  constructor
  · rintro ⟨checked, ended, same⟩
    cases checked with
    | error err => cases same
    | ok returned =>
      cases same
      exact ended
  · exact fun returned => ⟨_, returned, rfl⟩

theorem incrementalVerify_error
    (failed : ((incrementalVerify host key).run.run verified).Outcome honest (.error err, after)) : after = verified := by
  obtain ⟨checked, -, same⟩ := incrementalVerify_outcome.mp failed
  cases checked with
  | ok returned => cases same
  | error err =>
    cases same
    rfl

end Outcomes

section Runs

variable {w w' : Watch contentOf} {events : List WatchEvent}

def Fingerprinted (host : Host V) (described : SegmentManifest → Prop) : Prop :=
  ∀ a b current, described a → described b → fingerprint host a = .ok current → fingerprint host b = .ok current → a = b

theorem Accepted.mono {segment : SegmentManifest} (accepted : Accepted events segment) (event : WatchEvent) :
    Accepted (events ++ [event]) segment := by
  obtain ⟨result, member, listed⟩ := accepted
  exact ⟨result, List.mem_append_left _ member, listed⟩

theorem Watch.Sound.skipped (sound : w.Sound host key described events) (prints : Fingerprinted host described)
    {segment : SegmentManifest} (listed : described segment) (cached : Cached host w.verified segment) :
    Readable host w.store segment ∧ Accepted events segment := by
  -- what is skipped has been accepted under the same descriptor, and is still there
  obtain ⟨current, printed, found⟩ := cached
  obtain ⟨other, -, printedOther, listedOther, readable, accepted⟩ := sound.entries _ _ found
  cases prints _ _ _ listedOther listed printedOther printed
  exact ⟨readable, accepted⟩

theorem WatchStep.sound {event : WatchEvent} (prints : Fingerprinted host described)
    (sound : w.Sound host key described events) (step : WatchStep host key described w event w') :
    w'.Sound host key described (events ++ [event]) := by
  cases step with
  | changed keeps describes =>
    refine ⟨describes, ?_⟩
    intro other current found
    obtain ⟨segment, named, printed, listed, readable, accepted⟩ := sound.entries other current found
    exact ⟨segment, named, printed, listed, readable.keeps keeps, accepted.mono _⟩
  | @verified result after ended =>
    refine ⟨sound.describes, ?_⟩
    intro other current found
    cases result with
    | error err =>
      cases incrementalVerify_error ended
      obtain ⟨segment, named, printed, listed, readable, accepted⟩ := sound.entries other current found
      exact ⟨segment, named, printed, listed, readable, accepted.mono _⟩
    | ok result =>
      -- the map holds the segments of the manifest just verified, skipped or not
      obtain ⟨loads, checked, entries⟩ := verifyArchive_returns rfl (incrementalVerify_ok.mp ended)
      obtain ⟨segment, member, named, printed⟩ := entries other current found
      have listed := sound.describes _ loads segment member
      refine ⟨segment, named, printed, listed, ?_, result, List.mem_append_right _ List.mem_cons_self, member⟩
      rcases checked segment member with cached | readable
      · exact (sound.skipped prints listed cached).1
      · exact readable

theorem Watch.run_sound {start : ObjectStore contentOf} (prints : Fingerprinted host described)
    (describes : Describes host key described start)
    (run : Run (WatchStep host key described) ⟨start, ∅⟩ events w) : w.Sound host key described events := by
  refine run.invariant (fun events w => w.Sound host key described events) ⟨describes, by simp⟩ ?_
  intro events w event w' sound step
  exact step.sound prints sound

end Runs

/-- From a new verifier on, whatever happens to the manifest, a verification succeeds exactly if a full one
does, and skips only what was accepted under the same descriptor. -/
theorem incremental_verify_eq_full {start : ObjectStore contentOf} {w : Watch contentOf} {events : List WatchEvent}
    (json : host.json.Lawful) (prints : Fingerprinted host described) (describes : Describes host key described start)
    (run : Run (WatchStep host key described) ⟨start, ∅⟩ events w) :
    (∀ result after, ((incrementalVerify host key).run.run w.verified).Outcome (Faithful w.store) (.ok result, after) →
      (fullVerify host key).Sure (Faithful w.store) fun full => full.manifest = result.manifest) ∧
    (∀ full, (fullVerify host key).Returns (Faithful w.store) full →
      ∀ outcome after, ((incrementalVerify host key).run.run w.verified).Outcome (Faithful w.store) (outcome, after) →
        ∃ result, outcome = .ok result ∧ result.manifest = full.manifest) ∧
    (∀ m, Loads host key w.store m → ∀ segment ∈ m.segments, Cached host w.verified segment →
      Readable host w.store segment ∧ Accepted events segment) ∧
    ∀ err w', WatchStep host key described w (.verified (.error err)) w' → w' = w := by
  have sound := Watch.run_sound prints describes run
  refine ⟨?_, ?_, ?_, ?_⟩
  · intro result after ended
    obtain ⟨loads, checked, -⟩ := verifyArchive_returns rfl (returns_truthful (incrementalVerify_ok.mp ended))
    apply Intact.sure json rfl
    refine ⟨loads, ?_⟩
    intro segment member
    rcases checked segment member with cached | readable
    · exact (sound.skipped prints (sound.describes _ loads segment member) cached).1
    · exact readable
  · intro full returned outcome after ended
    have intact := verify_returns rfl (returns_truthful returned)
    have sure : (verifyArchive host { manifestKey := key, sampleEvery := 0 } w.verified).Sure (Faithful w.store) fun returned =>
        returned.1.manifest = full.manifest :=
      verifyArchive_sure json rfl intact.loads fun segment member => .inr (intact.readable segment member)
    obtain ⟨checked, went, same⟩ := incrementalVerify_outcome.mp ended
    obtain ⟨⟨result, now⟩, rfl, manifest⟩ := sure.outcome went
    cases same
    exact ⟨result, rfl, manifest⟩
  · intro m loads segment member cached
    exact sound.skipped prints (sound.describes m loads segment member) cached
  · intro err w' step
    cases step with
    | verified ended => rw [incrementalVerify_error ended]

section Sample

theorem sampleStore_describes (manifestKey : String) (s : ObjectStore spelledContent) :
    Describes sampleHost manifestKey (· = sampleSegment) s := by
  rintro m ⟨-, -, ⟨object, read, -, -, parsed, rfl⟩, -⟩ segment member
  simp only [sampleHost, Json.only] at parsed
  split at parsed
  · cases parsed
    exact List.mem_singleton.mp member
  · cases parsed

theorem incremental_verify_sample : ∃ (start : ObjectStore spelledContent) (events : List WatchEvent)
    (w : Watch spelledContent),
    Run (WatchStep sampleHost (sampleJob "").key (· = sampleSegment)) ⟨start, ∅⟩ events w ∧
      (∃ result, .verified (.ok result) ∈ events) ∧
      ∃ manifest, ∀ outcome after, ((incrementalVerify sampleHost (sampleJob "").key).run.run w.verified).Outcome
        (Faithful w.store) (outcome, after) → ∃ result, outcome = .ok result ∧ result.manifest = manifest := by
  obtain ⟨store, manifest, intact⟩ := sampleStore_intact
  generalize (sampleJob "").key = key at *
  have first : (verifyArchive sampleHost { manifestKey := key, sampleEvery := 0 } ∅).Sure (Faithful store) fun returned =>
      returned.1.manifest = manifest :=
    verifyArchive_sure sampleHost_lawful rfl intact.loads fun segment member => .inr (intact.readable segment member)
  obtain ⟨⟨result, after⟩, returned, -⟩ := first.returns (faithful_served store)
  have step : WatchStep sampleHost key (· = sampleSegment) ⟨store, ∅⟩ (.verified (.ok result)) ⟨store, after⟩ :=
    WatchStep.verified (incrementalVerify_ok.mpr (returns_truthful returned))
  have prints : Fingerprinted sampleHost (· = sampleSegment) := by
    rintro a b current rfl rfl _ _
    rfl
  have run := Run.cons step .refl
  obtain ⟨-, again, -⟩ := incremental_verify_eq_full sampleHost_lawful prints (sampleStore_describes _ _) run
  have whole : (fullVerify sampleHost key).Sure (Faithful store) fun result => result.manifest = manifest := by
    apply Intact.sure sampleHost_lawful rfl
    exact intact
  obtain ⟨full, verified, -⟩ := whole.returns (faithful_served store)
  exact ⟨store, _, _, run, ⟨_, List.mem_singleton_self _⟩, full.manifest, again full verified⟩

end Sample

end CometArchive.Archive
