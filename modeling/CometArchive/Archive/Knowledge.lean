import CometArchive.Archive.Migrate

set_option autoImplicit false

namespace CometArchive.Archive

open GoBytes GoError Programs Programs.Fallible

inductive Knowledge where
  | unknown
  | missing
  | found (data : Bytes) (revision : String)
  -- a conditional write failed, and may or may not have taken effect
  | refused

def learn (key : String) (before : Knowledge) : Entry Op Op.Res → Knowledge
  | ⟨.getVersioned other, .ok (data, revision)⟩ => if other = key then .found data revision else before
  | ⟨.getVersioned other, .error err⟩ => if other = key ∧ err.is .objectNotFound = true then .missing else before
  | ⟨.compareAndSwap other data _, .ok revision⟩ => if other = key then .found data revision else before
  | ⟨.compareAndSwap other _ _, .error _⟩ => if other = key then .refused else before
  | _ => before

def known (key : String) (history : History) : Knowledge := history.foldl (learn key) .unknown

theorem known_snoc (key : String) (history : History) (entry : Entry Op Op.Res) :
    known key (history ++ [entry]) = learn key (known key history) entry := by
  rw [known, List.foldl_append]
  rfl

def Calm (key : String) (uploads : String → Bytes → Prop) : Op → Prop
  -- calls that say nothing about the object at `key`, and upload only where `uploads` lets them
  | .getVersioned other => other ≠ key
  | .compareAndSwap other _ _ => other ≠ key
  | .putIfAbsent other data => uploads other data
  | .putIfAbsentReturningETag other data => uploads other data
  | .pruneHotStore _ _ => False
  | _ => True

/-- The rules of a process: no call after a failed conditional write, uploads where `uploads` lets them,
and conditional writes of the object at `key` only as `publishes` allows. -/
def May (key : String) (uploads : String → Bytes → Prop) (publishes : History → Bytes → String → Prop)
    (history : History) (op : Op) : Prop :=
  known key history ≠ .refused ∧ match op with
    | .compareAndSwap other data revision => other = key → publishes history data revision
    | .putIfAbsent other data => uploads other data
    | .putIfAbsentReturningETag other data => uploads other data
    | .pruneHotStore _ _ => False
    | _ => True

section Calm

variable {α : Type} {key : String} {uploads : String → Bytes → Prop} {publishes : History → Bytes → String → Prop}
  {history : History}

theorem Calm.learn {op : Op} (calm : Calm key uploads op) (before : Knowledge) (answer : op.Res) :
    learn key before ⟨op, answer⟩ = before := by
  cases op with
  | getVersioned other =>
    have apart : other ≠ key := calm
    rcases answer with err | ⟨data, revision⟩
    · simp [Archive.learn, apart]
    · simp [Archive.learn, apart]
  | compareAndSwap other data revision =>
    have apart : other ≠ key := calm
    cases answer with
    | error err => simp [Archive.learn, apart]
    | ok newRevision => simp [Archive.learn, apart]
  | _ => rfl

theorem known_calm {op : Op} (calm : Calm key uploads op) (answer : op.Res) :
    known key (history ++ [⟨op, answer⟩]) = known key history := by
  rw [known_snoc, calm.learn]

theorem Calm.may {op : Op} (calm : Calm key uploads op) (clean : known key history ≠ .refused) :
    May key uploads publishes history op := by
  refine ⟨clean, ?_⟩
  cases op with
  | compareAndSwap other data revision => exact fun same => absurd same calm
  | putIfAbsent other data => exact calm
  | putIfAbsentReturningETag other data => exact calm
  | pruneHotStore manifest opts => exact calm
  | _ => exact trivial

theorem quiet {p : M α} {fail : History → Err → Prop} {post : History → α → Prop}
    (ok : p.Ok (fun _ op => Calm key uploads op) fail post history) (clean : known key history ≠ .refused) :
    p.Ok (May key uploads publishes) (fun _ _ => True)
      (fun later value => (post later value ∧ known key later = known key history) ∧ history ⊆ later) history := by
  refine Ok.mono (Ok.grows (Ok.carry (fun later => known key later = known key history) ok rfl ?_ ?_))
    (fun _ _ _ => trivial) (fun _ _ holds => holds)
  · intro later op answer same calm
    rw [known_calm calm, same]
  · intro later op same calm
    exact calm.may (same ▸ clean)

end Calm

-- a manifest without what is not part of its text
def Manifest.content (m : Manifest) : Manifest := { m with revision := "", sourceKey := "" }

theorem Manifest.Valid.of_content {m m' : Manifest} (valid : m.Valid) (same : m'.content = m.content) : m'.Valid := by
  obtain ⟨version, chainID, times, segments, keys, range⟩ := valid
  simp only [Manifest.content, Manifest.mk.injEq, true_and] at same
  obtain ⟨sameVersion, sameChain, sameFirst, sameLast, sameCreated, sameUpdated, sameSegments⟩ := same
  exact ⟨sameVersion ▸ version, sameChain ▸ chainID, by rw [sameCreated, sameUpdated]; exact times,
    sameSegments ▸ segments, sameSegments ▸ keys, by rw [sameSegments, sameFirst, sameLast]; exact range⟩

/-- What the archive relies on: a valid manifest reads back as it was, and a descriptor can be written. -/
structure Json.Lawful (json : Json) : Prop where
  manifest : ∀ m data, m.Valid → json.marshalManifest m = .ok data →
    ∃ read, json.unmarshalManifest (data ++ [10]) = .ok read ∧ read.content = m.content
  segment : ∀ segment, ∃ data, json.marshalSegment segment = .ok data

section Manifests

variable {V : Type} (host : Host V) {key : String} {uploads : String → Bytes → Prop}
  {publishes : History → Bytes → String → Prop} {history : History}

def Holds (data : Bytes) (m : Manifest) : Prop :=
  ∃ read, host.json.unmarshalManifest data = .ok read ∧ read.content = m.content

/-- The manifest in memory is the one last loaded or published, or an empty one if there was none. -/
def Based (key : String) (m : Manifest) : Knowledge → Prop
  | .found data revision => m.revision = revision ∧ m.sourceKey = key ∧ Holds host data m
  | .missing => m.revision = "" ∧ m.sourceKey = "" ∧ m.segments = []
  | _ => False

variable {host}

theorem Based.clean {m : Manifest} {knowledge : Knowledge} (based : Based host key m knowledge) :
    knowledge ≠ .refused := by
  rintro rfl
  exact based

theorem textual_plain {α : Type} (result : Except String α) : Plain (textual result) := by
  cases result with
  | error text => exact Plain.new text
  | ok value => exact Plain.ok value

theorem textual_eq_ok {α : Type} {result : Except String α} {value : α} :
    textual result = .ok value ↔ result = .ok value := by
  cases result <;> simp [textual]

theorem loadManifest_ok (clean : known key history ≠ .refused) :
    (loadManifest host key).Ok (May key uploads publishes)
      (fun later err => err.is .objectNotFound = true → known key later = .missing)
      (fun later m => m.Valid ∧ Based host key m (known key later) ∧ known key later ≠ .missing) history := by
  -- a load that succeeds tells what is there; one that misses the object tells that nothing is
  -- the checks fail with texts
  have plain {α : Type} {result : Except Err α} (plain : Plain result) (later : History) :
      ∀ err, result = .error err → err.is .objectNotFound = true → known key later = .missing := by
    intro err failed missing
    rw [plain err _ failed] at missing
    cases missing
  have text {cond : Prop} [Decidable cond] (message : String) :
      Plain (refuse cond (.new message : Err)) := Plain.refuse fun _ => rfl
  unfold loadManifest
  refine Ok.check (plain (Plain.wrapping (validateObjectKey_plain key)) history) fun _ _ => ?_
  refine Ok.check (plain (text _) history) fun _ _ => ?_
  refine Ok.bind (Ok.attempt ⟨clean, trivial⟩ ?_ ?_)
  · rintro answer err rfl missing
    simp [known_snoc, learn, missing]
  · rintro answer ⟨data, revision⟩ rfl
    have seen : known key (history ++ [⟨.getVersioned key, .ok (data, revision)⟩]) = .found data revision := by
      simp [known_snoc, learn]
    refine Ok.check (plain (text _) _) fun _ _ => ?_
    refine Ok.check (plain (textual_plain _) _) fun m parsed => ?_
    refine Ok.check (plain (Manifest.validate_plain _) _) fun _ valid => ?_
    apply Ok.pure
    rw [seen]
    exact ⟨Manifest.validate_eq_ok.mp valid, ⟨rfl, rfl, m, textual_eq_ok.mp parsed, rfl⟩, by rintro ⟨⟩⟩

theorem createManifest_ok {chainID : String} {segments : List SegmentManifest} (clean : known key history ≠ .refused) :
    (createManifest chainID segments).Ok (May key uploads publishes) (fun _ _ => True)
      (fun later m => (∃ now, m = (newManifest chainID segments now).1 ∧ m.Valid) ∧ known key later = known key history)
      history := by
  unfold createManifest
  refine Ok.bind (Ok.query Op.now ⟨clean, trivial⟩ ?_)
  intro now
  refine Ok.check (fun _ _ => trivial) fun _ valid => ?_
  exact Ok.pure ⟨⟨now, rfl, Manifest.validate_eq_ok.mp valid⟩, by rw [known_snoc]; rfl⟩

theorem loadOrCreateLiveManifest_ok {chainID : String} (clean : known key history ≠ .refused) :
    (loadOrCreateLiveManifest host key chainID).Ok (May key uploads publishes) (fun _ _ => True)
      (fun later m => m.Valid ∧ Based host key m (known key later)) history := by
  unfold loadOrCreateLiveManifest
  refine Ok.recover (Ok.mono (loadManifest_ok clean) ?_ fun _ _ holds => ⟨holds.1, holds.2.1⟩)
  intro later err missed
  split
  next missing =>
    have absent := missed missing
    refine Ok.mono (createManifest_ok (by simp [absent])) (fun _ _ _ => trivial) ?_
    rintro last m ⟨⟨now, rfl, valid⟩, same⟩
    rw [same, absent]
    exact ⟨valid, rfl, rfl, rfl⟩
  next => exact Ok.lift (fun _ _ => trivial) (by rintro _ ⟨⟩)

theorem saveManifest_ok {m : Manifest} (json : host.json.Lawful) (clean : known key history ≠ .refused)
    (allowed : ∀ data, validateObjectKey key = .ok () → m.Valid → Holds host data m →
      (data.length : Int) ≤ maxManifestBytes → publishes history data m.revision) :
    (saveManifest host key m).Ok (May key uploads publishes) (fun _ _ => True)
      (fun later m' => m'.content = m.content ∧ m'.Valid ∧ Based host key m' (known key later)) history := by
  unfold saveManifest
  refine Ok.check (fun _ _ => trivial) fun _ named => ?_
  refine Ok.check (fun _ _ => trivial) fun _ _ => ?_
  refine Ok.check (fun _ _ => trivial) fun _ _ => ?_
  refine Ok.check (fun _ _ => trivial) fun _ checked => ?_
  refine Ok.check (fun _ _ => trivial) fun encoded marshalled => ?_
  refine Ok.check (fun _ _ => trivial) fun _ fits => ?_
  have valid := Manifest.validate_eq_ok.mp checked
  rw [textual_eq_ok] at marshalled
  rw [refuse_eq_ok] at fits
  have holds : Holds host (encoded ++ [10]) m := json.manifest m encoded valid marshalled
  refine Ok.bind (Ok.mapErr (Ok.attempt ⟨clean, fun _ => allowed _ (wrapping_eq_ok.mp named) valid holds (by omega)⟩
    (fun _ _ _ => trivial) ?_))
  rintro answer revision rfl
  apply Ok.pure
  refine ⟨rfl, valid.of_content rfl, ?_⟩
  simp only [known_snoc, learn, if_true]
  exact ⟨rfl, rfl, holds⟩

end Manifests

end CometArchive.Archive
