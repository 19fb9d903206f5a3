import CometArchive.Archive.LiveContinuation
import CometArchive.Archive.MigratePublish

set_option autoImplicit false

namespace CometArchive.Archive

open GoBytes GoError Programs Programs.Fallible

variable {V : Type} (host : Host V) {contentOf : String → Bytes}

-- a state without what is not part of its text
def MigrationState.content (state : MigrationState) : MigrationState := { state with revision := "", sourceKey := "" }

/-- What a migration relies on: a valid state reads back as it was, and no JSON text starts as a segment does. -/
structure Json.LawfulStates (json : Json) : Prop where
  state : ∀ state data, validateMigrationState state = .ok () → json.marshalState state = .ok data →
    ∃ read, json.unmarshalState (data ++ [10]) = .ok read ∧ read.content = state.content
  rejects : ∀ data, IsSegment data → ∃ text, json.unmarshalState data = .error text

def HoldsState (data : Bytes) (state : MigrationState) : Prop :=
  ∃ read, host.json.unmarshalState data = .ok read ∧ read.content = state.content

def MigrationOptions.live (opts : MigrationOptions) : LiveArchiveOptions where
  chainID := opts.chainID
  keyPrefix := opts.keyPrefix
  manifestName := opts.manifestName
  manifestKey := opts.manifestKey
  startHeight := opts.startHeight
  readyHeight := opts.endHeight
  segmentBlocks := if opts.segmentBlocks ≤ 0 then defaultSegmentBlocks else opts.segmentBlocks
  compression := orDefaultCompression opts.compression

structure Target where
  chainID : String
  start : Int
  stop : Int
  key : String
  stateKey : String
  -- where a state of an older version is looked for
  legacyKey : Option String

def MigrationOptions.target (opts : MigrationOptions) (source : Source) : Target where
  chainID := opts.chainID
  start := if opts.startHeight = 0 then source.base else opts.startHeight
  stop := if opts.endHeight = 0 then source.height else opts.endHeight
  key := chosenManifestKey opts.keyPrefix opts.chainID opts.manifestName opts.manifestKey
  stateKey := chosenStateKey opts.keyPrefix opts.chainID opts.manifestName opts.manifestKey
  legacyKey :=
    if opts.manifestKey = "" ∧ (opts.manifestName = "" ∨ opts.manifestName = defaultManifest) then
      some (legacyMigrationStateKey opts.keyPrefix opts.chainID)
    else none

-- the keys a state is looked for at
def Target.States (target : Target) (key : String) : Prop := key = target.stateKey ∨ target.legacyKey = some key

/-- The segments follow each other from `height` to before `next`. Each is as long as it can be up to `stop` with
options that were used. -/
def Migrated (answers : (op : Op) → op.Res → Prop) (used : MigrationOptions → Prop) (stop : Int) :
    Int → List SegmentManifest → Int → Prop
  | height, [], next => next = height
  | height, segment :: rest, next => height ≤ stop ∧ ∃ opts, used opts ∧
    LiveSegment host answers opts.live height (min (height + opts.live.segmentBlocks - 1) stop) segment ∧
      Migrated answers used stop (min (height + opts.live.segmentBlocks - 1) stop + 1) rest next

def GenuineState (source : Source) (used : MigrationOptions → Prop) (target : Target) (data : Bytes) : Prop :=
  -- a state of this migration in these bytes lists segments of the reader
  ∀ state, host.json.unmarshalState data = .ok state → validateMigrationState state = .ok () →
    state.chainID = target.chainID → state.startHeight = target.start → state.endHeight = target.stop →
      Migrated host source.Answers used target.stop target.start state.segments state.nextHeight

def Resumable (source : Source) (used : MigrationOptions → Prop) (target : Target) (s : ObjectStore contentOf) : Prop :=
  ∀ key, target.States key → ∀ object, s.objects key = some object → GenuineState host source used target object.data

def Complete (target : Target) (s : ObjectStore contentOf) : Prop :=
  ∃ object state, s.objects target.stateKey = some object ∧ host.json.unmarshalState object.data = .ok state ∧
    target.stop < state.nextHeight

def Uploading : Op → Prop
  | .putIfAbsent _ _ | .putIfAbsentReturningETag _ _ => True
  | _ => False

def Harms (target : Target) (op : Op) (s s' : ObjectStore contentOf) : Prop :=
  ¬ KeepsSegments s s' ∨ Complete host target s ∧ (Uploading op ∨ ¬ Complete host target s')

/-- The calls of a migration that is alone, with a count of those that do harm. -/
def Migrating (source : Source) (target : Target) :
    (op : Op) → ObjectStore contentOf × Nat → op.Res → ObjectStore contentOf × Nat → Prop :=
  counted (Harms host target) (Alone host source.Answers)

variable {host}

section Lists

variable {answers : (op : Op) → op.Res → Prop} {used : MigrationOptions → Prop} {opts : MigrationOptions}
  {stop start height mid next : Int} {segment : SegmentManifest} {segments more whole : List SegmentManifest}

theorem MigrationOptions.live_blocks (opts : MigrationOptions) : 0 < opts.live.segmentBlocks := by
  unfold MigrationOptions.live defaultSegmentBlocks
  dsimp only
  split <;> omega

theorem Migrated.append (front : Migrated host answers used stop height segments mid)
    (back : Migrated host answers used stop mid more next) :
    Migrated host answers used stop height (segments ++ more) next := by
  induction segments generalizing height with
  | nil =>
    cases (front : mid = height)
    exact back
  | cons segment rest ih =>
    obtain ⟨inside, opts, chosen, live, front⟩ := front
    exact ⟨inside, opts, chosen, live, ih front⟩

theorem Migrated.snoc (front : Migrated host answers used stop start segments height) (inside : height ≤ stop)
    (chosen : used opts)
    (live : LiveSegment host answers opts.live height (min (height + opts.live.segmentBlocks - 1) stop) segment) :
    Migrated host answers used stop start (segments ++ [segment]) (min (height + opts.live.segmentBlocks - 1) stop + 1) :=
  front.append ⟨inside, opts, chosen, live, rfl⟩

theorem Migrated.next_le (migrated : Migrated host answers used stop start segments next) (range : start ≤ stop + 1) :
    next ≤ stop + 1 := by
  induction segments generalizing start with
  | nil => exact (show next = start from migrated) ▸ range
  | cons segment rest ih =>
    obtain ⟨-, opts, -, -, migrated⟩ := migrated
    exact ih migrated (by omega)

theorem Migrated.tiles (placed : ByHeight answers) (migrated : Migrated host answers used stop start segments next) :
    Tiles start segments next := by
  induction segments generalizing start with
  | nil => exact (show next = start from migrated).symm
  | cons segment rest ih =>
    obtain ⟨-, opts, -, live, migrated⟩ := migrated
    obtain ⟨first, last, -⟩ := live.spec placed
    refine ⟨first, ?_⟩
    rw [last]
    exact ih migrated

theorem Migrated.entries (placed : ByHeight answers) (migrated : Migrated host answers used stop start segments next) :
    ∀ segment ∈ segments, ∀ entry ∈ segment.blocks, ∃ block, answers (.loadBlock entry.height) (some block) ∧
      entry.hash = hexEncode (host.comet.blockHash block) := by
  induction segments generalizing start with
  | nil => simp
  | cons segment rest ih =>
    obtain ⟨-, opts, -, live, migrated⟩ := migrated
    obtain ⟨-, -, -, entries⟩ := live.spec placed
    intro other member
    rcases List.mem_cons.mp member with rfl | member
    · exact entries
    · exact ih migrated other member

theorem Migrated.tiling (single : ∀ other, used other → other = opts)
    (migrated : Migrated host answers used stop start segments next) :
    LiveTiling host answers opts.live stop start segments next := by
  induction segments generalizing start with
  | nil => exact migrated
  | cons segment rest ih =>
    obtain ⟨inside, other, chosen, live, migrated⟩ := migrated
    obtain rfl := single other chosen
    exact ⟨inside, live, ih migrated⟩

theorem LiveTiling.complete_unique {opts : LiveArchiveOptions} {last last' : Int} (steady : Steady answers)
    (here : LiveTiling host answers opts stop start segments last) (through : stop < last)
    (there : LiveTiling host answers opts stop start whole last') (through' : stop < last') : segments = whole := by
  have front := here.part steady there through'
  have back := there.part steady here through
  exact front.eq_of_length (Nat.le_antisymm front.length_le back.length_le)

theorem Migrated.le (migrated : Migrated host answers used stop start segments next) : start ≤ next := by
  induction segments generalizing start with
  | nil => exact le_of_eq (show next = start from migrated).symm
  | cons segment rest ih =>
    obtain ⟨inside, opts, -, -, migrated⟩ := migrated
    have blocks := opts.live_blocks
    have later := ih migrated
    omega

theorem Migrated.first_lt (placed : ByHeight answers) (migrated : Migrated host answers used stop start segments next) :
    ∀ other ∈ segments, other.firstHeight < next := by
  induction segments generalizing start with
  | nil => simp
  | cons segment rest ih =>
    obtain ⟨inside, opts, -, live, migrated⟩ := migrated
    have blocks := opts.live_blocks
    have later := migrated.le
    obtain ⟨first, -⟩ := live.spec placed
    intro other member
    rcases List.mem_cons.mp member with rfl | member
    · omega
    · exact ih migrated other member

theorem Migrated.appendSegment (placed : ByHeight answers) (migrated : Migrated host answers used stop start segments height)
    (first : segment.firstHeight = height) : appendSegment segments segment = segments ++ [segment] := by
  have none : segments.findIdx? (fun existing =>
      decide (existing.firstHeight = segment.firstHeight ∧ existing.lastHeight = segment.lastHeight)) = none := by
    rw [List.findIdx?_eq_none_iff]
    intro other member
    have below := migrated.first_lt placed other member
    simp only [decide_eq_false_iff_not, not_and]
    omega
  rw [Archive.appendSegment, none]

end Lists

section States

variable {state state' : MigrationState}

theorem HoldsState.not_segment {data : Bytes} (lawful : host.json.LawfulStates) (holds : HoldsState host data state) :
    ¬ IsSegment data := by
  intro segment
  obtain ⟨read, parsed, -⟩ := holds
  obtain ⟨text, rejected⟩ := lawful.rejects data segment
  cases parsed.symm.trans rejected

theorem validateMigrationState_pos (valid : validateMigrationState state = .ok ()) : 0 < state.startHeight := by
  simp only [validateMigrationState, then_eq_ok, refuse_eq_ok] at valid
  exact not_le.mp valid.2.1

end States

section Stores

variable {source : Source} {used : MigrationOptions → Prop} {target : Target} {s s' : ObjectStore contentOf}
  {t t' : ObjectStore contentOf × Nat} {op : Op} {answer : op.Res} {state : MigrationState}

def Adds (s s' : ObjectStore contentOf) : Prop :=
  -- nothing but segments was added, and nothing altered
  ∀ key, s'.objects key = s.objects key ∨
    s.objects key = none ∧ ∃ object, s'.objects key = some object ∧ IsSegment object.data

theorem Adds.refl (s : ObjectStore contentOf) : Adds s s := fun _ => .inl rfl

theorem Adds.trans {s'' : ObjectStore contentOf} (first : Adds s s') (second : Adds s' s'') : Adds s s'' := by
  intro key
  rcases second key with same | ⟨absent, new⟩
  · rw [same]
    exact first key
  · rcases first key with same | ⟨-, object, there, -⟩
    · exact .inr ⟨same ▸ absent, new⟩
    · cases absent.symm.trans there

theorem Adds.kept (adds : Adds s s') {key : String} {object : Object} (found : s.objects key = some object) :
    s'.objects key = some object := by
  rcases adds key with same | ⟨absent, -⟩
  · rw [same, found]
  · cases absent.symm.trans found

theorem Adds.keepsSegments (adds : Adds s s') : KeepsSegments s s' := fun _ _ found _ => adds.kept found

theorem Uploads.adds {stores : Bytes → Bytes → Prop} {other : String} {data : Bytes} (segment : IsSegment data)
    (exactly : ∀ stored, stores data stored → stored = data) (uploads : Uploads stores s other data s') : Adds s s' := by
  obtain ⟨absent, ⟨stored, revision⟩, same, written⟩ := uploads
  obtain rfl := exactly stored same
  intro key
  rw [show s'.objects = _ from written]
  by_cases here : key = other
  · subst here
    rw [Function.update_self]
    exact .inr ⟨absent, _, rfl, segment⟩
  · rw [Function.update_of_ne here]
    exact .inl rfl

theorem Alone.adds {answers : (op : Op) → op.Res → Prop} (building : Building op)
    (taken : Alone host answers op s answer s') : Adds s s' := by
  have same (unchanged : s' = s) : Adds s s' := unchanged ▸ Adds.refl s
  obtain ⟨taken, -⟩ := taken
  cases op with
  | get other => cases answer <;> exact same taken.1
  | existsKey other =>
    cases answer with
    | error err => exact same taken
    | ok found => exact same taken.1
  | loadBlock height => exact same taken
  | ctxErr => exact same taken
  | putIfAbsent other data =>
    cases answer with
    | error err => exact taken.elim same fun uploads => uploads.adds building fun _ => id
    | ok _ =>
      dsimp only [Effect] at taken
      exact Uploads.adds building (fun _ => id) taken
  | putIfAbsentReturningETag other data =>
    cases answer with
    | error err => exact taken.elim same fun uploads => uploads.adds building fun _ => id
    | ok etag =>
      dsimp only [Effect] at taken
      exact Uploads.adds building (fun _ kept => kept.1) taken
  | _ => cases building

theorem Adds.resumable (lawful : host.json.LawfulStates) (adds : Adds s s')
    (resumable : Resumable host source used target s) : Resumable host source used target s' := by
  intro key states object found
  rcases adds key with same | ⟨-, new, there, segment⟩
  · exact resumable key states object (same ▸ found)
  · cases found.symm.trans there
    intro state parsed
    obtain ⟨text, rejected⟩ := lawful.rejects _ segment
    cases parsed.symm.trans rejected

theorem Adds.complete_iff (lawful : host.json.LawfulStates) (adds : Adds s s') :
    Complete host target s' ↔ Complete host target s := by
  constructor
  · rintro ⟨object, state, found, parsed, through⟩
    rcases adds target.stateKey with same | ⟨-, new, there, segment⟩
    · exact ⟨object, state, same ▸ found, parsed, through⟩
    · cases found.symm.trans there
      obtain ⟨text, rejected⟩ := lawful.rejects _ segment
      cases parsed.symm.trans rejected
  · rintro ⟨object, state, found, parsed, through⟩
    exact ⟨object, state, adds.kept found, parsed, through⟩

theorem Migrating.still (taken : Migrating host source target op t answer t') (reads : ¬ Uploading op) (same : t'.1 = t.1) :
    t' = t := by
  refine Prod.ext same ?_
  rcases taken.2 with ⟨altered | ⟨complete, uploads | lost⟩, -⟩ | ⟨-, none⟩
  · refine absurd ?_ altered
    rw [same]
    exact fun _ _ found _ => found
  · exact absurd uploads reads
  · exact absurd (same ▸ complete) lost
  · exact none

theorem Migrating.adds (building : Building op) (incomplete : ¬ Complete host target t.1)
    (taken : Migrating host source target op t answer t') : Adds t.1 t'.1 ∧ t'.2 = t.2 := by
  have adds := taken.1.adds building
  refine ⟨adds, ?_⟩
  rcases taken.2 with ⟨altered | ⟨complete, -⟩, -⟩ | ⟨-, none⟩
  · exact absurd adds.keepsSegments altered
  · exact absurd complete incomplete
  · exact none

theorem Swaps.keepsSegments {key revision newRevision : String} {data : Bytes}
    (free : revision = "" ∨ ¬ IsSegment (contentOf revision)) (swaps : Swaps s key data revision newRevision s') :
    KeepsSegments s s' := by
  obtain ⟨matched, written⟩ := swaps
  intro other object found segment
  rw [show s'.objects = _ from written]
  by_cases here : other = key
  · subst here
    obtain ⟨named, content⟩ := s.determined other object found
    have same : object.revision = revision := by
      rw [← matched, ObjectStore.revision, found]
      rfl
    rw [same] at named content
    rw [← content] at segment
    exact (free.elim named fun clear => clear segment).elim
  · rw [Function.update_of_ne here]
    exact found

variable (host target)

def Kept (s : ObjectStore contentOf) (state : MigrationState) : Prop :=
  -- the state in memory is the one that is stored
  ∃ data, s.objects target.stateKey = some ⟨data, state.revision⟩ ∧ HoldsState host data state

def Held (s : ObjectStore contentOf) (state : MigrationState) : Prop :=
  Kept host target s state ∨ state.revision = "" ∧ state.nextHeight ≤ target.stop ∧
    ∀ object, s.objects target.stateKey = some object → IsSegment object.data

variable {host target}

theorem Kept.free (lawful : host.json.LawfulStates) (kept : Kept host target s state) :
    ¬ IsSegment (contentOf state.revision) := by
  obtain ⟨data, found, holds⟩ := kept
  rw [(s.determined _ _ found).2]
  exact holds.not_segment lawful

theorem Kept.complete_iff (kept : Kept host target s state) : Complete host target s ↔ target.stop < state.nextHeight := by
  obtain ⟨data, found, read, parsed, same⟩ := kept
  have next : read.content.nextHeight = state.content.nextHeight := by rw [same]
  change read.nextHeight = state.nextHeight at next
  rw [← next]
  constructor
  · rintro ⟨object, other, again, reparsed, through⟩
    cases found.symm.trans again
    cases parsed.symm.trans reparsed
    exact through
  · exact fun through => ⟨_, read, found, parsed, through⟩

theorem Held.incomplete (lawful : host.json.LawfulStates) (held : Held host target s state)
    (more : state.nextHeight ≤ target.stop) : ¬ Complete host target s := by
  rcases held with kept | ⟨-, -, vacant⟩
  · rw [kept.complete_iff]
    omega
  · rintro ⟨object, other, found, parsed, -⟩
    obtain ⟨text, rejected⟩ := lawful.rejects _ (vacant object found)
    cases parsed.symm.trans rejected

theorem Held.free (lawful : host.json.LawfulStates) (held : Held host target s state) :
    state.revision = "" ∨ ¬ IsSegment (contentOf state.revision) := by
  rcases held with kept | ⟨none, -⟩
  · exact .inr (kept.free lawful)
  · exact .inl none

theorem Held.kept (held : Held host target s state) (through : target.stop < state.nextHeight) :
    Kept host target s state := by
  rcases held with kept | ⟨-, more, -⟩
  · exact kept
  · omega

end Stores

end CometArchive.Archive
