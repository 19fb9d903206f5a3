import CometArchive.Archive.Prune
import CometArchive.Archive.Segment
import CometArchive.Shared.Programs

set_option autoImplicit false

/-!
# The object store, and the calls of archive processes

An archive process is a program over the calls below: on the object store, on its block reader, on
the clock and its context, on the hot store it prunes and on the disk it hydrates. Any call on the
store may fail, and one that writes may fail after it took effect.
-/

namespace CometArchive.Archive

open GoBytes GoError Programs

inductive Op where
  | get (key : String)
  | getVersioned (key : String)
  | existsKey (key : String)
  | stat (key : String)
  | putIfAbsent (key : String) (data : Bytes)
  | putIfAbsentReturningETag (key : String) (data : Bytes)
  | compareAndSwap (key : String) (data : Bytes) (revision : String)
  | base
  | height
  | loadBlock (height : Int)
  | archiveHeightLimit
  | now
  | ctxErr
  -- which of `count` jobs a worker pool takes next
  | pick (count : Nat)
  | pruneHotStore (manifest : Manifest) (opts : PruneHotOptions)
  -- on the directory a hydration fills
  | mkdirAll (dir : String)
  | atomicWriteFile (path : String) (data : Bytes)
  | enforceCacheLimit (dir : String) (maxBytes : Int)

abbrev Op.Res : Op → Type
  | .get _ => Except Err Bytes
  | .getVersioned _ => Except Err (Bytes × String)
  | .existsKey _ => Except Err Bool
  | .stat _ => Except Err Int
  | .putIfAbsent _ _ => Except Err Unit
  | .putIfAbsentReturningETag _ _ => Except Err String
  | .compareAndSwap _ _ _ => Except Err String
  | .base => Int
  | .height => Int
  | .loadBlock _ => Option Block
  | .archiveHeightLimit => Int
  | .now => Int
  | .ctxErr => Except Err Unit
  | .pick _ => Nat
  | .pruneHotStore _ _ => Except Err PruneHotResult
  | .mkdirAll _ => Except Err Unit
  | .atomicWriteFile _ _ => Except Err Unit
  | .enforceCacheLimit _ _ => Except Err Unit

abbrev M := Fallible Op Op.Res Err

abbrev History := Trace Op Op.Res

def ask (op : Op) : Prog Op Op.Res op.Res := Prog.ask op

def get (key : String) : M Bytes := Fallible.attempt (.get key) fun answer => answer
def getVersioned (key : String) : M (Bytes × String) := Fallible.attempt (.getVersioned key) fun answer => answer
def existsKey (key : String) : M Bool := Fallible.attempt (.existsKey key) fun answer => answer
def stat (key : String) : M Int := Fallible.attempt (.stat key) fun answer => answer
def putIfAbsent (key : String) (data : Bytes) : M Unit := Fallible.attempt (.putIfAbsent key data) fun answer => answer
def putIfAbsentReturningETag (key : String) (data : Bytes) : M String :=
  Fallible.attempt (.putIfAbsentReturningETag key data) fun answer => answer
def compareAndSwap (key : String) (data : Bytes) (revision : String) : M String :=
  Fallible.attempt (.compareAndSwap key data revision) fun answer => answer
def ctxErr : M Unit := Fallible.attempt .ctxErr fun answer => answer

def inquire (op : Op) : M op.Res := Fallible.query op

def readerBase : M Int := inquire .base
def readerHeight : M Int := inquire .height
def loadBlock (height : Int) : M (Option Block) := inquire (.loadBlock height)
def archiveHeightLimit : M Int := inquire .archiveHeightLimit
def timeNow : M Int := inquire .now
def pick (count : Nat) : M Nat := inquire (.pick count)

structure MigrationState where
  revision : String
  sourceKey : String
  chainID : String
  startHeight : Int
  endHeight : Int
  nextHeight : Int
  segments : List SegmentManifest
  lastUpdatedAt : Int
  deriving DecidableEq, Repr

structure Json where
  marshalManifest : Manifest → Except String Bytes
  unmarshalManifest : Bytes → Except String Manifest
  marshalState : MigrationState → Except String Bytes
  unmarshalState : Bytes → Except String MigrationState
  marshalSegment : SegmentManifest → Except String Bytes

def textual {α : Type} : Except String α → Except Err α
  | .error text => .error (.new text)
  | .ok value => .ok value

/-- What a process is given: the libraries, whether its reader and store are there at all, and whether
they have the optional methods `PutIfAbsentReturningETag` and `ArchiveHeightLimit`. -/
structure Host (V : Type) where
  comet : Comet V
  codec : Codec
  json : Json
  hasReader : Bool
  hasStore : Bool
  returnsETag : Bool
  bounded : Bool

def localMD5Hex (codec : Codec) (data : Bytes) : String := asciiText (hexEncode (codec.md5 data))

def normalizeETag (etag : String) : String := GoText.toLower (GoText.trimChar '"' etag)

structure Object where
  data : Bytes
  revision : String

/-- A store whose revisions determine what is stored. The empty revision stands for a missing object. -/
structure ObjectStore (contentOf : String → Bytes) where
  objects : String → Option Object
  determined : ∀ key object, objects key = some object → object.revision ≠ "" ∧ contentOf object.revision = object.data

variable {contentOf : String → Bytes}

def ObjectStore.revision (s : ObjectStore contentOf) (key : String) : String :=
  -- the revision a conditional write has to name
  ((s.objects key).map (·.revision)).getD ""

theorem ObjectStore.revision_eq_empty {s : ObjectStore contentOf} {key : String} :
    s.revision key = "" ↔ s.objects key = none := by
  unfold ObjectStore.revision
  cases found : s.objects key with
  | none => simp
  | some object => simpa using (s.determined key object found).1

theorem ObjectStore.eq_of_revision {s : ObjectStore contentOf} {key revision : String} (named : revision ≠ "")
    (same : s.revision key = revision) : s.objects key = some ⟨contentOf revision, revision⟩ := by
  unfold ObjectStore.revision at same
  cases found : s.objects key with
  | none =>
    rw [found] at same
    exact absurd same.symm named
  | some object =>
    rw [found] at same
    have revised : object.revision = revision := same
    rw [← revised, (s.determined key object found).2]

def ObjectStore.Writes (s : ObjectStore contentOf) (key : String) (object : Object) (s' : ObjectStore contentOf) : Prop :=
  s'.objects = Function.update s.objects key (some object)

def Misses (s : ObjectStore contentOf) (key : String) (err : Err) : Prop :=
  -- a missing object is the only one reported missing
  err.is .objectNotFound = true → s.objects key = none

/-- An upload writes at most once, and perhaps other bytes than it was given: `stores data stored` says
which may be stored for `data`. -/
def Uploads (stores : Bytes → Bytes → Prop) (s : ObjectStore contentOf) (key : String) (data : Bytes)
    (s' : ObjectStore contentOf) : Prop :=
  s.objects key = none ∧ ∃ object, stores data object.data ∧ s.Writes key object s'

def Swaps (s : ObjectStore contentOf) (key : String) (data : Bytes) (revision newRevision : String)
    (s' : ObjectStore contentOf) : Prop :=
  s.revision key = revision ∧ s.Writes key ⟨data, newRevision⟩ s'

/-- What a call may answer, and what it does to the store. Calls on other things are answered anyhow. -/
def Effect (codec : Codec) (stores : Bytes → Bytes → Prop) :
    (op : Op) → ObjectStore contentOf → op.Res → ObjectStore contentOf → Prop
  | .get key, s, .ok data, s' => s' = s ∧ ∃ revision, s.objects key = some ⟨data, revision⟩
  | .get key, s, .error err, s' => s' = s ∧ Misses s key err
  | .getVersioned key, s, .ok (data, revision), s' => s' = s ∧ s.objects key = some ⟨data, revision⟩
  | .getVersioned key, s, .error err, s' => s' = s ∧ Misses s key err
  | .existsKey key, s, .ok found, s' => s' = s ∧ found = (s.objects key).isSome
  | .existsKey _, s, .error _, s' => s' = s
  | .stat key, s, .ok size, s' => s' = s ∧ ∃ object, s.objects key = some object ∧ size = object.data.length
  | .stat key, s, .error err, s' => s' = s ∧ Misses s key err
  | .putIfAbsent key data, s, .ok (), s' => Uploads stores s key data s'
  | .putIfAbsent key data, s, .error _, s' => s' = s ∨ Uploads stores s key data s'
  | .putIfAbsentReturningETag key data, s, .ok etag, s' =>
    -- a tag that is the digest of the data vouches for what was stored
    Uploads (fun data stored => stores data stored ∧ (normalizeETag etag = localMD5Hex codec data → stored = data))
      s key data s'
  | .putIfAbsentReturningETag key data, s, .error _, s' => s' = s ∨ Uploads stores s key data s'
  | .compareAndSwap key data revision, s, .ok newRevision, s' => Swaps s key data revision newRevision s'
  | .compareAndSwap key data revision, s, .error _, s' =>
    s' = s ∨ ∃ newRevision, Swaps s key data revision newRevision s'
  | _, s, _, s' => s' = s

inductive Touch (key : String) (op : Op) (s s' : ObjectStore contentOf) : Prop
  | kept (same : s'.objects key = s.objects key)
  | uploaded (absent : s.objects key = none)
    (upload : ∃ data, op = .putIfAbsent key data ∨ op = .putIfAbsentReturningETag key data)
  | swapped (data : Bytes) (revision newRevision : String) (swap : op = .compareAndSwap key data revision)
    (matched : s.revision key = revision) (written : s'.objects key = some ⟨data, newRevision⟩)

theorem Uploads.touch {key other : String} {op : Op} {s s' : ObjectStore contentOf} {stores : Bytes → Bytes → Prop}
    {data : Bytes} (uploads : Uploads stores s other data s')
    (upload : op = .putIfAbsent other data ∨ op = .putIfAbsentReturningETag other data) : Touch key op s s' := by
  obtain ⟨absent, object, -, written⟩ := uploads
  by_cases same : key = other
  · subst same
    exact .uploaded absent ⟨data, upload⟩
  · exact .kept (by rw [show s'.objects = _ from written, Function.update_of_ne same])

theorem Swaps.touch {key other : String} {s s' : ObjectStore contentOf} {data : Bytes} {revision newRevision : String}
    (swaps : Swaps s other data revision newRevision s') : Touch key (.compareAndSwap other data revision) s s' := by
  obtain ⟨matched, written⟩ := swaps
  by_cases same : key = other
  · subst same
    exact .swapped data revision newRevision rfl matched (by rw [show s'.objects = _ from written, Function.update_self])
  · exact .kept (by rw [show s'.objects = _ from written, Function.update_of_ne same])

theorem Effect.touch {codec : Codec} {stores : Bytes → Bytes → Prop} {op : Op} {s s' : ObjectStore contentOf}
    {answer : op.Res} (taken : Effect codec stores op s answer s') (key : String) : Touch key op s s' := by
  have kept (same : s' = s) : Touch key op s s' := .kept (by rw [same])
  cases op with
  | get other => cases answer <;> exact kept taken.1
  | getVersioned other => rcases answer with err | ⟨data, revision⟩ <;> exact kept taken.1
  | existsKey other =>
    cases answer with
    | error err => exact kept taken
    | ok found => exact kept taken.1
  | stat other => cases answer <;> exact kept taken.1
  | putIfAbsent other data =>
    cases answer with
    | error err => exact taken.elim kept fun uploads => uploads.touch (.inl rfl)
    | ok _ => exact Uploads.touch taken (.inl rfl)
  | putIfAbsentReturningETag other data =>
    cases answer with
    | error err => exact taken.elim kept fun uploads => uploads.touch (.inr rfl)
    | ok _ =>
      dsimp only [Effect] at taken
      exact Uploads.touch taken (.inr rfl)
  | compareAndSwap other data revision =>
    cases answer with
    | error err => exact taken.elim kept fun ⟨_, swaps⟩ => swaps.touch
    | ok newRevision => exact Swaps.touch taken
  | _ => exact kept taken

-- an object that starts as a segment does
def IsSegment (data : Bytes) : Prop := data.take segmentMagic.length = segmentMagic

instance (data : Bytes) : Decidable (IsSegment data) :=
  inferInstanceAs (Decidable (data.take segmentMagic.length = segmentMagic))

def KeepsSegments (s s' : ObjectStore contentOf) : Prop :=
  ∀ key object, s.objects key = some object → IsSegment object.data → s'.objects key = some object

structure Source where
  base : Int
  height : Int
  block : Int → Option Block
  limit : Int

-- a revision that spells out the data
def spelledRevision (data : Bytes) : String := String.ofList ('r' :: data.map fun byte => Char.ofNat byte.toNat)

def spelledContent (revision : String) : Bytes := (revision.toList.drop 1).map fun char => UInt8.ofNat char.toNat

theorem spelledRevision_spec (data : Bytes) :
    spelledRevision data ≠ "" ∧ spelledContent (spelledRevision data) = data := by
  constructor
  · intro empty
    have chars := congrArg String.toList empty
    simp [spelledRevision] at chars
  · have byte (b : UInt8) : UInt8.ofNat (Char.ofNat b.toNat).toNat = b := by
      have valid : b.toNat.isValidChar := by
        left
        have small := b.toNat_lt
        omega
      rw [Char.ofNat, dif_pos valid]
      exact UInt8.ofNat_toNat
    have bytes : (fun char : Char => UInt8.ofNat char.toNat) ∘ (fun byte : UInt8 => Char.ofNat byte.toNat) = id :=
      funext byte
    simp [spelledContent, spelledRevision, bytes]

def ObjectStore.put (s : ObjectStore spelledContent) (key : String) (data : Bytes) : ObjectStore spelledContent where
  objects := Function.update s.objects key (some ⟨data, spelledRevision data⟩)
  determined := by
    intro other object found
    by_cases same : other = key
    · subst same
      rw [Function.update_self] at found
      cases found
      exact spelledRevision_spec data
    · rw [Function.update_of_ne same] at found
      exact s.determined other object found

def serve (codec : Codec) (source : Source) :
    (op : Op) → ObjectStore spelledContent → op.Res × ObjectStore spelledContent
  | .get key, s => (((s.objects key).map fun object => .ok object.data).getD (.error (.sentinel .objectNotFound)), s)
  | .getVersioned key, s =>
    (((s.objects key).map fun object => .ok (object.data, object.revision)).getD (.error (.sentinel .objectNotFound)), s)
  | .existsKey key, s => (.ok (s.objects key).isSome, s)
  | .stat key, s =>
    (((s.objects key).map fun object => .ok (object.data.length : Int)).getD (.error (.sentinel .objectNotFound)), s)
  | .putIfAbsent key data, s =>
    if (s.objects key).isSome then (.error (.sentinel .objectAlreadyExists), s) else (.ok (), s.put key data)
  | .putIfAbsentReturningETag key data, s =>
    if (s.objects key).isSome then (.error (.sentinel .objectAlreadyExists), s)
    else (.ok (localMD5Hex codec data), s.put key data)
  | .compareAndSwap key data revision, s =>
    if s.revision key = revision ∧ ∀ object ∈ s.objects key, ¬ IsSegment object.data then
      (.ok (spelledRevision data), s.put key data)
    else (.error (.sentinel .objectConflict), s)
  | .base, s => (source.base, s)
  | .height, s => (source.height, s)
  | .loadBlock height, s => (source.block height, s)
  | .archiveHeightLimit, s => (source.limit, s)
  | .now, s => (0, s)
  | .ctxErr, s => (.ok (), s)
  | .pick _, s => (0, s)
  | .pruneHotStore _ _, s => (.error (.new "no hot store"), s)
  | .mkdirAll _, s => (.ok (), s)
  | .atomicWriteFile _ _, s => (.ok (), s)
  | .enforceCacheLimit _ _, s => (.ok (), s)

theorem serve_effect {codec : Codec} {source : Source} {stores : Bytes → Bytes → Prop} (exactly : ∀ data, stores data data)
    (op : Op) (s : ObjectStore spelledContent) :
    Effect codec stores op s (serve codec source op s).1 (serve codec source op s).2 := by
  have misses {key : String} (absent : s.objects key = none) : Misses s key (.sentinel .objectNotFound) := fun _ => absent
  have uploads {key : String} {data : Bytes} {stores : Bytes → Bytes → Prop} (exactly : stores data data)
      (absent : ¬ (s.objects key).isSome = true) : Uploads stores s key data (s.put key data) :=
    ⟨by simpa using absent, ⟨data, _⟩, exactly, rfl⟩
  cases op with
  | get key =>
    cases found : s.objects key with
    | none => simp [serve, Effect, found, misses]
    | some object => simpa [serve, Effect, found] using ⟨object.revision, rfl⟩
  | getVersioned key => cases found : s.objects key <;> simp [serve, Effect, found, misses]
  | existsKey key => exact ⟨rfl, rfl⟩
  | stat key => cases found : s.objects key <;> simp [serve, Effect, found, misses]
  | putIfAbsent key data =>
    simp only [serve]
    split
    next => exact .inl rfl
    next absent => exact uploads (exactly data) absent
  | putIfAbsentReturningETag key data =>
    simp only [serve]
    split
    next => exact .inl rfl
    next absent =>
      dsimp only [Effect]
      apply uploads _ absent
      exact ⟨exactly data, fun _ => rfl⟩
  | compareAndSwap key data revision =>
    simp only [serve]
    split
    next same => exact ⟨same.1, rfl⟩
    next => exact .inl rfl
  | _ => rfl

theorem ObjectStore.put_keepsSegments {s : ObjectStore spelledContent} {key : String} {data : Bytes}
    (vacant : ∀ object ∈ s.objects key, ¬ IsSegment object.data) : KeepsSegments s (s.put key data) := by
  intro other object found segment
  by_cases same : other = key
  · subst same
    exact absurd segment (vacant object found)
  · change Function.update s.objects key _ other = _
    rw [Function.update_of_ne same]
    exact found

theorem serve_keepsSegments {codec : Codec} {source : Source} (op : Op) (s : ObjectStore spelledContent) :
    KeepsSegments s (serve codec source op s).2 := by
  have free {key : String} (absent : ¬ (s.objects key).isSome = true) :
      ∀ object ∈ s.objects key, ¬ IsSegment object.data := by
    intro object found
    rw [Option.mem_def.mp found] at absent
    exact absurd rfl absent
  cases op with
  | putIfAbsent key data =>
    simp only [serve]
    split
    next => exact fun _ _ found _ => found
    next absent => exact ObjectStore.put_keepsSegments (free absent)
  | putIfAbsentReturningETag key data =>
    simp only [serve]
    split
    next => exact fun _ _ found _ => found
    next absent => exact ObjectStore.put_keepsSegments (free absent)
  | compareAndSwap key data revision =>
    simp only [serve]
    split
    next allowed => exact ObjectStore.put_keepsSegments allowed.2
    next => exact fun _ _ found _ => found
  | _ => exact fun _ _ found _ => found

end CometArchive.Archive
