import CometArchive.Archive.Heights
import CometArchive.Archive.Integrity
import CometArchive.Archive.Loading

set_option autoImplicit false

namespace CometArchive.Archive

open GoBytes GoError Programs Programs.Fallible

variable {V : Type} {host : Host V} {contentOf : String → Bytes} {key : String} {s s' : ObjectStore contentOf}

/-- No JSON text starts as a segment does. -/
def Json.RejectsSegments (json : Json) : Prop :=
  ∀ data, IsSegment data → ∃ text, json.unmarshalManifest data = .error text

def published (host : Host V) (key : String) (s : ObjectStore contentOf) : List SegmentManifest :=
  ((manifestAt host key s).map (·.segments)).getD []

/-- What a call may answer and do for a process that is alone, on a store that keeps what it is given;
`answers` are those of its reader. -/
def Alone (host : Host V) (answers : (op : Op) → op.Res → Prop) (op : Op) (s : ObjectStore contentOf) (answer : op.Res)
    (s' : ObjectStore contentOf) : Prop :=
  Effect host.codec (fun data stored => stored = data) op s answer s' ∧ answers op answer

def Lands (key : String) (op : Op) (s s' : ObjectStore contentOf) : Prop :=
  -- the call is a conditional write of the object at `key`, and took effect
  ∃ data revision newRevision, op = .compareAndSwap key data revision ∧ Swaps s key data revision newRevision s'

def Watched (host : Host V) (answers : (op : Op) → op.Res → Prop) (key : String) :
    (op : Op) → ObjectStore contentOf × Nat → op.Res → ObjectStore contentOf × Nat → Prop :=
  counted (Lands key) (Alone host answers)

def Source.Answers (source : Source) : (op : Op) → op.Res → Prop
  | .base, answer => answer = source.base
  | .height, answer => answer = source.height
  | .loadBlock height, answer => answer = source.block height
  | .archiveHeightLimit, answer => answer = source.limit
  | _, _ => True

section Published

theorem published_congr (same : s'.objects key = s.objects key) : published host key s' = published host key s := by
  unfold published manifestAt
  rw [same]

theorem published_of_absent (absent : s.objects key = none) : published host key s = [] := by
  unfold published manifestAt
  rw [absent]
  rfl

theorem published_of_holds {data : Bytes} {revision : String} {m : Manifest} (stored : s.objects key = some ⟨data, revision⟩)
    (holds : Holds host data m) : published host key s = m.segments := by
  obtain ⟨read, parsed, same⟩ := holds
  have segments := congrArg Manifest.segments same
  unfold published manifestAt
  rw [stored, Option.bind_some, parsed]
  exact segments

theorem published_of_segment {data : Bytes} {revision : String} (rejects : host.json.RejectsSegments)
    (stored : s.objects key = some ⟨data, revision⟩) (segment : IsSegment data) : published host key s = [] := by
  obtain ⟨text, rejected⟩ := rejects data segment
  unfold published manifestAt
  rw [stored, Option.bind_some, rejected]
  rfl

theorem Loads.published {m : Manifest} (loads : Loads host key s m) : published host key s = m.segments := by
  obtain ⟨object, read, stored, -, parsed, rfl⟩ := loads.stored
  exact published_of_holds stored ⟨read, parsed, rfl⟩

def Building : Op → Prop
  | .get _ | .existsKey _ | .loadBlock _ | .ctxErr => True
  | .putIfAbsent _ data | .putIfAbsentReturningETag _ data => IsSegment data
  | _ => False

theorem building_permits : Permits Building fun _ data => IsSegment data :=
  ⟨fun _ => trivial, fun _ => trivial, fun _ => trivial, trivial, fun _ _ => id, fun _ _ => id⟩

variable {stores : Bytes → Bytes → Prop}

theorem Uploads.published {other : String} {data : Bytes} (rejects : host.json.RejectsSegments) (segment : IsSegment data)
    (kept : ∀ stored, stores data stored → stored = data) (uploads : Uploads stores s other data s') :
    published host key s' = published host key s := by
  -- a segment at the manifest key is no manifest
  obtain ⟨absent, ⟨stored, revision⟩, same, written⟩ := uploads
  obtain rfl := kept stored same
  by_cases here : key = other
  · subst here
    rw [published_of_absent absent]
    exact published_of_segment rejects (by rw [show s'.objects = _ from written, Function.update_self]) segment
  · exact published_congr (by rw [show s'.objects = _ from written, Function.update_of_ne here])

theorem Alone.published {answers : (op : Op) → op.Res → Prop} {op : Op} {answer : op.Res}
    (rejects : host.json.RejectsSegments) (building : Building op) (taken : Alone host answers op s answer s') :
    published host key s' = published host key s := by
  have same (unchanged : s' = s) : Archive.published host key s' = Archive.published host key s := by rw [unchanged]
  obtain ⟨taken, -⟩ := taken
  cases op with
  | get other => cases answer <;> exact same taken.1
  | existsKey other =>
    cases answer with
    | error err => exact same taken
    | ok found => exact same taken.1
  | loadBlock height => exact same taken
  | ctxErr => exact same taken
  | putIfAbsent other data =>
    cases answer with
    | error err => exact taken.elim same fun uploads => uploads.published rejects building fun _ => id
    | ok _ =>
      dsimp only [Effect] at taken
      exact Uploads.published rejects building (fun _ => id) taken
  | putIfAbsentReturningETag other data =>
    cases answer with
    | error err => exact taken.elim same fun uploads => uploads.published rejects building fun _ => id
    | ok etag =>
      dsimp only [Effect] at taken
      exact Uploads.published rejects building (fun _ kept => kept.1) taken
  | _ => cases building

theorem Watched.idle {answers : (op : Op) → op.Res → Prop} {op : Op} {answer : op.Res} {t t' : ObjectStore contentOf × Nat}
    (taken : Watched host answers key op t answer t') (other : ∀ data revision, op ≠ .compareAndSwap key data revision) :
    t'.2 = t.2 := by
  rcases taken.2 with ⟨⟨data, revision, _, same, -⟩, -⟩ | ⟨-, kept⟩
  · exact absurd same (other data revision)
  · exact kept

theorem Watched.still {answers : (op : Op) → op.Res → Prop} {op : Op} {answer : op.Res} {t t' : ObjectStore contentOf × Nat}
    (taken : Watched host answers key op t answer t') (other : ∀ data revision, op ≠ .compareAndSwap key data revision)
    (same : t'.1 = t.1) : t' = t :=
  Prod.ext same (taken.idle other)

end Published

section Tiling

def LoadedBy (host : Host V) (answers : (op : Op) → op.Res → Prop) (chainID : String) : Int → List BlockRecord → Prop
  | _, [] => True
  | height, record :: rest =>
    (∃ block, answers (.loadBlock height) (some block) ∧ block.chainID = chainID ∧
      blockToRecord host.comet block = .ok record) ∧ LoadedBy host answers chainID (height + 1) rest

def LiveSegment (host : Host V) (answers : (op : Op) → op.Res → Prop) (opts : LiveArchiveOptions) (first last : Int)
    (segment : SegmentManifest) : Prop :=
  ∃ records data encoded, encodeSegment host.codec records opts.compression = .ok (data, encoded) ∧
    segment = { encoded with
      key := segmentKey opts.keyPrefix opts.chainID encoded.firstHeight encoded.lastHeight encoded.sha256 } ∧
    first + records.length - 1 = last ∧ LoadedBy host answers opts.chainID first records

/-- The segments follow each other from `height` to before `next`, each as long as it can be up to `stop`. -/
def LiveTiling (host : Host V) (answers : (op : Op) → op.Res → Prop) (opts : LiveArchiveOptions) (stop : Int) :
    Int → List SegmentManifest → Int → Prop
  | height, [], next => next = height
  | height, segment :: rest, next =>
    height ≤ stop ∧ LiveSegment host answers opts height (min (height + opts.segmentBlocks - 1) stop) segment ∧
      LiveTiling host answers opts stop (min (height + opts.segmentBlocks - 1) stop + 1) rest next

def Starts (answers : (op : Op) → op.Res → Prop) (opts : LiveArchiveOptions) (old : List SegmentManifest) (start : Int) :
    Prop :=
  -- the height a continuation of `old` starts at
  match old.getLast? with
  | some last => start = last.lastHeight + 1
  | none => if opts.startHeight = 0 then answers .base start else start = opts.startHeight

def Stops (host : Host V) (answers : (op : Op) → op.Res → Prop) (opts : LiveArchiveOptions) (stop : Int) : Prop :=
  ∃ height : Int, answers .height height ∧
    if host.bounded then ∃ limit : Int, answers .archiveHeightLimit limit ∧ stop = min (min opts.readyHeight height) limit
    else stop = min opts.readyHeight height

def LiveArchiveOptions.effective (opts : LiveArchiveOptions) : LiveArchiveOptions :=
  -- the options as `ArchiveReady` goes on with them
  { opts with
    segmentBlocks := if opts.segmentBlocks ≤ 0 then defaultSegmentBlocks else opts.segmentBlocks
    compression := orDefaultCompression opts.compression }

variable {answers : (op : Op) → op.Res → Prop} {opts : LiveArchiveOptions} {stop height mid next first last : Int}
  {segment : SegmentManifest} {added more : List SegmentManifest}

theorem LiveTiling.append (front : LiveTiling host answers opts stop height added mid)
    (back : LiveTiling host answers opts stop mid more next) :
    LiveTiling host answers opts stop height (added ++ more) next := by
  induction added generalizing height with
  | nil =>
    cases (front : mid = height)
    exact back
  | cons segment rest ih => exact ⟨front.1, front.2.1, ih front.2.2⟩

theorem Archived.live {history : History} (reads : ∀ entry ∈ history, answers entry.1 entry.2)
    (archived : Archived host opts.keyPrefix opts.chainID opts.compression first last history segment) :
    LiveSegment host answers opts first last segment := by
  have loadedBy : ∀ {records : List BlockRecord} {height : Int}, Loaded host opts.chainID history height records →
      LoadedBy host answers opts.chainID height records := by
    intro records
    induction records with
    | nil => exact fun _ => trivial
    | cons record rest ih =>
      rintro height ⟨⟨block, read, same⟩, loaded⟩
      exact ⟨⟨block, reads _ read, same⟩, ih loaded⟩
  obtain ⟨records, data, encoded, ok, same, count, loaded, -⟩ := archived
  exact ⟨records, data, encoded, ok, same, count, loadedBy loaded⟩

theorem segmentEnd_eq (positive : 0 < height) (inside : height ≤ stop) (bounded : stop ≤ maxInt64)
    (blocks : 0 < opts.segmentBlocks ∧ opts.segmentBlocks ≤ maxSegmentBlocks)
    (built : height ≤ segmentEnd opts.segmentBlocks stop height) :
    segmentEnd opts.segmentBlocks stop height = min (height + opts.segmentBlocks - 1) stop := by
  -- a segment that was built has a last height that did not wrap around
  obtain ⟨some, few⟩ := blocks
  unfold maxSegmentBlocks at few
  unfold maxInt64 at bounded
  unfold segmentEnd at built ⊢
  by_cases fits : height + opts.segmentBlocks - 1 ≤ 2 ^ 63 - 1
  · rw [wrap64_of_isInt64 ⟨by omega, by unfold maxInt64; omega⟩]
  · -- a sum that wraps is negative
    have wrapped : wrap64 (height + opts.segmentBlocks - 1) < height := by
      simp only [wrap64, Int.bmod_def]
      norm_num
      split <;> omega
    have below := min_le_left (wrap64 (height + opts.segmentBlocks - 1)) stop
    omega

end Tiling

section Runs

variable {answers : (op : Op) → op.Res → Prop} {opts : LiveArchiveOptions} {stop height start : Int}
  {old added : List SegmentManifest} {t : ObjectStore contentOf × Nat} {inv : ObjectStore contentOf × Nat → Prop}
  {chainID : String}

/-- What is published is `old` and a part of the tiling from `start` to `stop`, a segment for every write. -/
def Growing (host : Host V) (answers : (op : Op) → op.Res → Prop) (opts : LiveArchiveOptions) (key : String)
    (old : List SegmentManifest) (start stop : Int) (t : ObjectStore contentOf × Nat) : Prop :=
  ∃ added next, published host key t.1 = old ++ added ∧ t.2 = added.length ∧
    LiveTiling host answers opts stop start added next

theorem buildAndUploadSegment_alone {first last : Int} (rejects : host.json.RejectsSegments)
    (holds : ∀ t', published host key t'.1 = published host key t.1 → t'.2 = t.2 → inv t') :
    (buildAndUploadSegment host opts.chainID opts.keyPrefix opts.compression first last).Safe (Watched host answers key)
      inv (fun _ _ => True)
      (fun built t' => first ≤ last ∧ LiveSegment host answers opts first last built.1 ∧
        published host key t'.1 = published host key t.1 ∧ t'.2 = t.2) t := by
  have ok := @buildAndUploadSegment_ok _ host opts.chainID opts.keyPrefix [] _ _ opts.compression first last
    building_permits fun _ _ _ encoded => (encodeSegment_spec host.codec encoded).isSegment
  refine Safe.mono (Ok.safe (fun history t' => (∀ entry ∈ history, answers entry.1 entry.2) ∧
    published host key t'.1 = published host key t.1 ∧ t'.2 = t.2) ok ⟨by simp, rfl, rfl⟩ ?_
    fun _ t' kept => holds t' kept.2.1 kept.2.2) (fun _ => id) (fun _ _ _ _ => trivial) ?_
  · rintro history op mid answer t' ⟨reads, same, count⟩ building taken
    have other : ∀ data revision, op ≠ .compareAndSwap key data revision := by
      rintro data revision rfl
      exact building
    refine ⟨?_, (taken.1.published rejects building).trans same, (taken.idle other).trans count⟩
    intro entry member
    rcases List.mem_append.mp member with old | new
    · exact reads entry old
    · cases List.mem_singleton.mp new
      exact taken.1.2
  · rintro built t' - ⟨history, ⟨reads, same⟩, ordered, archived⟩
    exact ⟨ordered, archived.live reads, same⟩

theorem saveManifest_alone {m : Manifest} (json : host.json.Lawful) (here : inv t)
    (holds : ∀ t', published host key t'.1 = m.segments → t'.2 = t.2 + 1 → inv t') :
    (saveManifest host key m).Safe (Watched host answers key) inv (fun _ _ => True)
      (fun m' t' => m'.content = m.content ∧ published host key t'.1 = m.segments ∧ t'.2 = t.2 + 1) t := by
  unfold saveManifest
  refine Safe.check here (fun _ _ => trivial) fun _ _ => ?_
  refine Safe.check here (fun _ _ => trivial) fun _ _ => ?_
  refine Safe.check here (fun _ _ => trivial) fun _ _ => ?_
  refine Safe.check here (fun _ _ => trivial) fun _ checked => ?_
  refine Safe.check here (fun _ _ => trivial) fun encoded marshalled => ?_
  refine Safe.check here (fun _ _ => trivial) fun _ _ => ?_
  have text : Holds host (encoded ++ [10]) m :=
    json.manifest m encoded (Manifest.validate_eq_ok.mp checked) (textual_eq_ok.mp marshalled)
  have swapped {revision newRevision : String} {s' : ObjectStore contentOf}
      (swaps : Swaps t.1 key (encoded ++ [10]) revision newRevision s') : published host key s' = m.segments :=
    published_of_holds (by rw [show s'.objects = _ from swaps.2, Function.update_self]) text
  refine Safe.bind (Safe.mapErr (Safe.attempt here ?_ ?_))
  · rintro answer err t' ⟨⟨taken, -⟩, count⟩ rfl
    refine ⟨?_, trivial⟩
    rcases count with ⟨⟨data, revision, newRevision, same, swaps⟩, one⟩ | ⟨missed, none⟩
    · cases same
      exact holds t' (swapped swaps) one
    · have unchanged : t' = t := by
        refine Prod.ext (taken.resolve_right ?_) none
        rintro ⟨newRevision, swaps⟩
        exact missed ⟨_, _, newRevision, rfl, swaps⟩
      rw [unchanged]
      exact here
  · rintro answer revision t' ⟨⟨taken, -⟩, count⟩ rfl
    have now := swapped taken
    have one : t'.2 = t.2 + 1 := by
      rcases count with ⟨-, one⟩ | ⟨missed, -⟩
      · exact one
      · exact absurd ⟨_, _, revision, rfl, taken⟩ missed
    exact ⟨holds t' now one, Safe.pure (holds t' now one) ⟨rfl, now, one⟩⟩

def ReadsFrom (s : ObjectStore contentOf) (key : String) : Except Err (Bytes × String) → Prop
  | .ok (data, revision) => s.objects key = some ⟨data, revision⟩
  | .error err => Misses s key err

theorem loadOrCreateLiveManifest_alone (here : inv t) :
    (loadOrCreateLiveManifest host key chainID).Safe (Watched host answers key) inv (fun _ _ => True)
      (fun m t' => t' = t ∧ m.Valid ∧ m.segments = published host key t.1) t := by
  unfold loadOrCreateLiveManifest
  refine Safe.recover (Safe.mono (loadManifest_safe (fun answer t' => t' = t ∧ ReadsFrom t.1 key answer) here ?_)
    (fun _ => id) ?_ ?_)
  · rintro answer t' taken
    rcases answer with err | ⟨data, revision⟩
    · obtain rfl := taken.still (by rintro _ _ ⟨⟩) taken.1.1.1
      exact ⟨here, rfl, taken.1.1.2⟩
    · obtain rfl := taken.still (by rintro _ _ ⟨⟩) taken.1.1.1
      exact ⟨here, rfl, taken.1.1.2⟩
  · intro err t' holds missed
    split
    next missing =>
      obtain ⟨rfl, misses⟩ := missed missing
      unfold createManifest
      refine Safe.bind (Safe.query Op.now holds ?_)
      rintro now t'' taken
      obtain rfl := taken.still (by rintro _ _ ⟨⟩) taken.1.1
      refine ⟨holds, Safe.check holds (fun _ _ => trivial) fun _ checked => ?_⟩
      apply Safe.pure holds
      refine ⟨rfl, Manifest.validate_eq_ok.mp checked, ?_⟩
      rw [published_of_absent (misses missing)]
      rfl
    next => exact Safe.lift holds (fun _ _ => trivial) (by rintro _ ⟨⟩)
  · rintro m t' - ⟨data, revision, ⟨rfl, stored⟩, parses⟩
    exact ⟨rfl, parses.valid, (parses.loads stored).published.symm⟩

theorem archiveLoop_alone (json : host.json.Lawful) (rejects : host.json.RejectsSegments)
    (blocks : 0 < opts.segmentBlocks ∧ opts.segmentBlocks ≤ maxSegmentBlocks) (bounded : stop ≤ maxInt64) {fuel : Nat}
    {manifest : Manifest} {result : LiveArchiveResult} (positive : 0 < height)
    (now : published host key t.1 = manifest.segments) (grown : manifest.segments = old ++ added)
    (count : t.2 = added.length) (tiled : LiveTiling host answers opts stop start added height)
    (enough : (stop - height + 1).toNat ≤ fuel) :
    (archiveLoop host opts key stop fuel height manifest result).Safe (Watched host answers key)
      (Growing host answers opts key old start stop) (fun _ _ => True)
      (fun ended t' => stop < height + (ended.2.blocksArchived - result.blocksArchived) ∧
        ∃ added, ended.1.segments = old ++ added ∧ published host key t'.1 = ended.1.segments ∧
          LiveTiling host answers opts stop start added (height + (ended.2.blocksArchived - result.blocksArchived))) t := by
  induction fuel generalizing height manifest result added t with
  | zero =>
    refine Safe.pure ⟨added, height, now.trans grown, count, tiled⟩ ⟨?_, added, grown, now, ?_⟩
    · simp only [sub_self, add_zero]
      omega
    · simpa using tiled
  | succ fuel ih =>
    have growing : ∀ t' : ObjectStore contentOf × Nat, published host key t'.1 = published host key t.1 → t'.2 = t.2 →
        Growing host answers opts key old start stop t' :=
      fun t' same landed => ⟨added, height, by rw [same, now, grown], landed.trans count, tiled⟩
    unfold archiveLoop
    split
    next through =>
      refine Safe.pure (growing t rfl rfl) ⟨?_, added, grown, now, ?_⟩
      · simpa using through
      · simpa using tiled
    next inside =>
      refine Safe.bind (Safe.attempt (growing t rfl rfl) ?_ ?_)
      · rintro answer err t' taken -
        obtain rfl := taken.still (by rintro _ _ ⟨⟩) taken.1.1
        exact ⟨growing _ rfl rfl, trivial⟩
      rintro answer _ t' taken -
      obtain rfl := taken.still (by rintro _ _ ⟨⟩) taken.1.1
      refine ⟨growing _ rfl rfl, ?_⟩
      refine Safe.bind (Safe.mono (buildAndUploadSegment_alone rejects growing) (fun _ => id) (fun _ _ _ => id) ?_)
      rintro ⟨segment, uploaded⟩ built here ⟨ordered, live, same, landed⟩
      rw [segmentEnd_eq positive (by omega) bounded blocks ordered] at live
      have longer : LiveTiling host answers opts stop start (added ++ [segment])
          (segmentEnd opts.segmentBlocks stop height + 1) := by
        refine tiled.append ⟨by omega, live, ?_⟩
        rw [segmentEnd_eq positive (by omega) bounded blocks ordered]
        rfl
      refine Safe.bind (Safe.query Op.now here ?_)
      rintro time t' taken
      obtain rfl := taken.still (by rintro _ _ ⟨⟩) taken.1.1
      refine ⟨here, Safe.check here (fun _ _ => trivial) fun extended ok => ?_⟩
      obtain ⟨-, segments, -⟩ := Manifest.appendSegmentInPlace_spec ok
      rw [grown, List.append_assoc] at segments
      refine Safe.bind (Safe.mono (saveManifest_alone json here ?_) (fun _ => id) (fun _ _ _ => id) ?_)
      · intro t' now one
        exact ⟨_, _, now.trans segments, by rw [one, landed, count, List.length_append, List.length_singleton], longer⟩
      rintro saved t' - ⟨content, now, one⟩
      have kept := congrArg Manifest.segments content
      change saved.segments = extended.segments at kept
      have sum (archived : Int) : segmentEnd opts.segmentBlocks stop height + 1 +
          (archived - (result.count uploaded height (segmentEnd opts.segmentBlocks stop height)).blocksArchived) =
            height + (archived - result.blocksArchived) := by
        dsimp only [LiveArchiveResult.count]
        omega
      refine Safe.mono (ih (by omega) (now.trans kept.symm) (kept.trans segments)
        (by rw [one, landed, count, List.length_append, List.length_singleton]) longer (by omega)) (fun _ => id)
        (fun _ _ _ => id) ?_
      rintro ⟨last, ended⟩ t'' - ⟨through, rest⟩
      rw [sum] at through rest
      exact ⟨through, rest⟩

def Extended (host : Host V) (answers : (op : Op) → op.Res → Prop) (opts : LiveArchiveOptions) (key : String)
    (old : List SegmentManifest) (t : ObjectStore contentOf × Nat) : Prop :=
  published host key t.1 = old ∧ t.2 = 0 ∨ ∃ start stop, Starts answers opts old start ∧ Stops host answers opts stop ∧
    Growing host answers opts.effective key old start stop t

def Completed (host : Host V) (answers : (op : Op) → op.Res → Prop) (opts : LiveArchiveOptions) (key : String)
    (old : List SegmentManifest) (count : Int) (s : ObjectStore contentOf) : Prop :=
  ∃ start stop added, Starts answers opts old start ∧ Stops host answers opts stop ∧
    published host key s = old ++ added ∧ LiveTiling host answers opts.effective stop start added (start + count) ∧
    stop < start + count

theorem nextHeightToArchive_alone {manifest : Manifest} (valid : manifest.Valid) (here : inv t) :
    (nextHeightToArchive opts manifest).Safe (Watched host answers key) inv (fun _ _ => True)
      (fun start t' => t' = t ∧ Starts answers opts manifest.segments start) t := by
  unfold nextHeightToArchive Starts
  rcases valid.range with ⟨empty, -, last⟩ | ⟨filled, positive, ordered, tiles⟩
  · rw [if_pos last, empty]
    by_cases unset : opts.startHeight = 0
    · simp only [unset, if_true, List.getLast?_nil]
      apply Safe.query Op.base here
      rintro base t' taken
      obtain rfl := taken.still (by rintro _ _ ⟨⟩) taken.1.1
      exact ⟨here, rfl, taken.1.2⟩
    · simp only [unset, if_false, List.getLast?_nil]
      exact Safe.pure here ⟨rfl, rfl⟩
  · have found := List.getLast?_eq_some_getLast filled
    rw [if_neg (by omega), found]
    apply Safe.pure here
    exact ⟨rfl, (tiles.getLast found).symm⟩

theorem archiveEnd_alone {sourceHeight : Int} (given : answers .height sourceHeight) (here : inv t) :
    (archiveEnd host opts.readyHeight sourceHeight).Safe (Watched host answers key) inv (fun _ _ => True)
      (fun stop t' => t' = t ∧ Stops host answers opts stop ∧ stop ≤ sourceHeight) t := by
  unfold archiveEnd Stops
  by_cases bounded : host.bounded = true
  · simp only [bounded, if_true]
    refine Safe.bind (Safe.query Op.archiveHeightLimit here ?_)
    rintro limit t' taken
    obtain rfl := taken.still (by rintro _ _ ⟨⟩) taken.1.1
    refine ⟨here, Safe.pure here ⟨rfl, ⟨sourceHeight, given, limit, taken.1.2, rfl⟩, ?_⟩⟩
    exact (min_le_left _ _).trans (min_le_right _ _)
  · simp only [bounded, if_false, Bool.false_eq_true]
    exact Safe.pure here ⟨rfl, ⟨sourceHeight, given, rfl⟩, min_le_right _ _⟩

theorem archiveReady_alone (json : host.json.Lawful) (rejects : host.json.RejectsSegments)
    (named : chosenManifestKey opts.keyPrefix opts.chainID opts.manifestName opts.manifestKey = key)
    (heights : ∀ height : Int, answers .height height → height ≤ maxInt64) :
    (archiveReady host opts).Safe (Watched host answers key) (Extended host answers opts key (published host key s))
      (fun _ _ => True)
      (fun result t' => Completed host answers opts key (published host key s) result.blocksArchived t'.1) (s, 0) := by
  have here : Extended host answers opts key (published host key s) (s, 0) := .inl ⟨rfl, rfl⟩
  unfold archiveReady
  refine Safe.check here (fun _ _ => trivial) fun _ _ => ?_
  refine Safe.check here (fun _ _ => trivial) fun _ _ => ?_
  refine Safe.check here (fun _ _ => trivial) fun _ few => ?_
  refine Safe.check here (fun _ _ => trivial) fun _ _ => ?_
  refine Safe.check here (fun _ _ => trivial) fun resolved resolves => ?_
  rw [resolveManifestKey, named] at resolves
  obtain rfl : resolved = key := (resolveKey_spec resolves).1
  refine Safe.check here (fun _ _ => trivial) fun _ _ => ?_
  refine Safe.check here (fun _ _ => trivial) fun _ _ => ?_
  refine Safe.bind (Safe.mono (loadOrCreateLiveManifest_alone here) (fun _ => id) (fun _ _ _ => id) ?_)
  rintro manifest _ - ⟨rfl, valid, now⟩
  refine Safe.check here (fun _ _ => trivial) fun _ _ => ?_
  refine Safe.bind (Safe.mono (nextHeightToArchive_alone valid here) (fun _ => id) (fun _ _ _ => id) ?_)
  rintro start _ - ⟨rfl, starts⟩
  rw [now] at starts
  refine Safe.check here (fun _ _ => trivial) fun _ positive => ?_
  refine Safe.bind (Safe.query Op.height here ?_)
  rintro sourceHeight _ taken
  obtain rfl := taken.still (by rintro _ _ ⟨⟩) taken.1.1
  have given := taken.1.2
  refine ⟨here, Safe.check here (fun _ _ => trivial) fun _ _ => ?_⟩
  refine Safe.bind (Safe.mono (archiveEnd_alone given here) (fun _ => id) (fun _ _ _ => id) ?_)
  rintro stop _ - ⟨rfl, stops, below⟩
  rw [refuse_eq_ok] at few positive
  have blocks : 0 < opts.effective.segmentBlocks ∧ opts.effective.segmentBlocks ≤ maxSegmentBlocks := by
    change 0 < (if opts.segmentBlocks ≤ 0 then defaultSegmentBlocks else opts.segmentBlocks) ∧ _ ≤ _
    refine ⟨?_, not_lt.mp few⟩
    unfold defaultSegmentBlocks
    split <;> omega
  have empty : LiveTiling host answers opts.effective stop start [] start := rfl
  refine Safe.bind (Safe.mono (archiveLoop_alone json rejects blocks (below.trans (heights _ given)) (by omega) now.symm
    (now.trans (List.append_nil _).symm) rfl empty le_rfl) ?_ (fun _ _ _ => id) ?_)
  · intro t' growing
    exact .inr ⟨start, stop, starts, stops, growing⟩
  · rintro ⟨last, result⟩ t' growing ⟨through, added, grown, after, tiled⟩
    apply Safe.pure (.inr ⟨start, stop, starts, stops, growing⟩)
    simp only [LiveArchiveResult.unchanged, sub_zero] at through tiled
    exact ⟨start, stop, added, starts, stops, after.trans grown, tiled, through⟩

def LiveArchiveOptions.upTo (opts : LiveArchiveOptions) (readyHeight : Int) : LiveArchiveOptions :=
  { opts with compression := orDefaultCompression opts.compression, readyHeight }

def ReadyFromHead (host : Host V) (answers : (op : Op) → op.Res → Prop) (safetyWindow readyHeight : Int) : Prop :=
  ∃ head : Int, answers .height head ∧ safetyWindow < head ∧ if host.bounded then
    ∃ limit : Int, answers .archiveHeightLimit limit ∧ readyHeight = min (head - safetyWindow) limit
  else readyHeight = head - safetyWindow

def NoneReady (host : Host V) (answers : (op : Op) → op.Res → Prop) (safetyWindow : Int) : Prop :=
  -- no height is ready: the head is within the safety window, or the reader's limit is not positive
  ∃ head : Int, answers .height head ∧ (head = 0 ∨ head ≤ safetyWindow ∨ host.bounded = true ∧
    ∃ limit : Int, answers .archiveHeightLimit limit ∧ min (head - safetyWindow) limit ≤ 0)

def HeadExtended (host : Host V) (answers : (op : Op) → op.Res → Prop) (opts : LiveArchiveOptions)
    (safetyWindow : Int) (key : String) (old : List SegmentManifest) (t : ObjectStore contentOf × Nat) : Prop :=
  published host key t.1 = old ∧ t.2 = 0 ∨ ∃ readyHeight, ReadyFromHead host answers safetyWindow readyHeight ∧
    Extended host answers (opts.upTo readyHeight) key old t

def HeadCompleted (host : Host V) (answers : (op : Op) → op.Res → Prop) (opts : LiveArchiveOptions)
    (safetyWindow : Int) (key : String) (old : List SegmentManifest) (count : Int) (s : ObjectStore contentOf) : Prop :=
  NoneReady host answers safetyWindow ∧ published host key s = old ∧ count = 0 ∨
    ∃ readyHeight, ReadyFromHead host answers safetyWindow readyHeight ∧ Completed host answers (opts.upTo readyHeight) key old count s

theorem archiveReadyFromHead_alone {safetyWindow : Int} (json : host.json.Lawful) (rejects : host.json.RejectsSegments)
    (named : chosenManifestKey opts.keyPrefix opts.chainID opts.manifestName opts.manifestKey = key)
    (heights : ∀ height : Int, answers .height height → height ≤ maxInt64) :
    (archiveReadyFromHead host opts safetyWindow).Safe (Watched host answers key)
      (HeadExtended host answers opts safetyWindow key (published host key s)) (fun _ _ => True)
      (fun result t' =>
        HeadCompleted host answers opts safetyWindow key (published host key s) result.blocksArchived t'.1) (s, 0) := by
  have here : HeadExtended host answers opts safetyWindow key (published host key s) (s, 0) := .inl ⟨rfl, rfl⟩
  have ready {readyHeight : Int} (below : ReadyFromHead host answers safetyWindow readyHeight) :
      (archiveReady host (opts.upTo readyHeight)).Safe (Watched host answers key)
        (HeadExtended host answers opts safetyWindow key (published host key s)) (fun _ _ => True)
        (fun result t' =>
          HeadCompleted host answers opts safetyWindow key (published host key s) result.blocksArchived t'.1) (s, 0) := by
    have named' : chosenManifestKey (opts.upTo readyHeight).keyPrefix (opts.upTo readyHeight).chainID
      (opts.upTo readyHeight).manifestName (opts.upTo readyHeight).manifestKey = key := named
    refine Safe.mono (archiveReady_alone json rejects named' heights) ?_ (fun _ _ _ => id) ?_
    · exact fun t' extended => .inr ⟨readyHeight, below, extended⟩
    · exact fun result t' _ completed => .inr ⟨readyHeight, below, completed⟩
  unfold archiveReadyFromHead
  refine Safe.check here (fun _ _ => trivial) fun _ _ => ?_
  refine Safe.check here (fun _ _ => trivial) fun _ _ => ?_
  refine Safe.check here (fun _ _ => trivial) fun _ _ => ?_
  refine Safe.check here (fun _ _ => trivial) fun resolved resolves => ?_
  rw [resolveManifestKey, named] at resolves
  obtain rfl : resolved = key := (resolveKey_spec resolves).1
  refine Safe.check here (fun _ _ => trivial) fun _ _ => ?_
  refine Safe.check here (fun _ _ => trivial) fun _ _ => ?_
  refine Safe.bind (Safe.mono (loadOrCreateLiveManifest_alone here) (fun _ => id) (fun _ _ _ => id) ?_)
  rintro manifest _ - ⟨rfl, -, -⟩
  refine Safe.bind (Safe.query Op.height here ?_)
  rintro head _ taken
  obtain rfl := taken.still (by rintro _ _ ⟨⟩) taken.1.1
  have given := taken.1.2
  refine ⟨here, ?_⟩
  split
  next low => exact Safe.pure here (.inl ⟨⟨head, given, low.imp_right .inl⟩, rfl, rfl⟩)
  next above =>
    have window : safetyWindow < head := not_le.mp (not_or.mp above).2
    by_cases bounded : host.bounded = true
    · rw [if_pos bounded]
      refine Safe.bind (Safe.query Op.archiveHeightLimit here ?_)
      rintro limit _ taken
      obtain rfl := taken.still (by rintro _ _ ⟨⟩) taken.1.1
      have limited := taken.1.2
      refine ⟨here, ?_⟩
      dsimp only
      split
      next none => exact Safe.pure here (.inl ⟨⟨head, given, .inr (.inr ⟨bounded, limit, limited, none⟩)⟩, rfl, rfl⟩)
      next =>
        apply ready
        exact ⟨head, given, window, by rw [if_pos bounded]; exact ⟨limit, limited, rfl⟩⟩
    · rw [if_neg bounded]
      apply ready
      exact ⟨head, given, window, by rw [if_neg bounded]⟩

end Runs

end CometArchive.Archive
