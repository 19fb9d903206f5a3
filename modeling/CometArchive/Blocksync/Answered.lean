import CometArchive.Blocksync.Advertised
import CometArchive.Blocksync.Reading

set_option autoImplicit false

namespace CometArchive.Blocksync

open GoBytes GoError Archive Programs Programs.Fallible Runs

section Archive

variable {V : Type} (host : Host V) (manifestKey : String) {contentOf : String → Bytes}

/-- Every segment of the published manifest can be read, and descriptors that differ have different texts. -/
structure Whole (s : ObjectStore contentOf) : Prop where
  readable : ∀ m, Loads host manifestKey s m → ∀ segment ∈ m.segments, Readable host s segment
  told : ∀ m, Loads host manifestKey s m → Told host m

structure Archives (s s' : ObjectStore contentOf) : Prop where
  -- the archive grows as its writers make it grow
  grows : Grows host manifestKey s s'
  keeps : KeepsSegments s s'
  whole : Whole host manifestKey s'

def Published (s : ObjectStore contentOf) (segment : SegmentManifest) : Prop :=
  ∃ m, Loads host manifestKey s m ∧ segment ∈ m.segments

def Right (s : ObjectStore contentOf) (text : Bytes) (result : Except Err (List BlockRecord)) : Prop :=
  -- the result of a load under a text is the records of the segment with that text
  ∃ segment records, Published host manifestKey s segment ∧ host.json.marshalSegment segment = .ok text ∧
    result = .ok records ∧ DecodesTo host s segment records

variable {host} {manifestKey} {s s' : ObjectStore contentOf}

theorem Covered.published {m : Manifest} {segment : SegmentManifest} (covered : Covered host manifestKey s m)
    (member : segment ∈ m.segments) : Published host manifestKey s segment := by
  obtain ⟨-, current, loads, kept⟩ := covered
  exact ⟨current, loads, kept member⟩

theorem whole_of_intact {m : Manifest} (intact : Intact host manifestKey s m) (told : Told host m) :
    Whole host manifestKey s := by
  refine ⟨?_, ?_⟩
  · intro other loads
    cases loads.unique intact.loads
    exact intact.readable
  · intro other loads
    cases loads.unique intact.loads
    exact told

theorem Published.grows {segment : SegmentManifest} (published : Published host manifestKey s segment)
    (grows : Grows host manifestKey s s') : Published host manifestKey s' segment := by
  obtain ⟨m, loads, member⟩ := published
  obtain ⟨m', loads', kept⟩ := grows m loads
  exact ⟨m', loads', kept member⟩

theorem Right.grows {text : Bytes} {result : Except Err (List BlockRecord)} (right : Right host manifestKey s text result)
    (archives : Archives host manifestKey s s') : Right host manifestKey s' text result := by
  obtain ⟨segment, records, published, marshalled, rfl, decodes⟩ := right
  exact ⟨segment, records, published.grows archives.grows, marshalled, rfl, decodes.keeps archives.keeps⟩

theorem Published.eq_of_text {a b : SegmentManifest} {text : Bytes} (first : Published host manifestKey s a)
    (second : Published host manifestKey s b) (whole : Whole host manifestKey s)
    (marshalled : host.json.marshalSegment a = .ok text) (marshalled' : host.json.marshalSegment b = .ok text) : a = b := by
  obtain ⟨m, loads, member⟩ := first
  obtain ⟨m', loads', member'⟩ := second
  cases loads.unique loads'
  exact whole.told m loads a member b member' text marshalled marshalled'

theorem Right.decodes {text : Bytes} {result : Except Err (List BlockRecord)} {segment : SegmentManifest}
    (right : Right host manifestKey s text result) (whole : Whole host manifestKey s)
    (published : Published host manifestKey s segment) (marshalled : host.json.marshalSegment segment = .ok text) :
    ∃ records, result = .ok records ∧ DecodesTo host s segment records := by
  obtain ⟨other, records, published', marshalled', rfl, decodes⟩ := right
  cases published'.eq_of_text published whole marshalled' marshalled
  exact ⟨records, rfl, decodes⟩

theorem Published.eq_of_key {a b : SegmentManifest} (first : Published host manifestKey s a)
    (second : Published host manifestKey s b) (same : a.key = b.key) : a = b := by
  obtain ⟨m, loads, member⟩ := first
  obtain ⟨m', loads', member'⟩ := second
  cases loads.unique loads'
  exact List.inj_on_of_nodup_map loads.valid.keys member member' same

end Archive

section Loads

variable {V : Type} {host : Host V} {manifestKey : String} {contentOf : String → Bytes} {w w' : World contentOf}
  {trace theirs : Calls}

structure Stocked (host : Host V) (manifestKey : String) (w : World contentOf) : Prop where
  whole : Whole host manifestKey w.store
  segments : ∀ text element, w.source.segments text = some element →
    Right host manifestKey w.store text (.ok element.records)
  flying : ∀ text flight, w.source.flights text = some flight →
    flight < w.source.fresh ∧ w.source.segmentLoads flight = none
  distinct : ∀ text other flight, w.source.flights text = some flight → w.source.flights other = some flight → text = other
  unborn : ∀ flight, w.source.fresh ≤ flight →
    w.source.segmentLoads flight = none ∧ w.source.manifestLoads flight = none
  manifestFlying : ∀ flight, w.source.manifestFlight = some flight →
    flight < w.source.fresh ∧ w.source.manifestLoads flight = none

def Serves (host : Host V) (manifestKey : String) (w : World contentOf) : Entry ColdOp ColdOp.Res → Prop
  | ⟨.enterSegment text, .cached records⟩ => Right host manifestKey w.store text (.ok records)
  | ⟨.enterSegment text, .follow flight⟩ => w.source.flights text = some flight ∨
      ∃ result, w.source.segmentLoads flight = some result ∧ Right host manifestKey w.store text result
  | ⟨.awaitSegment flight, answer⟩ => w.source.segmentLoads flight = some answer
  | ⟨.store (.get key), answer⟩ => ∃ segment records, Published host manifestKey w.store segment ∧ segment.key = key ∧
      readRecords host segment answer = .ok records ∧ DecodesTo host w.store segment records
  | ⟨.acquireSlot, .error _⟩ => False
  | _ => True

structure Owns (host : Host V) (manifestKey : String) (w : World contentOf) (trace : Calls) : Prop where
  -- a load that a call has begun is known to the source as under way
  serves : ∀ entry ∈ trace, Serves host manifestKey w entry
  manifest : ∀ flight answer, held trace = .manifest flight answer → flight < w.source.fresh
  segment : ∀ text flight answer, held trace = .segment text flight answer → w.source.flights text = some flight

def Apart (trace theirs : Calls) : Prop :=
  ∀ text flight answer answer', held trace = .segment text flight answer → held theirs ≠ .segment text flight answer'

structure KeepsLoads (host : Host V) (manifestKey : String) (w w' : World contentOf) : Prop where
  right : ∀ text result, Right host manifestKey w.store text result → Right host manifestKey w'.store text result
  published : ∀ segment, Published host manifestKey w.store segment → Published host manifestKey w'.store segment
  decodes : ∀ segment records, DecodesTo host w.store segment records → DecodesTo host w'.store segment records
  done : ∀ flight result, w.source.segmentLoads flight = some result → w'.source.segmentLoads flight = some result
  flying : ∀ text flight, w.source.flights text = some flight → w'.source.flights text = some flight ∨
    ∃ result, w'.source.segmentLoads flight = some result ∧ Right host manifestKey w'.store text result
  fresh : w.source.fresh ≤ w'.source.fresh

theorem Serves.orderly {entry : Entry ColdOp ColdOp.Res} (serves : Serves host manifestKey w entry)
    (orderly : KeepsLoads host manifestKey w w') : Serves host manifestKey w' entry := by
  obtain ⟨op, answer⟩ := entry
  cases op with
  | enterSegment text =>
    cases answer with
    | cached records => exact orderly.right text _ serves
    | follow flight =>
      rcases serves with flying | ⟨result, done, right⟩
      · exact orderly.flying text flight flying
      · exact .inr ⟨result, orderly.done flight result done, orderly.right text result right⟩
    | _ => trivial
  | awaitSegment flight => exact orderly.done flight answer serves
  | store op =>
    cases op with
    | get key =>
      obtain ⟨segment, records, published, named, read, decodes⟩ := serves
      exact ⟨segment, records, orderly.published segment published, named, read, orderly.decodes segment records decodes⟩
    | _ => trivial
  | acquireSlot =>
    cases answer with
    | error err => exact serves.elim
    | ok => trivial
  | _ => trivial

theorem KeepsLoads.still (store : w'.store = w.store) (loads : w'.source.segmentLoads = w.source.segmentLoads)
    (flights : w'.source.flights = w.source.flights) (fresh : w.source.fresh ≤ w'.source.fresh) :
    KeepsLoads host manifestKey w w' := by
  refine ⟨?_, ?_, ?_, ?_, ?_, fresh⟩
  · intro text result right
    rwa [store]
  · intro segment published
    rwa [store]
  · intro segment records decodes
    rwa [store]
  · intro flight result done
    rwa [loads]
  · intro text flight flying
    exact .inl (by rwa [flights])

theorem Stocked.still (stocked : Stocked host manifestKey w) (store : w'.store = w.store)
    (segments : w'.source.segments = w.source.segments) (loads : w'.source.segmentLoads = w.source.segmentLoads)
    (flights : w'.source.flights = w.source.flights) (fresh : w.source.fresh ≤ w'.source.fresh)
    (unborn : ∀ flight, w'.source.fresh ≤ flight → w'.source.manifestLoads flight = none)
    (manifestFlying : ∀ flight, w'.source.manifestFlight = some flight →
      flight < w'.source.fresh ∧ w'.source.manifestLoads flight = none) : Stocked host manifestKey w' := by
  refine ⟨by rw [store]; exact stocked.whole, ?_, ?_, ?_, ?_, manifestFlying⟩
  · intro text element found
    rw [store]
    exact stocked.segments text element (segments ▸ found)
  · intro text flight flying
    obtain ⟨old, open'⟩ := stocked.flying text flight (flights ▸ flying)
    exact ⟨by omega, by rw [loads]; exact open'⟩
  · intro text other flight first second
    exact stocked.distinct text other flight (flights ▸ first) (flights ▸ second)
  · intro flight new
    exact ⟨by rw [loads]; exact (stocked.unborn flight (by omega)).1, unborn flight new⟩

structure Moved (host : Host V) (manifestKey : String) (w w' : World contentOf) (trace : Calls)
    (entry : Entry ColdOp ColdOp.Res) : Prop where
  stocked : Stocked host manifestKey w'
  orderly : KeepsLoads host manifestKey w w'
  serves : Serves host manifestKey w' entry
  manifest : ∀ flight answer, hold (held trace) entry = .manifest flight answer → flight < w'.source.fresh
  segment : ∀ text flight answer, hold (held trace) entry = .segment text flight answer →
    w'.source.flights text = some flight ∧
      ((∃ before, held trace = .segment text flight before) ∨ w.source.flights text = none)
  releases : ∀ text flight, w.source.flights text = some flight →
    w'.source.flights text = some flight ∨ ∃ answer, held trace = .segment text flight answer

theorem Moved.free {entry : Entry ColdOp ColdOp.Res} (stocked : Stocked host manifestKey w')
    (orderly : KeepsLoads host manifestKey w w') (serves : Serves host manifestKey w' entry)
    (flights : w'.source.flights = w.source.flights) (free : hold (held trace) entry = .nothing) :
    Moved host manifestKey w w' trace entry where
  stocked := stocked
  orderly := orderly
  serves := serves
  manifest flight answer holds := by
    rw [free] at holds
    cases holds
  segment text flight answer holds := by
    rw [free] at holds
    cases holds
  releases text flight flying := .inl (flights ▸ flying)

theorem Moved.slot {entry : Entry ColdOp ColdOp.Res} (owns : Owns host manifestKey w trace)
    (stocked : Stocked host manifestKey w') (orderly : KeepsLoads host manifestKey w w')
    (serves : Serves host manifestKey w' entry) (flights : w'.source.flights = w.source.flights)
    (same : hold (held trace) entry = held trace) : Moved host manifestKey w w' trace entry where
  stocked := stocked
  orderly := orderly
  serves := serves
  manifest flight answer holds := (owns.manifest flight answer (same ▸ holds)).trans_le orderly.fresh
  segment text flight answer holds := by
    rw [same] at holds
    exact ⟨flights ▸ owns.segment text flight answer holds, .inl ⟨answer, holds⟩⟩
  releases text flight flying := .inl (flights ▸ flying)

theorem Owns.read (owns : Owns host manifestKey w trace) {segment : SegmentManifest} {answer : Except Err Bytes}
    (published : Published host manifestKey w.store segment) (entry : ⟨.store (.get segment.key), answer⟩ ∈ trace) :
    ∃ records, readRecords host segment answer = .ok records ∧ DecodesTo host w.store segment records := by
  obtain ⟨other, records, published', named, read, decodes⟩ := owns.serves _ entry
  cases published'.eq_of_key published named
  exact ⟨records, read, decodes⟩

theorem Stocked.fetches (stocked : Stocked host manifestKey w) : w.source.fetches.Ordered :=
  ⟨stocked.flying, stocked.distinct, fun flight new => (stocked.unborn flight new).1⟩

theorem Stocked.finishSegment {text : Bytes} {flight : Nat} {result : Except Err (List BlockRecord)}
    {source : ArchiveBlockSource} (stocked : Stocked host manifestKey w) (flying : w.source.flights text = some flight)
    (right : Right host manifestKey w.store text result) (finished : w.source.Finished text flight result source) :
    Stocked host manifestKey { w with source } ∧ KeepsLoads host manifestKey w { w with source } := by
  have fresh := finished.fresh
  have ordered : source.fetches.Ordered := by
    rw [finished.fetches]
    exact (stocked.fetches.finish flying result).age fresh
  have prolongs : w.source.fetches.Prolongs (Right host manifestKey w.store) (w.source.fetches.finish text flight result) :=
    .finish stocked.fetches flying right
  refine ⟨⟨stocked.whole, ?_, ordered.flying, ordered.distinct, ?_, ?_⟩, ⟨fun _ _ right => right,
    fun _ published => published, fun _ _ decodes => decodes, ?_, ?_, fresh⟩⟩
  · intro other element found
    rcases finished.segments other element found with before | ⟨rfl, same⟩
    · exact stocked.segments other element before
    · exact same ▸ right
  · intro number new
    refine ⟨ordered.unborn number new, ?_⟩
    dsimp only at new ⊢
    rw [finished.manifestLoads]
    exact (stocked.unborn number (by omega)).2
  · intro number there
    dsimp only at there ⊢
    rw [finished.manifestFlight] at there
    obtain ⟨older, open'⟩ := stocked.manifestFlying number there
    rw [finished.manifestLoads]
    exact ⟨by omega, open'⟩
  · dsimp only
    rw [finished.segmentLoads]
    exact prolongs.ended
  · dsimp only
    rw [finished.flights, finished.segmentLoads]
    exact prolongs.flying

theorem Stocked.leadSegment {text : Bytes} {slots : Nat} (stocked : Stocked host manifestKey w) :
    Stocked host manifestKey { w with source := { w.source with
      flights := Function.update w.source.flights text (some w.source.fresh)
      fetchSlots := slots
      fresh := w.source.fresh + 1 } } := by
  have ordered := stocked.fetches.lead text
  refine ⟨stocked.whole, stocked.segments, ordered.flying, ordered.distinct, ?_, ?_⟩
  · intro flight new
    exact stocked.unborn flight (by dsimp only at new; omega)
  · intro flight flying
    obtain ⟨old, open'⟩ := stocked.manifestFlying flight flying
    exact ⟨by dsimp only; omega, open'⟩

theorem published_reads {segment : SegmentManifest} {answer : Except Err Bytes} (whole : Whole host manifestKey w.store)
    (published : Published host manifestKey w.store segment) (answered : Faithful w.store (.get segment.key) answer) :
    ∃ records, readRecords host segment answer = .ok records ∧ DecodesTo host w.store segment records := by
  obtain ⟨m, loads, member⟩ := published
  obtain ⟨object, records, stored, decoded⟩ := whole.readable m loads segment member
  have same : answer = .ok object.data := by
    change answer = _ at answered
    rw [stored] at answered
    exact answered
  subst same
  exact ⟨records, decoded, object, stored, decoded⟩

theorem Stocked.move {op : ColdOp} {answer : op.Res} {source : ArchiveBlockSource} (stocked : Stocked host manifestKey w)
    (owns : Owns host manifestKey w trace)
    (listed : ∀ segment, Listed host manifestKey trace segment → Published host manifestKey w.store segment)
    (allowed : ColdMay host manifestKey trace op) (move : ColdMove (fun s => Faithful s) True w op answer source) :
    Moved host manifestKey w { w with source } trace ⟨op, answer⟩ := by
  have still : ∀ source, source.segmentLoads = w.source.segmentLoads → source.flights = w.source.flights →
      w.source.fresh ≤ source.fresh → KeepsLoads host manifestKey w { w with source } :=
    fun source loads flights fresh => .still rfl loads flights fresh
  cases move with
  | @store op answer answered =>
    cases op with
    | getVersioned key =>
      obtain ⟨-, flight, leads⟩ := allowed
      have older := owns.manifest flight none leads
      refine ⟨stocked, still _ rfl rfl le_rfl, trivial, ?_, ?_, fun _ _ flying => .inl flying⟩
      · intro other found holds
        rw [leads] at holds
        cases holds
        exact older
      · intro text other found holds
        rw [leads] at holds
        cases holds
    | get key =>
      obtain ⟨segment, text, flight, known, rfl, -, leads⟩ := allowed
      have published := listed segment known
      obtain ⟨records, read, decodes⟩ := published_reads stocked.whole published answered
      refine ⟨stocked, still _ rfl rfl le_rfl, ⟨segment, records, published, rfl, read, decodes⟩, ?_, ?_,
        fun _ _ flying => .inl flying⟩
      · intro other found holds
        rw [leads] at holds
        cases holds
      · intro other number found holds
        rw [leads] at holds
        cases holds
        exact ⟨owns.segment text flight none leads, .inl ⟨none, leads⟩⟩
    | _ => exact allowed.elim
  | cachedManifest | followManifest => exact .free stocked (still _ rfl rfl le_rfl) trivial rfl allowed
  | leadManifest free =>
    refine ⟨?_, still _ rfl rfl (Nat.le_succ _), trivial, ?_, ?_, fun _ _ flying => .inl flying⟩
    · refine stocked.still rfl rfl rfl rfl (Nat.le_succ _) ?_ ?_
      · intro flight new
        exact (stocked.unborn flight (Nat.le_of_succ_le new)).2
      · intro flight flying
        cases flying
        exact ⟨Nat.lt_succ_self _, (stocked.unborn _ le_rfl).2⟩
    · intro flight answer holds
      cases holds
      exact Nat.lt_succ_self _
    · intro text flight answer holds
      cases holds
  | awaitManifest => exact .free stocked (still _ rfl rfl le_rfl) trivial rfl allowed.2
  | @finishManifest flight result =>
    obtain ⟨answer, leads, -⟩ := allowed
    have older := owns.manifest flight (some answer) leads
    refine .free ?_ (still _ rfl rfl le_rfl) trivial rfl rfl
    refine stocked.still rfl rfl rfl rfl le_rfl ?_ ?_
    · intro other new
      change w.source.fresh ≤ other at new
      dsimp only [ArchiveBlockSource.finishManifest]
      rw [Function.update_of_ne (by omega)]
      exact (stocked.unborn other new).2
    · intro other flying
      cases flying
  | cachedSegment found =>
    exact .free ⟨stocked.whole, stocked.segments, stocked.flying, stocked.distinct, stocked.unborn, stocked.manifestFlying⟩
      (still _ rfl rfl le_rfl) (stocked.segments _ _ found) rfl allowed.1
  | followSegment flying => exact .free stocked (still _ rfl rfl le_rfl) (.inl flying) rfl allowed.1
  | @leadSegment text slots free =>
    have prolongs : w.source.fetches.Prolongs (Right host manifestKey w.store) (w.source.fetches.lead text) := .lead free
    refine ⟨stocked.leadSegment, ?_, trivial, ?_, ?_, ?_⟩
    · exact ⟨fun _ _ right => right, fun _ published => published, fun _ _ decodes => decodes, prolongs.ended,
        prolongs.flying, Nat.le_succ _⟩
    · intro flight answer holds
      cases holds
    · intro other flight answer holds
      cases holds
      exact ⟨Function.update_self .., .inr free⟩
    · intro other flight flying
      have differ : other ≠ text := by
        rintro rfl
        rw [free] at flying
        cases flying
      exact .inl (by dsimp only; rw [Function.update_of_ne differ]; exact flying)
  | fullSegment => exact .free stocked (still _ rfl rfl le_rfl) trivial rfl allowed.1
  | awaitSegment told =>
    have done := told.resolve_right fun hurried => hurried.1 trivial
    exact .free stocked (still _ rfl rfl le_rfl) done rfl allowed.1
  | acquireSlot => exact .slot owns (stocked.still rfl rfl rfl rfl le_rfl (fun flight new => (stocked.unborn flight new).2)
      stocked.manifestFlying) (still _ rfl rfl le_rfl) trivial rfl rfl
  | noSlot hurried => exact absurd trivial hurried
  | releaseSlot => exact .slot owns (stocked.still rfl rfl rfl rfl le_rfl (fun flight new => (stocked.unborn flight new).2)
      stocked.manifestFlying) (still _ rfl rfl le_rfl) trivial rfl rfl
  | @finishSegment text flight result done source finished =>
    obtain ⟨segment, answer, leads, known, marshalled, entry, rfl⟩ := allowed
    have flying := owns.segment text flight (some answer) leads
    have published := listed segment known
    obtain ⟨records, read, decodes⟩ := owns.read published entry
    have right : Right host manifestKey w.store text (readRecords host segment answer) :=
      ⟨segment, records, published, marshalled, read, decodes⟩
    obtain ⟨stocked', orderly⟩ := stocked.finishSegment flying right finished
    refine ⟨stocked', orderly, trivial, ?_, ?_, ?_⟩
    · intro other found holds
      cases holds
    · intro other number found holds
      cases holds
    · intro other number there
      by_cases same : other = text
      · subst same
        cases there.symm.trans flying
        exact .inr ⟨_, leads⟩
      · exact .inl (by dsimp only; rw [finished.flights, Function.update_of_ne same]; exact there)

end Loads

section Manifests

variable {V : Type} {host : Host V} {manifestKey : String} {contentOf : String → Bytes} {w w' : World contentOf}
  {trace : Calls} {height : Int}

def Reached (height : Int) (result : Except Err Manifest) : Prop :=
  -- a manifest was loaded, and it has the height
  ∃ m hash, result = .ok m ∧ m.Indexes height hash

structure Warm (host : Host V) (manifestKey : String) (height : Int) (w : World contentOf) : Prop where
  -- the height is published, and a cached manifest that may still be used has it
  current : ∃ m hash, Loads host manifestKey w.store m ∧ m.Indexes height hash
  cached : ∀ m loadedAt, w.source.cachedManifest = some (m, loadedAt) → (∃ hash, m.Indexes height hash) ∨
    w.source.manifestCacheTTL ≤ 0 ∨ w.source.manifestCacheTTL ≤ w.now - loadedAt

/-- If the call has read the manifest in a load of its own, it has read one with the height. -/
def ReadsNew (host : Host V) (manifestKey : String) (height : Int) (trace : Calls) : Prop :=
  ∀ flight answer, held trace = .manifest flight (some answer) → Reached height (readManifest host manifestKey answer)

def Hears (host : Host V) (manifestKey : String) (height : Int) (w : World contentOf) : Entry ColdOp ColdOp.Res → Prop
  | ⟨.enterManifest, .cached m⟩ => Reached height (.ok m)
  | ⟨.enterManifest, .follow flight⟩ => ∀ result, w.source.manifestLoads flight = some result → Reached height result
  | ⟨.enterManifest, .full⟩ => False
  | ⟨.awaitManifest _, answer⟩ => Reached height answer
  | ⟨.store (.getVersioned key), answer⟩ => key = manifestKey → Reached height (readManifest host manifestKey answer)
  | _ => True

theorem Hears.later {entry : Entry ColdOp ColdOp.Res} (hears : Hears host manifestKey height w entry)
    (loads : ∀ flight result, w'.source.manifestLoads flight = some result →
      w.source.manifestLoads flight = some result ∨ Reached height result) : Hears host manifestKey height w' entry := by
  obtain ⟨op, answer⟩ := entry
  cases op with
  | enterManifest =>
    cases answer with
    | follow flight =>
      intro result found
      rcases loads flight result found with before | reached
      · exact hears result before
      · exact reached
    | cached m => exact hears
    | full => exact hears
    | lead flight => trivial
  | awaitManifest flight => exact hears
  | store op =>
    cases op with
    | getVersioned key => exact hears
    | _ => trivial
  | _ => trivial

theorem Warm.reads {answer : Except Err (Bytes × String)} (warm : Warm host manifestKey height w)
    (answered : Faithful w.store (.getVersioned manifestKey) answer) : Reached height (readManifest host manifestKey answer) := by
  obtain ⟨m, hash, loads, indexed⟩ := warm.current
  obtain ⟨object, read, stored, -⟩ := loads.stored
  have same : answer = .ok (object.data, object.revision) := by
    change answer = _ at answered
    rw [stored] at answered
    exact answered
  rw [same]
  exact ⟨m, hash, readManifest_of_loads loads stored, indexed⟩

theorem Warm.move {op : ColdOp} {answer : op.Res} {source : ArchiveBlockSource} (warm : Warm host manifestKey height w)
    (stocked : Stocked host manifestKey w) (reads : ReadsNew host manifestKey height trace)
    (allowed : ColdMay host manifestKey trace op) (move : ColdMove (fun s => Faithful s) True w op answer source) :
    Warm host manifestKey height { w with source } ∧ ReadsNew host manifestKey height (trace ++ [⟨op, answer⟩]) ∧
      (∀ entry, Hears host manifestKey height w entry → Hears host manifestKey height { w with source } entry) ∧
      ((∀ entry ∈ trace, Hears host manifestKey height w entry) →
        Hears host manifestKey height { w with source } ⟨op, answer⟩) := by
  -- a step that reads no manifest and finishes no load of one
  have still : ∀ source, source.cachedManifest = w.source.cachedManifest →
      source.manifestCacheTTL = w.source.manifestCacheTTL → source.manifestLoads = w.source.manifestLoads →
      (∀ flight found, hold (held trace) ⟨op, answer⟩ = .manifest flight (some found) →
        held trace = .manifest flight (some found)) →
      ((∀ entry ∈ trace, Hears host manifestKey height w entry) →
        Hears host manifestKey height { w with source } ⟨op, answer⟩) →
      Warm host manifestKey height { w with source } ∧ ReadsNew host manifestKey height (trace ++ [⟨op, answer⟩]) ∧
        (∀ entry, Hears host manifestKey height w entry → Hears host manifestKey height { w with source } entry) ∧
        ((∀ entry ∈ trace, Hears host manifestKey height w entry) →
          Hears host manifestKey height { w with source } ⟨op, answer⟩) := by
    intro source cached ttl loads holds heard
    refine ⟨⟨warm.current, ?_⟩, ?_, ?_, heard⟩
    · intro m loadedAt found
      dsimp only at found ⊢
      rw [ttl]
      exact warm.cached m loadedAt (cached ▸ found)
    · intro flight found held'
      rw [held_snoc] at held'
      exact reads flight found (holds flight found held')
    · intro entry hears
      refine hears.later ?_
      intro flight result found
      dsimp only at found
      rw [loads] at found
      exact .inl found
  cases move with
  | @store op answer answered =>
    cases op with
    | getVersioned key =>
      obtain ⟨rfl, number, leads⟩ := allowed
      have reached := warm.reads answered
      refine ⟨warm, ?_, fun _ hears => hears, fun _ _ => reached⟩
      intro flight found held'
      rw [held_snoc, leads] at held'
      cases held'
      exact reached
    | get key =>
      obtain ⟨segment, text, number, -, -, -, leads⟩ := allowed
      refine still w.source rfl rfl rfl ?_ fun _ => trivial
      rw [leads]
      intro flight found held'
      cases held'
    | _ => exact allowed.elim
  | cachedManifest fresh =>
    obtain ⟨loadedAt, found, positive, young⟩ := ArchiveBlockSource.freshManifest_cached fresh
    refine still w.source rfl rfl rfl (fun _ _ same => same) fun _ => ?_
    rcases warm.cached _ loadedAt found with ⟨hash, indexed⟩ | off | old
    · exact ⟨_, hash, rfl, indexed⟩
    · omega
    · omega
  | followManifest flying =>
    refine still w.source rfl rfl rfl (fun _ _ same => same) fun _ result done => ?_
    rw [(stocked.manifestFlying _ flying).2] at done
    cases done
  | leadManifest free =>
    refine still _ rfl rfl rfl ?_ fun _ => trivial
    intro flight found held'
    cases held'
  | awaitManifest told =>
    refine still w.source rfl rfl rfl (fun _ _ same => same) fun heard => ?_
    exact heard _ allowed.1 _ (told.resolve_right fun hurried => hurried.1 trivial)
  | @finishManifest flight result =>
    obtain ⟨found, leads, -, rfl⟩ := allowed
    have reached := reads flight found leads
    refine ⟨⟨warm.current, ?_⟩, ?_, ?_, fun _ => trivial⟩
    · intro m loadedAt cached
      obtain ⟨new, hash, read, indexed⟩ := reached
      dsimp only [ArchiveBlockSource.finishManifest] at cached
      rw [read] at cached
      cases cached
      exact .inl ⟨hash, indexed⟩
    · intro other again held'
      rw [held_snoc] at held'
      cases held'
    · intro entry hears
      refine hears.later ?_
      intro other result done
      dsimp only [ArchiveBlockSource.finishManifest] at done
      rw [Function.update_apply] at done
      split at done
      · cases done
        exact .inr reached
      · exact .inl done
  | cachedSegment | followSegment | fullSegment | awaitSegment | acquireSlot | releaseSlot =>
    exact still _ rfl rfl rfl (fun _ _ same => same) fun _ => trivial
  | leadSegment free =>
    refine still _ rfl rfl rfl ?_ fun _ => trivial
    intro flight found held'
    cases held'
  | noSlot hurried => exact absurd trivial hurried
  | finishSegment finished =>
    refine still _ finished.cachedManifest finished.ttl finished.manifestLoads ?_ fun _ => trivial
    intro flight found held'
    cases held'

end Manifests

end CometArchive.Blocksync
