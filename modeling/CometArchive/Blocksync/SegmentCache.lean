import CometArchive.Archive.PruneSafety
import CometArchive.Blocksync.ColdCalls
import CometArchive.Blocksync.Reading
import CometArchive.Shared.Rations

set_option autoImplicit false

namespace CometArchive.Blocksync

open GoBytes GoError Archive Programs Programs.Fallible Runs Coalesce

section Calls

variable {V : Type} (host : Host V) (described : SegmentManifest → Prop)

def segmentCall (fuel : Nat) (segment : SegmentManifest) :
    Prog ColdOp ColdOp.Res (SegmentManifest × Except Err (List BlockRecord)) :=
  (ArchiveBlockSource.loadSegment host fuel segment).run >>= fun result => .ret (segment, result)

def SegmentMay (trace : Calls) (op : ColdOp) : Prop :=
  ∃ segment text, described segment ∧ host.json.marshalSegment segment = .ok text ∧ Attempts host segment text [] trace op

def SegmentPost (trace : Calls) (result : SegmentManifest × Except Err (List BlockRecord)) : Prop :=
  -- what a successful call rests on
  ∀ records, result.2 = .ok records → ∃ text rounds tail, described result.1 ∧
    host.json.marshalSegment result.1 = .ok text ∧ trace = [] ++ fullRounds text rounds ++ tail ∧
    Attempted host result.1 text tail (.ok records)

variable {host} {described}

theorem segmentCall_follows {segment : SegmentManifest} (known : described segment) (fuel : Nat) :
    (segmentCall host fuel segment).All (SegmentMay host described) (SegmentPost host described) [] := by
  unfold segmentCall ArchiveBlockSource.loadSegment
  apply Prog.All.bind
  cases marshalled : host.json.marshalSegment segment with
  | error text =>
    intro records impossible
    cases impossible
  | ok text =>
    refine Prog.All.mono (Prog.All.weaken (acquireSegment_attempts segment text fuel []) ?_) ?_
    · intro trace op attempts
      exact ⟨segment, text, known, marshalled, attempts⟩
    · rintro trace result ⟨rounds, tail, same, attempted⟩ records rfl
      exact ⟨text, rounds, tail, known, marshalled, same, attempted⟩

def takeSlot (before : Nat) : Entry ColdOp ColdOp.Res → Nat
  -- the slots that a call has taken
  | ⟨.enterSegment _, .lead _⟩ => 1
  | ⟨.acquireSlot, .ok _⟩ => 1
  | ⟨.releaseSlot, _⟩ => 0
  | _ => before

def slotsTaken (trace : Calls) : Nat := trace.foldl takeSlot 0

theorem slotsTaken_snoc (trace : Calls) (entry : Entry ColdOp ColdOp.Res) :
    slotsTaken (trace ++ [entry]) = takeSlot (slotsTaken trace) entry := by
  rw [slotsTaken, List.foldl_append]
  rfl

theorem slotsTaken_rounds (text : Bytes) (rounds : Nat) (tail : Calls) :
    slotsTaken ([] ++ fullRounds text rounds ++ tail) = slotsTaken tail := by
  have none : slotsTaken (fullRounds text rounds) = 0 := by
    induction rounds with
    | zero => rfl
    | succ rounds ih => exact ih
  rw [slotsTaken, List.foldl_append, List.nil_append, ← slotsTaken, none, slotsTaken]

end Calls

section Cache

variable {V : Type} {contentOf : String → Bytes} (host : Host V) (described : SegmentManifest → Prop)
  (honest : ObjectStore contentOf → (op : Op) → op.Res → Prop)

def Decoded (text : Bytes) (records : List BlockRecord) : Prop :=
  ∃ segment s data, described segment ∧ host.json.marshalSegment segment = .ok text ∧
    honest s (.get segment.key) (.ok data) ∧ decodeSegment host.codec host.comet data segment = .ok records

def DecodedOk (text : Bytes) (result : Except Err (List BlockRecord)) : Prop :=
  ∀ records, result = .ok records → Decoded host described honest text records

structure Filed (source : ArchiveBlockSource) : Prop where
  -- what is cached is right and in order, and so are the loads and the slots
  kept : source.Kept
  sized : ∀ element ∈ source.segmentLRU, element.bytes = ArchiveBlockSource.recordsSize element.key element.records
  bounded : source.segmentBytes ≤ source.segmentCacheLimit
  decoded : ∀ text element, source.segments text = some element → Decoded host described honest text element.records
  fetches : source.fetches.Ordered
  uncached : ∀ text flight, source.flights text = some flight → source.segments text = none
  slots : source.fetchSlots ≤ maxFetchSlots

def Reveals (source : ArchiveBlockSource) : Entry ColdOp ColdOp.Res → Prop
  | ⟨.enterSegment text, .cached records⟩ => Decoded host described honest text records
  | ⟨.enterSegment text, .follow flight⟩ => source.fetches.Joined (DecodedOk host described honest) text flight
  | ⟨.awaitSegment flight, .ok records⟩ => source.segmentLoads flight = some (.ok records)
  | ⟨.store (.get key), .ok data⟩ => ∃ s, honest s (.get key) (.ok data)
  | _ => True

structure Fetches (source : ArchiveBlockSource) (trace : Calls) : Prop where
  tells : ∀ entry ∈ trace, Reveals host described honest source entry
  owns : ∀ text flight answer, held trace = .segment text flight answer →
    source.flights text = some flight ∧ slotsTaken trace = 1

def FetchApart (trace theirs : Calls) : Prop :=
  ∀ text flight answer flight' answer', held trace = .segment text flight answer →
    held theirs ≠ .segment text flight' answer'

variable {host} {described} {honest} {source after : ArchiveBlockSource} {trace : Calls} {text : Bytes} {flight : Nat}

theorem Reveals.prolongs {entry : Entry ColdOp ColdOp.Res} (tells : Reveals host described honest source entry)
    (prolongs : source.fetches.Prolongs (DecodedOk host described honest) after.fetches) :
    Reveals host described honest after entry := by
  obtain ⟨op, answer⟩ := entry
  cases op with
  | enterSegment text =>
    cases answer with
    | follow flight => exact Loads.Joined.prolongs tells prolongs fun _ right => right
    | cached records => exact tells
    | _ => trivial
  | awaitSegment flight =>
    cases answer with
    | ok records => exact prolongs.ended flight _ tells
    | error err => trivial
  | store op =>
    cases op with
    | get key =>
      cases answer with
      | ok data => exact tells
      | error err => trivial
    | _ => trivial
  | _ => trivial

theorem ArchiveBlockSource.Kept.finishSegment (kept : source.Kept) (absent : source.segments text = none) (flight : Nat)
    (result : Except Err (List BlockRecord)) :
    ∃ after, source.finishSegment text flight result = some after ∧ after.Kept ∧
      (∀ other element, after.segments other = some element → source.segments other = some element ∨
        other = text ∧ element.bytes = ArchiveBlockSource.recordsSize text element.records) ∧
      (source.segmentBytes ≤ source.segmentCacheLimit → after.segmentBytes ≤ after.segmentCacheLimit) ∧
      after.fetchSlots = source.fetchSlots := by
  cases result with
  | error err =>
    exact ⟨_, rfl, ⟨kept.mapped, kept.distinct, kept.old, kept.bytes⟩, fun _ _ found => .inl found, id, rfl⟩
  | ok records =>
    obtain ⟨segments, segmentLRU, segmentBytes, fresh, keeps, kept, entries, bounded⟩ := kept.keepSegment absent records
    have finished := congrArg (fun after => after.bind fun source : ArchiveBlockSource => some { source with
      segmentLoads := Function.update source.segmentLoads flight (some (.ok records))
      flights := Function.update source.flights text none }) keeps
    refine ⟨_, finished, ⟨kept.mapped, kept.distinct, kept.old, kept.bytes⟩, ?_, bounded, rfl⟩
    intro other element found
    refine (entries other element found).imp id ?_
    rintro ⟨named, same, size⟩
    exact ⟨named, by rw [size, same]⟩

theorem Filed.finishes (filed : Filed host described honest source) (flying : source.flights text = some flight)
    (result : Except Err (List BlockRecord)) :
    ∃ after, source.finishSegment text flight result = some after ∧ after.Kept ∧
      (∀ element ∈ after.segmentLRU, element.bytes = ArchiveBlockSource.recordsSize element.key element.records) ∧
      after.segmentBytes ≤ after.segmentCacheLimit ∧ after.fetchSlots = source.fetchSlots := by
  -- the loop that makes room does not run on an empty list
  obtain ⟨after, finished, kept, entries, bounded, slots⟩ :=
    filed.kept.finishSegment (filed.uncached text flight flying) flight result
  refine ⟨after, finished, kept, ?_, bounded filed.bounded, slots⟩
  intro element member
  have cached := (kept.mapped element.key element).mpr ⟨member, rfl⟩
  rcases entries element.key element cached with old | ⟨named, size⟩
  · exact filed.sized element ((filed.kept.mapped _ _).mp old).1
  · rw [size, named]

theorem ArchiveBlockSource.Finished.uncached {result : Except Err (List BlockRecord)}
    (finished : source.Finished text flight result after)
    (uncached : ∀ text flight, source.flights text = some flight → source.segments text = none) :
    ∀ text flight, after.flights text = some flight → after.segments text = none := by
  intro other number there
  rw [finished.flights] at there
  have differ : other ≠ text := by
    rintro rfl
    rw [Function.update_self] at there
    cases there
  rw [Function.update_of_ne differ] at there
  have absent := uncached other number there
  cases found : after.segments other with
  | none => rfl
  | some element =>
    rcases finished.segments other element found with old | ⟨same, -⟩
    · exact absurd (old.symm.trans absent) (by simp)
    · exact absurd same differ

theorem Filed.finishSegment {result : Except Err (List BlockRecord)} (filed : Filed host described honest source)
    (flying : source.flights text = some flight) (right : DecodedOk host described honest text result)
    (ended : source.finishSegment text flight result = some after) :
    Filed host described honest after ∧ source.fetches.Prolongs (DecodedOk host described honest) after.fetches ∧
      after.flights = Function.update source.flights text none ∧ after.fetchSlots = source.fetchSlots := by
  obtain ⟨_, again, kept, sized, bounded, slots⟩ := filed.finishes flying result
  cases ended.symm.trans again
  have finished := ArchiveBlockSource.finishSegment_spec ended
  refine ⟨⟨kept, sized, bounded, ?_, ?_, ?_, slots ▸ filed.slots⟩, ?_, finished.flights, slots⟩
  · intro other element found
    rcases finished.segments other element found with old | ⟨rfl, same⟩
    · exact filed.decoded other element old
    · exact right _ same
  · rw [finished.fetches]
    exact (filed.fetches.finish flying result).age finished.fresh
  · exact finished.uncached filed.uncached
  · have prolongs : source.fetches.Prolongs (DecodedOk host described honest) (source.fetches.finish text flight result) :=
      .finish filed.fetches flying right
    rw [finished.fetches]
    exact ⟨prolongs.ended, prolongs.flying⟩

theorem Filed.leadSegment (filed : Filed host described honest source) (uncached : source.segments text = none)
    (free : source.fetchSlots < maxFetchSlots) :
    Filed host described honest { source with
      flights := Function.update source.flights text (some source.fresh)
      fetchSlots := source.fetchSlots + 1
      fresh := source.fresh + 1 } := by
  have kept := filed.kept
  refine ⟨⟨kept.mapped, kept.distinct, ?_, kept.bytes⟩, filed.sized, filed.bounded, filed.decoded, filed.fetches.lead text,
    ?_, free⟩
  · intro element member
    exact Nat.lt_succ_of_lt (kept.old element member)
  · intro other number flying
    dsimp only at flying
    by_cases same : other = text
    · rw [same]
      exact uncached
    · rw [Function.update_of_ne same] at flying
      exact filed.uncached other number flying

theorem Filed.moveToFront {element : SegmentElement} (filed : Filed host described honest source)
    (found : source.segments text = some element) :
    Filed host described honest { source with segmentLRU := ArchiveBlockSource.moveToFront element source.segmentLRU } := by
  have same := ArchiveBlockSource.moveToFront_perm filed.kept.distinct ((filed.kept.mapped text element).mp found).1
  refine ⟨filed.kept.moveToFront found, ?_, filed.bounded, filed.decoded, filed.fetches, filed.uncached, filed.slots⟩
  intro other member
  exact filed.sized other (same.mem_iff.mp member)

theorem Filed.slot (filed : Filed host described honest source) {slots : Nat} (few : slots ≤ maxFetchSlots) :
    Filed host described honest { source with fetchSlots := slots } :=
  ⟨⟨filed.kept.mapped, filed.kept.distinct, filed.kept.old, filed.kept.bytes⟩, filed.sized, filed.bounded, filed.decoded,
    filed.fetches, filed.uncached, few⟩

structure Fetched (host : Host V) (described : SegmentManifest → Prop) (honest : ObjectStore contentOf → (op : Op) → op.Res → Prop)
    (source after : ArchiveBlockSource) (trace : Calls) (entry : Entry ColdOp ColdOp.Res) : Prop where
  filed : Filed host described honest after
  prolongs : source.fetches.Prolongs (DecodedOk host described honest) after.fetches
  tells : Reveals host described honest after entry
  owns : ∀ text flight answer, held (trace ++ [entry]) = .segment text flight answer →
    (after.flights text = some flight ∧ slotsTaken (trace ++ [entry]) = 1) ∧
      ((∃ before, held trace = .segment text flight before) ∨ source.flights text = none)
  releases : ∀ text flight, source.flights text = some flight →
    after.flights text = some flight ∨ ∃ answer, held trace = .segment text flight answer
  slots : source.fetchSlots + slotsTaken (trace ++ [entry]) ≤ after.fetchSlots + slotsTaken trace

theorem Fetched.free {entry : Entry ColdOp ColdOp.Res} {tail : Calls} (filed : Filed host described honest after)
    (same : after.fetches = source.fetches) (tells : Reveals host described honest after entry) (holds : held trace = held tail)
    (slots : slotsTaken trace = slotsTaken tail) (free : hold (held tail) entry = .nothing)
    (count : source.fetchSlots + takeSlot (slotsTaken tail) entry ≤ after.fetchSlots + slotsTaken tail) :
    Fetched host described honest source after trace entry where
  filed := filed
  prolongs := by
    rw [same]
    exact ⟨fun _ _ ended => ended, fun _ _ flying => .inl flying⟩
  tells := tells
  owns text flight answer leads := by
    rw [held_snoc, holds, free] at leads
    cases leads
  releases text flight flying := .inl ((congrFun (congrArg Loads.flying same) text).trans flying)
  slots := by
    rw [slotsTaken_snoc, slots]
    exact count

variable {w w' : World contentOf}

theorem Filed.step {op : ColdOp} {answer : op.Res} (filed : Filed host described honest w.source)
    (knows : Fetches host described honest w.source trace) (allowed : SegmentMay host described trace op)
    (taken : ColdEffect honest False op w answer w') :
    Fetched host described honest w.source w'.source trace ⟨op, answer⟩ := by
  obtain ⟨segment, text, known, marshalled, rounds, tail, rfl, attempt⟩ := allowed
  have holds : held ([] ++ fullRounds text rounds ++ tail) = held tail := held_rounds rfl text rounds tail
  have slots := slotsTaken_rounds text rounds tail
  have subset : tail ⊆ [] ++ fullRounds text rounds ++ tail := List.subset_append_right _ _
  generalize [] ++ fullRounds text rounds ++ tail = trace at *
  cases attempt with
  | enter =>
    obtain ⟨rfl, rfl⟩ := taken
    unfold ArchiveBlockSource.enterSegment
    cases found : w.source.segments text with
    | some element =>
      exact .free (filed.moveToFront found) rfl (filed.decoded text element found) holds slots rfl le_rfl
    | none =>
      cases flying : w.source.flights text with
      | some flight =>
        exact .free filed rfl (.inl flying) holds slots rfl le_rfl
      | none =>
        dsimp only
        split
        next free =>
          have prolongs : w.source.fetches.Prolongs (DecodedOk host described honest) (w.source.fetches.lead text) := .lead flying
          refine ⟨filed.leadSegment found free, prolongs, trivial, ?_, ?_, ?_⟩
          · intro other number answer leads
            rw [held_snoc] at leads
            cases leads
            exact ⟨⟨Function.update_self .., slotsTaken_snoc ..⟩, .inr flying⟩
          · intro other number there
            have differ : other ≠ text := by
              rintro rfl
              rw [flying] at there
              cases there
            exact .inl ((Function.update_of_ne differ _ _).trans there)
          · rw [slotsTaken_snoc, slots]
            exact le_rfl
        next => exact .free filed rfl trivial holds slots rfl le_rfl
  | await =>
    obtain ⟨rfl, told⟩ := taken
    refine .free filed rfl ?_ holds slots rfl le_rfl
    cases answer with
    | ok records => exact told.resolve_right fun early => by cases early.2
    | error err => trivial
  | acquire =>
    cases answer with
    | ok slot =>
      obtain ⟨free, rfl⟩ := taken
      exact .free (filed.slot free) rfl trivial holds slots rfl le_rfl
    | error err =>
      obtain ⟨rfl, -⟩ := taken
      exact .free filed rfl trivial holds slots rfl le_rfl
  | giveBack | release =>
    obtain ⟨taken, rfl⟩ := taken
    have few := filed.slots
    refine .free (filed.slot (by omega)) rfl trivial holds slots rfl ?_
    change w.source.fetchSlots + 0 ≤ w.source.fetchSlots - 1 + 1
    omega
  | get =>
    obtain ⟨rfl, answered⟩ := taken
    have flying := (knows.owns text _ none holds).1
    refine ⟨filed, ⟨fun _ _ ended => ended, fun _ _ there => .inl there⟩, ?_, ?_, fun _ _ there => .inl there, ?_⟩
    · cases answer with
      | ok data => exact ⟨_, answered⟩
      | error err => trivial
    · intro other number read leads
      rw [held_snoc, holds] at leads
      cases leads
      exact ⟨⟨flying, (slotsTaken_snoc ..).trans slots⟩, .inl ⟨none, holds⟩⟩
    · rw [slotsTaken_snoc, slots]
      exact le_rfl
  | @finish flight read =>
    obtain ⟨source, ended, rfl⟩ := taken
    have flying := (knows.owns text flight (some read) holds).1
    have right : DecodedOk host described honest text (readRecords host segment read) := by
      intro records decoded
      obtain ⟨data, rfl, decoded⟩ := bind_eq_ok.mp decoded
      obtain ⟨s, answered⟩ := knows.tells _ (subset (.tail _ List.mem_cons_self))
      exact ⟨segment, s, data, known, marshalled, answered, decoded⟩
    obtain ⟨after, prolongs, flights, same⟩ := filed.finishSegment flying right ended
    refine ⟨after, prolongs, trivial, ?_, ?_, ?_⟩
    · intro other number answer leads
      rw [held_snoc] at leads
      cases leads
    · intro other number there
      by_cases here : other = text
      · subst here
        cases there.symm.trans flying
        exact .inr ⟨_, holds⟩
      · exact .inl (by dsimp only; rw [flights, Function.update_of_ne here]; exact there)
    · rw [slotsTaken_snoc, slots, same]
      exact le_rfl
  | halt => exact answer.elim

end Cache

section Runs

variable {V : Type} {contentOf : String → Bytes} {host : Host V} {described : SegmentManifest → Prop}
  {honest : ObjectStore contentOf → (op : Op) → op.Res → Prop}

/-- The store and the time may change as they like. -/
def Elsewhere (w : World contentOf) (_ : Unit) (w' : World contentOf) : Prop := w'.source = w.source

theorem fetching_informs : Informs (ColdEffect honest False) (Elsewhere : World contentOf → Unit → World contentOf → Prop)
    (fun w => Filed host described honest w.source) (fun _ w trace => Fetches host described honest w.source trace) FetchApart
    (SegmentMay host described) where
  symm trace theirs apart := by
    intro text flight answer flight' answer' holds other
    exact apart text flight' answer' flight answer other holds
  start id w filed := by
    refine ⟨⟨by simp, ?_⟩, ?_⟩
    · intro text flight answer holds
      cases holds
    · intro theirs text flight answer flight' answer' holds
      cases holds
  call id trace op w answer w' filed knows allowed taken := by
    have step := filed.step knows allowed taken
    refine ⟨step.filed, ?_, fun text flight answer holds => (step.owns text flight answer holds).1⟩
    intro entry member
    rcases List.mem_append.mp member with old | new
    · exact (knows.tells entry old).prolongs step.prolongs
    · cases List.mem_singleton.mp new
      exact step.tells
  others id trace op w answer w' other theirs filed knows allowed taken differ known apart := by
    have step := filed.step knows allowed taken
    refine ⟨⟨fun entry member => (known.tells entry member).prolongs step.prolongs, ?_⟩, ?_⟩
    · intro text flight answer holds
      -- only the call that fetches takes its load out
      obtain ⟨flying, slot⟩ := known.owns text flight answer holds
      rcases step.releases text flight flying with still | ⟨mine, here⟩
      · exact ⟨still, slot⟩
      · exact absurd holds (apart text flight mine flight answer here)
    · intro text flight answer flight' answer' leads holds
      rcases (step.owns text flight answer leads).2 with ⟨before, here⟩ | free
      · exact apart text flight before flight' answer' here holds
      · rw [(known.owns text flight' answer' holds).1] at free
        cases free
  moves w label w' filed moved := by
    have same : w'.source = w.source := moved
    rw [same]
    exact ⟨filed, fun _ _ knows => knows⟩

theorem fetching_rations : Rations (ColdEffect honest False) (Elsewhere : World contentOf → Unit → World contentOf → Prop)
    (fun w => Filed host described honest w.source) (fun _ w trace => Fetches host described honest w.source trace)
    (SegmentMay host described) slotsTaken (fun w => w.source.fetchSlots) where
  start := rfl
  call _ _ _ _ _ _ filed knows allowed taken := (filed.step knows allowed taken).slots
  moves w _ w' moved := le_of_eq (congrArg ArchiveBlockSource.fetchSlots (moved : w'.source = w.source)).symm

theorem newArchiveBlockSource_filed {made : ArchiveBlockSource} {manifestKey : String} {limit : Int}
    (created : newArchiveBlockSource host manifestKey = .ok made) (limited : 0 ≤ limit) :
    Filed host described honest { made with segmentCacheLimit := limit } := by
  unfold newArchiveBlockSource at created
  rw [then_eq_ok, then_eq_ok, then_eq_ok] at created
  obtain ⟨-, -, -, same⟩ := created
  cases same
  refine ⟨⟨?_, .nil, by simp, rfl⟩, by simp, limited, by simp, ⟨?_, ?_, ?_⟩, by simp, Nat.zero_le _⟩
  · intro key element
    simp
  · intro key flight flying
    cases flying
  · intro key other flight flying
    cases flying
  · intro flight _
    rfl

theorem ArchiveBlockSource.Kept.keys {source : ArchiveBlockSource} (kept : source.Kept) :
    (source.segmentLRU.map (·.key)).Nodup := by
  refine (List.Nodup.of_map _ kept.distinct).map_on ?_
  intro one first other second same
  have found := (kept.mapped one.key one).mpr ⟨first, rfl⟩
  rw [(kept.mapped one.key other).mpr ⟨second, same.symm⟩] at found
  exact (Option.some.inj found).symm

def IsFetching (m : Machine (World contentOf) ColdOp ColdOp.Res (SegmentManifest × Except Err (List BlockRecord)))
    (text : Bytes) (id : Nat) : Prop :=
  ∃ proc flight answer, m.procs id = some proc ∧ held proc.trace = .segment text flight answer

theorem Fetches.returned {source : ArchiveBlockSource} {trace : Calls} {segment : SegmentManifest}
    {records : List BlockRecord} (filed : Filed host described honest source)
    (knows : Fetches host described honest source trace)
    (texts : ∀ a b, described a → described b → ∀ text, host.json.marshalSegment a = .ok text →
      host.json.marshalSegment b = .ok text → a = b)
    (ended : SegmentPost host described trace (segment, .ok records)) :
    ∃ s data, honest s (.get segment.key) (.ok data) ∧
      decodeSegment host.codec host.comet data segment = .ok records := by
  obtain ⟨text, rounds, tail, known, marshalled, same, attempted⟩ := ended records rfl
  have subset : tail ⊆ trace := by
    rw [same]
    exact List.subset_append_right _ _
  have named : Decoded host described honest text records → ∃ s data, honest s (.get segment.key) (.ok data) ∧
      decodeSegment host.codec host.comet data segment = .ok records := by
    rintro ⟨other, s, data, described, marshalled', answered, decoded⟩
    cases texts other segment described known text marshalled' marshalled
    exact ⟨s, data, answered, decoded⟩
  change Attempted host segment text tail (.ok records) at attempted
  generalize result : (Except.ok records : Except Err (List BlockRecord)) = returned at attempted
  cases attempted with
  | cached =>
    cases result
    exact named (knows.tells _ (subset List.mem_cons_self))
  | followed =>
    cases result
    have joined := knows.tells _ (subset List.mem_cons_self)
    have done := knows.tells _ (subset (.tail _ List.mem_cons_self))
    exact named (Loads.Joined.ended_right joined filed.fetches done _ rfl)
  | noSlot => cases result
  | read =>
    obtain ⟨data, rfl, -⟩ := bind_eq_ok.mp result.symm
    obtain ⟨s, answered⟩ := knows.tells _ (subset (.tail _ List.mem_cons_self))
    exact ⟨s, data, answered, rfl⟩

/-- The cache of segments under any interleaving of calls. -/
theorem segment_cache_coherent {start : World contentOf} {made : ArchiveBlockSource} {manifestKey : String} {limit : Int}
    {events : List (Event ColdOp ColdOp.Res (SegmentManifest × Except Err (List BlockRecord)) Unit)}
    {m : Machine (World contentOf) ColdOp ColdOp.Res (SegmentManifest × Except Err (List BlockRecord))}
    (created : newArchiveBlockSource host manifestKey = .ok made) (limited : 0 ≤ limit)
    (started : start.source = { made with segmentCacheLimit := limit })
    (texts : ∀ a b, described a → described b → ∀ text, host.json.marshalSegment a = .ok text →
      host.json.marshalSegment b = .ok text → a = b)
    (run : Run (Step (ColdEffect honest False) Elsewhere) (Machine.idle start) events m)
    (calls : ∀ id p, .spawn id p ∈ events → ∃ fuel segment, described segment ∧ p = segmentCall host fuel segment) :
    -- the map and the list hold the same entries, no two with one key
    ArchiveBlockSource.Mapped m.shared.source.segments m.shared.source.segmentLRU ∧
    (m.shared.source.segmentLRU.map (·.key)).Nodup ∧
    -- their sizes add up to the count of bytes, within the limit
    m.shared.source.segmentBytes = ArchiveBlockSource.totalBytes m.shared.source.segmentLRU ∧
    (∀ element ∈ m.shared.source.segmentLRU,
      element.bytes = ArchiveBlockSource.recordsSize element.key element.records) ∧
    m.shared.source.segmentBytes ≤ m.shared.source.segmentCacheLimit ∧
    -- a call that is about to keep its records does not panic on an empty list
    (∀ id text flight result next trace, m.procs id = some ⟨.call (.finishSegment text flight result) next, trace⟩ →
      ∃ after, m.shared.source.finishSegment text flight result = some after) ∧
    -- one fetch for a descriptor at a time, and four for all
    (∀ text id other, IsFetching m text id → IsFetching m text other → id = other) ∧
    (∀ ids : Finset Nat, (∀ id ∈ ids, ∃ text, IsFetching m text id) → ids.card ≤ maxFetchSlots) ∧
    -- what a call returns
    ∀ id segment records trace, m.procs id = some ⟨.ret (segment, .ok records), trace⟩ →
      ∃ s data, honest s (.get segment.key) (.ok data) ∧
        decodeSegment host.codec host.comet data segment = .ok records := by
  have follows : ∀ id p, .spawn id p ∈ events → p.All (SegmentMay host described) (SegmentPost host described) [] := by
    intro id p spawned
    obtain ⟨fuel, segment, known, rfl⟩ := calls id p spawned
    exact segmentCall_follows known fuel
  have idle : (Machine.idle start).Informed (fun w => Filed host described honest w.source)
      (fun _ w trace => Fetches host described honest w.source trace) FetchApart (SegmentMay host described)
      (SegmentPost host described) := by
    refine ⟨?_, by simp [Machine.idle], by simp [Machine.idle]⟩
    change Filed host described honest start.source
    rw [started]
    exact newArchiveBlockSource_filed created limited
  have informed := Run.informed fetching_informs run follows idle
  have filed := informed.inv
  refine ⟨filed.kept.mapped, filed.kept.keys, filed.kept.bytes, filed.sized, filed.bounded, ?_, ?_, ?_, ?_⟩
  · intro id text flight result next trace found
    obtain ⟨all, knows⟩ := informed.procs id _ found
    obtain ⟨segment, same, -, -, rounds, tail, rfl, attempt⟩ := all.1
    cases attempt with
    | finish =>
      obtain ⟨flying, -⟩ := knows.owns text flight _ (held_rounds rfl text rounds _)
      obtain ⟨after, finished, -⟩ := filed.finishes flying (readRecords host segment _)
      exact ⟨after, finished⟩
  · rintro text id other ⟨proc, flight, answer, found, holds⟩ ⟨theirs, flight', answer', running, holds'⟩
    by_contra differ
    exact informed.apart id other proc theirs (Ne.symm differ) found running text flight answer flight' answer' holds holds'
  · intro ids fetching
    have rationed := Run.rationed fetching_rations fetching_informs run follows idle
      (by simp [Machine.Rationed, Machine.tokens, Machine.idle])
    refine le_trans ?_ ((rationed ids).trans filed.slots)
    rw [Finset.card_eq_sum_ones]
    apply Finset.sum_le_sum
    intro id member
    obtain ⟨text, proc, flight, answer, found, holds⟩ := fetching id member
    have slot := ((informed.procs id proc found).2.owns text flight answer holds).2
    simp [Machine.tokens, found, slot]
  · intro id segment records trace found
    obtain ⟨ended, knows⟩ := informed.procs id _ found
    exact knows.returned filed texts ended

end Runs

section Sample

abbrev SegmentMachine := Machine (World spelledContent) ColdOp ColdOp.Res (SegmentManifest × Except Err (List BlockRecord))

-- two calls share one fetch of the first segment, then a third call fetches the second
def shortCalls : List (Event ColdOp ColdOp.Res (SegmentManifest × Except Err (List BlockRecord)) Unit) :=
  [.spawn 0 (segmentCall shortHost 1 (shortSegment 1)), .spawn 1 (segmentCall shortHost 1 (shortSegment 1)),
    .run 0, .run 1, .run 0, .run 0, .run 0, .run 1,
    .spawn 2 (segmentCall shortHost 1 (shortSegment 2)), .run 2, .run 2, .run 2, .run 2]

def hasRecords : Option (Proc ColdOp ColdOp.Res (SegmentManifest × Except Err (List BlockRecord))) → Bool
  | some ⟨.ret (_, .ok _), _⟩ => true
  | _ => false

theorem exists_records {m : SegmentMachine} {id : Nat} (has : hasRecords (m.procs id) = true) :
    ∃ segment records trace, m.procs id = some ⟨.ret (segment, .ok records), trace⟩ := by
  unfold hasRecords at has
  split at has
  next segment records trace found => exact ⟨segment, records, trace, found⟩
  next => cases has

-- the cache has no room for both segments: the third call evicts what the other two returned
theorem segment_cache_short : ∃ m : SegmentMachine,
    Run (Step (ColdEffect (fun s => Faithful s) False) Elsewhere)
      (Machine.idle ⟨shortObjects [1, 2], { shortSource with segmentCacheLimit := 200 }, 0⟩) shortCalls m ∧
    m.shared.source.segmentLRU.map (·.key) = [[2]] ∧
    m.shared.source.segmentBytes = ArchiveBlockSource.totalBytes m.shared.source.segmentLRU ∧
    m.shared.source.segmentBytes ≤ m.shared.source.segmentCacheLimit ∧
    ∀ id < 3, ∃ segment records trace, m.procs id = some ⟨.ret (segment, .ok records), trace⟩ ∧
      ∃ data, decodeSegment shortHost.codec shortHost.comet data segment = .ok records := by
  have ends : (play serveCold (fun _ _ => none) shortCalls
      (Machine.idle ⟨shortObjects [1, 2], { shortSource with segmentCacheLimit := 200 }, 0⟩)).map (fun m =>
        (m.shared.source.segmentLRU.map (·.key), (List.range 3).all fun id => hasRecords (m.procs id))) =
      some ([[2]], true) := by decide +kernel
  obtain ⟨m, played, after⟩ := Option.map_eq_some_iff.mp ends
  obtain ⟨evicted, all⟩ := Prod.mk.inj after
  have run : Run (Step (ColdEffect (fun s => Faithful s) False) Elsewhere) _ shortCalls m :=
    play_run serveCold_effect (fun _ _ _ moved => by cases moved) played
  have texts : ∀ a b, (a = shortSegment 1 ∨ a = shortSegment 2) → (b = shortSegment 1 ∨ b = shortSegment 2) →
      ∀ text, shortHost.json.marshalSegment a = .ok text → shortHost.json.marshalSegment b = .ok text → a = b := by
    rintro a b (rfl | rfl) (rfl | rfl) text first second
    · rfl
    · exact absurd (first.trans second.symm) (by decide)
    · exact absurd (first.trans second.symm) (by decide)
    · rfl
  obtain ⟨-, -, bytes, -, bounded, -, -, -, returned⟩ := segment_cache_coherent shortSource_created.1
    (by decide : (0 : Int) ≤ 200) rfl texts run (by
      intro id p spawned
      simp only [shortCalls, List.mem_cons, Event.spawn.injEq, reduceCtorEq, List.not_mem_nil, false_or, or_false] at spawned
      rcases spawned with ⟨-, rfl⟩ | ⟨-, rfl⟩ | ⟨-, rfl⟩
      · exact ⟨1, _, .inl rfl, rfl⟩
      · exact ⟨1, _, .inl rfl, rfl⟩
      · exact ⟨1, _, .inr rfl, rfl⟩)
  refine ⟨m, run, evicted, bytes, bounded, fun id below => ?_⟩
  obtain ⟨segment, records, trace, found⟩ :=
    exists_records (List.all_eq_true.mp all id (List.mem_range.mpr below))
  obtain ⟨s, data, -, decoded⟩ := returned id segment records trace found
  exact ⟨segment, records, trace, found, data, decoded⟩

end Sample

end CometArchive.Blocksync
