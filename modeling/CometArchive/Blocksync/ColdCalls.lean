import CometArchive.Archive.PruneSafety
import CometArchive.Blocksync.ColdSource
import CometArchive.Shared.Coalesce

set_option autoImplicit false

namespace CometArchive.Blocksync

open GoBytes GoError Archive Programs Programs.Fallible

variable {V : Type} (host : Host V) (manifestKey : String)

def readManifest (answer : Except Err (Bytes × String)) : Except Err Manifest := do
  -- what `LoadManifest` makes of the answer of the store
  let (data, revision) ← answer
  refuse (maxManifestBytes < data.length) (.new "manifest exceeds size limit")
  let manifest ← textual (host.json.unmarshalManifest data)
  let manifest := { manifest with revision, sourceKey := manifestKey }
  manifest.validate
  return manifest

def readRecords (segment : SegmentManifest) (answer : Except Err Bytes) : Except Err (List BlockRecord) := do
  let data ← answer
  decodeSegment host.codec host.comet data segment

abbrev Calls := Trace ColdOp ColdOp.Res

/-- The load that a call has begun and not finished, with what it has read. -/
inductive Held where
  | nothing
  | manifest (flight : Nat) (answer : Option (Except Err (Bytes × String)))
  | segment (text : Bytes) (flight : Nat) (answer : Option (Except Err Bytes))

def hold (before : Held) : Entry ColdOp ColdOp.Res → Held
  | ⟨.enterManifest, .lead flight⟩ => .manifest flight none
  | ⟨.finishManifest _ _, _⟩ => .nothing
  | ⟨.enterSegment text, .lead flight⟩ => .segment text flight none
  | ⟨.finishSegment _ _ _, _⟩ => .nothing
  | ⟨.store (.getVersioned _), answer⟩ => match before with
    | .manifest flight _ => .manifest flight (some answer)
    | _ => before
  | ⟨.store (.get _), answer⟩ => match before with
    | .segment text flight _ => .segment text flight (some answer)
    | _ => before
  | _ => before

def held (trace : Calls) : Held := trace.foldl hold .nothing

theorem held_snoc (trace : Calls) (entry : Entry ColdOp ColdOp.Res) : held (trace ++ [entry]) = hold (held trace) entry := by
  rw [held, List.foldl_append]
  rfl

inductive Gives (trace : Calls) : Except Err Manifest → Prop
  | cached {m : Manifest} (entry : ⟨.enterManifest, .cached m⟩ ∈ trace) : Gives trace (.ok m)
  | followed {flight : Nat} {answer : Except Err Manifest} (entry : ⟨.awaitManifest flight, answer⟩ ∈ trace) :
    Gives trace answer
  | read {answer : Except Err (Bytes × String)} (entry : ⟨.store (.getVersioned manifestKey), answer⟩ ∈ trace) :
    Gives trace (readManifest host manifestKey answer)
  | full {err : Err} (entry : ⟨.enterManifest, .full⟩ ∈ trace) : Gives trace (.error err)

def Listed (trace : Calls) (segment : SegmentManifest) : Prop :=
  -- the segment is in a manifest that the trace gives
  ∃ m, Gives host manifestKey trace (.ok m) ∧ segment ∈ m.segments

inductive GivesRecords (trace : Calls) (segment : SegmentManifest) : Except Err (List BlockRecord) → Prop
  | cached {text : Bytes} {records : List BlockRecord} (marshalled : host.json.marshalSegment segment = .ok text)
    (entry : ⟨.enterSegment text, .cached records⟩ ∈ trace) : GivesRecords trace segment (.ok records)
  | followed {text : Bytes} {flight : Nat} {answer : Except Err (List BlockRecord)}
    (marshalled : host.json.marshalSegment segment = .ok text) (follows : ⟨.enterSegment text, .follow flight⟩ ∈ trace)
    (entry : ⟨.awaitSegment flight, answer⟩ ∈ trace) : GivesRecords trace segment answer
  | read {answer : Except Err Bytes} (entry : ⟨.store (.get segment.key), answer⟩ ∈ trace) :
    GivesRecords trace segment (readRecords host segment answer)
  | noSlot {err : Err} (entry : ⟨.acquireSlot, .error err⟩ ∈ trace) : GivesRecords trace segment (.error err)
  | noText {text : String} {err : Err} (failed : host.json.marshalSegment segment = .error text) :
    GivesRecords trace segment (.error err)

def ColdMay (trace : Calls) : ColdOp → Prop
  | .store (.getVersioned key) => key = manifestKey ∧ ∃ flight, held trace = .manifest flight none
  | .store (.get key) => ∃ segment text flight, Listed host manifestKey trace segment ∧ segment.key = key ∧
      host.json.marshalSegment segment = .ok text ∧ held trace = .segment text flight none
  | .store _ => False
  | .enterManifest => held trace = .nothing
  | .awaitManifest flight => ⟨.enterManifest, .follow flight⟩ ∈ trace ∧ held trace = .nothing
  | .finishManifest flight result => ∃ answer, held trace = .manifest flight (some answer) ∧
      ⟨.store (.getVersioned manifestKey), answer⟩ ∈ trace ∧ result = readManifest host manifestKey answer
  | .enterSegment text => held trace = .nothing ∧
      ∃ segment, Listed host manifestKey trace segment ∧ host.json.marshalSegment segment = .ok text
  | .awaitSegment flight => held trace = .nothing ∧ ∃ text, ⟨.enterSegment text, .follow flight⟩ ∈ trace
  | .finishSegment text flight result => ∃ segment answer, held trace = .segment text flight (some answer) ∧
      Listed host manifestKey trace segment ∧ host.json.marshalSegment segment = .ok text ∧
      ⟨.store (.get segment.key), answer⟩ ∈ trace ∧ result = readRecords host segment answer
  | _ => True

variable {host} {manifestKey} {trace later : Calls}

theorem Gives.mono {result : Except Err Manifest} (gives : Gives host manifestKey trace result) (grows : trace ⊆ later) :
    Gives host manifestKey later result := by
  cases gives with
  | cached entry => exact .cached (grows entry)
  | followed entry => exact .followed (grows entry)
  | read entry => exact .read (grows entry)
  | full entry => exact .full (grows entry)

theorem Listed.mono {segment : SegmentManifest} (listed : Listed host manifestKey trace segment) (grows : trace ⊆ later) :
    Listed host manifestKey later segment := by
  obtain ⟨m, gives, member⟩ := listed
  exact ⟨m, gives.mono grows, member⟩

theorem GivesRecords.mono {segment : SegmentManifest} {result : Except Err (List BlockRecord)}
    (gives : GivesRecords host trace segment result) (grows : trace ⊆ later) : GivesRecords host later segment result := by
  cases gives with
  | cached marshalled entry => exact .cached marshalled (grows entry)
  | followed marshalled follows entry => exact .followed marshalled (grows follows) (grows entry)
  | read entry => exact .read (grows entry)
  | noSlot entry => exact .noSlot (grows entry)
  | noText failed => exact .noText failed

theorem mem_last (trace : Calls) (entry : Entry ColdOp ColdOp.Res) : entry ∈ trace ++ [entry] :=
  List.mem_append_right _ List.mem_cons_self

structure Opened (host : Host V) (manifestKey : String) : Prop where
  named : validateObjectKey manifestKey = .ok ()
  store : host.hasStore = true

theorem onStore_loadManifest (opened : Opened host manifestKey) :
    onStore (Archive.loadManifest host manifestKey) =
      attempt (.store (.getVersioned manifestKey)) (readManifest host manifestKey) := by
  have key : wrapping "manifest key" (validateObjectKey manifestKey) = .ok () := by
    rw [opened.named]
    rfl
  have store : refuse (host.hasStore = false) (.new "object store is required") = (.ok () : Except Err Unit) :=
    refuse_eq_ok.mpr (by simp [opened.store])
  unfold Archive.loadManifest
  -- nothing is called after the read
  simp only [key, store, pure_eq_lift, lift_bind_lift]
  change ExceptT.mk (Prog.call _ _) = ExceptT.mk (Prog.call _ _)
  congr 2
  funext answer
  cases answer with
  | error err => rfl
  | ok found => rfl

theorem onStore_readSegment (segment : SegmentManifest) :
    onStore (readSegment host segment) = attempt (.store (.get segment.key)) (readRecords host segment) := by
  change ExceptT.mk (Prog.call _ _) = ExceptT.mk (Prog.call _ _)
  congr 2
  funext answer
  cases answer with
  | error err => rfl
  | ok data => rfl

theorem readManifest_loads {contentOf : String → Bytes} {s : ObjectStore contentOf} {data : Bytes} {revision : String}
    {m : Manifest} (opened : Opened host manifestKey) (stored : s.objects manifestKey = some ⟨data, revision⟩)
    (read : readManifest host manifestKey (.ok (data, revision)) = .ok m) : Loads host manifestKey s m := by
  unfold readManifest at read
  obtain ⟨_, same, read⟩ := bind_eq_ok.mp read
  cases same
  rw [then_eq_ok, refuse_eq_ok] at read
  obtain ⟨small, read⟩ := read
  obtain ⟨manifest, parsed, read⟩ := bind_eq_ok.mp read
  rw [then_eq_ok, Manifest.validate_eq_ok] at read
  obtain ⟨valid, same⟩ := read
  cases same
  exact ⟨opened.named, opened.store, ⟨_, manifest, stored, by simpa using small, textual_eq_ok.mp parsed, rfl⟩, valid⟩

theorem readManifest_of_loads {contentOf : String → Bytes} {s : ObjectStore contentOf} {m : Manifest} {object : Object}
    (loads : Loads host manifestKey s m) (stored : s.objects manifestKey = some object) :
    readManifest host manifestKey (.ok (object.data, object.revision)) = .ok m := by
  obtain ⟨other, read, same, small, parsed, rfl⟩ := loads.stored
  cases stored.symm.trans same
  unfold readManifest
  refine bind_eq_ok.mpr ⟨_, rfl, then_eq_ok.mpr ⟨refuse_eq_ok.mpr (by simpa using small), ?_⟩⟩
  refine bind_eq_ok.mpr ⟨read, textual_eq_ok.mpr parsed, then_eq_ok.mpr ⟨?_, rfl⟩⟩
  exact Manifest.validate_eq_ok.mpr loads.valid

theorem loadManifest_calls (opened : Opened host manifestKey) (free : held trace = .nothing) :
    (ArchiveBlockSource.loadManifest host manifestKey).Ok (ColdMay host manifestKey)
      (fun later err => held later = .nothing ∧ Gives host manifestKey later (.error err))
      (fun later m => held later = .nothing ∧ Gives host manifestKey later (.ok m)) trace := by
  unfold ArchiveBlockSource.loadManifest
  apply Ok.bind
  apply Ok.query ColdOp.enterManifest free
  intro entered
  cases entered with
  | cached m =>
    apply Ok.pure
    rw [held_snoc]
    exact ⟨free, .cached (mem_last _ _)⟩
  | follow flight =>
    have still : held (trace ++ [⟨.enterManifest, .follow flight⟩]) = .nothing := (held_snoc ..).trans free
    apply Ok.attempt ⟨mem_last _ _, still⟩
    · rintro answer err rfl
      rw [held_snoc]
      exact ⟨still, .followed (mem_last _ _)⟩
    · rintro answer m rfl
      rw [held_snoc]
      exact ⟨still, .followed (mem_last _ _)⟩
  | lead flight =>
    rw [onStore_loadManifest opened]
    have leads : held (trace ++ [⟨.enterManifest, .lead flight⟩]) = .manifest flight none := held_snoc ..
    apply Ok.bind
    apply Ok.outcome
    -- both outcomes go on alike
    have rest : ∀ answer, Ok (ColdMay host manifestKey)
        (fun later err => held later = .nothing ∧ Gives host manifestKey later (.error err))
        (fun later m => held later = .nothing ∧ Gives host manifestKey later (.ok m))
        (do
          let _ ← query (ColdOp.finishManifest flight (readManifest host manifestKey answer))
          lift (readManifest host manifestKey answer))
        (trace ++ [⟨.enterManifest, .lead flight⟩] ++ [⟨.store (.getVersioned manifestKey), answer⟩]) := by
      intro answer
      have reading : held (trace ++ [⟨.enterManifest, .lead flight⟩] ++ [⟨.store (.getVersioned manifestKey), answer⟩]) =
          .manifest flight (some answer) := by
        rw [held_snoc, leads]
        rfl
      apply Ok.bind
      apply Ok.query (ColdOp.finishManifest flight _) ⟨answer, reading, mem_last _ _, rfl⟩
      intro done
      have finished : held (trace ++ [⟨.enterManifest, .lead flight⟩] ++ [⟨.store (.getVersioned manifestKey), answer⟩] ++
          [⟨.finishManifest flight (readManifest host manifestKey answer), done⟩]) = .nothing := held_snoc ..
      have read : ∀ result, readManifest host manifestKey answer = result → Gives host manifestKey
          (trace ++ [⟨.enterManifest, .lead flight⟩] ++ [⟨.store (.getVersioned manifestKey), answer⟩] ++
            [⟨.finishManifest flight (readManifest host manifestKey answer), done⟩]) result := by
        rintro _ rfl
        exact .read (List.mem_append_left _ (mem_last _ _))
      apply Ok.lift
      · intro err failed
        exact ⟨finished, read _ failed⟩
      · intro m loaded
        exact ⟨finished, read _ loaded⟩
    apply Ok.attempt ⟨rfl, flight, leads⟩
    · intro answer err failed
      have ok := rest answer
      rw [failed] at ok
      exact ok
    · intro answer m loaded
      have ok := rest answer
      rw [loaded] at ok
      exact ok
  | full =>
    apply Ok.lift
    · intro err failed
      rw [held_snoc]
      exact ⟨free, .full (mem_last _ _)⟩
    · intro m impossible
      cases impossible

def fullRounds (text : Bytes) : Nat → Calls
  -- the calls of `rounds` rounds that found all slots taken
  | 0 => []
  | rounds + 1 =>
    [⟨.enterSegment text, .full⟩, ⟨.acquireSlot, .ok ()⟩, ⟨.releaseSlot, ()⟩] ++ fullRounds text rounds

inductive Attempt (host : Host V) (segment : SegmentManifest) (text : Bytes) : Calls → ColdOp → Prop
  | enter : Attempt host segment text [] (.enterSegment text)
  | await {flight : Nat} : Attempt host segment text [⟨.enterSegment text, .follow flight⟩] (.awaitSegment flight)
  | acquire : Attempt host segment text [⟨.enterSegment text, .full⟩] .acquireSlot
  | giveBack : Attempt host segment text [⟨.enterSegment text, .full⟩, ⟨.acquireSlot, .ok ()⟩] .releaseSlot
  | get {flight : Nat} : Attempt host segment text [⟨.enterSegment text, .lead flight⟩] (.store (.get segment.key))
  | finish {flight : Nat} {answer : Except Err Bytes} :
    Attempt host segment text [⟨.enterSegment text, .lead flight⟩, ⟨.store (.get segment.key), answer⟩]
      (.finishSegment text flight (readRecords host segment answer))
  | release {flight : Nat} {answer : Except Err Bytes} :
    Attempt host segment text [⟨.enterSegment text, .lead flight⟩, ⟨.store (.get segment.key), answer⟩,
      ⟨.finishSegment text flight (readRecords host segment answer), ()⟩] .releaseSlot
  | halt : Attempt host segment text [] .halt

inductive Attempted (host : Host V) (segment : SegmentManifest) (text : Bytes) :
    Calls → Except Err (List BlockRecord) → Prop
  | cached {records : List BlockRecord} :
    Attempted host segment text [⟨.enterSegment text, .cached records⟩] (.ok records)
  | followed {flight : Nat} {answer : Except Err (List BlockRecord)} :
    Attempted host segment text [⟨.enterSegment text, .follow flight⟩, ⟨.awaitSegment flight, answer⟩] answer
  | noSlot {err : Err} :
    Attempted host segment text [⟨.enterSegment text, .full⟩, ⟨.acquireSlot, .error err⟩] (.error err)
  | read {flight : Nat} {answer : Except Err Bytes} :
    Attempted host segment text [⟨.enterSegment text, .lead flight⟩, ⟨.store (.get segment.key), answer⟩,
      ⟨.finishSegment text flight (readRecords host segment answer), ()⟩, ⟨.releaseSlot, ()⟩]
      (readRecords host segment answer)

/-- The calls of a load of a segment: some rounds for nothing, then one that comes to something. -/
def Attempts (host : Host V) (segment : SegmentManifest) (text : Bytes) (trace later : Calls) (op : ColdOp) : Prop :=
  ∃ rounds tail, later = trace ++ fullRounds text rounds ++ tail ∧ Attempt host segment text tail op

theorem Attempts.round {segment : SegmentManifest} {text : Bytes} {op : ColdOp}
    (attempts : Attempts host segment text (trace ++ fullRounds text 1) later op) :
    Attempts host segment text trace later op := by
  obtain ⟨rounds, tail, rfl, attempt⟩ := attempts
  exact ⟨rounds + 1, tail, by simp [fullRounds], attempt⟩

theorem acquireSegment_attempts (segment : SegmentManifest) (text : Bytes) (fuel : Nat) (trace : Calls) :
    (ArchiveBlockSource.acquireSegment host text segment fuel).run.All (Attempts host segment text trace)
      (fun later result => ∃ rounds tail, later = trace ++ fullRounds text rounds ++ tail ∧
        Attempted host segment text tail result) trace := by
  induction fuel generalizing trace with
  | zero => exact ⟨⟨0, [], by simp [fullRounds], .halt⟩, fun never => nomatch never⟩
  | succ fuel ih =>
    have first : ∀ tail, trace ++ tail = trace ++ fullRounds text 0 ++ tail := by simp [fullRounds]
    unfold ArchiveBlockSource.acquireSegment
    refine ⟨⟨0, [], by simp [fullRounds], .enter⟩, ?_⟩
    intro entered
    cases entered with
    | cached records => exact ⟨0, _, first _, .cached⟩
    | follow flight =>
      refine ⟨⟨0, _, first _, .await⟩, ?_⟩
      intro answer
      exact ⟨0, _, (List.append_assoc ..).trans (first _), .followed⟩
    | full =>
      refine ⟨⟨0, _, first _, .acquire⟩, ?_⟩
      intro answer
      cases answer with
      | error err => exact ⟨0, _, (List.append_assoc ..).trans (first _), .noSlot⟩
      | ok slot =>
        refine ⟨⟨0, _, (List.append_assoc ..).trans (first _), .giveBack⟩, ?_⟩
        intro released
        -- the rounds that follow are those of the same loop
        have again := ih (trace ++ fullRounds text 1)
        simp only [List.append_assoc, List.cons_append, List.nil_append]
        refine Prog.All.mono (Prog.All.weaken again fun _ _ attempts => attempts.round) ?_
        rintro later result ⟨rounds, tail, rfl, attempted⟩
        exact ⟨rounds + 1, tail, by simp [fullRounds], attempted⟩
    | lead flight =>
      rw [onStore_readSegment]
      refine ⟨⟨0, _, first _, .get⟩, ?_⟩
      intro answer
      have entries (tail : Calls) : trace ++ [⟨.enterSegment text, .lead flight⟩] ++
          [⟨.store (.get segment.key), answer⟩] ++ tail = trace ++ fullRounds text 0 ++
            (⟨.enterSegment text, .lead flight⟩ :: ⟨.store (.get segment.key), answer⟩ :: tail) := by
        simp [fullRounds]
      refine ⟨⟨0, _, (List.append_assoc ..).trans (first _), .finish⟩, fun _ => ?_⟩
      refine ⟨⟨0, _, entries _, .release⟩, fun _ => ?_⟩
      exact ⟨0, _, (List.append_assoc ..).trans (entries _), .read⟩

theorem held_rounds (free : held trace = .nothing) (text : Bytes) (rounds : Nat) (tail : Calls) :
    held (trace ++ fullRounds text rounds ++ tail) = held tail := by
  have nothing : held (trace ++ fullRounds text rounds) = .nothing := by
    rw [held, List.foldl_append, ← held, free]
    induction rounds with
    | zero => rfl
    | succ rounds ih => exact ih
  rw [held, List.foldl_append, ← held, nothing, held]

theorem acquireSegment_calls {segment : SegmentManifest} {text : Bytes} {fuel : Nat} (free : held trace = .nothing)
    (listed : Listed host manifestKey trace segment) (marshalled : host.json.marshalSegment segment = .ok text) :
    (ArchiveBlockSource.acquireSegment host text segment fuel).Ok (ColdMay host manifestKey)
      (fun later err => held later = .nothing ∧ GivesRecords host later segment (.error err))
      (fun later records => held later = .nothing ∧ GivesRecords host later segment (.ok records)) trace := by
  have known : ∀ rounds tail, Listed host manifestKey (trace ++ fullRounds text rounds ++ tail) segment := by
    intro rounds tail
    apply listed.mono
    rw [List.append_assoc]
    exact List.subset_append_left _ _
  apply Ok.of_all
  refine Prog.All.mono (Prog.All.weaken (acquireSegment_attempts segment text fuel trace) ?_) ?_
  · rintro _ op ⟨rounds, tail, rfl, attempt⟩
    have holds := held_rounds free text rounds tail
    cases attempt with
    | enter => exact ⟨holds, segment, known _ _, marshalled⟩
    | await => exact ⟨holds, text, List.mem_append_right _ List.mem_cons_self⟩
    | get => exact ⟨segment, text, _, known _ _, rfl, marshalled, holds⟩
    | finish =>
      exact ⟨segment, _, holds, known _ _, marshalled, List.mem_append_right _ (.tail _ List.mem_cons_self), rfl⟩
    | acquire | giveBack | release | halt => trivial
  · rintro _ result ⟨rounds, tail, rfl, attempted⟩
    have holds := held_rounds free text rounds tail
    have gives : GivesRecords host (trace ++ fullRounds text rounds ++ tail) segment result := by
      refine GivesRecords.mono ?_ (List.subset_append_right _ tail)
      cases attempted with
      | cached => exact .cached marshalled List.mem_cons_self
      | followed => exact .followed marshalled List.mem_cons_self (.tail _ List.mem_cons_self)
      | noSlot => exact .noSlot (.tail _ List.mem_cons_self)
      | read => exact .read (.tail _ List.mem_cons_self)
    have free : held (trace ++ fullRounds text rounds ++ tail) = .nothing := by
      cases attempted <;> exact holds
    cases result with
    | error err => exact ⟨free, gives⟩
    | ok records => exact ⟨free, gives⟩

theorem loadSegment_calls {segment : SegmentManifest} {fuel : Nat} (free : held trace = .nothing)
    (listed : Listed host manifestKey trace segment) :
    (ArchiveBlockSource.loadSegment host fuel segment).Ok (ColdMay host manifestKey)
      (fun later err => held later = .nothing ∧ GivesRecords host later segment (.error err))
      (fun later records => held later = .nothing ∧ GivesRecords host later segment (.ok records)) trace := by
  unfold ArchiveBlockSource.loadSegment
  apply Ok.check
  · intro err failed
    cases marshalled : host.json.marshalSegment segment with
    | error text => exact ⟨free, .noText marshalled⟩
    | ok text =>
      rw [marshalled] at failed
      cases failed
  · intro text marshalled
    exact acquireSegment_calls free listed (textual_eq_ok.mp marshalled)

def manifestRange (m : Manifest) : PeerRange := if m.lastHeight = 0 then ⟨0, 0⟩ else ⟨m.firstHeight, m.lastHeight⟩

theorem advertisedRange_calls (opened : Opened host manifestKey) (free : held trace = .nothing) :
    (ArchiveBlockSource.advertisedRange host manifestKey).Ok (ColdMay host manifestKey)
      (fun later err => held later = .nothing ∧ Gives host manifestKey later (.error err))
      (fun later range => held later = .nothing ∧
        ((∃ err, Gives host manifestKey later (.error err)) ∧ range = ⟨0, 0⟩ ∨
          ∃ m, Gives host manifestKey later (.ok m) ∧ range = manifestRange m)) trace := by
  unfold ArchiveBlockSource.advertisedRange
  apply Ok.recover
  apply Ok.bind
  refine (loadManifest_calls opened free).mono ?_ ?_
  · intro later err gives
    split
    · apply Ok.pure
      exact ⟨gives.1, .inl ⟨⟨err, gives.2⟩, rfl⟩⟩
    · apply Ok.lift
      · intro other same
        cases same
        exact gives
      · intro range impossible
        cases impossible
  · intro later m gives
    split
    next empty =>
      apply Ok.pure
      exact ⟨gives.1, .inr ⟨m, gives.2, by rw [manifestRange, if_pos empty]⟩⟩
    next filled =>
      apply Ok.pure
      exact ⟨gives.1, .inr ⟨m, gives.2, by rw [manifestRange, if_neg filled]⟩⟩

def recordAt (segment : SegmentManifest) (records : List BlockRecord) (height : Int) : Option BlockRecord :=
  if height - segment.firstHeight < 0 then none else records[(height - segment.firstHeight).toNat]?

inductive Unloaded (host : Host V) (manifestKey : String) (trace : Calls) (height : Int) : Prop
  | below (low : height ≤ 0)
  | manifest {err : Err} (gives : Gives host manifestKey trace (.error err))
  | segment {m : Manifest} (gives : Gives host manifestKey trace (.ok m))
    (missing : ArchiveBlockSource.segmentForHeight m.segments height = none)
  | records {m : Manifest} {segment : SegmentManifest} {err : Err} (gives : Gives host manifestKey trace (.ok m))
    (found : ArchiveBlockSource.segmentForHeight m.segments height = some segment)
    (failed : GivesRecords host trace segment (.error err))
  | record {m : Manifest} {segment : SegmentManifest} {records : List BlockRecord}
    (gives : Gives host manifestKey trace (.ok m))
    (found : ArchiveBlockSource.segmentForHeight m.segments height = some segment)
    (loaded : GivesRecords host trace segment (.ok records))
    (missing : ∀ record, recordAt segment records height = some record → ∀ block, recordToBlock host.comet record ≠ .ok block)

def Broken (host : Host V) (manifestKey : String) (trace : Calls) (height : Int) : Prop :=
  (∃ err, Gives host manifestKey trace (.error err)) ∨
    ∃ m segment, Gives host manifestKey trace (.ok m) ∧
      ArchiveBlockSource.segmentForHeight m.segments height = some segment ∧
      ((∃ err, GivesRecords host trace segment (.error err)) ∨
        ∃ records record, GivesRecords host trace segment (.ok records) ∧ recordAt segment records height = some record ∧
          ∀ block, recordToBlock host.comet record ≠ .ok block)

def Loaded (host : Host V) (manifestKey : String) (trace : Calls) (height : Int) (block : Block) : Prop :=
  -- what a block that was loaded rests on
  ∃ m segment records record, Gives host manifestKey trace (.ok m) ∧
    ArchiveBlockSource.segmentForHeight m.segments height = some segment ∧
    GivesRecords host trace segment (.ok records) ∧ recordAt segment records height = some record ∧
    recordToBlock host.comet record = .ok block

theorem loadBlock_calls {fuel : Nat} {height : Int} (opened : Opened host manifestKey) (free : held trace = .nothing) :
    (ArchiveBlockSource.loadBlock host manifestKey fuel height).Ok (ColdMay host manifestKey)
      (fun later err => held later = .nothing ∧ Unloaded host manifestKey later height ∧
        (err = .sentinel .coldBlockNotFound ∨ Broken host manifestKey later height))
      (fun later block => held later = .nothing ∧ Loaded host manifestKey later height block) trace := by
  unfold ArchiveBlockSource.loadBlock
  apply Ok.check
  · intro err low
    have below : height ≤ 0 := by
      by_contra positive
      rw [refuse_eq_ok.mpr positive] at low
      cases low
    rw [refuse, if_pos below] at low
    cases low
    exact ⟨free, .below below, .inl rfl⟩
  · intro _ positive
    apply Ok.bind
    apply Ok.mapErr
    refine (loadManifest_calls opened free).mono ?_ ?_
    · intro later err gives
      exact ⟨gives.1, .manifest gives.2, .inr (.inl ⟨err, gives.2⟩)⟩
    · intro later m gives
      cases found : ArchiveBlockSource.segmentForHeight m.segments height with
      | none =>
        apply Ok.lift
        · intro err failed
          cases failed
          exact ⟨gives.1, .segment gives.2 found, .inl rfl⟩
        · intro block impossible
          cases impossible
      | some segment =>
        have member := (ArchiveBlockSource.segmentForHeight_mem found).1
        apply Ok.bind
        refine (loadSegment_calls gives.1 ⟨m, gives.2, member⟩).grows.mono ?_ ?_
        · rintro further err ⟨⟨still, failed⟩, grows⟩
          have known := gives.2.mono grows
          exact ⟨still, .records known found failed, .inr (.inr ⟨m, segment, known, found, .inl ⟨err, failed⟩⟩)⟩
        · rintro further records ⟨⟨still, loaded⟩, grows⟩
          have known := gives.2.mono grows
          dsimp only
          cases position : recordAt segment records height with
          | none =>
            have none := position
            rw [recordAt] at none
            rw [none]
            apply Ok.lift
            · intro err failed
              cases failed
              exact ⟨still, .record known found loaded (by simp [position]), .inl rfl⟩
            · intro block impossible
              cases impossible
          | some record =>
            have some := position
            rw [recordAt] at some
            rw [some]
            apply Ok.lift
            · intro err failed
              have unread : ∀ block, recordToBlock host.comet record ≠ .ok block := by
                intro block read
                rw [failed] at read
                cases read
              refine ⟨still, .record known found loaded ?_, ?_⟩
              · intro other same
                cases position.symm.trans same
                exact unread
              · exact .inr (.inr ⟨m, segment, known, found, .inr ⟨records, record, loaded, position, unread⟩⟩)
            · intro block read
              exact ⟨still, m, segment, records, record, known, found, loaded, position, read⟩

namespace ArchiveBlockSource

variable {source after : ArchiveBlockSource} {key : Bytes} {flight : Nat}

def fetches (source : ArchiveBlockSource) : Coalesce.Loads Bytes (Except Err (List BlockRecord)) :=
  ⟨source.flights, source.segmentLoads, source.fresh⟩

theorem freshManifest_cached {now : Int} {m : Manifest} (fresh : source.freshManifest now = some m) :
    ∃ loadedAt, source.cachedManifest = some (m, loadedAt) ∧ 0 < source.manifestCacheTTL ∧
      now - loadedAt < source.manifestCacheTTL := by
  unfold freshManifest at fresh
  split at fresh
  next cached loadedAt found =>
    split at fresh
    next young =>
      cases fresh
      exact ⟨loadedAt, found, young⟩
    next => cases fresh
  next => cases fresh

theorem evict_erases {limit size bytes bytes' : Int} {elements kept : List SegmentElement}
    {segments segments' : Bytes → Option SegmentElement}
    (evicted : evict limit size elements bytes segments = some (kept, bytes', segments')) {element : SegmentElement}
    (found : segments' key = some element) : segments key = some element := by
  -- the loop that makes room only ever takes entries out
  induction elements generalizing bytes segments with
  | nil =>
    unfold evict at evicted
    split at evicted
    · cases evicted
    · cases evicted
      exact found
  | cons head rest ih =>
    unfold evict at evicted
    split at evicted
    · have before := ih evicted
      by_cases same : key = head.key
      · rw [same, Function.update_self] at before
        cases before
      · rwa [Function.update_of_ne same] at before
    · cases evicted
      exact found

structure Finished (source : ArchiveBlockSource) (key : Bytes) (flight : Nat) (result : Except Err (List BlockRecord))
    (after : ArchiveBlockSource) : Prop where
  ttl : after.manifestCacheTTL = source.manifestCacheTTL
  cachedManifest : after.cachedManifest = source.cachedManifest
  manifestFlight : after.manifestFlight = source.manifestFlight
  manifestLoads : after.manifestLoads = source.manifestLoads
  flights : after.flights = Function.update source.flights key none
  segmentLoads : after.segmentLoads = Function.update source.segmentLoads flight (some result)
  fetchSlots : after.fetchSlots = source.fetchSlots
  fresh : source.fresh ≤ after.fresh
  segments : ∀ other element, after.segments other = some element →
    source.segments other = some element ∨ other = key ∧ result = .ok element.records

theorem Finished.fetches {result : Except Err (List BlockRecord)} (finished : source.Finished key flight result after) :
    after.fetches = { source.fetches.finish key flight result with fresh := after.fresh } := by
  rw [ArchiveBlockSource.fetches, finished.flights, finished.segmentLoads]
  rfl

theorem finishSegment_spec {result : Except Err (List BlockRecord)}
    (finished : source.finishSegment key flight result = some after) : source.Finished key flight result after := by
  unfold finishSegment at finished
  cases result with
  | error err =>
    cases finished
    exact ⟨rfl, rfl, rfl, rfl, rfl, rfl, rfl, le_rfl, fun _ _ found => .inl found⟩
  | ok records =>
    obtain ⟨kept, keeps, same⟩ := Option.bind_eq_some_iff.mp finished
    cases same
    unfold keepSegment at keeps
    dsimp only at keeps
    split at keeps
    next =>
      obtain ⟨⟨elements, bytes, segments⟩, evicted, same⟩ := Option.bind_eq_some_iff.mp keeps
      cases same
      refine ⟨rfl, rfl, rfl, rfl, rfl, rfl, rfl, Nat.le_succ _, ?_⟩
      intro other element found
      dsimp only at found
      by_cases here : other = key
      · subst here
        rw [Function.update_self] at found
        rw [← Option.some.inj found]
        exact .inr ⟨rfl, rfl⟩
      · rw [Function.update_of_ne here] at found
        exact .inl (evict_erases evicted found)
    next =>
      cases keeps
      exact ⟨rfl, rfl, rfl, rfl, rfl, rfl, rfl, le_rfl, fun _ _ found => .inl found⟩

end ArchiveBlockSource

section Effect

variable {contentOf : String → Bytes}

/-- What a step of a call finds, and what it makes of the source. -/
inductive ColdMove (honest : ObjectStore contentOf → (op : Op) → op.Res → Prop) (patient : Prop) (w : World contentOf) :
    (op : ColdOp) → op.Res → ArchiveBlockSource → Prop
  | store {op : Op} {answer : op.Res} (answered : honest w.store op answer) :
    ColdMove honest patient w (.store op) answer w.source
  | cachedManifest {m : Manifest} (fresh : w.source.freshManifest w.now = some m) :
    ColdMove honest patient w .enterManifest (.cached m) w.source
  | followManifest {flight : Nat} (flying : w.source.manifestFlight = some flight) :
    ColdMove honest patient w .enterManifest (.follow flight) w.source
  | leadManifest (free : w.source.manifestFlight = none) :
    ColdMove honest patient w .enterManifest (.lead w.source.fresh)
      { w.source with manifestFlight := some w.source.fresh, fresh := w.source.fresh + 1 }
  | awaitManifest {flight : Nat} {answer : Except Err Manifest}
    (told : w.source.manifestLoads flight = some answer ∨ ¬ patient ∧ answer = .error (.sentinel .contextCanceled)) :
    ColdMove honest patient w (.awaitManifest flight) answer w.source
  | finishManifest {flight : Nat} {result : Except Err Manifest} {done : Unit} :
    ColdMove honest patient w (.finishManifest flight result) done (w.source.finishManifest flight result w.now)
  | cachedSegment {text : Bytes} {element : SegmentElement} {elements : List SegmentElement}
    (found : w.source.segments text = some element) :
    ColdMove honest patient w (.enterSegment text) (.cached element.records) { w.source with segmentLRU := elements }
  | followSegment {text : Bytes} {flight : Nat} (flying : w.source.flights text = some flight) :
    ColdMove honest patient w (.enterSegment text) (.follow flight) w.source
  | leadSegment {text : Bytes} {slots : Nat} (free : w.source.flights text = none) :
    ColdMove honest patient w (.enterSegment text) (.lead w.source.fresh)
      { w.source with
        flights := Function.update w.source.flights text (some w.source.fresh)
        fetchSlots := slots
        fresh := w.source.fresh + 1 }
  | fullSegment {text : Bytes} : ColdMove honest patient w (.enterSegment text) .full w.source
  | awaitSegment {flight : Nat} {answer : Except Err (List BlockRecord)}
    (told : w.source.segmentLoads flight = some answer ∨ ¬ patient ∧ answer = .error (.sentinel .contextCanceled)) :
    ColdMove honest patient w (.awaitSegment flight) answer w.source
  | acquireSlot {slots : Nat} {done : Unit} :
    ColdMove honest patient w .acquireSlot (.ok done) { w.source with fetchSlots := slots }
  | noSlot {err : Err} (hurried : ¬ patient) : ColdMove honest patient w .acquireSlot (.error err) w.source
  | releaseSlot {slots : Nat} {done : Unit} : ColdMove honest patient w .releaseSlot done { w.source with fetchSlots := slots }
  | finishSegment {text : Bytes} {flight : Nat} {result : Except Err (List BlockRecord)} {done : Unit}
    {source : ArchiveBlockSource} (finished : w.source.Finished text flight result source) :
    ColdMove honest patient w (.finishSegment text flight result) done source

variable {honest : ObjectStore contentOf → (op : Op) → op.Res → Prop} {patient : Prop} {w w' : World contentOf}

theorem ColdEffect.move {op : ColdOp} {answer : op.Res} (taken : ColdEffect honest patient op w answer w') :
    ∃ source, w' = { w with source } ∧ ColdMove honest patient w op answer source := by
  cases op with
  | store op => exact ⟨_, taken.1, .store taken.2⟩
  | enterManifest =>
    obtain ⟨rfl, rfl⟩ := taken
    refine ⟨_, rfl, ?_⟩
    unfold ArchiveBlockSource.enterManifest
    cases fresh : w.source.freshManifest w.now with
    | some m => exact .cachedManifest fresh
    | none =>
      cases flying : w.source.manifestFlight with
      | some flight => exact .followManifest flying
      | none => exact .leadManifest flying
  | awaitManifest flight => exact ⟨_, taken.1, .awaitManifest taken.2⟩
  | finishManifest flight result => exact ⟨_, taken, .finishManifest⟩
  | enterSegment text =>
    obtain ⟨rfl, rfl⟩ := taken
    refine ⟨_, rfl, ?_⟩
    unfold ArchiveBlockSource.enterSegment
    cases found : w.source.segments text with
    | some element => exact .cachedSegment found
    | none =>
      cases flying : w.source.flights text with
      | some flight => exact .followSegment flying
      | none =>
        dsimp only
        split
        · exact .leadSegment flying
        · exact .fullSegment
  | awaitSegment flight => exact ⟨_, taken.1, .awaitSegment taken.2⟩
  | acquireSlot =>
    cases answer with
    | ok => exact ⟨_, taken.2, .acquireSlot⟩
    | error err => exact ⟨_, taken.1, .noSlot taken.2.1⟩
  | releaseSlot => exact ⟨_, taken.2, .releaseSlot⟩
  | finishSegment text flight result =>
    obtain ⟨source, finished, same⟩ := taken
    exact ⟨source, same, .finishSegment (ArchiveBlockSource.finishSegment_spec finished)⟩
  | halt => exact answer.elim

end Effect

section Sample

def serveCold : (op : ColdOp) → World spelledContent → Option (op.Res × World spelledContent)
  | .store op, w => some ((serve Codec.plain sampleSource op w.store).1, w)
  | .enterManifest, w =>
    some ((w.source.enterManifest w.now).1, { w with source := (w.source.enterManifest w.now).2 })
  | .awaitManifest flight, w => (w.source.manifestLoads flight).map fun answer => (answer, w)
  | .finishManifest flight result, w => some ((), { w with source := w.source.finishManifest flight result w.now })
  | .enterSegment text, w => some ((w.source.enterSegment text).1, { w with source := (w.source.enterSegment text).2 })
  | .awaitSegment flight, w => (w.source.segmentLoads flight).map fun answer => (answer, w)
  | .acquireSlot, w =>
    if w.source.fetchSlots < maxFetchSlots then
      some (.ok (), { w with source := { w.source with fetchSlots := w.source.fetchSlots + 1 } })
    else none
  | .releaseSlot, w =>
    if 0 < w.source.fetchSlots then
      some ((), { w with source := { w.source with fetchSlots := w.source.fetchSlots - 1 } })
    else none
  | .finishSegment text flight result, w =>
    (w.source.finishSegment text flight result).map fun source => ((), { w with source })
  | .halt, _ => none

theorem serveCold_effect {patient : Prop} (op : ColdOp) (w : World spelledContent) (given : op.Res)
    (after : World spelledContent) (served : serveCold op w = some (given, after)) :
    ColdEffect (fun s => Faithful s) patient op w given after := by
  cases op with
  | store op =>
    cases served
    refine ⟨rfl, ?_⟩
    cases op with
    | get key => exact rfl
    | getVersioned key => exact rfl
    | stat key => exact rfl
    | existsKey key => exact rfl
    | ctxErr => exact rfl
    | mkdirAll dir => exact rfl
    | atomicWriteFile path data => exact rfl
    | enforceCacheLimit dir maxBytes => exact rfl
    | _ => trivial
  | enterManifest | enterSegment =>
    cases served
    exact ⟨rfl, rfl⟩
  | awaitManifest flight =>
    obtain ⟨answer, found, same⟩ := Option.map_eq_some_iff.mp served
    cases same
    exact ⟨rfl, .inl found⟩
  | finishManifest flight result =>
    cases served
    exact rfl
  | awaitSegment flight =>
    obtain ⟨answer, found, same⟩ := Option.map_eq_some_iff.mp served
    cases same
    exact ⟨rfl, .inl found⟩
  | acquireSlot | releaseSlot =>
    simp only [serveCold] at served
    split at served
    next possible =>
      cases served
      exact ⟨possible, rfl⟩
    next => cases served
  | finishSegment text flight result =>
    obtain ⟨source, finished, same⟩ := Option.map_eq_some_iff.mp served
    cases same
    exact ⟨source, finished, rfl⟩
  | halt => cases served

def shortSource : ArchiveBlockSource :=
  { manifestCacheTTL := defaultColdManifestCacheTTL, cachedManifest := none, manifestFlight := none
    manifestLoads := fun _ => none, segments := fun _ => none, segmentLRU := [], segmentBytes := 0
    segmentCacheLimit := coldSegmentCacheBytes, flights := fun _ => none, segmentLoads := fun _ => none
    fetchSlots := 0, fresh := 0 }

theorem shortSource_created : newArchiveBlockSource shortHost "m" = .ok shortSource ∧
    shortSource.setManifestCacheTTL defaultColdManifestCacheTTL = .ok shortSource := by
  refine ⟨then_eq_ok.mpr ⟨rfl, then_eq_ok.mpr ⟨?_, then_eq_ok.mpr ⟨by decide +kernel, rfl⟩⟩⟩, then_eq_ok.mpr ⟨?_, rfl⟩⟩
  · exact refuse_eq_ok.mpr (by decide)
  · exact refuse_eq_ok.mpr (by decide)

end Sample

end CometArchive.Blocksync
