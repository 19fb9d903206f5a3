import CometArchive.Blocksync.Advertised
import CometArchive.Blocksync.SegmentCache
import CometArchive.Shared.Progress

set_option autoImplicit false

namespace CometArchive.Blocksync

open GoBytes GoError Archive Programs Programs.Fallible Runs Coalesce

section Rules

variable {V : Type} {host : Host V} {manifestKey : String} {trace : Calls}

def Released (trace : Calls) : Prop := held trace = .nothing ∧ slotsTaken trace = 0

/-- A call that waits, or goes on for ever, has no slot and no load of its own. -/
def SlotMay (trace : Calls) : ColdOp → Prop
  | .store (.get _) => slotsTaken trace = 1
  | .finishSegment _ _ _ => slotsTaken trace = 1
  | .releaseSlot => slotsTaken trace = 1 ∧ held trace = .nothing
  | .acquireSlot => Released trace
  | .halt => Released trace
  | _ => slotsTaken trace = 0

theorem Released.rounds (free : Released trace) (text : Bytes) (rounds : Nat) (tail : Calls) :
    held (trace ++ fullRounds text rounds ++ tail) = held tail ∧
      slotsTaken (trace ++ fullRounds text rounds ++ tail) = slotsTaken tail := by
  refine ⟨held_rounds free.1 text rounds tail, ?_⟩
  have none := slotsTaken_rounds text rounds tail
  rw [List.nil_append] at none
  rw [List.append_assoc, slotsTaken, List.foldl_append, ← slotsTaken, free.2]
  exact none

theorem loadManifest_slots (opened : Opened host manifestKey) (free : Released trace) :
    (ArchiveBlockSource.loadManifest host manifestKey).Ok SlotMay (fun later _ => Released later)
      (fun later _ => Released later) trace := by
  obtain ⟨nothing, none⟩ := free
  -- entries that take no slot
  have still (trace : Calls) (entry : Entry ColdOp ColdOp.Res) (free : slotsTaken trace = 0)
      (same : takeSlot 0 entry = 0) : slotsTaken (trace ++ [entry]) = 0 := by
    rw [slotsTaken_snoc, free, same]
  unfold ArchiveBlockSource.loadManifest
  apply Ok.bind
  apply Ok.query ColdOp.enterManifest none
  intro entered
  cases entered with
  | cached m => exact Ok.pure ⟨by rw [held_snoc, nothing]; rfl, still _ _ none rfl⟩
  | follow flight =>
    have after := still trace ⟨.enterManifest, .follow flight⟩ none rfl
    have waits : held (trace ++ [⟨.enterManifest, .follow flight⟩]) = .nothing := by rw [held_snoc, nothing]; rfl
    apply Ok.attempt after
    all_goals
      intros
      exact ⟨by rw [held_snoc, waits]; rfl, still _ _ after rfl⟩
  | lead flight =>
    rw [onStore_loadManifest opened]
    have after := still trace ⟨.enterManifest, .lead flight⟩ none rfl
    have rest : ∀ answer result, Ok SlotMay (fun later _ => Released later) (fun later _ => Released later)
        (do
          let _ ← query (ColdOp.finishManifest flight result)
          lift result)
        (trace ++ [⟨.enterManifest, .lead flight⟩] ++ [⟨.store (.getVersioned manifestKey), answer⟩]) := by
      intro answer result
      have reading := still _ ⟨.store (.getVersioned manifestKey), answer⟩ after rfl
      apply Ok.bind
      apply Ok.query (ColdOp.finishManifest flight result) reading
      intro done
      have released : Released (trace ++ [⟨.enterManifest, .lead flight⟩] ++
          [⟨.store (.getVersioned manifestKey), answer⟩] ++ [⟨.finishManifest flight result, done⟩]) :=
        ⟨held_snoc .., still _ _ reading rfl⟩
      exact Ok.lift (fun _ _ => released) fun _ _ => released
    apply Ok.bind
    apply Ok.outcome
    apply Ok.attempt after
    · intro answer err failed
      exact rest answer (.error err)
    · intro answer m loaded
      exact rest answer (.ok m)
  | full =>
    have released : Released (trace ++ [⟨.enterManifest, .full⟩]) := ⟨by rw [held_snoc, nothing]; rfl, still _ _ none rfl⟩
    exact Ok.lift (fun _ _ => released) fun _ _ => released

theorem loadSegment_slots {segment : SegmentManifest} {fuel : Nat} (free : Released trace) :
    (ArchiveBlockSource.loadSegment host fuel segment).Ok SlotMay (fun later _ => Released later)
      (fun later _ => Released later) trace := by
  unfold ArchiveBlockSource.loadSegment
  apply Ok.check fun _ _ => free
  intro text _
  apply Ok.of_all
  refine Prog.All.mono (Prog.All.weaken (acquireSegment_attempts segment text fuel trace) ?_) ?_
  · rintro _ op ⟨rounds, tail, rfl, attempt⟩
    obtain ⟨holds, slots⟩ := free.rounds text rounds tail
    cases attempt with
    | acquire | halt => exact ⟨holds, slots⟩
    | giveBack | release => exact ⟨slots, holds⟩
    | enter | await | get | finish => exact slots
  · rintro _ result ⟨rounds, tail, rfl, attempted⟩
    have released : Released (trace ++ fullRounds text rounds ++ tail) := by
      obtain ⟨holds, slots⟩ := free.rounds text rounds tail
      unfold Released
      rw [holds, slots]
      cases attempted with
      | cached | followed | noSlot | read => exact ⟨rfl, rfl⟩
    cases result with
    | error err => exact released
    | ok records => exact released

theorem advertisedRange_slots (opened : Opened host manifestKey) (free : Released trace) :
    (ArchiveBlockSource.advertisedRange host manifestKey).Ok SlotMay (fun later _ => Released later)
      (fun later _ => Released later) trace := by
  unfold ArchiveBlockSource.advertisedRange
  apply Ok.recover
  apply Ok.bind
  refine (loadManifest_slots opened free).mono ?_ ?_
  · intro later err released
    split
    · exact Ok.pure released
    · exact Ok.lift (fun _ _ => released) fun _ _ => released
  · intro later m released
    split
    · exact Ok.pure released
    · exact Ok.pure released

theorem loadBlock_slots {fuel : Nat} {height : Int} (opened : Opened host manifestKey) (free : Released trace) :
    (ArchiveBlockSource.loadBlock host manifestKey fuel height).Ok SlotMay (fun later _ => Released later)
      (fun later _ => Released later) trace := by
  unfold ArchiveBlockSource.loadBlock
  apply Ok.check fun _ _ => free
  intro _ _
  apply Ok.bind
  apply Ok.mapErr
  refine (loadManifest_slots opened free).mono (fun _ _ released => released) ?_
  intro later m released
  split
  · exact Ok.lift (fun _ _ => released) fun _ _ => released
  · apply Ok.bind
    refine (loadSegment_slots released).mono (fun _ _ released => released) ?_
    intro further records released
    dsimp only
    split
    · exact Ok.lift (fun _ _ => released) fun _ _ => released
    · exact Ok.lift (fun _ _ => released) fun _ _ => released

def SourceMay (host : Host V) (manifestKey : String) (trace : Calls) (op : ColdOp) : Prop :=
  ColdMay host manifestKey trace op ∧ SlotMay trace op

end Rules

section Loads

def ArchiveBlockSource.manifests (source : ArchiveBlockSource) : Loads Unit (Except Err Manifest) :=
  ⟨fun _ => source.manifestFlight, source.manifestLoads, source.fresh⟩

def Held.manifestLoad : Held → Option (Unit × Nat)
  | .manifest flight _ => some ((), flight)
  | _ => none

def Held.segmentLoad : Held → Option (Bytes × Nat)
  | .segment text flight _ => some (text, flight)
  | _ => none

variable {V : Type} {contentOf : String → Bytes} {host : Host V} {manifestKey : String}
  {honest : ObjectStore contentOf → (op : Op) → op.Res → Prop} {patient : Prop} {w w' : World contentOf} {trace : Calls}
  {op : ColdOp} {answer : op.Res} {source : ArchiveBlockSource}

/-- A step begins a load, ends the one that the call has begun, or leaves all loads alone. -/
theorem ColdMove.turns (move : ColdMove honest patient w op answer source) (allowed : ColdMay host manifestKey trace op) :
    Turn w.source.manifests (held trace).manifestLoad source.manifests (hold (held trace) ⟨op, answer⟩).manifestLoad ∧
      Turn w.source.fetches (held trace).segmentLoad source.fetches (hold (held trace) ⟨op, answer⟩).segmentLoad := by
  cases move with
  | @store op answer answered =>
    cases op with
    | getVersioned key =>
      obtain ⟨-, flight, leads⟩ := allowed
      rw [leads]
      exact ⟨.still le_rfl, .still le_rfl⟩
    | get key =>
      obtain ⟨segment, text, flight, -, -, -, leads⟩ := allowed
      rw [leads]
      exact ⟨.still le_rfl, .still le_rfl⟩
    | _ => exact allowed.elim
  | leadManifest free =>
    have nothing : held trace = .nothing := allowed
    have lead : Turn w.source.manifests none (w.source.manifests.lead ()) (some ((), w.source.fresh)) := .lead free
    rw [nothing]
    exact ⟨lead, .still (Nat.le_succ _)⟩
  | @finishManifest flight result =>
    obtain ⟨answer, leads, -⟩ := allowed
    rw [leads]
    exact ⟨.finish le_rfl, .still le_rfl⟩
  | leadSegment free =>
    rw [allowed.1]
    exact ⟨.still (Nat.le_succ _), .lead free⟩
  | @finishSegment text flight result done source finished =>
    obtain ⟨segment, answer, leads, -⟩ := allowed
    rw [leads, finished.fetches]
    have manifests : source.manifests = { w.source.manifests with fresh := source.fresh } := by
      rw [ArchiveBlockSource.manifests, finished.manifestFlight, finished.manifestLoads]
      rfl
    rw [manifests]
    exact ⟨.still finished.fresh, .finish finished.fresh⟩
  | cachedManifest | followManifest | awaitManifest | cachedSegment | followSegment | fullSegment | awaitSegment |
    acquireSlot | noSlot | releaseSlot => exact ⟨.still le_rfl, .still le_rfl⟩

theorem ColdEffect.slots (taken : ColdEffect honest patient op w answer w') (allowed : SlotMay trace op) :
    w.source.fetchSlots + slotsTaken (trace ++ [⟨op, answer⟩]) = w'.source.fetchSlots + slotsTaken trace := by
  rw [slotsTaken_snoc]
  cases op with
  | store op =>
    obtain ⟨rfl, -⟩ := taken
    rfl
  | enterManifest =>
    obtain ⟨rfl, rfl⟩ := taken
    unfold ArchiveBlockSource.enterManifest
    cases w.source.freshManifest w.now with
    | some m => rfl
    | none =>
      cases w.source.manifestFlight with
      | some flight => rfl
      | none => rfl
  | awaitManifest flight =>
    obtain ⟨rfl, -⟩ := taken
    rfl
  | finishManifest flight result =>
    cases taken
    rfl
  | enterSegment text =>
    obtain ⟨rfl, rfl⟩ := taken
    have none : slotsTaken trace = 0 := allowed
    unfold ArchiveBlockSource.enterSegment
    cases w.source.segments text with
    | some element => rfl
    | none =>
      cases w.source.flights text with
      | some flight => rfl
      | none =>
        dsimp only
        split
        · rw [none]
          rfl
        · rfl
  | awaitSegment flight =>
    obtain ⟨rfl, -⟩ := taken
    rfl
  | acquireSlot =>
    cases answer with
    | ok slot =>
      obtain ⟨-, rfl⟩ := taken
      rw [allowed.2]
      rfl
    | error err =>
      obtain ⟨rfl, -⟩ := taken
      rfl
  | releaseSlot =>
    obtain ⟨some, rfl⟩ := taken
    rw [allowed.1]
    change w.source.fetchSlots + 0 = w.source.fetchSlots - 1 + 1
    omega
  | finishSegment text flight result =>
    obtain ⟨source, finished, rfl⟩ := taken
    rw [(ArchiveBlockSource.finishSegment_spec finished).fetchSlots]
    rfl
  | halt => exact answer.elim

structure Tidy (source : ArchiveBlockSource) : Prop where
  kept : source.Kept
  uncached : ∀ text flight, source.flights text = some flight → source.segments text = none
  manifests : source.manifests.Ordered
  fetches : source.fetches.Ordered

def Joins (source : ArchiveBlockSource) : Entry ColdOp ColdOp.Res → Prop
  | ⟨.enterManifest, .follow flight⟩ => source.manifests.Joined (fun _ _ => True) () flight
  | ⟨.enterSegment text, .follow flight⟩ => source.fetches.Joined (fun _ _ => True) text flight
  | _ => True

/-- What a call relies on: the loads that it has joined, and those that it has begun. -/
structure Minds (source : ArchiveBlockSource) (trace : Calls) : Prop where
  joins : ∀ entry ∈ trace, Joins source entry
  manifest : source.manifests.Owned (held trace).manifestLoad
  segment : source.fetches.Owned (held trace).segmentLoad

def LoadsApart (trace theirs : Calls) : Prop :=
  Separate (held trace).manifestLoad (held theirs).manifestLoad ∧ Separate (held trace).segmentLoad (held theirs).segmentLoad

theorem Joins.prolongs {source after : ArchiveBlockSource} {entry : Entry ColdOp ColdOp.Res} (joins : Joins source entry)
    (manifests : source.manifests.Prolongs (fun _ _ => True) after.manifests)
    (fetches : source.fetches.Prolongs (fun _ _ => True) after.fetches) : Joins after entry := by
  obtain ⟨op, answer⟩ := entry
  cases op with
  | enterManifest =>
    cases answer with
    | follow flight =>
      have joined : source.manifests.Joined (fun _ _ => True) () flight := joins
      exact joined.prolongs manifests fun _ _ => trivial
    | _ => trivial
  | enterSegment text =>
    cases answer with
    | follow flight =>
      have joined : source.fetches.Joined (fun _ _ => True) text flight := joins
      exact joined.prolongs fetches fun _ _ => trivial
    | _ => trivial
  | _ => trivial

theorem ColdMove.joins (move : ColdMove honest patient w op answer source) : Joins source ⟨op, answer⟩ := by
  cases move with
  | followManifest flying => exact .inl flying
  | followSegment flying => exact .inl flying
  | _ => trivial

theorem Tidy.cache (tidy : Tidy w.source) (knows : Minds w.source trace) (allowed : ColdMay host manifestKey trace op)
    (taken : ColdEffect honest patient op w answer w') :
    w'.source.Kept ∧ ∀ text flight, w'.source.flights text = some flight → w'.source.segments text = none := by
  obtain ⟨kept, uncached, -, -⟩ := tidy
  have same {source : ArchiveBlockSource} (segments : source.segments = w.source.segments)
      (elements : source.segmentLRU = w.source.segmentLRU) (bytes : source.segmentBytes = w.source.segmentBytes)
      (fresh : w.source.fresh ≤ source.fresh) : source.Kept := by
    refine ⟨by rw [segments, elements]; exact kept.mapped, by rw [elements]; exact kept.distinct, ?_,
      by rw [bytes, elements]; exact kept.bytes⟩
    intro element member
    rw [elements] at member
    exact (kept.old element member).trans_le fresh
  cases op with
  | store op =>
    obtain ⟨rfl, -⟩ := taken
    exact ⟨kept, uncached⟩
  | enterManifest =>
    obtain ⟨rfl, rfl⟩ := taken
    unfold ArchiveBlockSource.enterManifest
    cases w.source.freshManifest w.now with
    | some m => exact ⟨kept, uncached⟩
    | none =>
      cases w.source.manifestFlight with
      | some flight => exact ⟨kept, uncached⟩
      | none => exact ⟨same rfl rfl rfl (Nat.le_succ _), uncached⟩
  | awaitManifest flight =>
    obtain ⟨rfl, -⟩ := taken
    exact ⟨kept, uncached⟩
  | finishManifest flight result =>
    cases taken
    exact ⟨same rfl rfl rfl le_rfl, uncached⟩
  | enterSegment text =>
    obtain ⟨rfl, rfl⟩ := taken
    unfold ArchiveBlockSource.enterSegment
    cases found : w.source.segments text with
    | some element => exact ⟨kept.moveToFront found, uncached⟩
    | none =>
      cases w.source.flights text with
      | some flight => exact ⟨kept, uncached⟩
      | none =>
        dsimp only
        split
        · refine ⟨same rfl rfl rfl (Nat.le_succ _), ?_⟩
          intro other flight flying
          dsimp only at flying
          by_cases here : other = text
          · rw [here]
            exact found
          · rw [Function.update_of_ne here] at flying
            exact uncached other flight flying
        · exact ⟨kept, uncached⟩
  | awaitSegment flight =>
    obtain ⟨rfl, -⟩ := taken
    exact ⟨kept, uncached⟩
  | acquireSlot =>
    cases answer with
    | ok slot =>
      obtain ⟨-, rfl⟩ := taken
      exact ⟨same rfl rfl rfl le_rfl, uncached⟩
    | error err =>
      obtain ⟨rfl, -⟩ := taken
      exact ⟨kept, uncached⟩
  | releaseSlot =>
    obtain ⟨-, rfl⟩ := taken
    exact ⟨same rfl rfl rfl le_rfl, uncached⟩
  | finishSegment text flight result =>
    obtain ⟨source, finished, rfl⟩ := taken
    obtain ⟨segment, answer, leads, -⟩ := allowed
    have flying := knows.segment text flight (by rw [leads]; rfl)
    obtain ⟨_, again, after, -⟩ := kept.finishSegment (uncached text flight flying) flight result
    cases finished.symm.trans again
    exact ⟨after, (ArchiveBlockSource.finishSegment_spec finished).uncached uncached⟩
  | halt => exact answer.elim

/-- What a step on the source keeps, for the call that takes it and for the others. -/
theorem source_step (tidy : Tidy w.source) (knows : Minds w.source trace) (allowed : ColdMay host manifestKey trace op)
    (taken : ColdEffect honest patient op w answer w') :
    Tidy w'.source ∧ Minds w'.source (trace ++ [⟨op, answer⟩]) ∧
      ∀ theirs, Minds w.source theirs → LoadsApart trace theirs →
        Minds w'.source theirs ∧ LoadsApart (trace ++ [⟨op, answer⟩]) theirs := by
  obtain ⟨kept, uncached⟩ := tidy.cache knows allowed taken
  obtain ⟨source, rfl, move⟩ := taken.move
  obtain ⟨manifests, fetches⟩ := move.turns allowed
  have prolonged (entry : Entry ColdOp ColdOp.Res) (joins : Joins w.source entry) : Joins source entry :=
    joins.prolongs (manifests.prolongs tidy.manifests knows.manifest) (fetches.prolongs tidy.fetches knows.segment)
  refine ⟨⟨kept, uncached, manifests.ordered tidy.manifests knows.manifest, fetches.ordered tidy.fetches knows.segment⟩,
    ⟨?_, ?_, ?_⟩, ?_⟩
  · intro entry member
    rcases List.mem_append.mp member with old | new
    · exact prolonged entry (knows.joins entry old)
    · cases List.mem_singleton.mp new
      exact move.joins
  · rw [held_snoc]
    exact manifests.owned knows.manifest
  · rw [held_snoc]
    exact fetches.owned knows.segment
  · intro theirs known apart
    obtain ⟨manifest, aside⟩ := manifests.others known.manifest apart.1
    obtain ⟨segment, away⟩ := fetches.others known.segment apart.2
    refine ⟨⟨fun entry member => prolonged entry (known.joins entry member), manifest, segment⟩, ?_⟩
    unfold LoadsApart
    rw [held_snoc]
    exact ⟨aside, away⟩

theorem manifest_pays (flight : Nat) (knows : Minds w.source trace) (allowed : SourceMay host manifestKey trace op)
    (taken : ColdEffect honest patient op w answer w') :
    w'.source.manifests.out () flight + mark (held trace).manifestLoad () flight ≤
      w.source.manifests.out () flight + mark (held (trace ++ [⟨op, answer⟩])).manifestLoad () flight := by
  obtain ⟨source, rfl, move⟩ := taken.move
  rw [held_snoc]
  exact (move.turns allowed.1).1.accounts knows.manifest () flight

theorem segment_pays (text : Bytes) (flight : Nat) (knows : Minds w.source trace)
    (allowed : SourceMay host manifestKey trace op) (taken : ColdEffect honest patient op w answer w') :
    w'.source.fetches.out text flight + mark (held trace).segmentLoad text flight ≤
      w.source.fetches.out text flight + mark (held (trace ++ [⟨op, answer⟩])).segmentLoad text flight := by
  obtain ⟨source, rfl, move⟩ := taken.move
  rw [held_snoc]
  exact (move.turns allowed.1).2.accounts knows.segment text flight

/-- A source that no call has used. -/
structure Unused (source : ArchiveBlockSource) : Prop where
  tidy : Tidy source
  manifest : ∀ flight, source.manifests.out () flight = 0
  segment : ∀ text flight, source.fetches.out text flight = 0
  slot : source.fetchSlots = 0

theorem newSource_unused {made : ArchiveBlockSource} {ttl : Int} (created : newArchiveBlockSource host manifestKey = .ok made)
    (tuned : made.setManifestCacheTTL ttl = .ok source) : Unused source := by
  unfold newArchiveBlockSource at created
  rw [then_eq_ok, then_eq_ok, then_eq_ok] at created
  obtain ⟨-, -, -, same⟩ := created
  cases same
  unfold ArchiveBlockSource.setManifestCacheTTL at tuned
  rw [then_eq_ok] at tuned
  cases tuned.2
  refine ⟨⟨⟨?_, .nil, by simp, rfl⟩, by simp, ⟨?_, ?_, fun _ _ => rfl⟩, ⟨?_, ?_, fun _ _ => rfl⟩⟩, fun _ => rfl,
    fun _ _ => rfl, rfl⟩
  · intro key element
    simp
  all_goals
    intros
    contradiction

end Loads

/-- How the processes of a machine use the cold source. -/
structure Client (contentOf : String → Bytes) (Op : Type) (Res : Op → Type) (S : Type) where
  world : S → World contentOf
  cold : (op : Op) → Option ((call : ColdOp) × (Res op → call.Res))

namespace Client

variable {contentOf : String → Bytes} {Op : Type} {Res : Op → Type} {S L α : Type} (client : Client contentOf Op Res S)

def entry (entry : Entry Op Res) : Option (Entry ColdOp ColdOp.Res) :=
  (client.cold entry.1).map fun call => ⟨call.1, call.2 entry.2⟩

def calls (trace : Trace Op Res) : Calls := trace.filterMap client.entry

variable {client} {op : Op} {answer : Res op} {trace : Trace Op Res}

theorem calls_cold {call : (call : ColdOp) × (Res op → call.Res)} (is : client.cold op = some call) :
    client.calls (trace ++ [⟨op, answer⟩]) = client.calls trace ++ [⟨call.1, call.2 answer⟩] := by
  rw [calls, List.filterMap_append]
  simp [calls, entry, is]

theorem calls_other (is : client.cold op = none) : client.calls (trace ++ [⟨op, answer⟩]) = client.calls trace := by
  rw [calls, List.filterMap_append]
  simp [calls, entry, is]

variable (client)

structure Uses (effect : (op : Op) → S → Res op → S → Prop) (env : S → L → S → Prop)
    (honest : ObjectStore contentOf → (op : Archive.Op) → op.Res → Prop) (patient : Prop) : Prop where
  cold : ∀ op call s answer s', client.cold op = some call → effect op s answer s' →
    ColdEffect honest patient call.1 (client.world s) (call.2 answer) (client.world s')
  other : ∀ op s answer s', client.cold op = none → effect op s answer s' →
    (client.world s').source = (client.world s).source
  moves : ∀ s label s', env s label s' → (client.world s').source = (client.world s).source

/-- Only calls on the source have to wait. -/
structure Willing (effect : (op : Op) → S → Res op → S → Prop)
    (honest : ObjectStore contentOf → (op : Archive.Op) → op.Res → Prop) : Prop where
  cold : ∀ op call s answer w, client.cold op = some call → ColdEffect honest True call.1 (client.world s) answer w →
    ∃ given s', effect op s given s'
  other : ∀ op s, client.cold op = none → ∃ answer s', effect op s answer s'

variable {V : Type} (host : Host V) (manifestKey : String)

-- a process that has begun something on the source does nothing else before it has ended it
structure May (trace : Trace Op Res) (op : Op) : Prop where
  cold : ∀ call, client.cold op = some call → SourceMay host manifestKey (client.calls trace) call.1
  other : client.cold op = none → Released (client.calls trace)

-- calls keep their rules, and every load and every slot is some call's own
structure Settled (m : Machine S Op Res α) : Prop where
  informed : m.Informed (fun s => Tidy (client.world s).source)
    (fun _ s trace => Minds (client.world s).source (client.calls trace))
    (fun trace theirs => LoadsApart (client.calls trace) (client.calls theirs)) (client.May host manifestKey)
    fun later _ => Released (client.calls later)
  rationed : m.Rationed (fun trace => slotsTaken (client.calls trace)) fun s => (client.world s).source.fetchSlots
  slots : m.Accounted (fun trace => slotsTaken (client.calls trace)) fun s => (client.world s).source.fetchSlots
  manifests : ∀ flight, m.Accounted (fun trace => mark (held (client.calls trace)).manifestLoad () flight)
    fun s => (client.world s).source.manifests.out () flight
  segments : ∀ text flight, m.Accounted (fun trace => mark (held (client.calls trace)).segmentLoad text flight)
    fun s => (client.world s).source.fetches.out text flight

variable {client} {host} {manifestKey} {effect : (op : Op) → S → Res op → S → Prop} {env : S → L → S → Prop}
  {honest : ObjectStore contentOf → (op : Archive.Op) → op.Res → Prop} {patient : Prop}

theorem informs (host : Host V) (manifestKey : String) (uses : client.Uses effect env honest patient) :
    Informs effect env (fun s => Tidy (client.world s).source)
      (fun _ s trace => Minds (client.world s).source (client.calls trace))
      (fun trace theirs => LoadsApart (client.calls trace) (client.calls theirs)) (client.May host manifestKey) where
  symm trace theirs apart := ⟨apart.1.symm, apart.2.symm⟩
  start id s tidy := by
    refine ⟨⟨by simp [calls], ?_, ?_⟩, fun theirs => ⟨?_, ?_⟩⟩
    all_goals rintro _ _
    · rintro ⟨⟩
    · rintro ⟨⟩
    · rintro _ ⟨⟩
    · rintro _ ⟨⟩
  call id trace op s answer s' tidy knows allowed taken := by
    cases is : client.cold op with
    | none =>
      rw [calls_other is, uses.other op s answer s' is taken]
      exact ⟨tidy, knows⟩
    | some call =>
      rw [calls_cold is]
      obtain ⟨tidy, knows, -⟩ := source_step tidy knows (allowed.cold call is).1 (uses.cold op call s answer s' is taken)
      exact ⟨tidy, knows⟩
  others id trace op s answer s' other theirs tidy knows allowed taken differ known apart := by
    cases is : client.cold op with
    | none =>
      rw [calls_other is, uses.other op s answer s' is taken]
      exact ⟨known, apart⟩
    | some call =>
      rw [calls_cold is]
      exact (source_step tidy knows (allowed.cold call is).1 (uses.cold op call s answer s' is taken)).2.2 _ known apart
  moves s label s' tidy moved := by
    rw [uses.moves s label s' moved]
    exact ⟨tidy, fun _ _ knows => knows⟩

theorem accounts (taken : Calls → Nat) (given : ArchiveBlockSource → Nat) (uses : client.Uses effect env honest patient)
    (pays : ∀ {op : ColdOp} {answer : op.Res} {w w' : World contentOf} {trace : Calls}, Minds w.source trace →
      SourceMay host manifestKey trace op → ColdEffect honest patient op w answer w' →
      given w'.source + taken trace ≤ given w.source + taken (trace ++ [⟨op, answer⟩])) :
    Accounts effect env (fun s => Tidy (client.world s).source)
      (fun _ s trace => Minds (client.world s).source (client.calls trace)) (client.May host manifestKey)
      (fun trace => taken (client.calls trace)) (fun s => given (client.world s).source) where
  call id trace op s answer s' tidy knows allowed stepped := by
    cases is : client.cold op with
    | none => rw [calls_other is, uses.other op s answer s' is stepped]
    | some call =>
      rw [calls_cold is]
      exact pays knows (allowed.cold call is) (uses.cold op call s answer s' is stepped)
  moves s label s' moved := by rw [uses.moves s label s' moved]

theorem rations (uses : client.Uses effect env honest patient) :
    Rations effect env (fun s => Tidy (client.world s).source)
      (fun _ s trace => Minds (client.world s).source (client.calls trace)) (client.May host manifestKey)
      (fun trace => slotsTaken (client.calls trace)) (fun s => (client.world s).source.fetchSlots) where
  start := rfl
  call id trace op s answer s' tidy knows allowed stepped := by
    cases is : client.cold op with
    | none => rw [calls_other is, uses.other op s answer s' is stepped]
    | some call =>
      rw [calls_cold is]
      exact ((uses.cold op call s answer s' is stepped).slots (allowed.cold call is).2).le
  moves s label s' moved := by rw [uses.moves s label s' moved]

theorem informed {start : S} {events : List (Event Op Res α L)} {m : Machine S Op Res α}
    (uses : client.Uses effect env honest patient) (tidy : Tidy (client.world start).source)
    (run : Run (Step effect env) (Machine.idle start) events m)
    (follows : ∀ id p, .spawn id p ∈ events →
      p.All (client.May host manifestKey) (fun later _ => Released (client.calls later)) []) :
    m.Informed (fun s => Tidy (client.world s).source)
      (fun _ s trace => Minds (client.world s).source (client.calls trace))
      (fun trace theirs => LoadsApart (client.calls trace) (client.calls theirs)) (client.May host manifestKey)
      (fun later _ => Released (client.calls later)) :=
  Run.informed (informs host manifestKey uses) run follows ⟨tidy, by simp [Machine.idle], by simp [Machine.idle]⟩

theorem settled {start : S} {events : List (Event Op Res α L)} {m : Machine S Op Res α}
    (uses : client.Uses effect env honest patient) (unused : Unused (client.world start).source)
    (run : Run (Step effect env) (Machine.idle start) events m)
    (follows : ∀ id p, .spawn id p ∈ events →
      p.All (client.May host manifestKey) (fun later _ => Released (client.calls later)) [])
    (spared : ∀ id, .kill id ∉ events) : client.Settled host manifestKey m := by
  have informs := informs host manifestKey uses
  have idle : (Machine.idle start).Informed (fun s => Tidy (client.world s).source)
      (fun _ s trace => Minds (client.world s).source (client.calls trace))
      (fun trace theirs => LoadsApart (client.calls trace) (client.calls theirs)) (client.May host manifestKey)
      (fun later (_ : α) => Released (client.calls later)) := ⟨unused.tidy, by simp [Machine.idle], by simp [Machine.idle]⟩
  refine ⟨informed uses unused.tidy run follows, Run.rationed (rations uses) informs run follows idle ?_, ?_,
    fun flight => ?_, fun text flight => ?_⟩
  · simp [Machine.Rationed, Machine.tokens, Machine.idle]
  · exact Run.accounted (accounts slotsTaken (·.fetchSlots) uses fun _ allowed taken => (taken.slots allowed.2).ge) informs
      run follows spared idle ⟨∅, unused.slot.le⟩
  · exact Run.accounted (accounts (fun trace => mark (held trace).manifestLoad () flight) (·.manifests.out () flight) uses
      (manifest_pays flight)) informs run follows spared idle ⟨∅, (unused.manifest flight).le⟩
  · exact Run.accounted (accounts (fun trace => mark (held trace).segmentLoad text flight) (·.fetches.out text flight) uses
      (segment_pays text flight)) informs run follows spared idle ⟨∅, (unused.segment text flight).le⟩

end Client

section Progress

variable {contentOf : String → Bytes} {Op : Type} {Res : Op → Type} {S L α : Type} {client : Client contentOf Op Res S}
  {V : Type} {host : Host V} {manifestKey : String} (effect : (op : Op) → S → Res op → S → Prop) (env : S → L → S → Prop)
  {honest : ObjectStore contentOf → (op : Archive.Op) → op.Res → Prop}

def CanRun (m : Machine S Op Res α) (id : Nat) : Prop := ∃ m', Step effect env m (.run id) m'

/-- These calls have begun what `call` waits for. -/
def AwaitedBy (theirs : Calls) : ColdOp → Prop
  | .awaitManifest flight => ∃ answer, held theirs = .manifest flight answer
  | .awaitSegment flight => ∃ text answer, held theirs = .segment text flight answer
  | .acquireSlot => 0 < slotsTaken theirs
  | _ => False

def ColdOp.Waits : ColdOp → Prop
  | .awaitManifest _ | .awaitSegment _ | .acquireSlot | .halt => True
  | _ => False

theorem SourceMay.released {trace : Calls} {call : ColdOp} (may : SourceMay host manifestKey trace call)
    (waits : call.Waits) : Released trace := by
  obtain ⟨cold, slots⟩ := may
  cases call with
  | awaitManifest flight => exact ⟨cold.2, slots⟩
  | awaitSegment flight => exact ⟨cold.1, slots⟩
  | acquireSlot => exact slots
  | halt => exact slots
  | _ => exact waits.elim

/-- A call that has read a manifest hands it over next. -/
theorem SourceMay.finishes {trace : Calls} {call : ColdOp} {flight : Nat} {answer : Except Err (Bytes × String)}
    (may : SourceMay host manifestKey trace call) (read : held trace = .manifest flight (some answer)) :
    call = .finishManifest flight (readManifest host manifestKey answer) := by
  obtain ⟨cold, slots⟩ := may
  have busy (nothing : held trace = .nothing) : False := by
    rw [read] at nothing
    cases nothing
  cases call with
  | store op =>
    cases op with
    | getVersioned key =>
      obtain ⟨-, other, unread⟩ := cold
      cases read.symm.trans unread
    | get key =>
      obtain ⟨segment, text, other, -, -, -, fetching⟩ := cold
      cases read.symm.trans fetching
    | _ => exact cold.elim
  | finishManifest other result =>
    obtain ⟨given, here, -, rfl⟩ := cold
    cases read.symm.trans here
    rfl
  | finishSegment text other result =>
    obtain ⟨segment, given, here, -⟩ := cold
    cases read.symm.trans here
  | enterManifest => exact (busy cold).elim
  | awaitManifest other => exact (busy cold.2).elim
  | enterSegment text => exact (busy cold.1).elim
  | awaitSegment other => exact (busy cold.1).elim
  | acquireSlot => exact (busy slots.1).elim
  | releaseSlot => exact (busy slots.2).elim
  | halt => exact (busy slots.1).elim

theorem Held.manifestLoad_eq_some {held : Held} {flight : Nat} (load : held.manifestLoad = some ((), flight)) :
    ∃ answer, held = .manifest flight answer := by
  cases held with
  | manifest number answer =>
    cases load
    exact ⟨answer, rfl⟩
  | _ => cases load

theorem Held.segmentLoad_eq_some {held : Held} {text : Bytes} {flight : Nat} (load : held.segmentLoad = some (text, flight)) :
    ∃ answer, held = .segment text flight answer := by
  cases held with
  | segment other number answer =>
    cases load
    exact ⟨answer, rfl⟩
  | _ => cases load

variable {effect} {env} {m : Machine S Op Res α} {id : Nat} {op : Op} {next : Res op → Prog Op Res α} {trace : Trace Op Res}

theorem CanRun.of_cold {call : (call : ColdOp) × (Res op → call.Res)} {w : World contentOf}
    (willing : client.Willing effect honest) (present : m.procs id = some ⟨.call op next, trace⟩)
    (is : client.cold op = some call) (answer : call.1.Res)
    (taken : ColdEffect honest True call.1 (client.world m.shared) answer w) : CanRun effect env m id := by
  obtain ⟨given, s', stepped⟩ := willing.cold op call m.shared answer w is taken
  exact ⟨_, .run present stepped⟩

namespace Client.Settled

theorem goes (settled : client.Settled host manifestKey m) (willing : client.Willing effect honest)
    (served : ∀ s op, ∃ answer, honest s op answer) (present : m.procs id = some ⟨.call op next, trace⟩)
    (going : ∀ call, client.cold op = some call → ¬ call.1.Waits) : CanRun effect env m id := by
  obtain ⟨⟨allowed, -⟩, knows⟩ := settled.informed.procs id _ present
  cases is : client.cold op with
  | none =>
    obtain ⟨answer, s', stepped⟩ := willing.other op m.shared is
    exact ⟨_, .run present stepped⟩
  | some call =>
    obtain ⟨cold, slots⟩ := allowed.cold call is
    obtain ⟨call, back⟩ := call
    cases call with
    | store op =>
      obtain ⟨answer, answered⟩ := served (client.world m.shared).store op
      exact .of_cold willing present is answer ⟨rfl, answered⟩
    | enterManifest => exact .of_cold willing present is _ ⟨rfl, rfl⟩
    | finishManifest flight result => exact .of_cold willing present is () rfl
    | enterSegment text => exact .of_cold willing present is _ ⟨rfl, rfl⟩
    | finishSegment text flight result =>
      obtain ⟨segment, answer, leads, -⟩ := cold
      have flying := knows.segment text flight (by rw [leads]; rfl)
      have tidy := settled.informed.inv
      obtain ⟨after, finished, -⟩ := tidy.kept.finishSegment (tidy.uncached text flight flying) flight result
      exact .of_cold willing present is () ⟨after, finished, rfl⟩
    | releaseSlot =>
      -- its own slot is among those that are taken
      have given := settled.rationed {id}
      rw [Finset.sum_singleton] at given
      simp only [Machine.tokens, present, Option.elim_some, slots.1] at given
      exact .of_cold willing present is () ⟨given, rfl⟩
    | awaitManifest | awaitSegment | acquireSlot | halt => exact absurd trivial (going _ is)

/-- A process that has a slot, or a load of its own, waits for nobody. -/
theorem busy {proc : Proc Op Res α} (settled : client.Settled host manifestKey m) (willing : client.Willing effect honest)
    (served : ∀ s op, ∃ answer, honest s op answer) (present : m.procs id = some proc)
    (busy : ¬ Released (client.calls proc.trace)) : CanRun effect env m id := by
  obtain ⟨all, -⟩ := settled.informed.procs id proc present
  obtain ⟨rest, trace⟩ := proc
  cases rest with
  | ret value => exact absurd all busy
  | call op next => exact settled.goes willing served present fun call is waits => busy ((all.1.cold call is).released waits)

theorem progress (settled : client.Settled host manifestKey m) (willing : client.Willing effect honest)
    (served : ∀ s op, ∃ answer, honest s op answer) (present : m.procs id = some ⟨.call op next, trace⟩)
    (unhalted : ∀ back, client.cold op ≠ some ⟨.halt, back⟩) :
    CanRun effect env m id ∨ ∃ call other proc, client.cold op = some call ∧ m.procs other = some proc ∧
      AwaitedBy (client.calls proc.trace) call.1 ∧ CanRun effect env m other := by
  obtain ⟨⟨allowed, -⟩, knows⟩ := settled.informed.procs id _ present
  cases is : client.cold op with
  | none => exact .inl (settled.goes willing served present fun call cold => by rw [is] at cold; cases cold)
  | some call =>
    obtain ⟨cold, -⟩ := allowed.cold call is
    obtain ⟨call, back⟩ := call
    have goes (going : ¬ call.Waits) : CanRun effect env m id :=
      settled.goes willing served present fun other same => by
        cases is.symm.trans same
        exact going
    cases call with
    | awaitManifest flight =>
      rcases knows.joins _ cold.1 with flying | ⟨result, ended, -⟩
      · obtain ⟨other, proc, found, marked⟩ := (settled.manifests flight).holder (Loads.out_pos flying)
        obtain ⟨answer, holds⟩ := Held.manifestLoad_eq_some (of_mark_pos marked)
        refine .inr ⟨_, other, proc, rfl, found, ⟨answer, holds⟩, settled.busy willing served found ?_⟩
        rintro ⟨nothing, -⟩
        cases holds.symm.trans nothing
      · exact .inl (.of_cold willing present is result ⟨rfl, .inl ended⟩)
    | awaitSegment flight =>
      obtain ⟨-, text, joined⟩ := cold
      rcases knows.joins _ joined with flying | ⟨result, ended, -⟩
      · obtain ⟨other, proc, found, marked⟩ := (settled.segments text flight).holder (Loads.out_pos flying)
        obtain ⟨answer, holds⟩ := Held.segmentLoad_eq_some (of_mark_pos marked)
        refine .inr ⟨_, other, proc, rfl, found, ⟨text, answer, holds⟩, settled.busy willing served found ?_⟩
        rintro ⟨nothing, -⟩
        cases holds.symm.trans nothing
      · exact .inl (.of_cold willing present is result ⟨rfl, .inl ended⟩)
    | acquireSlot =>
      by_cases free : (client.world m.shared).source.fetchSlots < maxFetchSlots
      · exact .inl (.of_cold willing present is (.ok ()) ⟨free, rfl⟩)
      · obtain ⟨other, proc, found, has⟩ := settled.slots.holder (by unfold maxFetchSlots at free; omega)
        refine .inr ⟨_, other, proc, rfl, found, has, settled.busy willing served found ?_⟩
        rintro ⟨-, none⟩
        exact absurd none has.ne'
    | halt => exact absurd is (unhalted back)
    | store | enterManifest | finishManifest | enterSegment | finishSegment | releaseSlot =>
      exact .inl (goes fun waits => waits)

end Client.Settled

end Progress

end CometArchive.Blocksync
