import CometArchive.Blocksync.ColdProgress
import CometArchive.Blocksync.Requests

set_option autoImplicit false

namespace CometArchive.Blocksync

open GoBytes GoError Archive Programs Programs.Fallible Runs

structure ContextOp where
  ctx : Nat
  op : ColdOp

abbrev ContextOp.Res (op : ContextOp) : Type := op.op.Res

abbrev ContextCalls := Trace ContextOp ContextOp.Res

structure Callers (contentOf : String → Bytes) where
  world : World contentOf
  cancelled : List Nat

def Interrupted : (op : Op) → op.Res → Prop
  -- the answer of a read that was given up
  | .get _, answer => answer = .error (.sentinel .contextCanceled)
  | .getVersioned _, answer => answer = .error (.sentinel .contextCanceled)
  | _, _ => False

section Contexts

variable {contentOf : String → Bytes}

def OnContext (reads : Prop → ObjectStore contentOf → (op : Op) → op.Res → Prop) (op : ContextOp)
    (c : Callers contentOf) (answer : op.Res) (c' : Callers contentOf) : Prop :=
  c'.cancelled = c.cancelled ∧
    ColdEffect (reads (op.ctx ∈ c.cancelled)) (op.ctx ∉ c.cancelled) op.op c.world answer c'.world

/-- Reads succeed unless the context they are given is cancelled. -/
def ContextEffect : (op : ContextOp) → Callers contentOf → op.Res → Callers contentOf → Prop :=
  OnContext fun cancelled s op answer => Faithful s op answer ∨ cancelled ∧ Interrupted op answer

inductive CallerEvent where
  | cancel (ctx : Nat)
  | wait (time : Int)

def Interrupts (c : Callers contentOf) : CallerEvent → Callers contentOf → Prop
  | .cancel ctx, c' => c' = { c with cancelled := ctx :: c.cancelled }
  | .wait time, c' => c' = { c with world := { c.world with now := c.world.now + time } }

def bareEntry (entry : Entry ContextOp ContextOp.Res) : Entry ColdOp ColdOp.Res := ⟨entry.1.op, entry.2⟩

def bare (trace : ContextCalls) : Calls := trace.map bareEntry

theorem bare_snoc (trace : ContextCalls) (entry : Entry ContextOp ContextOp.Res) :
    bare (trace ++ [entry]) = bare trace ++ [bareEntry entry] := by
  simp [bare]

/-- The load that a call has begun. -/
def Held.load : Held → Option Nat
  | .nothing => none
  | .manifest flight _ => some flight
  | .segment _ flight _ => some flight

def ColdOp.awaits : ColdOp → Option Nat
  | .awaitManifest flight => some flight
  | .awaitSegment flight => some flight
  | _ => none

/-- The loads of other calls that a call has waited for. -/
def awaited (trace : Calls) : List Nat := trace.filterMap fun entry => entry.1.awaits

/-- No call that is about to read for one of these loads has a context that is cancelled. -/
def Live {α : Type} (shared : Nat → Prop) (m : Machine (Callers contentOf) ContextOp ContextOp.Res α) : Prop :=
  ∀ id ctx op next trace flight, m.procs id = some ⟨.call ⟨ctx, .store op⟩ next, trace⟩ →
    (held (bare trace)).load = some flight → shared flight → ctx ∉ m.shared.cancelled

/-- A read under a cancelled context is for none of these loads. -/
def Spares (shared : Nat → Prop) (trace : ContextCalls) (op : ContextOp) (c : Callers contentOf) (answer : op.Res)
    (c' : Callers contentOf) : Prop :=
  ContextEffect op c answer c' ∧ ∀ read, op.op = .store read → op.ctx ∈ c.cancelled →
    ∀ flight, (held (bare trace)).load = some flight → ¬ shared flight

theorem Live.spares {α : Type} {shared : Nat → Prop} {m : Machine (Callers contentOf) ContextOp ContextOp.Res α}
    (live : Live shared m) {id : Nat} {op : ContextOp} {next : op.Res → Prog ContextOp ContextOp.Res α}
    {trace : ContextCalls} {answer : op.Res} {c' : Callers contentOf}
    (present : m.procs id = some ⟨.call op next, trace⟩) (taken : ContextEffect op m.shared answer c') :
    Spares shared trace op m.shared answer c' := by
  refine ⟨taken, ?_⟩
  intro read is cancelled flight leads mine
  obtain ⟨ctx, op⟩ := op
  cases is
  exact live id ctx read next trace flight present leads mine cancelled

variable {V : Type} (host : Host V) (manifestKey : String)

def blockCall (ctx fuel : Nat) (height : Int) : Prog ContextOp ContextOp.Res (Nat × Int × Except Err Block) :=
  (ArchiveBlockSource.loadBlock host manifestKey fuel height).run.embed (fun op => ⟨ctx, op⟩) (fun _ answer => answer) >>=
    fun result => .ret (ctx, height, result)

def ContextMay (trace : ContextCalls) (op : ContextOp) : Prop :=
  (∀ entry ∈ trace, entry.1.ctx = op.ctx) ∧ ColdMay host manifestKey (bare trace) op.op

def ContextPost (trace : ContextCalls) : Nat × Int × Except Err Block → Prop
  | (ctx, height, result) => (∀ entry ∈ trace, entry.1.ctx = ctx) ∧ match result with
    | .error err => Unloaded host manifestKey (bare trace) height ∧
        (err = .sentinel .coldBlockNotFound ∨ Broken host manifestKey (bare trace) height)
    | .ok block => Loaded host manifestKey (bare trace) height block

variable {host} {manifestKey}

theorem blockCall_follows (opened : Opened host manifestKey) (ctx fuel : Nat) (height : Int) :
    (blockCall host manifestKey ctx fuel height).All (ContextMay host manifestKey) (ContextPost host manifestKey) [] := by
  have calls : (ArchiveBlockSource.loadBlock host manifestKey fuel height).Ok (ColdMay host manifestKey) _ _ (bare []) :=
    loadBlock_calls opened rfl
  have embedded : ((ArchiveBlockSource.loadBlock host manifestKey fuel height).run.embed
      (fun op => (⟨ctx, op⟩ : ContextOp)) (fun _ answer => answer)).All
      (fun trace op => op.ctx = ctx ∧ ColdMay host manifestKey (bare trace) op.op) _ [] :=
    Prog.All.embed _ _ bare (fun trace op answer => bare_snoc trace ⟨⟨ctx, op⟩, answer⟩) (fun _ _ may => ⟨rfl, may⟩)
      calls.all
  -- all calls have the one context
  have kept := embedded.keeping (fun trace => ∀ entry ∈ trace, entry.1.ctx = ctx) (by simp) (by
    intro trace op answer kept may entry member
    rcases List.mem_append.mp member with old | new
    · exact kept entry old
    · cases List.mem_singleton.mp new
      exact may.1)
  apply Prog.All.bind
  refine (kept.weaken ?_).mono ?_
  · rintro trace op ⟨⟨same, may⟩, contexts⟩
    exact ⟨fun entry member => (contexts entry member).trans same.symm, may⟩
  · rintro trace result ⟨holds, contexts⟩
    cases result with
    | error err => exact ⟨contexts, holds.2⟩
    | ok block => exact ⟨contexts, holds.2⟩

/-- What comes of a load: what is right, or an error if its read may be given up. -/
def Yields {α : Type} (shared : Nat → Prop) (right : Except Err α → Prop) (flight : Nat) (result : Except Err α) : Prop :=
  right result ∨ ¬ shared flight ∧ ∃ err, result = .error err

theorem Yields.of_ok {α : Type} {shared : Nat → Prop} {right : Except Err α → Prop} {flight : Nat} {value : α}
    (yields : Yields shared right flight (.ok value)) : right (.ok value) := by
  rcases yields with right | ⟨-, err, impossible⟩
  · exact right
  · cases impossible

section Awareness

variable (host) (manifestKey) (shared : Nat → Prop) (s : ObjectStore contentOf) (manifest : Manifest)

structure Calm (c : Callers contentOf) : Prop where
  -- what is cached is what the archive holds
  store : c.world.store = s
  tidy : Tidy c.world.source
  cached : ∀ m loadedAt, c.world.source.cachedManifest = some (m, loadedAt) → m = manifest
  segments : ∀ text element, c.world.source.segments text = some element →
    Right host manifestKey s text (.ok element.records)

def ManifestJoined (source : ArchiveBlockSource) (flight : Nat) : Prop :=
  source.manifests.Joined (fun _ => Yields shared (· = .ok manifest) flight) () flight

def SegmentJoined (source : ArchiveBlockSource) (text : Bytes) (flight : Nat) : Prop :=
  source.fetches.Joined (fun text => Yields shared (Right host manifestKey s text) flight) text flight

def Learns (c : Callers contentOf) : Entry ContextOp ContextOp.Res → Prop
  | ⟨⟨_, .enterManifest⟩, .cached m⟩ => m = manifest
  | ⟨⟨_, .enterManifest⟩, .follow flight⟩ => ManifestJoined shared manifest c.world.source flight
  | ⟨⟨_, .enterManifest⟩, .full⟩ => False
  | ⟨⟨ctx, .awaitManifest flight⟩, answer⟩ => Yields shared (· = .ok manifest) flight answer ∨
      ctx ∈ c.cancelled ∧ ∃ err, answer = .error err
  | ⟨⟨ctx, .store (.getVersioned _)⟩, answer⟩ => readManifest host manifestKey answer = .ok manifest ∨
      ctx ∈ c.cancelled ∧ ∃ err, answer = .error err
  | ⟨⟨_, .enterSegment text⟩, .cached records⟩ => Right host manifestKey s text (.ok records)
  | ⟨⟨_, .enterSegment text⟩, .follow flight⟩ => SegmentJoined host manifestKey shared s c.world.source text flight
  | ⟨⟨ctx, .awaitSegment flight⟩, answer⟩ => c.world.source.segmentLoads flight = some answer ∨ ctx ∈ c.cancelled
  | ⟨⟨ctx, .store (.get key)⟩, answer⟩ => (∃ segment records, Published host manifestKey s segment ∧ segment.key = key ∧
      readRecords host segment answer = .ok records ∧ DecodesTo host s segment records) ∨ ctx ∈ c.cancelled
  | ⟨⟨ctx, .acquireSlot⟩, .error _⟩ => ctx ∈ c.cancelled
  | _ => True

structure Aware (c : Callers contentOf) (trace : ContextCalls) : Prop where
  learns : ∀ entry ∈ trace, Learns host manifestKey shared s manifest c entry
  minds : Minds c.world.source (bare trace)
  -- what the call has read for a load that it has not ended
  manifest : ∀ flight answer, held (bare trace) = .manifest flight (some answer) →
    Yields shared (· = .ok manifest) flight (readManifest host manifestKey answer)
  segment : ∀ text flight answer, held (bare trace) = .segment text flight (some answer) →
    ∀ segment, Published host manifestKey s segment → host.json.marshalSegment segment = .ok text →
      Yields shared (Right host manifestKey s text) flight (readRecords host segment answer)

/-- Loads that were joined come to what is right, and more contexts are cancelled. -/
structure Prolonged (c c' : Callers contentOf) : Prop where
  manifests : ∀ flight, ManifestJoined shared manifest c.world.source flight →
    ManifestJoined shared manifest c'.world.source flight
  fetches : ∀ text flight, SegmentJoined host manifestKey shared s c.world.source text flight →
    SegmentJoined host manifestKey shared s c'.world.source text flight
  done : ∀ flight result, c.world.source.segmentLoads flight = some result → c'.world.source.segmentLoads flight = some result
  cancelled : c.cancelled ⊆ c'.cancelled

end Awareness

variable {shared : Nat → Prop} {s : ObjectStore contentOf} {manifest : Manifest} {c c' : Callers contentOf}
  {trace : ContextCalls}

theorem Learns.prolonged {entry : Entry ContextOp ContextOp.Res}
    (learns : Learns host manifestKey shared s manifest c entry)
    (prolonged : Prolonged host manifestKey shared s manifest c c') : Learns host manifestKey shared s manifest c' entry := by
  have more {ctx : Nat} {p q : Prop} (known : p ∨ ctx ∈ c.cancelled ∧ q) : p ∨ ctx ∈ c'.cancelled ∧ q :=
    known.imp id fun early => ⟨prolonged.cancelled early.1, early.2⟩
  obtain ⟨⟨ctx, op⟩, answer⟩ := entry
  cases op with
  | enterManifest =>
    cases answer with
    | follow flight => exact prolonged.manifests flight learns
    | _ => exact learns
  | awaitManifest flight => exact more learns
  | enterSegment text =>
    cases answer with
    | follow flight => exact prolonged.fetches text flight learns
    | _ => exact learns
  | awaitSegment flight => exact learns.imp (prolonged.done flight answer) fun early => prolonged.cancelled early
  | acquireSlot =>
    cases answer with
    | error err => exact prolonged.cancelled learns
    | ok slot => trivial
  | store op =>
    cases op with
    | getVersioned key => exact more learns
    | get key => exact learns.imp id fun early => prolonged.cancelled early
    | _ => trivial
  | _ => trivial

theorem mem_bare {op : ColdOp} {answer : op.Res} (member : ⟨op, answer⟩ ∈ bare trace) :
    ∃ ctx, ⟨⟨ctx, op⟩, answer⟩ ∈ trace := by
  obtain ⟨⟨⟨ctx, op⟩, given⟩, there, same⟩ := List.mem_map.mp member
  cases same
  exact ⟨ctx, there⟩

theorem mem_awaited {entry : Entry ColdOp ColdOp.Res} {trace : Calls} {flight : Nat} (member : entry ∈ trace)
    (awaits : entry.1.awaits = some flight) : flight ∈ awaited trace :=
  List.mem_filterMap.mpr ⟨entry, member, awaits⟩

theorem Aware.gives {result : Except Err Manifest} (aware : Aware host manifestKey shared s manifest c trace)
    (gives : Gives host manifestKey (bare trace) result) :
    result = .ok manifest ∨ (∃ err, result = .error err) ∧
      ((∃ entry ∈ trace, entry.1.ctx ∈ c.cancelled) ∨ ∃ flight ∈ awaited (bare trace), ¬ shared flight) := by
  cases gives with
  | cached entry =>
    obtain ⟨ctx, there⟩ := mem_bare entry
    exact .inl (congrArg Except.ok (aware.learns _ there))
  | @followed flight _ entry =>
    obtain ⟨ctx, there⟩ := mem_bare entry
    rcases aware.learns _ there with (same | ⟨spoilt, failed⟩) | ⟨cancelled, failed⟩
    · exact .inl same
    · exact .inr ⟨failed, .inr ⟨flight, mem_awaited entry rfl, spoilt⟩⟩
    · exact .inr ⟨failed, .inl ⟨_, there, cancelled⟩⟩
  | read entry =>
    obtain ⟨ctx, there⟩ := mem_bare entry
    rcases aware.learns _ there with same | ⟨cancelled, err, rfl⟩
    · exact .inl same
    · exact .inr ⟨⟨err, rfl⟩, .inl ⟨_, there, cancelled⟩⟩
  | full entry =>
    obtain ⟨ctx, there⟩ := mem_bare entry
    exact (aware.learns _ there).elim

theorem Aware.published {segment : SegmentManifest} (aware : Aware host manifestKey shared s manifest c trace)
    (intact : Intact host manifestKey s manifest) (listed : Listed host manifestKey (bare trace) segment) :
    Published host manifestKey s segment := by
  obtain ⟨m, gives, member⟩ := listed
  rcases aware.gives gives with same | ⟨⟨err, impossible⟩, -⟩
  · cases same
    exact ⟨manifest, intact.loads, member⟩
  · cases impossible

theorem readManifest_faithful {answer : Except Err (Bytes × String)} (loads : Loads host manifestKey s manifest)
    (answered : Faithful s (.getVersioned manifestKey) answer) : readManifest host manifestKey answer = .ok manifest := by
  obtain ⟨object, read, stored, -⟩ := loads.stored
  change answer = _ at answered
  rw [stored] at answered
  rw [answered]
  exact readManifest_of_loads loads stored

section Steps

variable {honest : ObjectStore contentOf → (op : Op) → op.Res → Prop} {patient : Prop} {op : ColdOp} {answer : op.Res}
  {source : ArchiveBlockSource} {ctx : Nat}

theorem Aware.ends (aware : Aware host manifestKey shared s manifest c trace) (tidy : Tidy c.world.source)
    (intact : Intact host manifestKey s manifest) (allowed : ColdMay host manifestKey (bare trace) op)
    (move : ColdMove honest patient c.world op answer source) :
    (∀ flight result, (held (bare trace)).manifestLoad = some ((), flight) → source.manifestLoads flight = some result →
      Yields shared (· = .ok manifest) flight result) ∧
    ∀ text flight result, (held (bare trace)).segmentLoad = some (text, flight) →
      source.segmentLoads flight = some result → Yields shared (Right host manifestKey s text) flight result := by
  -- a load that the call has begun has not ended before
  have reading (flight : Nat) (leads : (held (bare trace)).manifestLoad = some ((), flight)) :
      c.world.source.manifestLoads flight = none :=
    (tidy.manifests.flying () flight (aware.minds.manifest () flight leads)).2
  have fetching (text : Bytes) (flight : Nat) (leads : (held (bare trace)).segmentLoad = some (text, flight)) :
      c.world.source.segmentLoads flight = none :=
    (tidy.fetches.flying text flight (aware.minds.segment text flight leads)).2
  cases move with
  | @finishManifest flight result =>
    obtain ⟨answer, leads, -, rfl⟩ := allowed
    rw [leads]
    refine ⟨?_, by rintro _ _ _ ⟨⟩⟩
    rintro _ _ ⟨⟩ ended
    dsimp only [ArchiveBlockSource.finishManifest] at ended
    rw [Function.update_self] at ended
    cases ended
    exact aware.manifest flight answer leads
  | @finishSegment text flight result done source finished =>
    obtain ⟨segment, answer, leads, listed, marshalled, -, rfl⟩ := allowed
    rw [leads]
    refine ⟨by rintro _ _ ⟨⟩, ?_⟩
    rintro _ _ _ ⟨⟩ ended
    rw [finished.segmentLoads, Function.update_self] at ended
    cases ended
    exact aware.segment text flight answer leads segment (aware.published intact listed) marshalled
  | _ =>
    refine ⟨?_, ?_⟩
    · intro flight result leads ended
      exact absurd ((reading flight leads).symm.trans ended) (by simp)
    · intro text flight result leads ended
      exact absurd ((fetching text flight leads).symm.trans ended) (by simp)

theorem Calm.caches (calm : Calm host manifestKey s manifest c) (aware : Aware host manifestKey shared s manifest c trace)
    (intact : Intact host manifestKey s manifest) (allowed : ColdMay host manifestKey (bare trace) op)
    (move : ColdMove honest patient c.world op answer source) :
    (∀ m loadedAt, source.cachedManifest = some (m, loadedAt) → m = manifest) ∧
      ∀ text element, source.segments text = some element → Right host manifestKey s text (.ok element.records) := by
  cases move with
  | @finishManifest flight result =>
    obtain ⟨answer, leads, -, rfl⟩ := allowed
    refine ⟨?_, calm.segments⟩
    intro m loadedAt found
    have yields := aware.manifest flight answer leads
    dsimp only [ArchiveBlockSource.finishManifest] at found
    cases read : readManifest host manifestKey answer with
    | ok loaded =>
      rw [read] at found yields
      cases found
      exact Except.ok.inj yields.of_ok
    | error err =>
      rw [read] at found
      exact calm.cached m loadedAt found
  | @finishSegment text flight result done source finished =>
    obtain ⟨segment, answer, leads, listed, marshalled, -, rfl⟩ := allowed
    refine ⟨by rw [finished.cachedManifest]; exact calm.cached, ?_⟩
    intro other element found
    rcases finished.segments other element found with before | ⟨rfl, same⟩
    · exact calm.segments other element before
    · have yields := aware.segment other flight answer leads segment (aware.published intact listed) marshalled
      rw [same] at yields
      exact yields.of_ok
  | _ => exact ⟨calm.cached, calm.segments⟩

theorem Aware.new (aware : Aware host manifestKey shared s manifest c trace) (calm : Calm host manifestKey s manifest c)
    (intact : Intact host manifestKey s manifest) (told : Told host manifest)
    (allowed : ColdMay host manifestKey (bare trace) op)
    (move : ColdMove (fun s op answer => Faithful s op answer ∨ ctx ∈ c.cancelled ∧ Interrupted op answer)
      (ctx ∉ c.cancelled) c.world op answer source) :
    Learns host manifestKey shared s manifest { c with world := { c.world with source } } ⟨⟨ctx, op⟩, answer⟩ := by
  have same := calm.store
  subst same
  cases move with
  | @store op answer answered =>
    cases op with
    | getVersioned key =>
      obtain ⟨rfl, -⟩ := allowed
      exact answered.imp (readManifest_faithful intact.loads) fun early => ⟨early.1, _, early.2⟩
    | get key =>
      obtain ⟨segment, text, flight, listed, rfl, -⟩ := allowed
      have published := aware.published intact listed
      refine answered.imp ?_ And.left
      intro faithful
      obtain ⟨records, read, decodes⟩ := published_reads (whole_of_intact intact told) published faithful
      exact ⟨segment, records, published, rfl, read, decodes⟩
    | _ => trivial
  | cachedManifest fresh =>
    obtain ⟨loadedAt, found, -⟩ := ArchiveBlockSource.freshManifest_cached fresh
    exact calm.cached _ loadedAt found
  | followManifest flying => exact .inl flying
  | @awaitManifest flight answer awaited =>
    rcases awaited with ended | ⟨hurried, rfl⟩
    · obtain ⟨ctx, there⟩ := mem_bare allowed.1
      have joined : ManifestJoined shared manifest c.world.source flight := aware.learns _ there
      exact .inl (joined.ended_right calm.tidy.manifests ended)
    · exact .inr ⟨not_not.mp hurried, _, rfl⟩
  | cachedSegment found => exact calm.segments _ _ found
  | followSegment flying => exact .inl flying
  | awaitSegment awaited => exact awaited.imp id fun early => not_not.mp early.1
  | noSlot hurried => exact not_not.mp hurried
  | leadManifest | finishManifest | leadSegment | fullSegment | acquireSlot | releaseSlot | finishSegment => trivial

end Steps

theorem hold_manifest {before : Held} {op : ColdOp} {answer : op.Res} {flight : Nat}
    {given : Except Err (Bytes × String)} (holds : hold before ⟨op, answer⟩ = .manifest flight (some given)) :
    before = .manifest flight (some given) ∨
      before.load = some flight ∧ ∃ key, (⟨op, answer⟩ : Entry ColdOp ColdOp.Res) = ⟨.store (.getVersioned key), given⟩ := by
  cases op with
  | store op =>
    cases op with
    | getVersioned key =>
      cases before with
      | manifest number earlier =>
        cases holds
        exact .inr ⟨rfl, key, rfl⟩
      | _ => exact .inl holds
    | get key =>
      cases before with
      | segment text number earlier => cases holds
      | _ => exact .inl holds
    | _ => exact .inl holds
  | enterManifest | enterSegment =>
    cases answer with
    | lead number => cases holds
    | _ => exact .inl holds
  | finishManifest | finishSegment => cases holds
  | _ => exact .inl holds

theorem hold_segment {before : Held} {op : ColdOp} {answer : op.Res} {text : Bytes} {flight : Nat}
    {given : Except Err Bytes} (holds : hold before ⟨op, answer⟩ = .segment text flight (some given)) :
    before = .segment text flight (some given) ∨
      (∃ earlier, before = .segment text flight earlier) ∧
        ∃ key, (⟨op, answer⟩ : Entry ColdOp ColdOp.Res) = ⟨.store (.get key), given⟩ := by
  cases op with
  | store op =>
    cases op with
    | getVersioned key =>
      cases before with
      | manifest number earlier => cases holds
      | _ => exact .inl holds
    | get key =>
      cases before with
      | segment other number earlier =>
        cases holds
        exact .inr ⟨⟨earlier, rfl⟩, key, rfl⟩
      | _ => exact .inl holds
    | _ => exact .inl holds
  | enterManifest | enterSegment =>
    cases answer with
    | lead number => cases holds
    | _ => exact .inl holds
  | finishManifest | finishSegment => cases holds
  | _ => exact .inl holds

theorem Aware.reads {op : ContextOp} {answer : op.Res} (aware : Aware host manifestKey shared s manifest c trace)
    (store : c.world.store = s) (intact : Intact host manifestKey s manifest) (told : Told host manifest)
    (allowed : ColdMay host manifestKey (bare trace) op.op) (taken : Spares shared trace op c answer c') :
    (∀ flight given, held (bare (trace ++ [⟨op, answer⟩])) = .manifest flight (some given) →
      Yields shared (· = .ok manifest) flight (readManifest host manifestKey given)) ∧
    ∀ text flight given, held (bare (trace ++ [⟨op, answer⟩])) = .segment text flight (some given) →
      ∀ segment, Published host manifestKey s segment → host.json.marshalSegment segment = .ok text →
        Yields shared (Right host manifestKey s text) flight (readRecords host segment given) := by
  subst store
  obtain ⟨ctx, op⟩ := op
  obtain ⟨⟨-, effect⟩, spared⟩ := taken
  rw [bare_snoc, held_snoc]
  refine ⟨?_, ?_⟩
  · intro flight given holds
    rcases hold_manifest holds with before | ⟨leads, key, same⟩
    · exact aware.manifest flight given before
    · cases same
      obtain ⟨rfl, -⟩ := allowed
      rcases effect.2 with faithful | ⟨cancelled, interrupted⟩
      · exact .inl (readManifest_faithful intact.loads faithful)
      · have failed : answer = .error (.sentinel .contextCanceled) := interrupted
        subst failed
        exact .inr ⟨spared _ rfl cancelled flight leads, _, rfl⟩
  · intro text flight given holds segment published marshalled
    rcases hold_segment holds with before | ⟨⟨earlier, leads⟩, key, same⟩
    · exact aware.segment text flight given before segment published marshalled
    · cases same
      obtain ⟨other, text', flight', listed, rfl, marshalled', leads'⟩ := allowed
      cases leads.symm.trans leads'
      rcases effect.2 with faithful | ⟨cancelled, interrupted⟩
      · have whole := whole_of_intact intact told
        cases (aware.published intact listed).eq_of_text published whole marshalled' marshalled
        obtain ⟨records, read, decodes⟩ := published_reads whole published faithful
        exact .inl ⟨segment, records, published, marshalled, read, decodes⟩
      · have failed : answer = .error (.sentinel .contextCanceled) := interrupted
        subst failed
        exact .inr ⟨spared _ rfl cancelled flight (by rw [leads]; rfl), _, rfl⟩

theorem Calm.step {op : ContextOp} {answer : op.Res} (calm : Calm host manifestKey s manifest c)
    (aware : Aware host manifestKey shared s manifest c trace) (intact : Intact host manifestKey s manifest)
    (told : Told host manifest) (allowed : ContextMay host manifestKey trace op)
    (taken : Spares shared trace op c answer c') :
    Calm host manifestKey s manifest c' ∧ Aware host manifestKey shared s manifest c' (trace ++ [⟨op, answer⟩]) ∧
      ∀ theirs, Aware host manifestKey shared s manifest c theirs → LoadsApart (bare trace) (bare theirs) →
        Aware host manifestKey shared s manifest c' theirs ∧
          LoadsApart (bare (trace ++ [⟨op, answer⟩])) (bare theirs) := by
  obtain ⟨manifest', segment'⟩ := aware.reads calm.store intact told allowed.2 taken
  obtain ⟨⟨same, effect⟩, -⟩ := taken
  obtain ⟨tidy, minds, others⟩ := source_step calm.tidy aware.minds allowed.2 effect
  obtain ⟨source, world, move⟩ := effect.move
  have after : c' = { c with world := { c.world with source } } := by
    obtain ⟨w, cancelled⟩ := c'
    cases same
    cases world
    rfl
  subst after
  obtain ⟨manifests, fetches⟩ := move.turns allowed.2
  obtain ⟨manifestEnds, segmentEnds⟩ := aware.ends calm.tidy intact allowed.2 move
  have prolonged : Prolonged host manifestKey shared s manifest c { c with world := { c.world with source } } := by
    refine ⟨?_, ?_, ?_, List.Subset.refl _⟩
    · intro flight joined
      exact manifests.joined calm.tidy.manifests aware.minds.manifest joined (manifestEnds flight)
    · intro text flight joined
      exact fetches.joined calm.tidy.fetches aware.minds.segment joined (segmentEnds text flight)
    · exact (fetches.prolongs calm.tidy.fetches aware.minds.segment).ended
  obtain ⟨cached, segments⟩ := calm.caches aware intact allowed.2 move
  refine ⟨⟨calm.store, tidy, cached, segments⟩, ⟨?_, by rw [bare_snoc]; exact minds, manifest', segment'⟩, ?_⟩
  · intro entry member
    rcases List.mem_append.mp member with old | last
    · exact (aware.learns entry old).prolonged prolonged
    · cases List.mem_singleton.mp last
      exact aware.new calm intact told allowed.2 move
  · intro theirs known apart
    obtain ⟨minds, apart⟩ := others (bare theirs) known.minds apart
    rw [bare_snoc]
    exact ⟨⟨fun entry member => (known.learns entry member).prolonged prolonged, minds, known.manifest, known.segment⟩,
      apart⟩

theorem calling_informs (intact : Intact host manifestKey s manifest) (told : Told host manifest) :
    InformsBy (Spares shared) Interrupts (Calm host manifestKey s manifest)
      (fun _ c trace => Aware host manifestKey shared s manifest c trace)
      (fun trace theirs => LoadsApart (bare trace) (bare theirs)) (ContextMay host manifestKey) where
  symm trace theirs apart := ⟨apart.1.symm, apart.2.symm⟩
  start id c calm := by
    refine ⟨⟨by simp, ⟨by simp [bare], ?_, ?_⟩, ?_, ?_⟩, ?_⟩
    · rintro _ _ ⟨⟩
    · rintro _ _ ⟨⟩
    · rintro _ _ ⟨⟩
    · rintro _ _ _ ⟨⟩
    · intro theirs
      refine ⟨?_, ?_⟩
      · rintro _ _ _ ⟨⟩
      · rintro _ _ _ ⟨⟩
  call id trace op c answer c' calm aware allowed taken := by
    obtain ⟨calm, aware, -⟩ := calm.step aware intact told allowed taken
    exact ⟨calm, aware⟩
  others id trace op c answer c' other theirs calm aware allowed taken _ known apart :=
    (calm.step aware intact told allowed taken).2.2 theirs known apart
  moves c label c' calm moved := by
    obtain ⟨source, store, more⟩ : c'.world.source = c.world.source ∧ c'.world.store = c.world.store ∧
        c.cancelled ⊆ c'.cancelled := by
      cases label with
      | cancel ctx =>
        cases moved
        exact ⟨rfl, rfl, List.subset_cons_self _ _⟩
      | wait time =>
        cases moved
        exact ⟨rfl, rfl, List.Subset.refl _⟩
    have prolonged : Prolonged host manifestKey shared s manifest c c' := by
      refine ⟨?_, ?_, ?_, more⟩
      all_goals
        rw [source]
        intros
        assumption
    refine ⟨⟨store.trans calm.store, ?_, ?_, ?_⟩, ?_⟩
    · rw [source]
      exact calm.tidy
    · rw [source]
      exact calm.cached
    · rw [source]
      exact calm.segments
    · intro id trace aware
      refine ⟨fun entry member => (aware.learns entry member).prolonged prolonged, ?_, aware.manifest, aware.segment⟩
      rw [source]
      exact aware.minds

theorem Aware.decodes {ctx : Nat} {segment : SegmentManifest} {result : Except Err (List BlockRecord)}
    (aware : Aware host manifestKey shared s manifest c trace) (json : host.json.Lawful)
    (calm : Calm host manifestKey s manifest c) (whole : Whole host manifestKey s)
    (published : Published host manifestKey s segment) (uncancelled : ctx ∉ c.cancelled)
    (contexts : ∀ entry ∈ trace, entry.1.ctx = ctx) (waits : ∀ flight ∈ awaited (bare trace), shared flight)
    (gives : GivesRecords host (bare trace) segment result) :
    ∃ records, result = .ok records ∧ DecodesTo host s segment records := by
  have own {op : ColdOp} {answer : op.Res} {other : Nat} (there : ⟨⟨other, op⟩, answer⟩ ∈ trace) : other ∉ c.cancelled := by
    have same : other = ctx := contexts _ there
    rw [same]
    exact uncancelled
  refine gives.decodes json whole published ?_ ?_ ?_ ?_
  · intro text records entry
    obtain ⟨other, there⟩ := mem_bare entry
    exact aware.learns _ there
  · intro text flight answer follows entry
    obtain ⟨other, joins⟩ := mem_bare follows
    obtain ⟨other, there⟩ := mem_bare entry
    have joined : SegmentJoined host manifestKey shared s c.world.source text flight := aware.learns _ joins
    have ended : c.world.source.segmentLoads flight = some answer := (aware.learns _ there).resolve_right (own there)
    have yields := joined.ended_right calm.tidy.fetches ended
    exact yields.resolve_right fun spoilt => spoilt.1 (waits flight (mem_awaited entry rfl))
  · intro answer entry
    obtain ⟨other, there⟩ := mem_bare entry
    obtain ⟨same, records, published', named, read, decodes⟩ := (aware.learns _ there).resolve_right (own there)
    cases published'.eq_of_key published named
    exact ⟨records, read, decodes⟩
  · intro err entry
    obtain ⟨other, there⟩ := mem_bare entry
    exact own there (aware.learns _ there)

theorem Aware.answers {ctx : Nat} {height : Int} {answer : Except Err Block} (json : host.json.Lawful)
    (calm : Calm host manifestKey s manifest c) (intact : Intact host manifestKey s manifest) (told : Told host manifest)
    (aware : Aware host manifestKey shared s manifest c trace) (uncancelled : ctx ∉ c.cancelled)
    (waits : ∀ flight ∈ awaited (bare trace), shared flight)
    (ended : ContextPost host manifestKey trace (ctx, height, answer)) : Answers host.comet manifest height answer := by
  obtain ⟨contexts, ended⟩ := ended
  have valid := intact.loads.valid
  have given : ∀ result, Gives host manifestKey (bare trace) result → result = .ok manifest := by
    intro result gives
    refine (aware.gives gives).resolve_right ?_
    rintro ⟨-, ⟨entry, member, cancelled⟩ | ⟨flight, waited, spoilt⟩⟩
    · rw [contexts entry member] at cancelled
      exact uncancelled cancelled
    · exact spoilt (waits flight waited)
  have decodes : ∀ m segment result, Gives host manifestKey (bare trace) (.ok m) →
      ArchiveBlockSource.segmentForHeight m.segments height = some segment →
      GivesRecords host (bare trace) segment result →
      m = manifest ∧ ∃ records, result = .ok records ∧ DecodesTo host s segment records := by
    intro m segment result gives found records
    cases given _ gives
    have member := (ArchiveBlockSource.segmentForHeight_mem found).1
    exact ⟨rfl, aware.decodes json calm (whole_of_intact intact told) ⟨manifest, intact.loads, member⟩ uncancelled contexts
      waits records⟩
  -- the record of a height that a segment has holds the block of that height
  have read : ∀ m segment records record, Gives host manifestKey (bare trace) (.ok m) →
      ArchiveBlockSource.segmentForHeight m.segments height = some segment →
      GivesRecords host (bare trace) segment (.ok records) → recordAt segment records height = some record →
      ∃ block, recordToBlock host.comet record = .ok block ∧ manifest.Names host.comet height block := by
    intro m segment records record gives found loaded position
    obtain ⟨rfl, _, same, decoded⟩ := decodes m segment _ gives found loaded
    cases same
    obtain ⟨member, above, below⟩ := ArchiveBlockSource.segmentForHeight_mem found
    obtain ⟨other, block, there, read, names⟩ := decodesTo_block decoded member above below
    rw [recordAt, if_neg (by omega), there] at position
    cases position
    exact ⟨block, read, names⟩
  cases answer with
  | error err =>
    obtain ⟨unloaded, missing | broken⟩ := ended
    · refine ⟨?_, fun _ => congrArg Except.error missing⟩
      intro positive low high
      cases unloaded with
      | below low => omega
      | manifest gives => cases given _ gives
      | segment gives missing =>
        cases given _ gives
        rcases valid.range with ⟨-, first, last⟩ | ⟨-, -, -, tiles⟩
        · omega
        · obtain ⟨segment, found⟩ := ArchiveBlockSource.segmentForHeight_covers tiles valid.segments low (by omega)
          rw [missing] at found
          cases found
      | @records m segment err gives found failed =>
        obtain ⟨-, records, impossible, -⟩ := decodes m segment _ gives found failed
        cases impossible
      | @record m segment records gives found loaded missing =>
        obtain ⟨rfl, _, same, decoded⟩ := decodes m segment _ gives found loaded
        cases same
        obtain ⟨member, above, below⟩ := ArchiveBlockSource.segmentForHeight_mem found
        obtain ⟨record, block, position, read, -⟩ := decodesTo_block decoded member above below
        refine absurd read (missing record ?_ block)
        rw [recordAt, if_neg (by omega), position]
    · rcases broken with ⟨err, gives⟩ | ⟨m, segment, gives, found, ⟨err, failed⟩ | ⟨records, record, loaded, position, unread⟩⟩
      · cases given _ gives
      · obtain ⟨-, records, impossible, -⟩ := decodes m segment _ gives found failed
        cases impossible
      · obtain ⟨block, here, -⟩ := read m segment records record gives found loaded position
        exact absurd here (unread block)
  | ok block =>
    obtain ⟨m, segment, records, record, gives, found, loaded, position, here⟩ := ended
    obtain ⟨other, again, names⟩ := read m segment records record gives found loaded position
    cases here.symm.trans again
    refine ⟨fun _ _ _ => ⟨block, rfl, names⟩, ?_⟩
    intro outside
    have inside := valid.bounds names.2
    omega

/-- A call whose own context is not cancelled is answered as if it were alone, as long as no load that it waits for
is read for under a cancelled context. -/
theorem cancellation_isolated {start : Callers contentOf} {made : ArchiveBlockSource} {ttl : Int}
    {events : List (Event ContextOp ContextOp.Res (Nat × Int × Except Err Block) CallerEvent)}
    {m : Machine (Callers contentOf) ContextOp ContextOp.Res (Nat × Int × Except Err Block)} {id ctx : Nat} {height : Int}
    {answer : Except Err Block} (json : host.json.Lawful) (told : Told host manifest)
    (created : newArchiveBlockSource host manifestKey = .ok made)
    (tuned : made.setManifestCacheTTL ttl = .ok start.world.source)
    (intact : Intact host manifestKey start.world.store manifest)
    (run : Run (fun m event m' => Live (· ∈ awaited (bare trace)) m ∧ Step ContextEffect Interrupts m event m')
      (Machine.idle start) events m)
    (calls : ∀ id p, .spawn id p ∈ events → ∃ ctx fuel height, p = blockCall host manifestKey ctx fuel height)
    (returned : m.procs id = some ⟨.ret (ctx, height, answer), trace⟩) (uncancelled : ctx ∉ m.shared.cancelled) :
    Answers host.comet manifest height answer := by
  obtain ⟨opened, -⟩ := newArchiveBlockSource_opened created
  obtain ⟨uncached, -⟩ := newSource_uncached created tuned
  have whole := whole_of_intact intact told
  have idle : (Machine.idle start).Informed (Calm host manifestKey start.world.store manifest)
      (fun _ c theirs => Aware host manifestKey (· ∈ awaited (bare trace)) start.world.store manifest c theirs)
      (fun trace theirs => LoadsApart (bare trace) (bare theirs)) (ContextMay host manifestKey)
      (ContextPost host manifestKey) := by
    refine ⟨⟨rfl, (newSource_unused created tuned).tidy, ?_, (newSource_stocked created tuned whole).segments⟩,
      by simp [Machine.idle], by simp [Machine.idle]⟩
    intro other loadedAt found
    change start.world.source.cachedManifest = _ at found
    rw [uncached] at found
    cases found
  have informed := Run.informedBy (calling_informs intact told)
    (fun _ _ _ taken => ⟨taken.2, fun _ _ _ _ _ _ present effect => taken.1.spares present effect⟩) run
    (fun id p spawned => by
      obtain ⟨ctx, fuel, height, rfl⟩ := calls id p spawned
      exact blockCall_follows opened ctx fuel height) idle
  obtain ⟨ended, aware⟩ := informed.procs id _ returned
  exact aware.answers json informed.inv intact told uncancelled (fun _ waited => waited) ended

end Contexts

section Sample

abbrev CallerEvents := List (Event ContextOp ContextOp.Res (Nat × Int × Except Err Block) CallerEvent)

abbrev CallMachine := Machine (Callers spelledContent) ContextOp ContextOp.Res (Nat × Int × Except Err Block)

def serveContext : (op : ContextOp) → Callers spelledContent → Option (op.Res × Callers spelledContent)
  | ⟨ctx, .store (.get key)⟩, c =>
    if ctx ∈ c.cancelled then some (.error (.sentinel .contextCanceled), c)
    else (serveCold (.store (.get key)) c.world).map fun served => (served.1, { c with world := served.2 })
  | ⟨ctx, .store (.getVersioned key)⟩, c =>
    if ctx ∈ c.cancelled then some (.error (.sentinel .contextCanceled), c)
    else (serveCold (.store (.getVersioned key)) c.world).map fun served => (served.1, { c with world := served.2 })
  | ⟨_, op⟩, c => (serveCold op c.world).map fun served => (served.1, { c with world := served.2 })

theorem serveContext_effect (op : ContextOp) (c : Callers spelledContent) (given : op.Res) (after : Callers spelledContent)
    (served : serveContext op c = some (given, after)) : ContextEffect op c given after := by
  obtain ⟨ctx, op⟩ := op
  have calm (served : (serveCold op c.world).map (fun served => (served.1, { c with world := served.2 })) =
      some (given, after)) : ContextEffect ⟨ctx, op⟩ c given after := by
    obtain ⟨⟨answer, world⟩, found, same⟩ := Option.map_eq_some_iff.mp served
    cases same
    exact ⟨rfl, (serveCold_effect op c.world _ world found).mono (fun _ _ _ faithful => .inl faithful) id⟩
  cases op with
  | store op =>
    cases op with
    | get key | getVersioned key =>
      simp only [serveContext] at served
      split at served
      next cancelled =>
        cases served
        exact ⟨rfl, rfl, .inr ⟨cancelled, rfl⟩⟩
      next => exact calm served
    | _ => exact calm served
  | _ => exact calm served

def moveCallers (c : Callers spelledContent) : CallerEvent → Option (Callers spelledContent)
  | .cancel ctx => some { c with cancelled := ctx :: c.cancelled }
  | .wait time => some { c with world := { c.world with now := c.world.now + time } }

theorem moveCallers_interrupts (c : Callers spelledContent) (label : CallerEvent) (after : Callers spelledContent)
    (moved : moveCallers c label = some after) : Interrupts c label after := by
  cases label with
  | cancel ctx => exact (Option.some.inj moved).symm
  | wait time => exact (Option.some.inj moved).symm

def shortCallers : Callers spelledContent := ⟨⟨shortObjects [1], shortSource, 0⟩, []⟩

def sharedManifest : CallerEvents :=
  [.spawn 0 (blockCall shortHost "m" 0 1 1), .spawn 1 (blockCall shortHost "m" 1 1 1), .run 0, .run 1, .env (.cancel 0),
    .run 0, .run 0, .run 1]

def sharedSegment : CallerEvents :=
  [.spawn 0 (blockCall shortHost "m" 0 1 1), .spawn 1 (blockCall shortHost "m" 1 1 1), .run 0, .run 0, .run 0, .run 0,
    .run 1, .run 1, .env (.cancel 0), .run 0, .run 0, .run 0, .run 1]

def failsFollower (picks : ColdOp → Bool)
    (m : Machine (Callers spelledContent) ContextOp ContextOp.Res (Nat × Int × Except Err Block)) : Bool :=
  -- whether the second call has failed in a wait that `picks` says, though its context is not cancelled
  match m.procs 1 with
  | some ⟨.ret (ctx, height, .error err), trace⟩ => ctx == 1 && height == 1 && err == .sentinel .contextCanceled &&
      trace.any (fun entry => picks entry.1.op) && !m.shared.cancelled.contains 1
  | _ => false

def Disturbed (events : CallerEvents) (waited : ColdOp → Prop) : Prop :=
  ∃ m trace entry, Run (Step ContextEffect Interrupts) (Machine.idle shortCallers) events m ∧
    m.procs 1 = some ⟨.ret (1, 1, .error (.sentinel .contextCanceled)), trace⟩ ∧ 1 ∉ m.shared.cancelled ∧
    entry ∈ trace ∧ waited entry.1.op

theorem disturbed_of_play {events : CallerEvents} (picks : ColdOp → Bool) {waited : ColdOp → Prop}
    (means : ∀ op, picks op = true → waited op)
    (fails : (play serveContext moveCallers events (Machine.idle shortCallers)).map (failsFollower picks) = some true) :
    Disturbed events waited := by
  obtain ⟨m, played, fails⟩ := Option.map_eq_some_iff.mp fails
  have run : Run (Step ContextEffect Interrupts) (Machine.idle shortCallers) events m :=
    play_run serveContext_effect moveCallers_interrupts played
  unfold failsFollower at fails
  split at fails
  next ctx height err trace found =>
    simp only [Bool.and_eq_true, beq_iff_eq, List.any_eq_true, Bool.not_eq_true', List.contains_eq_mem,
      decide_eq_false_iff_not] at fails
    obtain ⟨⟨⟨⟨rfl, rfl⟩, rfl⟩, entry, member, picked⟩, uncancelled⟩ := fails
    exact ⟨m, trace, entry, run, found, uncancelled, member, means _ picked⟩
  next => cases fails

def awaitsManifest : ColdOp → Bool
  | .awaitManifest _ => true
  | _ => false

def awaitsSegment : ColdOp → Bool
  | .awaitSegment _ => true
  | _ => false

/-- The call that began a shared load is cancelled, and the one that waits for it fails. -/
theorem leader_cancellation_disturbs : ∃ made,
    newArchiveBlockSource shortHost "m" = .ok made ∧
    made.setManifestCacheTTL defaultColdManifestCacheTTL = .ok shortCallers.world.source ∧
    Intact shortHost "m" shortCallers.world.store (shortLoaded [1]) ∧
    (shortLoaded [1]).firstHeight = 1 ∧ (shortLoaded [1]).lastHeight = 1 ∧
    (∀ events ∈ [sharedManifest, sharedSegment], ∀ id p, .spawn id p ∈ events →
      ∃ ctx fuel height, p = blockCall shortHost "m" ctx fuel height) ∧
    Disturbed sharedManifest (fun op => ∃ flight, op = .awaitManifest flight) ∧
    Disturbed sharedSegment (fun op => ∃ flight, op = .awaitSegment flight) := by
  refine ⟨_, shortSource_created.1, shortSource_created.2, shortObjects_intact.1, rfl, rfl, ?_, ?_, ?_⟩
  · intro events listed id p spawned
    rcases List.mem_pair.mp listed with rfl | rfl
    · simp only [sharedManifest, List.mem_cons, Event.spawn.injEq, reduceCtorEq, List.not_mem_nil, or_false] at spawned
      rcases spawned with ⟨-, rfl⟩ | ⟨-, rfl⟩
      · exact ⟨0, 1, 1, rfl⟩
      · exact ⟨1, 1, 1, rfl⟩
    · simp only [sharedSegment, List.mem_cons, Event.spawn.injEq, reduceCtorEq, List.not_mem_nil, or_false] at spawned
      rcases spawned with ⟨-, rfl⟩ | ⟨-, rfl⟩
      · exact ⟨0, 1, 1, rfl⟩
      · exact ⟨1, 1, 1, rfl⟩
  · refine disturbed_of_play awaitsManifest ?_ (by decide +kernel)
    intro op picked
    cases op with
    | awaitManifest flight => exact ⟨flight, rfl⟩
    | _ => cases picked
  · refine disturbed_of_play awaitsSegment ?_ (by decide +kernel)
    intro op picked
    cases op with
    | awaitSegment flight => exact ⟨flight, rfl⟩
    | _ => cases picked

theorem Run.live {start : Callers spelledContent} {events : CallerEvents} {waited : Nat → Prop} {m : CallMachine}
    (run : Run (Step ContextEffect Interrupts) (Machine.idle start) events m) (none : start.cancelled = [])
    (spared : ∀ ctx, .env (.cancel ctx) ∉ events) :
    Run (fun m event m' => Live waited m ∧ Step ContextEffect Interrupts m event m') (Machine.idle start) events m ∧
      m.shared.cancelled = [] := by
  induction run with
  | refl => exact ⟨.refl, none⟩
  | @snoc events mid last event before taken ih =>
    obtain ⟨run, uncancelled⟩ := ih fun ctx member => spared ctx (List.mem_append_left _ member)
    refine ⟨.snoc run ⟨?_, taken⟩, ?_⟩
    · intro id ctx op next trace flight _ _ _
      rw [uncancelled]
      exact List.not_mem_nil
    · cases taken with
      | run present effect => exact effect.1.trans uncancelled
      | @env label shared moved =>
        cases label with
        | cancel ctx => exact absurd (List.mem_append_right _ (List.mem_singleton_self _)) (spared ctx)
        | wait time =>
          cases moved
          exact uncancelled
      | spawn | kill => exact uncancelled

def twoCallers : Callers spelledContent := ⟨⟨shortObjects [1, 2], shortSource, 0⟩, []⟩

-- the second call waits for the first one's load of a segment, and the third one is about to read another segment
def separateCalls : CallerEvents :=
  [.spawn 0 (blockCall shortHost "m" 0 1 1), .spawn 1 (blockCall shortHost "m" 1 1 1),
    .spawn 2 (blockCall shortHost "m" 2 1 2), .run 0, .run 0, .run 0, .run 0, .run 1, .run 1, .run 2, .run 2, .run 0, .run 0]

def cancelling (ctx : Nat) (m : CallMachine) : CallMachine :=
  ⟨{ m.shared with cancelled := ctx :: m.shared.cancelled }, m.procs⟩

def spoils (flight : Nat) (cancelled : List Nat) :
    Option (Proc ContextOp ContextOp.Res (Nat × Int × Except Err Block)) → Bool
  -- whether the call is about to read for this load, under a context that is cancelled
  | some ⟨.call ⟨ctx, .store _⟩ _, trace⟩ => (held (bare trace)).load == some flight && cancelled.contains ctx
  | _ => false

def spares (flight : Nat) (m : CallMachine) : Bool :=
  [0, 1, 2].all fun id => !spoils flight m.shared.cancelled (m.procs id)

theorem live_of_spares {start : Callers spelledContent} {events : CallerEvents} {waited : List Nat} {m : CallMachine}
    (run : Run (Step ContextEffect Interrupts) (Machine.idle start) events m)
    (spawns : ∀ id p, .spawn id p ∈ events → id ∈ [0, 1, 2]) (one : waited = [1]) (spared : spares 1 m = true) :
    Live (· ∈ waited) m := by
  intro id ctx op next trace flight present leads mine cancelled
  rw [one, List.mem_singleton] at mine
  subst mine
  obtain ⟨p, spawned⟩ := Run.spawned run (by rw [present]; simp)
  have quiet := List.all_eq_true.mp spared id (spawns id p spawned)
  rw [present] at quiet
  simp [spoils, leads, cancelled] at quiet

def answersSecond (m : CallMachine) : Bool :=
  -- whether the second call has returned and has waited for the first one's load, with the third one cancelled
  match m.procs 1 with
  | some ⟨.ret (ctx, height, _), trace⟩ => m.shared.cancelled == [2] && ctx == 1 && height == 1 &&
      awaited (bare trace) == [1]
  | _ => false

def givesUp : Entry ContextOp ContextOp.Res → Bool
  | ⟨⟨_, .store (.get _)⟩, .error err⟩ => err == .sentinel .contextCanceled
  | _ => false

def gaveUp (m : CallMachine) : Bool := (m.procs 2).any fun proc => proc.trace.any givesUp

theorem cancellation_isolated_short : ∃ (m : CallMachine) (trace : ContextCalls) (block : Block),
    m.shared.cancelled = [2] ∧ gaveUp m = true ∧ m.procs 1 = some ⟨.ret (1, 1, .ok block), trace⟩ ∧
    awaited (bare trace) = [1] ∧ (shortLoaded [1, 2]).Names shortComet 1 block := by
  -- the third call's read is given up while the second one waits
  have ends : ((play serveContext moveCallers separateCalls (Machine.idle twoCallers)).bind fun ready =>
      (play serveContext moveCallers [.run 2] (cancelling 2 ready)).bind fun spoilt =>
        (play serveContext moveCallers [.run 1] spoilt).map fun last =>
          (spares 1 (cancelling 2 ready) && spares 1 spoilt, gaveUp last, answersSecond last)) =
      some (true, true, true) := by decide +kernel
  obtain ⟨ready, began, ends⟩ := Option.bind_eq_some_iff.mp ends
  obtain ⟨spoilt, interrupted, ends⟩ := Option.bind_eq_some_iff.mp ends
  obtain ⟨last, waits, ends⟩ := Option.map_eq_some_iff.mp ends
  simp only [Prod.mk.injEq, Bool.and_eq_true] at ends
  obtain ⟨⟨waiting, quiet⟩, gave, ends⟩ := ends
  have cancels : Step ContextEffect Interrupts ready (.env (.cancel 2)) (cancelling 2 ready) := Step.env rfl
  have fails : Step ContextEffect Interrupts (cancelling 2 ready) (.run 2) spoilt :=
    (play_run serveContext_effect moveCallers_interrupts interrupted).single
  have answers : Step ContextEffect Interrupts spoilt (.run 1) last :=
    (play_run serveContext_effect moveCallers_interrupts waits).single
  have started : Run (Step ContextEffect Interrupts) (Machine.idle twoCallers) separateCalls ready :=
    play_run serveContext_effect moveCallers_interrupts began
  have calls : ∀ id p, .spawn id p ∈ separateCalls ++ [.env (.cancel 2)] ++ [.run 2] ++ [.run 1] →
      id ∈ [0, 1, 2] ∧ ∃ ctx fuel height, p = blockCall shortHost "m" ctx fuel height := by
    intro id p spawned
    simp only [separateCalls, List.cons_append, List.nil_append, List.mem_cons, Event.spawn.injEq, reduceCtorEq,
      List.not_mem_nil, or_false] at spawned
    rcases spawned with ⟨rfl, rfl⟩ | ⟨rfl, rfl⟩ | ⟨rfl, rfl⟩
    · exact ⟨by simp, 0, 1, 1, rfl⟩
    · exact ⟨by simp, 1, 1, 1, rfl⟩
    · exact ⟨by simp, 2, 1, 2, rfl⟩
  have told : Told shortHost (shortLoaded [1, 2]) := shortObjects_whole.2.told _ shortObjects_intact.2.loads
  unfold answersSecond at ends
  split at ends
  next ctx height answer trace found =>
    simp only [Bool.and_eq_true, beq_iff_eq] at ends
    obtain ⟨⟨⟨cancelled, rfl⟩, rfl⟩, one⟩ := ends
    have quietly := Run.snoc started cancels
    have reading : Live (· ∈ awaited (bare trace)) (cancelling 2 ready) := live_of_spares quietly
      (fun id p spawned => (calls id p (List.mem_append_left _ (List.mem_append_left _ spawned))).1) one waiting
    have spoiling : Live (· ∈ awaited (bare trace)) spoilt := live_of_spares (.snoc quietly fails)
      (fun id p spawned => (calls id p (List.mem_append_left _ spawned)).1) one quiet
    obtain ⟨run, uncancelled⟩ := Run.live started rfl (by simp [separateCalls])
    have live : Live (· ∈ awaited (bare trace)) ready := by
      intro id ctx op next trace flight _ _ _
      rw [uncancelled]
      exact List.not_mem_nil
    obtain ⟨answered, -⟩ := cancellation_isolated shortJson_lawful told shortSource_created.1 shortSource_created.2
      shortObjects_intact.2 (.snoc (.snoc (.snoc run ⟨live, cancels⟩) ⟨reading, fails⟩) ⟨spoiling, answers⟩)
      (fun id p spawned => (calls id p spawned).2) found (by simp [cancelled])
    obtain ⟨block, rfl, names⟩ := answered (by omega) (by decide) (by decide)
    exact ⟨last, trace, block, cancelled, gave, found, one, names⟩
  next => cases ends

end Sample

end CometArchive.Blocksync
