import CometArchive.Archive.Prune
import CometArchive.Blocksync.ColdCalls

set_option autoImplicit false

/-!
# Serving peers

The reactor answers requests for blocks and for its status from the hot store and from the cold source,
while other parts of the node ingest blocks, publish segments and prune the hot store. A handler is a
program over what it shares with them.
-/

namespace CometArchive.Blocksync

open GoBytes GoError Archive Programs Programs.Fallible

variable {V : Type} (host : Host V) (manifestKey : String)

def mergeAdvertisedRanges (cold hot : PeerRange) : PeerRange :=
  if cold.height = 0 then hot
  else if hot.height = 0 then cold
  else if wrap64 (cold.height + 1) < hot.base ∨ wrap64 (hot.height + 1) < cold.base then
    if cold.height ≤ hot.height then hot else cold
  else ⟨min hot.base cold.base, max hot.height cold.height⟩

def hotRange (store : BlockStore) : PeerRange := if store.height = 0 then ⟨0, 0⟩ else ⟨store.base, store.height⟩

inductive ServeOp where
  | cold (op : ColdOp)
  | hotRange
  | loadHotBlock (height : Int)
  | loadCachedRange
  | storeCachedRange (range : PeerRange)
  | enqueueColdBlockRequest (height : Int)
  | sendStatus (range : PeerRange)
  | sendBlock (block : Block)
  | sendNoBlock (height : Int)

abbrev ServeOp.Res : ServeOp → Type
  | .cold op => op.Res
  | .hotRange => PeerRange
  | .loadHotBlock _ => Option Block
  | .loadCachedRange => Option PeerRange
  | .storeCachedRange _ => Unit
  -- `false` where the queue or the rate limit drops the request
  | .enqueueColdBlockRequest _ => Bool
  | .sendStatus _ => Unit
  | .sendBlock _ => Unit
  | .sendNoBlock _ => Unit

abbrev Serve := Fallible ServeOp ServeOp.Res Err

def onCold {α : Type} (p : C α) : Serve α := ExceptT.mk (p.run.embed ServeOp.cold fun _ answer => answer)

-- `coldSource` tells whether `opts.ColdBlockSource` is set

def cachedAdvertisedRange (coldSource : Bool) : Serve PeerRange := do
  let hot ← query ServeOp.hotRange
  if coldSource = false then return hot
  else
    let cached ← query ServeOp.loadCachedRange
    match cached with
    | some cached => return mergeAdvertisedRanges cached hot
    | none => return hot

def sendStatus (coldSource : Bool) : Serve Unit := do
  let advertised ← cachedAdvertisedRange coldSource
  query (ServeOp.sendStatus advertised)

def refreshAdvertisedRange (coldSource : Bool) : Serve PeerRange := do
  let hot ← query ServeOp.hotRange
  if coldSource = false then return hot
  else
    let cold ← onCold (outcome (ArchiveBlockSource.advertisedRange host manifestKey))
    match cold with
    | .error _ =>
      let cached ← query ServeOp.loadCachedRange
      match cached with
      | some cached => return mergeAdvertisedRanges cached hot
      | none => return hot
    | .ok cold =>
      let _ ← query (ServeOp.storeCachedRange cold)
      return mergeAdvertisedRanges cold hot

def respondToColdBlockRequest (fuel : Nat) (height : Int) : Serve Unit := do
  let advertised ← onCold (outcome (ArchiveBlockSource.advertisedRange host manifestKey))
  match advertised with
  | .error _ => query (ServeOp.sendNoBlock height)
  | .ok advertised =>
    if advertised.contains height = false then query (ServeOp.sendNoBlock height)
    else
      let block ← onCold (outcome (ArchiveBlockSource.loadBlock host manifestKey fuel height))
      match block with
      | .error _ => query (ServeOp.sendNoBlock height)
      | .ok block => query (ServeOp.sendBlock block)

/-- The request is followed to the worker that takes it from the queue. -/
def respondToBlockRequest (coldSource : Bool) (fuel : Nat) (height : Int) : Serve Unit := do
  let block ← query (ServeOp.loadHotBlock height)
  match block with
  | some block => query (ServeOp.sendBlock block)
  | none =>
    if coldSource = true then
      let queued ← query (ServeOp.enqueueColdBlockRequest height)
      if queued = true then respondToColdBlockRequest host manifestKey fuel height else return ()
    else query (ServeOp.sendNoBlock height)

inductive ServeJob where
  | sendStatus
  | refreshAdvertisedRange
  | respondToBlockRequest (fuel : Nat) (height : Int)

def ServeJob.program (coldSource : Bool) : ServeJob → Prog ServeOp ServeOp.Res (Except Err Unit)
  | .sendStatus => (Blocksync.sendStatus coldSource).run
  | .refreshAdvertisedRange => (do let _ ← Blocksync.refreshAdvertisedRange host manifestKey coldSource : Serve Unit).run
  | .respondToBlockRequest fuel height => (Blocksync.respondToBlockRequest host manifestKey coldSource fuel height).run

structure Node (contentOf : String → Bytes) where
  cold : World contentOf
  hot : BlockStore
  cachedRange : Option PeerRange

variable {contentOf : String → Bytes}

def ServeEffect (honest : ObjectStore contentOf → (op : Op) → op.Res → Prop) (patient : Prop) :
    (op : ServeOp) → Node contentOf → op.Res → Node contentOf → Prop
  | .cold op, n, answer, n' => ∃ cold, ColdEffect honest patient op n.cold answer cold ∧ n' = { n with cold }
  | .hotRange, n, answer, n' => answer = hotRange n.hot ∧ n' = n
  | .loadHotBlock height, n, answer, n' => answer = n.hot.load height ∧ n' = n
  | .loadCachedRange, n, answer, n' => answer = n.cachedRange ∧ n' = n
  | .storeCachedRange range, n, _, n' => n' = { n with cachedRange := some range }
  | .enqueueColdBlockRequest _, n, _, n' => n' = n
  | .sendStatus _, n, _, n' => n' = n
  | .sendBlock _, n, _, n' => n' = n
  | .sendNoBlock _, n, _, n' => n' = n

def Covered (s : ObjectStore contentOf) (m : Manifest) : Prop :=
  -- the published manifest holds all segments of this one
  m.Valid ∧ ∃ current, Loads host manifestKey s current ∧ m.segments ⊆ current.segments

def Grows (s s' : ObjectStore contentOf) : Prop :=
  ∀ m, Loads host manifestKey s m → ∃ m', Loads host manifestKey s' m' ∧ m.segments ⊆ m'.segments

/-- What the rest of the node does. A prune goes by a snapshot of the manifest that was verified before. -/
inductive Change (contentOf : String → Bytes) where
  | persist (block : Block)
  | publish (store : ObjectStore contentOf)
  | prune (snapshot : Manifest) (opts : PruneHotOptions) (ctx : Except Err Unit) (fault : Option Err)
  | wait (time : Int)

def Changes (grows : ObjectStore contentOf → ObjectStore contentOf → Prop) (n : Node contentOf) :
    Change contentOf → Node contentOf → Prop
  -- `grows` says which stores a publication may lead to
  | .persist block, n' => block.height ≤ maxInt64 ∧ ∃ hot, n.hot.saveBlock block = some hot ∧ n' = { n with hot }
  | .publish store, n' => grows n.cold.store store ∧ n' = { n with cold := { n.cold with store } }
  | .prune snapshot opts ctx fault, n' => Covered host manifestKey n.cold.store snapshot ∧ ∃ hot result,
      pruneHotStore host.comet n.hot snapshot opts ctx fault = .ok (hot, result) ∧ n' = { n with hot }
  | .wait time, n' => 0 ≤ time ∧ n' = { n with cold := { n.cold with now := n.cold.now + time } }

def Available (n : Node contentOf) (height : Int) : Prop :=
  (∃ block, n.hot.load height = some block) ∨
    ∃ m hash, Loads host manifestKey n.cold.store m ∧ m.Indexes height hash

section Available

variable {host} {manifestKey} {n n' : Node contentOf} {s s' : ObjectStore contentOf} {height : Int}

theorem Covered.grows {m : Manifest} (covered : Covered host manifestKey s m) (grows : Grows host manifestKey s s') :
    Covered host manifestKey s' m := by
  obtain ⟨valid, current, loads, kept⟩ := covered
  obtain ⟨next, loads, further⟩ := grows current loads
  exact ⟨valid, next, loads, fun _ member => further (kept member)⟩

theorem Covered.available {m : Manifest} (covered : Covered host manifestKey n.cold.store m) (first : 0 < m.firstHeight)
    (low : m.firstHeight ≤ height) (high : height ≤ m.lastHeight) : Available host manifestKey n height := by
  obtain ⟨valid, current, loads, kept⟩ := covered
  obtain ⟨hash, segment, member, indexed⟩ := valid.exists_index first low high
  exact .inr ⟨current, hash, loads, segment, kept member, indexed⟩

theorem Changes.available {grows : ObjectStore contentOf → ObjectStore contentOf → Prop} {change : Change contentOf}
    (further : ∀ s s', grows s s' → Grows host manifestKey s s') (changed : Changes host manifestKey grows n change n')
    (available : Available host manifestKey n height) : Available host manifestKey n' height := by
  cases change with
  | persist block =>
    obtain ⟨-, hot, saved, rfl⟩ := changed
    rcases available with ⟨old, found⟩ | archived
    · exact .inl ⟨old, BlockStore.saveBlock_load_mono saved found⟩
    · exact .inr archived
  | publish store =>
    obtain ⟨grown, rfl⟩ := changed
    rcases available with hot | ⟨m, hash, loads, segment, member, indexed⟩
    · exact .inl hot
    · obtain ⟨next, loads, kept⟩ := further _ _ grown m loads
      exact .inr ⟨next, hash, loads, segment, kept member, indexed⟩
  | prune snapshot opts ctx fault =>
    obtain ⟨covered, hot, result, pruned, rfl⟩ := changed
    rcases available with ⟨block, found⟩ | archived
    · rcases pruneHotStore_spec pruned with rfl | ⟨pruneTo, chainID, deleted, above, within, -, first, -⟩
      · exact .inl ⟨block, found⟩
      · have bounds := BlockStore.bounds_of_load found
        obtain ⟨-, -, -, -, -, -, left⟩ := BlockStore.pruneBlocks_spec deleted
        by_cases gone : height < pruneTo
        · have positive : 0 < snapshot.firstHeight := by
            rcases covered.1.range with ⟨-, -, last⟩ | ⟨-, positive, -⟩
            · omega
            · exact positive
          exact Covered.available covered positive (by omega) (by omega)
        · exact .inl ⟨block, by rw [left height, if_neg gone]; exact found⟩
    · exact .inr archived
  | wait time =>
    obtain ⟨-, rfl⟩ := changed
    exact available

end Available

abbrev Served := Trace ServeOp ServeOp.Res

def coldEntry : Entry ServeOp ServeOp.Res → Option (Entry ColdOp ColdOp.Res)
  | ⟨.cold op, answer⟩ => some ⟨op, answer⟩
  | _ => none

def coldPart (trace : Served) : Calls := trace.filterMap coldEntry

theorem coldPart_snoc (trace : Served) (entry : Entry ServeOp ServeOp.Res) :
    coldPart (trace ++ [entry]) = coldPart trace ++ (coldEntry entry).toList := by
  rw [coldPart, List.filterMap_append]
  cases found : coldEntry entry <;> simp [coldPart, found]

theorem coldPart_cold (trace : Served) (op : ColdOp) (answer : op.Res) :
    coldPart (trace ++ [⟨.cold op, answer⟩]) = coldPart trace ++ [⟨op, answer⟩] :=
  coldPart_snoc ..

theorem coldPart_other (trace : Served) {entry : Entry ServeOp ServeOp.Res} (other : coldEntry entry = none) :
    coldPart (trace ++ [entry]) = coldPart trace := by
  rw [coldPart_snoc, other]
  exact List.append_nil _

def GivesRange (trace : Calls) (range : PeerRange) : Prop :=
  (∃ err, Gives host manifestKey trace (.error err)) ∧ range = ⟨0, 0⟩ ∨
    ∃ m, Gives host manifestKey trace (.ok m) ∧ range = manifestRange m

inductive Excused (coldSource : Bool) (trace : Calls) (height : Int) : Prop
  -- why a block is reported as missing
  | noSource (none : coldSource = false)
  | manifest {err : Err} (gives : Gives host manifestKey trace (.error err))
  | outside {m : Manifest} (gives : Gives host manifestKey trace (.ok m)) (outside : (manifestRange m).contains height = false)
  | unloaded (unloaded : Unloaded host manifestKey trace height)

def ServeMay (coldSource : Bool) (trace : Served) : ServeOp → Prop
  | .cold op => ColdMay host manifestKey (coldPart trace) op
  | .loadHotBlock _ => trace = []
  | .storeCachedRange range => GivesRange host manifestKey (coldPart trace) range
  | .sendStatus range => ∃ hot, ⟨.hotRange, hot⟩ ∈ trace ∧
      (range = hot ∨ ∃ cached, ⟨.loadCachedRange, some cached⟩ ∈ trace ∧ range = mergeAdvertisedRanges cached hot)
  | .sendBlock block => ∃ height, trace.head? = some ⟨.loadHotBlock height, some block⟩ ∨
      trace.head? = some ⟨.loadHotBlock height, none⟩ ∧ Loaded host manifestKey (coldPart trace) height block
  | .sendNoBlock height => trace.head? = some ⟨.loadHotBlock height, none⟩ ∧
      Excused host manifestKey coldSource (coldPart trace) height
  | _ => True

def Answered (coldSource : Bool) (trace : Served) : Prop :=
  -- a request has been answered or dropped
  ∀ height answer, trace.head? = some ⟨.loadHotBlock height, answer⟩ →
    (∃ block, ⟨.sendBlock block, ()⟩ ∈ trace) ∨ answer = none ∧
      (Excused host manifestKey coldSource (coldPart trace) height ∨ ⟨.enqueueColdBlockRequest height, false⟩ ∈ trace)

section Follows

variable {host} {manifestKey} {coldSource : Bool} {trace : Served}

theorem mem_answer (trace : Served) (entry : Entry ServeOp ServeOp.Res) : entry ∈ trace ++ [entry] :=
  List.mem_append_right _ List.mem_cons_self

theorem head_of_prefix {later : Served} {entry : Entry ServeOp ServeOp.Res} (first : trace.head? = some entry)
    (prolonged : trace <+: later) : later.head? = some entry := by
  obtain ⟨rest, rfl⟩ := prolonged
  rw [List.head?_append, first]
  rfl

theorem onCold_ok {α : Type} {p : C α} {fail : Calls → Err → Prop} {value : Calls → α → Prop}
    {failed : Served → Err → Prop} (ok : p.Ok (ColdMay host manifestKey) fail value (coldPart trace)) :
    (onCold (outcome p)).Ok (ServeMay host manifestKey coldSource) failed
      (fun later result => trace <+: later ∧ match result with
        | .error err => fail (coldPart later) err
        | .ok result => value (coldPart later) result) trace := by
  have inner : (outcome p).Ok (ColdMay host manifestKey) (fun _ _ => False) (fun later result => match result with
      | .error err => fail later err
      | .ok result => value later result) (coldPart trace) := Ok.outcome ok
  have outer : (onCold (outcome p)).Ok (ServeMay host manifestKey coldSource) _ _ trace :=
    Ok.embed ServeOp.cold (fun _ answer => answer) coldPart coldPart_cold (fun _ _ allowed => allowed) inner
  refine outer.prolongs.mono ?_ ?_
  · rintro later err ⟨⟨⟩, -⟩
  · intro later result holds
    exact ⟨holds.2, holds.1⟩

theorem serve_all {p : Serve Unit} (ok : p.Ok (ServeMay host manifestKey coldSource)
      (fun later _ => Answered host manifestKey coldSource later)
      (fun later _ => Answered host manifestKey coldSource later) trace) :
    p.run.All (ServeMay host manifestKey coldSource) (fun later _ => Answered host manifestKey coldSource later) trace := by
  refine Prog.All.mono ok.all ?_
  intro later result holds
  cases result with
  | error err => exact holds
  | ok => exact holds

theorem answered_of_hotRange {later : Served} {hot : PeerRange} (first : later.head? = some ⟨.hotRange, hot⟩) :
    Answered host manifestKey coldSource later := by
  intro height answer asked
  rw [first] at asked
  cases asked

theorem cachedAdvertisedRange_ok {failed : Served → Err → Prop} :
    (cachedAdvertisedRange coldSource).Ok (ServeMay host manifestKey coldSource) failed
      (fun later range => (∃ hot, later.head? = some ⟨.hotRange, hot⟩) ∧
        ServeMay host manifestKey coldSource later (.sendStatus range)) [] := by
  unfold cachedAdvertisedRange
  apply Ok.bind
  apply Ok.query ServeOp.hotRange trivial
  intro hot
  have read := mem_answer [] ⟨.hotRange, hot⟩
  split
  · apply Ok.pure
    exact ⟨⟨hot, rfl⟩, hot, read, .inl rfl⟩
  · apply Ok.bind
    apply Ok.query ServeOp.loadCachedRange trivial
    intro cached
    cases cached with
    | none =>
      apply Ok.pure
      exact ⟨⟨hot, rfl⟩, hot, List.mem_append_left _ read, .inl rfl⟩
    | some cached =>
      apply Ok.pure
      exact ⟨⟨hot, rfl⟩, hot, List.mem_append_left _ read, .inr ⟨cached, mem_answer _ _, rfl⟩⟩

theorem sendStatus_follows : (ServeJob.sendStatus.program host manifestKey coldSource).All
    (ServeMay host manifestKey coldSource)
      (fun later _ => Answered host manifestKey coldSource later) [] := by
  apply serve_all
  unfold sendStatus
  apply Ok.bind
  refine cachedAdvertisedRange_ok.mono (fun _ _ holds => holds) ?_
  rintro later range ⟨⟨hot, first⟩, allowed⟩
  apply Ok.query (ServeOp.sendStatus range) allowed
  intro sent
  exact answered_of_hotRange ( head_of_prefix first (List.prefix_append _ _))

theorem refreshAdvertisedRange_follows (opened : Opened host manifestKey) :
    (ServeJob.refreshAdvertisedRange.program host manifestKey coldSource).All
      (ServeMay host manifestKey coldSource)
      (fun later _ => Answered host manifestKey coldSource later) [] := by
  apply serve_all
  apply Ok.bind
  unfold refreshAdvertisedRange
  apply Ok.bind
  apply Ok.query ServeOp.hotRange trivial
  intro hot
  have first : ([⟨.hotRange, hot⟩] : Served).head? = some ⟨.hotRange, hot⟩ := rfl
  split
  · apply Ok.pure
    apply Ok.pure
    exact answered_of_hotRange first
  · apply Ok.bind
    refine (onCold_ok (advertisedRange_calls opened rfl)).mono (fun _ _ holds => holds) ?_
    rintro later result ⟨prolonged, holds⟩
    have first := head_of_prefix first prolonged
    cases result with
    | error err =>
      apply Ok.bind
      apply Ok.query ServeOp.loadCachedRange trivial
      intro cached
      have first := head_of_prefix first (List.prefix_append later [⟨.loadCachedRange, cached⟩])
      cases cached with
      | none =>
        apply Ok.pure
        apply Ok.pure
        exact answered_of_hotRange first
      | some cached =>
        apply Ok.pure
        apply Ok.pure
        exact answered_of_hotRange first
    | ok cold =>
      apply Ok.bind
      apply Ok.query (ServeOp.storeCachedRange cold) holds.2
      intro stored
      apply Ok.pure
      apply Ok.pure
      exact answered_of_hotRange ( head_of_prefix first (List.prefix_append _ _))

theorem respondToColdBlockRequest_ok {fuel : Nat} {height : Int} (opened : Opened host manifestKey)
    (first : trace.head? = some ⟨.loadHotBlock height, none⟩) (free : held (coldPart trace) = .nothing) :
    (respondToColdBlockRequest host manifestKey fuel height).Ok (ServeMay host manifestKey coldSource)
      (fun later _ => Answered host manifestKey coldSource later)
      (fun later _ => Answered host manifestKey coldSource later) trace := by
  -- each way to end is one message
  have denies : ∀ later, later.head? = some ⟨.loadHotBlock height, none⟩ →
      Excused host manifestKey coldSource (coldPart later) height →
      (query (ServeOp.sendNoBlock height) : Serve Unit).Ok (ServeMay host manifestKey coldSource)
        (fun later _ => Answered host manifestKey coldSource later)
        (fun later _ => Answered host manifestKey coldSource later) later := by
    intro later asked excused
    apply Ok.query (ServeOp.sendNoBlock height) ⟨asked, excused⟩
    intro sent other answer again
    cases ( head_of_prefix asked (List.prefix_append _ _)).symm.trans again
    rw [coldPart_other _ rfl]
    exact .inr ⟨rfl, .inl excused⟩
  unfold respondToColdBlockRequest
  apply Ok.bind
  refine (onCold_ok (advertisedRange_calls opened free)).mono (fun _ _ holds => holds) ?_
  rintro later result ⟨prolonged, holds⟩
  have asked := head_of_prefix first prolonged
  cases result with
  | error err => exact denies later asked (.manifest holds.2)
  | ok advertised =>
    dsimp only
    split
    next outside =>
      apply denies later asked
      rcases holds.2 with ⟨⟨err, gives⟩, -⟩ | ⟨m, gives, rfl⟩
      · exact .manifest gives
      · exact .outside gives outside
    next =>
      apply Ok.bind
      refine (onCold_ok (loadBlock_calls opened holds.1)).mono (fun _ _ holds => holds) ?_
      rintro further result ⟨prolonged, holds⟩
      have asked := head_of_prefix asked prolonged
      cases result with
      | error err => exact denies further asked (.unloaded holds.2.1)
      | ok block =>
        apply Ok.query (ServeOp.sendBlock block) ⟨height, .inr ⟨asked, holds.2⟩⟩
        intro sent other answer again
        exact .inl ⟨block, mem_answer _ _⟩

theorem respondToBlockRequest_follows {fuel : Nat} {height : Int} (opened : Opened host manifestKey) :
    ((ServeJob.respondToBlockRequest fuel height).program host manifestKey coldSource).All
      (ServeMay host manifestKey coldSource)
      (fun later _ => Answered host manifestKey coldSource later) [] := by
  apply serve_all
  unfold respondToBlockRequest
  apply Ok.bind
  apply Ok.query (ServeOp.loadHotBlock height) rfl
  intro found
  cases found with
  | some block =>
    apply Ok.query (ServeOp.sendBlock block) ⟨height, .inl rfl⟩
    intro sent other answer asked
    exact .inl ⟨block, mem_answer _ _⟩
  | none =>
    dsimp only
    split
    next =>
      apply Ok.bind
      apply Ok.query (ServeOp.enqueueColdBlockRequest height) trivial
      intro queued
      cases queued with
      | true => exact respondToColdBlockRequest_ok opened rfl rfl
      | false =>
        apply Ok.pure
        intro other answer asked
        cases asked
        exact .inr ⟨rfl, .inr (mem_answer _ _)⟩
    next missing =>
      have excused : coldSource = false := by simpa using missing
      apply Ok.query (ServeOp.sendNoBlock height) ⟨rfl, .noSource excused⟩
      intro sent other answer asked
      cases asked
      exact .inr ⟨rfl, .inl (.noSource excused)⟩

theorem ServeJob.follows (opened : Opened host manifestKey) (job : ServeJob) :
    (job.program host manifestKey coldSource).All (ServeMay host manifestKey coldSource)
      (fun later _ => Answered host manifestKey coldSource later) [] := by
  cases job with
  | sendStatus => exact sendStatus_follows
  | refreshAdvertisedRange => exact refreshAdvertisedRange_follows opened
  | respondToBlockRequest fuel height => exact respondToBlockRequest_follows opened

end Follows

section Steps

variable {n n' : Node contentOf}

theorem ServeEffect.still {honest : ObjectStore contentOf → (op : Op) → op.Res → Prop} {patient : Prop} {op : ServeOp}
    {answer : op.Res} (taken : ServeEffect honest patient op n answer n') (other : coldEntry ⟨op, answer⟩ = none) :
    n'.cold = n.cold := by
  cases op with
  | cold op => cases other
  | hotRange | loadHotBlock | loadCachedRange => rw [taken.2]
  | storeCachedRange | enqueueColdBlockRequest | sendStatus | sendBlock | sendNoBlock => rw [taken]

theorem ServeEffect.store {honest : ObjectStore contentOf → (op : Op) → op.Res → Prop} {patient : Prop} {op : ServeOp}
    {answer : op.Res} (taken : ServeEffect honest patient op n answer n') : n'.cold.store = n.cold.store := by
  cases other : coldEntry ⟨op, answer⟩ with
  | none => rw [taken.still other]
  | some entry =>
    cases op with
    | cold op =>
      obtain ⟨cold, effect, rfl⟩ := taken
      obtain ⟨source, rfl, -⟩ := effect.move
      rfl
    | _ => cases other

end Steps

section Sample

abbrev NodeMachine := Machine (Node spelledContent) ServeOp ServeOp.Res (Except Err Unit)

def serveNode : (op : ServeOp) → Node spelledContent → Option (op.Res × Node spelledContent)
  | .cold op, n => (serveCold op n.cold).map fun served => (served.1, { n with cold := served.2 })
  | .hotRange, n => some (hotRange n.hot, n)
  | .loadHotBlock height, n => some (n.hot.load height, n)
  | .loadCachedRange, n => some (n.cachedRange, n)
  | .storeCachedRange range, n => some ((), { n with cachedRange := some range })
  | .enqueueColdBlockRequest _, n => some (true, n)
  | .sendStatus _, n => some ((), n)
  | .sendBlock _, n => some ((), n)
  | .sendNoBlock _, n => some ((), n)

theorem serveNode_effect (patient : Prop) (op : ServeOp) (n : Node spelledContent) (given : op.Res)
    (after : Node spelledContent) (served : serveNode op n = some (given, after)) :
    ServeEffect (fun s => Faithful s) patient op n given after := by
  cases op with
  | cold op =>
    obtain ⟨⟨answer, cold⟩, answered, same⟩ := Option.map_eq_some_iff.mp served
    cases same
    exact ⟨cold, serveCold_effect op n.cold answer cold answered, rfl⟩
  | hotRange | loadHotBlock | loadCachedRange =>
    cases served
    exact ⟨rfl, rfl⟩
  | storeCachedRange | enqueueColdBlockRequest | sendStatus | sendBlock | sendNoBlock =>
    cases served
    exact rfl

theorem serveNode_truthful (patient : Prop) (op : ServeOp) (n : Node spelledContent) (given : op.Res)
    (after : Node spelledContent) (served : serveNode op n = some (given, after)) :
    ServeEffect (fun s => Truthful s) patient op n given after := by
  have effect := serveNode_effect patient op n given after served
  cases op with
  | cold op =>
    obtain ⟨cold, taken, same⟩ := effect
    exact ⟨cold, taken.mono (fun _ _ _ => Faithful.truthful) id, same⟩
  | _ => exact effect

def shortNode (archived hot : List UInt8) : Node spelledContent :=
  ⟨⟨shortObjects archived, shortSource, 0⟩, shortHot hot, none⟩

end Sample

end CometArchive.Blocksync
