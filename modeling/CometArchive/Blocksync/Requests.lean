import CometArchive.Blocksync.Answered
import CometArchive.Blocksync.SegmentCache

set_option autoImplicit false

namespace CometArchive.Blocksync

open GoBytes GoError Archive Programs Programs.Fallible Runs

variable {V : Type} {host : Host V} {manifestKey : String} {coldSource : Bool} {contentOf : String → Bytes}
  {n n' : Node contentOf} {trace theirs : Served} {height : Int}

structure Ready (host : Host V) (manifestKey : String) (n : Node contentOf) : Prop where
  cited : Cited host manifestKey n
  stocked : Stocked host manifestKey n.cold

structure Knows (host : Host V) (manifestKey : String) (n : Node contentOf) (trace : Served) : Prop where
  tells : ∀ entry ∈ trace, Tells host manifestKey n entry
  owns : Owns host manifestKey n.cold (coldPart trace)

def Separate (trace theirs : Served) : Prop := Apart (coldPart trace) (coldPart theirs)

section Steps

theorem Owns.orderly {w w' : World contentOf} {calls : Calls} (owns : Owns host manifestKey w calls)
    (orderly : KeepsLoads host manifestKey w w')
    (kept : ∀ text flight answer, held calls = .segment text flight answer → w.source.flights text = some flight →
      w'.source.flights text = some flight) : Owns host manifestKey w' calls where
  serves entry member := (owns.serves entry member).orderly orderly
  manifest flight answer holds := (owns.manifest flight answer holds).trans_le orderly.fresh
  segment text flight answer holds := kept text flight answer holds (owns.segment text flight answer holds)

theorem Ready.step {op : ServeOp} {answer : op.Res} (opened : Opened host manifestKey) (ready : Ready host manifestKey n)
    (knows : Knows host manifestKey n trace) (allowed : ServeMay host manifestKey coldSource trace op)
    (taken : ServeEffect (fun s => Faithful s) True op n answer n') :
    Ready host manifestKey n' ∧ Knows host manifestKey n' (trace ++ [⟨op, answer⟩]) ∧
      ∀ theirs, Knows host manifestKey n theirs → Separate trace theirs →
        Knows host manifestKey n' theirs ∧ Separate (trace ++ [⟨op, answer⟩]) theirs := by
  obtain ⟨cited, stable, told⟩ := serving_keeps opened (fun _ _ _ faithful => faithful.truthful)
    trace op n answer n' ready.cited knows.tells allowed taken
  have tells : ∀ entry ∈ trace ++ [⟨op, answer⟩], Tells host manifestKey n' entry := by
    intro entry member
    rcases List.mem_append.mp member with old | new
    · exact stable entry (knows.tells entry old)
    · cases List.mem_singleton.mp new
      exact told
  cases other : coldEntry ⟨op, answer⟩ with
  | none =>
    have same := taken.still other
    have part := coldPart_other trace other
    refine ⟨⟨cited, same ▸ ready.stocked⟩, ⟨tells, ?_⟩, ?_⟩
    · rw [part, same]
      exact knows.owns
    · intro theirs known apart
      refine ⟨⟨fun entry member => stable entry (known.tells entry member), same ▸ known.owns⟩, ?_⟩
      unfold Separate
      rwa [part]
  | some entry =>
    cases op with
    | cold op =>
      obtain ⟨cold, effect, rfl⟩ := taken
      obtain ⟨source, rfl, move⟩ := effect.move
      have listed : ∀ segment, Listed host manifestKey (coldPart trace) segment →
          Published host manifestKey n.cold.store segment := by
        rintro segment ⟨m, gives, member⟩
        exact (gives.covered knows.tells).published member
      have moved := ready.stocked.move knows.owns listed allowed move
      refine ⟨⟨cited, moved.stocked⟩, ⟨tells, ?_⟩, ?_⟩
      · rw [coldPart_cold]
        refine ⟨?_, ?_, ?_⟩
        · intro entry member
          rcases List.mem_append.mp member with old | new
          · exact (knows.owns.serves entry old).orderly moved.orderly
          · cases List.mem_singleton.mp new
            exact moved.serves
        · intro flight answer holds
          rw [held_snoc] at holds
          exact moved.manifest flight answer holds
        · intro text flight answer holds
          rw [held_snoc] at holds
          exact (moved.segment text flight answer holds).1
      · intro theirs known apart
        refine ⟨⟨fun entry member => stable entry (known.tells entry member), ?_⟩, ?_⟩
        · refine known.owns.orderly moved.orderly ?_
          intro text flight found holds flying
          -- a load ends with the process that holds it
          rcases moved.releases text flight flying with kept | ⟨mine, held'⟩
          · exact kept
          · exact absurd holds (apart text flight mine found held')
        · intro text flight mine found holds
          rw [coldPart_cold, held_snoc] at holds
          obtain ⟨-, ⟨before, held'⟩ | free⟩ := moved.segment text flight mine holds
          · exact apart text flight before found held'
          · intro again
            have flying := known.owns.segment text flight found again
            rw [free] at flying
            cases flying
    | _ => cases other

theorem Stocked.archives {w : World contentOf} {store : ObjectStore contentOf} (stocked : Stocked host manifestKey w)
    (archives : Archives host manifestKey w.store store) :
    Stocked host manifestKey { w with store } ∧ KeepsLoads host manifestKey w { w with store } := by
  refine ⟨⟨archives.whole, ?_, stocked.flying, stocked.distinct, stocked.unborn, stocked.manifestFlying⟩, ?_⟩
  · intro text element found
    exact (stocked.segments text element found).grows archives
  · exact ⟨fun _ _ right => right.grows archives, fun _ published => published.grows archives.grows,
      fun _ _ decodes => decodes.keeps archives.keeps, fun _ _ done => done, fun _ _ flying => .inl flying, le_rfl⟩

theorem Ready.changes {change : Change contentOf} (ready : Ready host manifestKey n)
    (changed : Changes host manifestKey (Archives host manifestKey) n change n') :
    Ready host manifestKey n' ∧ ∀ trace, Knows host manifestKey n trace → Knows host manifestKey n' trace := by
  obtain ⟨cited, stable⟩ := serving_envKeeps (fun _ _ archives => archives.grows) n change n' ready.cited changed
  have moved : Stocked host manifestKey n'.cold ∧ KeepsLoads host manifestKey n.cold n'.cold ∧
      n'.cold.source = n.cold.source := by
    have same : KeepsLoads host manifestKey n.cold n.cold := .still rfl rfl rfl le_rfl
    cases change with
    | persist block =>
      obtain ⟨-, hot, -, rfl⟩ := changed
      exact ⟨ready.stocked, same, rfl⟩
    | publish store =>
      obtain ⟨archives, rfl⟩ := changed
      obtain ⟨stocked, orderly⟩ := ready.stocked.archives archives
      exact ⟨stocked, orderly, rfl⟩
    | prune snapshot opts ctx fault =>
      obtain ⟨-, hot, result, -, rfl⟩ := changed
      exact ⟨ready.stocked, same, rfl⟩
    | wait time =>
      obtain ⟨-, rfl⟩ := changed
      refine ⟨?_, .still rfl rfl rfl le_rfl, rfl⟩
      exact ⟨ready.stocked.whole, ready.stocked.segments, ready.stocked.flying, ready.stocked.distinct,
        ready.stocked.unborn, ready.stocked.manifestFlying⟩
  obtain ⟨stocked, orderly, source⟩ := moved
  refine ⟨⟨cited, stocked⟩, ?_⟩
  intro trace knows
  refine ⟨fun entry member => stable entry (knows.tells entry member), knows.owns.orderly orderly ?_⟩
  intro text flight answer _ flying
  rwa [source]

theorem Knows.start (n : Node contentOf) : Knows host manifestKey n [] := by
  refine ⟨by simp, by simp [coldPart], ?_, ?_⟩
  · intro flight answer holds
    cases holds
  · intro text flight answer holds
    cases holds

theorem Separate.start (theirs : Served) : Separate [] theirs := by
  intro text flight answer found holds
  cases holds

theorem Separate.symm (apart : Separate trace theirs) : Separate theirs trace := by
  intro text flight answer found holds again
  exact apart text flight found answer again holds

end Steps

section Replies

theorem GivesRecords.decodes {s : ObjectStore contentOf} {calls : Calls} {segment : SegmentManifest}
    {result : Except Err (List BlockRecord)} (json : host.json.Lawful) (whole : Whole host manifestKey s)
    (published : Published host manifestKey s segment)
    (cached : ∀ text records, ⟨.enterSegment text, .cached records⟩ ∈ calls → Right host manifestKey s text (.ok records))
    (awaited : ∀ text flight answer, ⟨.enterSegment text, .follow flight⟩ ∈ calls → ⟨.awaitSegment flight, answer⟩ ∈ calls →
      Right host manifestKey s text answer)
    (read : ∀ answer, ⟨.store (.get segment.key), answer⟩ ∈ calls →
      ∃ records, readRecords host segment answer = .ok records ∧ DecodesTo host s segment records)
    (slots : ∀ err, ⟨.acquireSlot, .error err⟩ ∉ calls) (gives : GivesRecords host calls segment result) :
    ∃ records, result = .ok records ∧ DecodesTo host s segment records := by
  cases gives with
  | cached marshalled entry => exact (cached _ _ entry).decodes whole published marshalled
  | followed marshalled follows entry => exact (awaited _ _ _ follows entry).decodes whole published marshalled
  | read entry => exact read _ entry
  | noSlot entry => exact absurd entry (slots _)
  | noText failed =>
    obtain ⟨text, marshalled⟩ := json.segment segment
    rw [failed] at marshalled
    cases marshalled

theorem Owns.decodes {w : World contentOf} {calls : Calls} {segment : SegmentManifest}
    {result : Except Err (List BlockRecord)} (owns : Owns host manifestKey w calls) (json : host.json.Lawful)
    (stocked : Stocked host manifestKey w) (published : Published host manifestKey w.store segment)
    (gives : GivesRecords host calls segment result) :
    ∃ records, result = .ok records ∧ DecodesTo host w.store segment records := by
  refine gives.decodes json stocked.whole published (fun _ _ entry => owns.serves _ entry) ?_
    (fun _ entry => owns.read published entry) fun _ entry => owns.serves _ entry
  intro text flight answer follows entry
  have joined : w.source.fetches.Joined (Right host manifestKey w.store) text flight := owns.serves _ follows
  exact joined.ended_right stocked.fetches (owns.serves _ entry)

theorem Loaded.names {block : Block} (json : host.json.Lawful) (ready : Ready host manifestKey n)
    (knows : Knows host manifestKey n trace) (loaded : Loaded host manifestKey (coldPart trace) height block) :
    ∃ m, Loads host manifestKey n.cold.store m ∧ m.Names host.comet height block := by
  -- a block that was loaded is the one that the published manifest names
  obtain ⟨m, segment, records, record, gives, found, loaded, position, read⟩ := loaded
  obtain ⟨member, above, below⟩ := ArchiveBlockSource.segmentForHeight_mem found
  obtain ⟨current, loads, listed⟩ := (gives.covered knows.tells).published member
  obtain ⟨_, same, decodes⟩ := knows.owns.decodes json ready.stocked ⟨current, loads, listed⟩ loaded
  cases same
  obtain ⟨other, named, there, again, names⟩ := decodesTo_block decodes listed above below
  rw [recordAt, if_neg (by omega), there] at position
  cases position
  cases read.symm.trans again
  exact ⟨current, loads, names⟩

theorem Gives.reached {w : World contentOf} {calls : Calls} {result : Except Err Manifest}
    (hears : ∀ entry ∈ calls, Hears host manifestKey height w entry) (gives : Gives host manifestKey calls result) :
    Reached height result := by
  cases gives with
  | cached entry => exact hears _ entry
  | followed entry => exact hears _ entry
  | read entry => exact hears _ entry rfl
  | full entry => exact (hears _ entry).elim

theorem not_excused (json : host.json.Lawful) (ready : Ready host manifestKey n) (knows : Knows host manifestKey n trace)
    (warm : Warm host manifestKey height n.cold)
    (hears : ∀ entry ∈ coldPart trace, Hears host manifestKey height n.cold entry) :
    ¬ Excused host manifestKey true (coldPart trace) height := by
  have refused : ∀ err, ¬ Gives host manifestKey (coldPart trace) (.error err) := by
    intro err gives
    obtain ⟨m, hash, impossible, -⟩ := gives.reached hears
    cases impossible
  have given : ∀ m, Gives host manifestKey (coldPart trace) (.ok m) → m.Valid ∧ 0 < m.firstHeight ∧
      m.firstHeight ≤ height ∧ height ≤ m.lastHeight := by
    intro m gives
    obtain ⟨_, hash, same, indexed⟩ := gives.reached hears
    cases same
    have valid := (gives.covered knows.tells).1
    exact ⟨valid, valid.bounds indexed⟩
  have decodes : ∀ m segment result, Gives host manifestKey (coldPart trace) (.ok m) →
      ArchiveBlockSource.segmentForHeight m.segments height = some segment →
      GivesRecords host (coldPart trace) segment result →
      ∃ records, result = .ok records ∧ DecodesTo host n.cold.store segment records := by
    intro m segment result gives found records
    have member := (ArchiveBlockSource.segmentForHeight_mem found).1
    exact knows.owns.decodes json ready.stocked ((gives.covered knows.tells).published member) records
  intro excused
  cases excused with
  | noSource impossible => cases impossible
  | manifest gives => exact refused _ gives
  | @outside m gives outside =>
    obtain ⟨-, positive, low, high⟩ := given m gives
    rw [manifestRange, if_neg (by omega), PeerRange.contains_iff.mpr ⟨low, high⟩] at outside
    cases outside
  | unloaded unloaded =>
    cases unloaded with
    | below low =>
      obtain ⟨m, hash, loads, indexed⟩ := warm.current
      have bounds := loads.valid.bounds indexed
      omega
    | manifest gives => exact refused _ gives
    | @segment m gives missing =>
      obtain ⟨valid, positive, low, high⟩ := given m gives
      rcases valid.range with ⟨-, first, -⟩ | ⟨-, -, -, tiles⟩
      · omega
      · obtain ⟨segment, found⟩ := ArchiveBlockSource.segmentForHeight_covers tiles valid.segments low (by omega)
        rw [missing] at found
        cases found
    | @records m segment err gives found failed =>
      obtain ⟨records, impossible, -⟩ := decodes m segment _ gives found failed
      cases impossible
    | @record m segment records gives found loaded missing =>
      obtain ⟨_, same, decodes⟩ := decodes m segment _ gives found loaded
      cases same
      obtain ⟨member, above, below⟩ := ArchiveBlockSource.segmentForHeight_mem found
      obtain ⟨record, block, position, read, -⟩ := decodesTo_block decodes member above below
      refine missing record ?_ block read
      rw [recordAt, if_neg (by omega), position]

def Replies (host : Host V) (manifestKey : String) (height : Int) (hot : Option Block) (n : Node contentOf) :
    Entry ServeOp ServeOp.Res → Prop
  -- what a request for the height that found `hot` in the hot store may be answered with
  | ⟨.sendNoBlock _, _⟩ => False
  | ⟨.sendBlock block, _⟩ => block.height = height ∧ (hot = some block ∨
      hot = none ∧ ∃ m, Loads host manifestKey n.cold.store m ∧ m.Names host.comet height block)
  | _ => True

theorem Replies.later {hot : Option Block} {entry : Entry ServeOp ServeOp.Res}
    (replies : Replies host manifestKey height hot n entry) (grows : Grows host manifestKey n.cold.store n'.cold.store) :
    Replies host manifestKey height hot n' entry := by
  obtain ⟨op, answer⟩ := entry
  cases op with
  | sendBlock block =>
    obtain ⟨same, found | ⟨missed, m, loads, -, segment, member, indexed⟩⟩ := replies
    · exact ⟨same, .inl found⟩
    · obtain ⟨next, loads, kept⟩ := grows m loads
      exact ⟨same, .inr ⟨missed, next, loads, same, segment, kept member, indexed⟩⟩
  | sendNoBlock => exact replies
  | _ => trivial

structure Heard (host : Host V) (manifestKey : String) (height : Int) (hot : Option Block) (n : Node contentOf)
    (trace : Served) : Prop where
  -- what the process of a request has heard and answered
  hears : hot = none → ∀ entry ∈ coldPart trace, Hears host manifestKey height n.cold entry
  replies : ∀ entry ∈ trace, Replies host manifestKey height hot n entry

end Replies

section Asked

theorem Warm.step {op : ServeOp} {answer : op.Res} (ready : Ready host manifestKey n)
    (warm : Warm host manifestKey height n.cold) (reads : ReadsNew host manifestKey height (coldPart trace))
    (allowed : ServeMay host manifestKey coldSource trace op)
    (taken : ServeEffect (fun s => Faithful s) True op n answer n') :
    Warm host manifestKey height n'.cold ∧ ReadsNew host manifestKey height (coldPart (trace ++ [⟨op, answer⟩])) ∧
      (∀ entry, Hears host manifestKey height n.cold entry → Hears host manifestKey height n'.cold entry) ∧
      ((∀ entry ∈ coldPart trace, Hears host manifestKey height n.cold entry) →
        ∀ entry ∈ coldPart (trace ++ [⟨op, answer⟩]), Hears host manifestKey height n'.cold entry) := by
  cases other : coldEntry ⟨op, answer⟩ with
  | none =>
    rw [coldPart_other trace other, taken.still other]
    exact ⟨warm, reads, fun _ hears => hears, fun hears => hears⟩
  | some entry =>
    cases op with
    | cold op =>
      obtain ⟨cold, effect, rfl⟩ := taken
      obtain ⟨source, rfl, move⟩ := effect.move
      obtain ⟨warm, reads, stable, learned⟩ := warm.move ready.stocked reads allowed move
      rw [coldPart_cold]
      refine ⟨warm, reads, stable, ?_⟩
      intro hears entry member
      rcases List.mem_append.mp member with old | new
      · exact stable entry (hears entry old)
      · cases List.mem_singleton.mp new
        exact learned hears
    | _ => cases other

theorem Warm.changes {change : Change contentOf} (warm : Warm host manifestKey height n.cold)
    (changed : Changes host manifestKey (Archives host manifestKey) n change n') :
    Warm host manifestKey height n'.cold ∧
      ∀ entry, Hears host manifestKey height n.cold entry → Hears host manifestKey height n'.cold entry := by
  have same : ∀ entry, n'.cold.source = n.cold.source → Hears host manifestKey height n.cold entry →
      Hears host manifestKey height n'.cold entry := by
    intro entry source hears
    refine hears.later ?_
    intro flight result found
    rw [source] at found
    exact .inl found
  cases change with
  | persist block =>
    obtain ⟨-, hot, -, rfl⟩ := changed
    exact ⟨warm, fun _ hears => hears⟩
  | publish store =>
    obtain ⟨archives, rfl⟩ := changed
    obtain ⟨m, hash, loads, segment, member, indexed⟩ := warm.current
    obtain ⟨next, loads, kept⟩ := archives.grows m loads
    exact ⟨⟨⟨next, hash, loads, segment, kept member, indexed⟩, warm.cached⟩, fun entry => same entry rfl⟩
  | prune snapshot opts ctx fault =>
    obtain ⟨-, hot, result, -, rfl⟩ := changed
    exact ⟨warm, fun _ hears => hears⟩
  | wait time =>
    obtain ⟨positive, rfl⟩ := changed
    refine ⟨⟨warm.current, ?_⟩, fun entry => same entry rfl⟩
    intro m loadedAt found
    rcases warm.cached m loadedAt found with reached | off | old
    · exact .inl reached
    · exact .inr (.inl off)
    · exact .inr (.inr (by dsimp only; omega))

theorem Changes.grows {change : Change contentOf}
    (changed : Changes host manifestKey (Archives host manifestKey) n change n') :
    Grows host manifestKey n.cold.store n'.cold.store := by
  have same : Grows host manifestKey n.cold.store n.cold.store := fun m loads => ⟨m, loads, List.Subset.refl _⟩
  cases change with
  | persist block =>
    obtain ⟨-, hot, -, rfl⟩ := changed
    exact same
  | publish store =>
    obtain ⟨archives, rfl⟩ := changed
    exact archives.grows
  | prune snapshot opts ctx fault =>
    obtain ⟨-, hot, result, -, rfl⟩ := changed
    exact same
  | wait time =>
    obtain ⟨-, rfl⟩ := changed
    exact same

variable {hot : Option Block} {id : Nat}

def Asked (host : Host V) (manifestKey : String) (height : Int) (hot : Option Block) (n : Node contentOf) : Prop :=
  Ready host manifestKey n ∧ (hot = none → Warm host manifestKey height n.cold)

structure Awaited (host : Host V) (manifestKey : String) (height : Int) (hot : Option Block) (id : Nat) (process : Nat)
    (n : Node contentOf) (trace : Served) : Prop where
  knows : Knows host manifestKey n trace
  reads : hot = none → ReadsNew host manifestKey height (coldPart trace)
  heard : process = id → trace.head? = some ⟨.loadHotBlock height, hot⟩ → Heard host manifestKey height hot n trace

theorem Heard.step {op : ServeOp} {answer : op.Res} (json : host.json.Lawful)
    (named : ∀ block, hot = some block → block.height = height) (asked : Asked host manifestKey height hot n)
    (awaited : Awaited host manifestKey height hot id id n trace)
    (allowed : ServeMay host manifestKey true trace op)
    (taken : ServeEffect (fun s => Faithful s) True op n answer n')
    (first : trace.head? = some ⟨.loadHotBlock height, hot⟩) :
    Heard host manifestKey height hot n' (trace ++ [⟨op, answer⟩]) := by
  have heard := awaited.heard rfl first
  have same : Grows host manifestKey n.cold.store n'.cold.store := by
    rw [taken.store]
    exact fun m loads => ⟨m, loads, List.Subset.refl _⟩
  refine ⟨?_, ?_⟩
  · intro missed
    exact ((asked.2 missed).step asked.1 (awaited.reads missed) allowed taken).2.2.2 (heard.hears missed)
  · intro entry member
    rcases List.mem_append.mp member with old | new
    · exact (heard.replies entry old).later same
    · cases List.mem_singleton.mp new
      cases op with
      | sendNoBlock other =>
        obtain ⟨again, excused⟩ := allowed
        cases first.symm.trans again
        exact not_excused json asked.1 awaited.knows (asked.2 rfl) (heard.hears rfl) excused
      | sendBlock block =>
        obtain ⟨other, again | ⟨again, loaded⟩⟩ := allowed
        · cases first.symm.trans again
          exact ⟨named block rfl, .inl rfl⟩
        · cases first.symm.trans again
          obtain ⟨m, loads, names⟩ := loaded.names json asked.1 awaited.knows
          refine ⟨names.1, .inr ⟨rfl, m, ?_, names⟩⟩
          rw [taken.store]
          exact loads
      | _ => trivial

end Asked

section Requests

variable {m : Machine (Node contentOf) ServeOp ServeOp.Res (Except Err Unit)}

theorem newSource_stocked {w : World contentOf} {made : ArchiveBlockSource} {ttl : Int}
    (created : newArchiveBlockSource host manifestKey = .ok made)
    (tuned : made.setManifestCacheTTL ttl = .ok w.source) (whole : Whole host manifestKey w.store) :
    Stocked host manifestKey w := by
  unfold newArchiveBlockSource at created
  rw [then_eq_ok, then_eq_ok, then_eq_ok] at created
  obtain ⟨-, -, -, same⟩ := created
  cases same
  unfold ArchiveBlockSource.setManifestCacheTTL at tuned
  rw [then_eq_ok] at tuned
  have source := Except.ok.inj tuned.2
  refine ⟨whole, ?_, ?_, ?_, ?_, ?_⟩
  all_goals rw [← source]
  · intro text element found
    cases found
  · intro text flight flying
    cases flying
  · intro text other flight flying
    cases flying
  · intro flight _
    exact ⟨rfl, rfl⟩
  · intro flight flying
    cases flying

/-- What the cold source may still answer by has the height: the manifest in its cache, and those that calls
have read but not yet handed over. It only matters for a height that is not in the hot store. -/
def Current (host : Host V) (manifestKey : String) (height : Int)
    (m : Machine (Node contentOf) ServeOp ServeOp.Res (Except Err Unit)) : Prop :=
  m.shared.hot.load height = none →
    (∀ cached, m.shared.cold.source.freshManifest m.shared.cold.now = some cached → ∃ hash, cached.Indexes height hash) ∧
    ∀ process proc flight answer, m.procs process = some proc →
      held (coldPart proc.trace) = .manifest flight (some answer) → Reached height (readManifest host manifestKey answer)

theorem Current.warm (current : Current host manifestKey height m) (available : Available host manifestKey m.shared height)
    (missed : m.shared.hot.load height = none) : Warm host manifestKey height m.shared.cold := by
  refine ⟨?_, ?_⟩
  · rcases available with ⟨block, found⟩ | archived
    · rw [missed] at found
      cases found
    · exact archived
  · intro cached loadedAt found
    by_cases young : 0 < m.shared.cold.source.manifestCacheTTL ∧
        m.shared.cold.now - loadedAt < m.shared.cold.source.manifestCacheTTL
    · refine .inl ((current missed).1 cached ?_)
      rw [ArchiveBlockSource.freshManifest, found]
      exact if_pos young
    · omega

end Requests

section Sample

theorem short_whole {codes : List UInt8} (intact : Intact shortHost "m" (shortObjects codes) (shortLoaded codes))
    (texts : ∀ a ∈ codes, ∀ b ∈ codes, UInt8.ofNat (shortSegment a).firstHeight.toNat =
      UInt8.ofNat (shortSegment b).firstHeight.toNat → shortSegment a = shortSegment b) :
    Whole shortHost "m" (shortObjects codes) := by
  refine whole_of_intact intact ?_
  intro a left b right text first second
  obtain ⟨one, listed, rfl⟩ := List.mem_map.mp left
  obtain ⟨other, listed', rfl⟩ := List.mem_map.mp right
  have same : (.ok [UInt8.ofNat (shortSegment one).firstHeight.toNat] : Except String Bytes) =
      .ok [UInt8.ofNat (shortSegment other).firstHeight.toNat] := first.trans second.symm
  exact texts one listed other listed' (List.cons.inj (Except.ok.inj same)).1

theorem shortObjects_whole : Whole shortHost "m" (shortObjects [1]) ∧ Whole shortHost "m" (shortObjects [1, 2]) :=
  ⟨short_whole shortObjects_intact.1 (by decide +kernel), short_whole shortObjects_intact.2 (by decide +kernel)⟩

def ended : Proc ServeOp ServeOp.Res (Except Err Unit) → Bool
  | ⟨.ret _, _⟩ => true
  | _ => false

def denies (height : Int) : Proc ServeOp ServeOp.Res (Except Err Unit) → Bool
  | ⟨.call (.sendNoBlock denied) _, _⟩ => denied == height
  | _ => false

end Sample

end CometArchive.Blocksync
