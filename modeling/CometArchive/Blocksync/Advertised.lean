import CometArchive.Archive.Fleet
import CometArchive.Blocksync.Serving

set_option autoImplicit false

namespace CometArchive.Blocksync

open GoBytes GoError Archive Programs Programs.Fallible Runs

structure PeerRange.Proper (r : PeerRange) : Prop where
  positive : 0 < r.base
  ordered : r.base ≤ r.height
  bounded : r.height ≤ maxInt64

def PeerRange.Within (kind : Int → Prop) (r : PeerRange) : Prop :=
  r = ⟨0, 0⟩ ∨ r.Proper ∧ ∀ height, r.contains height = true → kind height

theorem PeerRange.contains_iff {r : PeerRange} {height : Int} : r.contains height = true ↔ r.base ≤ height ∧ height ≤ r.height := by
  simp [PeerRange.contains]

theorem PeerRange.Within.mono {kind kind' : Int → Prop} {r : PeerRange} (within : r.Within kind)
    (weaker : ∀ height, kind height → kind' height) : r.Within kind' := by
  rcases within with empty | ⟨proper, all⟩
  · exact .inl empty
  · exact .inr ⟨proper, fun height inside => weaker height (all height inside)⟩

section Merge

variable {cold hot : PeerRange}

theorem wrap64_next {value : Int} (positive : 0 < value) (bounded : value ≤ maxInt64) :
    wrap64 (value + 1) = if value = maxInt64 then -2 ^ 63 else value + 1 := by
  unfold maxInt64 at *
  split
  next same =>
    subst same
    decide
  next => exact wrap64_of_bounds _ (by omega) (by omega)

theorem PeerRange.Proper.gap (first : cold.Proper) (second : hot.Proper) :
    wrap64 (cold.height + 1) < hot.base ↔ cold.height + 1 < hot.base ∨ cold.height = maxInt64 := by
  -- the comparison with the wrapped sum finds a gap wherever there is one
  obtain ⟨positive, ordered, bounded⟩ := first
  obtain ⟨positive', ordered', bounded'⟩ := second
  rw [wrap64_next (by omega) bounded]
  split
  next same => exact ⟨fun _ => .inr same, fun _ => by omega⟩
  next differ => exact ⟨.inl, fun either => either.resolve_right differ⟩

theorem mergeAdvertisedRanges_empty_hot (formed : cold = ⟨0, 0⟩ ∨ cold.Proper) :
    mergeAdvertisedRanges cold ⟨0, 0⟩ = cold := by
  rcases formed with rfl | proper
  · rfl
  · have positive := proper.positive
    have ordered := proper.ordered
    unfold mergeAdvertisedRanges
    rw [if_neg (by omega), if_pos rfl]

theorem mergeAdvertisedRanges_proper (first : cold.Proper) (second : hot.Proper) :
    mergeAdvertisedRanges cold hot =
      if (cold.height + 1 < hot.base ∨ cold.height = maxInt64) ∨ hot.height + 1 < cold.base ∨ hot.height = maxInt64 then
        if cold.height ≤ hot.height then hot else cold
      else ⟨min hot.base cold.base, max hot.height cold.height⟩ := by
  have filled := first.positive.trans_le first.ordered
  have filled' := second.positive.trans_le second.ordered
  unfold mergeAdvertisedRanges
  rw [if_neg (by omega), if_neg (by omega)]
  simp only [first.gap second, second.gap first]

theorem mergeAdvertisedRanges_within {kind : Int → Prop} (first : cold.Within kind) (second : hot.Within kind) :
    (mergeAdvertisedRanges cold hot).Within kind := by
  rcases first with rfl | ⟨proper, all⟩
  · exact second
  rcases second with rfl | ⟨proper', all'⟩
  · rw [mergeAdvertisedRanges_empty_hot (.inr proper)]
    exact .inr ⟨proper, all⟩
  rw [mergeAdvertisedRanges_proper proper proper']
  split
  next =>
    split
    · exact .inr ⟨proper', all'⟩
    · exact .inr ⟨proper, all⟩
  next joined =>
    obtain ⟨positive, ordered, bounded⟩ := proper
    obtain ⟨positive', ordered', bounded'⟩ := proper'
    refine .inr ⟨⟨by dsimp only; omega, by dsimp only; omega, by dsimp only; omega⟩, ?_⟩
    intro height inside
    rw [PeerRange.contains_iff] at inside
    dsimp only at inside
    by_cases here : cold.base ≤ height ∧ height ≤ cold.height
    · exact all height (PeerRange.contains_iff.mpr here)
    · exact all' height (PeerRange.contains_iff.mpr (by omega))

end Merge

section Status

variable {V : Type} {host : Host V} {manifestKey : String} {coldSource : Bool} {contentOf : String → Bytes}
  {n n' : Node contentOf}

structure Cited (host : Host V) (manifestKey : String) (n : Node contentOf) : Prop where
  -- what is kept of manifests was published, and the cached range is that of such a manifest
  cached : ∀ m loadedAt, n.cold.source.cachedManifest = some (m, loadedAt) → Covered host manifestKey n.cold.store m
  loads : ∀ flight m, n.cold.source.manifestLoads flight = some (.ok m) → Covered host manifestKey n.cold.store m
  range : ∀ range, n.cachedRange = some range → range.Within (Available host manifestKey n)
  bounded : n.hot.height ≤ maxInt64

def Tells (host : Host V) (manifestKey : String) (n : Node contentOf) : Entry ServeOp ServeOp.Res → Prop
  | ⟨.cold .enterManifest, .cached m⟩ => Covered host manifestKey n.cold.store m
  | ⟨.cold (.awaitManifest _), .ok m⟩ => Covered host manifestKey n.cold.store m
  | ⟨.cold (.store (.getVersioned key)), answer⟩ => key = manifestKey →
      ∀ m, readManifest host manifestKey answer = .ok m → Covered host manifestKey n.cold.store m
  | ⟨.hotRange, range⟩ => range.Within (Available host manifestKey n)
  | ⟨.loadCachedRange, some range⟩ => range.Within (Available host manifestKey n)
  | _ => True

structure Later (host : Host V) (manifestKey : String) (n n' : Node contentOf) : Prop where
  covered : ∀ m, Covered host manifestKey n.cold.store m → Covered host manifestKey n'.cold.store m
  available : ∀ height, Available host manifestKey n height → Available host manifestKey n' height

theorem Later.of_eq (store : n'.cold.store = n.cold.store) (hot : n'.hot = n.hot) : Later host manifestKey n n' := by
  refine ⟨fun m covered => by rwa [store], ?_⟩
  intro height available
  unfold Available
  rwa [store, hot]

theorem Tells.later {entry : Entry ServeOp ServeOp.Res} (tells : Tells host manifestKey n entry)
    (later : Later host manifestKey n n') : Tells host manifestKey n' entry := by
  obtain ⟨op, answer⟩ := entry
  cases op with
  | cold op =>
    cases op with
    | enterManifest =>
      cases answer with
      | cached m => exact later.covered m tells
      | _ => trivial
    | awaitManifest flight =>
      cases answer with
      | ok m => exact later.covered m tells
      | error err => trivial
    | store op =>
      cases op with
      | getVersioned key => exact fun named m read => later.covered m (tells named m read)
      | _ => trivial
    | _ => trivial
  | hotRange => exact PeerRange.Within.mono tells later.available
  | loadCachedRange =>
    cases answer with
    | some range => exact PeerRange.Within.mono tells later.available
    | none => trivial
  | _ => trivial

theorem mem_coldPart {trace : Served} {op : ColdOp} {answer : op.Res} (member : ⟨op, answer⟩ ∈ coldPart trace) :
    (⟨.cold op, answer⟩ : Entry ServeOp ServeOp.Res) ∈ trace := by
  obtain ⟨⟨other, found⟩, listed, same⟩ := List.mem_filterMap.mp member
  cases other with
  | cold other =>
    cases same
    exact listed
  | _ => cases same

theorem Gives.covered {trace : Served} {m : Manifest} (tells : ∀ entry ∈ trace, Tells host manifestKey n entry)
    (gives : Gives host manifestKey (coldPart trace) (.ok m)) : Covered host manifestKey n.cold.store m := by
  generalize same : (Except.ok m : Except Err Manifest) = result at gives
  cases gives with
  | cached entry =>
    cases same
    exact tells _ (mem_coldPart entry)
  | followed entry =>
    subst same
    exact tells _ (mem_coldPart entry)
  | read entry => exact tells _ (mem_coldPart entry) rfl m same.symm
  | full entry => cases same

theorem Covered.within {m : Manifest} (covered : Covered host manifestKey n.cold.store m) :
    (manifestRange m).Within (Available host manifestKey n) := by
  unfold manifestRange
  rcases covered.1.range with ⟨-, -, last⟩ | ⟨filled, positive, ordered, tiles⟩
  · rw [if_pos last]
    exact .inl rfl
  · rw [if_neg (by omega)]
    obtain ⟨segment, member, -, above⟩ := tiles.exists_segment ordered (by omega)
    have bounded := (covered.1.segments segment member).bounded
    refine .inr ⟨⟨positive, ordered, by dsimp only; omega⟩, ?_⟩
    intro height inside
    rw [PeerRange.contains_iff] at inside
    exact covered.available positive inside.1 inside.2

theorem hotRange_within (bounded : n.hot.height ≤ maxInt64) : (hotRange n.hot).Within (Available host manifestKey n) := by
  have range := n.hot.range
  unfold hotRange
  split
  · exact .inl rfl
  next filled =>
    refine .inr ⟨⟨by dsimp only; omega, by dsimp only; omega, bounded⟩, ?_⟩
    intro height inside
    rw [PeerRange.contains_iff] at inside
    exact .inl (BlockStore.exists_load (by omega) inside.1 inside.2)

theorem Cited.later (cited : Cited host manifestKey n) (later : Later host manifestKey n n')
    (source : n'.cold.source = n.cold.source) (range : n'.cachedRange = n.cachedRange)
    (bounded : n'.hot.height ≤ maxInt64) : Cited host manifestKey n' where
  cached m loadedAt found := later.covered m (cited.cached m loadedAt (source ▸ found))
  loads flight m found := later.covered m (cited.loads flight m (source ▸ found))
  range r found := (cited.range r (range ▸ found)).mono later.available
  bounded := bounded

theorem Cited.cold {honest : ObjectStore contentOf → (op : Op) → op.Res → Prop} {patient : Prop} {trace : Served}
    {op : ColdOp} {answer : op.Res} {source : ArchiveBlockSource} (opened : Opened host manifestKey)
    (truthful : ∀ s op answer, honest s op answer → Truthful s op answer) (cited : Cited host manifestKey n)
    (tells : ∀ entry ∈ trace, Tells host manifestKey n entry) (allowed : ColdMay host manifestKey (coldPart trace) op)
    (move : ColdMove honest patient n.cold op answer source) :
    Cited host manifestKey { n with cold := { n.cold with source } } ∧
      Tells host manifestKey { n with cold := { n.cold with source } } ⟨.cold op, answer⟩ := by
  have still : ∀ source, source.cachedManifest = n.cold.source.cachedManifest →
      source.manifestLoads = n.cold.source.manifestLoads →
      Cited host manifestKey { n with cold := { n.cold with source } } := by
    intro source cached loads
    exact ⟨fun m loadedAt found => cited.cached m loadedAt (cached ▸ found),
      fun flight m found => cited.loads flight m (loads ▸ found), cited.range, cited.bounded⟩
  cases move with
  | @store op answer answered =>
    refine ⟨cited, ?_⟩
    cases op with
    | getVersioned key =>
      rintro rfl m read
      cases answer with
      | error err => cases read
      | ok found =>
        have loads := readManifest_loads opened (truthful _ _ _ answered) read
        exact ⟨loads.valid, m, loads, List.Subset.refl _⟩
    | _ => trivial
  | cachedManifest fresh =>
    obtain ⟨loadedAt, found, -⟩ := ArchiveBlockSource.freshManifest_cached fresh
    exact ⟨cited, cited.cached _ loadedAt found⟩
  | followManifest => exact ⟨cited, trivial⟩
  | leadManifest => exact ⟨still _ rfl rfl, trivial⟩
  | @awaitManifest flight answer told =>
    refine ⟨cited, ?_⟩
    cases answer with
    | error err => trivial
    | ok m =>
      rcases told with found | ⟨-, impossible⟩
      · exact cited.loads flight m found
      · cases impossible
  | @finishManifest flight result =>
    obtain ⟨answer, -, entry, rfl⟩ := allowed
    have learned : ∀ m, readManifest host manifestKey answer = .ok m → Covered host manifestKey n.cold.store m :=
      fun m read => tells _ (mem_coldPart entry) rfl m read
    refine ⟨⟨?_, ?_, cited.range, cited.bounded⟩, trivial⟩
    · intro m loadedAt found
      dsimp only [ArchiveBlockSource.finishManifest] at found
      split at found
      next new read =>
        cases found
        exact learned _ read
      next => exact cited.cached m loadedAt found
    · intro other m found
      dsimp only [ArchiveBlockSource.finishManifest] at found
      by_cases same : other = flight
      · subst same
        rw [Function.update_self] at found
        exact learned m (Option.some.inj found)
      · rw [Function.update_of_ne same] at found
        exact cited.loads other m found
  | finishSegment finished => exact ⟨still _ finished.cachedManifest finished.manifestLoads, trivial⟩
  | followSegment | fullSegment | awaitSegment | noSlot => exact ⟨cited, trivial⟩
  | cachedSegment | leadSegment | acquireSlot | releaseSlot => exact ⟨still _ rfl rfl, trivial⟩

theorem serving_keeps {honest : ObjectStore contentOf → (op : Op) → op.Res → Prop} {patient : Prop}
    (opened : Opened host manifestKey) (truthful : ∀ s op answer, honest s op answer → Truthful s op answer) :
    Keeps (ServeEffect honest patient) (fun n : Node contentOf => Cited host manifestKey n) (Tells host manifestKey)
      (ServeMay host manifestKey coldSource) := by
  intro trace op n answer n' cited tells allowed taken
  cases op with
  | cold op =>
    obtain ⟨cold, effect, rfl⟩ := taken
    obtain ⟨source, rfl, move⟩ := effect.move
    obtain ⟨kept, told⟩ := cited.cold opened truthful tells allowed move
    exact ⟨kept, fun entry fact => fact.later (.of_eq rfl rfl), told⟩
  | hotRange =>
    obtain ⟨rfl, rfl⟩ := taken
    exact ⟨cited, fun _ fact => fact, hotRange_within cited.bounded⟩
  | loadHotBlock height =>
    obtain ⟨-, rfl⟩ := taken
    exact ⟨cited, fun _ fact => fact, trivial⟩
  | loadCachedRange =>
    obtain ⟨rfl, rfl⟩ := taken
    refine ⟨cited, fun _ fact => fact, ?_⟩
    cases found : n'.cachedRange with
    | none => trivial
    | some range => exact cited.range range found
  | storeCachedRange range =>
    cases taken
    refine ⟨⟨cited.cached, cited.loads, ?_, cited.bounded⟩, fun entry fact => fact.later (.of_eq rfl rfl), trivial⟩
    intro other same
    cases same
    rcases allowed with ⟨-, rfl⟩ | ⟨m, gives, rfl⟩
    · exact .inl rfl
    · exact (gives.covered tells).within
  | enqueueColdBlockRequest height =>
    cases taken
    exact ⟨cited, fun _ fact => fact, trivial⟩
  | sendStatus range =>
    cases taken
    exact ⟨cited, fun _ fact => fact, trivial⟩
  | sendBlock block =>
    cases taken
    exact ⟨cited, fun _ fact => fact, trivial⟩
  | sendNoBlock height =>
    cases taken
    exact ⟨cited, fun _ fact => fact, trivial⟩

theorem Changes.later {grows : ObjectStore contentOf → ObjectStore contentOf → Prop} {change : Change contentOf}
    (further : ∀ s s', grows s s' → Grows host manifestKey s s') (changed : Changes host manifestKey grows n change n') :
    Later host manifestKey n n' := by
  refine ⟨?_, fun height available => changed.available further available⟩
  intro m covered
  cases change with
  | persist block =>
    obtain ⟨-, hot, -, rfl⟩ := changed
    exact covered
  | publish store =>
    obtain ⟨grown, rfl⟩ := changed
    exact covered.grows (further _ _ grown)
  | prune snapshot opts ctx fault =>
    obtain ⟨-, hot, result, -, rfl⟩ := changed
    exact covered
  | wait time =>
    obtain ⟨-, rfl⟩ := changed
    exact covered

theorem serving_envKeeps {grows : ObjectStore contentOf → ObjectStore contentOf → Prop}
    (further : ∀ s s', grows s s' → Grows host manifestKey s s') :
    EnvKeeps (Changes host manifestKey grows) (fun n : Node contentOf => Cited host manifestKey n)
      (Tells host manifestKey) := by
  intro n change n' cited changed
  have later := changed.later further
  refine ⟨?_, fun entry fact => fact.later later⟩
  cases change with
  | persist block =>
    obtain ⟨bounded, hot, saved, rfl⟩ := changed
    exact cited.later later rfl rfl ((BlockStore.saveBlock_spec saved).1 ▸ bounded)
  | publish store =>
    obtain ⟨-, rfl⟩ := changed
    exact cited.later later rfl rfl cited.bounded
  | prune snapshot opts ctx fault =>
    obtain ⟨-, hot, result, pruned, rfl⟩ := changed
    apply cited.later later rfl rfl
    rcases pruneHotStore_spec pruned with rfl | ⟨pruneTo, chainID, deleted, -⟩
    · exact cited.bounded
    · obtain ⟨-, -, -, -, -, same, -⟩ := BlockStore.pruneBlocks_spec deleted
      exact same ▸ cited.bounded
  | wait time =>
    obtain ⟨-, rfl⟩ := changed
    exact cited.later later rfl rfl cited.bounded

theorem newArchiveBlockSource_opened {source : ArchiveBlockSource}
    (created : newArchiveBlockSource host manifestKey = .ok source) :
    Opened host manifestKey ∧ source.cachedManifest = none ∧ source.manifestLoads = fun _ => none := by
  unfold newArchiveBlockSource at created
  rw [then_eq_ok, then_eq_ok, then_eq_ok, refuse_eq_ok] at created
  obtain ⟨store, -, named, same⟩ := created
  cases same
  exact ⟨⟨named, by simpa using store⟩, rfl, rfl⟩

theorem newSource_uncached {made source : ArchiveBlockSource} {ttl : Int}
    (created : newArchiveBlockSource host manifestKey = .ok made) (tuned : made.setManifestCacheTTL ttl = .ok source) :
    source.cachedManifest = none ∧ source.manifestLoads = fun _ => none := by
  obtain ⟨-, noManifest, noLoads⟩ := newArchiveBlockSource_opened created
  unfold ArchiveBlockSource.setManifestCacheTTL at tuned
  rw [then_eq_ok] at tuned
  rw [← Except.ok.inj tuned.2]
  exact ⟨by dsimp only; rw [noManifest, ite_self], noLoads⟩

theorem newSource_cited {made : ArchiveBlockSource} {ttl : Int} (created : newArchiveBlockSource host manifestKey = .ok made)
    (tuned : made.setManifestCacheTTL ttl = .ok n.cold.source) (uncached : n.cachedRange = none)
    (bounded : n.hot.height ≤ maxInt64) : Cited host manifestKey n := by
  obtain ⟨noManifest, noLoads⟩ := newSource_uncached created tuned
  refine ⟨?_, ?_, by simp [uncached], bounded⟩
  · intro m loadedAt found
    rw [noManifest] at found
    cases found
  · intro flight m found
    rw [noLoads] at found
    cases found

/-- Every height of a status response is in the hot store or in the published manifest when the response is
sent. The merged range is the union of two ranges that meet below the last int64, and one of the two if
they do not meet. -/
theorem advertised_heights_available {start : Node contentOf} {made : ArchiveBlockSource} {ttl : Int}
    {events : List (Event ServeOp ServeOp.Res (Except Err Unit) (Change contentOf))}
    {m : Machine (Node contentOf) ServeOp ServeOp.Res (Except Err Unit)}
    (created : newArchiveBlockSource host manifestKey = .ok made)
    (tuned : made.setManifestCacheTTL ttl = .ok start.cold.source) (uncached : start.cachedRange = none)
    (bounded : start.hot.height ≤ maxInt64)
    (run : Run (Step (ServeEffect (fun s => Truthful s) False) (Changes host manifestKey (Grows host manifestKey)))
      (Machine.idle start) events m)
    (jobs : ∀ id p, .spawn id p ∈ events → ∃ job : ServeJob, p = job.program host manifestKey coldSource) :
    (∀ id range next trace, m.procs id = some ⟨.call (.sendStatus range) next, trace⟩ → range ≠ ⟨0, 0⟩ →
      ∀ height, range.contains height = true → Available host manifestKey m.shared height) ∧
    (∀ hot, mergeAdvertisedRanges ⟨0, 0⟩ hot = hot) ∧
    (∀ cold : PeerRange, cold = ⟨0, 0⟩ ∨ cold.Proper → mergeAdvertisedRanges cold ⟨0, 0⟩ = cold) ∧
    ∀ cold hot : PeerRange, cold.Proper → hot.Proper →
      (hot.base ≤ cold.height + 1 → cold.base ≤ hot.height + 1 → cold.height < maxInt64 → hot.height < maxInt64 →
        ∀ height, (mergeAdvertisedRanges cold hot).contains height = true ↔
          cold.contains height = true ∨ hot.contains height = true) ∧
      (cold.height + 1 < hot.base ∨ hot.height + 1 < cold.base →
        mergeAdvertisedRanges cold hot = if cold.height < hot.height then hot else cold) := by
  obtain ⟨opened, -⟩ := newArchiveBlockSource_opened created
  refine ⟨?_, fun _ => rfl, fun _ formed => mergeAdvertisedRanges_empty_hot formed, ?_⟩
  · have cited := newSource_cited created tuned uncached bounded
    have sound : m.Sound (fun n => Cited host manifestKey n) (Tells host manifestKey)
        (ServeMay host manifestKey coldSource) (fun later _ => Answered host manifestKey coldSource later) := by
      refine Run.sound (serving_keeps opened fun _ _ _ told => told) (serving_envKeeps fun _ _ grown => grown) run ?_
        (Machine.idle_sound cited)
      intro id p spawned
      obtain ⟨job, rfl⟩ := jobs id p spawned
      exact job.follows opened
    intro id range next trace running filled height inside
    obtain ⟨all, tells⟩ := sound.procs id _ running
    obtain ⟨hot, read, either⟩ := all.1
    have within : range.Within (Available host manifestKey m.shared) := by
      rcases either with rfl | ⟨cached, loaded, rfl⟩
      · exact tells _ read
      · exact mergeAdvertisedRanges_within (tells _ loaded) (tells _ read)
    rcases within with empty | ⟨-, all⟩
    · exact absurd empty filled
    · exact all height inside
  · intro cold hot first second
    have ordered := first.ordered
    have ordered' := second.ordered
    rw [mergeAdvertisedRanges_proper first second]
    constructor
    · intro meet meet' low low' height
      rw [if_neg (by omega)]
      simp only [PeerRange.contains_iff]
      omega
    · intro gap
      rw [if_pos (by omega)]
      have differ : cold.height ≠ hot.height := by
        have positive := first.positive
        have positive' := second.positive
        omega
      by_cases less : cold.height < hot.height
      · rw [if_pos less, if_pos (by omega)]
      · rw [if_neg less, if_neg (by omega)]

end Status

def sendsStatus (range : PeerRange) : Proc ServeOp ServeOp.Res (Except Err Unit) → Bool
  | ⟨.call (.sendStatus sent) _, _⟩ => sent == range
  | _ => false

theorem exists_sendStatus {range : PeerRange} {proc : Proc ServeOp ServeOp.Res (Except Err Unit)}
    (sends : sendsStatus range proc = true) : ∃ next trace, proc = ⟨.call (.sendStatus range) next, trace⟩ := by
  unfold sendsStatus at sends
  split at sends
  next sent next trace => exact ⟨next, trace, by rw [eq_of_beq sends]⟩
  next => cases sends

theorem advertised_heights_sample : ∃ (m : NodeMachine) (next : Unit → Prog ServeOp ServeOp.Res (Except Err Unit))
    (trace : Served), m.procs 1 = some ⟨.call (.sendStatus ⟨1, 3⟩) next, trace⟩ ∧ m.shared.hot.base = 3 ∧
    m.shared.hot.height = 4 ∧ ∀ height, 1 ≤ height → height ≤ 3 → Available shortHost "m" m.shared height := by
  -- the archive has the heights 1 and 2, the hot store 2 and 3; between the two reads of a status the hot store
  -- is pruned and goes on
  have scenario : (do
      let (_, read) ← tryDrive serveNode 20 ⟨ServeJob.refreshAdvertisedRange.program shortHost "m" true, []⟩
        (shortNode [1, 2] [2, 3])
      let (status, seen) ← tryDrive serveNode 1 ⟨ServeJob.sendStatus.program shortHost "m" true, []⟩ read
      let (hot, _) ← (pruneHotStore shortComet seen.hot (shortLoaded [1, 2]) shortPrune (.ok ()) none).toOption
      let hot ← hot.saveBlock (shortBlock 4)
      let (proc, last) ← tryDrive serveNode 1 status { seen with hot }
      return (sendsStatus ⟨1, 3⟩ proc, last.hot.base, last.hot.height) : Option (Bool × Int × Int)) =
      some (true, 3, 4) := by decide +kernel
  obtain ⟨⟨refreshed, read⟩, driven, scenario⟩ := Option.bind_eq_some_iff.mp scenario
  obtain ⟨⟨status, seen⟩, started, scenario⟩ := Option.bind_eq_some_iff.mp scenario
  obtain ⟨⟨hot, pruned⟩, prunes, scenario⟩ := Option.bind_eq_some_iff.mp scenario
  obtain ⟨higher, saves, scenario⟩ := Option.bind_eq_some_iff.mp scenario
  obtain ⟨⟨proc, last⟩, ended, after⟩ := Option.bind_eq_some_iff.mp scenario
  rw [toOption_eq_some] at prunes
  obtain ⟨sends, heights⟩ := Prod.mk.inj (Option.some.inj after)
  obtain ⟨base, head⟩ := Prod.mk.inj heights
  obtain ⟨next, trace, rfl⟩ := exists_sendStatus sends
  have first := tryDrive_walk (serveNode_truthful False) driven
  have second := tryDrive_walk (serveNode_truthful False) started
  have third := tryDrive_walk (serveNode_truthful False) ended
  have kept : seen.cold.store = shortObjects [1, 2] := by
    have before : read.cold.store = shortObjects [1, 2] :=
      first.preserves (fun n => n.cold.store = shortObjects [1, 2]) rfl fun _ _ _ _ taken same => taken.store.trans same
    exact second.preserves (fun n => n.cold.store = shortObjects [1, 2]) before
      fun _ _ _ _ taken same => taken.store.trans same
  have covered : Covered shortHost "m" seen.cold.store (shortLoaded [1, 2]) := by
    rw [kept]
    exact ⟨shortObjects_intact.2.loads.valid, _, shortObjects_intact.2.loads, List.Subset.refl _⟩
  let idle : NodeMachine := Machine.idle (shortNode [1, 2] [2, 3])
  let refreshing : NodeMachine := ⟨read, Function.update idle.procs 0 (some refreshed)⟩
  let asked : NodeMachine := ⟨seen, Function.update refreshing.procs 1 (some status)⟩
  let changed : NodeMachine := ⟨{ seen with hot := higher }, asked.procs⟩
  let sending : NodeMachine := ⟨last, Function.update changed.procs 1 (some ⟨.call (.sendStatus ⟨1, 3⟩) next, trace⟩)⟩
  obtain ⟨j, refreshes⟩ : ∃ j, Run (Step _ (Changes shortHost "m" (Grows shortHost "m"))) idle
      (.spawn 0 (ServeJob.refreshAdvertisedRange.program shortHost "m" true) :: List.replicate j (.run 0)) refreshing :=
    Run.start first idle 0 rfl rfl
  obtain ⟨k, asks⟩ : ∃ k, Run (Step _ (Changes shortHost "m" (Grows shortHost "m"))) refreshing
      (.spawn 1 (ServeJob.sendStatus.program shortHost "m" true) :: List.replicate k (.run 1)) asked :=
    Run.start second refreshing 1 rfl rfl
  have pruning : Changes shortHost "m" (Grows shortHost "m") seen (.prune (shortLoaded [1, 2]) shortPrune (.ok ()) none)
      { seen with hot } := ⟨covered, hot, pruned, prunes, rfl⟩
  have saving : Changes shortHost "m" (Grows shortHost "m") { seen with hot } (.persist (shortBlock 4))
      { seen with hot := higher } := ⟨by decide, higher, saves, rfl⟩
  have changes : Run (Step (ServeEffect (fun s => Truthful s) False) (Changes shortHost "m" (Grows shortHost "m"))) asked
      [.env (.prune (shortLoaded [1, 2]) shortPrune (.ok ()) none), .env (.persist (shortBlock 4))] changed :=
    .cons (.env pruning) (.cons (.env saving) .refl)
  obtain ⟨l, answers⟩ : ∃ l, Run (Step _ (Changes shortHost "m" (Grows shortHost "m"))) changed
      (List.replicate l (.run 1)) sending := Run.walk third changed 1 rfl rfl
  have run := ((refreshes.append asks).append changes).append answers
  have available := (advertised_heights_available shortSource_created.1 shortSource_created.2 rfl (by decide +kernel) run (by
    simp only [List.cons_append, List.mem_cons, List.mem_append, Event.spawn.injEq, reduceCtorEq, List.not_mem_nil,
      List.mem_replicate, and_false, false_or, or_false]
    rintro process p (⟨-, rfl⟩ | ⟨-, rfl⟩)
    · exact ⟨.refreshAdvertisedRange, rfl⟩
    · exact ⟨.sendStatus, rfl⟩)).1
  refine ⟨sending, next, trace, rfl, base, head, fun height low high => ?_⟩
  exact available 1 ⟨1, 3⟩ next trace rfl (by decide) height (PeerRange.contains_iff.mpr ⟨low, high⟩)

/-- The sum of the hot height and one wraps around, and two ranges that overlap are taken to be apart. -/
theorem merge_at_last_height :
    (⟨1, 5⟩ : PeerRange).Proper ∧ (⟨3, maxInt64⟩ : PeerRange).Proper ∧
    mergeAdvertisedRanges ⟨1, 5⟩ ⟨3, maxInt64⟩ = ⟨3, maxInt64⟩ ∧ (⟨1, 5⟩ : PeerRange).contains 1 = true ∧
    (mergeAdvertisedRanges ⟨1, 5⟩ ⟨3, maxInt64⟩).contains 1 = false := by
  refine ⟨⟨by decide, by decide, by decide⟩, ⟨by decide, by decide, by decide⟩, by decide, by decide, by decide⟩

end CometArchive.Blocksync
