import CometArchive.Archive.Hydrate
import CometArchive.Archive.LiveTiling

set_option autoImplicit false

namespace CometArchive.Archive

open GoBytes GoError Programs Programs.Fallible

variable {V : Type} {host : Host V} {contentOf : String → Bytes} {key : String} {s s' : ObjectStore contentOf}
  {answers : (op : Op) → op.Res → Prop} {opts : LiveArchiveOptions} {stop height start next first last : Int}
  {segment other : SegmentManifest} {added whole : List SegmentManifest} {records others : List BlockRecord}

def ByHeight (answers : (op : Op) → op.Res → Prop) : Prop :=
  -- a reader gives a block of the height it is asked for
  ∀ height block, answers (.loadBlock height) (some block) → block.height = height

def Steady (answers : (op : Op) → op.Res → Prop) : Prop :=
  -- a reader gives the same block every time
  ∀ height block block', answers (.loadBlock height) (some block) → answers (.loadBlock height) (some block') →
    block = block'

theorem Source.steady (source : Source) : Steady source.Answers := by
  intro height block block' here there
  exact Option.some.inj (here.trans there.symm)

section Records

theorem LoadedBy.follows (placed : ByHeight answers) (loaded : LoadedBy host answers opts.chainID height records) :
    Follows height records (height + records.length) := by
  induction records generalizing height with
  | nil => simp [Follows]
  | cons record rest ih =>
    obtain ⟨⟨block, given, -, recorded⟩, loaded⟩ := loaded
    refine ⟨(blockToRecord_spec recorded).1.trans (placed height block given), ?_⟩
    rw [List.length_cons]
    push_cast
    rw [← add_assoc, add_right_comm]
    exact ih loaded

theorem LoadedBy.unique (steady : Steady answers) (here : LoadedBy host answers opts.chainID height records)
    (there : LoadedBy host answers opts.chainID height others) (length : records.length = others.length) :
    records = others := by
  induction records generalizing height others with
  | nil => exact (List.length_eq_zero_iff.mp length.symm).symm
  | cons record rest ih =>
    cases others with
    | nil => cases length
    | cons record' more =>
      obtain ⟨⟨block, given, -, recorded⟩, here⟩ := here
      obtain ⟨⟨block', given', -, recorded'⟩, there⟩ := there
      obtain rfl := steady height block block' given given'
      rw [Except.ok.inj (recorded.symm.trans recorded'), ih here there (Nat.succ.inj length)]

theorem LoadedBy.entry (placed : ByHeight answers) (loaded : LoadedBy host answers opts.chainID height records) :
    ∀ record ∈ records, ∃ block, answers (.loadBlock record.height) (some block) ∧
      record.hash = hexEncode (host.comet.blockHash block) := by
  induction records generalizing height with
  | nil => simp
  | cons record rest ih =>
    obtain ⟨⟨block, given, -, recorded⟩, loaded⟩ := loaded
    obtain ⟨same, hash⟩ := blockToRecord_spec recorded
    intro other member
    rcases List.mem_cons.mp member with rfl | member
    · refine ⟨block, ?_, hash⟩
      rw [same, placed height block given]
      exact given
    · exact ih loaded other member

end Records

section Segments

theorem Follows.head_height (follows : Follows start records stop) : ∀ record ∈ records.head?, start = record.height := by
  cases records with
  | nil => simp
  | cons record rest => simp [follows.1]

theorem Follows.last_height (follows : Follows start records stop) :
    ∀ record ∈ records.getLast?, stop - 1 = record.height := by
  intro record found
  obtain ⟨front, rfl⟩ := List.getLast?_eq_some_iff.mp found
  induction front generalizing start with
  | nil =>
    have same : start + 1 = stop := follows.2
    have height := follows.1
    omega
  | cons head front ih => exact ih follows.2 (by simp)

theorem LiveSegment.spec (placed : ByHeight answers) (live : LiveSegment host answers opts first last segment) :
    segment.firstHeight = first ∧ segment.lastHeight = last ∧ (segment.blocks.length : Int) = last - first + 1 ∧
      ∀ entry ∈ segment.blocks, ∃ block, answers (.loadBlock entry.height) (some block) ∧
        entry.hash = hexEncode (host.comet.blockHash block) := by
  obtain ⟨records, data, encoded, ok, rfl, count, loaded⟩ := live
  have encodes := encodeSegment_spec host.codec ok
  have follows := loaded.follows placed
  have lengths := congrArg List.length encodes.blocks
  rw [List.length_map, List.length_map] at lengths
  refine ⟨?_, ?_, by dsimp only; omega, ?_⟩
  · have found := List.head?_eq_some_head encodes.filled
    exact (encodes.first _ found).trans (follows.head_height _ found).symm
  · have found := List.getLast?_eq_some_getLast encodes.filled
    have ends := follows.last_height _ found
    have same := encodes.last _ found
    dsimp only
    omega
  · intro entry member
    have listed : (entry.height, entry.hash) ∈ records.map fun record => (record.height, record.hash) := by
      rw [← encodes.blocks]
      exact List.mem_map_of_mem member
    obtain ⟨record, found, same⟩ := List.mem_map.mp listed
    obtain ⟨height, hash⟩ := Prod.mk.inj same
    rw [← height, ← hash]
    exact loaded.entry placed record found

theorem LiveSegment.unique (steady : Steady answers) (here : LiveSegment host answers opts first last segment)
    (there : LiveSegment host answers opts first last other) : segment = other := by
  obtain ⟨records, data, encoded, ok, rfl, count, loaded⟩ := here
  obtain ⟨records', data', encoded', ok', rfl, count', loaded'⟩ := there
  obtain rfl := loaded.unique steady loaded' (by omega)
  cases (ok.symm.trans ok')
  rfl

end Segments

section Tilings

theorem LiveTiling.bounds (blocks : 0 < opts.segmentBlocks) (tiling : LiveTiling host answers opts stop start added next) :
    start ≤ next ∧ (start ≤ stop → next ≤ stop + 1) ∧ (stop < start → next = start ∧ added = []) := by
  induction added generalizing start with
  | nil =>
    have same : next = start := tiling
    exact ⟨by omega, by omega, fun _ => ⟨same, rfl⟩⟩
  | cons segment rest ih =>
    obtain ⟨inside, -, tiling⟩ := tiling
    obtain ⟨low, high, none⟩ := ih tiling
    refine ⟨by omega, fun _ => ?_, by omega⟩
    by_cases more : min (start + opts.segmentBlocks - 1) stop + 1 ≤ stop
    · exact high more
    · have ended := (none (by omega)).1
      omega

/-- The tiling is one: archiving that is cut off leaves a part of it. -/
theorem LiveTiling.part (steady : Steady answers) (tiling : LiveTiling host answers opts stop start added next)
    (complete : LiveTiling host answers opts stop start whole last) (through : stop < last) : added <+: whole := by
  induction added generalizing start whole with
  | nil => exact List.nil_prefix
  | cons segment rest ih =>
    obtain ⟨inside, live, tiling⟩ := tiling
    cases whole with
    | nil =>
      have same : last = start := complete
      omega
    | cons other more =>
      obtain ⟨-, live', complete⟩ := complete
      rw [live.unique steady live', List.prefix_cons_inj]
      exact ih tiling complete

theorem LiveTiling.tiles (placed : ByHeight answers) (tiling : LiveTiling host answers opts stop start added next) :
    Tiles start added next := by
  induction added generalizing start with
  | nil => exact (show next = start from tiling).symm
  | cons segment rest ih =>
    obtain ⟨-, live, tiling⟩ := tiling
    obtain ⟨firstHeight, lastHeight, -⟩ := live.spec placed
    refine ⟨firstHeight, ?_⟩
    rw [lastHeight]
    exact ih tiling

theorem LiveTiling.each (placed : ByHeight answers) (tiling : LiveTiling host answers opts stop start added next) :
    ∀ segment ∈ added, segment.lastHeight ≤ stop ∧ ∀ entry ∈ segment.blocks, ∃ block,
      answers (.loadBlock entry.height) (some block) ∧ entry.hash = hexEncode (host.comet.blockHash block) := by
  induction added generalizing start with
  | nil => simp
  | cons head rest ih =>
    obtain ⟨-, live, tiling⟩ := tiling
    obtain ⟨-, lastHeight, -, entries⟩ := live.spec placed
    intro segment member
    rcases List.mem_cons.mp member with rfl | member
    · exact ⟨by omega, entries⟩
    · exact ih tiling segment member

theorem LiveTiling.full (placed : ByHeight answers) (tiling : LiveTiling host answers opts stop start added next) :
    ∀ segment ∈ added.dropLast, (segment.blocks.length : Int) = opts.segmentBlocks := by
  induction added generalizing start with
  | nil => simp
  | cons head rest ih =>
    obtain ⟨-, live, tiling⟩ := tiling
    obtain ⟨-, -, length, -⟩ := live.spec placed
    cases rest with
    | nil => simp
    | cons second rest =>
      -- there is a height after the first segment, so it was not cut
      have more := tiling.1
      intro segment member
      rw [List.dropLast_cons_cons] at member
      rcases List.mem_cons.mp member with rfl | member
      · omega
      · exact ih tiling segment member

end Tilings

section Index

def Source.index (host : Host V) (source : Source) : Int → Nat → List (Int × Bytes)
  | _, 0 => []
  | height, count + 1 =>
    (height, ((source.block height).map fun block => hexEncode (host.comet.blockHash block)).getD []) ::
      source.index host (height + 1) count

def indexOf (segments : List SegmentManifest) : List (Int × Bytes) :=
  segments.flatMap fun segment => segment.blocks.map fun block => (block.height, block.hash)

theorem indexOf_append (before after : List SegmentManifest) :
    indexOf (before ++ after) = indexOf before ++ indexOf after := List.flatMap_append

variable {source : Source}

theorem Source.index_add (height : Int) (m n : Nat) :
    source.index host height (m + n) = source.index host height m ++ source.index host (height + m) n := by
  induction m generalizing height with
  | zero => simp [Source.index]
  | succ m ih =>
    rw [Nat.succ_add, Source.index, Source.index, ih, List.cons_append]
    push_cast
    rw [add_assoc, add_comm (1 : Int)]

theorem LoadedBy.index (placed : ByHeight source.Answers) (loaded : LoadedBy host source.Answers opts.chainID height records) :
    records.map (fun record => (record.height, record.hash)) = source.index host height records.length := by
  induction records generalizing height with
  | nil => rfl
  | cons record rest ih =>
    obtain ⟨⟨block, given, -, recorded⟩, loaded⟩ := loaded
    obtain ⟨same, hash⟩ := blockToRecord_spec recorded
    have found : source.block height = some block := given.symm
    rw [List.map_cons, List.length_cons, Source.index, ih loaded, same, hash, placed height block given, found]
    rfl

theorem LiveTiling.index (placed : ByHeight source.Answers) (blocks : 0 < opts.segmentBlocks)
    (tiling : LiveTiling host source.Answers opts stop start added next) :
    indexOf added = source.index host start (next - start).toNat := by
  induction added generalizing start with
  | nil =>
    have same : next = start := tiling
    simp [indexOf, same, Source.index]
  | cons segment rest ih =>
    obtain ⟨inside, live, tiling⟩ := tiling
    have later := tiling.bounds blocks
    obtain ⟨records, data, encoded, ok, rfl, count, loaded⟩ := live
    have split : (next - start).toNat =
        records.length + (next - (min (start + opts.segmentBlocks - 1) stop + 1)).toNat := by omega
    have reach : start + (records.length : Int) = min (start + opts.segmentBlocks - 1) stop + 1 := by omega
    have head := (encodeSegment_spec host.codec ok).blocks
    unfold indexOf at ih ⊢
    rw [List.flatMap_cons, head, ih tiling, loaded.index placed, split, Source.index_add, reach]

theorem LiveTiling.indexed (tiling : LiveTiling host answers opts stop start added next) :
    ((indexOf added).length : Int) = next - start := by
  induction added generalizing start with
  | nil =>
    cases (tiling : next = start)
    simp [indexOf]
  | cons segment rest ih =>
    obtain ⟨-, ⟨records, data, encoded, ok, rfl, count, -⟩, tiling⟩ := tiling
    have head := congrArg List.length (encodeSegment_spec host.codec ok).blocks
    simp only [List.length_map] at head
    have tail := ih tiling
    unfold indexOf at tail ⊢
    rw [List.flatMap_cons, List.length_append, List.length_map, head]
    push_cast
    omega

theorem LiveTiling.indexed_pos (blocks : 0 < opts.segmentBlocks)
    (tiling : LiveTiling host answers opts stop start added next) (some : added ≠ []) : 0 < (indexOf added).length := by
  have indexed := tiling.indexed
  cases added with
  | nil => exact absurd rfl some
  | cons segment rest =>
    obtain ⟨inside, -, tiling⟩ := tiling
    have later := (tiling.bounds blocks).1
    omega

end Index

section Source

variable {source : Source}

def Source.nextHeight (source : Source) (opts : LiveArchiveOptions) (old : List SegmentManifest) : Int :=
  match old.getLast? with
  | some last => last.lastHeight + 1
  | none => if opts.startHeight = 0 then source.base else opts.startHeight

def Source.readyEnd (host : Host V) (source : Source) (opts : LiveArchiveOptions) : Int :=
  if host.bounded then min (min opts.readyHeight source.height) source.limit else min opts.readyHeight source.height

theorem Source.starts_iff {old : List SegmentManifest} :
    Starts source.Answers opts old start ↔ start = source.nextHeight opts old := by
  unfold Starts Source.nextHeight
  cases old.getLast? with
  | some last => rfl
  | none =>
    dsimp only
    split <;> rfl

theorem Source.stops_iff : Stops host source.Answers opts stop ↔ stop = source.readyEnd host opts := by
  unfold Stops Source.readyEnd
  by_cases bounded : host.bounded = true
  · simp only [bounded, if_true]
    exact ⟨fun ⟨_, rfl, _, rfl, same⟩ => same, fun same => ⟨_, rfl, _, rfl, same⟩⟩
  · simp only [bounded, if_false, Bool.false_eq_true]
    exact ⟨fun ⟨_, rfl, same⟩ => same, fun same => ⟨_, rfl, same⟩⟩

theorem Source.readyEnd_mono {later : LiveArchiveOptions} (raised : opts.readyHeight ≤ later.readyHeight) :
    source.readyEnd host opts ≤ source.readyEnd host later := by
  unfold Source.readyEnd
  split <;> omega

structure Continuation (host : Host V) (source : Source) (opts : LiveArchiveOptions) (start stop : Int)
    (added : List SegmentManifest) (next : Int) : Prop where
  -- the segments continue the archive from `start` to before `next`, at most to `stop`
  tiling : LiveTiling host source.Answers opts.effective stop start added next
  tiles : Tiles start added next
  below : ∀ segment ∈ added, segment.lastHeight ≤ stop
  full : ∀ segment ∈ added.dropLast, (segment.blocks.length : Int) = opts.effective.segmentBlocks
  entries : ∀ segment ∈ added, ∀ entry ∈ segment.blocks, ∃ block, source.block entry.height = some block ∧
    entry.hash = hexEncode (host.comet.blockHash block)
  part : ∀ whole last, LiveTiling host source.Answers opts.effective stop start whole last → stop < last → added <+: whole

theorem LiveTiling.continuation (placed : ByHeight source.Answers)
    (tiling : LiveTiling host source.Answers opts.effective stop start added next) :
    Continuation host source opts start stop added next := by
  refine ⟨tiling, tiling.tiles placed, fun segment member => (tiling.each placed segment member).1,
    tiling.full placed, ?_, fun whole last => tiling.part source.steady⟩
  intro segment member entry listed
  obtain ⟨block, given, hash⟩ := (tiling.each placed segment member).2 entry listed
  exact ⟨block, given.symm, hash⟩

theorem effective_positive (opts : LiveArchiveOptions) : 0 < opts.effective.segmentBlocks := by
  change 0 < if opts.segmentBlocks ≤ 0 then defaultSegmentBlocks else opts.segmentBlocks
  unfold defaultSegmentBlocks
  split <;> omega

theorem HeadExtended.grown {old : List SegmentManifest} {safetyWindow : Int} {t : ObjectStore contentOf × Nat}
    (extended : HeadExtended host answers opts safetyWindow key old t) :
    ∃ added, published host key t.1 = old ++ added ∧ t.2 = added.length ∧ (added ≠ [] → 0 < (indexOf added).length) := by
  rcases extended with ⟨same, none⟩ | ⟨readyHeight, -, ⟨same, none⟩ | ⟨start, stop, -, -, added, next, now, count, tiling⟩⟩
  · exact ⟨[], by rw [same, List.append_nil], none, fun some => absurd rfl some⟩
  · exact ⟨[], by rw [same, List.append_nil], none, fun some => absurd rfl some⟩
  · exact ⟨added, now, count, tiling.indexed_pos (effective_positive _)⟩

theorem Extended.continuation {old : List SegmentManifest} {t : ObjectStore contentOf × Nat}
    (placed : ByHeight source.Answers) (extended : Extended host source.Answers opts key old t) :
    ∃ added next, published host key t.1 = old ++ added ∧
      Continuation host source opts (source.nextHeight opts old) (source.readyEnd host opts) added next := by
  rcases extended with ⟨same, -⟩ | ⟨start, stop, starts, stops, added, next, now, -, tiling⟩
  · refine ⟨[], source.nextHeight opts old, by simpa using same, ?_⟩
    apply LiveTiling.continuation placed
    rfl
  · rw [Source.starts_iff] at starts
    rw [Source.stops_iff] at stops
    subst starts stops
    exact ⟨added, next, now, tiling.continuation placed⟩

theorem Completed.continuation {old : List SegmentManifest} {count : Int} (placed : ByHeight source.Answers)
    (completed : Completed host source.Answers opts key old count s) :
    ∃ added next, published host key s = old ++ added ∧
      Continuation host source opts (source.nextHeight opts old) (source.readyEnd host opts) added next ∧
      next = max (source.nextHeight opts old) (source.readyEnd host opts + 1) := by
  obtain ⟨start, stop, added, starts, stops, now, tiling, through⟩ := completed
  rw [Source.starts_iff] at starts
  rw [Source.stops_iff] at stops
  subst starts stops
  refine ⟨added, _, now, tiling.continuation placed, ?_⟩
  obtain ⟨low, high, none⟩ := tiling.bounds (effective_positive opts)
  omega

theorem Continuation.start_append {old : List SegmentManifest} {before : Int}
    (continued : Continuation host source opts (source.nextHeight opts old) before added next) (later : LiveArchiveOptions)
    (same : later.startHeight = opts.startHeight) : source.nextHeight later (old ++ added) = next := by
  cases found : added.getLast? with
  | none =>
    rw [List.getLast?_eq_none_iff] at found
    subst found
    have ended : next = source.nextHeight opts old := continued.tiling
    rw [ended, List.append_nil]
    unfold Source.nextHeight
    rw [same]
  | some segment =>
    have ended := continued.tiles.getLast found
    unfold Source.nextHeight
    rw [List.getLast?_append, found]
    exact ended

theorem Continuation.joined {later : LiveArchiveOptions} {first second direct : List SegmentManifest}
    {mid stop₁ stop₂ : Int} (placed : ByHeight source.Answers)
    (one : Continuation host source opts start stop₁ first mid)
    (two : Continuation host source later mid stop₂ second next)
    (once : Continuation host source later start stop₂ direct next) :
    indexOf (first ++ second) = indexOf direct := by
  -- two continuations, one after the other, index what one does that goes as far
  have index₁ := one.tiling.index placed (effective_positive opts)
  have index₂ := two.tiling.index placed (effective_positive later)
  have index₃ := once.tiling.index placed (effective_positive later)
  have low := (one.tiling.bounds (effective_positive opts)).1
  have high := (two.tiling.bounds (effective_positive later)).1
  have split : (next - start).toNat = (mid - start).toNat + (next - mid).toNat := by omega
  have reach : start + ((mid - start).toNat : Int) = mid := by omega
  rw [indexOf_append, index₁, index₂, index₃, split, Source.index_add, reach]

/-- Live archiving, alone on its manifest, from a reader with fixed contents. -/
theorem live_archiving_appends (json : host.json.Lawful) (rejects : host.json.RejectsSegments)
    (named : chosenManifestKey opts.keyPrefix opts.chainID opts.manifestName opts.manifestKey = key)
    (placed : ∀ height block, source.block height = some block → block.height = height)
    (bounded : source.height ≤ maxInt64) :
    -- at every moment the manifest is the old one and a part of the tiling
    (∀ proc s', Walk (Alone host source.Answers) ⟨(archiveReady host opts).run, []⟩ s proc s' →
      ∃ added next, published host key s' = published host key s ++ added ∧
        Continuation host source opts (source.nextHeight opts (published host key s)) (source.readyEnd host opts)
          added next) ∧
    -- after a success it is the whole tiling
    (∀ result s', (archiveReady host opts).run.Leads (Alone host source.Answers) s (.ok result) s' →
      ∃ added next, published host key s' = published host key s ++ added ∧
        Continuation host source opts (source.nextHeight opts (published host key s)) (source.readyEnd host opts)
          added next ∧
        next = max (source.nextHeight opts (published host key s)) (source.readyEnd host opts + 1)) ∧
    -- once more publishes nothing
    (∀ result s', (archiveReady host opts).run.Leads (Alone host source.Answers) s (.ok result) s' →
      ∀ proc s'', Walk (Alone host source.Answers) ⟨(archiveReady host opts).run, []⟩ s' proc s'' →
        published host key s'' = published host key s') ∧
    -- in two steps or in one
    (∀ readyHeight first second direct, ∀ s₁ s₂ s₃ : ObjectStore contentOf, opts.readyHeight ≤ readyHeight →
      (archiveReady host opts).run.Leads (Alone host source.Answers) s (.ok first) s₁ →
      (archiveReady host { opts with readyHeight }).run.Leads (Alone host source.Answers) s₁ (.ok second) s₂ →
      (archiveReady host { opts with readyHeight }).run.Leads (Alone host source.Answers) s (.ok direct) s₃ →
        indexOf (published host key s₂) = indexOf (published host key s₃)) ∧
    -- from the head: up to the head less the safety window
    (∀ safetyWindow proc s',
      Walk (Alone host source.Answers) ⟨(archiveReadyFromHead host opts safetyWindow).run, []⟩ s proc s' →
        published host key s' = published host key s ∨ ∃ readyHeight added next,
          ReadyFromHead host source.Answers safetyWindow readyHeight ∧
            published host key s' = published host key s ++ added ∧
            Continuation host source (opts.upTo readyHeight) (source.nextHeight opts (published host key s))
              (source.readyEnd host (opts.upTo readyHeight)) added next) ∧
    -- and after a success all of it
    (∀ safetyWindow result s',
      (archiveReadyFromHead host opts safetyWindow).run.Leads (Alone host source.Answers) s (.ok result) s' →
        NoneReady host source.Answers safetyWindow ∧ published host key s' = published host key s ∨
        ∃ readyHeight added next, ReadyFromHead host source.Answers safetyWindow readyHeight ∧
          published host key s' = published host key s ++ added ∧
          Continuation host source (opts.upTo readyHeight) (source.nextHeight opts (published host key s))
            (source.readyEnd host (opts.upTo readyHeight)) added next ∧
          next = max (source.nextHeight opts (published host key s)) (source.readyEnd host (opts.upTo readyHeight) + 1)) := by
  have byHeight : ByHeight source.Answers := fun height block given => placed height block given.symm
  have heights : ∀ height : Int, source.Answers .height height → height ≤ maxInt64 := by
    rintro _ rfl
    exact bounded
  have safe (s : ObjectStore contentOf) (opts : LiveArchiveOptions)
      (named : chosenManifestKey opts.keyPrefix opts.chainID opts.manifestName opts.manifestKey = key) :=
    (@archiveReady_alone _ host _ key s source.Answers opts json rejects named heights).prog.uncounted
  -- the two ends of a run that succeeds
  have ended {s s' : ObjectStore contentOf} {opts : LiveArchiveOptions} {result : LiveArchiveResult}
      (named : chosenManifestKey opts.keyPrefix opts.chainID opts.manifestName opts.manifestKey = key)
      (led : (archiveReady host opts).run.Leads (Alone host source.Answers) s (.ok result) s') :=
    Completed.continuation byHeight ((safe s opts named).leads led).2.choose_spec
  have head (safetyWindow : Int) :=
    (@archiveReadyFromHead_alone _ host _ key s source.Answers opts safetyWindow json rejects named heights).prog.uncounted
  refine ⟨?_, ?_, ?_, ?_, ?_, ?_⟩
  · intro proc s' walk
    obtain ⟨_, extended⟩ := ((safe s opts named).walk walk).here
    exact extended.continuation byHeight
  · intro result s' led
    exact ended named led
  · intro result s' led proc s'' walk
    obtain ⟨added, next, now, continued, reached⟩ := ended named led
    obtain ⟨_, extended⟩ := ((safe s' opts named).walk walk).here
    obtain ⟨more, last, after, again⟩ := extended.continuation byHeight
    rw [now, continued.start_append opts rfl] at again
    have none := (again.tiling.bounds (effective_positive opts)).2.2 (by omega)
    rw [after, none.2, List.append_nil]
  · intro readyHeight first second direct s₁ s₂ s₃ raised led₁ led₂ led₃
    obtain ⟨added₁, next₁, now₁, continued₁, reached₁⟩ := ended named led₁
    obtain ⟨added₂, next₂, now₂, continued₂, reached₂⟩ := ended (by exact named) led₂
    obtain ⟨added₃, next₃, now₃, continued₃, reached₃⟩ := ended (by exact named) led₃
    rw [now₁, continued₁.start_append { opts with readyHeight } rfl] at continued₂ reached₂
    have higher : source.readyEnd host opts ≤ source.readyEnd host { opts with readyHeight } :=
      Source.readyEnd_mono raised
    change next₃ = max (source.nextHeight opts (published host key s)) _ at reached₃
    obtain rfl : next₂ = next₃ := by omega
    have index := continued₁.joined byHeight continued₂ continued₃
    rw [now₂, now₁, now₃, List.append_assoc, indexOf_append, index, ← indexOf_append]
  · intro safetyWindow proc s' walk
    rcases ((head safetyWindow).walk walk).here with ⟨_, ⟨same, -⟩ | ⟨readyHeight, below, extended⟩⟩
    · exact .inl same
    · obtain ⟨added, next, now, continued⟩ := extended.continuation byHeight
      exact .inr ⟨readyHeight, added, next, below, now, continued⟩
  · intro safetyWindow result s' led
    rcases ((head safetyWindow).leads led).2.choose_spec with ⟨none, same, -⟩ | ⟨readyHeight, below, completed⟩
    · exact .inl ⟨none, same⟩
    · obtain ⟨added, next, now, continued, reached⟩ := completed.continuation byHeight
      exact .inr ⟨readyHeight, added, next, below, now, continued, reached⟩

end Source

section Sample

theorem sampleHost_rejects : sampleHost.json.RejectsSegments := by
  intro data segment
  have apart : data ≠ [123, 125, 10] := by
    rintro rfl
    revert segment
    decide
  exact ⟨_, if_neg apart⟩

theorem serve_alone (op : Op) (s : ObjectStore spelledContent) :
    Alone sampleHost sampleSource.Answers op s (serve sampleCodec sampleSource op s).1 (serve sampleCodec sampleSource op s).2 := by
  refine ⟨by apply serve_effect; exact fun _ => rfl, ?_⟩
  cases op with
  | base | height | loadBlock | archiveHeightLimit => rfl
  | _ => trivial

def liveRun (program : M LiveArchiveResult) (n : Nat) :
    Proc Op Op.Res (Except Err LiveArchiveResult) × ObjectStore spelledContent :=
  drive (serve sampleCodec sampleSource) n ⟨program.run, []⟩ .empty

theorem liveRun_leads {program : M LiveArchiveResult} {n : Nat}
    (ok : (liveRun program n).1.rest.returned.map Except.toBool = some true) :
    ∃ result, program.run.Leads (Alone sampleHost sampleSource.Answers) .empty (.ok result) (liveRun program n).2 := by
  obtain ⟨ended, returned, isOk⟩ := Option.map_eq_some_iff.mp ok
  cases ended with
  | error err => cases isOk
  | ok result => exact ⟨result, drive_leads serve_alone n returned⟩

theorem live_archiving_appends_sample :
    (∃ (result : LiveArchiveResult) (s : ObjectStore spelledContent) (next : Int),
      (archiveReady sampleHost liveOptions).run.Leads (Alone sampleHost sampleSource.Answers) .empty (.ok result) s ∧
        Continuation sampleHost sampleSource liveOptions 1 1 (published sampleHost "m" s) next ∧ next = 2) ∧
    ∃ (result : LiveArchiveResult) (s : ObjectStore spelledContent) (readyHeight next : Int),
      (archiveReadyFromHead sampleHost liveOptions 0).run.Leads (Alone sampleHost sampleSource.Answers) .empty (.ok result) s ∧
        Continuation sampleHost sampleSource (liveOptions.upTo readyHeight) 1 readyHeight (published sampleHost "m" s) next ∧
        readyHeight = 1 ∧ next = 2 := by
  have placed : ∀ height block, sampleSource.block height = some block → block.height = height := by
    intro height block found
    change (if height = 1 then some sampleBlock else none) = some block at found
    split at found
    next one =>
      cases found
      exact one.symm
    next => cases found
  obtain ⟨-, whole, -, -, -, fromHead⟩ := @live_archiving_appends _ sampleHost _ "m" .empty liveOptions sampleSource
    sampleHost_lawful sampleHost_rejects rfl placed (by decide)
  rw [published_of_absent (rfl : ObjectStore.empty.objects "m" = none)] at whole fromHead
  constructor
  · obtain ⟨result, led⟩ := @liveRun_leads (archiveReady sampleHost liveOptions) 30 (by decide +kernel)
    obtain ⟨added, next, now, continued, reached⟩ := whole result _ led
    rw [List.nil_append] at now
    subst now
    exact ⟨result, _, next, led, continued, reached⟩
  · obtain ⟨result, led⟩ := @liveRun_leads (archiveReadyFromHead sampleHost liveOptions 0) 30 (by decide +kernel)
    rcases fromHead 0 result _ led with
      ⟨⟨_, rfl, zero | within | ⟨bounded, -⟩⟩, -⟩ | ⟨_, added, next, ⟨_, rfl, -, rfl⟩, now, continued, reached⟩
    · cases zero
    · exact absurd within (by decide)
    · cases bounded
    · rw [List.nil_append] at now
      subst now
      exact ⟨result, _, _, next, led, continued, rfl, reached⟩

end Sample

end CometArchive.Archive
