import CometArchive.Archive.LiveContinuation
import CometArchive.Archive.PruneSafety
import CometArchive.Blocksync.CheckpointArchive

set_option autoImplicit false

namespace CometArchive.Cli

open GoBytes GoError Programs Programs.Fallible Runs Archive Ingest

variable {V : Type}

def liveIngestStartHeight (blockStore : BlockStore) (lastHeight : Int) : Int :=
  -- where ingestion starts when the archive ends at `lastHeight`, which is zero for an empty one
  if blockStore.height = 0 ∧ 0 < lastHeight then lastHeight + 1 else 0

/-- One iteration: whether the loop goes on, and the verifier's cache. `pruneDue` tells whether the last prune
is long enough ago. -/
def runMaintenance (host : Host V) (archiveOpts : LiveArchiveOptions) (safetyWindow : Int) (pruneOpts : PruneHotOptions)
    (pruneDue : Bool) (verified : VerifiedCache) : Prog Op Op.Res (Bool × VerifiedCache) := do
  let archived ← (archiveReadyFromHead host archiveOpts safetyWindow).run
  match archived with
  | .error _ =>
    let ctx ← ask .ctxErr
    return (ctx.isOk, verified)
  | .ok _ =>
    if pruneDue = false then return (true, verified)
    else
      let (verified, pruned) ← runLivePrune host pruneOpts verified
      match pruned with
      | .error _ =>
        let ctx ← ask .ctxErr
        return (ctx.isOk, verified)
      | .ok _ => return (true, verified)

def MaintainsAt (host : Host V) (key : String) (p : Prog Op Op.Res (Bool × VerifiedCache)) : Prop :=
  -- an iteration that archives to the manifest at `key` and prunes by it
  ∃ (archiveOpts : LiveArchiveOptions) (safetyWindow : Int) (pruneOpts : PruneHotOptions) (pruneDue : Bool)
    (verified : VerifiedCache), chosenManifestKey archiveOpts.keyPrefix archiveOpts.chainID archiveOpts.manifestName
      archiveOpts.manifestKey = key ∧ pruneOpts.manifestKey = key ∧
    p = runMaintenance host archiveOpts safetyWindow pruneOpts pruneDue verified

def MaintainMay (host : Host V) (key : String) (history : History) : Op → Prop
  -- the rules of an iteration: it publishes what archiving does, and prunes by a manifest that it loaded
  | .compareAndSwap other data revision =>
    other = key → ∃ chainID, LivePublishes host key chainID history data revision
  | .putIfAbsent _ data | .putIfAbsentReturningETag _ data => IsSegment data
  | .pruneHotStore m _ => ∃ verified, Snapshot host key verified history m
  | _ => True

section Rules

variable {host : Host V} {key : String}

theorem Reading.maintain {op : Op} {history : History} (reading : Reading op) : MaintainMay host key history op := by
  cases op with
  | putIfAbsent | putIfAbsentReturningETag | compareAndSwap | pruneHotStore => exact reading.elim
  | _ => trivial

theorem runLivePrune_follows {opts : PruneHotOptions} {verified : VerifiedCache} {history : History}
    (named : opts.manifestKey = key) :
    (runLivePrune host opts verified).All (MaintainMay host key) (fun _ _ => True) history := by
  subst named
  unfold runLivePrune
  refine Prog.All.bind (Prog.All.mono (Prog.All.weaken verifyArchive_snapshot.all
    fun _ _ reading => Reading.maintain reading) ?_)
  intro later checked holds
  cases checked with
  | error err =>
    dsimp only
    split
    · trivial
    · trivial
  | ok returned =>
    obtain ⟨result, after⟩ := returned
    dsimp only
    split
    · trivial
    · exact ⟨⟨verified, holds⟩, fun _ => trivial⟩

theorem MaintainsAt.follows {p : Prog Op Op.Res (Bool × VerifiedCache)} (json : host.json.Lawful)
    (maintains : MaintainsAt host key p) : p.All (MaintainMay host key) (fun _ _ => True) [] := by
  obtain ⟨archiveOpts, safetyWindow, pruneOpts, pruneDue, verified, named, same, rfl⟩ := maintains
  have archives : (archiveReadyFromHead host archiveOpts safetyWindow).Ok
      (May key (fun _ data => IsSegment data) (LivePublishes host key archiveOpts.chainID)) (fun _ _ => True)
      (fun later _ => known key later ≠ .refused) [] :=
    archiveReadyFromHead_ok json named rfl (fun _ _ _ segment => segment) (by simp [known])
  unfold runMaintenance
  refine Prog.All.bind (Prog.All.mono (Prog.All.weaken archives.all ?_) ?_)
  · rintro history op ⟨-, rule⟩
    cases op with
    | compareAndSwap other data revision => exact fun here => ⟨_, rule here⟩
    | pruneHotStore => exact rule.elim
    | putIfAbsent | putIfAbsentReturningETag => exact rule
    | _ => trivial
  · intro later archived _
    cases archived with
    | error err => exact ⟨trivial, fun _ => trivial⟩
    | ok result =>
      dsimp only
      split
      · trivial
      · refine Prog.All.bind (Prog.All.mono (runLivePrune_follows same) ?_)
        rintro last ⟨cache, pruned⟩ -
        cases pruned with
        | error err => exact ⟨trivial, fun _ => trivial⟩
        | ok result => trivial

end Rules

def ManifestIndexes {contentOf : String → Bytes} (host : Host V) (key : String) (s : ObjectStore contentOf) (height : Int)
    (hash : Bytes) : Prop :=
  ∃ m, manifestAt host key s = some m ∧ m.Indexes height hash

section Manifest

variable {host : Host V} {contentOf : String → Bytes} {key : String} {s s' : ObjectStore contentOf} {history : History}

theorem manifestAt_congr (same : s'.objects key = s.objects key) : manifestAt host key s' = manifestAt host key s := by
  unfold manifestAt
  rw [same]

theorem manifestAt_of_holds {data : Bytes} {revision : String} {m : Manifest}
    (stored : s.objects key = some ⟨data, revision⟩) (holds : Holds host data m) :
    ∃ read, manifestAt host key s = some read ∧ read.content = m.content := by
  obtain ⟨read, parsed, same⟩ := holds
  refine ⟨read, ?_, same⟩
  unfold manifestAt
  rw [stored, Option.bind_some, parsed]
  rfl

theorem indexes_of_content {m m' : Manifest} (same : m'.content = m.content) (height : Int) (hash : Bytes) :
    m'.Indexes height hash ↔ m.Indexes height hash := by
  have segments : m'.content.segments = m.content.segments := by rw [same]
  change m'.segments = m.segments at segments
  unfold Manifest.Indexes
  rw [segments]

theorem uploads_manifestAt {stores : Bytes → Bytes → Prop} {other : String} {data : Bytes}
    (rejects : host.json.RejectsSegments) (segment : IsSegment data) (kept : ∀ stored, stores data stored → stored = data)
    (uploads : Uploads stores s other data s') : manifestAt host key s' = manifestAt host key s := by
  obtain ⟨absent, ⟨stored, revision⟩, same, written⟩ := uploads
  obtain rfl := kept stored same
  by_cases here : key = other
  · subst here
    obtain ⟨text, rejected⟩ := rejects stored segment
    unfold manifestAt
    rw [show s'.objects = _ from written, Function.update_self, absent, Option.bind_some, rejected]
    rfl
  · exact manifestAt_congr (by rw [show s'.objects = _ from written, Function.update_of_ne here])

def Gains (host : Host V) (key : String) (history : History) (s s' : ObjectStore contentOf) : Prop :=
  -- the manifest gains the entries of a segment that was built from what the history has
  ∃ after segment chainID first last, manifestAt host key s' = some after ∧ after.Valid ∧
    Built host chainID first last history segment ∧
    ∀ height hash, after.Indexes height hash ↔ ManifestIndexes host key s height hash ∨ segment.Indexes height hash

theorem swaps_gains {chainID : String} {data : Bytes} {revision newRevision : String}
    (publishes : LivePublishes host key chainID history data revision)
    (facts : ∀ entry ∈ history, Revised contentOf entry) (swaps : Swaps s key data revision newRevision s') :
    Gains host key history s s' := by
  let setup : Setup := ⟨host.hasReader, host.hasStore, host.returnsETag, host.bounded⟩
  have publishing : LivePublishes (setup.on host) key chainID history data revision := publishes
  have replaces := publishing.replaces
  obtain ⟨before, after, segment, first, last, published, segments, -, built, -⟩ := publishes
  obtain ⟨matched, written⟩ := swaps
  have stored : s'.objects key = some ⟨data, newRevision⟩ := by
    rw [show s'.objects = _ from written, Function.update_self]
  obtain ⟨read, found, same⟩ := manifestAt_of_holds stored published.encoded
  -- the manifest that is replaced is the one the segment was added to
  have old (height : Int) (hash : Bytes) : before.Indexes height hash ↔ ManifestIndexes host key s height hash := by
    have based := published.based
    rcases replaces.current facts matched with ⟨missing, absent⟩ | ⟨data, seen, known, present⟩
    · rw [missing] at based
      constructor
      · rintro ⟨other, member, -⟩
        rw [based.2.2] at member
        cases member
      · rintro ⟨m, there, -⟩
        unfold manifestAt at there
        rw [absent] at there
        cases there
    · rw [known] at based
      obtain ⟨current, there, agree⟩ := manifestAt_of_holds present based.2.2
      rw [← indexes_of_content agree]
      constructor
      · exact fun indexed => ⟨current, there, indexed⟩
      · rintro ⟨m, again, indexed⟩
        cases there.symm.trans again
        exact indexed
  refine ⟨read, segment, chainID, first, last, found, published.validAfter.of_content same, built, ?_⟩
  intro height hash
  rw [indexes_of_content same, ← old height hash]
  unfold Manifest.Indexes
  simp [segments, or_and_right, exists_or]

theorem effect_manifestAt {op : Op} {answer : op.Res} (rejects : host.json.RejectsSegments)
    (may : MaintainMay host key history op) (facts : ∀ entry ∈ history, Revised contentOf entry)
    (taken : Effect host.codec (fun data stored => stored = data) op s answer s') :
    manifestAt host key s' = manifestAt host key s ∨ Gains host key history s s' := by
  cases op with
  | putIfAbsent other data =>
    left
    cases answer with
    | error err =>
      rcases taken with rfl | uploads
      · rfl
      · exact uploads_manifestAt rejects may (fun _ => id) uploads
    | ok =>
      dsimp only [Effect] at taken
      exact uploads_manifestAt rejects may (fun _ => id) taken
  | putIfAbsentReturningETag other data =>
    left
    cases answer with
    | error err =>
      rcases taken with rfl | uploads
      · rfl
      · exact uploads_manifestAt rejects may (fun _ => id) uploads
    | ok etag =>
      dsimp only [Effect] at taken
      exact uploads_manifestAt rejects may (fun _ kept => kept.1) taken
  | compareAndSwap other data revision =>
    have lands {newRevision : String} (swaps : Swaps s other data revision newRevision s') :
        manifestAt host key s' = manifestAt host key s ∨ Gains host key history s s' := by
      by_cases here : other = key
      · obtain ⟨chainID, publishes⟩ := may here
        subst here
        exact .inr (swaps_gains publishes facts swaps)
      · left
        apply manifestAt_congr
        rw [show s'.objects = _ from swaps.2, Function.update_of_ne (Ne.symm here)]
    cases answer with
    | error err =>
      rcases taken with rfl | ⟨newRevision, swaps⟩
      · exact .inl rfl
      · exact lands swaps
    | ok newRevision => exact lands taken
  | _ =>
    left
    rcases taken.touch key with same | ⟨-, data, upload⟩ | ⟨_, _, _, swap, -, -⟩
    · exact manifestAt_congr same
    · rcases upload with upload | upload <;> cases upload
    · cases swap

end Manifest

section Node

variable {X : Type} {comet : Comet V} {initial : BlockStore}

def Ingests (comet : Comet V) (node : LiveNode V X) (event : Event V) (node' : LiveNode V X) : Prop :=
  ∃ ask block, event = .submit ask block ∧ node' = node.after comet event

theorem submit_advances {i : HotIngestor V} (extending : Extending comet i) (ask : Int → SourceAnswer V)
    (block : Option Block) :
    (HotIngestor.submit comet ask i block).1.store = i.store ∨ ∃ saved,
      i.store.saveBlock saved = some (HotIngestor.submit comet ask i block).1.store ∧ saved.height = i.afterHead := by
  have cases := HotIngestor.submit_cases comet ask i block
  generalize HotIngestor.submit comet ask i block = result at cases
  cases cases with
  | rejected _ i' err cached => exact .inl cached.store
  | first block mid cached => exact .inl (by rw [accept_store, cached.store])
  | persisted block pending mid commit header store cached checked next waiting commits signed saved =>
    exact .inr ⟨pending, by rw [accept_store, saved], extending.next pending waiting⟩
  | panicked block pending mid cached => exact .inl cached.store

theorem everStored_new {events : List (Event V)} {p : Process V} {event : Event V} {h : Int} {block : Block}
    (run : Run (Process.Step comet) (.stopped initial) events p)
    (found : everStored comet initial (events ++ [event]) h = some block) :
    everStored comet initial events h = some block ∨ (p.step comet event).store.load h = some block := by
  rw [everStored_snoc run] at found
  rcases Option.or_eq_some_iff.mp found with old | ⟨-, new⟩
  · exact .inl old
  · exact .inr new

theorem everStored_same {events : List (Event V)} {p : Process V} {event : Event V} {h : Int} {block : Block}
    (run : Run (Process.Step comet) (.stopped initial) events p)
    (subset : ∀ h block, (p.step comet event).store.load h = some block → p.store.load h = some block)
    (found : everStored comet initial (events ++ [event]) h = some block) :
    everStored comet initial events h = some block := by
  rcases everStored_new run found with old | new
  · exact old
  · exact (run_recorded run).stored h block (subset h block new)

end Node

section Coverage

variable {host : Host V} {contentOf : String → Bytes} {key : String} {initial : BlockStore}
  {node node' : LiveNode V (ObjectStore contentOf)}

def Restarts (host : Host V) (key : String) (node : LiveNode V (ObjectStore contentOf)) (event : Event V)
    (node' : LiveNode V (ObjectStore contentOf)) : Prop :=
  -- a node is started on an empty hot store to go on after the archive
  ∃ opts, event = .start opts ∧ node' = node.after host.comet event ∧
    (node.process.store.height = 0 → opts.startHeight = liveIngestStartHeight node.process.store
      (((manifestAt host key node.objects).map (·.lastHeight)).getD 0))

/-- The hot store and the manifest cover all that was stored, and agree where both have it. -/
structure Covered (host : Host V) (key : String) (initial : BlockStore) (node : LiveNode V (ObjectStore contentOf)) :
    Prop where
  genuine : node.Genuine host.comet initial
  valid : ∀ m, manifestAt host key node.objects = some m → m.Valid
  agrees : ∀ h hash block, ManifestIndexes host key node.objects h hash →
    everStored host.comet initial node.events h = some block → hash = hexEncode (host.comet.blockHash block)
  reached : 0 < node.process.store.height →
    ∀ h hash, ManifestIndexes host key node.objects h hash → h ≤ node.process.store.height
  fresh : ∀ i, node.process = .running i → i.store.height = 0 →
    ∀ h hash, ManifestIndexes host key node.objects h hash → h < i.opts.startHeight
  pruned : ∀ h block, everStored host.comet initial node.events h = some block → h < node.process.store.base →
    ∃ hash, ManifestIndexes host key node.objects h hash

theorem Covered.below {i : HotIngestor V} (covered : Covered host key initial node) (running : node.process = .running i)
    {h : Int} {hash : Bytes} (indexed : ManifestIndexes host key node.objects h hash) : h < i.afterHead := by
  have reached := covered.reached
  rw [running] at reached
  unfold HotIngestor.afterHead
  split
  next filled =>
    have bound : h ≤ i.store.height := reached filled h hash indexed
    omega
  next empty =>
    have nonneg := i.store.height_nonneg
    exact covered.fresh i running (by omega) h hash indexed

theorem Covered.still {event : Event V} (covered : Covered host key initial node)
    (same : (node.process.step host.comet event).store = node.process.store)
    (fresh : ∀ i, node.process.step host.comet event = .running i → i.store.height = 0 →
      ∀ h hash, ManifestIndexes host key node.objects h hash → h < i.opts.startHeight) :
    Covered host key initial (node.after host.comet event) := by
  have genuine := covered.genuine
  have old {h : Int} {block : Block} (found : everStored host.comet initial (node.events ++ [event]) h = some block) :
      everStored host.comet initial node.events h = some block :=
    everStored_same genuine (fun _ _ there => by rwa [same] at there) found
  have now : (node.after host.comet event).process.store = node.process.store := same
  refine ⟨genuine.after _, covered.valid, ?_, ?_, fresh, ?_⟩
  · intro h hash block indexed found
    exact covered.agrees h hash block indexed (old found)
  · rw [now]
    exact covered.reached
  · intro h block found low
    rw [now] at low
    exact covered.pruned h block (old found) low

theorem Covered.ingest (covered : Covered host key initial node) (ask : Int → SourceAnswer V) (block : Option Block) :
    Covered host key initial (node.after host.comet (.submit ask block)) := by
  have genuine := covered.genuine
  have recorded := run_recorded genuine
  cases running : node.process with
  | stopped store =>
    have step : node.process.step host.comet (.submit ask block) = node.process := by
      rw [running]
      rfl
    apply covered.still (by rw [step])
    rw [step]
    exact covered.fresh
  | running i =>
    have extending := (run_names genuine).extending i running
    have step : node.process.step host.comet (.submit ask block) =
        .running (HotIngestor.submit host.comet ask i block).1 := by
      rw [running, step_submit (submit_extending extending ask block).2]
    rcases submit_advances extending ask block with same | ⟨saved, grown, next⟩
    · apply covered.still (by rw [step, running]; exact same)
      intro i' started empty
      rw [step] at started
      cases started
      rw [same] at empty
      rw [HotIngestor.submit_opts]
      exact covered.fresh i running empty
    · obtain ⟨height, base, -⟩ := BlockStore.saveBlock_spec grown
      obtain ⟨positive, extend⟩ := BlockStore.saveBlock_isSome.mp (Option.isSome_of_eq_some grown)
      have range := i.store.range
      have old {h : Int} {stored : Block}
          (found : everStored host.comet initial (node.events ++ [.submit ask block]) h = some stored) :
          everStored host.comet initial node.events h = some stored ∨ h = saved.height := by
        rcases everStored_new genuine found with before | new
        · exact .inl before
        · by_cases same : h = saved.height
          · exact .inr same
          · rw [step] at new
            change (HotIngestor.submit host.comet ask i block).1.store.load h = some stored at new
            rw [BlockStore.saveBlock_load_of_ne grown same] at new
            exact .inl (recorded.stored h stored (by rw [running]; exact new))
      have now : (node.after host.comet (.submit ask block)).process.store =
        (HotIngestor.submit host.comet ask i block).1.store := congrArg Process.store step
      refine ⟨genuine.after _, covered.valid, ?_, ?_, ?_, ?_⟩
      · intro h hash stored indexed found
        rcases old found with before | rfl
        · exact covered.agrees h hash stored indexed before
        · have below := covered.below running indexed
          omega
      · intro _ h hash indexed
        have below := covered.below running indexed
        rw [now]
        omega
      · intro i' started empty
        change node.process.step host.comet (.submit ask block) = .running i' at started
        rw [step] at started
        cases started
        omega
      · intro h stored found low
        rw [now, base] at low
        rcases old found with before | rfl
        · have bounds := recorded.bounds h stored before
          have kept := covered.pruned h stored before
          rw [running] at bounds kept
          change 0 < h ∧ h ≤ i.store.height at bounds
          rw [if_neg (by omega)] at low
          exact kept low
        · split at low <;> omega

theorem Covered.restart {opts : IngestOptions V} (covered : Covered host key initial node)
    (start : node.process.store.height = 0 → opts.startHeight = liveIngestStartHeight node.process.store
      (((manifestAt host key node.objects).map (·.lastHeight)).getD 0)) :
    Covered host key initial (node.after host.comet (.start opts)) := by
  cases built : newHotIngestor host.comet (some node.process.store) opts with
  | error err =>
    have step : node.process.step host.comet (.start opts) = .stopped node.process.store := by
      rw [Process.step, built]
    apply covered.still (by rw [step]; rfl)
    intro i running
    rw [step] at running
    cases running
  | ok i =>
    have step : node.process.step host.comet (.start opts) = .running i := by rw [Process.step, built]
    obtain ⟨store, -, -, -, configured, -⟩ := newHotIngestor_spec host.comet built
    apply covered.still (by rw [step]; exact store)
    rintro i' running empty h hash ⟨m, found, indexes⟩
    rw [step] at running
    cases running
    rw [store] at empty
    have bounds := (covered.valid m found).bounds indexes
    have given := start empty
    rw [found] at given
    change opts.startHeight = liveIngestStartHeight node.process.store m.lastHeight at given
    rw [liveIngestStartHeight, if_pos ⟨empty, by omega⟩] at given
    have chosen := configured.start (by omega)
    omega

theorem Covered.prune {i : HotIngestor V} {target : Int} {hot : BlockStore} (covered : Covered host key initial node)
    (running : node.process = .running i) (pruned : i.store.pruneBlocks target = .ok hot)
    (archived : ∀ h, i.store.base ≤ h → h < target → ∃ hash, ManifestIndexes host key node.objects h hash) :
    Covered host key initial (node.after host.comet (.prune target)) := by
  have genuine := covered.genuine
  obtain ⟨-, -, -, -, base, height, load⟩ := BlockStore.pruneBlocks_spec pruned
  have step : node.process.step host.comet (.prune target) = .running { i with store := hot } := by
    rw [running, Process.step, show (Process.running i).store.pruneBlocks target = .ok hot from pruned]
    rfl
  have now : (node.after host.comet (.prune target)).process.store = hot := congrArg Process.store step
  have old {h : Int} {block : Block}
      (found : everStored host.comet initial (node.events ++ [.prune target]) h = some block) :
      everStored host.comet initial node.events h = some block := by
    apply everStored_same genuine _ found
    intro h block there
    rw [step] at there
    change hot.load h = some block at there
    rw [load] at there
    rw [running]
    split at there
    · cases there
    · exact there
  refine ⟨genuine.after _, covered.valid, ?_, ?_, ?_, ?_⟩
  · intro h hash block indexed found
    exact covered.agrees h hash block indexed (old found)
  · rw [now, height]
    have reached := covered.reached
    rw [running] at reached
    exact reached
  · intro i' started empty
    change node.process.step host.comet (.prune target) = .running i' at started
    rw [step] at started
    cases started
    exact covered.fresh i running (height.symm.trans empty)
  · intro h block found low
    rw [now, base] at low
    by_cases gone : h < i.store.base
    · apply covered.pruned h block (old found)
      rw [running]
      exact gone
    · exact archived h (by omega) low

def Seen (host : Host V) (key : String) (s : ObjectStore contentOf) : Entry Op Op.Res → Prop
  -- a manifest that was loaded is still part of the published one
  | ⟨.getVersioned other, .ok (data, _)⟩ => other = key → ∀ read, host.json.unmarshalManifest data = .ok read →
    ∀ h hash, read.Indexes h hash → ManifestIndexes host key s h hash
  | _ => True

theorem Seen.grows {s s' : ObjectStore contentOf} {entry : Entry Op Op.Res} (seen : Seen host key s entry)
    (grown : ∀ h hash, ManifestIndexes host key s h hash → ManifestIndexes host key s' h hash) :
    Seen host key s' entry := by
  obtain ⟨op, answer⟩ := entry
  cases op with
  | getVersioned other =>
    rcases answer with err | ⟨data, revision⟩
    · trivial
    · exact fun here read parsed h hash indexes => grown h hash (seen here read parsed h hash indexes)
  | _ => trivial

theorem Seen.learned {op : Op} {s s' : ObjectStore contentOf} {answer : op.Res}
    (taken : Effect host.codec (fun data stored => stored = data) op s answer s') : Seen host key s' ⟨op, answer⟩ := by
  cases op with
  | getVersioned other =>
    rcases answer with err | ⟨data, revision⟩
    · trivial
    · rintro rfl read parsed h hash indexes
      obtain ⟨rfl, stored⟩ := taken
      refine ⟨read, ?_, indexes⟩
      unfold manifestAt
      rw [stored, Option.bind_some, parsed]
      rfl
  | _ => trivial

def Knows (host : Host V) (key : String) (initial : BlockStore) (node : LiveNode V (ObjectStore contentOf))
    (trace : History) : Prop :=
  ∀ entry ∈ trace, HotFact host.comet initial node entry ∧ Revised contentOf entry ∧ Seen host key node.objects entry

theorem Covered.remote {op : Op} {answer : op.Res} {trace : History} {objects : ObjectStore contentOf}
    (covered : Covered host key initial node) (rejects : host.json.RejectsSegments)
    (knows : Knows host key initial node trace) (may : MaintainMay host key trace op)
    (taken : Effect host.codec (fun data stored => stored = data) op node.objects answer objects) :
    Covered host key initial { node with objects } ∧
      ∀ h hash, ManifestIndexes host key node.objects h hash → ManifestIndexes host key objects h hash := by
  have revised : ∀ entry ∈ trace, Revised contentOf entry := fun entry member => (knows entry member).2.1
  have facts : ∀ entry ∈ trace, HotFact host.comet initial node entry := fun entry member => (knows entry member).1
  rcases effect_manifestAt rejects may revised taken with same | gains
  · have unchanged (h : Int) (hash : Bytes) :
        ManifestIndexes host key objects h hash ↔ ManifestIndexes host key node.objects h hash := by
      unfold ManifestIndexes
      rw [same]
    refine ⟨⟨covered.genuine, ?_, ?_, ?_, ?_, ?_⟩, fun h hash => (unchanged h hash).mpr⟩
    · rw [same]
      exact covered.valid
    all_goals simp only [unchanged]
    · exact covered.agrees
    · exact covered.reached
    · exact covered.fresh
    · exact covered.pruned
  · obtain ⟨after, segment, chainID, first, last, found, valid, built, gained⟩ := gains
    have recorded := run_recorded covered.genuine
    have now (h : Int) (hash : Bytes) : ManifestIndexes host key objects h hash ↔
        ManifestIndexes host key node.objects h hash ∨ segment.Indexes h hash := by
      rw [← gained]
      constructor
      · rintro ⟨m, there, indexes⟩
        cases found.symm.trans there
        exact indexes
      · exact fun indexes => ⟨after, found, indexes⟩
    -- what is new was read from the hot store
    have new {h : Int} {hash : Bytes} (indexes : segment.Indexes h hash) :
        ∃ block, everStored host.comet initial node.events h = some block ∧
          hash = hexEncode (host.comet.blockHash block) := by
      obtain ⟨entry, member, rfl, rfl⟩ := indexes
      exact (built_hot covered.genuine facts built entry member).2
    refine ⟨⟨covered.genuine, ?_, ?_, ?_, ?_, ?_⟩, fun h hash indexed => (now h hash).mpr (.inl indexed)⟩
    · intro m there
      cases found.symm.trans there
      exact valid
    · intro h hash block indexed ever
      rcases (now h hash).mp indexed with old | indexes
      · exact covered.agrees h hash block old ever
      · obtain ⟨other, again, same⟩ := new indexes
        cases ever.symm.trans again
        exact same
    · intro filled h hash indexed
      rcases (now h hash).mp indexed with old | indexes
      · exact covered.reached filled h hash old
      · obtain ⟨block, ever, -⟩ := new indexes
        exact (recorded.bounds h block ever).2
    · intro i running empty h hash indexed
      rcases (now h hash).mp indexed with old | indexes
      · exact covered.fresh i running empty h hash old
      · obtain ⟨block, ever, -⟩ := new indexes
        have bounds := recorded.bounds h block ever
        rw [show node.process = _ from running] at bounds
        change 0 < h ∧ h ≤ i.store.height at bounds
        omega
    · intro h block ever low
      obtain ⟨hash, indexed⟩ := covered.pruned h block ever low
      exact ⟨hash, (now h hash).mpr (.inl indexed)⟩

theorem Covered.call {op : Op} {answer : op.Res} {trace : History} (covered : Covered host key initial node)
    (rejects : host.json.RejectsSegments) (knows : Knows host key initial node trace)
    (may : MaintainMay host key trace op)
    (taken : HotEffect host.comet (Effect host.codec fun data stored => stored = data) op node answer node') :
    Covered host key initial node' ∧ Knows host key initial node' (trace ++ [⟨op, answer⟩]) := by
  have hot := HotFact.call covered.genuine (fun entry member => (knows entry member).1) taken
  have known (grown : ∀ h hash, ManifestIndexes host key node.objects h hash → ManifestIndexes host key node'.objects h hash)
      (learned : Revised contentOf ⟨op, answer⟩ ∧ Seen host key node'.objects ⟨op, answer⟩) :
      Knows host key initial node' (trace ++ [⟨op, answer⟩]) := by
    intro entry member
    refine ⟨hot entry member, ?_⟩
    rcases List.mem_append.mp member with old | new
    · exact ⟨(knows entry old).2.1, (knows entry old).2.2.grows grown⟩
    · cases List.mem_singleton.mp new
      exact learned
  cases op with
  | base | height | loadBlock | archiveHeightLimit =>
    obtain ⟨rfl, -⟩ := taken
    exact ⟨covered, known (fun _ _ => id) ⟨trivial, trivial⟩⟩
  | pruneHotStore m opts =>
    obtain ⟨i, ctx, fault, running, ended⟩ := taken
    split at ended
    next =>
      obtain ⟨-, rfl⟩ := ended
      exact ⟨covered, known (fun _ _ => id) ⟨trivial, trivial⟩⟩
    next result pruned =>
      obtain ⟨-, ⟨-, rfl⟩ | ⟨target, deleted, rfl⟩⟩ := ended
      · exact ⟨covered, known (fun _ _ => id) ⟨trivial, trivial⟩⟩
      · refine ⟨covered.prune running deleted ?_, known (fun _ _ => id) ⟨trivial, trivial⟩⟩
        obtain ⟨verified, snapshot⟩ := may
        obtain ⟨data, read, revision, entry, -, parsed, same⟩ := snapshot.loaded
        obtain ⟨-, -, -, positive, base, -, -⟩ := BlockStore.pruneBlocks_spec deleted
        intro h low high
        rcases pruneHotStore_spec pruned with rfl | ⟨pruneTo, chainID, again, -, top, -, bottom, boundary⟩
        · omega
        · obtain ⟨-, -, -, -, moved, -, -⟩ := BlockStore.pruneBlocks_spec again
          obtain ⟨-, lower, upper, -⟩ := validatePruneBoundary_spec snapshot.valid.segments boundary
          have filled : 0 < m.firstHeight := by
            rcases snapshot.valid.range with ⟨-, -, last⟩ | ⟨-, first, -, -⟩
            · omega
            · exact first
          obtain ⟨hash, indexes⟩ := snapshot.valid.exists_index filled (by omega : m.firstHeight ≤ h) (by omega)
          have seen := (knows _ entry).2.2 rfl read parsed h hash
          subst same
          exact ⟨hash, seen indexes⟩
  | _ =>
    obtain ⟨objects, effect, rfl⟩ := taken
    obtain ⟨after, grown⟩ := covered.remote rejects knows may effect
    exact ⟨after, known grown ⟨effect.revised, Seen.learned effect⟩⟩

theorem maintenance_keeps (rejects : host.json.RejectsSegments) :
    SoloKeeps (HotEffect host.comet (@Effect contentOf host.codec fun data stored => stored = data))
      (Ingests host.comet) (Restarts host key) (Covered host key initial) (Knows host key initial)
      (MaintainMay host key) where
  starts _ _ := by simp [Knows]
  calls _ _ _ _ _ covered knows may taken := covered.call rejects knows may taken
  moves := by
    rintro node _ _ covered ⟨ask, block, rfl, rfl⟩
    refine ⟨covered.ingest ask block, ?_⟩
    intro trace knows entry member
    exact ⟨(knows entry member).1.after covered.genuine (by rintro _ ⟨⟩), (knows entry member).2⟩
  resets := by
    rintro node _ _ covered ⟨opts, rfl, rfl, start⟩
    exact covered.restart start

theorem live_node_loses_nothing {objects : ObjectStore contentOf}
    {events : List (SoloEvent Op Op.Res (Bool × VerifiedCache) (Event V))}
    {m : Solo (LiveNode V (ObjectStore contentOf)) Op Op.Res (Bool × VerifiedCache)}
    (json : host.json.Lawful) (rejects : host.json.RejectsSegments)
    -- where there is a manifest, the hot store is empty, or reaches its end and agrees with it
    (start : ∀ manifest, manifestAt host key objects = some manifest → manifest.Valid ∧
      (initial.height = 0 ∨ manifest.lastHeight ≤ initial.height ∧ ∀ h hash block, manifest.Indexes h hash →
        initial.load h = some block → hash = hexEncode (host.comet.blockHash block)))
    (maintains : ∀ p, .spawn p ∈ events → MaintainsAt host key p)
    (run : Run (SoloStep (HotEffect host.comet (Effect host.codec fun data stored => stored = data)) (Ingests host.comet)
      (Restarts host key)) ⟨⟨.stopped initial, [], objects⟩, none⟩ events m) :
    (∀ h block, everStored host.comet initial m.shared.events h = some block →
      m.shared.process.store.load h = some block ∨ ∃ manifest, manifestAt host key m.shared.objects = some manifest ∧
        manifest.Indexes h (hexEncode (host.comet.blockHash block))) ∧
    ∀ h block, everStored host.comet initial m.shared.events h = some block → h < m.shared.process.store.base →
      ∃ manifest, manifestAt host key m.shared.objects = some manifest ∧
        m.shared.process.store.base ≤ manifest.lastHeight + 1 := by
  have covered : Covered host key initial ⟨.stopped initial, [], objects⟩ := by
    refine ⟨.refl, fun manifest found => (start manifest found).1, ?_, ?_, nofun, ?_⟩
    · rintro h hash block ⟨manifest, found, indexes⟩ ever
      rw [everStored_nil] at ever
      have bounds := BlockStore.bounds_of_load ever
      rcases (start manifest found).2 with empty | ⟨-, agrees⟩
      · omega
      · exact agrees h hash block indexes ever
    · rintro filled h hash ⟨manifest, found, indexes⟩
      have bounds := (start manifest found).1.bounds indexes
      change 0 < initial.height at filled
      change h ≤ initial.height
      rcases (start manifest found).2 with empty | ⟨reached, -⟩
      · omega
      · omega
    · intro h block ever low
      rw [everStored_nil] at ever
      have bounds := BlockStore.bounds_of_load ever
      change h < initial.base at low
      omega
  have sound : m.Sound (Covered host key initial) (Knows host key initial) (MaintainMay host key) fun _ _ => True :=
    Solo.run_sound (maintenance_keeps rejects) run (fun p member => (maintains p member).follows json) ⟨covered, nofun⟩
  have last := sound.inv
  have recorded := run_recorded last.genuine
  constructor
  · intro h block ever
    by_cases kept : m.shared.process.store.base ≤ h
    · exact .inl (recorded.load ever kept)
    · obtain ⟨hash, manifest, found, indexes⟩ := last.pruned h block ever (by omega)
      rw [last.agrees h hash block ⟨manifest, found, indexes⟩ ever] at indexes
      exact .inr ⟨manifest, found, indexes⟩
  · intro h block ever low
    -- with one block below the base the one right below it was stored too
    have range := m.shared.process.store.range
    have bounds := recorded.bounds h block ever
    obtain ⟨below, there⟩ := Option.isSome_iff_exists.mp
      (recorded.gapless h block ever (m.shared.process.store.base - 1) (by omega) (by omega))
    obtain ⟨hash, manifest, found, indexes⟩ := last.pruned _ below there (by omega)
    have inside := (last.valid manifest found).bounds indexes
    exact ⟨manifest, found, by omega⟩

end Coverage

section Sample

def busyNode : LiveNode Unit (ObjectStore spelledContent) :=
  [.start { plainOptions with startHeight := 0 }, submitPlain sampleBlock, submitPlain (.plain 2 sampleBlock.body [2]),
    submitPlain (.plain 3 [2] [3])].foldl (LiveNode.after sampleComet) ⟨.stopped .empty, [], .empty⟩

def busyIteration : Prog Op Op.Res (Bool × VerifiedCache) :=
  runMaintenance sampleHost liveOptions 1 { manifestKey := "m", retainBlocks := 1 } true ∅

def maintained (n : Nat) : Option (Proc Op Op.Res (Bool × VerifiedCache) × LiveNode Unit (ObjectStore spelledContent)) :=
  tryDrive (serveHot sampleComet sampleCodec) n ⟨busyIteration, []⟩ busyNode

def firstPruned (reached : Proc Op Op.Res (Bool × VerifiedCache) × LiveNode Unit (ObjectStore spelledContent)) : Bool :=
  reached.2.process.store.base == 2 && everStored sampleComet .empty reached.2.events 1 == some sampleBlock

theorem maintained_run {n : Nat} {proc : Proc Op Op.Res (Bool × VerifiedCache)}
    {node : LiveNode Unit (ObjectStore spelledContent)} (driven : maintained n = some (proc, node)) :
    ∃ events, (∀ p, .spawn p ∈ events → MaintainsAt sampleHost "m" p) ∧
      Run (SoloStep (HotEffect sampleComet (Effect sampleCodec fun data stored => stored = data)) (Ingests sampleComet)
        (Restarts sampleHost "m")) ⟨⟨.stopped .empty, [], .empty⟩, none⟩ events ⟨node, some proc⟩ := by
  obtain ⟨k, calls⟩ := Solo.run_walk (tryDrive_walk serveHot_effect driven)
  have spawned : SoloStep (HotEffect sampleComet (Effect sampleCodec fun data stored => stored = data))
    (Ingests sampleComet) (Restarts sampleHost "m") ⟨busyNode, none⟩ (.spawn busyIteration) ⟨busyNode, _⟩ := .spawn
  refine ⟨_, ?_, .cons (.reset ⟨_, rfl, rfl, fun _ => rfl⟩) (.cons (.env ⟨_, _, rfl, rfl⟩)
    (.cons (.env ⟨_, _, rfl, rfl⟩) (.cons (.env ⟨_, _, rfl, rfl⟩) (.cons spawned calls))))⟩
  intro p member
  simp only [List.mem_cons, reduceCtorEq, false_or, SoloEvent.spawn.injEq, List.mem_replicate, and_false, or_false] at member
  subst member
  exact ⟨_, _, _, _, _, rfl, rfl, rfl⟩

theorem live_node_loses_nothing_sample : ∃ (node : LiveNode Unit (ObjectStore spelledContent)) (manifest : Manifest),
    node.process.store.base = 2 ∧ manifestAt sampleHost "m" node.objects = some manifest ∧
      manifest.Indexes 1 (hexEncode (sampleComet.blockHash sampleBlock)) := by
  have prunes : (maintained 23).map firstPruned = some true := by decide +kernel
  obtain ⟨⟨proc, node⟩, driven, here⟩ := Option.map_eq_some_iff.mp prunes
  obtain ⟨base, ever⟩ : node.process.store.base = 2 ∧ everStored sampleComet .empty node.events 1 = some sampleBlock := by
    simpa [firstPruned] using here
  obtain ⟨events, maintains, run⟩ := maintained_run driven
  have covered := live_node_loses_nothing sampleHost_lawful sampleHost_rejects (by nofun) maintains run
  rcases covered.1 1 sampleBlock ever with there | ⟨manifest, found, indexes⟩
  · have bounds := BlockStore.bounds_of_load there
    dsimp only at bounds
    omega
  · exact ⟨node, manifest, base, found, indexes⟩

end Sample

end CometArchive.Cli
