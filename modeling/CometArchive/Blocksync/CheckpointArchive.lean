import CometArchive.Blocksync.LiveNode

set_option autoImplicit false

namespace CometArchive.Ingest

open GoBytes GoError HotIngestor Linked Runs Programs Programs.Fallible Archive

variable {V X : Type}

/-- The block is one with a configured hash, or an ancestor of one. -/
def Authentic (comet : Comet V) (opts : IngestOptions V) (block : Block) : Prop :=
  ∃ root, opts.checkpoints.lookup root.height = some (hexHash comet root) ∧
    Relation.ReflTransGen (Names comet) root block

def ArchivesAt (host : Host V) (key : String) (p : Prog Op Op.Res (Except Err LiveArchiveResult)) : Prop :=
  ∃ opts : LiveArchiveOptions,
    chosenManifestKey opts.keyPrefix opts.chainID opts.manifestName opts.manifestKey = key ∧
      (p = (archiveReady host opts).run ∨ ∃ safetyWindow, p = (archiveReadyFromHead host opts safetyWindow).run)

variable {host : Host V} {key : String} {remote : (op : Op) → X → op.Res → X → Prop} {initial : BlockStore}
  {node node' : LiveNode V X}

abbrev ArchiveMay (host : Host V) (key : String) : History → Op → Prop :=
  May key (fun _ _ => True) fun history data revision => ∃ chainID, LivePublishes host key chainID history data revision

theorem ArchivesAt.follows {p : Prog Op Op.Res (Except Err LiveArchiveResult)} (json : host.json.Lawful)
    (archives : ArchivesAt host key p) : p.All (ArchiveMay host key) (fun _ _ => True) [] := by
  obtain ⟨opts, named, program⟩ := archives
  have start : known key [] ≠ .refused := by simp [known]
  have relax {q : M LiveArchiveResult} (ok : q.Ok (May key (fun _ _ => True) (LivePublishes host key opts.chainID))
      (fun _ _ => True) (fun later _ => known key later ≠ .refused) []) :
      q.run.All (ArchiveMay host key) (fun _ _ => True) [] := by
    refine Prog.All.weaken (Prog.All.mono ok.all fun _ _ _ => trivial) ?_
    rintro later op ⟨clean, rule⟩
    refine ⟨clean, ?_⟩
    cases op with
    | compareAndSwap other data revision => exact fun same => ⟨opts.chainID, rule same⟩
    | _ => exact rule
  rcases program with rfl | ⟨safetyWindow, rfl⟩
  · exact relax (archiveReady_ok json named rfl (fun _ _ _ _ => trivial) start)
  · exact relax (archiveReadyFromHead_ok json named rfl (fun _ _ _ _ => trivial) start)

theorem live_keeps (may : History → Op → Prop) :
    SoloKeeps (HotEffect host.comet remote) (LiveMove host.comet) (LiveRestart host.comet)
      (LiveNode.Genuine host.comet initial) (fun node trace => ∀ entry ∈ trace, HotFact host.comet initial node entry)
      may where
  starts _ _ := by simp
  calls _ _ _ _ _ genuine facts _ taken := ⟨taken.genuine genuine, HotFact.call genuine facts taken⟩
  moves := by
    rintro node event _ genuine ⟨going, rfl⟩
    exact ⟨genuine.after event, fun _ facts entry member => (facts entry member).after genuine going⟩
  resets := by
    rintro node event _ genuine ⟨-, rfl⟩
    exact genuine.after event

theorem built_hot {chainID : String} {first last : Int} {history : History} {segment : SegmentManifest}
    (genuine : node.Genuine host.comet initial) (facts : ∀ entry ∈ history, HotFact host.comet initial node entry)
    (built : Built host chainID first last history segment) :
    ∀ entry ∈ segment.blocks, entry.height ≤ last ∧
      ∃ block, everStored host.comet initial node.events entry.height = some block ∧
        entry.hash = hexEncode (host.comet.blockHash block) := by
  -- what a segment indexes was read from the hot store, below a limit that was read there
  obtain ⟨records, data, encodes, -, read⟩ := built
  intro entry listed
  have pair : (entry.height, entry.hash) ∈ records.map fun record => (record.height, record.hash) := by
    rw [← encodes.blocks]
    exact List.mem_map_of_mem listed
  obtain ⟨record, member, same⟩ := List.mem_map.mp pair
  obtain ⟨height, hash⟩ := Prod.mk.inj same
  obtain ⟨h, block, -, below, loaded, -, recorded⟩ := read record member
  obtain ⟨sameHeight, sameHash⟩ := blockToRecord_spec recorded
  have ever : everStored host.comet initial node.events h = some block := facts _ loaded
  have filed := (run_recorded genuine).named h block ever
  rw [← height, ← hash, sameHeight, sameHash, filed]
  exact ⟨below, block, ever, rfl⟩

theorem checkpoint_authentication {events : List (SoloEvent Op Op.Res (Except Err LiveArchiveResult) (Event V))}
    {objects : X} {m : Solo (LiveNode V X) Op Op.Res (Except Err LiveArchiveResult)} {i : HotIngestor V}
    (json : host.json.Lawful) (limited : host.bounded = true)
    (archives : ∀ p, .spawn p ∈ events → ArchivesAt host key p)
    (run : Run (SoloStep (HotEffect host.comet remote) (LiveMove host.comet) (LiveRestart host.comet))
      ⟨⟨.stopped .empty, [], objects⟩, none⟩ events m)
    (running : m.shared.process = .running i) (mode : i.opts.validation = .checkpoint) :
    -- the limit is that of a checkpoint block, and covers its ancestors
    (0 < i.archiveHeightLimit → ∃ root,
      i.opts.checkpoints.lookup i.archiveHeightLimit = some (hexHash host.comet root) ∧
      root.height = i.archiveHeightLimit ∧
      (everStored host.comet .empty m.shared.events i.archiveHeightLimit = some root ∨ i.pending = some root) ∧
      (i.store.base ≤ i.archiveHeightLimit →
        i.store.load i.archiveHeightLimit = some root ∨ i.pending = some root) ∧
      ∀ h block, i.store.load h = some block → h ≤ i.archiveHeightLimit →
        Relation.ReflTransGen (Names host.comet) root block) ∧
    (∀ h block, i.store.load h = some block → h ≤ i.readyToArchiveThrough → Authentic host.comet i.opts block) ∧
    -- what is about to be published
    ∀ data revision next trace, m.current = some ⟨.call (.compareAndSwap key data revision) next, trace⟩ →
      ∃ before after segment, Based host key before (known key trace) ∧ Holds host data after ∧
        after.segments = before.segments ++ [segment] ∧ ∀ entry ∈ segment.blocks,
          ∃ block, everStored host.comet .empty m.shared.events entry.height = some block ∧
            entry.hash = hexEncode (host.comet.blockHash block) ∧ Authentic host.comet i.opts block := by
  have sound : m.Sound (LiveNode.Genuine host.comet .empty)
      (fun node trace => ∀ entry ∈ trace, HotFact host.comet .empty node entry) (ArchiveMay host key) fun _ _ => True :=
    Solo.run_sound (live_keeps _) run (fun p member => (archives p member).follows json) ⟨.refl, nofun⟩
  have genuine : Run (Process.Step host.comet) (.stopped .empty) m.shared.events (.running i) := running ▸ sound.inv
  have recorded := run_recorded genuine
  have reaches {limit h : Int} {root block : Block} (approved : Approved host.comet .empty m.shared.events i limit root)
      (ever : everStored host.comet .empty m.shared.events h = some block) (below : h ≤ limit) :
      Relation.ReflTransGen (Names host.comet) root block := by
    have positive : 0 < h := (recorded.bounds h block ever).1
    exact approved.reaches genuine ever (le_of_lt positive) below
  have limit : i.archiveHeightLimit = i.verifiedThrough := if_pos mode
  rw [limit]
  refine ⟨?_, ?_, ?_⟩
  · intro positive
    obtain ⟨root, approved⟩ := run_approved genuine i rfl positive
    exact ⟨root, approved.configured, approved.height, approved.held, approved.still genuine,
      fun h block found below => reaches approved (recorded.stored h block found) below⟩
  · intro h block found ready
    have bounds := BlockStore.bounds_of_load found
    have below : h ≤ i.verifiedThrough := by
      simp only [readyToArchiveThrough, mode, if_true] at ready
      split at ready <;> omega
    obtain ⟨root, approved⟩ := run_approved genuine i rfl (by omega)
    exact ⟨root, by rw [approved.height]; exact approved.configured, reaches approved (recorded.stored h block found) below⟩
  · intro data revision next trace current
    obtain ⟨all, facts⟩ := sound.current _ current
    obtain ⟨chainID, before, after, segment, first, last, publishes, segments, -, built, bounded⟩ := all.1.2 rfl
    refine ⟨before, after, segment, publishes.based, publishes.encoded, segments, ?_⟩
    intro entry listed
    obtain ⟨inside, block, ever, hash⟩ := built_hot sound.inv facts built entry listed
    obtain ⟨limit, answered, within⟩ := bounded limited
    have below := inside.trans within
    have positive := lt_of_lt_of_le (recorded.bounds _ block ever).1 below
    obtain ⟨root, approved⟩ := facts _ answered i running mode positive
    exact ⟨block, ever, hash, root, by rw [approved.height]; exact approved.configured, reaches approved ever below⟩

section Sample

def checkedHost : Host Unit := { sampleHost with bounded := true }

def checkedOptions : IngestOptions Unit :=
  { plainOptions with validation := .checkpoint, checkpoints := [(1, hexHash sampleComet sampleBlock)] }

def checkedNode : LiveNode Unit (ObjectStore spelledContent) :=
  [.start checkedOptions, submitPlain sampleBlock, submitPlain (.plain 2 sampleBlock.body [2])].foldl
    (LiveNode.after sampleComet) ⟨.stopped .empty, [], .empty⟩

def checkedArchive (n : Nat) : Option (Proc Op Op.Res (Except Err LiveArchiveResult) ×
    LiveNode Unit (ObjectStore spelledContent)) :=
  tryDrive (serveHot sampleComet sampleCodec) n ⟨(archiveReady checkedHost liveOptions).run, []⟩ checkedNode

def publishing : Proc Op Op.Res (Except Err LiveArchiveResult) × LiveNode Unit (ObjectStore spelledContent) → Bool
  | (⟨.call (.compareAndSwap key _ _) _, _⟩, ⟨.running i, _, _⟩) => key == "m" && i.opts.validation == .checkpoint
  | _ => false

theorem checkedArchive_run {n : Nat} {proc : Proc Op Op.Res (Except Err LiveArchiveResult)}
    {node : LiveNode Unit (ObjectStore spelledContent)} (driven : checkedArchive n = some (proc, node)) :
    ∃ events, (∀ p, .spawn p ∈ events → ArchivesAt checkedHost "m" p) ∧
      Run (SoloStep (HotEffect sampleComet (Effect sampleCodec fun data stored => stored = data)) (LiveMove sampleComet)
        (LiveRestart sampleComet)) ⟨⟨.stopped .empty, [], .empty⟩, none⟩ events ⟨node, some proc⟩ := by
  obtain ⟨k, calls⟩ := Solo.run_walk (tryDrive_walk serveHot_effect driven)
  have spawned : SoloStep (HotEffect sampleComet (Effect sampleCodec fun data stored => stored = data))
    (LiveMove sampleComet) (LiveRestart sampleComet) ⟨checkedNode, none⟩
    (.spawn (archiveReady checkedHost liveOptions).run) ⟨checkedNode, _⟩ := .spawn
  have going (block : Block) (opts : IngestOptions Unit) : submitPlain block ≠ .start opts := by
    unfold submitPlain
    rintro ⟨⟩
  refine ⟨_, ?_, .cons (.reset ⟨⟨_, rfl⟩, rfl⟩) (.cons (.env ⟨going _, rfl⟩) (.cons (.env ⟨going _, rfl⟩)
    (.cons spawned calls)))⟩
  intro p member
  simp only [List.mem_cons, reduceCtorEq, false_or, SoloEvent.spawn.injEq, List.mem_replicate, and_false, or_false] at member
  subst member
  exact ⟨liveOptions, rfl, .inl rfl⟩

theorem checkpoint_authentication_sample : ∃ (m : Solo (LiveNode Unit (ObjectStore spelledContent)) Op Op.Res
      (Except Err LiveArchiveResult)) (i : HotIngestor Unit) (segment : SegmentManifest) (data : Bytes) (revision : String)
      (next : Except Err String → Prog Op Op.Res (Except Err LiveArchiveResult)) (trace : History),
    m.shared.process = .running i ∧ m.current = some ⟨.call (.compareAndSwap "m" data revision) next, trace⟩ ∧
      (∃ after, Holds checkedHost data after ∧ segment ∈ after.segments) ∧ ∀ entry ∈ segment.blocks,
        ∃ block, entry.hash = hexEncode (sampleComet.blockHash block) ∧ Authentic sampleComet i.opts block := by
  have publishes : (checkedArchive 12).map publishing = some true := by decide +kernel
  obtain ⟨⟨proc, node⟩, driven, here⟩ := Option.map_eq_some_iff.mp publishes
  obtain ⟨events, archives, run⟩ := checkedArchive_run driven
  unfold publishing at here
  split at here
  next key data revision next trace i happened objects same =>
    cases same
    obtain ⟨rfl, mode⟩ : key = "m" ∧ i.opts.validation = .checkpoint := by simpa using here
    have lawful : checkedHost.json.Lawful := sampleHost_lawful
    have authentic := checkpoint_authentication lawful rfl archives run rfl mode
    obtain ⟨before, after, segment, -, holds, segments, entries⟩ := authentic.2.2 data revision next trace rfl
    refine ⟨⟨⟨.running i, happened, objects⟩, some ⟨.call (.compareAndSwap "m" data revision) next, trace⟩⟩, i, segment,
      data, revision, next, trace, rfl, rfl, ⟨after, holds, by rw [segments]; simp⟩, ?_⟩
    intro entry listed
    obtain ⟨block, -, hash, authentic⟩ := entries entry listed
    exact ⟨block, hash, authentic⟩
  next => cases here

end Sample

end CometArchive.Ingest
