import CometArchive.Archive.LiveContinuation

set_option autoImplicit false

namespace CometArchive.Cli

open GoBytes GoError Programs Runs Archive

structure LiveMaintenanceStats where
  -- the part of `liveMaintenanceStats` that archiving keeps
  archiveRuns : Int
  archiveErrors : Int
  blocksArchived : Int
  lastArchiveAttemptUnixNano : Int
  lastArchiveUnixNano : Int
  lastArchiveError : Option Err

def newLiveMaintenanceStats : LiveMaintenanceStats where
  archiveRuns := 0
  archiveErrors := 0
  blocksArchived := 0
  lastArchiveAttemptUnixNano := 0
  lastArchiveUnixNano := 0
  lastArchiveError := none

def LiveMaintenanceStats.recordArchive (stats : LiveMaintenanceStats) (nowNano blocks : Int) (err : Option Err) :
    LiveMaintenanceStats :=
  let stats := { stats with archiveRuns := stats.archiveRuns + 1, lastArchiveAttemptUnixNano := nowNano }
  match err with
  | some err => { stats with archiveErrors := stats.archiveErrors + 1, lastArchiveError := some err }
  | none =>
    { stats with
      lastArchiveError := none
      blocksArchived := stats.blocksArchived + blocks
      lastArchiveUnixNano := nowNano }

/-- What `runMaintenance` records of a call of `ArchiveReadyFromHead`. -/
def LiveMaintenanceStats.recordOutcome (stats : LiveMaintenanceStats) (nowNano : Int) (canceled : Bool) :
    Except Err LiveArchiveResult → LiveMaintenanceStats
  -- the result that comes with an error is empty
  | .error err => if canceled then stats else stats.recordArchive nowNano 0 (some err)
  | .ok archived => stats.recordArchive nowNano archived.blocksArchived none

structure Iteration where
  -- what an iteration goes through: the reader's answers, what archiving returns, and how many of its writes of
  -- the manifest took effect
  answers : (op : Op) → op.Res → Prop
  outcome : Except Err LiveArchiveResult
  landed : Nat
  nowNano : Int
  canceled : Bool

structure Maintenance (contentOf : String → Bytes) where
  store : ObjectStore contentOf
  stats : LiveMaintenanceStats

inductive MaintenanceEvent where
  | archive (iteration : Iteration)
  -- ingestion, pruning, and writes of other objects
  | elsewhere

section Accounting

variable {V : Type} {host : Host V} {contentOf : String → Bytes} {key : String} {opts : LiveArchiveOptions}
  {safetyWindow : Int}

inductive MaintenanceStep (host : Host V) (opts : LiveArchiveOptions) (safetyWindow : Int) (key : String) :
    Maintenance contentOf → MaintenanceEvent → Maintenance contentOf → Prop
  | archive {s s' : ObjectStore contentOf} {stats : LiveMaintenanceStats} {iteration : Iteration}
    (heights : ∀ height : Int, iteration.answers .height height → height ≤ maxInt64)
    (led : (archiveReadyFromHead host opts safetyWindow).run.Leads (Watched host iteration.answers key) (s, 0)
      iteration.outcome (s', iteration.landed)) :
    MaintenanceStep host opts safetyWindow key ⟨s, stats⟩ (.archive iteration)
      ⟨s', stats.recordOutcome iteration.nowNano iteration.canceled iteration.outcome⟩
  -- no one else writes the manifest
  | elsewhere {s s' : ObjectStore contentOf} {stats : LiveMaintenanceStats} (kept : s'.objects key = s.objects key) :
    MaintenanceStep host opts safetyWindow key ⟨s, stats⟩ .elsewhere ⟨s', stats⟩

def indexedHeights (host : Host V) (key : String) (s : ObjectStore contentOf) : Int :=
  (indexOf (published host key s)).length

theorem indexedHeights_append {s s' : ObjectStore contentOf} {added : List SegmentManifest}
    (now : published host key s' = published host key s ++ added) :
    indexedHeights host key s' = indexedHeights host key s + (indexOf added).length := by
  unfold indexedHeights
  rw [now, indexOf_append, List.length_append, Nat.cast_add]

theorem iteration_gain {s s' : ObjectStore contentOf} {iteration : Iteration} (json : host.json.Lawful)
    (rejects : host.json.RejectsSegments)
    (named : chosenManifestKey opts.keyPrefix opts.chainID opts.manifestName opts.manifestKey = key)
    (heights : ∀ height : Int, iteration.answers .height height → height ≤ maxInt64)
    (led : (archiveReadyFromHead host opts safetyWindow).run.Leads (Watched host iteration.answers key) (s, 0)
      iteration.outcome (s', iteration.landed)) :
    ∃ gained : Nat, indexedHeights host key s' = indexedHeights host key s + gained ∧
      (gained = 0 ↔ iteration.landed = 0) ∧
      ∀ result, iteration.outcome = .ok result → result.blocksArchived = gained := by
  obtain ⟨extended, ended⟩ := Prog.Safe.leads (archiveReadyFromHead_alone json rejects named heights).prog led
  obtain ⟨added, now, count, filled⟩ := extended.grown
  dsimp only at now count
  refine ⟨(indexOf added).length, indexedHeights_append now, ?_, ?_⟩
  · rw [count]
    constructor
    · intro none
      by_contra some
      exact absurd none (filled (by rintro rfl; exact some rfl)).ne'
    · intro none
      rw [List.length_eq_zero_iff.mp none]
      rfl
  · intro result ok
    rw [ok] at ended
    rcases ended with ⟨-, same, none⟩ | ⟨readyHeight, -, start, stop, more, -, -, after, tiling, -⟩
    · rw [same, List.self_eq_append_right] at now
      rw [none, now]
      rfl
    · obtain rfl : more = added := List.append_cancel_left (after.symm.trans now)
      have indexed := tiling.indexed
      omega

theorem recordOutcome_blocksArchived (stats : LiveMaintenanceStats) (nowNano : Int) (canceled : Bool)
    (outcome : Except Err LiveArchiveResult) : (stats.recordOutcome nowNano canceled outcome).blocksArchived =
      stats.blocksArchived + match outcome with
        | .error _ => 0
        | .ok archived => archived.blocksArchived := by
  cases outcome with
  | ok archived => rfl
  | error err =>
    cases canceled with
    | true => exact (add_zero _).symm
    | false => exact (add_zero _).symm

/-- None of the iterations that fail got a write of the manifest through. -/
def CleanFailures (events : List MaintenanceEvent) : Prop :=
  ∀ iteration err, .archive iteration ∈ events → iteration.outcome = .error err → iteration.landed = 0

/-- The counter is as many heights behind as failed iterations have published. -/
theorem blocksArchived_behind {events : List MaintenanceEvent} {m m' : Maintenance contentOf} (json : host.json.Lawful)
    (rejects : host.json.RejectsSegments)
    (named : chosenManifestKey opts.keyPrefix opts.chainID opts.manifestName opts.manifestKey = key)
    (run : Run (MaintenanceStep host opts safetyWindow key) m events m') :
    ∃ behind : Nat, indexedHeights host key m'.store - indexedHeights host key m.store =
      m'.stats.blocksArchived - m.stats.blocksArchived + behind ∧ (behind = 0 ↔ CleanFailures events) := by
  induction run with
  | refl => exact ⟨0, by simp, by simp [CleanFailures]⟩
  | @snoc events mid last event run step ih =>
    obtain ⟨behind, difference, exactly⟩ := ih
    cases step with
    | elsewhere kept =>
      refine ⟨behind, ?_, ?_⟩
      · dsimp only at difference ⊢
        unfold indexedHeights at difference ⊢
        rw [published_congr kept]
        exact difference
      · simp only [CleanFailures, List.mem_append, List.mem_singleton, reduceCtorEq, or_false]
        exact exactly
    | @archive s s' stats iteration heights led =>
      obtain ⟨gained, now, landed, counted⟩ := iteration_gain json rejects named heights led
      dsimp only at difference ⊢
      rw [recordOutcome_blocksArchived]
      cases ended : iteration.outcome with
      | ok archived =>
        refine ⟨behind, by have := counted archived ended; dsimp only; omega, exactly.trans ?_⟩
        constructor
        · intro clean other err member failed
          rcases List.mem_append.mp member with old | new
          · exact clean other err old failed
          · cases List.mem_singleton.mp new
            rw [ended] at failed
            cases failed
        · exact fun clean other err member => clean other err (List.mem_append_left _ member)
      | error err =>
        refine ⟨behind + gained, by push_cast; omega, ?_⟩
        rw [Nat.add_eq_zero_iff, exactly, landed]
        constructor
        · rintro ⟨clean, none⟩ other err member failed
          rcases List.mem_append.mp member with old | new
          · exact clean other err old failed
          · cases List.mem_singleton.mp new
            exact none
        · intro clean
          exact ⟨fun other err member => clean other err (List.mem_append_left _ member),
            clean iteration err (List.mem_append_right _ (List.mem_singleton.mpr rfl)) ended⟩

theorem blocks_archived_exact {events : List MaintenanceEvent} {m m' : Maintenance contentOf} (json : host.json.Lawful)
    (rejects : host.json.RejectsSegments)
    (named : chosenManifestKey opts.keyPrefix opts.chainID opts.manifestName opts.manifestKey = key)
    (run : Run (MaintenanceStep host opts safetyWindow key) m events m') :
    m'.stats.blocksArchived - m.stats.blocksArchived =
        indexedHeights host key m'.store - indexedHeights host key m.store ↔
      CleanFailures events := by
  obtain ⟨behind, difference, exactly⟩ := blocksArchived_behind json rejects named run
  rw [← exactly]
  omega

end Accounting

section Sample

def twoBlocks : Source where
  base := 1
  height := 2
  block height := if height = 1 then some sampleBlock else if height = 2 then some { sampleBlock with height := 2 } else none
  limit := 2

def serveFailing (down : ObjectStore spelledContent → Bool) (op : Op) (s : ObjectStore spelledContent) :
    op.Res × ObjectStore spelledContent :=
  -- a store that is not available for checks while `down` says so
  match op with
  | .existsKey key => if down s then (.error (.new "unavailable"), s) else serve sampleCodec twoBlocks (.existsKey key) s
  | op => serve sampleCodec twoBlocks op s

theorem serveFailing_alone (down : ObjectStore spelledContent → Bool) (op : Op) (s : ObjectStore spelledContent) :
    Alone sampleHost twoBlocks.Answers op s (serveFailing down op s).1 (serveFailing down op s).2 := by
  have served : Alone sampleHost twoBlocks.Answers op s (serve sampleCodec twoBlocks op s).1
      (serve sampleCodec twoBlocks op s).2 := by
    refine ⟨by apply serve_effect; exact fun _ => rfl, ?_⟩
    cases op with
    | base | height | loadBlock | archiveHeightLimit => rfl
    | _ => trivial
  cases op with
  | existsKey key =>
    unfold serveFailing
    dsimp only
    split
    · exact ⟨rfl, trivial⟩
    · exact served
  | _ => exact served

def failingRun (down : ObjectStore spelledContent → Bool) (safetyWindow : Int) (s : ObjectStore spelledContent) :
    Proc Op Op.Res (Except Err LiveArchiveResult) × ObjectStore spelledContent :=
  drive (serveFailing down) 40 ⟨(archiveReadyFromHead sampleHost liveOptions safetyWindow).run, []⟩ s

theorem failingRun_step {down : ObjectStore spelledContent → Bool} {safetyWindow : Int} {s : ObjectStore spelledContent}
    {outcome : Except Err LiveArchiveResult} (stats : LiveMaintenanceStats)
    (ended : (failingRun down safetyWindow s).1.rest.returned = some outcome) :
    ∃ iteration : Iteration, iteration.outcome = outcome ∧
      (iteration.landed = 0 ↔
        indexedHeights sampleHost "m" (failingRun down safetyWindow s).2 = indexedHeights sampleHost "m" s) ∧
      MaintenanceStep sampleHost liveOptions safetyWindow "m" ⟨s, stats⟩ (.archive iteration)
        ⟨(failingRun down safetyWindow s).2, stats.recordOutcome 0 false outcome⟩ := by
  obtain ⟨landed, led⟩ := (drive_leads (serveFailing_alone down) 40 ended).counted (Lands "m") 0
  have heights : ∀ height : Int, twoBlocks.Answers .height height → height ≤ maxInt64 := by
    rintro _ rfl
    decide
  let iteration : Iteration := { answers := twoBlocks.Answers, outcome, landed, nowNano := 0, canceled := false }
  have watched : (archiveReadyFromHead sampleHost liveOptions safetyWindow).run.Leads
      (Watched sampleHost iteration.answers "m") (s, 0) iteration.outcome
      ((failingRun down safetyWindow s).2, iteration.landed) := led
  have named : chosenManifestKey liveOptions.keyPrefix liveOptions.chainID liveOptions.manifestName
      liveOptions.manifestKey = "m" := rfl
  obtain ⟨gained, now, none, -⟩ := iteration_gain sampleHost_lawful sampleHost_rejects named heights watched
  refine ⟨iteration, rfl, ?_, .archive heights watched⟩
  rw [← none, now]
  omega

theorem blocks_archived_behind : ∃ (events : List MaintenanceEvent) (m m' : Maintenance spelledContent),
    Run (MaintenanceStep sampleHost liveOptions 0 "m") m events m' ∧ m.stats = newLiveMaintenanceStats ∧
      m'.stats.blocksArchived = 0 ∧ indexedHeights sampleHost "m" m'.store - indexedHeights sampleHost "m" m.store = 1 := by
  -- the store fails once it has a manifest, when the first of two blocks is published
  let down (s : ObjectStore spelledContent) : Bool := (s.objects "m").isSome
  have failed : (failingRun down 0 .empty).1.rest.returned.map Except.toBool = some false := by decide +kernel
  have gained : indexedHeights sampleHost "m" (failingRun down 0 .empty).2 - indexedHeights sampleHost "m" .empty = 1 := by
    decide +kernel
  obtain ⟨outcome, ended, isError⟩ := Option.map_eq_some_iff.mp failed
  obtain ⟨iteration, -, -, step⟩ := failingRun_step newLiveMaintenanceStats ended
  generalize (failingRun down 0 .empty).2 = last at step gained
  cases outcome with
  | ok archived => cases isError
  | error err => exact ⟨_, _, _, .snoc .refl step, rfl, rfl, gained⟩

theorem blocks_archived_exact_sample : ∃ (first second : Iteration) (m m' : Maintenance spelledContent),
    Run (MaintenanceStep sampleHost liveOptions 1 "m") m [.archive first, .archive second] m' ∧
      m.stats = newLiveMaintenanceStats ∧ first.outcome.toBool = false ∧
      m'.stats.blocksArchived - m.stats.blocksArchived = 1 := by
  -- the store is down in the first iteration, and the second makes up for it
  have failed : (failingRun (fun _ => true) 1 .empty).1.rest.returned.map Except.toBool = some false := by
    decide +kernel
  have passed : (failingRun (fun _ => false) 1 (failingRun (fun _ => true) 1 .empty).2).1.rest.returned.map
      Except.toBool = some true := by decide +kernel
  have nothing : indexedHeights sampleHost "m" (failingRun (fun _ => true) 1 .empty).2 =
      indexedHeights sampleHost "m" .empty := by decide +kernel
  have gained : indexedHeights sampleHost "m" (failingRun (fun _ => false) 1 (failingRun (fun _ => true) 1 .empty).2).2 -
      indexedHeights sampleHost "m" .empty = 1 := by decide +kernel
  obtain ⟨outcome, ended, isError⟩ := Option.map_eq_some_iff.mp failed
  obtain ⟨outcome', ended', isOk⟩ := Option.map_eq_some_iff.mp passed
  obtain ⟨first, same, landed, step⟩ := failingRun_step newLiveMaintenanceStats ended
  obtain ⟨second, same', -, step'⟩ := failingRun_step (newLiveMaintenanceStats.recordOutcome 0 false outcome) ended'
  -- the stores themselves no longer matter
  clear failed passed ended ended'
  generalize (failingRun (fun _ => false) 1 (failingRun (fun _ => true) 1 .empty).2).2 = last at step' gained
  generalize (failingRun (fun _ => true) 1 .empty).2 = mid at step step' nothing landed
  have run : Run (MaintenanceStep sampleHost liveOptions 1 "m") _ [.archive first, .archive second] _ :=
    .cons step (.cons step' .refl)
  have clean : CleanFailures [.archive first, .archive second] := by
    intro other err member wrong
    rcases List.mem_cons.mp member with this | later
    · cases this
      exact landed.mpr nothing
    · cases List.mem_singleton.mp later
      rw [← same', wrong] at isOk
      cases isOk
  have counted := (blocks_archived_exact sampleHost_lawful sampleHost_rejects rfl run).mpr clean
  exact ⟨first, second, _, _, run, rfl, by rw [same]; exact isError, counted.trans gained⟩

end Sample

end CometArchive.Cli
