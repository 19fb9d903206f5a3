import CometArchive.Blocksync.Ingest
import CometArchive.Shared.Recent

set_option autoImplicit false

namespace CometArchive.Ingest

open GoMap HotIngestor

variable {V : Type}

/-- What may happen to an ingestor. Other uses of the hot store may leave any store behind. -/
inductive Operation (V : Type) where
  | submit (ask : Int → SourceAnswer V) (block : Option Block)
  | validatorSetFor (ask : Int → SourceAnswer V) (height : Int)
  | withHotStore (store : BlockStore)

def Operation.ask : Operation V → Int → SourceAnswer V
  | .submit ask _ => ask
  | .validatorSetFor ask _ => ask
  | .withHotStore _ => fun _ => .missing

variable (comet : Comet V)

namespace HotIngestor

def perform (i : HotIngestor V) : Operation V → HotIngestor V
  | .submit ask block => (i.submit comet ask block).1
  | .validatorSetFor ask height => (i.validatorSetFor comet ask height).1
  | .withHotStore store => { i with store }

abbrev Cache (V : Type) := Map Int V × List Int

def cache (i : HotIngestor V) : Cache V := (i.fetchedSets, i.fetchedHeights)

/-- The listed fetches, in this order, take the first cache to the second: each is of a height that is
neither configured nor cached, and keeps the valid set the source answers. -/
inductive Fetches (opts : IngestOptions V) (ask : Int → SourceAnswer V) : Cache V → List (Int × V) → Cache V → Prop
  | none (cache : Cache V) : Fetches opts ask cache [] cache
  | fetch {cache last : Cache V} {height : Int} {vals : V} {log : List (Int × V)}
    (unset : configuredSet opts height = .none) (missed : cache.1[height]? = .none)
    (answered : Answered comet ask height vals)
    (rest : Fetches opts ask (pushRecent maxFetchedValidatorSets cache.1 cache.2 height vals) log last) :
    Fetches opts ask cache ((height, vals) :: log) last

inductive Lives (i : HotIngestor V) : List (Operation V) → List (Int × V) → HotIngestor V → Prop
  | start : Lives i [] [] i
  | perform {mid : HotIngestor V} {ops : List (Operation V)} {log more : List (Int × V)} (op : Operation V)
    (before : Lives i ops log mid)
    (fetches : Fetches comet mid.opts op.ask mid.cache more (mid.perform comet op).cache) :
    Lives i (ops ++ [op]) (log ++ more) (mid.perform comet op)

variable {comet} {ask : Int → SourceAnswer V} {opts : IngestOptions V} {i i' : HotIngestor V}

theorem Fetches.trans {first second third : Cache V} {log more : List (Int × V)}
    (before : Fetches comet opts ask first log second) (after : Fetches comet opts ask second more third) :
    Fetches comet opts ask first (log ++ more) third := by
  induction before with
  | none => exact after
  | fetch unset missed answered rest ih => exact .fetch unset missed answered (ih after)

theorem cache_cacheSet (i : HotIngestor V) (height : Int) (vals : V) :
    (i.cacheSet height vals).cache =
      pushRecent maxFetchedValidatorSets i.fetchedSets i.fetchedHeights height vals := by
  unfold cacheSet cache pushRecent
  by_cases full : maxFetchedValidatorSets ≤ i.fetchedHeights.length
  next =>
    simp only [if_pos full]
    cases i.fetchedHeights <;> rfl
  next => simp only [if_neg full]

inductive Looks (comet : Comet V) (ask : Int → SourceAnswer V) (i : HotIngestor V) (height : Int) :
    HotIngestor V × Except Err V → Prop
  -- what a call of `validatorSetFor` can do: it answers from what the ingestor has, or it fetches
  | configured (vals : V) (set : configuredSet i.opts height = some vals) : Looks comet ask i height (i, .ok vals)
  | cached (vals : V) (unset : configuredSet i.opts height = .none) (hit : i.fetchedSets[height]? = some vals) :
    Looks comet ask i height (i, .ok vals)
  | failed (err : Err) (unset : configuredSet i.opts height = .none) (missed : i.fetchedSets[height]? = .none) :
    Looks comet ask i height (i, .error err)
  | fetched (vals : V) (unset : configuredSet i.opts height = .none) (missed : i.fetchedSets[height]? = .none)
    (answered : Answered comet ask height vals) : Looks comet ask i height (i.cacheSet height vals, .ok vals)

theorem validatorSetFor_looks (comet : Comet V) (ask : Int → SourceAnswer V) (i : HotIngestor V) (height : Int) :
    Looks comet ask i height (validatorSetFor comet ask i height) := by
  unfold validatorSetFor
  split
  next vals set => exact .configured vals set
  next unset =>
    split
    next vals hit => exact .cached vals unset hit
    next missed =>
      split
      · exact .failed _ unset missed
      · split
        · exact .failed _ unset missed
        · exact .failed _ unset missed
        next vals answer =>
          split
          · exact .failed _ unset missed
          next basic => exact .fetched vals unset missed ⟨answer, basic⟩

theorem Looks.fetches {height : Int} {result : HotIngestor V × Except Err V} (looks : Looks comet ask i height result) :
    result.1.opts = i.opts ∧ ∃ log, Fetches comet i.opts ask i.cache log result.1.cache := by
  cases looks with
  | configured | cached | failed => exact ⟨rfl, [], .none _⟩
  | fetched vals unset missed answered =>
    refine ⟨rfl, [(height, vals)], .fetch unset missed answered ?_⟩
    rw [cache_cacheSet]
    exact .none _

theorem checkValidators_fetches (comet : Comet V) (ask : Int → SourceAnswer V) (i : HotIngestor V) (block : Block) :
    ∃ log, Fetches comet i.opts ask i.cache log (checkValidators comet ask i block).1.cache := by
  unfold checkValidators
  have looks := (validatorSetFor_looks comet ask i block.height).fetches.2
  split
  · exact ⟨[], .none _⟩
  · split
    · exact ⟨[], .none _⟩
    · split
      · exact ⟨[], .none _⟩
      · split
        next called => rwa [called] at looks
        next called => rwa [called] at looks

theorem validateBlock_fetches (comet : Comet V) (ask : Int → SourceAnswer V) (i : HotIngestor V) (block : Block) :
    ∃ log, Fetches comet i.opts ask i.cache log (validateBlock comet ask i block).1.cache := by
  unfold validateBlock
  split
  · exact ⟨[], .none _⟩
  · exact checkValidators_fetches comet ask i block

theorem checkSignatures_fetches (comet : Comet V) (ask : Int → SourceAnswer V) (i : HotIngestor V) (pending : Block)
    (commit : Commit) (header : PartSetHeader) :
    ∃ log, Fetches comet i.opts ask i.cache log (checkSignatures comet ask i pending commit header).1.cache := by
  unfold checkSignatures
  have looks := (validatorSetFor_looks comet ask i pending.height).fetches.2
  split
  · exact ⟨[], .none _⟩
  · split
    next called => rwa [called] at looks
    next called =>
      rw [called] at looks
      split <;> exact looks

theorem persistPending_fetches (comet : Comet V) (ask : Int → SourceAnswer V) (i : HotIngestor V)
    (pending next : Block) :
    ∃ log, Fetches comet i.opts ask i.cache log (persistPending comet ask i pending next).1.cache := by
  unfold persistPending
  split
  · exact ⟨[], .none _⟩
  next commit header _ =>
    have signatures := checkSignatures_fetches comet ask i pending commit header
    split
    next called => rwa [called] at signatures
    next called =>
      rw [called] at signatures
      split <;> exact signatures

theorem accept_cache (i : HotIngestor V) (block : Block) (persisted : Int) : (i.accept block persisted).1.cache = i.cache := by
  simp only [accept, cache, markCheckpoint]
  split <;> rfl

theorem submit_fetches (comet : Comet V) (ask : Int → SourceAnswer V) (i : HotIngestor V) (block : Option Block) :
    ∃ log, Fetches comet i.opts ask i.cache log (submit comet ask i block).1.cache := by
  cases block with
  | none => exact ⟨[], .none _⟩
  | some block =>
    obtain ⟨log, validated⟩ := validateBlock_fetches comet ask i block
    unfold submit
    dsimp only
    split
    next called =>
      rw [called] at validated
      exact ⟨log, validated⟩
    next mid called =>
      have opts := (validateBlock_spec comet ask called).1.opts
      rw [called] at validated
      split
      · exact ⟨log, validated⟩
      · split
        · split
          · rw [accept_cache]
            exact ⟨log, validated⟩
          · exact ⟨log, validated⟩
        next pending _ =>
          -- the second call site: the set of the pending block's height
          obtain ⟨more, persisted⟩ := persistPending_fetches comet ask mid pending block
          rw [opts] at persisted
          refine ⟨log ++ more, validated.trans ?_⟩
          split
          next called => rwa [called] at persisted
          next called => rwa [called] at persisted
          next called =>
            rw [called] at persisted
            rwa [accept_cache]

theorem perform_fetches (comet : Comet V) (i : HotIngestor V) (op : Operation V) :
    ∃ log, Fetches comet i.opts op.ask i.cache log (i.perform comet op).cache := by
  cases op with
  | submit ask block => exact submit_fetches comet ask i block
  | validatorSetFor ask height => exact (validatorSetFor_looks comet ask i height).fetches.2
  | withHotStore store => exact ⟨[], .none _⟩

theorem foldl_perform_lives (comet : Comet V) (i : HotIngestor V) (ops : List (Operation V)) :
    ∃ log, Lives comet i ops log (ops.foldl (perform comet) i) := by
  induction ops using List.reverseRecOn with
  | nil => exact ⟨[], .start⟩
  | append_singleton ops op ih =>
    obtain ⟨log, lives⟩ := ih
    obtain ⟨more, fetches⟩ := perform_fetches comet (ops.foldl (perform comet) i) op
    rw [List.foldl_append]
    exact ⟨log ++ more, .perform op lives fetches⟩

structure Follows (comet : Comet V) (log : List (Int × V)) (cache : Cache V) : Prop where
  -- the cache is the end of the log, and the log has valid sets only
  recent : Recent maxFetchedValidatorSets log cache.1 cache.2
  valid : ∀ entry ∈ log, comet.validateBasic entry.2 = .ok ()

theorem Follows.not_mem {log : List (Int × V)} {cache : Cache V} {height : Int} (follows : Follows comet log cache)
    (missed : cache.1[height]? = .none) : height ∉ cache.2 := by
  rw [follows.recent.mem_order, missed]
  simp

theorem Follows.fetches {log more : List (Int × V)} {cache last : Cache V} (follows : Follows comet log cache)
    (fetches : Fetches comet opts ask cache more last) : Follows comet (log ++ more) last := by
  induction fetches generalizing log with
  | none => rwa [List.append_nil]
  | @fetch cache last height vals rest unset missed answered fetches ih =>
    rw [List.append_cons]
    refine ih ⟨follows.recent.push (by decide) (follows.not_mem missed) vals, ?_⟩
    intro entry member
    rcases List.mem_append.mp member with old | new
    · exact follows.valid entry old
    · rw [List.mem_singleton.mp new]
      exact answered.2

theorem Lives.follows {ops : List (Operation V)} {log : List (Int × V)} (lives : Lives comet i ops log i')
    (start : i.cache = (∅, [])) : Follows comet log i'.cache := by
  induction lives with
  | start =>
    rw [start]
    exact ⟨.empty _, by simp⟩
  | perform op before fetches ih => exact ih.fetches fetches

theorem Fetches.answered {log : List (Int × V)} {cache last : Cache V} (fetches : Fetches comet opts ask cache log last) :
    ∀ entry ∈ log, Answered comet ask entry.1 entry.2 := by
  induction fetches with
  | none => simp
  | fetch unset missed answered rest ih =>
    intro entry member
    rcases List.mem_cons.mp member with rfl | later
    · exact answered
    · exact ih entry later

theorem Lives.answered {ops : List (Operation V)} {log : List (Int × V)} (lives : Lives comet i ops log i') :
    ∀ entry ∈ log, ∃ op ∈ ops, Answered comet op.ask entry.1 entry.2 := by
  induction lives with
  | start => simp
  | perform op before fetches ih =>
    intro entry member
    rcases List.mem_append.mp member with old | new
    · obtain ⟨earlier, among, answered⟩ := ih entry old
      exact ⟨earlier, List.mem_append_left _ among, answered⟩
    · exact ⟨op, by simp, fetches.answered entry new⟩

theorem perform_opts (comet : Comet V) (i : HotIngestor V) (op : Operation V) : (i.perform comet op).opts = i.opts := by
  cases op with
  | submit ask block => exact submit_opts comet ask i block
  | validatorSetFor ask height => exact (validatorSetFor_looks comet ask i height).fetches.1
  | withHotStore store => rfl

theorem Lives.same_opts {ops : List (Operation V)} {log : List (Int × V)} (lives : Lives comet i ops log i') :
    i'.opts = i.opts := by
  induction lives with
  | start => rfl
  | perform op before fetches ih => exact (perform_opts comet _ op).trans ih

def Evicts (comet : Comet V) (ask : Int → SourceAnswer V) (height : Int) (i i' : HotIngestor V) : Prop :=
  i'.cache = i.cache ∨
    ∃ vals, Answered comet ask height vals ∧ height ∉ i.fetchedHeights ∧
      i'.fetchedHeights =
        (if maxFetchedValidatorSets ≤ i.fetchedHeights.length then i.fetchedHeights.tail else i.fetchedHeights) ++
          [height] ∧
      ∀ other, i'.fetchedSets[other]? =
        if height = other then some vals
        else if maxFetchedValidatorSets ≤ i.fetchedHeights.length ∧ i.fetchedHeights.head? = some other then none
        else i.fetchedSets[other]?

theorem Follows.evicts {log : List (Int × V)} (follows : Follows comet log i.cache) (ask : Int → SourceAnswer V)
    (height : Int) : Evicts comet ask height i (validatorSetFor comet ask i height).1 := by
  have looks := validatorSetFor_looks comet ask i height
  generalize validatorSetFor comet ask i height = result at looks
  cases looks with
  | configured | cached | failed => exact .inl rfl
  | fetched vals unset missed answered =>
    have built := cache_cacheSet i height vals
    rw [pushRecent_eq _ _ (by decide)] at built
    refine .inr ⟨vals, answered, follows.not_mem missed, ?_⟩
    split at built
    next full =>
      obtain ⟨sets, heights⟩ := Prod.mk.inj built
      simp only [full, if_true, true_and]
      refine ⟨heights, fun other => ?_⟩
      rw [sets, get_insert]
      cases i.fetchedHeights with
      | nil => simp
      | cons oldest rest => simp [get_erase]
    next room =>
      obtain ⟨sets, heights⟩ := Prod.mk.inj built
      simp only [room, if_false, false_and]
      exact ⟨heights, fun other => by rw [sets, get_insert]⟩

/-- Over the whole life of an ingestor the cache holds the latest fetched sets, and a configured set
is answered whatever the cache holds. -/
theorem fetched_sets_are_recent (comet : Comet V) {store : BlockStore} {given : IngestOptions V} {start : HotIngestor V}
    (built : newHotIngestor comet (some store) given = .ok start) (ops : List (Operation V)) :
    ∃ log, Lives comet start ops log (ops.foldl (perform comet) start) ∧
      (ops.foldl (perform comet) start).fetchedHeights = (recent maxFetchedValidatorSets log).map Prod.fst ∧
      (ops.foldl (perform comet) start).fetchedHeights.Nodup ∧
      (ops.foldl (perform comet) start).fetchedHeights.length ≤ 256 ∧
      (∀ height, height ∈ (ops.foldl (perform comet) start).fetchedHeights ↔
        height ∈ (ops.foldl (perform comet) start).fetchedSets) ∧
      (∀ height vals, (ops.foldl (perform comet) start).fetchedSets[height]? = some vals ↔
        (height, vals) ∈ recent maxFetchedValidatorSets log) ∧
      (∀ height vals, (height, vals) ∈ log →
        comet.validateBasic vals = .ok () ∧ ∃ op ∈ ops, op.ask height = .found vals) ∧
      (∀ ask height, Evicts comet ask height (ops.foldl (perform comet) start)
        (validatorSetFor comet ask (ops.foldl (perform comet) start) height).1) ∧
      ∀ ask height vals, configuredSet given height = some vals →
        validatorSetFor comet ask (ops.foldl (perform comet) start) height =
          (ops.foldl (perform comet) start, .ok vals) := by
  obtain ⟨-, -, sets, heights, configured, -⟩ := newHotIngestor_spec comet built
  obtain ⟨log, lives⟩ := foldl_perform_lives comet start ops
  have follows := lives.follows (by rw [cache, sets, heights])
  have recent := follows.recent
  refine ⟨log, lives, recent.keys, recent.distinct, recent.length_le, ?_, recent.holds, ?_, follows.evicts, ?_⟩
  · intro height
    refine (recent.mem_order height).trans ?_
    rw [Std.ExtTreeMap.mem_iff_isSome_getElem?, Option.isSome_iff_exists]
    rfl
  · intro height vals member
    obtain ⟨op, among, answer, -⟩ := lives.answered _ member
    exact ⟨follows.valid _ member, op, among, answer⟩
  · intro ask height vals set
    have same : configuredSet (ops.foldl (perform comet) start).opts height = some vals := by
      rw [lives.same_opts, configuredSet, configured.sets]
      exact set
    simp only [validatorSetFor, same]

def sourcedOptions : IngestOptions Unit where
  chainID := "c"
  startHeight := 1
  safetyWindow := 0
  validation := .validatorSet
  checkpoints := []
  validatorSets := [(2, some ())]
  hasSource := true

def manyLookups : List (Operation Unit) :=
  -- the set for height 2 is configured: one fetch more than the cache has room for
  (List.range 258).map fun height => .validatorSetFor (fun _ => .found ()) height

theorem fetched_sets_are_recent_many :
    ∃ start, newHotIngestor Comet.plain (some BlockStore.empty) sourcedOptions = .ok start ∧
      (manyLookups.foldl (perform Comet.plain) start).fetchedHeights.length ≤ 256 ∧
      0 ∉ (manyLookups.foldl (perform Comet.plain) start).fetchedSets ∧
      (∀ height, 3 ≤ height → height ≤ 257 → height ∈ (manyLookups.foldl (perform Comet.plain) start).fetchedSets) ∧
      validatorSetFor Comet.plain (fun _ => .missing) (manyLookups.foldl (perform Comet.plain) start) 2 =
        (manyLookups.foldl (perform Comet.plain) start, .ok ()) := by
  have built : newHotIngestor Comet.plain (some BlockStore.empty) sourcedOptions =
      .ok ⟨BlockStore.empty, sourcedOptions, none, ∅, [], 0⟩ := rfl
  have heights : (manyLookups.foldl (perform Comet.plain)
      ⟨BlockStore.empty, sourcedOptions, none, ∅, [], 0⟩).fetchedHeights =
      1 :: (List.range 255).map fun place : Nat => (place : Int) + 3 := by decide +kernel
  obtain ⟨log, -, -, -, bounded, cached, -, -, -, configured⟩ := fetched_sets_are_recent Comet.plain built manyLookups
  refine ⟨_, built, bounded, ?_, fun height low high => ?_, configured _ 2 () rfl⟩
  · rw [← cached, heights]
    simp only [List.mem_cons, List.mem_map, List.mem_range]
    omega
  · rw [← cached, heights]
    simp only [List.mem_cons, List.mem_map, List.mem_range]
    exact .inr ⟨(height - 3).toNat, by omega, by omega⟩

end HotIngestor

end CometArchive.Ingest
