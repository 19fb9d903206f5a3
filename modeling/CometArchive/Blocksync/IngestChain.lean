import CometArchive.Blocksync.IngestRun

set_option autoImplicit false

namespace CometArchive.Ingest

open HotIngestor Linked Runs

variable {V : Type} {comet : Comet V} {ask : Int → SourceAnswer V}

theorem HotIngestor.Checked.lastBlockID_hash {opts : IngestOptions V} {block : Block} {commit : Commit}
    {hash : GoBytes.Bytes} (checked : Checked comet opts block) (above : 1 < block.height)
    (present : block.lastCommit = some commit) (named : commit.blockID.hash = hash) :
    block.lastBlockID.hash = hash := by
  obtain ⟨other, found, -, linked⟩ := checked.committed
  rw [present] at found
  cases found
  rw [linked above, named]

variable (comet)

def Names (next block : Block) : Prop := next.lastBlockID.hash = comet.blockHash block

def Commits (next block : Block) : Prop := ∃ commit header, CommitsTo comet block next commit header

variable {comet}

theorem links_names (p : Process V) (event : Event V) : Links comet (Names comet) p event where
  first := by
    intro i ask block head _ _ _ checked next extended found
    obtain ⟨commit, present, -, -⟩ := checked.committed
    have bounds := BlockStore.bounds_of_load found
    exact checked.lastBlockID_hash (by omega) present (extendsHead_spec comet extended found present)
  commit := by
    intro opts pending block commit header positive next checked commits
    exact checked.lastBlockID_hash (by omega) commits.present (by rw [commits.blockID])

theorem run_names {initial : BlockStore} {events : List (Event V)} {p : Process V}
    (run : Run (Process.Step comet) (.stopped initial) events p) :
    Chained comet (Names comet) initial.height p := by
  refine run.preserves (Chained comet (Names comet) initial.height) (chained_stopped _ initial) ?_
  rintro s event _ chained rfl
  exact chained.step (links_names s event)

section Trust

def answers (events : List (Event V)) : List (Int → SourceAnswer V) :=
  -- the sources asked since the last start
  events.foldl (fun asked event =>
    match event with
    | .start _ => []
    | .submit ask _ => asked ++ [ask]
    | .prune _ => asked) []

theorem answers_snoc (events : List (Event V)) (event : Event V) :
    answers (events ++ [event]) =
      match event with
      | .start _ => []
      | .submit ask _ => answers events ++ [ask]
      | .prune _ => answers events := by
  simp only [answers, List.foldl_append, List.foldl_cons, List.foldl_nil]

variable (comet)

def TrustedSet (events : List (Event V)) (opts : IngestOptions V) (height : Int) (vals : V) : Prop :=
  configuredSet opts height = some vals ∨
    configuredSet opts height = none ∧ ∃ ask ∈ answers events, Answered comet ask height vals

def CacheAnswered (events : List (Event V)) (p : Process V) : Prop :=
  -- the cache holds only what the source answered since the start
  ∀ i, p = .running i → ∀ height vals, i.fetchedSets[height]? = some vals →
    ∃ ask ∈ answers events, Answered comet ask height vals

variable {comet}

theorem submit_fetchedSets {i : HotIngestor V} {block : Option Block} {height : Int} {vals : V}
    (found : (submit comet ask i block).1.fetchedSets[height]? = some vals) :
    i.fetchedSets[height]? = some vals ∨ Answered comet ask height vals := by
  have cases := submit_cases comet ask i block
  generalize submit comet ask i block = result at cases found
  cases cases with
  | rejected _ i' err cached => exact cached.fetched height vals found
  | first block mid cached =>
    rw [accept_fetchedSets] at found
    exact cached.fetched height vals found
  | persisted block pending mid commit header store cached =>
    rw [accept_fetchedSets] at found
    exact cached.fetched height vals found
  | panicked block pending mid cached => exact cached.fetched height vals found

theorem CacheAnswered.step {events : List (Event V)} {p : Process V} (event : Event V)
    (extending : ∀ i, p = .running i → Extending comet i) (cache : CacheAnswered comet events p) :
    CacheAnswered comet (events ++ [event]) (p.step comet event) := by
  intro i running height vals found
  rw [answers_snoc]
  cases event with
  | start opts =>
    simp only [Process.step] at running
    split at running
    next built =>
      cases running
      obtain ⟨-, -, empty, -⟩ := newHotIngestor_spec comet built
      simp [empty] at found
    · cases running
  | submit ask block =>
    cases p with
    | stopped store => cases running
    | running old =>
      rw [step_submit (submit_extending (extending old rfl) ask block).2] at running
      cases running
      rcases submit_fetchedSets found with known | answered
      · obtain ⟨ask, member, answered⟩ := cache old rfl height vals known
        exact ⟨ask, by simp [member], answered⟩
      · exact ⟨ask, by simp, answered⟩
  | prune target =>
    simp only [Process.step] at running
    cases p with
    | stopped store => split at running <;> cases running
    | running old =>
      split at running <;> cases running <;> exact cache _ rfl height vals found

theorem run_cacheAnswered {initial : BlockStore} {events : List (Event V)} {p : Process V}
    (run : Run (Process.Step comet) (.stopped initial) events p) : CacheAnswered comet events p := by
  have both : CacheAnswered comet events p ∧ Chained comet (Names comet) initial.height p := by
    refine run.invariant (fun events p => CacheAnswered comet events p ∧ Chained comet (Names comet) _ p)
      ⟨by rintro _ ⟨⟩, chained_stopped _ initial⟩ ?_
    rintro events s event _ ⟨cache, chained⟩ rfl
    exact ⟨cache.step event chained.extending, chained.step (links_names s event)⟩
  exact both.1

theorem HotIngestor.SetFor.trusted {events : List (Event V)} {i : HotIngestor V} {block : Option Block} {height : Int}
    {vals : V} (cache : CacheAnswered comet events (.running i)) (set : SetFor comet ask i height vals) :
    TrustedSet comet (events ++ [.submit ask block]) i.opts height vals := by
  rcases set with configured | ⟨absent, found | answered⟩
  · exact .inl configured
  · obtain ⟨other, member, answered⟩ := cache i rfl height vals found
    exact .inr ⟨absent, other, by simp [answers_snoc, member], answered⟩
  · exact .inr ⟨absent, ask, by simp [answers_snoc], answered⟩

end Trust

theorem submit_error {i i' : HotIngestor V} {block : Option Block} {err : Err}
    (failed : submit comet ask i block = (i', .error err)) :
    i'.store = i.store ∧ i'.pending = i.pending ∧ i'.verifiedThrough = i.verifiedThrough := by
  have cases := submit_cases comet ask i block
  rw [failed] at cases
  generalize same : (i', Outcome.error err) = result at cases
  cases cases with
  | rejected _ i' err cached =>
    cases same
    exact ⟨cached.store, cached.pending, cached.verified⟩
  | first => cases same
  | persisted => cases same
  | panicked => cases same

variable (comet)

structure SavedBy (events : List (Event V)) (opts : IngestOptions V) (saved next : Block) : Prop where
  -- `saved` went into the store because `next` committed it
  chainID : saved.chainID = opts.chainID
  height : next.height = saved.height + 1
  committed : ∃ commit header, CommitsTo comet saved next commit header ∧
    (opts.validation = .validatorSet → ∃ vals, TrustedSet comet events opts saved.height vals ∧
      comet.verifyCommit vals opts.chainID ⟨comet.blockHash saved, header⟩ saved.height commit = .ok ())

variable {comet}

theorem submit_saves {events : List (Event V)} {i : HotIngestor V} (extending : Extending comet i)
    (cache : CacheAnswered comet events (.running i)) (ask : Int → SourceAnswer V) (block : Option Block) :
    (submit comet ask i block).1.store = i.store ∨
      ∃ saved next, i.pending = some saved ∧ block = some next ∧
        i.store.saveBlock saved = some (submit comet ask i block).1.store ∧
        SavedBy comet (events ++ [.submit ask block]) i.opts saved next := by
  have cases := submit_cases comet ask i block
  generalize submit comet ask i block = result at cases
  cases cases with
  | rejected _ i' err cached => exact .inl cached.store
  | first block mid cached => exact .inl (by rw [accept_store, cached.store])
  | persisted block pending mid commit header store cached checked next waiting commits signed saved =>
    refine .inr ⟨pending, block, waiting, rfl, by rw [accept_store, saved], ?_⟩
    refine ⟨(extending.checked pending waiting).chainID, height_of_pending waiting next checked.positive,
      commit, header, commits, fun mode => ?_⟩
    obtain ⟨vals, set, verified⟩ := signed mode
    exact ⟨vals, set.trusted cache, verified⟩
  | panicked block pending mid cached waiting failed => exact .inl cached.store

/-- In every run over any initial store, with restarts and prunes in between: a rejected block changes
nothing, the pending block comes next and `SaveBlock` never panics, what is saved was committed by its
successor, and consecutive blocks from the first saved one on are linked by hash. -/
theorem submit_keeps_chain (initial : BlockStore) (events : List (Event V)) (p : Process V)
    (run : Run (Process.Step comet) (.stopped initial) events p) :
    (∀ i, p = .running i →
      (∀ pending, i.pending = some pending → 0 < i.store.height → pending.height = i.store.height + 1) ∧
      ∀ ask block i' outcome, submit comet ask i block = (i', outcome) →
        outcome ≠ .panic ∧
        (∀ err, outcome = .error err →
          i'.store = i.store ∧ i'.pending = i.pending ∧ i'.verifiedThrough = i.verifiedThrough) ∧
        (i'.store = i.store ∨
          ∃ saved next, i.pending = some saved ∧ block = some next ∧ i.store.saveBlock saved = some i'.store ∧
            SavedBy comet (events ++ [.submit ask block]) i.opts saved next)) ∧
    ∀ h block next, initial.height ≤ h → p.store.load h = some block → p.store.load (h + 1) = some next →
      next.lastBlockID.hash = comet.blockHash block := by
  have chained := run_names run
  have cache := run_cacheAnswered run
  refine ⟨?_, chained.stored⟩
  rintro i rfl
  have extending := chained.extending i rfl
  refine ⟨fun pending waiting nonempty => ?_, ?_⟩
  · rw [extending.next pending waiting, afterHead_of_pos nonempty]
  intro ask block i' outcome called
  refine ⟨?_, ?_, ?_⟩
  · have alive := (submit_extending extending ask block).2
    rwa [called] at alive
  · rintro err rfl
    exact submit_error called
  · have saves := submit_saves extending cache ask block
    rwa [called] at saves

def plainOptions : IngestOptions Unit where
  chainID := "c"
  startHeight := 1
  safetyWindow := 0
  validation := .storageOnly
  checkpoints := []
  validatorSets := []
  hasSource := false

def newPlain : HotIngestor Unit :=
  { store := .empty, opts := plainOptions, pending := none, fetchedSets := ∅, fetchedHeights := [], verifiedThrough := 0 }

def noSource : Int → SourceAnswer Unit := fun _ => .missing

def submitPlain (block : Block) : Event Unit := .submit noSource (some block)

def plainRun (events : List (Event Unit)) : Process Unit :=
  events.foldl (Process.step Comet.plain) (.stopped .empty)

theorem submit_keeps_chain_plain :
    (plainRun [.start plainOptions, submitPlain (.plain 1 [] [1]), submitPlain (.plain 2 [1] [2]),
      submitPlain (.plain 3 [2] [3])]).store.load 2 = some (.plain 2 [1] [2]) ∧
    (Block.plain 2 [1] [2]).lastBlockID.hash = Comet.plain.blockHash (.plain 1 [] [1]) :=
  ⟨by decide, (submit_keeps_chain .empty _ _ (Run.foldl _ _
    [.start plainOptions, submitPlain (.plain 1 [] [1]), submitPlain (.plain 2 [1] [2]),
      submitPlain (.plain 3 [2] [3])])).2 1 (.plain 1 [] [1]) (.plain 2 [1] [2]) (by decide) (by decide) (by decide)⟩

section Restart

variable (comet)

def NamesParts : Process V → Event V → Prop
  | .running i, .submit _ (some block) =>
    i.pending = none → ∀ head ∈ i.store.load i.store.height, ∀ commit ∈ block.lastCommit,
      commit.height = head.height ∧ comet.partSetHeader head = .ok commit.blockID.partSetHeader
  | _, _ => True

instance NamesParts.decidable : ∀ (p : Process V) (event : Event V), Decidable (NamesParts comet p event)
  | .running i, .submit _ (some block) =>
    inferInstanceAs (Decidable (i.pending = none → ∀ head ∈ i.store.load i.store.height,
      ∀ commit ∈ block.lastCommit,
        commit.height = head.height ∧ comet.partSetHeader head = .ok commit.blockID.partSetHeader))
  | .running _, .submit _ none => .isTrue trivial
  | .running _, .start _ => .isTrue trivial
  | .running _, .prune _ => .isTrue trivial
  | .stopped _, _ => .isTrue trivial

variable {comet}

theorem commits_iff {head block : Block} {commit : Commit} (present : block.lastCommit = some commit)
    (hash : commit.blockID.hash = comet.blockHash head) :
    Commits comet block head ↔
      commit.height = head.height ∧ comet.partSetHeader head = .ok commit.blockID.partSetHeader := by
  constructor
  · rintro ⟨other, header, found, height, parts, blockID⟩
    rw [present] at found
    cases found
    exact ⟨height, by rw [parts, blockID]⟩
  · rintro ⟨height, parts⟩
    exact ⟨commit, commit.blockID.partSetHeader, present, height, parts, by rw [← hash]⟩

theorem links_commits {p : Process V} {event : Event V} (parts : NamesParts comet p event) :
    Links comet (Commits comet) p event where
  first := by
    rintro i ask block head rfl rfl empty checked _ extended found
    obtain ⟨commit, present, -, -⟩ := checked.committed
    rw [commits_iff present (extendsHead_spec comet extended found present)]
    exact parts empty head found commit present
  commit := fun _ _ _ commit header _ _ _ commits => ⟨commit, header, commits⟩

theorem submit_accepts_first {i i' : HotIngestor V} {block head : Block} {result : IngestResult}
    (empty : i.pending = none) (found : i.store.load i.store.height = some head)
    (accepted : submit comet ask i (some block) = (i', .ok result)) :
    ∃ commit, block.lastCommit = some commit ∧ commit.blockID.hash = comet.blockHash head := by
  -- the hash of the persisted head is all `submit` compares when nothing is pending
  have cases := submit_cases comet ask i (some block)
  rw [accepted] at cases
  generalize same : (i', Outcome.ok result) = final at cases
  cases cases with
  | rejected => cases same
  | first _ _ _ checked _ _ extended =>
    obtain ⟨commit, present, -, -⟩ := checked.committed
    exact ⟨commit, present, extendsHead_spec comet extended found present⟩
  | persisted _ pending _ _ _ _ _ _ _ waiting =>
    rw [empty] at waiting
    cases waiting
  | panicked => cases same

/-- A block accepted with nothing pending meets the conditions of `persistPending` exactly when its
commit has the head's height and part-set header; in a run in which every such block does, consecutive
persisted blocks are linked by commit height, hash and part-set header. -/
theorem restarted_submit_commits_iff :
    (∀ (ask : Int → SourceAnswer V) (i i' : HotIngestor V) (block head : Block) (result : IngestResult),
      i.pending = none → i.store.load i.store.height = some head →
      submit comet ask i (some block) = (i', .ok result) →
      (Commits comet block head ↔ ∀ commit, block.lastCommit = some commit →
        commit.height = head.height ∧ comet.partSetHeader head = .ok commit.blockID.partSetHeader)) ∧
    ∀ (initial : BlockStore) (events : List (Event V)) (p : Process V),
      Run (fun s event t => Process.Step comet s event t ∧ NamesParts comet s event) (.stopped initial) events p →
      ∀ h block next, initial.height ≤ h → p.store.load h = some block → p.store.load (h + 1) = some next →
        Commits comet next block := by
  constructor
  · intro ask i i' block head result empty found accepted
    obtain ⟨commit, present, hash⟩ := submit_accepts_first empty found accepted
    rw [commits_iff present hash]
    constructor
    · rintro parts _ same
      rw [present] at same
      cases same
      exact parts
    · intro parts
      exact parts commit present
  · intro initial events p run
    have chained : Chained comet (Commits comet) initial.height p := by
      refine run.preserves (Chained comet (Commits comet) initial.height) (chained_stopped _ initial) ?_
      rintro s event _ chained ⟨rfl, parts⟩
      exact chained.step (links_commits parts)
    exact chained.stored

def restartEvents : List (Event Unit) :=
  -- the well-named chain, with a restart before its second block is persisted
  [.start plainOptions, submitPlain (.plain 1 [] [1]), submitPlain (.plain 2 [1] [2]),
    .start plainOptions, submitPlain (.plain 2 [1] [2]), submitPlain (.plain 3 [2] [3])]

theorem restarted_submit_commits_plain :
    Commits Comet.plain (.plain 2 [1] [2]) (.plain 1 [] [1]) :=
  restarted_submit_commits_iff.2 .empty restartEvents _
    (Run.of_allAlong (Process.step Comet.plain) (by decide)) 1 _ _ (by decide) (by decide) (by decide)

def misnamedBlock : Block :=
  -- a second block whose commit has the first one's hash but another height and part-set header
  { Block.plain 2 [1] [2] with
    lastBlockID := ⟨[1], ⟨7, []⟩⟩
    lastCommit := some ⟨9, 0, ⟨[1], ⟨7, []⟩⟩, []⟩ }

def misnamedEvents : List (Event Unit) :=
  [.start plainOptions, submitPlain (.plain 1 [] [1]), submitPlain (.plain 2 [1] [2]),
    .start plainOptions, submitPlain misnamedBlock, submitPlain (.plain 3 [2] [3])]

theorem not_commits_misnamed : ¬ Commits Comet.plain misnamedBlock (.plain 1 [] [1]) := by
  have present : misnamedBlock.lastCommit = some ⟨9, 0, ⟨[1], ⟨7, []⟩⟩, []⟩ := rfl
  rw [commits_iff present rfl]
  decide

theorem restarted_submit_misses_parts :
    (plainRun (misnamedEvents.take 2 ++ [submitPlain misnamedBlock])).store.height = 0 ∧
    (plainRun misnamedEvents).store.load 1 = some (.plain 1 [] [1]) ∧
    (plainRun misnamedEvents).store.load 2 = some misnamedBlock ∧
    ¬ Commits Comet.plain misnamedBlock (.plain 1 [] [1]) :=
  -- the running ingestor rejects the misnamed block; a restarted one takes it and persists it
  ⟨by decide, by decide, by decide, not_commits_misnamed⟩

end Restart

end CometArchive.Ingest
