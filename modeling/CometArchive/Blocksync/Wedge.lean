import CometArchive.Blocksync.ValidChain

set_option autoImplicit false

namespace CometArchive.Ingest

open GoBytes HotIngestor Runs

variable {V : Type} (comet : Comet V)

structure Syncing (trusted : Int → Option V) (chain : Int → Block) (first tip : Int) (events : List (Event V))
    (i : HotIngestor V) : Prop where
  -- a reached state in which everything persisted belongs to `chain`, two blocks below its tip
  valid : ValidChain comet i.opts trusted chain first tip
  trust : Trust comet i.opts trusted first tip
  answered : ∀ ask ∈ answers events, ∀ h vals, Answered comet ask h vals → trusted h = some vals
  persisted : ∀ h block, i.store.load h = some block → first ≤ h ∧ block = chain h
  low : first ≤ i.afterHead
  room : i.afterHead + 1 ≤ tip
  int64 : tip ≤ maxInt64

def chainCalls (chain : Int → Block) (calls : List ((Int → SourceAnswer V) × Int)) : List (Event V) :=
  calls.map fun call => .submit call.1 (some (chain call.2))

/-- Some calls of `Submit` with blocks of the chain alone persist its block after the head. -/
def Recoverable (chain : Int → Block) (first tip : Int) (i : HotIngestor V) : Prop :=
  ∃ calls : List ((Int → SourceAnswer V) × Int), (∀ call ∈ calls, first ≤ call.2 ∧ call.2 ≤ tip) ∧
    ((chainCalls chain calls).foldl (Process.step comet) (.running i)).store.load i.afterHead =
      some (chain i.afterHead)

variable {comet} {trusted : Int → Option V} {chain : Int → Block} {first tip : Int} {events : List (Event V)}

def Stays (comet : Comet V) (block : Block) (store : BlockStore) (p : Process V) : Prop :=
  -- the pending block stays where it is until it is persisted
  ∃ i, p = .running i ∧ Extending comet i ∧
    (i.pending = some block ∧ i.store = store ∨ i.store.load block.height = some block)

theorem Stays.call {block : Block} {store : BlockStore} {p : Process V} (stays : Stays comet block store p)
    (ask : Int → SourceAnswer V) (next : Option Block) :
    Stays comet block store (p.step comet (.submit ask next)) := by
  obtain ⟨i, rfl, extending, held⟩ := stays
  obtain ⟨kept, alive⟩ := submit_extending extending ask next
  refine ⟨_, step_submit alive, kept, ?_⟩
  have cases := submit_cases comet ask i next
  generalize submit comet ask i next = result at cases
  cases cases with
  | rejected _ i' err cached =>
    dsimp only
    rw [cached.pending, cached.store]
    exact held
  | panicked block pending mid cached =>
    dsimp only
    rw [cached.pending, cached.store]
    exact held
  | first block mid cached checked next empty =>
    rw [accept_store, cached.store]
    rcases held with ⟨waiting, -⟩ | stored
    · rw [empty] at waiting
      cases waiting
    · exact .inr stored
  | persisted block pending mid commit header store cached checked next waiting commits signed saved =>
    rw [accept_store]
    rcases held with ⟨present, -⟩ | stored
    · rw [waiting] at present
      cases present
      exact .inr (BlockStore.saveBlock_load_self saved)
    · exact .inr (BlockStore.saveBlock_load_mono saved stored)

theorem Stays.calls {block : Block} {store : BlockStore} {p : Process V} (stays : Stays comet block store p)
    (chain : Int → Block) (calls : List ((Int → SourceAnswer V) × Int)) :
    Stays comet block store ((chainCalls chain calls).foldl (Process.step comet) p) := by
  induction calls generalizing p with
  | nil => exact stays
  | cons call rest ih => exact ih (stays.call call.1 (some (chain call.2)))

theorem load_afterHead {i : HotIngestor V} : i.store.load i.afterHead = none := by
  apply BlockStore.load_eq_none
  have range := i.store.range
  unfold afterHead
  split <;> omega

theorem Recoverable.pending {i : HotIngestor V} {block : Block} (recoverable : Recoverable comet chain first tip i)
    (extending : Extending comet i) (waiting : i.pending = some block) : block = chain i.afterHead := by
  obtain ⟨calls, -, persisted⟩ := recoverable
  have initial : Stays comet block i.store (.running i) := ⟨i, rfl, extending, .inl ⟨waiting, rfl⟩⟩
  obtain ⟨last, reached, -, held⟩ := initial.calls chain calls
  rw [reached] at persisted
  change last.store.load i.afterHead = some (chain i.afterHead) at persisted
  rcases held with ⟨-, same⟩ | stored
  · rw [same, load_afterHead] at persisted
    cases persisted
  · rw [extending.next block waiting, persisted] at stored
    exact (Option.some.inj stored).symm

theorem step_submit_ok {ask : Int → SourceAnswer V} {i i' : HotIngestor V} {block : Option Block} {result : IngestResult}
    (accepted : submit comet ask i block = (i', .ok result)) :
    (Process.running i).step comet (.submit ask block) = .running i' := by
  simp [Process.step, accepted]

theorem recoverable_of_onChain {i : HotIngestor V} (valid : ValidChain comet i.opts trusted chain first tip)
    (trust : Trust comet i.opts trusted first tip) (on : OnChain comet trusted chain first i)
    (low : first ≤ i.afterHead) (room : i.afterHead + 1 ≤ tip) (int64 : tip ≤ maxInt64) :
    Recoverable comet chain first tip i := by
  have height := valid.height _ low (by omega)
  cases waiting : i.pending with
  | some block =>
    -- the chain's block is pending already: its successor commits it
    have reached := on.extending.next block waiting
    have same := (on.pending block waiting).2
    have next : i.nextHeight = i.afterHead + 1 := by
      rw [nextHeight_of_pending waiting, reached, succ64_of_lt (by omega)]
    obtain ⟨i', result, accepted, -, -, -, saved⟩ := submit_chain valid trust on (by omega) (by omega)
    refine ⟨[(honestSource trusted, i.nextHeight)], by simp; omega, ?_⟩
    simp only [chainCalls, List.map_cons, List.map_nil, List.foldl_cons, List.foldl_nil, step_submit_ok accepted]
    have stored := saved block waiting
    rw [same, reached, height] at stored
    exact stored
  | none =>
    have next : i.nextHeight = i.afterHead := nextHeight_eq_afterHead waiting (by omega)
    obtain ⟨mid, _, accepted, onMid, opts, pending, -⟩ := submit_chain valid trust on (by omega) (by omega)
    have after : mid.nextHeight = i.afterHead + 1 := by
      rw [nextHeight_of_pending pending, next, height, succ64_of_lt (by omega)]
    obtain ⟨i', result, committed, -, -, -, saved⟩ :=
      submit_chain (valid.of_opts opts) (opts ▸ trust) onMid (by omega) (by omega)
    refine ⟨[(honestSource trusted, i.nextHeight), (honestSource trusted, mid.nextHeight)], by simp; omega, ?_⟩
    simp only [chainCalls, List.map_cons, List.map_nil, List.foldl_cons, List.foldl_nil, step_submit_ok accepted,
      step_submit_ok committed]
    have stored := saved _ pending
    rw [next, height] at stored
    exact stored

theorem Syncing.onChain {initial : BlockStore} {i : HotIngestor V} (syncing : Syncing comet trusted chain first tip events i)
    (run : Run (Process.Step comet) (.stopped initial) events (.running i))
    (onChain : ∀ block, i.pending = some block → block = chain i.afterHead) :
    OnChain comet trusted chain first i := by
  have extending := (run_names run).extending i rfl
  refine ⟨extending, ?_, ?_, ?_⟩
  · intro block waiting
    have reached := extending.next block waiting
    rw [reached]
    exact ⟨syncing.low, onChain block waiting⟩
  · intro block found
    have named := i.store.named _ _ found
    rw [named]
    exact syncing.persisted _ _ found
  · intro h vals found
    obtain ⟨ask, member, answered⟩ := run_cacheAnswered run i rfl h vals found
    exact syncing.answered ask member h vals answered

def TakesChain (chain : Int → Block) : Process V → Event V → Prop
  | .running i, .submit _ (some block) => block.height = i.nextHeight → block = chain block.height
  | _, _ => True

theorem run_takesChain {initial : BlockStore} {p : Process V}
    (run : Run (fun s event t => Process.Step comet s event t ∧ TakesChain chain s event) (.stopped initial) events p) :
    ∀ i, p = .running i → ∀ block, i.pending = some block → block = chain block.height := by
  have chained := run_names (run.mono fun _ _ _ taken => taken.1)
  induction run with
  | refl =>
    intro i running
    cases running
  | @snoc events mid last event before taken ih =>
    obtain ⟨rfl, takes⟩ := taken
    have extending := (run_names (before.mono fun _ _ _ taken => taken.1)).extending
    replace ih := ih (run_names (before.mono fun _ _ _ taken => taken.1))
    intro i running block waiting
    cases event with
    | start opts =>
      simp only [Process.step] at running
      split at running
      next built =>
        cases running
        obtain ⟨-, pending, -⟩ := newHotIngestor_spec comet built
        rw [pending] at waiting
        cases waiting
      · cases running
    | submit ask given =>
      cases mid with
      | stopped store => cases running
      | running old =>
        rw [step_submit (submit_extending (extending old rfl) ask given).2] at running
        cases running
        rcases submit_pending comet ask old given with same | ⟨next, rfl, reached, pending⟩
        · exact ih old rfl block (same ▸ waiting)
        · rw [pending] at waiting
          cases waiting
          exact takes reached
    | prune target =>
      simp only [Process.step] at running
      cases mid with
      | stopped store => split at running <;> cases running
      | running old => split at running <;> cases running <;> exact ih _ rfl block waiting

/-- A reached state can be recovered with blocks of the chain exactly when its pending block, if any,
is the chain's; so every state can in a run that hands the ingestor no other block at its next height. -/
theorem recoverable_iff_pending :
    (∀ (trusted : Int → Option V) (chain : Int → Block) (first tip : Int) (initial : BlockStore)
      (events : List (Event V)) (i : HotIngestor V),
      Run (Process.Step comet) (.stopped initial) events (.running i) →
      Syncing comet trusted chain first tip events i →
      (Recoverable comet chain first tip i ↔ ∀ block, i.pending = some block → block = chain i.afterHead)) ∧
    ∀ (trusted : Int → Option V) (chain : Int → Block) (first tip : Int) (initial : BlockStore)
      (events : List (Event V)) (i : HotIngestor V),
      Run (fun s event t => Process.Step comet s event t ∧ TakesChain chain s event) (.stopped initial) events
        (.running i) →
      Syncing comet trusted chain first tip events i → Recoverable comet chain first tip i := by
  constructor
  · intro trusted chain first tip initial events i run syncing
    constructor
    · intro recoverable block waiting
      exact recoverable.pending ((run_names run).extending i rfl) waiting
    · intro onChain
      exact recoverable_of_onChain syncing.valid syncing.trust (syncing.onChain run onChain) syncing.low syncing.room
        syncing.int64
  · intro trusted chain first tip initial events i run syncing
    have plain := run.mono fun _ _ _ taken => taken.1
    have extending := (run_names plain).extending i rfl
    refine recoverable_of_onChain syncing.valid syncing.trust (syncing.onChain plain ?_) syncing.low syncing.room
      syncing.int64
    intro block waiting
    rw [← extending.next block waiting]
    exact run_takesChain run i rfl block waiting

def plainChain (h : Int) : Block := .plain h [UInt8.ofNat (h - 1).toNat] [UInt8.ofNat h.toNat]

theorem plainChain_valid (first tip : Int) (positive : 0 < first) :
    ValidChain Comet.plain plainOptions (fun _ => none) plainChain first tip where
  height := fun _ _ _ => rfl
  checked := by
    intro h low _
    refine ⟨rfl, ?_, by simp [plainChain, Block.plain, Comet.plain], ⟨_, rfl, rfl, fun _ => rfl⟩, ?_⟩
    · change 0 < h
      omega
    · intro mode
      cases mode
  validators := by
    intro mode
    cases mode
  commits := by
    intro h low _
    have same : h + 1 - 1 = h := by omega
    refine ⟨_, ⟨1, [UInt8.ofNat h.toNat]⟩, ⟨rfl, ?_, rfl, ?_⟩, ?_⟩
    · exact same
    · simp [plainChain, Block.plain, Comet.plain]
    · intro mode
      cases mode

theorem plainTrust (first tip : Int) : Trust Comet.plain plainOptions (fun _ => none) first tip where
  configured := by
    intro h vals configured
    cases configured
  unknown := fun _ _ _ => rfl
  source := by
    intro h _ _ _ sourced
    cases sourced

theorem plainSyncing {events : List (Event Unit)} {i : HotIngestor Unit} (opts : i.opts = plainOptions)
    (persisted : ∀ h block, i.store.load h = some block → h = 1 ∧ block = plainChain 1)
    (asked : ∀ ask ∈ answers events, ask = noSource) (low : 1 ≤ i.afterHead) (high : i.afterHead ≤ 2) :
    Syncing Comet.plain (fun _ => none) plainChain 1 3 events i := by
  refine ⟨opts ▸ plainChain_valid 1 3 (by omega), opts ▸ plainTrust 1 3, ?_, ?_, by omega, by omega, by decide⟩
  · intro ask member h vals answered
    rw [asked ask member] at answered
    cases answered.1
  · intro h block found
    obtain ⟨rfl, same⟩ := persisted h block found
    exact ⟨le_refl _, same⟩

theorem start_plain : (Process.stopped .empty).step Comet.plain (.start plainOptions) = .running newPlain := rfl

def syncedPlain : HotIngestor Unit :=
  -- block 1 of the chain is persisted and block 2 is pending
  { newPlain with
    store := (BlockStore.empty.saveBlock (plainChain 1)).get rfl
    pending := some (plainChain 2) }

theorem recoverable_plain :
    plainRun [.start plainOptions, submitPlain (plainChain 1), submitPlain (plainChain 2)] = .running syncedPlain ∧
    Recoverable Comet.plain plainChain 1 3 syncedPlain := by
  have reached : plainRun [.start plainOptions, submitPlain (plainChain 1), submitPlain (plainChain 2)] =
      .running syncedPlain := rfl
  have run := Run.foldl (Process.step Comet.plain) (.stopped .empty)
    [.start plainOptions, submitPlain (plainChain 1), submitPlain (plainChain 2)]
  rw [← plainRun, reached] at run
  refine ⟨reached, (recoverable_iff_pending.1 (fun _ => none) plainChain 1 3 .empty _ syncedPlain run
    (plainSyncing rfl ?_ (by simp [answers, submitPlain]) (by decide) (by decide))).mpr ?_⟩
  · intro h block found
    have bounds := BlockStore.bounds_of_load found
    have one : h = 1 := le_antisymm bounds.2.2 bounds.2.1
    subst one
    exact ⟨rfl, (Option.some.inj found).symm⟩
  · rintro block ⟨⟩
    rfl

def forgedBlock : Block := .plain 1 [0] [9]

theorem forged_pending_wedges :
    ∃ i, Run (Process.Step Comet.plain) (.stopped .empty) [.start plainOptions, submitPlain forgedBlock] (.running i) ∧
      Syncing Comet.plain (fun _ => none) plainChain 1 3 [.start plainOptions, submitPlain forgedBlock] i ∧
      ¬ Recoverable Comet.plain plainChain 1 3 i := by
  have taken : (Process.running newPlain).step Comet.plain (submitPlain forgedBlock) =
      .running { newPlain with pending := some forgedBlock } := rfl
  have run : Run (Process.Step Comet.plain) (.stopped .empty) [.start plainOptions, submitPlain forgedBlock] _ :=
    Run.cons start_plain (Run.cons taken .refl)
  refine ⟨_, run, plainSyncing rfl ?_ (by simp [answers, submitPlain]) (by decide) (by decide), ?_⟩
  · rintro h block ⟨⟩
  intro recoverable
  have same := recoverable.pending ((run_names run).extending _ rfl) rfl
  exact absurd same (by decide)

end CometArchive.Ingest
