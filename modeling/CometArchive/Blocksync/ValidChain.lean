import CometArchive.Blocksync.IngestChain

set_option autoImplicit false

namespace CometArchive.Ingest

open GoBytes HotIngestor Runs

variable {V : Type} (comet : Comet V)

/-- The blocks of `chain` from `first` to `tip`, each accepted alone and committed by its successor;
`trusted` is the validator set of each height, where there is one. -/
structure ValidChain (opts : IngestOptions V) (trusted : Int → Option V) (chain : Int → Block)
    (first tip : Int) : Prop where
  height : ∀ h, first ≤ h → h ≤ tip → (chain h).height = h
  checked : ∀ h, first ≤ h → h ≤ tip → Checked comet opts (chain h)
  validators : opts.validation = .validatorSet → ∀ h, first ≤ h → h ≤ tip → ∀ vals, trusted h = some vals →
    (chain h).validatorsHash = comet.setHash vals
  commits : ∀ h, first ≤ h → h < tip → ∃ commit header, CommitsTo comet (chain h) (chain (h + 1)) commit header ∧
    (opts.validation = .validatorSet → ∃ vals, trusted h = some vals ∧
      comet.verifyCommit vals opts.chainID ⟨comet.blockHash (chain h), header⟩ h commit = .ok ())

structure Trust (opts : IngestOptions V) (trusted : Int → Option V) (first tip : Int) : Prop where
  -- `trusted` is what the options configure and, beyond that, what the source knows
  configured : ∀ h vals, configuredSet opts h = some vals → trusted h = some vals
  unknown : ∀ h, configuredSet opts h = none → opts.hasSource = false → trusted h = none
  source : ∀ h, first ≤ h → h ≤ tip → configuredSet opts h = none → opts.hasSource = true →
    ∃ vals, trusted h = some vals ∧ comet.validateBasic vals = .ok ()

def honestSource (trusted : Int → Option V) (height : Int) : SourceAnswer V :=
  match trusted height with
  | some vals => .found vals
  | none => .missing

structure OnChain (trusted : Int → Option V) (chain : Int → Block) (first : Int) (i : HotIngestor V) :
    Prop where
  -- the ingestor has a pending block and a persisted head of `chain`, and only trusted sets cached
  extending : Extending comet i
  pending : ∀ block, i.pending = some block → first ≤ block.height ∧ block = chain block.height
  head : ∀ block, i.store.load i.store.height = some block → first ≤ block.height ∧ block = chain block.height
  cache : ∀ h vals, i.fetchedSets[h]? = some vals → trusted h = some vals

variable {comet} {opts : IngestOptions V} {trusted : Int → Option V} {chain : Int → Block} {first tip : Int}

theorem ValidChain.positive {h : Int} (valid : ValidChain comet opts trusted chain first tip) (low : first ≤ h)
    (high : h ≤ tip) : 0 < h := by
  have positive := (valid.checked h low high).positive
  rwa [valid.height h low high] at positive

theorem Answered.honest {height : Int} {vals : V}
    (answered : Answered comet (honestSource trusted) height vals) : trusted height = some vals := by
  obtain ⟨answer, -⟩ := answered
  unfold honestSource at answer
  split at answer
  next found =>
    cases answer
    exact found
  · cases answer

theorem cache_honest {i i' : HotIngestor V} (cached : Cached comet (honestSource trusted) i i')
    (cache : ∀ h vals, i.fetchedSets[h]? = some vals → trusted h = some vals) :
    ∀ h vals, i'.fetchedSets[h]? = some vals → trusted h = some vals := by
  intro h vals found
  rcases cached.fetched h vals found with known | answered
  · exact cache h vals known
  · exact Answered.honest answered

theorem validatorSetFor_honest {i : HotIngestor V} {h : Int} {vals : V} (trust : Trust comet i.opts trusted first tip)
    (cache : ∀ h vals, i.fetchedSets[h]? = some vals → trusted h = some vals) (low : first ≤ h) (high : h ≤ tip)
    (known : trusted h = some vals) :
    ∃ i', validatorSetFor comet (honestSource trusted) i h = (i', .ok vals) := by
  unfold validatorSetFor
  cases configured : configuredSet i.opts h with
  | some other =>
    have same := trust.configured h other configured
    rw [known] at same
    cases same
    exact ⟨i, rfl⟩
  | none =>
    dsimp only
    cases found : i.fetchedSets[h]? with
    | some other =>
      have same := cache h other found
      rw [known] at same
      cases same
      exact ⟨i, rfl⟩
    | none =>
      dsimp only
      have sourced : i.opts.hasSource = true := by
        by_contra absent
        have missing := trust.unknown h configured (by simpa using absent)
        rw [known] at missing
        cases missing
      obtain ⟨other, same, basic⟩ := trust.source h low high configured sourced
      rw [known] at same
      cases same
      have answer : honestSource trusted h = .found vals := by simp [honestSource, known]
      rw [if_neg (by simp [sourced]), answer]
      simp only [basic]
      exact ⟨_, rfl⟩

theorem validateBlock_chain {i : HotIngestor V} {h : Int} (valid : ValidChain comet i.opts trusted chain first tip)
    (trust : Trust comet i.opts trusted first tip)
    (cache : ∀ h vals, i.fetchedSets[h]? = some vals → trusted h = some vals) (low : first ≤ h) (high : h ≤ tip) :
    ∃ i', validateBlock comet (honestSource trusted) i (chain h) = (i', .ok ()) := by
  have height := valid.height h low high
  have passed := (checkBlock_eq_ok comet).mpr (valid.checked h low high)
  -- the set of the height, if there is one, has the hash the block carries
  have hashed : ∀ vals, i.opts.validation = .validatorSet → trusted h = some vals →
      checkValidatorsHash comet (chain h) vals = .ok () := by
    intro vals mode known
    simp [checkValidatorsHash, valid.validators mode h low high vals known]
  simp only [validateBlock, passed, checkValidators, height]
  split
  · exact ⟨i, rfl⟩
  next mode =>
    replace mode := not_not.mp mode
    cases configured : configuredSet i.opts h with
    | some vals =>
      dsimp only
      rw [hashed vals mode (trust.configured h vals configured)]
      exact ⟨i, rfl⟩
    | none =>
      dsimp only
      split
      · exact ⟨i, rfl⟩
      next sourced =>
        obtain ⟨vals, known, -⟩ := trust.source h low high configured (by simpa using sourced)
        obtain ⟨i', called⟩ := validatorSetFor_honest trust cache low high known
        simp only [called, hashed vals mode known]
        exact ⟨i', rfl⟩

theorem checkSignatures_chain {i : HotIngestor V} {h : Int} {commit : Commit} {header : PartSetHeader}
    (valid : ValidChain comet i.opts trusted chain first tip) (trust : Trust comet i.opts trusted first tip)
    (cache : ∀ h vals, i.fetchedSets[h]? = some vals → trusted h = some vals) (low : first ≤ h) (high : h < tip)
    (commits : CommitsTo comet (chain h) (chain (h + 1)) commit header) :
    ∃ i', checkSignatures comet (honestSource trusted) i (chain h) commit header = (i', .ok ()) := by
  have height := valid.height h low (by omega)
  obtain ⟨other, parts, same, verified⟩ := valid.commits h low high
  have sameCommit : other = commit := by
    have present := same.present
    rw [commits.present] at present
    exact (Option.some.inj present).symm
  have sameParts : parts = header := by
    have made := same.parts
    rw [commits.parts] at made
    exact (Except.ok.inj made).symm
  subst sameCommit sameParts
  unfold checkSignatures
  split
  · exact ⟨i, rfl⟩
  next mode =>
    obtain ⟨vals, known, signed⟩ := verified (not_not.mp mode)
    obtain ⟨i', called⟩ := validatorSetFor_honest trust cache low (by omega) known
    have cached := (validatorSetFor_spec called).1
    simp only [height, called, cached.opts, signed]
    exact ⟨i', rfl⟩

theorem ValidChain.of_opts {opts' : IngestOptions V} (valid : ValidChain comet opts trusted chain first tip)
    (same : opts' = opts) : ValidChain comet opts' trusted chain first tip :=
  same ▸ valid

theorem extendsHead_chain {i : HotIngestor V} (valid : ValidChain comet i.opts trusted chain first tip)
    (on : OnChain comet trusted chain first i) (empty : i.pending = none) (low : first ≤ i.nextHeight)
    (high : i.nextHeight ≤ tip) : extendsHead comet i.store (chain i.nextHeight) = true := by
  unfold extendsHead
  split
  · rfl
  next head found =>
    obtain ⟨above, same⟩ := on.head head found
    have bounds := BlockStore.bounds_of_load found
    have named := i.store.named _ _ found
    have next : i.nextHeight = head.height + 1 := by
      rw [nextHeight_of_empty empty (valid.positive low high), afterHead_of_pos (by omega), named]
    obtain ⟨commit, header, commits, -⟩ := valid.commits head.height above (by omega)
    rw [next, commits.present]
    simp only [beq_iff_eq]
    rw [commits.blockID, ← same]

theorem submit_chain_ok {i : HotIngestor V} (valid : ValidChain comet i.opts trusted chain first tip)
    (trust : Trust comet i.opts trusted first tip) (on : OnChain comet trusted chain first i)
    (low : first ≤ i.nextHeight) (high : i.nextHeight ≤ tip) :
    ∃ result, (submit comet (honestSource trusted) i (some (chain i.nextHeight))).2 = .ok result := by
  obtain ⟨mid, validated⟩ := validateBlock_chain valid trust on.cache low high
  have cached := (validateBlock_spec comet _ validated).1
  have height := valid.height _ low high
  simp only [submit, validated]
  rw [if_neg (by rw [height, nextHeight_cached cached]; exact not_not.mpr rfl)]
  cases waiting : i.pending with
  | none =>
    simp only [cached.pending, waiting, cached.store, extendsHead_chain valid on waiting low high, if_true]
    exact ⟨_, rfl⟩
  | some pending =>
    obtain ⟨above, same⟩ := on.pending pending waiting
    have next : i.nextHeight = pending.height + 1 := by
      have positive := valid.positive low high
      rw [nextHeight_of_pending waiting] at positive ⊢
      exact succ64_of_pos positive
    obtain ⟨commit, header, commits, -⟩ := valid.commits pending.height above (by omega)
    have committed := (checkCommit_eq_ok comet).mpr commits
    obtain ⟨last, signed⟩ := checkSignatures_chain (valid.of_opts cached.opts) (cached.opts ▸ trust)
      (cache_honest cached on.cache) above (by omega) commits
    have again := (checkSignatures_spec comet _ signed).1
    rw [← same] at committed signed
    have savable := on.extending.saveBlock_ne_none waiting
    obtain ⟨store, saved⟩ := Option.ne_none_iff_exists'.mp savable
    simp only [cached.pending, waiting, persistPending, next, committed, signed, (cached.trans again).store, saved]
    exact ⟨_, rfl⟩

theorem submit_chain {i : HotIngestor V} (valid : ValidChain comet i.opts trusted chain first tip)
    (trust : Trust comet i.opts trusted first tip) (on : OnChain comet trusted chain first i)
    (low : first ≤ i.nextHeight) (high : i.nextHeight ≤ tip) :
    ∃ i' result, submit comet (honestSource trusted) i (some (chain i.nextHeight)) = (i', .ok result) ∧
      OnChain comet trusted chain first i' ∧ i'.opts = i.opts ∧ i'.pending = some (chain i.nextHeight) ∧
      ∀ block, i.pending = some block → i'.store.load block.height = some block := by
  obtain ⟨result, accepted⟩ := submit_chain_ok valid trust on low high
  have extending := (submit_extending on.extending (honestSource trusted) (some (chain i.nextHeight))).1
  have height := valid.height _ low high
  cases called : submit comet (honestSource trusted) i (some (chain i.nextHeight)) with
  | mk i' outcome =>
    rw [called] at accepted extending
    dsimp only at accepted extending
    subst accepted
    obtain ⟨next, same, reached, waiting, opts, fetched, stores⟩ := submit_ok called
    cases same
    refine ⟨i', result, rfl, ⟨extending, ?_, ?_, ?_⟩, opts, ?_, ?_⟩
    · intro block pending
      rw [waiting] at pending
      cases pending
      rw [height]
      exact ⟨low, rfl⟩
    · intro block found
      rcases stores with ⟨-, store⟩ | ⟨pending, present, saved⟩
      · rw [store] at found
        exact on.head block found
      · rw [(BlockStore.saveBlock_spec saved).1, BlockStore.saveBlock_load_self saved] at found
        cases found
        exact on.pending _ present
    · intro h vals found
      rcases fetched h vals found with known | answered
      · exact on.cache h vals known
      · exact Answered.honest answered
    · exact waiting
    · intro block present
      rcases stores with ⟨empty, -⟩ | ⟨pending, same, saved⟩
      · rw [empty] at present
        cases present
      · rw [same] at present
        cases present
        exact BlockStore.saveBlock_load_self saved

end CometArchive.Ingest
