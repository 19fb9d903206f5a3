import CometArchive.Blocksync.Persisted

set_option autoImplicit false

namespace CometArchive.Ingest

open HotIngestor Linked Runs

variable {V : Type} {comet : Comet V} {ask : Int → SourceAnswer V}

theorem recoverVerified_spec {store : BlockStore} {opts : IngestOptions V} {verified : Int}
    (recovered : recoverVerified comet store opts = .ok verified) (positive : 0 < verified) :
    ∃ block, store.load verified = some block ∧ block.chainID = opts.chainID ∧
      opts.checkpoints.lookup verified = some (hexHash comet block) := by
  unfold recoverVerified at recovered
  split at recovered
  · cases recovered
    omega
  · dsimp only at recovered
    generalize storedCheckpoint store opts.checkpoints = height at recovered
    split at recovered
    · cases recovered
      omega
    · cases found : store.load height with
      | none => simp [found] at recovered
      | some block =>
        simp only [found] at recovered
        split at recovered
        · cases recovered
        next matched =>
          obtain ⟨chainID, hash⟩ := not_or.mp matched
          split at recovered
          · cases recovered
          · cases recovered
            exact ⟨block, found, not_not.mp chainID, (not_not.mp hash).symm⟩

theorem accept_verifiedThrough (i : HotIngestor V) (block : Block) (persisted : Int) :
    (i.accept block persisted).1.verifiedThrough =
      if i.opts.validation = .checkpoint ∧ (i.opts.checkpoints.lookup block.height).isSome then block.height
      else i.verifiedThrough := by
  simp only [accept, markCheckpoint_verifiedThrough]

variable (comet)

/-- `root` has the hash configured for `limit`. It is pending there, or was stored there. -/
structure Approved (initial : BlockStore) (events : List (Event V)) (i : HotIngestor V) (limit : Int) (root : Block) :
    Prop where
  configured : i.opts.checkpoints.lookup limit = some (hexHash comet root)
  height : root.height = limit
  held : everStored comet initial events limit = some root ∨ i.pending = some root

variable {comet} {initial : BlockStore} {events : List (Event V)} {i i' : HotIngestor V} {limit : Int} {root block : Block}

theorem Approved.of_pending (approved : Approved comet initial events i limit root) {event : Event V}
    (opts : i'.opts = i.opts) (pending : i'.pending = i.pending) :
    Approved comet initial (events ++ [event]) i' limit root := by
  refine ⟨by rw [opts]; exact approved.configured, approved.height, ?_⟩
  rw [pending]
  exact approved.held.imp_left everStored_mono

theorem Approved.of_stored (approved : Approved comet initial events i limit root) {event : Event V}
    (opts : i'.opts = i.opts) (stored : everStored comet initial (events ++ [event]) limit = some root) :
    Approved comet initial (events ++ [event]) i' limit root :=
  ⟨by rw [opts]; exact approved.configured, approved.height, .inl stored⟩

theorem Approved.submit {given : Option Block} (run : Run (Process.Step comet) (.stopped initial) events (.running i))
    (approved : Approved comet initial events i limit root) :
    Approved comet initial (events ++ [.submit ask given]) (submit comet ask i given).1 limit root := by
  have extending := (run_names run).extending i rfl
  have later : Run (Process.Step comet) (.stopped initial) (events ++ [.submit ask given])
      (.running (HotIngestor.submit comet ask i given).1) := .snoc run (step_submit (submit_extending extending ask given).2)
  have stored := (run_recorded later).stored
  have cases := submit_cases comet ask i given
  generalize HotIngestor.submit comet ask i given = result at cases stored
  cases cases with
  | rejected _ i' err cached => exact approved.of_pending cached.opts cached.pending
  | panicked block pending mid cached => exact approved.of_pending cached.opts cached.pending
  | first block mid cached checked next empty extended =>
    refine approved.of_stored ((accept_opts ..).trans cached.opts) ?_
    -- nothing was pending, so the block was stored
    rcases approved.held with ever | waiting
    · exact everStored_mono ever
    · rw [empty] at waiting
      cases waiting
  | persisted block pending mid commit header store cached checked next waiting commits signed saved =>
    refine approved.of_stored ((accept_opts ..).trans cached.opts) ?_
    -- a block that was pending is the one just saved
    rcases approved.held with ever | root_waiting
    · exact everStored_mono ever
    · rw [waiting] at root_waiting
      cases root_waiting
      apply stored
      change (accept { mid with store } block root.height).1.store.load limit = some root
      rw [accept_store, ← approved.height]
      exact BlockStore.saveBlock_load_self saved

theorem submit_limit (comet : Comet V) (i : HotIngestor V) (ask : Int → SourceAnswer V) (given : Option Block) :
    (submit comet ask i given).1.verifiedThrough = i.verifiedThrough ∨
      ∃ root, (submit comet ask i given).1.pending = some root ∧
        root.height = (submit comet ask i given).1.verifiedThrough ∧
        (submit comet ask i given).1.opts.checkpoints.lookup root.height = some (hexHash comet root) := by
  -- the limit changes only to the height of a block that is accepted with the hash configured for it
  have marks {mid : HotIngestor V} {block : Block} {persisted : Int} (checked : Checked comet mid.opts block) :
      (mid.accept block persisted).1.verifiedThrough = mid.verifiedThrough ∨
        ∃ root, (mid.accept block persisted).1.pending = some root ∧
          root.height = (mid.accept block persisted).1.verifiedThrough ∧
          (mid.accept block persisted).1.opts.checkpoints.lookup root.height = some (hexHash comet root) := by
    by_cases marked : mid.opts.validation = .checkpoint ∧ (mid.opts.checkpoints.lookup block.height).isSome
    · obtain ⟨want, entry⟩ := Option.isSome_iff_exists.mp marked.2
      refine .inr ⟨block, accept_pending .., by rw [accept_verifiedThrough, if_pos marked], ?_⟩
      rw [accept_opts, entry, checked.checkpoint marked.1 want entry]
    · exact .inl (by rw [accept_verifiedThrough, if_neg marked])
  have cases := submit_cases comet ask i given
  generalize submit comet ask i given = result at cases
  cases cases with
  | rejected _ i' err cached => exact .inl cached.verified
  | panicked block pending mid cached => exact .inl cached.verified
  | first block mid cached checked =>
    rw [← cached.verified]
    exact marks (by rw [cached.opts]; exact checked)
  | persisted block pending mid commit header store cached checked =>
    rw [← cached.verified]
    have same : ({ mid with store } : HotIngestor V).opts = i.opts := cached.opts
    exact marks (by rw [same]; exact checked)

theorem run_approved {p : Process V} (run : Run (Process.Step comet) (.stopped initial) events p) :
    ∀ i, p = .running i → 0 < i.verifiedThrough →
      ∃ root, Approved comet initial events i i.verifiedThrough root := by
  induction run with
  | refl =>
    intro i running
    cases running
  | @snoc events mid last event before taken ih =>
    intro i running positive
    subst taken
    cases event with
    | start opts =>
      simp only [Process.step] at running
      split at running
      next built =>
        cases running
        obtain ⟨-, -, -, -, -, recovered⟩ := newHotIngestor_spec comet built
        obtain ⟨root, found, -, configured⟩ := recoverVerified_spec recovered positive
        have ever := (run_recorded before).stored _ _ found
        exact ⟨root, configured, mid.store.named _ _ found, .inl (everStored_mono ever)⟩
      next => cases running
    | submit ask given =>
      cases mid with
      | stopped store => cases running
      | running old =>
        have alive := (submit_extending ((run_names before).extending old rfl) ask given).2
        rw [step_submit alive] at running
        cases running
        rcases submit_limit comet old ask given with same | ⟨root, pending, height, configured⟩
        · rw [same] at positive ⊢
          obtain ⟨root, approved⟩ := ih old rfl positive
          exact ⟨root, approved.submit before⟩
        · exact ⟨root, by rw [← height]; exact configured, height, .inr pending⟩
    | prune target =>
      simp only [Process.step] at running
      cases mid with
      | stopped store => split at running <;> cases running
      | running old =>
        split at running
        all_goals
          cases running
          obtain ⟨root, approved⟩ := ih _ rfl positive
          exact ⟨root, approved.of_pending rfl rfl⟩

theorem Approved.still (run : Run (Process.Step comet) (.stopped initial) events (.running i))
    (approved : Approved comet initial events i limit root) (kept : i.store.base ≤ limit) :
    i.store.load limit = some root ∨ i.pending = some root :=
  approved.held.imp_left fun ever => (run_recorded run).load ever kept

theorem Approved.reaches {h : Int} (run : Run (Process.Step comet) (.stopped initial) events (.running i))
    (approved : Approved comet initial events i limit root) (found : everStored comet initial events h = some block)
    (bound : initial.height ≤ h) (below : h ≤ limit) : Relation.ReflTransGen (Names comet) root block := by
  -- up to the limit, everything persisted is the checkpoint block or an ancestor of it
  have recorded := run_recorded run
  rcases approved.held with ever | waiting
  · exact recorded.reaches ever found bound below
  · obtain ⟨positive, reach⟩ := recorded.bounds h block found
    change h ≤ i.store.height at reach
    obtain ⟨head, top⟩ := i.store.exists_head (by omega)
    have names := (run_names run).waiting i rfl root head waiting top
    exact .head names (recorded.reaches (recorded.stored _ _ top) found bound reach)

end CometArchive.Ingest
