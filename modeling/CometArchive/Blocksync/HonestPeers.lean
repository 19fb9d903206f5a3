import CometArchive.Blocksync.Reactor
import CometArchive.Blocksync.Wedge

set_option autoImplicit false

namespace CometArchive.Blocksync

open GoBytes Ingest Runs

variable {V : Type} (comet : Comet V)

def Task.holds : Task → Bool
  -- the task has chosen a block that is not submitted yet
  | .submit _ _ => true
  | _ => false

def Reactor.chooses (r : Reactor V) : Task → Bool
  | .blockResponse peerID block =>
    r.planner.inflightPeer block.height == some peerID && block.height == r.ingestor.nextHeight
  | .submitted _ block => ((r.bufferedResponses.erase block.height)[r.ingestor.nextHeight]?).isSome
  | _ => false

def Exclusive (s : System V) : SystemEvent V → Prop
  | .run id _ => ∀ task, s.tasks id = some task → s.reactor.chooses task = true →
    ∀ other held, s.tasks other = some held → held.holds = false
  | _ => True

structure OfChain (chain : Int → Block) (first tip : Int) (block : Block) : Prop where
  low : first ≤ block.height
  high : block.height ≤ tip
  same : block = chain block.height

/-- Block responses carry blocks of the chain the reactor asked that peer for, and the source answers. -/
def Honest (trusted : Int → Option V) (chain : Int → Block) (first tip : Int) (s : System V) : SystemEvent V → Prop
  | .handle _ (.receive peerID (.blockResponse response)) =>
    ∃ block, response = some block ∧ OfChain chain first tip block ∧ ⟨peerID, block.height⟩ ∈ s.requested
  | .run _ choice => choice.ask = honestSource trusted
  | _ => True

structure Follows (trusted : Int → Option V) (chain : Int → Block) (first tip : Int) (i : HotIngestor V) : Prop where
  -- the ingestor holds blocks of the chain alone
  valid : ValidChain comet i.opts trusted chain first tip
  trust : Trust comet i.opts trusted first tip
  onChain : OnChain comet trusted chain first i

def Task.Fits (chain : Int → Block) (first tip next : Int) : Task → Prop
  | .blockResponse _ block => OfChain chain first tip block
  | .submit _ block => OfChain chain first tip block ∧ block.height = next
  | .submitFailed _ _ => False
  | _ => True

def System.Alone (s : System V) (id : Nat) : Prop :=
  ∀ other held, other ≠ id → s.tasks other = some held → held.holds = false

structure Orderly (trusted : Int → Option V) (chain : Int → Block) (first tip : Int) (s : System V) : Prop where
  follows : Follows comet trusted chain first tip s.reactor.ingestor
  fits : ∀ id task, s.tasks id = some task → task.Fits chain first tip s.reactor.ingestor.nextHeight
  single : ∀ id task, s.tasks id = some task → task.holds = true → s.Alone id
  buffered : ∀ (height : Int) (response : BufferedBlockResponse),
    s.reactor.bufferedResponses[height]? = some response →
    OfChain chain first tip response.block ∧ response.block.height = height

def Task.quiet : Task → Bool
  -- the tasks that neither hold a block nor are about to choose, and do not turn into one that does
  | .blockResponse _ _ => false
  | .submit _ _ => false
  | .submitFailed _ _ => false
  | .submitted _ _ => false
  | _ => true

variable {comet} {trusted : Int → Option V} {chain : Int → Block} {first tip : Int}

theorem exec_quiet (comet : Comet V) (r : Reactor V) (choice : Choice V) {task : Task} (quiet : task.quiet = true) :
    (r.exec comet choice task).1.ingestor = r.ingestor ∧
      (∀ (height : Int) (response : BufferedBlockResponse),
        (r.exec comet choice task).1.bufferedResponses[height]? = some response →
        r.bufferedResponses[height]? = some response) ∧
      ∀ next, (r.exec comet choice task).2.1 = some next → next.quiet = true := by
  cases task with
  | addPeer peerID => exact ⟨rfl, fun _ _ => id, by simp [Reactor.exec]⟩
  | removePeer peerID => exact ⟨rfl, fun _ _ found => (Reactor.dropBuffered_get.mp found).1, by simp [Reactor.exec]⟩
  | blockRequest peerID height =>
    simp only [Reactor.exec]
    split
    · exact ⟨rfl, fun _ _ => id, by simp⟩
    · refine ⟨rfl, fun _ _ => id, ?_⟩
      intro next same
      dsimp only at same
      split at same
      · cases same
        rfl
      · cases same
  | enqueueCold peerID height =>
    simp only [Reactor.exec]
    rcases r.enqueueColdBlockRequest_spec peerID height choice.now with ⟨same, -⟩ | ⟨-, budget, coldWork, same⟩
    · rw [same]
      exact ⟨rfl, fun _ _ => id, by simp⟩
    · rw [same]
      exact ⟨rfl, fun _ _ => id, by simp⟩
  | undecodable peerID =>
    refine ⟨rfl, fun _ _ found => (Reactor.dropBuffered_get.mp found).1, ?_⟩
    intro next same
    cases same
    rfl
  | status peerID advertised =>
    simp only [Reactor.exec, Reactor.upsertStatus]
    cases r.planner.upsertPeer peerID advertised with
    | mk planner result =>
      cases result with
      | error err => exact ⟨rfl, fun _ _ => id, by simp⟩
      | ok =>
        refine ⟨rfl, fun _ _ found => (Reactor.dropBuffered_get.mp found).1, ?_⟩
        intro next same
        cases same
        rfl
  | noBlock peerID height =>
    refine ⟨rfl, fun _ _ => id, ?_⟩
    intro next same
    cases same
    rfl
  | expire =>
    refine ⟨rfl, fun _ _ => id, ?_⟩
    intro next same
    simp only [Reactor.exec] at same
    split at same
    · cases same
      rfl
    · cases same
  | disconnect peerID thenPlan =>
    refine ⟨rfl, fun _ _ found => (Reactor.dropBuffered_get.mp found).1, ?_⟩
    intro next same
    simp only [Reactor.exec] at same
    split at same
    · cases same
      rfl
    · cases same
  | plan =>
    simp only [Reactor.exec]
    split
    · exact ⟨rfl, fun _ _ => id, by simp⟩
    · refine ⟨rfl, fun _ _ => id, ?_⟩
      intro next same
      cases same
      rfl
  | send requests peers =>
    cases requests with
    | nil => exact ⟨rfl, fun _ _ => id, by simp [Reactor.exec]⟩
    | cons request rest =>
      simp only [Reactor.exec]
      split
      · refine ⟨rfl, fun _ _ => id, ?_⟩
        intro next same
        cases same
        rfl
      · refine ⟨rfl, fun _ _ => id, ?_⟩
        intro next same
        cases same
        rfl
  | requestFailed height rest peers =>
    refine ⟨rfl, fun _ _ => id, ?_⟩
    intro next same
    cases same
    rfl
  | blockResponse peerID block => cases quiet
  | submit peerID block => cases quiet
  | submitFailed peerID block => cases quiet
  | submitted peerID block => cases quiet

theorem Task.fits_of_quiet {task : Task} {next : Int} (quiet : task.quiet = true) :
    task.Fits chain first tip next := by
  cases task <;> trivial

theorem Task.free_of_quiet {task : Task} (quiet : task.quiet = true) : task.holds = false := by
  cases task <;> first | rfl | cases quiet

theorem Task.Fits.of_not_holds {task : Task} {next next' : Int} (fits : task.Fits chain first tip next)
    (free : task.holds = false) : task.Fits chain first tip next' := by
  cases task <;> first | exact fits | cases free

/-- What one step of task `id` has to respect. A step that moves the ingestor needs that no other task
holds a block, since such a block would no longer be the one the ingestor waits for. -/
theorem Orderly.advance {s : System V} {id : Nat} {reactor : Reactor V} {next : Option Task} {requested : List Request}
    (orderly : Orderly comet trusted chain first tip s)
    (follows : Follows comet trusted chain first tip reactor.ingestor)
    (still : reactor.ingestor.nextHeight = s.reactor.ingestor.nextHeight ∨ s.Alone id)
    (buffered : ∀ (height : Int) (response : BufferedBlockResponse),
      reactor.bufferedResponses[height]? = some response →
      OfChain chain first tip response.block ∧ response.block.height = height)
    (fits : ∀ task, next = some task → task.Fits chain first tip reactor.ingestor.nextHeight)
    (alone : ∀ task, next = some task → task.holds = true → s.Alone id) :
    Orderly comet trusted chain first tip ⟨reactor, Function.update s.tasks id next, requested⟩ where
  follows := follows
  buffered := buffered
  fits := by
    intro other task present
    dsimp only at present
    by_cases same : other = id
    · subst same
      rw [Function.update_self] at present
      exact fits task present
    · rw [Function.update_of_ne same] at present
      have old := orderly.fits other task present
      rcases still with equal | alone
      · exact equal ▸ old
      · exact old.of_not_holds (alone other task same present)
  single := by
    intro other task present holds third held differ found
    dsimp only at present found
    by_cases same : other = id
    · subst same
      rw [Function.update_self] at present
      rw [Function.update_of_ne differ] at found
      exact alone task present holds third held differ found
    · rw [Function.update_of_ne same] at present
      by_cases moved : third = id
      · subst moved
        rw [Function.update_self] at found
        -- if the advanced task holds a block, then `other` cannot have held one
        by_contra taken
        have free := alone held found (by simpa using taken) other task same present
        rw [holds] at free
        cases free
      · rw [Function.update_of_ne moved] at found
        exact orderly.single other task present holds third held differ found

theorem Follows.submit {i : HotIngestor V} (follows : Follows comet trusted chain first tip i)
    (low : first ≤ i.nextHeight) (high : i.nextHeight ≤ tip) :
    ∃ i' result, HotIngestor.submit comet (honestSource trusted) i (some (chain i.nextHeight)) = (i', .ok result) ∧
      i'.nextHeight ≠ i.nextHeight ∧ Follows comet trusted chain first tip i' := by
  obtain ⟨i', result, accepted, onChain, opts, pending, -⟩ :=
    submit_chain follows.valid follows.trust follows.onChain low high
  have height := follows.valid.height _ low high
  have moved : i'.nextHeight ≠ i.nextHeight := by
    rw [nextHeight_of_pending pending, height]
    exact succ64_ne _
  exact ⟨i', result, accepted, moved, follows.valid.of_opts opts, opts ▸ follows.trust, onChain⟩

theorem Orderly.run {s : System V} {id : Nat} {choice : Choice V} {task : Task} (validMsg : Message → Bool)
    (orderly : Orderly comet trusted chain first tip s) (present : s.tasks id = some task)
    (honest : choice.ask = honestSource trusted)
    (exclusive : s.reactor.chooses task = true → ∀ other held, s.tasks other = some held → held.holds = false) :
    Orderly comet trusted chain first tip (s.step comet validMsg (.run id choice)) := by
  rw [System.step_run present]
  have fits := orderly.fits id task present
  have alone : s.reactor.chooses task = true → s.Alone id := fun chooses other held _ => exclusive chooses other held
  by_cases quiet : task.quiet = true
  · obtain ⟨same, buffered, next⟩ := exec_quiet comet s.reactor choice quiet
    refine orderly.advance (same ▸ orderly.follows) (.inl (by rw [same])) ?_ ?_ ?_
    · intro height response found
      exact orderly.buffered height response (buffered height response found)
    · intro task step
      exact Task.fits_of_quiet (next task step)
    · intro task step holds
      rw [Task.free_of_quiet (next task step)] at holds
      cases holds
  cases task with
  | blockResponse peerID block =>
    simp only [Reactor.exec]
    split
    · exact orderly.advance orderly.follows (.inl rfl) orderly.buffered (by simp) (by simp)
    next inflight =>
      split
      · exact orderly.advance orderly.follows (.inl rfl) orderly.buffered (by simp) (by simp)
      next above =>
        split
        · refine orderly.advance orderly.follows (.inl rfl) ?_ ?_ ?_
          · intro height response found
            simp only [GoMap.get_insert] at found
            split at found
            next same =>
              cases found
              exact ⟨fits, same⟩
            next => exact orderly.buffered height response found
          · rintro task ⟨⟩
            trivial
          · rintro task ⟨⟩ ⟨⟩
        next below =>
          have reached : block.height = s.reactor.ingestor.nextHeight := by omega
          refine orderly.advance orderly.follows (.inl rfl) orderly.buffered ?_ ?_
          · rintro task ⟨⟩
            exact ⟨fits, reached⟩
          · intro task _ _
            apply alone
            simp only [not_not] at inflight
            rw [Reactor.chooses, inflight, reached]
            simp
  | submit peerID block =>
    obtain ⟨ofChain, reached⟩ := fits
    obtain ⟨i', result, accepted, -, follows⟩ := orderly.follows.submit (reached ▸ ofChain.low) (reached ▸ ofChain.high)
    rw [← reached, ← ofChain.same] at accepted
    simp only [Reactor.exec, honest, accepted]
    refine orderly.advance follows (.inr (orderly.single id _ present rfl)) orderly.buffered ?_ ?_
    · rintro task ⟨⟩
      trivial
    · rintro task ⟨⟩ ⟨⟩
  | submitFailed peerID block => exact fits.elim
  | submitted peerID block =>
    have kept : ∀ (height : Int) (response : BufferedBlockResponse),
        (s.reactor.bufferedResponses.erase block.height)[height]? = some response →
        OfChain chain first tip response.block ∧ response.block.height = height := by
      intro height response found
      rw [GoMap.get_erase] at found
      split at found
      · cases found
      · exact orderly.buffered height response found
    simp only [Reactor.exec]
    split
    next buffered found =>
      refine orderly.advance orderly.follows (.inl rfl) kept ?_ ?_
      · rintro task ⟨⟩
        exact kept _ _ found
      · intro task _ _
        apply alone
        simp only [Reactor.chooses]
        rw [found]
        rfl
    next =>
      refine orderly.advance orderly.follows (.inl rfl) kept ?_ ?_
      · rintro task ⟨⟩
        trivial
      · rintro task ⟨⟩ ⟨⟩
  | _ => exact absurd rfl quiet

theorem start_fits (next : Int) {s : System V} {validMsg : Message → Bool} {id : Nat} {handler : Handler} {task : Task}
    (honest : Honest trusted chain first tip s (.handle id handler)) (started : handler.start validMsg = some task) :
    task.Fits chain first tip next ∧ task.holds = false := by
  have quiet : task.quiet = true → task.Fits chain first tip next ∧ task.holds = false :=
    fun quiet => ⟨Task.fits_of_quiet quiet, Task.free_of_quiet quiet⟩
  cases handler with
  | receive peerID message =>
    simp only [Handler.start, receiveTask] at started
    split at started
    · cases started
      exact quiet rfl
    · cases message with
      | blockResponse response =>
        obtain ⟨block, rfl, ofChain, -⟩ := honest
        cases started
        exact ⟨ofChain, rfl⟩
      | statusRequest => cases started
      | _ =>
        cases started
        exact quiet rfl
  | _ =>
    cases started
    exact quiet rfl

theorem Orderly.step {s : System V} {event : SystemEvent V} (validMsg : Message → Bool)
    (orderly : Orderly comet trusted chain first tip s) (honest : Honest trusted chain first tip s event)
    (exclusive : Exclusive s event) : Orderly comet trusted chain first tip (s.step comet validMsg event) := by
  cases event with
  | handle id handler =>
    simp only [System.step]
    split
    · exact orderly
    · refine orderly.advance orderly.follows (.inl rfl) orderly.buffered ?_ ?_
      · intro task started
        exact (start_fits _ honest started).1
      · intro task started holds
        rw [(start_fits 0 honest started).2] at holds
        cases holds
  | run id choice =>
    cases present : s.tasks id with
    | none => simpa only [System.step, present] using orderly
    | some task => exact orderly.run validMsg present honest (exclusive task present)
  | takeCold => exact ⟨orderly.follows, orderly.fits, orderly.single, orderly.buffered⟩

end CometArchive.Blocksync
