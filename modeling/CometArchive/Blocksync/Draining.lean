import CometArchive.Blocksync.Planning
import CometArchive.Blocksync.Reactor

set_option autoImplicit false

namespace CometArchive.Blocksync

open GoBytes Ingest Runs HotIngestor

variable {V : Type}

namespace Reactor

variable {r r' r'' : Reactor V}

/-- Most steps only let go of requests and responses. What stays marked as received stays buffered. -/
structure Less (r r' : Reactor V) : Prop where
  ingestor : r'.ingestor = r.ingestor
  opts : r'.opts = r.opts
  planner : r.planner.Drops r'.planner
  consistent : r.planner.Consistent → r'.planner.Consistent
  buffered : ∀ (height : Int) (response : BufferedBlockResponse), r'.bufferedResponses[height]? = some response →
    r.bufferedResponses[height]? = some response
  received : ∀ height : Int, height ∈ r'.planner.received → r'.bufferedResponses[height]? = r.bufferedResponses[height]?

theorem Less.refl (r : Reactor V) : r.Less r :=
  ⟨rfl, rfl, .refl _, fun consistent => consistent, fun _ _ found => found, fun _ _ => rfl⟩

theorem Less.trans (first : r.Less r') (second : r'.Less r'') : r.Less r'' where
  ingestor := second.ingestor.trans first.ingestor
  opts := second.opts.trans first.opts
  planner := first.planner.trans second.planner
  consistent consistent := second.consistent (first.consistent consistent)
  buffered height response found := first.buffered height response (second.buffered height response found)
  received height member :=
    (second.received height member).trans (first.received height (second.planner.received height member))

theorem Less.of_planner (ingestor : r'.ingestor = r.ingestor) (opts : r'.opts = r.opts)
    (buffered : r'.bufferedResponses = r.bufferedResponses) (drops : r.planner.Drops r'.planner)
    (consistent : r.planner.Consistent → r'.planner.Consistent) : r.Less r' :=
  ⟨ingestor, opts, drops, consistent, fun _ _ found => buffered ▸ found, fun _ _ => by rw [buffered]⟩

theorem Less.of_peers (ingestor : r'.ingestor = r.ingestor) (opts : r'.opts = r.opts)
    (buffered : r'.bufferedResponses = r.bufferedResponses) (planner : r'.planner = r.planner) : r.Less r' :=
  .of_planner ingestor opts buffered (planner ▸ .refl _) fun consistent => planner ▸ consistent

theorem dropBuffered_drops (r : Reactor V) (drop : Int → BufferedBlockResponse → Bool) :
    r.planner.Drops (r.dropBuffered drop).planner :=
  dropBuffered_planner r.planner.Drops (.refl _) fun planner height _ _ _ drops =>
    drops.trans (planner.markFailed_drops height)

theorem dropBuffered_failed {drop : Int → BufferedBlockResponse → Bool} {height : Int} {response : BufferedBlockResponse}
    (found : r.bufferedResponses[height]? = some response) (dropped : drop height response = true) :
    (r.dropBuffered drop).planner.inflight[height]? = none ∧ height ∉ (r.dropBuffered drop).planner.received := by
  have listed := Std.ExtTreeMap.mem_toList_iff_getElem?_eq_some.mpr found
  simp only [dropBuffered]
  generalize r.bufferedResponses.toList = entries at listed ⊢
  generalize r.planner = planner
  induction entries generalizing planner with
  | nil => cases listed
  | cons entry rest ih =>
    rw [List.foldl_cons]
    rcases List.mem_cons.mp listed with rfl | later
    · rw [if_pos dropped]
      have drops := List.foldlRecOn (motive := (planner.markFailed height).Drops) rest
        (fun planner entry => if drop entry.1 entry.2 then planner.markFailed entry.1 else planner) (.refl _) (by
          intro later drops entry _
          split
          · exact drops.trans (later.markFailed_drops entry.1)
          · exact drops)
      refine ⟨drops.none (by simp [RequestPlanner.markFailed]), ?_⟩
      intro member
      simpa [RequestPlanner.markFailed] using drops.received height member
    · exact ih later _

theorem dropBuffered_less (r : Reactor V) (drop : Int → BufferedBlockResponse → Bool) : r.Less (r.dropBuffered drop) := by
  have drops := r.dropBuffered_drops drop
  refine ⟨rfl, rfl, drops, fun consistent => consistent.of_drops drops (r.dropBuffered_peers drop), ?_, ?_⟩
  · intro height response found
    exact (dropBuffered_get.mp found).1
  · intro height member
    cases found : r.bufferedResponses[height]? with
    | none =>
      rw [dropBuffered, GoMap.get_deleteWhere, found]
      rfl
    | some response =>
      refine dropBuffered_get.mpr ⟨found, ?_⟩
      by_contra dropped
      exact (dropBuffered_failed found (by simpa using dropped)).2 member

theorem markPeerBlockFailed_less (r : Reactor V) (peerID : PeerID) : r.Less (r.markPeerBlockFailed peerID) := by
  unfold markPeerBlockFailed dropBufferedResponsesFromPeer
  refine Less.trans ?_ (dropBuffered_less _ _)
  exact .of_planner rfl rfl rfl (r.planner.removePeer_drops peerID) fun consistent => consistent.removePeer peerID

theorem removePeer_less (r : Reactor V) (peerID : PeerID) : r.Less (r.removePeer peerID) := by
  unfold removePeer dropBufferedResponsesFromPeer
  refine Less.trans ?_ (dropBuffered_less _ _)
  exact .of_planner rfl rfl rfl (r.planner.removePeer_drops peerID) fun consistent => consistent.removePeer peerID

theorem finish_less (r : Reactor V) (height : Int) :
    r.Less { r with planner := r.planner.markDone height, bufferedResponses := r.bufferedResponses.erase height } := by
  have drops := r.planner.markDone_drops height
  refine ⟨rfl, rfl, drops, fun consistent => consistent.of_drops drops rfl, ?_, ?_⟩
  · intro other response found
    rw [GoMap.get_erase] at found
    split at found
    · cases found
    · exact found
  · intro other member
    rw [RequestPlanner.markDone, GoMap.mem_erase] at member
    exact (GoMap.get_erase ..).trans (if_neg member.1)

theorem upsertStatus_less (r : Reactor V) (peerID : PeerID) (advertised : PeerRange) :
    r.Less (r.upsertStatus peerID advertised).1 := by
  have drops := r.planner.upsertPeer_drops peerID advertised
  have consistent : r.planner.Consistent → _ := fun consistent => consistent.upsertPeer peerID advertised
  unfold upsertStatus
  split
  next planner err same =>
    rw [same] at drops consistent
    exact .of_planner rfl rfl rfl drops consistent
  next planner same =>
    rw [same] at drops consistent
    dsimp only [dropBufferedResponsesOutsideRange]
    refine Less.trans ?_ (dropBuffered_less _ _)
    exact .of_planner rfl rfl rfl drops consistent

end Reactor

def Task.adds : Task → Bool
  -- the tasks that can add to what the reactor holds or waits for
  | .blockResponse _ _ => true
  | .submit _ _ => true
  | .plan => true
  | _ => false

variable {comet : Comet V} {choice : Choice V} {r : Reactor V}

theorem exec_submitFailed_less (peerID : PeerID) (block : Block) :
    r.Less (r.exec comet choice (.submitFailed peerID block)).1 ∧
      (r.exec comet choice (.submitFailed peerID block)).1.bufferedResponses[block.height]? = none ∧
      (r.exec comet choice (.submitFailed peerID block)).1.planner.inflight[block.height]? = none := by
  have first := r.finish_less block.height
  have gone : (r.bufferedResponses.erase block.height)[block.height]? = none := by simp
  have failed : (r.planner.markFailed block.height).inflight[block.height]? = none := by simp [RequestPlanner.markFailed]
  simp only [Reactor.exec]
  split
  next =>
    have second := Reactor.markPeerBlockFailed_less { r with
      planner := r.planner.markFailed block.height
      bufferedResponses := r.bufferedResponses.erase block.height } peerID
    refine ⟨(first.trans second).trans (.of_peers rfl rfl rfl rfl), ?_, second.planner.none failed⟩
    cases found : (Reactor.markPeerBlockFailed { r with
        planner := r.planner.markFailed block.height
        bufferedResponses := r.bufferedResponses.erase block.height } peerID).bufferedResponses[block.height]? with
    | none => rfl
    | some response =>
      have before := second.buffered _ _ found
      rw [gone] at before
      cases before
  next => exact ⟨first.trans (.of_peers rfl rfl rfl rfl), gone, failed⟩

theorem exec_submitted_reactor (peerID : PeerID) (block : Block) :
    (r.exec comet choice (.submitted peerID block)).1 =
      { r with
        planner := r.planner.markDone block.height
        bufferedResponses := r.bufferedResponses.erase block.height } := by
  simp only [Reactor.exec]
  split <;> rfl

theorem exec_plan_reactor :
    (r.exec comet choice .plan).1 =
      { r with planner := (r.planner.planAt r.ingestor.nextHeight r.opts.requestLimit choice.now).1 } := by
  simp only [Reactor.exec]
  split
  next same => rw [same]
  next same => rw [same]

theorem exec_less {task : Task} (plain : task.adds = false) : r.Less (r.exec comet choice task).1 := by
  cases task with
  | addPeer peerID => exact .of_peers rfl rfl rfl rfl
  | removePeer peerID => exact r.removePeer_less peerID
  | blockRequest peerID height =>
    simp only [Reactor.exec]
    split <;> exact .refl r
  | enqueueCold peerID height =>
    simp only [Reactor.exec]
    rcases r.enqueueColdBlockRequest_spec peerID height choice.now with ⟨same, -⟩ | ⟨-, budget, coldWork, same⟩
    · rw [same]
      exact .refl r
    · rw [same]
      exact .of_peers rfl rfl rfl rfl
  | undecodable peerID => exact r.markPeerBlockFailed_less peerID
  | submitFailed peerID block => exact (exec_submitFailed_less peerID block).1
  | submitted peerID block =>
    rw [exec_submitted_reactor]
    exact r.finish_less block.height
  | status peerID advertised =>
    have less := r.upsertStatus_less peerID advertised
    simp only [Reactor.exec]
    split
    next same =>
      rw [same] at less
      exact less
    next same =>
      rw [same] at less
      exact less
  | noBlock peerID height =>
    have drops := r.planner.markNoBlock_drops peerID height
    exact .of_planner rfl rfl rfl drops fun consistent =>
      consistent.of_drops drops (r.planner.markNoBlock_peers peerID height)
  | expire =>
    obtain ⟨drops, peers, -⟩ := r.planner.expireInflight_spec choice.now r.opts.requestTimeout
    exact .of_planner rfl rfl rfl drops fun consistent => consistent.of_drops drops peers
  | disconnect peerID thenPlan => exact r.removePeer_less peerID
  | send requests peers =>
    cases requests with
    | nil => exact .refl r
    | cons request rest =>
      simp only [Reactor.exec]
      split <;> exact .refl r
  | requestFailed height rest peers =>
    have drops := r.planner.markFailed_drops height
    exact .of_planner rfl rfl rfl drops fun consistent => consistent.of_drops drops rfl
  | blockResponse peerID block => cases plain
  | submit peerID block => cases plain
  | plan => cases plain

inductive Responds (r : Reactor V) (peerID : PeerID) (block : Block) : Reactor V × Option Task → Prop
  | unsolicited (other : r.planner.inflightPeer block.height ≠ some peerID) : Responds r peerID block (r, none)
  | late (inflight : r.planner.inflightPeer block.height = some peerID) (below : block.height < r.ingestor.nextHeight) :
    Responds r peerID block ({ r with planner := r.planner.markDone block.height }, none)
  | buffers (inflight : r.planner.inflightPeer block.height = some peerID) (above : r.ingestor.nextHeight < block.height) :
    Responds r peerID block
      ({ r with
        bufferedResponses := r.bufferedResponses.insert block.height { peerID, block }
        planner := r.planner.markReceived block.height }, some .plan)
  | submits (inflight : r.planner.inflightPeer block.height = some peerID) (next : block.height = r.ingestor.nextHeight) :
    Responds r peerID block (r, some (.submit peerID block))

theorem exec_responds (r : Reactor V) (choice : Choice V) (peerID : PeerID) (block : Block) :
    Responds r peerID block ((r.exec comet choice (.blockResponse peerID block)).1,
      (r.exec comet choice (.blockResponse peerID block)).2.1) := by
  simp only [Reactor.exec]
  split
  next other => exact .unsolicited other
  next inflight =>
    rw [not_not] at inflight
    split
    next below => exact .late inflight below
    next =>
      split
      next above => exact .buffers inflight above
      next => exact .submits inflight (by omega)

theorem submit_moves {i : HotIngestor V} (extending : Extending comet i) (ask : Int → SourceAnswer V) (block : Block) :
    (∃ i' result, submit comet ask i (some block) = (i', .ok result) ∧ block.height = i.nextHeight ∧
        0 < i.nextHeight ∧ i'.nextHeight = succ64 i.nextHeight) ∨
      ∃ i' err, submit comet ask i (some block) = (i', .error err) ∧ i'.nextHeight = i.nextHeight := by
  -- a `Submit` that succeeds takes the block the ingestor waits for, and no other moves it
  have cases := submit_cases comet ask i (some block)
  obtain ⟨kept, alive⟩ := submit_extending extending ask (some block)
  cases ended : submit comet ask i (some block) with
  | mk i' outcome =>
    cases outcome with
    | ok result =>
      obtain ⟨_, same, next, pending, -⟩ := submit_ok ended
      cases same
      rw [ended] at kept
      have positive := (kept.checked block pending).positive
      exact .inl ⟨i', result, rfl, next, next ▸ positive, by rw [nextHeight_of_pending pending, next]⟩
    | error err =>
      rw [ended] at cases
      generalize same : (i', Outcome.error err) = final at cases
      cases cases with
      | rejected _ _ _ cached =>
        cases same
        exact .inr ⟨i', err, rfl, nextHeight_cached cached⟩
      | first => cases same
      | persisted => cases same
      | panicked => cases same
    | panic =>
      rw [ended] at alive
      exact absurd rfl alive

theorem exec_nextHeight_pos {task : Task} (extending : Extending comet r.ingestor)
    (after : 0 < (r.exec comet choice task).1.ingestor.nextHeight) : 0 < r.ingestor.nextHeight := by
  cases plain : task.adds with
  | false => rwa [(exec_less plain).ingestor] at after
  | true =>
    cases task with
    | blockResponse peerID block =>
      have responds := @exec_responds V comet r choice peerID block
      generalize (r.exec comet choice (.blockResponse peerID block)).1 = later at responds after
      generalize (r.exec comet choice (.blockResponse peerID block)).2.1 = left at responds
      cases responds <;> exact after
    | submit peerID block =>
      simp only [Reactor.exec] at after
      rcases submit_moves extending choice.ask block with ⟨i', result, ended, -, positive, -⟩ | ⟨i', err, ended, still⟩
      · exact positive
      · simp only [ended] at after
        rwa [still] at after
    | plan => rwa [exec_plan_reactor] at after
    | _ => cases plain

/-- The task will take the response at `height` out of the buffer, or look there for it. -/
def Task.Drains (next height : Int) : Task → Prop
  | .submitted _ block => block.height = height ∨ block.height + 1 = height ∧ height = next
  | .submit _ block => block.height = height ∧ height = next
  | .submitFailed _ block => block.height = height
  | _ => False

structure Draining (comet : Comet V) (s : System V) : Prop where
  extending : Extending comet s.reactor.ingestor
  floor : -2 ^ 63 ≤ s.reactor.ingestor.nextHeight
  named : ∀ (height : Int) (response : BufferedBlockResponse), s.reactor.bufferedResponses[height]? = some response →
    response.block.height = height
  -- so nothing is left behind when the next height wraps around
  above : ∀ (height : Int) (response : BufferedBlockResponse), s.reactor.bufferedResponses[height]? = some response →
    -2 ^ 63 < height
  received : ∀ height, height ∈ s.reactor.planner.received →
    ∃ response : BufferedBlockResponse, s.reactor.bufferedResponses[height]? = some response
  drains : ∀ (height : Int) (response : BufferedBlockResponse), s.reactor.bufferedResponses[height]? = some response →
    height ≤ s.reactor.ingestor.nextHeight →
    ∃ id task, s.tasks id = some task ∧ task.Drains s.reactor.ingestor.nextHeight height

variable {s : System V} {validMsg : Message → Bool} {id : Nat} {task : Task} {next : Option Task} {reactor : Reactor V}
  {requested : List Request}

theorem Draining.less (draining : Draining comet s) (present : s.tasks id = some task)
    (less : s.reactor.Less reactor)
    (handsOn : ∀ (height : Int) (response : BufferedBlockResponse), reactor.bufferedResponses[height]? = some response →
      task.Drains s.reactor.ingestor.nextHeight height →
      ∃ new, next = some new ∧ new.Drains s.reactor.ingestor.nextHeight height) :
    Draining comet ⟨reactor, Function.update s.tasks id next, requested⟩ where
  -- a step that only lets go, of a task that hands on what it drains
  extending := less.ingestor ▸ draining.extending
  floor := less.ingestor ▸ draining.floor
  named height response found := draining.named height response (less.buffered height response found)
  above height response found := draining.above height response (less.buffered height response found)
  received height member := by
    rw [less.received height member]
    exact draining.received height (less.planner.received height member)
  drains height response found low := by
    rw [less.ingestor] at low ⊢
    obtain ⟨other, held, running, drains⟩ := draining.drains height response (less.buffered height response found) low
    by_cases same : other = id
    · subst same
      cases present.symm.trans running
      obtain ⟨new, stays, drains⟩ := handsOn height response found drains
      exact ⟨other, new, by simp [stays], drains⟩
    · exact ⟨other, held, by simp [same, running], drains⟩

theorem Draining.submit {peerID : PeerID} {block : Block} (draining : Draining comet s)
    (present : s.tasks id = some (.submit peerID block)) (choice : Choice V) :
    Draining comet (s.step comet validMsg (.run id choice)) := by
  have extending := (submit_extending draining.extending choice.ask (some block)).1
  rw [System.step_run present]
  simp only [Reactor.exec]
  rcases submit_moves draining.extending choice.ask block with
    ⟨i', result, ended, height, positive, moved⟩ | ⟨i', err, ended, still⟩
  · rw [ended] at extending
    simp only [ended]
    refine ⟨extending, moved ▸ succ64_low positive, draining.named, draining.above, draining.received, ?_⟩
    intro other response found low
    dsimp only at found low ⊢
    have above := draining.above other response found
    have unwrapped : i'.nextHeight = s.reactor.ingestor.nextHeight + 1 := by
      rw [moved]
      unfold succ64 at moved ⊢
      split at moved
      · omega
      next differ => exact if_neg differ
    rw [unwrapped] at low ⊢
    by_cases past : other < s.reactor.ingestor.nextHeight
    · -- the handler of an earlier height does not care where the ingestor stands
      obtain ⟨id', held, running, drains⟩ := draining.drains other response found (by omega)
      have differs : id' ≠ id := by
        rintro rfl
        cases present.symm.trans running
        have same := drains.2
        omega
      refine ⟨id', held, by simp [differs, running], ?_⟩
      cases held with
      | submitted _ b =>
        rcases drains with same | ⟨-, same⟩
        · exact .inl same
        · omega
      | submit _ b =>
        have same := drains.2
        omega
      | submitFailed _ b => exact drains
      | _ => exact drains.elim
    · refine ⟨id, .submitted peerID block, by simp, ?_⟩
      by_cases here : other = block.height
      · exact .inl here.symm
      · exact .inr ⟨by omega, by omega⟩
  · rw [ended] at extending
    simp only [ended]
    refine ⟨extending, still ▸ draining.floor, draining.named, draining.above, draining.received, ?_⟩
    intro other response found low
    dsimp only at found low ⊢
    rw [still] at low ⊢
    obtain ⟨id', held, running, drains⟩ := draining.drains other response found low
    by_cases same : id' = id
    · subst same
      cases present.symm.trans running
      exact ⟨id', .submitFailed peerID block, by simp, drains.1⟩
    · exact ⟨id', held, by simp [same, running], drains⟩

theorem Draining.run (draining : Draining comet s) (present : s.tasks id = some task) (choice : Choice V) :
    Draining comet (s.step comet validMsg (.run id choice)) := by
  cases plain : task.adds with
  | false =>
    rw [System.step_run present]
    refine draining.less present (exec_less plain) ?_
    intro height response found drains
    cases task with
    | submitted peerID block =>
      rw [exec_submitted_reactor, GoMap.get_erase] at found
      split at found
      · cases found
      next differs =>
        rcases drains with same | ⟨-, rfl⟩
        · exact absurd same differs
        · -- the next height is looked up in the same section
          have named := draining.named _ response found
          simp only [Reactor.exec, GoMap.get_erase, if_neg differs, found]
          exact ⟨_, rfl, named, rfl⟩
    | submitFailed peerID block =>
      have gone := (@exec_submitFailed_less V comet choice s.reactor peerID block).2.1
      rw [show block.height = height from drains, found] at gone
      cases gone
    | submit peerID block => cases plain
    | _ => exact drains.elim
  | true =>
    cases task with
    | submit peerID block => exact draining.submit present choice
    | blockResponse peerID block =>
      have responds := @exec_responds V comet s.reactor choice peerID block
      rw [System.step_run present]
      generalize (s.reactor.exec comet choice (.blockResponse peerID block)).1 = after at responds ⊢
      generalize (s.reactor.exec comet choice (.blockResponse peerID block)).2.1 = left at responds ⊢
      cases responds with
      | unsolicited other => exact draining.less present (.refl _) fun _ _ _ drains => drains.elim
      | late inflight below =>
        have drops := s.reactor.planner.markDone_drops block.height
        exact draining.less present
          (.of_planner rfl rfl rfl drops fun consistent => consistent.of_drops drops rfl) fun _ _ _ drains => drains.elim
      | submits inflight next => exact draining.less present (.refl _) fun _ _ _ drains => drains.elim
      | buffers inflight above =>
        refine ⟨draining.extending, draining.floor, ?_, ?_, ?_, ?_⟩
        · intro height response found
          dsimp only at found
          rw [GoMap.get_insert] at found
          split at found
          next same =>
            cases found
            exact same
          next => exact draining.named height response found
        · intro height response found
          have floor := draining.floor
          dsimp only at found
          rw [GoMap.get_insert] at found
          split at found
          · omega
          · exact draining.above height response found
        · intro height member
          dsimp only at member ⊢
          rw [GoMap.get_insert]
          split
          · exact ⟨_, rfl⟩
          next differs =>
            apply draining.received height
            simp only [RequestPlanner.markReceived] at member
            split at member
            · exact ((GoMap.mem_insert ..).mp member).resolve_left differs
            · exact member
        · intro height response found low
          dsimp only at found low ⊢
          rw [GoMap.get_insert] at found
          split at found
          · omega
          next differs =>
            obtain ⟨other, held, running, drains⟩ := draining.drains height response found low
            have apart : other ≠ id := by
              rintro rfl
              cases present.symm.trans running
              exact drains.elim
            exact ⟨other, held, by simp [apart, running], drains⟩
    | plan =>
      obtain ⟨-, received, -, -⟩ :=
        s.reactor.planner.planAt_markers s.reactor.ingestor.nextHeight s.reactor.opts.requestLimit choice.now
      rw [System.step_run present, exec_plan_reactor]
      refine ⟨draining.extending, draining.floor, draining.named, draining.above, ?_, ?_⟩
      · intro height member
        exact draining.received height (received height member).1
      · intro height response found low
        obtain ⟨other, held, running, drains⟩ := draining.drains height response found low
        have apart : other ≠ id := by
          rintro rfl
          cases present.symm.trans running
          exact drains.elim
        exact ⟨other, held, by simp [apart, running], drains⟩
    | _ => cases plain

theorem Draining.step (draining : Draining comet s) (event : SystemEvent V) :
    Draining comet (s.step comet validMsg event) := by
  cases event with
  | handle id handler =>
    simp only [System.step]
    split
    · exact draining
    next free =>
      refine ⟨draining.extending, draining.floor, draining.named, draining.above, draining.received, ?_⟩
      intro height response found low
      obtain ⟨other, held, running, drains⟩ := draining.drains height response found low
      have apart : other ≠ id := by
        rintro rfl
        rw [free] at running
        cases running
      exact ⟨other, held, by simp [apart, running], drains⟩
  | takeCold =>
    exact ⟨draining.extending, draining.floor, draining.named, draining.above, draining.received, draining.drains⟩
  | run id choice =>
    cases present : s.tasks id with
    | none =>
      simp only [System.step, present]
      exact draining
    | some task => exact draining.run present choice

theorem Draining.start {store : BlockStore} {given : IngestOptions V} {ingestor : HotIngestor V} {opts : ReactorOptions}
    (created : newHotIngestor comet (some store) given = .ok ingestor)
    (built : newReactor (some ingestor) none opts = .ok reactor) : Draining comet ⟨reactor, fun _ => none, []⟩ := by
  obtain ⟨-, pending, -, -, configured, -⟩ := newHotIngestor_spec comet created
  obtain ⟨same, empty⟩ := newReactor_spec built
  have planner := (newReactor_planner built).1
  have floor : -2 ^ 63 ≤ ingestor.nextHeight := by
    simp only [nextHeight, pending]
    split
    next nonempty => exact succ64_low nonempty
    next =>
      have start := configured.startPos
      omega
  refine ⟨?_, same ▸ floor, by simp [empty], by simp [empty], by simp [planner, newRequestPlanner], by simp [empty]⟩
  rw [same]
  exact ⟨by simp [pending], by simp [pending]⟩

/-- A height is marked as received only while its block is buffered, and when no handler is running nothing
that could be submitted is in the buffer. -/
theorem no_stuck_height (comet : Comet V) (validMsg : Message → Bool) {store : BlockStore} {given : IngestOptions V}
    {ingestor : HotIngestor V} {opts : ReactorOptions} {reactor : Reactor V} {events : List (SystemEvent V)}
    {last : System V} (created : newHotIngestor comet (some store) given = .ok ingestor)
    (built : newReactor (some ingestor) none opts = .ok reactor)
    (run : Run (fun s event t => s.step comet validMsg event = t) ⟨reactor, fun _ => none, []⟩ events last) :
    (∀ height, height ∈ last.reactor.planner.received →
      ∃ response : BufferedBlockResponse, last.reactor.bufferedResponses[height]? = some response ∧
        response.block.height = height) ∧
    ((∀ id, last.tasks id = none) → ∀ (height : Int) (response : BufferedBlockResponse),
      last.reactor.bufferedResponses[height]? = some response → last.reactor.ingestor.nextHeight < height) := by
  have draining : Draining comet last := by
    refine run.preserves (Draining comet) (Draining.start created built) ?_
    rintro s event _ draining rfl
    exact draining.step event
  constructor
  · intro height member
    obtain ⟨response, found⟩ := draining.received height member
    exact ⟨response, found, draining.named height response found⟩
  · intro idle height response found
    by_contra low
    obtain ⟨id, task, running, -⟩ := draining.drains height response found (by omega)
    rw [idle id] at running
    cases running

def aheadEvents : List (SystemEvent Unit) :=
  -- peer `A` is asked for blocks 1 and 2 and delivers the second one first
  [.handle 0 (.addPeer "A"), runAt 0 0,
    .handle 1 (.receive "A" (.statusResponse 1 3)), runAt 1 0, runAt 1 0, runAt 1 0, runAt 1 0, runAt 1 0,
    .handle 1 (.receive "A" (.blockResponse (some (.plain 2 [1] [2])))), runAt 1 0, runAt 1 0, runAt 1 0]

theorem no_stuck_height_plain :
    (2 : Int) ∈ (systemAfter 2 aheadEvents).reactor.planner.received ∧
    (∃ response : BufferedBlockResponse, (systemAfter 2 aheadEvents).reactor.bufferedResponses[(2 : Int)]? = some response) ∧
    (systemAfter 2 aheadEvents).reactor.ingestor.nextHeight < 2 := by
  have created : newHotIngestor Comet.plain (some .empty) plainOptions = .ok newPlain := rfl
  have built : newReactor (some newPlain) none (plainReactor 2).opts = .ok (plainReactor 2) := rfl
  obtain ⟨held, drained⟩ := no_stuck_height Comet.plain takeAll created built
    (Run.foldl (System.step Comet.plain takeAll) (plainSystem 2) aheadEvents)
  have received : (2 : Int) ∈ (systemAfter 2 aheadEvents).reactor.planner.received := by decide
  obtain ⟨response, found, -⟩ := held 2 received
  refine ⟨received, ⟨response, found⟩, drained ?_ 2 response found⟩
  intro id
  rcases id with _ | _ | id
  · rfl
  · rfl
  · rfl

end CometArchive.Blocksync
