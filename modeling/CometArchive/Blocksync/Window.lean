import CometArchive.Blocksync.Draining

set_option autoImplicit false

namespace CometArchive.Blocksync

open GoBytes Ingest Runs HotIngestor

variable {V : Type} {comet : Comet V} {choice : Choice V} {validMsg : Message → Bool}

def RequestPlanner.RangesBelow (p : RequestPlanner) (bound : Int) : Prop :=
  ∀ (id : PeerID) (range : PeerRange), p.peers[id]? = some range → range.height < bound

section Ranges

variable {p : RequestPlanner} {r : Reactor V} {bound : Int}

theorem RequestPlanner.RangesBelow.removePeer (below : p.RangesBelow bound) (id : PeerID) :
    (p.removePeer id).RangesBelow bound := by
  intro other range known
  rw [RequestPlanner.removePeer, GoMap.get_erase] at known
  split at known
  · cases known
  · exact below other range known

theorem dropBuffered_rangesBelow (drop : Int → BufferedBlockResponse → Bool) (below : r.planner.RangesBelow bound) :
    (r.dropBuffered drop).planner.RangesBelow bound := by
  intro id range known
  rw [r.dropBuffered_peers drop] at known
  exact below id range known

theorem upsertStatus_rangesBelow (peerID : PeerID) {advertised : PeerRange} (below : r.planner.RangesBelow bound)
    (told : advertised.height < bound) : (r.upsertStatus peerID advertised).1.planner.RangesBelow bound := by
  have inserted : (r.planner.upsertPeer peerID advertised).1.RangesBelow bound := by
    intro id range known
    cases ended : (r.planner.upsertPeer peerID advertised).2 with
    | error err =>
      rw [RequestPlanner.upsertPeer_error ended] at known
      exact below id range known
    | ok =>
      rw [(RequestPlanner.upsertPeer_ok ended).2.1, GoMap.get_insert] at known
      split at known
      · cases known
        exact told
      · exact below id range known
  unfold Reactor.upsertStatus
  split
  next same =>
    rw [same] at inserted
    exact inserted
  next same =>
    rw [same] at inserted
    exact dropBuffered_rangesBelow _ inserted

theorem exec_rangesBelow {task : Task} (below : r.planner.RangesBelow bound)
    (told : ∀ peerID advertised, task = .status peerID advertised → advertised.height < bound) :
    (r.exec comet choice task).1.planner.RangesBelow bound := by
  cases task with
  | addPeer peerID => exact below
  | removePeer peerID => exact dropBuffered_rangesBelow _ (below.removePeer peerID)
  | blockRequest peerID height =>
    simp only [Reactor.exec]
    split <;> exact below
  | enqueueCold peerID height =>
    simp only [Reactor.exec]
    rcases r.enqueueColdBlockRequest_spec peerID height choice.now with ⟨same, -⟩ | ⟨-, budget, coldWork, same⟩
    · rw [same]
      exact below
    · rw [same]
      exact below
  | undecodable peerID => exact dropBuffered_rangesBelow _ (below.removePeer peerID)
  | blockResponse peerID block =>
    have responds := @exec_responds V comet r choice peerID block
    generalize (r.exec comet choice (.blockResponse peerID block)).1 = after at responds ⊢
    generalize (r.exec comet choice (.blockResponse peerID block)).2.1 = left at responds
    cases responds with
    | buffers =>
      unfold RequestPlanner.markReceived
      dsimp only
      split <;> exact below
    | _ => exact below
  | submit peerID block =>
    simp only [Reactor.exec]
    split <;> exact below
  | submitFailed peerID block =>
    simp only [Reactor.exec]
    split
    · exact dropBuffered_rangesBelow _ (RequestPlanner.RangesBelow.removePeer (show (r.planner.markFailed _).RangesBelow _
        from below) peerID)
    · exact below
  | submitted peerID block =>
    rw [exec_submitted_reactor]
    exact below
  | status peerID advertised =>
    have after := upsertStatus_rangesBelow peerID below (told peerID advertised rfl)
    simp only [Reactor.exec]
    split
    next same =>
      rw [same] at after
      exact after
    next same =>
      rw [same] at after
      exact after
  | noBlock peerID height =>
    intro id range known
    rw [Reactor.exec, RequestPlanner.markNoBlock_peers] at known
    exact below id range known
  | expire =>
    intro id range known
    change (r.planner.expireInflight _ _).1.peers[id]? = some range at known
    rw [(r.planner.expireInflight_spec _ _).2.1] at known
    exact below id range known
  | disconnect peerID thenPlan => exact dropBuffered_rangesBelow _ (below.removePeer peerID)
  | plan =>
    rw [exec_plan_reactor]
    intro id range known
    rw [(r.planner.planAt_markers _ _ _).1] at known
    exact below id range known
  | send requests peers =>
    cases requests with
    | nil => exact below
    | cons request rest =>
      simp only [Reactor.exec]
      split <;> exact below
  | requestFailed height rest peers => exact below

end Ranges

theorem exec_next_status {r : Reactor V} {task : Task} {peerID : PeerID} {advertised : PeerRange} :
    (r.exec comet choice task).2.1 ≠ some (.status peerID advertised) := by
  intro next
  cases task with
  | send requests peers =>
    cases requests with
    | nil => cases next
    | cons request rest =>
      simp only [Reactor.exec] at next
      split at next <;> cases next
  | addPeer | removePeer | undecodable | noBlock | enqueueCold | requestFailed => cases next
  | _ =>
    simp only [Reactor.exec] at next
    repeat' split at next
    all_goals cases next

structure Windowed (limit : Int) (s : System V) : Prop where
  opts : s.reactor.opts.requestLimit = limit
  consistent : s.reactor.planner.Consistent
  ranges : s.reactor.planner.RangesBelow (2 ^ 63)
  statuses : ∀ id peerID advertised, s.tasks id = some (.status peerID advertised) → advertised.height < 2 ^ 63
  positive : 0 < s.reactor.ingestor.nextHeight
  inflight : ∀ (height : Int) (request : InflightRequest), s.reactor.planner.inflight[height]? = some request →
    height < s.reactor.ingestor.nextHeight + limit
  received : ∀ height, height ∈ s.reactor.planner.received → height < s.reactor.ingestor.nextHeight + limit
  noBlocks : ∀ id height, Marked s.reactor.planner.noBlocks id height → height < s.reactor.ingestor.nextHeight + limit
  timeouts : ∀ id height, Marked s.reactor.planner.timeouts id height → height < s.reactor.ingestor.nextHeight + limit
  buffered : ∀ (height : Int) (response : BufferedBlockResponse), s.reactor.bufferedResponses[height]? = some response →
    height < s.reactor.ingestor.nextHeight + limit
  -- a request for a height that was submitted is about to be taken back
  done : ∀ (height : Int) (request : InflightRequest), s.reactor.planner.inflight[height]? = some request →
    height < s.reactor.ingestor.nextHeight →
    ∃ id peerID block, s.tasks id = some (.submitted peerID block) ∧ block.height = height

variable {s : System V} {limit : Int} {id : Nat} {task : Task} {next : Option Task} {reactor : Reactor V}
  {requested : List Request}

theorem Windowed.keepStatuses (windowed : Windowed limit s)
    (fresh : ∀ peerID advertised, next ≠ some (.status peerID advertised)) :
    ∀ other peerID advertised, Function.update s.tasks id next other = some (.status peerID advertised) →
      advertised.height < 2 ^ 63 := by
  intro other peerID advertised present
  by_cases same : other = id
  · subst same
    rw [Function.update_self] at present
    exact absurd present (fresh peerID advertised)
  · rw [Function.update_of_ne same] at present
    exact windowed.statuses other peerID advertised present

theorem Windowed.less (windowed : Windowed limit s) (present : s.tasks id = some task) (less : s.reactor.Less reactor)
    (ranges : reactor.planner.RangesBelow (2 ^ 63)) (fresh : ∀ peerID advertised, next ≠ some (.status peerID advertised))
    (finished : ∀ peerID block, task = .submitted peerID block → reactor.planner.inflight[block.height]? = none) :
    Windowed limit ⟨reactor, Function.update s.tasks id next, requested⟩ where
  opts := less.opts ▸ windowed.opts
  consistent := less.consistent windowed.consistent
  ranges := ranges
  statuses := windowed.keepStatuses fresh
  positive := less.ingestor ▸ windowed.positive
  inflight height request found :=
    less.ingestor ▸ windowed.inflight height request (less.planner.inflight height request found)
  received height member := less.ingestor ▸ windowed.received height (less.planner.received height member)
  noBlocks id height marked := by
    rw [less.ingestor]
    rcases less.planner.noBlocks id height marked with before | ⟨-, request, found, -⟩
    · exact windowed.noBlocks id height before
    · exact windowed.inflight height request found
  timeouts id height marked := by
    rw [less.ingestor]
    rcases less.planner.timeouts id height marked with before | ⟨request, found, -⟩
    · exact windowed.timeouts id height before
    · exact windowed.inflight height request found
  buffered height response found :=
    less.ingestor ▸ windowed.buffered height response (less.buffered height response found)
  done height request found low := by
    rw [less.ingestor] at low
    obtain ⟨other, peerID, block, running, rfl⟩ :=
      windowed.done height request (less.planner.inflight height request found) low
    have apart : other ≠ id := by
      rintro rfl
      cases present.symm.trans running
      rw [finished peerID block rfl] at found
      cases found
    exact ⟨other, peerID, block, by simp [apart, running], rfl⟩

theorem Windowed.submit {peerID : PeerID} {block : Block} (windowed : Windowed limit s)
    (extending : Extending comet s.reactor.ingestor) (present : s.tasks id = some (.submit peerID block))
    (choice : Choice V) (unwrapped : 0 < (s.step comet validMsg (.run id choice)).reactor.ingestor.nextHeight) :
    Windowed limit (s.step comet validMsg (.run id choice)) := by
  have positive := windowed.positive
  have others : ∀ (height : Int) (request : InflightRequest), s.reactor.planner.inflight[height]? = some request →
      height < s.reactor.ingestor.nextHeight → ∀ next, ∃ other peerID block,
        Function.update s.tasks id next other = some (.submitted peerID block) ∧ block.height = height := by
    intro height request found low next
    obtain ⟨other, peerID, block, running, same⟩ := windowed.done height request found low
    have apart : other ≠ id := by
      rintro rfl
      cases present.symm.trans running
    exact ⟨other, peerID, block, by simp [apart, running], same⟩
  rw [System.step_run present] at unwrapped ⊢
  simp only [Reactor.exec] at unwrapped ⊢
  rcases submit_moves extending choice.ask block with ⟨i', result, ended, here, -, moved⟩ | ⟨i', err, ended, still⟩
  · simp only [ended] at unwrapped ⊢
    rw [moved] at unwrapped
    rw [succ64_of_pos unwrapped] at moved
    refine ⟨windowed.opts, windowed.consistent, windowed.ranges, windowed.keepStatuses (by simp), by dsimp only; omega,
      ?_, ?_, ?_, ?_, ?_, ?_⟩
    · intro height request found
      have below := windowed.inflight height request found
      dsimp only
      omega
    · intro height member
      have below := windowed.received height member
      dsimp only
      omega
    · intro peer height marked
      have below := windowed.noBlocks peer height marked
      dsimp only
      omega
    · intro peer height marked
      have below := windowed.timeouts peer height marked
      dsimp only
      omega
    · intro height response found
      have below := windowed.buffered height response found
      dsimp only
      omega
    · intro height request found low
      dsimp only at found low
      by_cases past : height < s.reactor.ingestor.nextHeight
      · exact others height request found past _
      · exact ⟨id, peerID, block, by simp, by omega⟩
  · simp only [ended]
    rw [← still] at positive
    refine ⟨windowed.opts, windowed.consistent, windowed.ranges, windowed.keepStatuses (by simp), positive,
      ?_, ?_, ?_, ?_, ?_, ?_⟩
    all_goals dsimp only
    all_goals rw [still]
    · exact windowed.inflight
    · exact windowed.received
    · exact windowed.noBlocks
    · exact windowed.timeouts
    · exact windowed.buffered
    · exact fun height request found low => others height request found low _

theorem Windowed.buffer {peerID : PeerID} {block : Block} (windowed : Windowed limit s)
    (present : s.tasks id = some (.blockResponse peerID block))
    (inflight : s.reactor.planner.inflightPeer block.height = some peerID) :
    Windowed limit ⟨{ s.reactor with
        bufferedResponses := s.reactor.bufferedResponses.insert block.height { peerID, block }
        planner := s.reactor.planner.markReceived block.height },
      Function.update s.tasks id (some .plan), requested⟩ := by
  obtain ⟨sent, found, -⟩ := Option.map_eq_some_iff.mp inflight
  have below := windowed.inflight block.height sent found
  have erased : ∀ (height : Int) (request : InflightRequest),
      (s.reactor.planner.markReceived block.height).inflight[height]? = some request →
      s.reactor.planner.inflight[height]? = some request := by
    intro height request found
    apply (s.reactor.planner.markDone_drops block.height).inflight height request
    simp only [RequestPlanner.markReceived] at found
    split at found <;> exact found
  have peers : (s.reactor.planner.markReceived block.height).peers = s.reactor.planner.peers := by
    unfold RequestPlanner.markReceived
    dsimp only
    split <;> rfl
  have noBlocks : (s.reactor.planner.markReceived block.height).noBlocks = s.reactor.planner.noBlocks := by
    unfold RequestPlanner.markReceived
    dsimp only
    split <;> rfl
  have timeouts : (s.reactor.planner.markReceived block.height).timeouts = s.reactor.planner.timeouts := by
    unfold RequestPlanner.markReceived
    dsimp only
    split <;> rfl
  refine ⟨windowed.opts, windowed.consistent.markReceived block.height, ?_, windowed.keepStatuses (by simp),
    windowed.positive, ?_, ?_, ?_, ?_, ?_, ?_⟩
  · intro peer range known
    rw [peers] at known
    exact windowed.ranges peer range known
  · intro height request found
    exact windowed.inflight height request (erased height request found)
  · intro height member
    simp only [RequestPlanner.markReceived] at member
    split at member
    · rcases (GoMap.mem_insert ..).mp member with rfl | old
      · exact below
      · exact windowed.received height old
    · exact windowed.received height member
  · intro peer height marked
    exact windowed.noBlocks peer height (noBlocks ▸ marked)
  · intro peer height marked
    exact windowed.timeouts peer height (timeouts ▸ marked)
  · intro height response found
    dsimp only at found
    rw [GoMap.get_insert] at found
    split at found
    next same => exact same ▸ below
    next => exact windowed.buffered height response found
  · intro height request found low
    obtain ⟨other, peer, held, running, same⟩ := windowed.done height request (erased height request found) low
    have apart : other ≠ id := by
      rintro rfl
      cases present.symm.trans running
    exact ⟨other, peer, held, by simp [apart, running], same⟩

theorem Windowed.plan (windowed : Windowed limit s) (present : s.tasks id = some .plan)
    (fresh : ∀ peerID advertised, next ≠ some (.status peerID advertised)) (choice : Choice V) :
    Windowed limit ⟨(s.reactor.exec comet choice .plan).1, Function.update s.tasks id next, requested⟩ := by
  -- a plan adds requests of the window only, and leaves no marker below it
  have positive := windowed.positive
  obtain ⟨peers, received, noBlocks, timeouts⟩ :=
    s.reactor.planner.planAt_markers s.reactor.ingestor.nextHeight s.reactor.opts.requestLimit choice.now
  have window : ∀ (height : Int) (request : InflightRequest),
      (s.reactor.planner.planAt s.reactor.ingestor.nextHeight s.reactor.opts.requestLimit choice.now).1.inflight[height]? =
        some request → s.reactor.planner.inflight[height]? = some request ∨
          s.reactor.ingestor.nextHeight ≤ height ∧ height < s.reactor.ingestor.nextHeight + limit := by
    intro height request found
    rw [windowed.opts] at found
    exact RequestPlanner.planAt_window windowed.consistent windowed.ranges found
  rw [exec_plan_reactor]
  refine ⟨windowed.opts, windowed.consistent.planAt .., ?_, windowed.keepStatuses fresh, positive, ?_, ?_, ?_, ?_,
    windowed.buffered, ?_⟩
  · intro peer range known
    rw [peers] at known
    exact windowed.ranges peer range known
  · intro height request found
    rcases window height request found with old | ⟨-, below⟩
    · exact windowed.inflight height request old
    · exact below
  · intro height member
    exact windowed.received height (received height member).1
  · intro peer height marked
    exact windowed.noBlocks peer height (noBlocks peer height marked).1
  · intro peer height marked
    exact windowed.timeouts peer height (timeouts peer height marked).1
  · intro height request found low
    rcases window height request found with old | ⟨above, -⟩
    · obtain ⟨other, peer, held, running, same⟩ := windowed.done height request old low
      have apart : other ≠ id := by
        rintro rfl
        cases present.symm.trans running
      exact ⟨other, peer, held, by simp [apart, running], same⟩
    · dsimp only at low
      omega

theorem Windowed.run (windowed : Windowed limit s) (extending : Extending comet s.reactor.ingestor)
    (present : s.tasks id = some task) (choice : Choice V)
    (unwrapped : 0 < (s.step comet validMsg (.run id choice)).reactor.ingestor.nextHeight) :
    Windowed limit (s.step comet validMsg (.run id choice)) := by
  have ranges : (s.reactor.exec comet choice task).1.planner.RangesBelow (2 ^ 63) :=
    exec_rangesBelow windowed.ranges fun peerID advertised same => windowed.statuses id peerID advertised (same ▸ present)
  have fresh : ∀ peerID advertised, (s.reactor.exec comet choice task).2.1 ≠ some (.status peerID advertised) :=
    fun _ _ => exec_next_status
  cases plain : task.adds with
  | false =>
    rw [System.step_run present]
    refine windowed.less present (exec_less plain) ranges fresh ?_
    rintro peerID block rfl
    rw [exec_submitted_reactor]
    simp [RequestPlanner.markDone]
  | true =>
    cases task with
    | submit peerID block => exact windowed.submit extending present choice unwrapped
    | plan =>
      rw [System.step_run present]
      exact windowed.plan present fresh choice
    | blockResponse peerID block =>
      have responds := @exec_responds V comet s.reactor choice peerID block
      rw [System.step_run present]
      generalize (s.reactor.exec comet choice (.blockResponse peerID block)).1 = after at responds ranges ⊢
      generalize (s.reactor.exec comet choice (.blockResponse peerID block)).2.1 = left at responds fresh ⊢
      cases responds with
      | unsolicited other => exact windowed.less present (.refl _) ranges fresh (by simp)
      | late inflight below =>
        have drops := s.reactor.planner.markDone_drops block.height
        refine windowed.less present ?_ ranges fresh (by simp)
        exact .of_planner rfl rfl rfl drops fun consistent => consistent.of_drops drops rfl
      | submits inflight next => exact windowed.less present (.refl _) ranges fresh (by simp)
      | buffers inflight above => exact windowed.buffer present inflight
    | _ => cases plain

def SystemEvent.Int64 : SystemEvent V → Prop
  | .handle _ (.receive _ (.statusResponse _ height)) => height < 2 ^ 63
  | _ => True

theorem start_status {handler : Handler} {peerID : PeerID} {advertised : PeerRange} (id : Nat)
    (fits : (SystemEvent.handle id handler : SystemEvent V).Int64)
    (started : handler.start validMsg = some (.status peerID advertised)) : advertised.height < 2 ^ 63 := by
  cases handler with
  | receive sender message =>
    simp only [Handler.start, receiveTask] at started
    split at started
    · cases started
    · cases message with
      | statusResponse base height =>
        cases started
        exact fits
      | blockResponse block => cases block <;> cases started
      | _ => cases started
  | _ => cases started

theorem Windowed.step {event : SystemEvent V} (windowed : Windowed limit s) (extending : Extending comet s.reactor.ingestor)
    (fits : event.Int64) (unwrapped : 0 < (s.step comet validMsg event).reactor.ingestor.nextHeight) :
    Windowed limit (s.step comet validMsg event) := by
  cases event with
  | handle id handler =>
    simp only [System.step]
    split
    · exact windowed
    next free =>
      refine ⟨windowed.opts, windowed.consistent, windowed.ranges, ?_, windowed.positive, windowed.inflight,
        windowed.received, windowed.noBlocks, windowed.timeouts, windowed.buffered, ?_⟩
      · intro other peerID advertised present
        dsimp only at present
        by_cases same : other = id
        · subst same
          rw [Function.update_self] at present
          exact start_status other fits present
        · rw [Function.update_of_ne same] at present
          exact windowed.statuses other peerID advertised present
      · intro height request found low
        obtain ⟨other, peerID, block, running, same⟩ := windowed.done height request found low
        have apart : other ≠ id := by
          rintro rfl
          rw [free] at running
          cases running
        exact ⟨other, peerID, block, by simp [apart, running], same⟩
  | takeCold =>
    exact ⟨windowed.opts, windowed.consistent, windowed.ranges, windowed.statuses, windowed.positive, windowed.inflight,
      windowed.received, windowed.noBlocks, windowed.timeouts, windowed.buffered, windowed.done⟩
  | run id choice =>
    cases present : s.tasks id with
    | none =>
      simp only [System.step, present]
      exact windowed
    | some task => exact windowed.run extending present choice unwrapped

theorem step_nextHeight_pos {event : SystemEvent V} (extending : Extending comet s.reactor.ingestor)
    (after : 0 < (s.step comet validMsg event).reactor.ingestor.nextHeight) : 0 < s.reactor.ingestor.nextHeight := by
  cases event with
  | handle id handler =>
    simp only [System.step] at after
    split at after <;> exact after
  | takeCold => exact after
  | run id choice =>
    cases present : s.tasks id with
    | none => simpa only [System.step, present] using after
    | some task =>
      rw [System.step_run present] at after
      exact exec_nextHeight_pos extending after

theorem Windowed.start {ingestor : HotIngestor V} {opts : ReactorOptions}
    (built : newReactor (some ingestor) none opts = .ok reactor) (positive : 0 < reactor.ingestor.nextHeight) :
    Windowed reactor.opts.requestLimit ⟨reactor, fun _ => none, []⟩ := by
  obtain ⟨same, empty⟩ := newReactor_spec built
  have planner : reactor.planner = newRequestPlanner := (newReactor_planner built).1
  have consistent := RequestPlanner.newRequestPlanner_consistent
  refine ⟨rfl, planner ▸ consistent, ?_, by simp, positive, ?_, ?_, ?_, ?_, by simp [empty], ?_⟩
  all_goals simp [planner, newRequestPlanner, RequestPlanner.RangesBelow, Marked]

/-- Everything the reactor keeps lies below the end of the window. A plan leaves no marker below its start,
and when no handler is running nothing at all lies below it. -/
theorem sync_window_bounded (comet : Comet V) (validMsg : Message → Bool) {store : BlockStore} {given : IngestOptions V}
    {ingestor : HotIngestor V} {opts : ReactorOptions} {reactor : Reactor V} {events : List (SystemEvent V)}
    {last : System V} (created : newHotIngestor comet (some store) given = .ok ingestor)
    (built : newReactor (some ingestor) none opts = .ok reactor)
    (run : Run (fun s event t => s.step comet validMsg event = t ∧ event.Int64) ⟨reactor, fun _ => none, []⟩ events last)
    (unwrapped : 0 < last.reactor.ingestor.nextHeight) :
    (∀ height : Int, last.reactor.planner.inflight[height]?.isSome ∨ height ∈ last.reactor.planner.received ∨
        (∃ peer, Marked last.reactor.planner.noBlocks peer height) ∨
        (∃ peer, Marked last.reactor.planner.timeouts peer height) ∨
        last.reactor.bufferedResponses[height]?.isSome →
      height < last.reactor.ingestor.nextHeight + reactor.opts.requestLimit) ∧
    (∀ id choice, last.tasks id = some .plan → ∀ planner,
      planner = (last.step comet validMsg (.run id choice)).reactor.planner →
      (∀ height, height ∈ planner.received → last.reactor.ingestor.nextHeight ≤ height) ∧
      (∀ peer height, Marked planner.noBlocks peer height → last.reactor.ingestor.nextHeight ≤ height) ∧
      (∀ peer height, Marked planner.timeouts peer height → last.reactor.ingestor.nextHeight ≤ height) ∧
      (∀ (peer : PeerID) (heights : GoMap.KeySet Int), planner.noBlocks[peer]? = some heights →
        (heights.size : Int) ≤ reactor.opts.requestLimit) ∧
      ∀ (peer : PeerID) (heights : GoMap.KeySet Int), planner.timeouts[peer]? = some heights →
        (heights.size : Int) ≤ reactor.opts.requestLimit) ∧
    ((∀ id, last.tasks id = none) →
      (∀ height : Int, last.reactor.planner.inflight[height]?.isSome ∨ last.reactor.bufferedResponses[height]?.isSome →
        last.reactor.ingestor.nextHeight ≤ height) ∧
      (last.reactor.planner.inflight.size : Int) ≤ reactor.opts.requestLimit ∧
      (last.reactor.bufferedResponses.size : Int) ≤ reactor.opts.requestLimit) := by
  have enough := (newReactor_planner built).2.1
  obtain ⟨draining, windowed⟩ : Draining comet last ∧
      (0 < last.reactor.ingestor.nextHeight → Windowed reactor.opts.requestLimit last) := by
    refine run.preserves (fun s => Draining comet s ∧
      (0 < s.reactor.ingestor.nextHeight → Windowed reactor.opts.requestLimit s))
      ⟨Draining.start created built, Windowed.start built⟩ ?_
    rintro s event _ ⟨draining, windowed⟩ ⟨rfl, fits⟩
    refine ⟨draining.step event, ?_⟩
    intro later
    exact (windowed (step_nextHeight_pos draining.extending later)).step draining.extending fits later
  replace windowed := windowed unwrapped
  refine ⟨?_, ?_, ?_⟩
  · rintro height (found | member | ⟨peer, marked⟩ | ⟨peer, marked⟩ | found)
    · obtain ⟨request, found⟩ := Option.isSome_iff_exists.mp found
      exact windowed.inflight height request found
    · exact windowed.received height member
    · exact windowed.noBlocks peer height marked
    · exact windowed.timeouts peer height marked
    · obtain ⟨response, found⟩ := Option.isSome_iff_exists.mp found
      exact windowed.buffered height response found
  · rintro id choice present planner rfl
    have after : Windowed reactor.opts.requestLimit (last.step comet validMsg (.run id choice)) :=
      windowed.run draining.extending present choice
        (by rw [System.step_run present, exec_plan_reactor]; exact unwrapped)
    obtain ⟨-, received, noBlocks, timeouts⟩ :=
      last.reactor.planner.planAt_markers last.reactor.ingestor.nextHeight last.reactor.opts.requestLimit choice.now
    rw [System.step_run present, exec_plan_reactor] at after ⊢
    have positive := windowed.positive
    refine ⟨?_, ?_, ?_, ?_, ?_⟩
    · exact fun height member => (received height member).2 positive
    · exact fun peer height marked => (noBlocks peer height marked).2 positive
    · exact fun peer height marked => (timeouts peer height marked).2 positive
    · intro peer heights found
      apply GoMap.keySet_size_le_of_bounds (by omega)
      intro height member
      have marked : Marked _ peer height := ⟨heights, found, member⟩
      exact ⟨(noBlocks peer height marked).2 positive, after.noBlocks peer height marked⟩
    · intro peer heights found
      apply GoMap.keySet_size_le_of_bounds (by omega)
      intro height member
      have marked : Marked _ peer height := ⟨heights, found, member⟩
      exact ⟨(timeouts peer height marked).2 positive, after.timeouts peer height marked⟩
  · intro idle
    have requests : ∀ (height : Int) (request : InflightRequest), last.reactor.planner.inflight[height]? = some request →
        last.reactor.ingestor.nextHeight ≤ height := by
      intro height request found
      by_contra low
      obtain ⟨id, peerID, block, running, -⟩ := windowed.done height request found (by omega)
      rw [idle id] at running
      cases running
    have responses : ∀ (height : Int) (response : BufferedBlockResponse),
        last.reactor.bufferedResponses[height]? = some response → last.reactor.ingestor.nextHeight ≤ height := by
      intro height response found
      by_contra low
      obtain ⟨id, task, running, -⟩ := draining.drains height response found (by omega)
      rw [idle id] at running
      cases running
    refine ⟨?_, ?_, ?_⟩
    · rintro height (found | found)
      · obtain ⟨request, found⟩ := Option.isSome_iff_exists.mp found
        exact requests height request found
      · obtain ⟨response, found⟩ := Option.isSome_iff_exists.mp found
        exact responses height response found
    · apply GoMap.size_le_of_bounds (by omega)
      intro height request found
      exact ⟨requests height request found, windowed.inflight height request found⟩
    · apply GoMap.size_le_of_bounds (by omega)
      intro height response found
      exact ⟨responses height response found, windowed.buffered height response found⟩

theorem sync_window_plain :
    (∀ id, (systemAfter 2 aheadEvents).tasks id = none) ∧
    (systemAfter 2 aheadEvents).reactor.bufferedResponses[(2 : Int)]?.isSome ∧
    ((systemAfter 2 aheadEvents).reactor.bufferedResponses.size : Int) ≤ 2 := by
  have created : newHotIngestor Comet.plain (some .empty) plainOptions = .ok newPlain := rfl
  have built : newReactor (some newPlain) none (plainReactor 2).opts = .ok (plainReactor 2) := rfl
  have fits : AllAlong (System.step Comet.plain takeAll) (fun _ event => event.Int64) (plainSystem 2) aheadEvents := by
    simp [aheadEvents, AllAlong, SystemEvent.Int64, runAt]
  have idle : ∀ id, (systemAfter 2 aheadEvents).tasks id = none := by
    intro id
    rcases id with _ | _ | id
    · rfl
    · rfl
    · rfl
  obtain ⟨-, -, quiet⟩ := sync_window_bounded Comet.plain takeAll created built (Run.of_allAlong _ fits) (by decide)
  exact ⟨idle, by decide, (quiet idle).2.2⟩

-- an ingestor that starts at the last height there is
def lastIngestor : HotIngestor Unit := { newPlain with opts := { plainOptions with startHeight := maxInt64 } }

def lastReactor : Reactor Unit := { plainReactor 1 with ingestor := lastIngestor }

def lastEvents : List (SystemEvent Unit) :=
  -- peer `A` delivers the last block, which is submitted and not yet marked as done
  [.handle 0 (.addPeer "A"), runAt 0 0,
    .handle 1 (.receive "A" (.statusResponse maxInt64 maxInt64)), runAt 1 0, runAt 1 0, runAt 1 0, runAt 1 0,
    .handle 1 (.receive "A" (.blockResponse (some (.plain maxInt64 [] [1])))), runAt 1 0, runAt 1 0]

def lastSystem : System Unit := lastEvents.foldl (System.step Comet.plain takeAll) ⟨lastReactor, fun _ => none, []⟩

/-- After the last block the next height is the lowest one, far below what is still in flight. -/
theorem last_block_wraps_window :
    newHotIngestor Comet.plain (some .empty) lastIngestor.opts = .ok lastIngestor ∧
    newReactor (some lastIngestor) none lastReactor.opts = .ok lastReactor ∧
    Run (fun s event t => s.step Comet.plain takeAll event = t ∧ event.Int64) ⟨lastReactor, fun _ => none, []⟩ lastEvents
      lastSystem ∧
    lastSystem.reactor.ingestor.nextHeight = -2 ^ 63 ∧ lastSystem.reactor.planner.inflight[maxInt64]?.isSome ∧
    ¬ maxInt64 < lastSystem.reactor.ingestor.nextHeight + lastReactor.opts.requestLimit := by
  have fits : AllAlong (System.step Comet.plain takeAll) (fun _ event => event.Int64) ⟨lastReactor, fun _ => none, []⟩
      lastEvents := by
    simp [lastEvents, AllAlong, SystemEvent.Int64, runAt, maxInt64]
  exact ⟨rfl, rfl, Run.of_allAlong _ fits, by decide, by decide, by decide⟩

end CometArchive.Blocksync
