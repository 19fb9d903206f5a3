import CometArchive.Blocksync.PlannerRuns
import CometArchive.Blocksync.Reactor

set_option autoImplicit false

namespace CometArchive.Blocksync

open Ingest Runs

structure RequestPlanner.Forgets (p : RequestPlanner) (id : PeerID) : Prop where
  peers : p.peers[id]? = none
  noBlocks : p.noBlocks[id]? = none
  timeouts : p.timeouts[id]? = none
  inflight : ∀ (height : Int) (request : InflightRequest), p.inflight[height]? = some request → request.peerID ≠ id

namespace RequestPlanner

variable {p : RequestPlanner} {id : PeerID}

theorem removePeer_forgets (p : RequestPlanner) (id : PeerID) : (p.removePeer id).Forgets id := by
  refine ⟨?_, ?_, ?_, ?_⟩
  · simp [removePeer]
  · simp [removePeer]
  · simp [removePeer]
  · intro height request found
    rw [removePeer, GoMap.get_deleteWhere_eq_some] at found
    simpa using found.2

theorem Forgets.removePeer (forgets : p.Forgets id) (other : PeerID) : (p.removePeer other).Forgets id := by
  refine ⟨?_, ?_, ?_, ?_⟩
  · simp [RequestPlanner.removePeer, GoMap.get_erase, forgets.peers]
  · simp [RequestPlanner.removePeer, GoMap.get_erase, forgets.noBlocks]
  · simp [RequestPlanner.removePeer, GoMap.get_erase, forgets.timeouts]
  · intro height request found
    rw [RequestPlanner.removePeer, GoMap.get_deleteWhere_eq_some] at found
    exact forgets.inflight height request found.1

theorem Forgets.of_inflight_subset {q : RequestPlanner} (forgets : p.Forgets id) (peers : q.peers = p.peers)
    (noBlocks : q.noBlocks = p.noBlocks) (timeouts : q.timeouts = p.timeouts)
    (subset : ∀ (height : Int) (request : InflightRequest), q.inflight[height]? = some request → p.inflight[height]? = some request) :
    q.Forgets id := by
  refine ⟨?_, ?_, ?_, ?_⟩
  · rw [peers, forgets.peers]
  · rw [noBlocks, forgets.noBlocks]
  · rw [timeouts, forgets.timeouts]
  · intro height request found
    exact forgets.inflight height request (subset height request found)

theorem get_of_get_erase {m : GoMap.Map Int InflightRequest} {gone height : Int} {request : InflightRequest}
    (found : (m.erase gone)[height]? = some request) : m[height]? = some request := by
  rw [GoMap.get_erase] at found
  split at found
  · cases found
  · exact found

theorem Forgets.markDone (forgets : p.Forgets id) (height : Int) : (p.markDone height).Forgets id :=
  forgets.of_inflight_subset rfl rfl rfl fun _ _ => get_of_get_erase

theorem Forgets.markFailed (forgets : p.Forgets id) (height : Int) : (p.markFailed height).Forgets id :=
  forgets.of_inflight_subset rfl rfl rfl fun _ _ => get_of_get_erase

theorem Forgets.markReceived (forgets : p.Forgets id) (height : Int) : (p.markReceived height).Forgets id := by
  unfold RequestPlanner.markReceived
  split
  · exact forgets.of_inflight_subset rfl rfl rfl fun _ _ => get_of_get_erase
  · exact forgets.of_inflight_subset rfl rfl rfl fun _ _ => get_of_get_erase

theorem get_addHeight_of_ne {m : GoMap.Map PeerID (GoMap.KeySet Int)} {other : PeerID} (height : Int)
    (differ : other ≠ id) : (addHeight m other height)[id]? = m[id]? := by
  rw [addHeight, GoMap.get_insert, if_neg differ]

theorem Forgets.markNoBlock (forgets : p.Forgets id) (other : PeerID) (height : Int) :
    (p.markNoBlock other height).Forgets id := by
  unfold RequestPlanner.markNoBlock
  split
  · exact forgets
  · split
    · exact forgets
    next request found =>
      split
      · exact forgets
      next same =>
        -- the request was inflight to `other`, so `other` is not the forgotten peer
        have differ : other ≠ id := by
          rw [← not_not.mp same]
          exact forgets.inflight height request found
        refine ⟨forgets.peers, ?_, forgets.timeouts, ?_⟩
        · rw [get_addHeight_of_ne height differ, forgets.noBlocks]
        · intro h r present
          exact forgets.inflight h r (get_of_get_erase present)

theorem Forgets.expireOne {acc : RequestPlanner × Nat} {now timeout : Int} {entry : Int × InflightRequest}
    (forgets : acc.1.Forgets id) (differ : entry.2.peerID ≠ id) :
    (RequestPlanner.expireOne now timeout acc entry).1.Forgets id := by
  unfold RequestPlanner.expireOne
  split
  · exact forgets
  · refine ⟨forgets.peers, forgets.noBlocks, ?_, ?_⟩
    · rw [get_addHeight_of_ne entry.1 differ, forgets.timeouts]
    · intro h r present
      exact forgets.inflight h r (get_of_get_erase present)

theorem Forgets.expireInflight (forgets : p.Forgets id) (now timeout : Int) :
    (p.expireInflight now timeout).1.Forgets id := by
  unfold RequestPlanner.expireInflight
  split
  · exact forgets
  · have others : ∀ entry ∈ p.inflight.toList, entry.2.peerID ≠ id := by
      intro entry member
      exact forgets.inflight entry.1 entry.2 (Std.ExtTreeMap.mem_toList_iff_getElem?_eq_some.mp member)
    generalize p.inflight.toList = entries at others
    have loop : ∀ acc : RequestPlanner × Nat, acc.1.Forgets id →
        (entries.foldl (RequestPlanner.expireOne now timeout) acc).1.Forgets id := by
      induction entries with
      | nil =>
        intro acc kept
        exact kept
      | cons entry rest ih =>
        intro acc kept
        rw [List.foldl_cons]
        exact ih (fun e member => others e (List.mem_cons_of_mem _ member)) _
          (kept.expireOne (others entry (by simp)))
    exact loop (p, 0) forgets

theorem get_pruneHeights_none {m : GoMap.Map PeerID (GoMap.KeySet Int)} (below : Int) (absent : m[id]? = none) :
    (pruneHeights m below)[id]? = none := by
  rw [pruneHeights, GoMap.get_updateWhere, absent]
  rfl

theorem Forgets.pruneMarkersBelow (forgets : p.Forgets id) (height : Int) :
    (p.pruneMarkersBelow height).Forgets id :=
  ⟨forgets.peers, get_pruneHeights_none height forgets.noBlocks, get_pruneHeights_none height forgets.timeouts,
    forgets.inflight⟩

theorem Forgets.peerForHeight (forgets : p.Forgets id) (height : Int) : p.peerForHeight height ≠ some id := by
  intro chosen
  obtain ⟨range, found, -⟩ := peerForHeight_spec chosen
  rw [forgets.peers] at found
  cases found

theorem Forgets.planLoop (best windowEnd limit now : Int) (fuel : Nat) (height : Int) (requests : List Request)
    (forgets : p.Forgets id) :
    (RequestPlanner.planLoop best windowEnd limit now fuel height p requests).1.Forgets id := by
  induction fuel generalizing height p requests with
  | zero => exact forgets
  | succ fuel ih =>
    unfold RequestPlanner.planLoop
    split
    · exact forgets
    · split
      · exact ih _ _ forgets
      · split
        · split
          · exact forgets
          · exact forgets
        next peer chosen =>
          apply ih
          refine ⟨forgets.peers, forgets.noBlocks, forgets.timeouts, ?_⟩
          intro h request found
          rw [GoMap.get_insert] at found
          split at found
          · cases found
            intro same
            exact forgets.peerForHeight height (same ▸ chosen)
          · exact forgets.inflight h request found

theorem Forgets.planAt (forgets : p.Forgets id) (nextHeight limit now : Int) :
    (p.planAt nextHeight limit now).1.Forgets id := by
  have pruned := forgets.pruneMarkersBelow nextHeight
  unfold RequestPlanner.planAt
  split
  · exact forgets
  · dsimp only
    split
    · exact pruned
    · split
      · exact pruned
      · split
        · exact pruned
        · split
          · exact pruned
          · exact pruned.planLoop ..

theorem Forgets.upsertPeer {other : PeerID} {advertised : PeerRange} (forgets : p.Forgets id)
    (known : other = id → other = "" ∨ ∀ u, advertised.validate ≠ .ok u) :
    (p.upsertPeer other advertised).1.Forgets id := by
  unfold RequestPlanner.upsertPeer
  split
  · exact forgets
  next named =>
    split
    · exact forgets
    next valid =>
      have differ : other ≠ id := by
        intro same
        rcases known same with empty | invalid
        · exact named empty
        · exact invalid _ valid
      have replaced {kept : RequestPlanner} (cleared : kept.Forgets id) :
          RequestPlanner.Forgets { kept with
            peers := kept.peers.insert other advertised
            inflight := GoMap.deleteWhere kept.inflight fun height request =>
              request.peerID == other && !advertised.contains height } id := by
        refine ⟨?_, cleared.noBlocks, cleared.timeouts, ?_⟩
        · rw [GoMap.get_insert, if_neg differ]
          exact cleared.peers
        · intro height request found
          rw [GoMap.get_deleteWhere_eq_some] at found
          exact cleared.inflight height request found.1
      -- the branch on the previous range only deletes entries of `other`
      apply replaced
      split
      · split
        · exact ⟨forgets.peers, by simp [GoMap.get_erase, forgets.noBlocks],
            by simp [GoMap.get_erase, forgets.timeouts], forgets.inflight⟩
        · exact forgets
      · exact forgets

end RequestPlanner

variable {V : Type} {comet : Comet V}

structure Reactor.NoState (r : Reactor V) (id : PeerID) : Prop where
  peers : id ∉ r.peers
  coldBudgets : r.coldBudgets[id]?.isNone
  planner : r.planner.Forgets id
  buffered : ∀ (height : Int) (response : BufferedBlockResponse),
    r.bufferedResponses[height]? = some response → response.peerID ≠ id

namespace Reactor

variable {r : Reactor V} {id : PeerID}

theorem dropBuffered_forgets (drop : Int → BufferedBlockResponse → Bool) (forgets : r.planner.Forgets id) :
    (r.dropBuffered drop).planner.Forgets id :=
  dropBuffered_planner (·.Forgets id) forgets fun _ height _ _ _ kept => kept.markFailed height

theorem NoState.dropBuffered (noState : r.NoState id) (drop : Int → BufferedBlockResponse → Bool) :
    (r.dropBuffered drop).NoState id := by
  refine ⟨noState.peers, noState.coldBudgets, dropBuffered_forgets drop noState.planner, ?_⟩
  intro height response found
  exact noState.buffered height response (dropBuffered_get.mp found).1

theorem removePeer_noState (r : Reactor V) (id : PeerID) : (r.removePeer id).NoState id := by
  refine ⟨?_, ?_, ?_, ?_⟩
  · simp [removePeer, dropBufferedResponsesFromPeer, dropBuffered]
  · simp [removePeer, dropBufferedResponsesFromPeer, dropBuffered]
  · unfold removePeer dropBufferedResponsesFromPeer
    apply dropBuffered_forgets
    exact r.planner.removePeer_forgets id
  · intro height response found
    rw [removePeer, dropBufferedResponsesFromPeer, dropBuffered, GoMap.get_deleteWhere_eq_some] at found
    simpa using found.2

theorem NoState.removePeer (noState : r.NoState id) (other : PeerID) : (r.removePeer other).NoState id := by
  unfold Reactor.removePeer dropBufferedResponsesFromPeer
  apply NoState.dropBuffered
  refine ⟨?_, ?_, noState.planner.removePeer other, noState.buffered⟩
  · intro member
    exact noState.peers ((GoMap.mem_erase ..).mp member).2
  · have absent := noState.coldBudgets
    simp only [GoMap.get_erase]
    split
    · rfl
    · exact absent

theorem NoState.markPeerBlockFailed (noState : r.NoState id) (other : PeerID) :
    (r.markPeerBlockFailed other).NoState id := by
  unfold Reactor.markPeerBlockFailed dropBufferedResponsesFromPeer
  apply NoState.dropBuffered
  exact ⟨noState.peers, noState.coldBudgets, noState.planner.removePeer other, noState.buffered⟩

theorem NoState.withPlanner {planner : RequestPlanner} (noState : r.NoState id) (forgets : planner.Forgets id) :
    { r with planner }.NoState id :=
  ⟨noState.peers, noState.coldBudgets, forgets, noState.buffered⟩

theorem NoState.eraseBuffered (noState : r.NoState id) (height : Int) :
    { r with bufferedResponses := r.bufferedResponses.erase height }.NoState id := by
  refine ⟨noState.peers, noState.coldBudgets, noState.planner, ?_⟩
  intro h response found
  rw [GoMap.get_erase] at found
  split at found
  · cases found
  · exact noState.buffered h response found

theorem NoState.erasePeer (noState : r.NoState id) (other : PeerID) :
    { r with peers := r.peers.erase other }.NoState id := by
  refine ⟨?_, noState.coldBudgets, noState.planner, noState.buffered⟩
  intro member
  exact noState.peers ((GoMap.mem_erase ..).mp member).2

/-- The peer a task is about to make an entry for without having looked it up. -/
def introduces (r : Reactor V) : Task → Option PeerID
  | .status peerID advertised =>
    match advertised.validate with
    | .ok () => if peerID = "" then none else some peerID
    | .error _ => none
  | .enqueueCold peerID _ =>
    if r.coldBudgets[peerID]?.isSome || r.coldBudgets.size < maxColdPeerBudgets then some peerID else none
  | _ => none

theorem NoState.enqueueCold {other : PeerID} {height now : Int} (noState : r.NoState id)
    (known : r.introduces (.enqueueCold other height) ≠ some id) :
    (r.enqueueColdBlockRequest other height now).NoState id := by
  have absent := noState.coldBudgets
  rcases r.enqueueColdBlockRequest_spec other height now with ⟨same, -⟩ | ⟨room, budget, coldWork, same⟩
  · rw [same]
    exact noState
  · have differ : other ≠ id := by
      intro equal
      apply known
      rw [introduces, if_pos (by simpa using room), equal]
    rw [same]
    refine ⟨noState.peers, ?_, noState.planner, noState.buffered⟩
    simp only [GoMap.get_insert, if_neg differ]
    exact absent

theorem NoState.upsertStatus {other : PeerID} {advertised : PeerRange} (noState : r.NoState id)
    (known : r.introduces (.status other advertised) ≠ some id) :
    (r.upsertStatus other advertised).1.NoState id := by
  have forgets : (r.planner.upsertPeer other advertised).1.Forgets id := by
    apply noState.planner.upsertPeer
    rintro rfl
    by_cases named : other = ""
    · exact .inl named
    · refine .inr fun u valid => known ?_
      simp [introduces, valid, named]
  unfold Reactor.upsertStatus
  split
  next called =>
    rw [called] at forgets
    exact noState.withPlanner forgets
  next called =>
    rw [called] at forgets
    dsimp only [dropBufferedResponsesOutsideRange]
    apply NoState.dropBuffered
    exact noState.withPlanner forgets

theorem NoState.exec {choice : Choice V} {task : Task} (noState : r.NoState id)
    (added : task ≠ .addPeer id) (known : r.introduces task ≠ some id) :
    (r.exec comet choice task).1.NoState id := by
  cases task with
  | addPeer other =>
    refine ⟨?_, noState.coldBudgets, noState.planner, noState.buffered⟩
    intro member
    rcases (GoMap.mem_insert ..).mp member with same | old
    · exact added (by rw [same])
    · exact noState.peers old
  | removePeer other => exact noState.removePeer other
  | blockRequest other height =>
    simp only [Reactor.exec]
    split <;> exact noState
  | enqueueCold other height => exact noState.enqueueCold known
  | undecodable other => exact noState.markPeerBlockFailed other
  | blockResponse other block =>
    simp only [Reactor.exec]
    split
    · exact noState
    next asked =>
      split
      · exact noState.withPlanner (noState.planner.markDone block.height)
      · split
        · refine ⟨noState.peers, noState.coldBudgets, noState.planner.markReceived block.height, ?_⟩
          intro height response found
          rw [GoMap.get_insert] at found
          split at found
          · -- the buffered response came from the peer the request is inflight to
            cases found
            obtain ⟨request, present, same⟩ := Option.map_eq_some_iff.mp (not_not.mp asked)
            dsimp only
            rw [← same]
            exact noState.planner.inflight _ request present
          · exact noState.buffered height response found
        · exact noState
  | submit other block =>
    simp only [Reactor.exec]
    split <;> exact ⟨noState.peers, noState.coldBudgets, noState.planner, noState.buffered⟩
  | submitFailed other block =>
    have failed := (noState.withPlanner (noState.planner.markFailed block.height)).eraseBuffered block.height
    simp only [Reactor.exec]
    split
    · exact (failed.markPeerBlockFailed other).erasePeer other
    · exact failed.erasePeer other
  | submitted other block =>
    have done := (noState.withPlanner (noState.planner.markDone block.height)).eraseBuffered block.height
    simp only [Reactor.exec]
    split <;> exact done
  | status other advertised =>
    have kept := noState.upsertStatus known
    simp only [Reactor.exec]
    split
    next called => rwa [called] at kept
    next called => rwa [called] at kept
  | noBlock other height => exact noState.withPlanner (noState.planner.markNoBlock other height)
  | expire => exact noState.withPlanner (noState.planner.expireInflight ..)
  | disconnect other thenPlan => exact noState.removePeer other
  | plan =>
    have planned := noState.planner.planAt r.ingestor.nextHeight r.opts.requestLimit choice.now
    simp only [Reactor.exec]
    split
    next called =>
      rw [called] at planned
      exact noState.withPlanner planned
    next called =>
      rw [called] at planned
      exact noState.withPlanner planned
  | send requests peers =>
    cases requests with
    | nil => exact noState
    | cons request rest =>
      simp only [Reactor.exec]
      split <;> exact noState
  | requestFailed height rest peers => exact noState.withPlanner (noState.planner.markFailed height)

theorem exec_introduces {choice : Choice V} {task : Task} (unasked : r.introduces task = some id)
    (absent : id ∉ r.peers) :
    ¬ (r.exec comet choice task).1.NoState id ∧ id ∉ (r.exec comet choice task).1.peers := by
  -- a task that makes an entry unasked leaves state behind for its peer
  cases task with
  | status other advertised =>
    simp only [introduces] at unasked
    split at unasked
    next valid =>
      split at unasked
      · cases unasked
      next named =>
        cases unasked
        have called : ∃ planner, r.planner.upsertPeer id advertised = (planner, .ok ()) ∧
            planner.peers[id]? = some advertised := by
          simp only [RequestPlanner.upsertPeer, named, if_false, valid]
          exact ⟨_, rfl, by rw [GoMap.get_insert, if_pos rfl]⟩
        obtain ⟨planner, called, found⟩ := called
        simp only [Reactor.exec, Reactor.upsertStatus, called]
        refine ⟨fun noState => ?_, absent⟩
        have forgotten := noState.planner.peers
        rw [dropBufferedResponsesOutsideRange, dropBuffered_peers, found] at forgotten
        cases forgotten
    · cases unasked
  | enqueueCold other height =>
    simp only [introduces] at unasked
    split at unasked
    next room =>
      cases unasked
      have left : ∃ budget coldWork, r.enqueueColdBlockRequest id height choice.now =
          { r with coldBudgets := r.coldBudgets.insert id budget, coldWork } := by
        rcases r.enqueueColdBlockRequest_spec id height choice.now with ⟨-, missing, full⟩ | ⟨-, left⟩
        · have none : r.coldBudgets[id]? = none := by simpa using missing
          simp [none] at room
          omega
        · exact left
      obtain ⟨budget, coldWork, same⟩ := left
      simp only [Reactor.exec, same]
      refine ⟨fun noState => ?_, absent⟩
      have forgotten := noState.coldBudgets
      simp at forgotten
    · cases unasked
  | _ => cases unasked

end Reactor

section Run

variable {validMsg : Message → Bool}

def KnownSender (peer : PeerID) (s : System V) : SystemEvent V → Prop
  -- a step makes an entry for the peer only while it is in `r.peers`
  | .run id _ => ∀ task, s.tasks id = some task → s.reactor.introduces task = some peer → peer ∈ s.reactor.peers
  | _ => True

def Readds (peer : PeerID) (s : System V) : SystemEvent V → Prop
  | .run id _ => s.tasks id = some (.addPeer peer)
  | _ => False

def Removing (peer : PeerID) (task : Task) : Prop :=
  task = .removePeer peer ∨ ∃ thenPlan, task = .disconnect peer thenPlan

theorem step_noState {s : System V} {event : SystemEvent V} {peer : PeerID} (noState : s.reactor.NoState peer)
    (known : KnownSender peer s event) (away : ¬ Readds peer s event) :
    (s.step comet validMsg event).reactor.NoState peer := by
  cases event with
  | handle id handler =>
    simp only [System.step]
    split <;> exact noState
  | takeCold => exact ⟨noState.peers, noState.coldBudgets, noState.planner, noState.buffered⟩
  | run id choice =>
    cases present : s.tasks id with
    | none =>
      simp only [System.step, present]
      exact noState
    | some task =>
      rw [System.step_run present]
      apply noState.exec
      · rintro rfl
        exact away present
      · intro unasked
        exact noState.peers (known task present unasked)

/-- Once `RemovePeer` is handled, and as long as the peer is not added again and no entry is made for it
while it is not in `r.peers`, the reactor holds no state for it and the planner never selects it. A step that
makes an entry for a peer outside `r.peers` does leave state for it. -/
theorem no_ghost_peers (comet : Comet V) (validMsg : Message → Bool) :
    (∀ (s : System V) (id : Nat) (choice : Choice V) (task : Task) (peer : PeerID),
      s.tasks id = some task → Removing peer task →
      ∀ events last,
        Run (fun s event t => s.step comet validMsg event = t ∧ KnownSender peer s event ∧ ¬ Readds peer s event)
          (s.step comet validMsg (.run id choice)) events last →
        last.reactor.NoState peer ∧ ∀ height, last.reactor.planner.peerForHeight height ≠ some peer) ∧
    ∀ (s : System V) (id : Nat) (choice : Choice V) (peer : PeerID), ¬ KnownSender peer s (.run id choice) →
      ¬ (s.step comet validMsg (.run id choice)).reactor.NoState peer ∧
        peer ∉ (s.step comet validMsg (.run id choice)).reactor.peers := by
  constructor
  · intro s id choice task peer present removing events last run
    have cleared : (s.step comet validMsg (.run id choice)).reactor.NoState peer := by
      rw [System.step_run present]
      rcases removing with rfl | ⟨thenPlan, rfl⟩
      · exact s.reactor.removePeer_noState peer
      · exact s.reactor.removePeer_noState peer
    have noState : last.reactor.NoState peer := by
      refine run.preserves (fun t => t.reactor.NoState peer) cleared ?_
      rintro t event _ kept ⟨rfl, known, away⟩
      exact step_noState kept known away
    exact ⟨noState, noState.planner.peerForHeight⟩
  · intro s id choice peer unknown
    simp only [KnownSender, not_forall] at unknown
    obtain ⟨task, present, unasked, absent⟩ := unknown
    rw [System.step_run present]
    exact Reactor.exec_introduces unasked absent

end Run

def partingEvents : List (SystemEvent Unit) :=
  -- peer `p` is asked for block 1, and is removed while its block is in flight
  [.handle 0 (.addPeer "p"), runAt 0 0, .handle 0 (.receive "p" (.statusResponse 1 5)), runAt 0 0, runAt 0 0, runAt 0 0,
    runAt 0 0, .handle 1 (.receive "p" (.blockResponse (some (.plain 1 [] [1])))), .handle 0 (.removePeer "p")]

theorem no_ghost_peers_plain :
    (systemAfter 1 partingEvents).reactor.planner.inflightPeer 1 = some "p" ∧
    (systemAfter 1 (partingEvents ++ runAt 0 0 ::
      [runAt 1 0, .handle 0 (.receive "q" (.statusResponse 1 5)), runAt 0 0])).reactor.NoState "p" := by
  have removing : (systemAfter 1 partingEvents).tasks 0 = some (.removePeer "p") := rfl
  refine ⟨by decide, ?_⟩
  rw [systemAfter, List.foldl_append]
  refine ((no_ghost_peers Comet.plain takeAll).1 (systemAfter 1 partingEvents) 0 ⟨0, true, noSource⟩ _ "p" removing
    (.inl rfl) [runAt 1 0, .handle 0 (.receive "q" (.statusResponse 1 5)), runAt 0 0] _ ?_).1
  refine .cons ⟨rfl, ?_, ?_⟩ (.cons ⟨rfl, trivial, id⟩ (.cons ⟨rfl, ?_, ?_⟩ .refl))
  · rintro task ⟨⟩ ⟨⟩
  · rintro ⟨⟩
  · rintro task ⟨⟩ other
    exact absurd (Option.some.inj other) (by decide)
  · rintro ⟨⟩

def ghostEvents : List (SystemEvent Unit) :=
  -- the removed peer's status response is handled last: the planner then holds it and selects it, and every
  -- request to it fails
  [.handle 0 (.addPeer "p"), runAt 0 0, .handle 1 (.receive "p" (.statusResponse 1 5)),
    .handle 0 (.removePeer "p"), runAt 0 0, runAt 1 0, runAt 1 0, runAt 1 0, runAt 1 0, runAt 1 0]

theorem late_status_leaves_ghost :
    (systemAfter 1 ghostEvents).tasks 0 = none ∧ (systemAfter 1 ghostEvents).tasks 1 = none ∧
    "p" ∉ (systemAfter 1 ghostEvents).reactor.peers ∧
    (systemAfter 1 ghostEvents).reactor.planner.peers["p"]? = some ⟨1, 5⟩ ∧
    (systemAfter 1 ghostEvents).reactor.planner.peerForHeight 1 = some "p" := by
  refine ⟨rfl, rfl, ?_, ?_, ?_⟩
  · decide
  · decide
  · decide

end CometArchive.Blocksync
