import CometArchive.Blocksync.Draining

set_option autoImplicit false

namespace CometArchive.Blocksync

open GoBytes Ingest Runs HotIngestor

variable {V : Type} {comet : Comet V} {choice : Choice V} {validMsg : Message → Bool}

def Task.unsent : Task → List Int
  -- the heights the task has yet to send a request for, or to take one back
  | .send requests _ => requests.map (·.height)
  | .requestFailed height requests _ => height :: requests.map (·.height)
  | _ => []

/-- The task is going to delete the inflight entry of the height, or may do so if its sends fail, whoever the
entry belongs to. A handler whose failed `Submit` makes it remove the peer itself is left out. -/
def Task.TakesBack (peer : PeerID) (height : Int) : Task → Prop
  | .submitted _ block => block.height = height
  | .submitFailed peerID block => block.height = height ∧ ¬ (peerID = peer ∧ peer ≠ "")
  | task => height ∈ task.unsent

structure Reactor.Awaits (r : Reactor V) (peer : PeerID) (height : Int) : Prop where
  inflight : r.planner.inflightPeer height = some peer
  ahead : r.ingestor.nextHeight ≤ height
  own : ∀ response : BufferedBlockResponse, r.bufferedResponses[height]? = some response → response.peerID = peer

/-- The step removes the peer, takes the height from its range, times its request out, reports that it
lacks the block, receives its block for the height, or submits a block for the height. -/
def Reactor.Disturbs (r : Reactor V) (peer : PeerID) (height : Int) (choice : Choice V) : Task → Prop
  | .removePeer peerID => peerID = peer
  | .disconnect peerID _ => peerID = peer
  | .undecodable peerID => peerID = peer
  | .blockResponse peerID block => peerID = peer ∧ block.height = height
  | .submit _ block => block.height = height
  | .submitFailed peerID _ => peerID = peer ∧ peer ≠ ""
  | .status peerID advertised => peerID = peer ∧ advertised.contains height = false ∧
      (r.planner.upsertPeer peerID advertised).2 = .ok ()
  | .noBlock peerID other => peerID = peer ∧ other = height
  | .expire => ∃ request, r.planner.inflight[height]? = some request ∧ 0 < r.opts.requestTimeout ∧
      r.opts.requestTimeout ≤ choice.now - request.requestedAt
  | _ => False

section Awaits

variable {p : RequestPlanner} {r : Reactor V} {peer : PeerID} {height : Int}

theorem inflightPeer_eq_some : p.inflightPeer height = some peer ↔
    ∃ request, p.inflight[height]? = some request ∧ request.peerID = peer :=
  Option.map_eq_some_iff

theorem markDone_inflightPeer {other : Int} (differ : other ≠ height) :
    (p.markDone other).inflightPeer height = p.inflightPeer height := by
  rw [RequestPlanner.inflightPeer, RequestPlanner.markDone, GoMap.get_erase, if_neg differ]
  rfl

theorem removePeer_inflightPeer {other : PeerID} (inflight : p.inflightPeer height = some peer) (differ : other ≠ peer) :
    (p.removePeer other).inflightPeer height = some peer := by
  obtain ⟨request, found, rfl⟩ := inflightPeer_eq_some.mp inflight
  refine inflightPeer_eq_some.mpr ⟨request, ?_, rfl⟩
  rw [RequestPlanner.removePeer, GoMap.get_deleteWhere_eq_some]
  exact ⟨found, by simpa using Ne.symm differ⟩

theorem inflightPeer_eq_none : p.inflightPeer height = none ↔ p.inflight[height]? = none := Option.map_eq_none_iff

theorem Reactor.Awaits.dropBuffered {drop : Int → BufferedBlockResponse → Bool} (awaits : r.Awaits peer height)
    (keeps : ∀ response : BufferedBlockResponse, response.peerID = peer → drop height response = false) :
    (r.dropBuffered drop).Awaits peer height := by
  refine ⟨?_, awaits.ahead, ?_⟩
  · apply dropBuffered_planner (·.inflightPeer height = some peer) awaits.inflight
    intro planner other response found dropped kept
    refine (markDone_inflightPeer ?_).trans kept
    rintro rfl
    rw [keeps response (awaits.own response found)] at dropped
    cases dropped
  · intro response found
    exact awaits.own response (dropBuffered_get.mp found).1

theorem Reactor.Awaits.dropBufferedResponsesFromPeer {other : PeerID} (awaits : r.Awaits peer height)
    (differ : other ≠ peer) : (r.dropBufferedResponsesFromPeer other).Awaits peer height := by
  apply awaits.dropBuffered
  rintro response rfl
  simpa using differ.symm

theorem Reactor.Awaits.removePeer {other : PeerID} (awaits : r.Awaits peer height) (differ : other ≠ peer) :
    (r.removePeer other).Awaits peer height := by
  unfold Reactor.removePeer
  refine Reactor.Awaits.dropBufferedResponsesFromPeer ?_ differ
  exact ⟨removePeer_inflightPeer awaits.inflight differ, awaits.ahead, awaits.own⟩

theorem Reactor.Awaits.markPeerBlockFailed {other : PeerID} (awaits : r.Awaits peer height) (differ : other ≠ peer) :
    (r.markPeerBlockFailed other).Awaits peer height := by
  unfold Reactor.markPeerBlockFailed
  refine Reactor.Awaits.dropBufferedResponsesFromPeer ?_ differ
  exact ⟨removePeer_inflightPeer awaits.inflight differ, awaits.ahead, awaits.own⟩

theorem Reactor.Awaits.finish {other : Int} (awaits : r.Awaits peer height) (differ : other ≠ height) :
    Reactor.Awaits { r with
      planner := r.planner.markDone other
      bufferedResponses := r.bufferedResponses.erase other } peer height := by
  refine ⟨(markDone_inflightPeer differ).trans awaits.inflight, awaits.ahead, ?_⟩
  intro response found
  rw [GoMap.get_erase, if_neg differ] at found
  exact awaits.own response found

theorem Reactor.Awaits.upsertStatus {peerID : PeerID} {advertised : PeerRange} (awaits : r.Awaits peer height)
    (within : peerID = peer → (r.planner.upsertPeer peerID advertised).2 = .ok () → advertised.contains height = true) :
    (r.upsertStatus peerID advertised).1.Awaits peer height := by
  have kept : (r.planner.upsertPeer peerID advertised).1.inflightPeer height = some peer := by
    cases ended : (r.planner.upsertPeer peerID advertised).2 with
    | error err =>
      rw [RequestPlanner.upsertPeer_error ended]
      exact awaits.inflight
    | ok =>
      obtain ⟨request, found, rfl⟩ := inflightPeer_eq_some.mp awaits.inflight
      refine inflightPeer_eq_some.mpr ⟨request, ?_, rfl⟩
      rw [(RequestPlanner.upsertPeer_ok ended).2.2.1, GoMap.get_deleteWhere_eq_some]
      refine ⟨found, ?_⟩
      by_cases same : request.peerID = peerID
      · simp [within same.symm ended]
      · simp [same]
  unfold Reactor.upsertStatus
  split
  next same =>
    rw [same] at kept
    exact ⟨kept, awaits.ahead, awaits.own⟩
  next same =>
    rw [same] at kept
    unfold Reactor.dropBufferedResponsesOutsideRange
    dsimp only
    refine Reactor.Awaits.dropBuffered ⟨kept, awaits.ahead, awaits.own⟩ ?_
    rintro response rfl
    by_cases told : peerID = response.peerID
    · simp [within told (congrArg Prod.snd same)]
    · simp [Ne.symm told]

theorem Reactor.Awaits.submit {peerID : PeerID} {block : Block} (awaits : r.Awaits peer height)
    (extending : Extending comet r.ingestor) (floor : -2 ^ 63 ≤ r.ingestor.nextHeight) (differ : block.height ≠ height) :
    (r.exec comet choice (.submit peerID block)).1.Awaits peer height := by
  have ahead := awaits.ahead
  simp only [Reactor.exec]
  rcases submit_moves extending choice.ask block with ⟨i', result, ended, here, -, moved⟩ | ⟨i', err, ended, still⟩
  · simp only [ended]
    refine ⟨awaits.inflight, ?_, awaits.own⟩
    rw [moved, succ64]
    -- past the last height the next one is the lowest
    split <;> omega
  · simp only [ended]
    exact ⟨awaits.inflight, still.trans_le ahead, awaits.own⟩

theorem Reactor.Awaits.respond {peerID : PeerID} {block : Block} (awaits : r.Awaits peer height)
    (calm : ¬ (peerID = peer ∧ block.height = height)) :
    (r.exec comet choice (.blockResponse peerID block)).1.Awaits peer height := by
  have responds := @exec_responds V comet r choice peerID block
  generalize (r.exec comet choice (.blockResponse peerID block)).1 = after at responds ⊢
  generalize (r.exec comet choice (.blockResponse peerID block)).2.1 = left at responds
  -- a response that is taken is for a height that its sender was asked for
  have other : r.planner.inflightPeer block.height = some peerID → block.height ≠ height := by
    intro inflight same
    rw [same, awaits.inflight] at inflight
    exact calm ⟨(Option.some.inj inflight).symm, same⟩
  cases responds with
  | unsolicited => exact awaits
  | late inflight below =>
    exact ⟨(markDone_inflightPeer (other inflight)).trans awaits.inflight, awaits.ahead, awaits.own⟩
  | submits => exact awaits
  | buffers inflight above =>
    refine ⟨?_, awaits.ahead, ?_⟩
    · refine Eq.trans ?_ ((markDone_inflightPeer (other inflight)).trans awaits.inflight)
      unfold RequestPlanner.markReceived
      dsimp only
      split <;> rfl
    · intro response found
      rw [GoMap.get_insert, if_neg (other inflight)] at found
      exact awaits.own response found

theorem Reactor.Awaits.exec {task : Task} (awaits : r.Awaits peer height) (extending : Extending comet r.ingestor)
    (floor : -2 ^ 63 ≤ r.ingestor.nextHeight) (calm : ¬ r.Disturbs peer height choice task)
    (apart : ¬ task.TakesBack peer height) :
    (r.exec comet choice task).1.Awaits peer height := by
  cases task with
  | addPeer peerID => exact ⟨awaits.inflight, awaits.ahead, awaits.own⟩
  | removePeer peerID => exact awaits.removePeer calm
  | blockRequest peerID other =>
    simp only [Reactor.exec]
    split <;> exact awaits
  | enqueueCold peerID other =>
    simp only [Reactor.exec]
    rcases r.enqueueColdBlockRequest_spec peerID other choice.now with ⟨same, -⟩ | ⟨-, budget, coldWork, same⟩
    · rw [same]
      exact awaits
    · rw [same]
      exact ⟨awaits.inflight, awaits.ahead, awaits.own⟩
  | undecodable peerID => exact awaits.markPeerBlockFailed calm
  | blockResponse peerID block => exact awaits.respond calm
  | submit peerID block => exact awaits.submit extending floor calm
  | submitFailed peerID block =>
    have finished := awaits.finish fun same => apart ⟨same, calm⟩
    simp only [Reactor.exec]
    split
    next named =>
      have differ : peerID ≠ peer := by
        rintro rfl
        exact calm ⟨rfl, named⟩
      have dropped := finished.markPeerBlockFailed differ
      exact ⟨dropped.inflight, dropped.ahead, dropped.own⟩
    next => exact ⟨finished.inflight, finished.ahead, finished.own⟩
  | submitted peerID block =>
    rw [exec_submitted_reactor]
    exact awaits.finish apart
  | status peerID advertised =>
    have within : peerID = peer → (r.planner.upsertPeer peerID advertised).2 = .ok () → advertised.contains height = true := by
      intro same ok
      by_contra outside
      exact calm ⟨same, by simpa using outside, ok⟩
    have after := awaits.upsertStatus within
    simp only [Reactor.exec]
    split
    next same =>
      rw [same] at after
      exact after
    next same =>
      rw [same] at after
      exact after
  | noBlock peerID other =>
    refine ⟨?_, awaits.ahead, awaits.own⟩
    simp only [Reactor.exec, RequestPlanner.markNoBlock]
    split
    · exact awaits.inflight
    · split
      · exact awaits.inflight
      next request found =>
        split
        · exact awaits.inflight
        next same =>
          refine (markDone_inflightPeer ?_).trans awaits.inflight
          rintro rfl
          have asked := inflightPeer_eq_some.mpr ⟨request, found, rfl⟩
          rw [awaits.inflight] at asked
          exact calm ⟨(not_not.mp same).symm.trans (Option.some.inj asked).symm, rfl⟩
  | expire =>
    refine ⟨?_, awaits.ahead, awaits.own⟩
    obtain ⟨request, found, rfl⟩ := inflightPeer_eq_some.mp awaits.inflight
    refine inflightPeer_eq_some.mpr ⟨request, ?_, rfl⟩
    refine (r.planner.expireInflight_spec choice.now r.opts.requestTimeout).2.2 height request found ?_
    intro timed
    by_contra late
    exact calm ⟨request, found, timed, by omega⟩
  | disconnect peerID thenPlan => exact awaits.removePeer calm
  | plan =>
    rw [exec_plan_reactor]
    refine ⟨?_, awaits.ahead, awaits.own⟩
    obtain ⟨request, found, rfl⟩ := inflightPeer_eq_some.mp awaits.inflight
    exact inflightPeer_eq_some.mpr ⟨request, (r.planner.planAt_new _ _ _).1 height request found, rfl⟩
  | send requests peers =>
    cases requests with
    | nil => exact awaits
    | cons request rest =>
      simp only [Reactor.exec]
      split <;> exact awaits
  | requestFailed other rest peers =>
    refine ⟨(markDone_inflightPeer ?_).trans awaits.inflight, awaits.ahead, awaits.own⟩
    rintro rfl
    exact apart List.mem_cons_self

theorem exec_unsent {task next : Task} (continues : (r.exec comet choice task).2.1 = some next) :
    next.unsent.Sublist task.unsent ∨
      next.unsent.Nodup ∧ ∀ other ∈ next.unsent, r.planner.inflight[other]? = none := by
  -- only a plan brings in requests to send, one for each height, and none for a height in flight
  cases task with
  | send requests peers =>
    left
    cases requests with
    | nil => cases continues
    | cons request rest =>
      simp only [Reactor.exec] at continues
      split at continues
      · cases continues
        exact List.sublist_cons_self _ _
      · cases continues
        exact List.Sublist.refl _
  | requestFailed other rest peers =>
    left
    cases continues
    exact List.sublist_cons_self _ _
  | plan =>
    simp only [Reactor.exec] at continues
    split at continues
    · cases continues
    next planner requests same =>
      cases continues
      obtain ⟨distinct, new⟩ := (r.planner.planAt_new _ _ _).2 requests (congrArg Prod.snd same)
      refine .inr ⟨distinct, ?_⟩
      intro other member
      obtain ⟨request, listed, rfl⟩ := List.mem_map.mp member
      exact new request listed
  | _ =>
    -- the other tasks go on to one with nothing to send
    right
    have none : next.unsent = [] := by
      simp only [Reactor.exec] at continues
      repeat' split at continues
      all_goals first | (cases continues; rfl) | cases continues
    simp [none]

theorem submit_of_settles {task next : Task} {peerID : PeerID} {block : Block}
    (continues : (r.exec comet choice task).2.1 = some next)
    (settles : next = .submitted peerID block ∨ next = .submitFailed peerID block) : task = .submit peerID block := by
  have ended : (r.exec comet choice task).2.1 = some (.submitted peerID block) ∨
      (r.exec comet choice task).2.1 = some (.submitFailed peerID block) := by
    rcases settles with rfl | rfl
    · exact .inl continues
    · exact .inr continues
  clear continues settles
  cases task with
  | submit other given =>
    simp only [Reactor.exec] at ended
    split at ended <;> simp_all
  | send requests peers =>
    cases requests with
    | nil => simp [Reactor.exec] at ended
    | cons request rest =>
      simp only [Reactor.exec] at ended
      split at ended <;> simp at ended
  | _ =>
    simp only [Reactor.exec] at ended
    repeat' split at ended
    all_goals simp at ended

theorem exec_takesBack {task next : Task} (continues : (r.exec comet choice task).2.1 = some next)
    (takes : next.TakesBack peer height) :
    task.TakesBack peer height ∨ r.planner.inflight[height]? = none ∨ r.Disturbs peer height choice task := by
  -- apart from a plan, which leaves out what is in flight, only a step on a block for the height begins to take
  -- its request back
  have unsent : height ∈ next.unsent → height ∈ task.unsent ∨ r.planner.inflight[height]? = none := by
    intro member
    rcases exec_unsent continues with fewer | ⟨-, new⟩
    · exact .inl (fewer.subset member)
    · exact .inr (new height member)
  have sends : height ∈ task.unsent → task.TakesBack peer height := by
    intro member
    cases task with
    | submitted peerID block => cases member
    | submitFailed peerID block => cases member
    | _ => exact member
  cases next with
  | submitted peerID block =>
    obtain rfl := submit_of_settles continues (.inl rfl)
    exact .inr (.inr takes)
  | submitFailed peerID block =>
    obtain rfl := submit_of_settles continues (.inr rfl)
    exact .inr (.inr takes.1)
  | _ => exact (unsent takes).imp sends .inl

end Awaits

variable {s : System V} {peer : PeerID} {height : Int}

theorem start_unsent {handler : Handler} {task : Task} (started : handler.start validMsg = some task) : task.unsent = [] := by
  cases handler with
  | receive sender message =>
    simp only [Handler.start, receiveTask] at started
    repeat' split at started
    all_goals first | (cases started; rfl) | cases started
  | _ =>
    cases started
    rfl

theorem start_takesBack {handler : Handler} {task : Task} (started : handler.start validMsg = some task) :
    ¬ task.TakesBack peer height := by
  cases handler with
  | receive sender message =>
    simp only [Handler.start, receiveTask] at started
    repeat' split at started
    all_goals first | (cases started; simp [Task.TakesBack, Task.unsent]) | cases started
  | _ =>
    cases started
    simp [Task.TakesBack, Task.unsent]

theorem step_unsent {event : SystemEvent V} {id : Nat} {task : Task}
    (present : (s.step comet validMsg event).tasks id = some task) :
    (∃ held, s.tasks id = some held ∧ task.unsent.Sublist held.unsent) ∨
      task.unsent.Nodup ∧ ∀ other ∈ task.unsent, s.reactor.planner.inflight[other]? = none := by
  rcases System.step_task present with running | ⟨handler, rfl, started⟩ | ⟨choice, held, rfl, found, continues⟩
  · exact .inl ⟨task, running, .refl _⟩
  · simp [start_unsent started]
  · rcases exec_unsent continues with fewer | new
    · exact .inl ⟨held, found, fewer⟩
    · exact .inr new

def System.Distinct (s : System V) : Prop := ∀ id task, s.tasks id = some task → task.unsent.Nodup

theorem System.Distinct.step (distinct : s.Distinct) (event : SystemEvent V) : (s.step comet validMsg event).Distinct := by
  intro id task present
  rcases step_unsent present with ⟨held, found, fewer⟩ | ⟨new, -⟩
  · exact fewer.nodup (distinct id held found)
  · exact new

def System.Roomy (s : System V) : Prop := ∃ bound, ∀ id, bound ≤ id → s.tasks id = none

theorem System.Roomy.update {id : Nat} {task : Option Task} (roomy : s.Roomy) :
    ∃ bound, ∀ other, bound ≤ other → Function.update s.tasks id task other = none := by
  obtain ⟨bound, free⟩ := roomy
  refine ⟨max bound (id + 1), ?_⟩
  intro other above
  rw [Function.update_of_ne (by omega)]
  exact free other (by omega)

theorem System.Roomy.step (roomy : s.Roomy) (event : SystemEvent V) : (s.step comet validMsg event).Roomy := by
  cases event with
  | handle id handler =>
    simp only [System.step]
    split
    · exact roomy
    · exact roomy.update
  | takeCold => exact roomy
  | run id choice =>
    simp only [System.step]
    split
    · exact roomy
    · exact roomy.update

def Disturbs (peer : PeerID) (height : Int) (s : System V) : SystemEvent V → Prop
  | .run id choice => ∃ task, s.tasks id = some task ∧ s.reactor.Disturbs peer height choice task
  | _ => False

def Undisturbed (comet : Comet V) (validMsg : Message → Bool) (peer : PeerID) (height : Int) (s : System V)
    (event : SystemEvent V) (t : System V) : Prop :=
  s.step comet validMsg event = t ∧ ¬ Disturbs peer height s event

structure System.Sole (comet : Comet V) (s : System V) (peer : PeerID) (height : Int) : Prop where
  -- the planner waits for the height from this peer, and no handler is going to take the request back
  draining : Draining comet s
  awaits : s.reactor.Awaits peer height
  apart : ∀ id task, s.tasks id = some task → ¬ task.TakesBack peer height

theorem System.Sole.step {event : SystemEvent V} (sole : s.Sole comet peer height) (calm : ¬ Disturbs peer height s event) :
    (s.step comet validMsg event).Sole comet peer height := by
  obtain ⟨request, inflight, -⟩ := inflightPeer_eq_some.mp sole.awaits.inflight
  refine ⟨sole.draining.step event, ?_, ?_⟩
  · cases event with
    | handle id handler =>
      simp only [System.step]
      split <;> exact sole.awaits
    | takeCold => exact ⟨sole.awaits.inflight, sole.awaits.ahead, sole.awaits.own⟩
    | run id choice =>
      cases found : s.tasks id with
      | none =>
        simp only [System.step, found]
        exact sole.awaits
      | some held =>
        rw [System.step_run found]
        have quiet : ¬ s.reactor.Disturbs peer height choice held := fun disturbs => calm ⟨held, found, disturbs⟩
        exact sole.awaits.exec sole.draining.extending sole.draining.floor quiet (sole.apart id held found)
  · intro id task present takes
    rcases System.step_task present with running | ⟨handler, rfl, started⟩ | ⟨choice, held, rfl, found, continues⟩
    · exact sole.apart id task running takes
    · exact start_takesBack started takes
    · rcases exec_takesBack continues takes with before | free | disturbs
      · exact sole.apart id held found before
      · rw [inflight] at free
        cases free
      · exact calm ⟨held, found, disturbs⟩

/-- At the send the planner still waits for the height from this peer, and no other handler is going to take
the request back. -/
def System.Uncontested (s : System V) (id : Nat) (peer : PeerID) (height : Int) : Prop :=
  s.reactor.Awaits peer height ∧ ∀ other task, other ≠ id → s.tasks other = some task → ¬ task.TakesBack peer height

def System.Takes (comet : Comet V) (s : System V) (peer : PeerID) (height : Int) : Prop :=
  -- the planner waits for the peer's block, which the critical section of `handleBlockResponse` would submit or
  -- buffer
  s.reactor.planner.inflightPeer height = some peer ∧
  ∀ (choice : Choice V) (block : Block), block.height = height →
    (s.reactor.exec comet choice (.blockResponse peer block)).2.1 = some (.submit peer block) ∨
    (s.reactor.exec comet choice (.blockResponse peer block)).1.bufferedResponses[height]? = some ⟨peer, block⟩

theorem System.Sole.of_send {id : Nat} {rest : List Request} {peers : GoMap.KeySet PeerID} {choice : Choice V}
    (draining : Draining comet s) (distinct : s.Distinct)
    (present : s.tasks id = some (.send (⟨peer, height⟩ :: rest) peers))
    (sent : (peers.contains peer && choice.sent) = true) (uncontested : s.Uncontested id peer height) :
    (s.step comet validMsg (.run id choice)).Sole comet peer height := by
  refine ⟨draining.step _, ?_, ?_⟩
  · rw [System.step_run present]
    simp only [Reactor.exec, if_pos sent]
    exact uncontested.1
  · intro other task running
    rw [System.step_run present] at running
    simp only [Reactor.exec, if_pos sent] at running
    by_cases same : other = id
    · subst same
      rw [Function.update_self] at running
      cases running
      exact (List.nodup_cons.mp (distinct other _ present)).1
    · rw [Function.update_of_ne same] at running
      exact uncontested.2 other task same running

theorem System.Sole.takes (sole : s.Sole comet peer height) : s.Takes comet peer height := by
  refine ⟨sole.awaits.inflight, ?_⟩
  rintro choice block rfl
  have responds := @exec_responds V comet s.reactor choice peer block
  have ahead := sole.awaits.ahead
  generalize (s.reactor.exec comet choice (.blockResponse peer block)).1 = after at responds ⊢
  generalize (s.reactor.exec comet choice (.blockResponse peer block)).2.1 = left at responds ⊢
  cases responds with
  | unsolicited other => exact absurd sole.awaits.inflight other
  | late inflight below => omega
  | buffers inflight above =>
    right
    simp
  | submits inflight next => exact .inl rfl

section Contested

def System.Loses (comet : Comet V) (validMsg : Message → Bool) (s : System V) (peer : PeerID) (height : Int) : Prop :=
  ∃ since last, Run (Undisturbed comet validMsg peer height) s since last ∧ last.reactor.planner.inflight[height]? = none

def failing : Choice V := { now := 0, sent := false, ask := fun _ => .missing }

theorem System.Loses.run {id : Nat} {task : Task} (present : s.tasks id = some task)
    (calm : ¬ s.reactor.Disturbs peer height failing task)
    (loses : (s.step comet validMsg (.run id failing)).Loses comet validMsg peer height) :
    s.Loses comet validMsg peer height := by
  obtain ⟨since, last, run, lost⟩ := loses
  refine ⟨_, last, .cons ⟨rfl, ?_⟩ run, lost⟩
  rintro ⟨task', present', disturbs⟩
  rw [present] at present'
  cases present'
  exact calm disturbs

theorem System.Loses.requestFailed {id : Nat} {failed : Int} {rest : List Request} {peers : GoMap.KeySet PeerID}
    (present : s.tasks id = some (.requestFailed failed rest peers)) (member : height ∈ failed :: rest.map (·.height)) :
    s.Loses comet validMsg peer height := by
  -- a handler takes its requests back one after the other, by their heights alone
  induction rest generalizing s failed with
  | nil =>
    obtain rfl := List.mem_singleton.mp member
    refine .run present (by simp [Reactor.Disturbs]) ⟨[], _, .refl, ?_⟩
    rw [System.step_run present]
    simp [Reactor.exec, RequestPlanner.markFailed]
  | cons request rest ih =>
    refine .run present (by simp [Reactor.Disturbs]) ?_
    by_cases same : failed = height
    · subst same
      refine ⟨[], _, .refl, ?_⟩
      rw [System.step_run present]
      simp [Reactor.exec, RequestPlanner.markFailed]
    · have sending : (s.step comet validMsg (.run id failing)).tasks id = some (.send (request :: rest) peers) := by
        rw [System.step_run present]
        exact Function.update_self ..
      refine .run sending (by simp [Reactor.Disturbs]) (ih ?_ ((List.mem_cons.mp member).resolve_left (Ne.symm same)))
      rw [System.step_run sending]
      simp [Reactor.exec, failing]

theorem System.Loses.of_takesBack {id : Nat} {task : Task} (present : s.tasks id = some task)
    (takes : task.TakesBack peer height) : s.Loses comet validMsg peer height := by
  cases task with
  | submitted peerID block =>
    obtain rfl := takes
    refine .run present (by simp [Reactor.Disturbs]) ⟨[], _, .refl, ?_⟩
    rw [System.step_run present, exec_submitted_reactor]
    simp [RequestPlanner.markDone]
  | submitFailed peerID block =>
    obtain ⟨rfl, other⟩ := takes
    refine .run present other ⟨[], _, .refl, ?_⟩
    rw [System.step_run present]
    exact (@exec_submitFailed_less V comet failing s.reactor peerID block).2.2
  | send requests peers =>
    cases requests with
    | nil => cases takes
    | cons request rest =>
      have failed : (s.step comet validMsg (.run id failing)).tasks id = some (.requestFailed request.height rest peers) := by
        rw [System.step_run present]
        simp [Reactor.exec, failing]
      exact .run present (by simp [Reactor.Disturbs]) (.requestFailed failed takes)
  | requestFailed failed rest peers => exact .requestFailed present takes
  | _ => cases takes

theorem System.Loses.of_buffered {response : BufferedBlockResponse} (roomy : s.Roomy)
    (found : s.reactor.bufferedResponses[height]? = some response) (other : response.peerID ≠ peer) :
    s.Loses comet validMsg peer height := by
  -- when another peer whose block is buffered goes, its response is marked as failed
  obtain ⟨id, free⟩ := roomy
  have idle := free id le_rfl
  have started : (s.step comet validMsg (.handle id (.removePeer response.peerID))).tasks id =
      some (.removePeer response.peerID) := by
    simp [System.step, idle, Handler.start]
  have same : (s.step comet validMsg (.handle id (.removePeer response.peerID))).reactor = s.reactor := by
    simp [System.step, idle]
  have loses : (s.step comet validMsg (.handle id (.removePeer response.peerID))).Loses comet validMsg peer height := by
    refine .run started other ⟨[], _, .refl, ?_⟩
    rw [System.step_run started, same]
    simp only [Reactor.exec, Reactor.removePeer, Reactor.dropBufferedResponsesFromPeer]
    refine (Reactor.dropBuffered_failed ?_ (beq_self_eq_true response.peerID)).1
    exact found
  obtain ⟨since, last, run, lost⟩ := loses
  exact ⟨.handle id (.removePeer response.peerID) :: since, last, .cons ⟨rfl, not_false⟩ run, lost⟩

theorem System.Takes.ahead (takes : s.Takes comet peer height) : s.reactor.ingestor.nextHeight ≤ height := by
  by_contra below
  have buffered : ∀ body, s.reactor.bufferedResponses[height]? = some ⟨peer, .plain height [] body⟩ := by
    intro body
    have responds := @exec_responds V comet s.reactor failing peer (.plain height [] body)
    have taken := takes.2 failing (.plain height [] body) rfl
    generalize (s.reactor.exec comet failing (.blockResponse peer (.plain height [] body))).1 = after at responds taken
    generalize (s.reactor.exec comet failing (.blockResponse peer (.plain height [] body))).2.1 = left at responds taken
    cases responds with
    | unsolicited other => exact absurd takes.1 other
    | late => simpa using taken
    | buffers _ above => exact absurd above.le below
    | submits _ next => exact absurd next.ge below
  have same := (buffered [0]).symm.trans (buffered [1])
  simp [Block.plain] at same

theorem System.Uncontested.of_takes {id : Nat} {rest : List Request} {peers : GoMap.KeySet PeerID} {choice : Choice V}
    (roomy : s.Roomy) (present : s.tasks id = some (.send (⟨peer, height⟩ :: rest) peers))
    (sent : (peers.contains peer && choice.sent) = true)
    (takes : ∀ since last, Run (Undisturbed comet validMsg peer height) (s.step comet validMsg (.run id choice)) since last →
      last.Takes comet peer height) : s.Uncontested id peer height := by
  have kept : ¬ (s.step comet validMsg (.run id choice)).Loses comet validMsg peer height := by
    rintro ⟨since, last, run, lost⟩
    have inflight := (takes since last run).1
    rw [inflightPeer_eq_none.mpr lost] at inflight
    cases inflight
  have now := takes [] _ .refl
  have same : (s.step comet validMsg (.run id choice)).reactor = s.reactor := by
    rw [System.step_run present]
    simp only [Reactor.exec, if_pos sent]
  refine ⟨⟨same ▸ now.1, same ▸ now.ahead, ?_⟩, ?_⟩
  · intro response found
    by_contra other
    exact kept (.of_buffered (roomy.step _) (same ▸ found) other)
  · intro other task differs running takesBack
    have still : (s.step comet validMsg (.run id choice)).tasks other = some task := by
      rw [System.step_run present]
      exact (Function.update_of_ne differs ..).trans running
    exact kept (.of_takesBack still takesBack)

end Contested

/-- The planner waits for a height until a step disturbs the request, and then takes the block that the peer
sends, exactly if the request was sent in a state without contest. -/
theorem outstanding_response_taken (comet : Comet V) (validMsg : Message → Bool) {store : BlockStore}
    {given : IngestOptions V} {ingestor : HotIngestor V} {opts : ReactorOptions} {reactor : Reactor V}
    {before : List (SystemEvent V)} {s : System V} {id : Nat} {rest : List Request}
    {peers : GoMap.KeySet PeerID} {choice : Choice V}
    (created : newHotIngestor comet (some store) given = .ok ingestor)
    (built : newReactor (some ingestor) none opts = .ok reactor)
    (planned : Run (fun s event t => s.step comet validMsg event = t) ⟨reactor, fun _ => none, []⟩ before s)
    (present : s.tasks id = some (.send (⟨peer, height⟩ :: rest) peers))
    (sent : (peers.contains peer && choice.sent) = true) :
    s.Uncontested id peer height ↔
    ∀ since last, Run (Undisturbed comet validMsg peer height) (s.step comet validMsg (.run id choice)) since last →
      last.Takes comet peer height := by
  have reached : Draining comet s ∧ s.Distinct ∧ s.Roomy := by
    refine planned.preserves (fun s => Draining comet s ∧ s.Distinct ∧ s.Roomy)
      ⟨Draining.start created built, ?_, 0, fun _ _ => rfl⟩ ?_
    · rintro id task ⟨⟩
    · rintro s event _ ⟨draining, distinct, roomy⟩ rfl
      exact ⟨draining.step event, distinct.step event, roomy.step event⟩
  obtain ⟨draining, distinct, roomy⟩ := reached
  constructor
  · intro uncontested since last undisturbed
    apply System.Sole.takes
    refine undisturbed.preserves (fun t => t.Sole comet peer height) (.of_send draining distinct present sent uncontested) ?_
    rintro t event _ sole ⟨rfl, calm⟩
    exact sole.step calm
  · exact .of_takes roomy present sent

def askedEvents : List (SystemEvent Unit) :=
  [.handle 0 (.addPeer "A"), runAt 0 0, .handle 1 (.receive "A" (.statusResponse 1 3)), runAt 1 0, runAt 1 0]

def joinedEvents : List (SystemEvent Unit) :=
  [.handle 0 (.addPeer "B"), runAt 0 0, .handle 0 (.receive "B" (.statusResponse 1 3)), runAt 0 0, runAt 0 0, runAt 0 0,
    .handle 0 (.receive "B" (.blockResponse (some (.plain 1 [] [2])))), runAt 0 0]

theorem outstanding_response_taken_plain :
    (systemAfter 1 (askedEvents ++ runAt 1 0 :: joinedEvents)).reactor.planner.inflightPeer 1 = some "A" ∧
    (((systemAfter 1 (askedEvents ++ runAt 1 0 :: joinedEvents)).reactor.exec Comet.plain ⟨0, true, noSource⟩
        (.blockResponse "A" (.plain 1 [] [1]))).2.1 = some (.submit "A" (.plain 1 [] [1])) ∨
      ((systemAfter 1 (askedEvents ++ runAt 1 0 :: joinedEvents)).reactor.exec Comet.plain ⟨0, true, noSource⟩
        (.blockResponse "A" (.plain 1 [] [1]))).1.bufferedResponses[(1 : Int)]? = some ⟨"A", .plain 1 [] [1]⟩) := by
  have created : newHotIngestor Comet.plain (some .empty) plainOptions = .ok newPlain := rfl
  have built : newReactor (some newPlain) none (plainReactor 1).opts = .ok (plainReactor 1) := rfl
  have run := Run.foldl (System.step Comet.plain takeAll) (plainSystem 1) askedEvents
  have present : (systemAfter 1 askedEvents).tasks 1 =
      some (.send [⟨"A", 1⟩] (systemAfter 1 askedEvents).reactor.peers) := rfl
  have sent : ((systemAfter 1 askedEvents).reactor.peers.contains "A" &&
      (Choice.mk 0 true noSource : Choice Unit).sent) = true := by
    decide
  have uncontested : (systemAfter 1 askedEvents).Uncontested 1 "A" 1 := by
    refine ⟨⟨by decide, by decide, by decide⟩, ?_⟩
    intro other task differs running
    rcases other with _ | _ | other
    · cases running
    · exact absurd rfl differs
    · cases running
  have undisturbed : AllAlong (System.step Comet.plain takeAll) (fun s event => ¬ Disturbs "A" 1 s event)
      ((systemAfter 1 askedEvents).step Comet.plain takeAll (runAt 1 0)) joinedEvents := by
    refine ⟨not_false, ?_, not_false, ?_, ?_, ?_, not_false, ?_, trivial⟩
    · rintro ⟨task, ⟨⟩, ⟨⟩⟩
    · rintro ⟨task, ⟨⟩, told, -⟩
      exact absurd told (by decide)
    · rintro ⟨task, ⟨⟩, ⟨⟩⟩
    · rintro ⟨task, ⟨⟩, ⟨⟩⟩
    · rintro ⟨task, ⟨⟩, told, -⟩
      exact absurd told (by decide)
  have taken := (outstanding_response_taken Comet.plain takeAll created built run present sent).mp uncontested _ _
    (Run.of_allAlong _ undisturbed)
  rw [systemAfter, List.foldl_append]
  exact ⟨taken.1, taken.2 ⟨0, true, noSource⟩ (.plain 1 [] [1]) rfl⟩

def replannedEvents : List (SystemEvent Unit) :=
  -- block 1 is planned for peer `A`, which goes before it is asked; then it is planned for peer `B`
  [.handle 0 (.addPeer "A"), runAt 0 0, .handle 0 (.addPeer "B"), runAt 0 0,
    .handle 1 (.receive "A" (.statusResponse 1 1)), runAt 1 0, runAt 1 0,
    .handle 0 (.removePeer "A"), runAt 0 0,
    .handle 2 (.receive "B" (.statusResponse 1 1)), runAt 2 0, runAt 2 0, runAt 2 0]

def failedSend : SystemEvent Unit := .run 1 { now := 0, sent := false, ask := noSource }

theorem failed_send_cancels_request :
    (systemAfter 1 replannedEvents).requested = [⟨"B", 1⟩] ∧
    (systemAfter 1 replannedEvents).reactor.planner.inflightPeer 1 = some "B" ∧
    Run (Undisturbed Comet.plain takeAll "B" 1) (systemAfter 1 replannedEvents) [failedSend, failedSend]
      (systemAfter 1 (replannedEvents ++ [failedSend, failedSend])) ∧
    (systemAfter 1 (replannedEvents ++ [failedSend, failedSend])).reactor.planner.inflightPeer 1 = none ∧
    ((systemAfter 1 (replannedEvents ++ [failedSend, failedSend])).reactor.exec Comet.plain ⟨0, true, noSource⟩
      (.blockResponse "B" (.plain 1 [] [1]))).2.1 = none ∧
    ((systemAfter 1 (replannedEvents ++ [failedSend, failedSend])).reactor.exec Comet.plain ⟨0, true, noSource⟩
      (.blockResponse "B" (.plain 1 [] [1]))).1.bufferedResponses[(1 : Int)]? = none := by
  -- the send to peer `A` fails after peer `B` was asked, and the block that `B` then sends is dropped
  refine ⟨by decide, by decide, .cons ⟨rfl, ?_⟩ (.cons ⟨rfl, ?_⟩ .refl), by decide, by decide, by decide⟩
  · rintro ⟨task, ⟨⟩, ⟨⟩⟩
  · rintro ⟨task, ⟨⟩, ⟨⟩⟩

end CometArchive.Blocksync
