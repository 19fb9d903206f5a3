import CometArchive.Blocksync.IngestChain
import CometArchive.Blocksync.Planner

set_option autoImplicit false

/-!
# The archive reactor

Every handler of `reactor.go` is a task that advances one step at a time: a step is one critical
section of `r.mu`, one call of the ingestor outside it, or one attempt to send a request. Tasks run in
any order. Metrics, and messages whose sending leaves the reactor as it is, are not kept.
-/

namespace CometArchive.Blocksync

open Ingest

structure ReactorOptions where
  requestLimit : Int
  coldRequestWorkers : Int
  requestTimeout : Int
  statusRequestInterval : Int
  coldSource : Bool
  deriving DecidableEq, Repr

structure ColdPeerBudget where
  tokens : Rat
  updated : Int

structure BufferedBlockResponse where
  peerID : PeerID
  block : Block

structure Reactor (V : Type) where
  ingestor : HotIngestor V
  planner : RequestPlanner
  opts : ReactorOptions
  peers : GoMap.KeySet PeerID
  bufferedResponses : GoMap.Map Int BufferedBlockResponse
  coldBudgets : GoMap.Map PeerID ColdPeerBudget
  coldWork : List (PeerID × Int)

def coldPeerBurst : Rat := 64
def coldPeerRequestsPerSecond : Rat := 32
def maxColdPeerBudgets : Nat := 1024

-- durations are in nanoseconds
def second : Int := 1000000000

variable {V : Type}

def newReactor (ingestor : Option (HotIngestor V)) (planner : Option RequestPlanner) (opts : ReactorOptions) :
    Except Err (Reactor V) :=
  match ingestor with
  | none => .error (.new "hot ingestor is required")
  | some ingestor =>
    let requestLimit := if opts.requestLimit ≤ 0 then defaultRequestLimit else opts.requestLimit
    let workers := if opts.coldRequestWorkers = 0 then requestLimit else opts.coldRequestWorkers
    if maxRequestLimit < requestLimit then .error (.new s!"request limit cannot exceed {maxRequestLimit}")
    else if opts.coldRequestWorkers < 0 then .error (.new "cold request workers cannot be negative")
    else if maxRequestLimit < workers then .error (.new s!"cold request workers cannot exceed {maxRequestLimit}")
    else if opts.requestTimeout < 0 then .error (.new "request timeout cannot be negative")
    else if opts.statusRequestInterval < 0 then .error (.new "status request interval cannot be negative")
    else
      let requestTimeout := if opts.requestTimeout = 0 then 30 * second else opts.requestTimeout
      .ok
        { ingestor
          planner := planner.getD newRequestPlanner
          opts := { opts with requestLimit, coldRequestWorkers := workers, requestTimeout }
          peers := ∅
          bufferedResponses := ∅
          coldBudgets := ∅
          coldWork := [] }

theorem newReactor_spec {ingestor : HotIngestor V} {planner : Option RequestPlanner} {opts : ReactorOptions}
    {r : Reactor V} (built : newReactor (some ingestor) planner opts = .ok r) :
    r.ingestor = ingestor ∧ r.bufferedResponses = ∅ := by
  dsimp only [newReactor] at built
  generalize (if opts.requestLimit ≤ 0 then defaultRequestLimit else opts.requestLimit) = limit at built
  generalize (if opts.coldRequestWorkers = 0 then limit else opts.coldRequestWorkers) = workers at built
  generalize (if opts.requestTimeout = 0 then 30 * second else opts.requestTimeout) = timeout at built
  repeat' split at built
  all_goals cases built
  exact ⟨rfl, rfl⟩

theorem newReactor_planner {ingestor : HotIngestor V} {planner : Option RequestPlanner} {opts : ReactorOptions}
    {r : Reactor V} (built : newReactor (some ingestor) planner opts = .ok r) :
    r.planner = planner.getD newRequestPlanner ∧ 0 < r.opts.requestLimit ∧ r.opts.requestLimit ≤ maxRequestLimit := by
  have positive : 0 < if opts.requestLimit ≤ 0 then defaultRequestLimit else opts.requestLimit := by
    split
    · decide
    · omega
  dsimp only [newReactor] at built
  generalize (if opts.requestLimit ≤ 0 then defaultRequestLimit else opts.requestLimit) = limit at built positive
  generalize (if opts.coldRequestWorkers = 0 then limit else opts.coldRequestWorkers) = workers at built
  generalize (if opts.requestTimeout = 0 then 30 * second else opts.requestTimeout) = timeout at built
  split at built
  · cases built
  next few =>
    repeat' split at built
    all_goals cases built
    exact ⟨rfl, positive, not_lt.mp few⟩

namespace Reactor

def dropBuffered (r : Reactor V) (drop : Int → BufferedBlockResponse → Bool) : Reactor V :=
  -- the loops of `dropBufferedResponses...Locked`: each response dropped is marked failed
  { r with
    bufferedResponses := GoMap.deleteWhere r.bufferedResponses drop
    planner := r.bufferedResponses.toList.foldl (fun planner entry =>
      if drop entry.1 entry.2 then planner.markFailed entry.1 else planner) r.planner }

theorem dropBuffered_get {r : Reactor V} {drop : Int → BufferedBlockResponse → Bool} {height : Int}
    {response : BufferedBlockResponse} : (r.dropBuffered drop).bufferedResponses[height]? = some response ↔
      r.bufferedResponses[height]? = some response ∧ drop height response = false :=
  GoMap.get_deleteWhere_eq_some ..

theorem dropBuffered_planner {r : Reactor V} {drop : Int → BufferedBlockResponse → Bool} (keeps : RequestPlanner → Prop)
    (holds : keeps r.planner)
    (marked : ∀ (planner : RequestPlanner) (height : Int) (response : BufferedBlockResponse),
      r.bufferedResponses[height]? = some response → drop height response = true → keeps planner →
      keeps (planner.markFailed height)) : keeps (r.dropBuffered drop).planner := by
  refine List.foldlRecOn _ _ holds ?_
  rintro planner kept ⟨height, response⟩ member
  have found := Std.ExtTreeMap.mem_toList_iff_getElem?_eq_some.mp member
  dsimp only
  split
  next dropped => exact marked planner height response found dropped kept
  next => exact kept

theorem dropBuffered_peers (r : Reactor V) (drop : Int → BufferedBlockResponse → Bool) :
    (r.dropBuffered drop).planner.peers = r.planner.peers :=
  dropBuffered_planner (fun planner => planner.peers = r.planner.peers) rfl fun _ _ _ _ _ same => same

def dropBufferedResponsesFromPeer (r : Reactor V) (peerID : PeerID) : Reactor V :=
  r.dropBuffered fun _ buffered => buffered.peerID == peerID

def dropBufferedResponsesOutsideRange (r : Reactor V) (peerID : PeerID) (advertised : PeerRange) : Reactor V :=
  r.dropBuffered fun height buffered => buffered.peerID == peerID && !advertised.contains height

def addPeer (r : Reactor V) (peerID : PeerID) : Reactor V := { r with peers := r.peers.insert peerID }

def removePeer (r : Reactor V) (peerID : PeerID) : Reactor V :=
  dropBufferedResponsesFromPeer
    { r with
      peers := r.peers.erase peerID
      coldBudgets := r.coldBudgets.erase peerID
      planner := r.planner.removePeer peerID } peerID

def markPeerBlockFailed (r : Reactor V) (peerID : PeerID) : Reactor V :=
  -- `markPeerBlockFailed(peer, 0)`
  dropBufferedResponsesFromPeer { r with planner := r.planner.removePeer peerID } peerID

/-- The critical section of `enqueueColdBlockRequest`, and whether the request goes on to the queue. The tokens are
exact here, where the source computes with floats. -/
def coldBudget (r : Reactor V) (peerID : PeerID) (now : Int) : Reactor V × Bool :=
  match r.coldBudgets[peerID]? with
  | none =>
    if maxColdPeerBudgets ≤ r.coldBudgets.size then (r, false)
    else spend { tokens := coldPeerBurst, updated := now }
  | some budget => spend budget
where
  spend (budget : ColdPeerBudget) : Reactor V × Bool :=
    let elapsed : Rat := (now - budget.updated : Int) / (second : Int)
    let tokens := min coldPeerBurst (budget.tokens + elapsed * coldPeerRequestsPerSecond)
    if tokens < 1 then ({ r with coldBudgets := r.coldBudgets.insert peerID { tokens, updated := now } }, false)
    else ({ r with coldBudgets := r.coldBudgets.insert peerID { tokens := tokens - 1, updated := now } }, true)

def enqueueColdBlockRequest (r : Reactor V) (peerID : PeerID) (height now : Int) : Reactor V :=
  match r.coldBudget peerID now with
  | (r, false) => r
  | (r, true) =>
    if r.coldWork.length < r.opts.requestLimit then { r with coldWork := r.coldWork ++ [(peerID, height)] } else r

theorem enqueueColdBlockRequest_spec (r : Reactor V) (peerID : PeerID) (height now : Int) :
    (r.enqueueColdBlockRequest peerID height now = r ∧
      r.coldBudgets[peerID]?.isNone ∧ maxColdPeerBudgets ≤ r.coldBudgets.size) ∨
    ((r.coldBudgets[peerID]?.isSome ∨ r.coldBudgets.size < maxColdPeerBudgets) ∧
      ∃ budget coldWork, r.enqueueColdBlockRequest peerID height now =
        { r with coldBudgets := r.coldBudgets.insert peerID budget, coldWork }) := by
  have spent : ∀ budget, ∃ kept more, coldBudget.spend r peerID now budget =
      ({ r with coldBudgets := r.coldBudgets.insert peerID kept }, more) := by
    intro budget
    unfold coldBudget.spend
    dsimp only
    split
    · exact ⟨_, _, rfl⟩
    · exact ⟨_, _, rfl⟩
  have queued : ∀ budget, ∃ kept coldWork,
      (match coldBudget.spend r peerID now budget with
        | (r, false) => r
        | (r, true) =>
          if r.coldWork.length < r.opts.requestLimit then { r with coldWork := r.coldWork ++ [(peerID, height)] }
          else r) = { r with coldBudgets := r.coldBudgets.insert peerID kept, coldWork } := by
    intro budget
    obtain ⟨kept, more, same⟩ := spent budget
    rw [same]
    cases more with
    | false => exact ⟨kept, r.coldWork, rfl⟩
    | true =>
      dsimp only
      split
      · exact ⟨kept, _, rfl⟩
      · exact ⟨kept, r.coldWork, rfl⟩
  unfold enqueueColdBlockRequest coldBudget
  cases found : r.coldBudgets[peerID]? with
  | none =>
    by_cases full : maxColdPeerBudgets ≤ r.coldBudgets.size
    · simp only [if_pos full]
      exact .inl ⟨trivial, rfl, full⟩
    · simp only [if_neg full]
      exact .inr ⟨.inr (by omega), queued _⟩
  | some budget => exact .inr ⟨.inl rfl, queued budget⟩

def upsertStatus (r : Reactor V) (peerID : PeerID) (advertised : PeerRange) : Reactor V × Except Err Unit :=
  -- the critical section of `handleStatus`
  match r.planner.upsertPeer peerID advertised with
  | (planner, .error err) => ({ r with planner }, .error err)
  | (planner, .ok ()) => ({ r with planner }.dropBufferedResponsesOutsideRange peerID advertised, .ok ())

end Reactor

inductive Message where
  | blockRequest (height : Int)
  | blockResponse (block : Option Block)
  | statusRequest
  | statusResponse (base height : Int)
  | noBlockResponse (height : Int)

inductive Handler where
  | addPeer (peerID : PeerID)
  | removePeer (peerID : PeerID)
  | receive (peerID : PeerID) (message : Message)
  | requestTimeout

/-- Where a running handler stands. -/
inductive Task where
  | addPeer (peerID : PeerID)
  | removePeer (peerID : PeerID)
  | blockRequest (peerID : PeerID) (height : Int)
  | enqueueCold (peerID : PeerID) (height : Int)
  | undecodable (peerID : PeerID)
  | blockResponse (peerID : PeerID) (block : Block)
  | submit (peerID : PeerID) (block : Block)
  | submitFailed (peerID : PeerID) (block : Block)
  | submitted (peerID : PeerID) (block : Block)
  | status (peerID : PeerID) (advertised : PeerRange)
  | noBlock (peerID : PeerID) (height : Int)
  | expire
  | disconnect (peerID : PeerID) (thenPlan : Bool)
  | plan
  | send (requests : List Request) (peers : GoMap.KeySet PeerID)
  | requestFailed (height : Int) (requests : List Request) (peers : GoMap.KeySet PeerID)

def receiveTask (validMsg : Message → Bool) (peerID : PeerID) (message : Message) : Option Task :=
  -- the dispatch of `Receive`, after `ValidateMsg`
  if validMsg message = false then some (.disconnect peerID false)
  else match message with
    | .blockRequest height => some (.blockRequest peerID height)
    | .blockResponse none => some (.undecodable peerID)
    | .blockResponse (some block) => some (.blockResponse peerID block)
    | .statusRequest => none
    | .statusResponse base height => some (.status peerID { base, height })
    | .noBlockResponse height => some (.noBlock peerID height)

def Handler.start (validMsg : Message → Bool) : Handler → Option Task
  | .addPeer peerID => some (.addPeer peerID)
  | .removePeer peerID => some (.removePeer peerID)
  | .receive peerID message => receiveTask validMsg peerID message
  | .requestTimeout => some .expire

/-- What a step takes from outside: the clock, whether a send succeeds, and the validator-set source. -/
structure Choice (V : Type) where
  now : Int
  sent : Bool
  ask : Int → SourceAnswer V

variable (comet : Comet V)

/-- One step of a task: the reactor after it, the rest of the task, and the request it sent, if any. -/
def Reactor.exec (r : Reactor V) (choice : Choice V) : Task → Reactor V × Option Task × Option Request
  | .addPeer peerID => (r.addPeer peerID, none, none)
  | .removePeer peerID => (r.removePeer peerID, none, none)
  | .blockRequest peerID height =>
    match r.ingestor.store.load height with
    | some _ => (r, none, none)
    | none => (r, if r.opts.coldSource then some (.enqueueCold peerID height) else none, none)
  | .enqueueCold peerID height => (r.enqueueColdBlockRequest peerID height choice.now, none, none)
  | .undecodable peerID => (r.markPeerBlockFailed peerID, some (.disconnect peerID true), none)
  | .blockResponse peerID block =>
    if r.planner.inflightPeer block.height ≠ some peerID then (r, none, none)
    else if block.height < r.ingestor.nextHeight then
      ({ r with planner := r.planner.markDone block.height }, none, none)
    else if r.ingestor.nextHeight < block.height then
      ({ r with
        bufferedResponses := r.bufferedResponses.insert block.height { peerID, block }
        planner := r.planner.markReceived block.height }, some .plan, none)
    else (r, some (.submit peerID block), none)
  | .submit peerID block =>
    match HotIngestor.submit comet choice.ask r.ingestor (some block) with
    | (ingestor, .ok _) => ({ r with ingestor }, some (.submitted peerID block), none)
    | (ingestor, .error _) => ({ r with ingestor }, some (.submitFailed peerID block), none)
    | (ingestor, .panic) => ({ r with ingestor }, none, none)
  | .submitFailed peerID block =>
    let known := r.peers.contains peerID
    let r :=
      { r with
        planner := r.planner.markFailed block.height
        bufferedResponses := r.bufferedResponses.erase block.height }
    let r := if peerID ≠ "" then r.markPeerBlockFailed peerID else r
    ({ r with peers := r.peers.erase peerID }, some (if known then .disconnect peerID true else .plan), none)
  | .submitted _ block =>
    let r :=
      { r with
        planner := r.planner.markDone block.height
        bufferedResponses := r.bufferedResponses.erase block.height }
    match r.bufferedResponses[r.ingestor.nextHeight]? with
    | some buffered => (r, some (.submit buffered.peerID buffered.block), none)
    -- `broadcastStatus` only sends
    | none => (r, some .plan, none)
  | .status peerID advertised =>
    match r.upsertStatus peerID advertised with
    | (r, .error _) => (r, none, none)
    | (r, .ok ()) => (r, some .plan, none)
  | .noBlock peerID height => ({ r with planner := r.planner.markNoBlock peerID height }, some .plan, none)
  | .expire =>
    let (planner, expired) := r.planner.expireInflight choice.now r.opts.requestTimeout
    ({ r with planner }, if 0 < expired then some .plan else none, none)
  | .disconnect peerID thenPlan => (r.removePeer peerID, if thenPlan then some .plan else none, none)
  | .plan =>
    match r.planner.planAt r.ingestor.nextHeight r.opts.requestLimit choice.now with
    | (planner, .error _) => ({ r with planner }, none, none)
    | (planner, .ok requests) => ({ r with planner }, some (.send requests r.peers), none)
  | .send [] _ => (r, none, none)
  | .send (request :: rest) peers =>
    if peers.contains request.peerID && choice.sent then (r, some (.send rest peers), some request)
    else (r, some (.requestFailed request.height rest peers), none)
  | .requestFailed height rest peers =>
    ({ r with planner := r.planner.markFailed height }, some (.send rest peers), none)

structure System (V : Type) where
  reactor : Reactor V
  tasks : Nat → Option Task
  requested : List Request

inductive SystemEvent (V : Type) where
  | handle (id : Nat) (handler : Handler)
  | run (id : Nat) (choice : Choice V)
  | takeCold

def System.step (validMsg : Message → Bool) (s : System V) : SystemEvent V → System V
  | .handle id handler =>
    match s.tasks id with
    | some _ => s
    | none => { s with tasks := Function.update s.tasks id (handler.start validMsg) }
  | .run id choice =>
    match s.tasks id with
    | none => s
    | some task =>
      let (reactor, next, sent) := s.reactor.exec comet choice task
      { reactor, tasks := Function.update s.tasks id next, requested := s.requested ++ sent.toList }
  | .takeCold => { s with reactor := { s.reactor with coldWork := s.reactor.coldWork.tail } }

theorem System.step_run {comet : Comet V} {validMsg : Message → Bool} {s : System V} {id : Nat} {choice : Choice V}
    {task : Task} (present : s.tasks id = some task) :
    s.step comet validMsg (.run id choice) =
      { reactor := (s.reactor.exec comet choice task).1
        tasks := Function.update s.tasks id (s.reactor.exec comet choice task).2.1
        requested := s.requested ++ (s.reactor.exec comet choice task).2.2.toList } := by
  simp [System.step, present]

theorem System.step_task {comet : Comet V} {validMsg : Message → Bool} {s : System V} {event : SystemEvent V} {id : Nat}
    {task : Task} (present : (s.step comet validMsg event).tasks id = some task) :
    s.tasks id = some task ∨ (∃ handler, event = .handle id handler ∧ handler.start validMsg = some task) ∨
      ∃ choice held, event = .run id choice ∧ s.tasks id = some held ∧
        (s.reactor.exec comet choice held).2.1 = some task := by
  -- where a task comes from: it stood there before, its handler starts, or it goes on from what it was
  cases event with
  | handle started handler =>
    simp only [System.step] at present
    split at present
    · exact .inl present
    · dsimp only at present
      by_cases same : id = started
      · subst same
        rw [Function.update_self] at present
        exact .inr (.inl ⟨handler, rfl, present⟩)
      · rw [Function.update_of_ne same] at present
        exact .inl present
  | takeCold => exact .inl present
  | run ran choice =>
    cases found : s.tasks ran with
    | none =>
      simp only [System.step, found] at present
      exact .inl present
    | some held =>
      rw [System.step_run found] at present
      dsimp only at present
      by_cases same : id = ran
      · subst same
        rw [Function.update_self] at present
        exact .inr (.inr ⟨choice, held, rfl, found, present⟩)
      · rw [Function.update_of_ne same] at present
        exact .inl present

def plainReactor (requestLimit : Int) : Reactor Unit where
  ingestor := newPlain
  planner := newRequestPlanner
  opts := { requestLimit, coldRequestWorkers := 1, requestTimeout := second, statusRequestInterval := 0, coldSource := false }
  peers := ∅
  bufferedResponses := ∅
  coldBudgets := ∅
  coldWork := []

example : newReactor (some newPlain) none
    { requestLimit := 1, coldRequestWorkers := 1, requestTimeout := second, statusRequestInterval := 0, coldSource := false } =
    .ok (plainReactor 1) := rfl

def plainSystem (requestLimit : Int) : System Unit := ⟨plainReactor requestLimit, fun _ => none, []⟩

def takeAll : Message → Bool := fun _ => true

def runAt (id : Nat) (now : Int) : SystemEvent Unit := .run id { now, sent := true, ask := noSource }

def systemAfter (requestLimit : Int) (events : List (SystemEvent Unit)) : System Unit :=
  events.foldl (System.step Comet.plain takeAll) (plainSystem requestLimit)

end CometArchive.Blocksync
