import CometArchive.Comet.Block
import CometArchive.Shared.Maps

set_option autoImplicit false

namespace CometArchive.Blocksync

open GoBytes

abbrev PeerID := String

structure PeerRange where
  base : Int
  height : Int
  deriving DecidableEq, Repr

def PeerRange.validate (r : PeerRange) : Except Err Unit :=
  if r.base ≤ 0 ∨ r.height ≤ 0 ∨ r.height < r.base then
    .error (.both (.sentinel .invalidPeerRange) (.new s!"{r.base}-{r.height}"))
  else .ok ()

def PeerRange.contains (r : PeerRange) (height : Int) : Bool := r.base ≤ height && height ≤ r.height

structure Request where
  peerID : PeerID
  height : Int
  deriving DecidableEq, Repr

structure InflightRequest where
  peerID : PeerID
  requestedAt : Int
  deriving DecidableEq, Repr

structure RequestPlanner where
  peers : GoMap.Map PeerID PeerRange
  inflight : GoMap.Map Int InflightRequest
  received : GoMap.KeySet Int
  noBlocks : GoMap.Map PeerID (GoMap.KeySet Int)
  timeouts : GoMap.Map PeerID (GoMap.KeySet Int)

def defaultRequestLimit : Int := 32
def maxRequestLimit : Int := 1024

def newRequestPlanner : RequestPlanner :=
  { peers := ∅, inflight := ∅, received := ∅, noBlocks := ∅, timeouts := ∅ }

def addHeight (m : GoMap.Map PeerID (GoMap.KeySet Int)) (id : PeerID) (height : Int) :
    GoMap.Map PeerID (GoMap.KeySet Int) :=
  -- `m[id][height] = struct{}{}`, with the inner map made on first use
  m.insert id ((m[id]?.getD ∅).insert height)

namespace RequestPlanner

def upsertPeer (p : RequestPlanner) (id : PeerID) (advertised : PeerRange) : RequestPlanner × Except Err Unit :=
  if id = "" then (p, .error (.new "peer id is required"))
  else match advertised.validate with
    | .error err => (p, .error err)
    | .ok () =>
      let p := match p.peers[id]? with
        | some existing =>
          if existing ≠ advertised then { p with noBlocks := p.noBlocks.erase id, timeouts := p.timeouts.erase id }
          else p
        | none => p
      ({ p with
        peers := p.peers.insert id advertised
        inflight := GoMap.deleteWhere p.inflight fun height request =>
          request.peerID == id && !advertised.contains height }, .ok ())

def removePeer (p : RequestPlanner) (id : PeerID) : RequestPlanner :=
  { p with
    peers := p.peers.erase id
    noBlocks := p.noBlocks.erase id
    timeouts := p.timeouts.erase id
    inflight := GoMap.deleteWhere p.inflight fun _ request => request.peerID == id }

def markDone (p : RequestPlanner) (height : Int) : RequestPlanner :=
  { p with inflight := p.inflight.erase height, received := p.received.erase height }

def markFailed (p : RequestPlanner) (height : Int) : RequestPlanner :=
  { p with inflight := p.inflight.erase height, received := p.received.erase height }

def markReceived (p : RequestPlanner) (height : Int) : RequestPlanner :=
  let p := { p with inflight := p.inflight.erase height }
  if 0 < height then { p with received := p.received.insert height } else p

def markNoBlock (p : RequestPlanner) (id : PeerID) (height : Int) : RequestPlanner :=
  if id = "" ∨ height ≤ 0 then p
  else match p.inflight[height]? with
    | none => p
    | some request =>
      if request.peerID ≠ id then p
      else { p with inflight := p.inflight.erase height, noBlocks := addHeight p.noBlocks id height }

def expireOne (now timeout : Int) (acc : RequestPlanner × Nat) (entry : Int × InflightRequest) :
    RequestPlanner × Nat :=
  -- one iteration of the loop of `ExpireInflight`
  if now - entry.2.requestedAt < timeout then acc
  else
    ({ acc.1 with
      inflight := acc.1.inflight.erase entry.1
      timeouts := addHeight acc.1.timeouts entry.2.peerID entry.1 }, acc.2 + 1)

def expireInflight (p : RequestPlanner) (now timeout : Int) : RequestPlanner × Nat :=
  if timeout ≤ 0 then (p, 0)
  else p.inflight.toList.foldl (expireOne now timeout) (p, 0)

def inflightPeer (p : RequestPlanner) (height : Int) : Option PeerID := p.inflight[height]?.map (·.peerID)

def bestHeight (p : RequestPlanner) : Int :=
  p.peers.toList.foldl (fun best entry => if best < entry.2.height then entry.2.height else best) 0

def pruneHeights (m : GoMap.Map PeerID (GoMap.KeySet Int)) (below : Int) : GoMap.Map PeerID (GoMap.KeySet Int) :=
  -- `pruneHeightSet`, with the deletion of a set it empties
  GoMap.updateWhere m fun _ heights =>
    let kept := GoMap.dropWhere heights fun height => height < below
    if kept.size = 0 then none else some kept

def pruneMarkersBelow (p : RequestPlanner) (height : Int) : RequestPlanner :=
  { p with
    received := GoMap.dropWhere p.received fun received => received < height
    noBlocks := pruneHeights p.noBlocks height
    timeouts := pruneHeights p.timeouts height }

def peerReturnedNoBlock (p : RequestPlanner) (id : PeerID) (height : Int) : Bool :=
  match p.noBlocks[id]? with
  | none => false
  | some heights => heights.contains height

def peerTimedOut (p : RequestPlanner) (id : PeerID) (height : Int) : Bool :=
  match p.timeouts[id]? with
  | none => false
  | some heights => heights.contains height

/-- The first advertising peer, in the order of the ids, that has not timed out, or else any. -/
def peerForHeight (p : RequestPlanner) (height : Int) : Option PeerID :=
  let serves (entry : PeerID × PeerRange) : Bool :=
    entry.2.contains height && !p.peerReturnedNoBlock entry.1 height
  match p.peers.toList.find? (fun entry => serves entry && !p.peerTimedOut entry.1 height) with
  | some entry => some entry.1
  | none => (p.peers.toList.find? serves).map (·.1)

/-- The loop of `PlanAt`. It takes at most `limit` heights and one more when the height wraps around,
so `fuel` is `limit + 1`. -/
def planLoop (best windowEnd limit now : Int) :
    Nat → Int → RequestPlanner → List Request → RequestPlanner × Except Err (List Request)
  | 0, _, p, requests => (p, .ok requests)
  | fuel + 1, height, p, requests =>
    if ¬ (height ≤ best ∧ height ≤ windowEnd ∧ requests.length < limit) then (p, .ok requests)
    else if p.inflight.contains height || p.received.contains height then
      planLoop best windowEnd limit now fuel (wrap64 (height + 1)) p requests
    else match p.peerForHeight height with
      | none =>
        if requests = [] then (p, .error (.both (.sentinel .noPeerForHeight) (.new s!"{height}")))
        else (p, .ok requests)
      | some peerID =>
        planLoop best windowEnd limit now fuel (wrap64 (height + 1))
          { p with inflight := p.inflight.insert height { peerID, requestedAt := now } }
          (requests ++ [{ peerID, height }])

def planAt (p : RequestPlanner) (nextHeight limit now : Int) : RequestPlanner × Except Err (List Request) :=
  if nextHeight ≤ 0 then (p, .error (.new "next height must be positive"))
  else
    let p := p.pruneMarkersBelow nextHeight
    if limit ≤ 0 then (p, .ok [])
    else if maxRequestLimit < limit then
      (p, .error (.new s!"request limit cannot exceed {maxRequestLimit}"))
    else if p.peers.size = 0 then (p, .error (.sentinel .noPeers))
    else
      let best := p.bestHeight
      if best < nextHeight then (p, .ok [])
      else
        let windowEnd := wrap64 (nextHeight + limit - 1)
        let windowEnd := if windowEnd < nextHeight then best else windowEnd
        planLoop best windowEnd limit now (limit.toNat + 1) nextHeight p []

end RequestPlanner

end CometArchive.Blocksync
