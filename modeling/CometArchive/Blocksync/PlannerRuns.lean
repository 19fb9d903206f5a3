import CometArchive.Blocksync.Planner

set_option autoImplicit false

namespace CometArchive.Blocksync

open GoBytes

def Marked (m : GoMap.Map PeerID (GoMap.KeySet Int)) (id : PeerID) (height : Int) : Prop :=
  -- the peer has a marker for the height
  ∃ heights, m[id]? = some heights ∧ height ∈ heights

section Marked

variable {m : GoMap.Map PeerID (GoMap.KeySet Int)} {id other : PeerID} {height mark below : Int}

theorem marked_addHeight : Marked (addHeight m id height) other mark ↔ id = other ∧ height = mark ∨ Marked m other mark := by
  unfold Marked addHeight
  rw [GoMap.get_insert]
  by_cases same : id = other
  · subst same
    simp only [if_true, Option.some.injEq, exists_eq_left', GoMap.mem_insert, true_and]
    cases m[id]? with
    | none => simp
    | some heights => simp
  · simp [same]

theorem marked_erase : Marked (m.erase id) other mark ↔ id ≠ other ∧ Marked m other mark := by
  unfold Marked
  rw [GoMap.get_erase]
  by_cases same : id = other <;> simp [same]

theorem marked_pruneHeights : Marked (RequestPlanner.pruneHeights m below) id mark ↔ Marked m id mark ∧ below ≤ mark := by
  unfold Marked RequestPlanner.pruneHeights
  rw [GoMap.get_updateWhere]
  cases m[id]? with
  | none => simp
  | some heights =>
    have kept : mark ∈ GoMap.dropWhere heights (fun height => height < below) ↔ mark ∈ heights ∧ below ≤ mark := by
      rw [GoMap.mem_dropWhere]
      simp
    simp only [Option.bind_some]
    split
    next empty =>
      rw [← Std.ExtTreeSet.eq_empty_iff_size_eq_zero] at empty
      simp [← kept, empty]
    next => simp [← kept]

end Marked

namespace RequestPlanner

variable {p q r : RequestPlanner} {id : PeerID} {height : Int}

theorem peerReturnedNoBlock_eq_true : p.peerReturnedNoBlock id height = true ↔ Marked p.noBlocks id height := by
  unfold peerReturnedNoBlock Marked
  cases p.noBlocks[id]? with
  | none => simp
  | some heights => simp

structure Consistent (p : RequestPlanner) : Prop where
  ranges : ∀ (id : PeerID) (range : PeerRange), p.peers[id]? = some range → 0 < range.base
  assigned : ∀ (height : Int) (request : InflightRequest), p.inflight[height]? = some request →
    ∃ range : PeerRange, p.peers[request.peerID]? = some range ∧ range.contains height = true
  apart : ∀ height, height ∈ p.received → p.inflight[height]? = none
  positive : ∀ height, height ∈ p.received → 0 < height
  noBlocks : ∀ id height, Marked p.noBlocks id height → ∃ range : PeerRange, p.peers[id]? = some range
  timeouts : ∀ id height, Marked p.timeouts id height → ∃ range : PeerRange, p.peers[id]? = some range
  unmarked : ∀ (height : Int) (request : InflightRequest), p.inflight[height]? = some request →
    ¬ Marked p.noBlocks request.peerID height

/-- `q` asks for less than `p` did. A marker that is new stands for a request that was in flight. -/
structure Drops (p q : RequestPlanner) : Prop where
  inflight : ∀ (height : Int) (request : InflightRequest), q.inflight[height]? = some request →
    p.inflight[height]? = some request
  received : ∀ height, height ∈ q.received → height ∈ p.received
  noBlocks : ∀ id height, Marked q.noBlocks id height → Marked p.noBlocks id height ∨
    q.inflight[height]? = none ∧ ∃ request, p.inflight[height]? = some request ∧ request.peerID = id
  timeouts : ∀ id height, Marked q.timeouts id height → Marked p.timeouts id height ∨
    ∃ request, p.inflight[height]? = some request ∧ request.peerID = id

theorem Drops.refl (p : RequestPlanner) : p.Drops p :=
  ⟨fun _ _ found => found, fun _ member => member, fun _ _ => .inl, fun _ _ => .inl⟩

theorem Drops.none (drops : p.Drops q) (absent : p.inflight[height]? = none) : q.inflight[height]? = none := by
  cases found : q.inflight[height]? with
  | none => rfl
  | some request =>
    rw [drops.inflight height request found] at absent
    cases absent

theorem Drops.trans (first : p.Drops q) (second : q.Drops r) : p.Drops r where
  inflight height request found := first.inflight height request (second.inflight height request found)
  received height member := first.received height (second.received height member)
  noBlocks := by
    intro id height marked
    rcases second.noBlocks id height marked with before | ⟨gone, request, found, same⟩
    · rcases first.noBlocks id height before with old | ⟨absent, request, found, same⟩
      · exact .inl old
      · exact .inr ⟨second.none absent, request, found, same⟩
    · exact .inr ⟨gone, request, first.inflight height request found, same⟩
  timeouts := by
    intro id height marked
    rcases second.timeouts id height marked with before | ⟨request, found, same⟩
    · exact first.timeouts id height before
    · exact .inr ⟨request, first.inflight height request found, same⟩

theorem Consistent.of_drops (consistent : p.Consistent) (drops : p.Drops q) (peers : q.peers = p.peers) :
    q.Consistent where
  ranges := peers ▸ consistent.ranges
  assigned height request found := peers ▸ consistent.assigned height request (drops.inflight height request found)
  apart height member := drops.none (consistent.apart height (drops.received height member))
  positive height member := consistent.positive height (drops.received height member)
  noBlocks := by
    intro id height marked
    rw [peers]
    rcases drops.noBlocks id height marked with before | ⟨-, request, found, rfl⟩
    · exact consistent.noBlocks id height before
    · obtain ⟨range, known, -⟩ := consistent.assigned height request found
      exact ⟨range, known⟩
  timeouts := by
    intro id height marked
    rw [peers]
    rcases drops.timeouts id height marked with before | ⟨request, found, rfl⟩
    · exact consistent.timeouts id height before
    · obtain ⟨range, known, -⟩ := consistent.assigned height request found
      exact ⟨range, known⟩
  unmarked := by
    intro height request found marked
    rcases drops.noBlocks _ height marked with before | ⟨gone, -⟩
    · exact consistent.unmarked height request (drops.inflight height request found) before
    · rw [found] at gone
      cases gone

theorem markDone_drops (p : RequestPlanner) (height : Int) : p.Drops (p.markDone height) where
  inflight other request found := by
    rw [markDone, GoMap.get_erase] at found
    split at found
    · cases found
    · exact found
  received other member := ((GoMap.mem_erase ..).mp member).2
  noBlocks _ _ := .inl
  timeouts _ _ := .inl

theorem markFailed_drops (p : RequestPlanner) (height : Int) : p.Drops (p.markFailed height) := p.markDone_drops height

theorem markNoBlock_drops (p : RequestPlanner) (id : PeerID) (height : Int) : p.Drops (p.markNoBlock id height) := by
  unfold markNoBlock
  split
  · exact .refl p
  · split
    · exact .refl p
    next request found =>
      split
      · exact .refl p
      next same =>
        rw [not_not] at same
        refine ⟨(p.markDone_drops height).inflight, fun _ member => member, ?_, fun _ _ => .inl⟩
        intro other mark marked
        rcases marked_addHeight.mp marked with ⟨rfl, rfl⟩ | before
        · exact .inr ⟨by simp, request, found, same⟩
        · exact .inl before

theorem expireOne_drops {now timeout : Int} {acc : RequestPlanner × Nat} {entry : Int × InflightRequest}
    (found : acc.1.inflight[entry.1]? = some entry.2) : acc.1.Drops (expireOne now timeout acc entry).1 := by
  unfold expireOne
  split
  · exact .refl _
  · refine ⟨(acc.1.markDone_drops entry.1).inflight, fun _ member => member, fun _ _ => .inl, ?_⟩
    intro other mark marked
    rcases marked_addHeight.mp marked with ⟨rfl, rfl⟩ | before
    · exact .inr ⟨entry.2, found, rfl⟩
    · exact .inl before

theorem expireFold_spec {now timeout : Int} {entries : List (Int × InflightRequest)} {acc : RequestPlanner × Nat}
    (distinct : (entries.map Prod.fst).Nodup) (listed : ∀ entry ∈ entries, acc.1.inflight[entry.1]? = some entry.2) :
    acc.1.Drops (entries.foldl (expireOne now timeout) acc).1 ∧
      (entries.foldl (expireOne now timeout) acc).1.peers = acc.1.peers ∧
      (∀ (height : Int) (request : InflightRequest), acc.1.inflight[height]? = some request →
        ((height, request) ∈ entries → now - request.requestedAt < timeout) →
        (entries.foldl (expireOne now timeout) acc).1.inflight[height]? = some request) := by
  induction entries generalizing acc with
  | nil => exact ⟨.refl _, rfl, fun _ _ found _ => found⟩
  | cons entry rest ih =>
    rw [List.map_cons, List.nodup_cons] at distinct
    obtain ⟨new, distinct⟩ := distinct
    obtain ⟨here, others⟩ := List.forall_mem_cons.mp listed
    have untouched : ∀ other : Int, other ≠ entry.1 →
        (expireOne now timeout acc entry).1.inflight[other]? = acc.1.inflight[other]? := by
      intro other differs
      unfold expireOne
      split
      · rfl
      · exact (GoMap.get_erase ..).trans (if_neg (Ne.symm differs))
    have still : ∀ later ∈ rest, (expireOne now timeout acc entry).1.inflight[later.1]? = some later.2 := by
      intro later member
      rw [untouched later.1, others later member]
      intro same
      rw [← same] at new
      exact new (List.mem_map_of_mem member)
    have kept : (expireOne now timeout acc entry).1.peers = acc.1.peers := by
      unfold expireOne
      split <;> rfl
    obtain ⟨drops, peers, stays⟩ := ih distinct still
    refine ⟨(expireOne_drops here).trans drops, peers.trans kept, ?_⟩
    intro height request found recent
    apply stays height request
    · by_cases same : height = entry.1
      · subst same
        cases here.symm.trans found
        rw [expireOne, if_pos (recent List.mem_cons_self)]
        exact here
      · rw [untouched height same]
        exact found
    · exact fun member => recent (List.mem_cons_of_mem _ member)

theorem expireInflight_spec (p : RequestPlanner) (now timeout : Int) :
    p.Drops (p.expireInflight now timeout).1 ∧ (p.expireInflight now timeout).1.peers = p.peers ∧
      ∀ (height : Int) (request : InflightRequest), p.inflight[height]? = some request →
        (0 < timeout → now - request.requestedAt < timeout) →
        (p.expireInflight now timeout).1.inflight[height]? = some request := by
  unfold expireInflight
  split
  · exact ⟨.refl p, rfl, fun _ _ found _ => found⟩
  next timed =>
    have distinct : (p.inflight.toList.map Prod.fst).Nodup := by
      rw [Std.ExtTreeMap.map_fst_toList_eq_keys]
      exact Std.ExtTreeMap.nodup_keys
    obtain ⟨drops, peers, stays⟩ := @expireFold_spec now timeout _ (p, 0) distinct
      fun entry member => Std.ExtTreeMap.mem_toList_iff_getElem?_eq_some.mp member
    exact ⟨drops, peers, fun height request found recent => stays height request found fun _ => recent (by omega)⟩

theorem removePeer_drops (p : RequestPlanner) (id : PeerID) : p.Drops (p.removePeer id) where
  inflight _ _ found := ((GoMap.get_deleteWhere_eq_some ..).mp found).1
  received _ member := member
  noBlocks _ _ marked := .inl (marked_erase.mp marked).2
  timeouts _ _ marked := .inl (marked_erase.mp marked).2

theorem Consistent.removePeer (consistent : p.Consistent) (id : PeerID) : (p.removePeer id).Consistent := by
  have drops := p.removePeer_drops id
  have others : ∀ (other : PeerID) (range : PeerRange), id ≠ other → p.peers[other]? = some range → (p.removePeer id).peers[other]? = some range := by
    intro other range differs known
    exact (GoMap.get_erase ..).trans ((if_neg differs).trans known)
  refine ⟨?_, ?_, ?_, fun height member => consistent.positive height member, ?_, ?_, ?_⟩
  · intro other range known
    rw [RequestPlanner.removePeer, GoMap.get_erase] at known
    split at known
    · cases known
    · exact consistent.ranges other range known
  · intro height request found
    obtain ⟨range, known, within⟩ := consistent.assigned height request (drops.inflight height request found)
    rw [RequestPlanner.removePeer, GoMap.get_deleteWhere_eq_some] at found
    have differs : request.peerID ≠ id := by simpa using found.2
    exact ⟨range, others _ range (Ne.symm differs) known, within⟩
  · intro height member
    exact drops.none (consistent.apart height member)
  · intro other height marked
    obtain ⟨differs, before⟩ := marked_erase.mp marked
    obtain ⟨range, known⟩ := consistent.noBlocks other height before
    exact ⟨range, others other range differs known⟩
  · intro other height marked
    obtain ⟨differs, before⟩ := marked_erase.mp marked
    obtain ⟨range, known⟩ := consistent.timeouts other height before
    exact ⟨range, others other range differs known⟩
  · intro height request found marked
    exact consistent.unmarked height request (drops.inflight height request found) (marked_erase.mp marked).2

theorem upsertPeer_ok {advertised : PeerRange} (ok : (p.upsertPeer id advertised).2 = .ok ()) :
    0 < advertised.base ∧ (p.upsertPeer id advertised).1.peers = p.peers.insert id advertised ∧
      (p.upsertPeer id advertised).1.inflight =
        GoMap.deleteWhere p.inflight (fun height request => request.peerID == id && !advertised.contains height) ∧
      (p.upsertPeer id advertised).1.received = p.received ∧
      (∀ other height, Marked (p.upsertPeer id advertised).1.noBlocks other height → Marked p.noBlocks other height) ∧
      ∀ other height, Marked (p.upsertPeer id advertised).1.timeouts other height → Marked p.timeouts other height := by
  revert ok
  unfold upsertPeer
  split
  · intro ok
    cases ok
  · split
    · intro ok
      cases ok
    next valid =>
      intro _
      have positive : 0 < advertised.base := by
        unfold PeerRange.validate at valid
        split at valid
        · cases valid
        · omega
      refine ⟨positive, ?_⟩
      dsimp only
      split
      next existing known =>
        split
        · exact ⟨rfl, rfl, rfl, fun _ _ marked => (marked_erase.mp marked).2, fun _ _ marked => (marked_erase.mp marked).2⟩
        · exact ⟨rfl, rfl, rfl, fun _ _ found => found, fun _ _ found => found⟩
      next => exact ⟨rfl, rfl, rfl, fun _ _ found => found, fun _ _ found => found⟩

theorem upsertPeer_error {advertised : PeerRange} {err : Err} (failed : (p.upsertPeer id advertised).2 = .error err) :
    (p.upsertPeer id advertised).1 = p := by
  revert failed
  unfold upsertPeer
  split
  · exact fun _ => rfl
  · split
    · exact fun _ => rfl
    · intro failed
      cases failed

theorem upsertPeer_drops (p : RequestPlanner) (id : PeerID) (advertised : PeerRange) :
    p.Drops (p.upsertPeer id advertised).1 := by
  cases ended : (p.upsertPeer id advertised).2 with
  | error err =>
    rw [upsertPeer_error ended]
    exact .refl p
  | ok =>
    obtain ⟨-, -, inflight, received, noBlocks, timeouts⟩ := upsertPeer_ok ended
    refine ⟨?_, ?_, fun other height marked => .inl (noBlocks other height marked),
      fun other height marked => .inl (timeouts other height marked)⟩
    · intro height request found
      rw [inflight, GoMap.get_deleteWhere_eq_some] at found
      exact found.1
    · intro height member
      rwa [received] at member

theorem Consistent.upsertPeer (consistent : p.Consistent) (id : PeerID) (advertised : PeerRange) :
    (p.upsertPeer id advertised).1.Consistent := by
  have drops := p.upsertPeer_drops id advertised
  cases ended : (p.upsertPeer id advertised).2 with
  | error err =>
    rw [upsertPeer_error ended]
    exact consistent
  | ok =>
    obtain ⟨positive, peers, inflight, received, noBlocks, timeouts⟩ := upsertPeer_ok ended
    have known : ∀ other : PeerID, (∃ range : PeerRange, p.peers[other]? = some range) →
        ∃ range : PeerRange, (p.upsertPeer id advertised).1.peers[other]? = some range := by
      rintro other ⟨range, found⟩
      rw [peers, GoMap.get_insert]
      split
      · exact ⟨_, rfl⟩
      · exact ⟨range, found⟩
    refine ⟨?_, ?_, ?_, ?_, ?_, ?_, ?_⟩
    · intro (other : PeerID) range found
      rw [peers, GoMap.get_insert] at found
      split at found
      · cases found
        exact positive
      · exact consistent.ranges other range found
    · intro height request found
      obtain ⟨range, old, within⟩ := consistent.assigned height request (drops.inflight height request found)
      rw [inflight, GoMap.get_deleteWhere_eq_some] at found
      rw [peers, GoMap.get_insert]
      split
      next same =>
        -- what the new range does not contain was deleted
        refine ⟨advertised, rfl, ?_⟩
        simpa [same] using found.2
      next => exact ⟨range, old, within⟩
    · intro height member
      exact drops.none (consistent.apart height (drops.received height member))
    · intro height member
      exact consistent.positive height (drops.received height member)
    · intro other height marked
      exact known other (consistent.noBlocks other height (noBlocks other height marked))
    · intro other height marked
      exact known other (consistent.timeouts other height (timeouts other height marked))
    · intro height request found marked
      exact consistent.unmarked height request (drops.inflight height request found) (noBlocks _ height marked)

theorem Consistent.markReceived (consistent : p.Consistent) (height : Int) : (p.markReceived height).Consistent := by
  have less : Consistent { p with inflight := p.inflight.erase height } :=
    consistent.of_drops ⟨(p.markDone_drops height).inflight, fun _ member => member, fun _ _ => .inl, fun _ _ => .inl⟩ rfl
  unfold RequestPlanner.markReceived
  dsimp only
  split
  next above =>
    refine ⟨less.ranges, less.assigned, ?_, ?_, less.noBlocks, less.timeouts, less.unmarked⟩
    · intro other member
      rcases (GoMap.mem_insert ..).mp member with rfl | member
      · simp
      · exact less.apart other member
    · intro other member
      rcases (GoMap.mem_insert ..).mp member with rfl | member
      · exact above
      · exact less.positive other member
  next => exact less

theorem pruneMarkersBelow_drops (p : RequestPlanner) (below : Int) : p.Drops (p.pruneMarkersBelow below) where
  inflight _ _ found := found
  received _ member := ((GoMap.mem_dropWhere ..).mp member).1
  noBlocks _ _ marked := .inl (marked_pruneHeights.mp marked).1
  timeouts _ _ marked := .inl (marked_pruneHeights.mp marked).1

theorem peerForHeight_spec {peer : PeerID} (chosen : p.peerForHeight height = some peer) :
    ∃ range : PeerRange, p.peers[peer]? = some range ∧ range.contains height = true ∧ ¬ Marked p.noBlocks peer height := by
  -- the peer that is chosen advertises the height and has not refused it
  have listed : ∃ entry ∈ p.peers.toList, entry.1 = peer ∧ entry.2.contains height = true ∧
      p.peerReturnedNoBlock entry.1 height = false := by
    unfold peerForHeight at chosen
    dsimp only at chosen
    split at chosen
    next entry found =>
      have serves := List.find?_some found
      simp only [Bool.and_eq_true, Bool.not_eq_true'] at serves
      exact ⟨entry, List.mem_of_find?_eq_some found, Option.some.inj chosen, serves.1⟩
    next =>
      obtain ⟨entry, found, same⟩ := Option.map_eq_some_iff.mp chosen
      have serves := List.find?_some found
      simp only [Bool.and_eq_true, Bool.not_eq_true'] at serves
      exact ⟨entry, List.mem_of_find?_eq_some found, same, serves⟩
  obtain ⟨⟨name, range⟩, member, rfl, within, willing⟩ := listed
  refine ⟨range, Std.ExtTreeMap.mem_toList_iff_getElem?_eq_some.mp member, within, ?_⟩
  rw [← peerReturnedNoBlock_eq_true, willing]
  simp

end RequestPlanner

end CometArchive.Blocksync
