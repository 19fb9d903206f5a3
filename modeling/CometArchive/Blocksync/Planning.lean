import CometArchive.Blocksync.PlannerRuns

set_option autoImplicit false

namespace CometArchive.Blocksync

open GoBytes

namespace RequestPlanner

variable {p q : RequestPlanner} {id : PeerID} {height : Int}

section Plan

variable {best windowEnd limit now next : Int} {requests all : List Request} {fuel : Nat}

theorem Consistent.plan (consistent : p.Consistent) {peerID : PeerID} (chosen : p.peerForHeight height = some peerID)
    (missing : height ∉ p.received) :
    Consistent { p with inflight := p.inflight.insert height { peerID, requestedAt := now } } := by
  obtain ⟨range, known, within, willing⟩ := peerForHeight_spec chosen
  refine ⟨consistent.ranges, ?_, ?_, consistent.positive, consistent.noBlocks, consistent.timeouts, ?_⟩
  · intro other request found
    rw [GoMap.get_insert] at found
    split at found
    next same =>
      cases found
      exact ⟨range, known, same ▸ within⟩
    next => exact consistent.assigned other request found
  · intro other member
    rw [GoMap.get_insert, if_neg]
    · exact consistent.apart other member
    · rintro rfl
      exact missing member
  · intro other request found
    rw [GoMap.get_insert] at found
    split at found
    next same =>
      cases found
      exact same ▸ willing
    next => exact consistent.unmarked other request found

theorem Consistent.planLoop (consistent : p.Consistent) :
    (RequestPlanner.planLoop best windowEnd limit now fuel height p requests).1.Consistent := by
  induction fuel generalizing height p requests with
  | zero => exact consistent
  | succ fuel ih =>
    unfold RequestPlanner.planLoop
    split
    · exact consistent
    · split
      · exact ih consistent
      next free =>
        split
        · split <;> exact consistent
        next peerID chosen =>
          apply ih
          apply consistent.plan chosen
          simp only [Bool.or_eq_true, not_or] at free
          simpa using free.2

theorem planLoop_error {err : Err}
    (failed : (planLoop best windowEnd limit now fuel height p requests).2 = .error err) :
    (planLoop best windowEnd limit now fuel height p requests).1 = p ∧ requests = [] := by
  induction fuel generalizing height p requests with
  | zero => cases failed
  | succ fuel ih =>
    unfold planLoop at failed ⊢
    split at failed
    · cases failed
    next going =>
      rw [if_neg going]
      split at failed
      next taken =>
        rw [if_pos taken]
        exact ih failed
      next free =>
        rw [if_neg free]
        split at failed
        next missing =>
          split at failed
          next none =>
            rw [if_pos none]
            exact ⟨rfl, none⟩
          next => cases failed
        next peerID chosen =>
          have later := (ih failed).2
          simp at later

structure Progress (p q : RequestPlanner) (best windowEnd limit now next : Int) (requests : List Request) : Prop where
  -- what the loop has come to, from the planner `p` it started with
  count : (requests.length : Int) ≤ limit
  increasing : requests.Pairwise fun a b => a.height < b.height
  window : ∀ request ∈ requests, next ≤ request.height ∧ request.height ≤ best ∧ request.height ≤ windowEnd
  free : ∀ request ∈ requests, p.inflight[request.height]? = none ∧ request.height ∉ p.received
  received : q.received = p.received
  grown : ∀ (height : Int) (entry : InflightRequest), q.inflight[height]? = some entry ↔
    p.inflight[height]? = some entry ∨
      ∃ request ∈ requests, request.height = height ∧ entry = { peerID := request.peerID, requestedAt := now }

theorem Progress.request {peerID : PeerID} (progress : Progress p q best windowEnd limit now next requests)
    (reached : next ≤ height) (before : ∀ request ∈ requests, request.height < height) (low : height ≤ best)
    (inside : height ≤ windowEnd) (room : (requests.length : Int) < limit) (absent : q.inflight[height]? = none)
    (missing : height ∉ q.received) :
    Progress p { q with inflight := q.inflight.insert height { peerID, requestedAt := now } } best windowEnd limit now next
      (requests ++ [⟨peerID, height⟩]) := by
  have unplanned : p.inflight[height]? = none := by
    cases found : p.inflight[height]? with
    | none => rfl
    | some entry =>
      rw [(progress.grown height entry).mpr (.inl found)] at absent
      cases absent
  refine ⟨?_, ?_, ?_, ?_, progress.received, ?_⟩
  · rw [List.length_append, List.length_singleton]
    omega
  · rw [List.pairwise_append]
    refine ⟨progress.increasing, List.pairwise_singleton .., ?_⟩
    intro request member last same
    rw [List.mem_singleton.mp same]
    exact before request member
  · intro request member
    rcases List.mem_append.mp member with old | new
    · exact progress.window request old
    · rw [List.mem_singleton.mp new]
      exact ⟨reached, low, inside⟩
  · intro request member
    rcases List.mem_append.mp member with old | new
    · exact progress.free request old
    · rw [List.mem_singleton.mp new]
      exact ⟨unplanned, progress.received ▸ missing⟩
  · intro other entry
    dsimp only
    rw [GoMap.get_insert]
    by_cases same : height = other
    · subst same
      rw [if_pos rfl, Option.some.injEq, unplanned]
      constructor
      · rintro rfl
        exact .inr ⟨_, List.mem_append_right _ List.mem_cons_self, rfl, rfl⟩
      · rintro (none | ⟨request, member, sameHeight, rfl⟩)
        · cases none
        · rcases List.mem_append.mp member with old | new
          · exact absurd (before request old) (by omega)
          · rw [List.mem_singleton.mp new]
    · rw [if_neg same, progress.grown]
      constructor
      · rintro (old | ⟨request, member, found⟩)
        · exact .inl old
        · exact .inr ⟨request, List.mem_append_left _ member, found⟩
      · rintro (old | ⟨request, member, sameHeight, found⟩)
        · exact .inl old
        · rcases List.mem_append.mp member with old | new
          · exact .inr ⟨request, old, sameHeight, found⟩
          · rw [List.mem_singleton.mp new] at sameHeight
            exact absurd sameHeight same

/-- Nobody is asked for a height that is not positive, so a loop that wrapped around ends. -/
theorem planLoop_wrapped (consistent : p.Consistent) (low : height ≤ 0)
    (ok : (planLoop best windowEnd limit now fuel height p requests).2 = .ok all) :
    (planLoop best windowEnd limit now fuel height p requests).1 = p ∧ all = requests := by
  cases fuel with
  | zero =>
    cases ok
    exact ⟨rfl, rfl⟩
  | succ fuel =>
    have quiet : (p.inflight.contains height || p.received.contains height) = false := by
      rw [Bool.or_eq_false_iff]
      constructor
      · by_contra taken
        rw [Bool.not_eq_false, Std.ExtTreeMap.contains_eq_isSome_getElem?] at taken
        obtain ⟨request, found⟩ := Option.isSome_iff_exists.mp taken
        obtain ⟨range, known, within⟩ := consistent.assigned height request found
        have positive := consistent.ranges _ range known
        simp only [PeerRange.contains, Bool.and_eq_true, decide_eq_true_eq] at within
        omega
      · by_contra taken
        rw [Bool.not_eq_false, Std.ExtTreeSet.contains_iff_mem] at taken
        have positive := consistent.positive height taken
        omega
    have nobody : p.peerForHeight height = none := by
      cases chosen : p.peerForHeight height with
      | none => rfl
      | some peer =>
        obtain ⟨range, known, within, -⟩ := peerForHeight_spec chosen
        have positive := consistent.ranges _ range known
        simp only [PeerRange.contains, Bool.and_eq_true, decide_eq_true_eq] at within
        omega
    unfold planLoop at ok ⊢
    split at ok
    next stop =>
      rw [if_pos stop]
      cases ok
      exact ⟨rfl, rfl⟩
    next going =>
      rw [if_neg going]
      simp only [quiet, nobody, Bool.false_eq_true, if_false] at ok ⊢
      split at ok
      · cases ok
      next some =>
        rw [if_neg some]
        cases ok
        exact ⟨rfl, rfl⟩

theorem planLoop_progress (consistent : q.Consistent) (progress : Progress p q best windowEnd limit now next requests)
    (positive : 0 < next) (reached : next ≤ height) (bound : height < 2 ^ 63)
    (before : ∀ request ∈ requests, request.height < height)
    (ok : (planLoop best windowEnd limit now fuel height q requests).2 = .ok all) :
    Progress p (planLoop best windowEnd limit now fuel height q requests).1 best windowEnd limit now next all := by
  induction fuel generalizing height q requests with
  | zero =>
    cases ok
    exact progress
  | succ fuel ih =>
    -- the rest of the loop, which goes on at the next height or has wrapped around
    have rest : ∀ (q : RequestPlanner) (requests : List Request), q.Consistent →
        Progress p q best windowEnd limit now next requests → (∀ request ∈ requests, request.height ≤ height) →
        (planLoop best windowEnd limit now fuel (wrap64 (height + 1)) q requests).2 = .ok all →
        Progress p (planLoop best windowEnd limit now fuel (wrap64 (height + 1)) q requests).1 best windowEnd limit now
          next all := by
      intro q requests consistent progress upto ok
      by_cases last : height = 2 ^ 63 - 1
      · obtain ⟨same, whole⟩ := planLoop_wrapped consistent (by rw [last]; decide) ok
        rw [same, whole]
        exact progress
      · rw [wrap64_of_bounds _ (by omega) (by omega)] at ok ⊢
        apply ih consistent progress (by omega) (by omega) _ ok
        intro request member
        have le := upto request member
        omega
    unfold planLoop at ok ⊢
    split at ok
    next stop =>
      rw [if_pos stop]
      cases ok
      exact progress
    next going =>
      rw [if_neg going]
      split at ok
      next taken =>
        rw [if_pos taken]
        exact rest q requests consistent progress (fun request member => (before request member).le) ok
      next free =>
        rw [if_neg free]
        split at ok
        next =>
          split at ok
          · cases ok
          next some =>
            rw [if_neg some]
            cases ok
            exact progress
        next peerID chosen =>
          simp only [Bool.or_eq_true, not_or, Bool.not_eq_true] at free
          rw [Std.ExtTreeMap.contains_eq_isSome_getElem?, Option.isSome_eq_false_iff, Option.isNone_iff_eq_none] at free
          have missing : height ∉ q.received := by
            intro member
            rw [← Std.ExtTreeSet.contains_iff_mem, free.2] at member
            cases member
          rw [not_not] at going
          refine rest _ _ (consistent.plan chosen missing) ?_ ?_ ok
          · exact progress.request reached before going.1 going.2.1 going.2.2 free.1 missing
          · intro request member
            rcases List.mem_append.mp member with old | new
            · exact (before request old).le
            · rw [List.mem_singleton.mp new]

structure Planned (p q : RequestPlanner) (next limit now : Int) (requests : List Request) : Prop where
  -- the requests of one `PlanAt`, and what they add to the planner
  count : requests ≠ [] → (requests.length : Int) ≤ limit
  increasing : requests.Pairwise fun a b => a.height < b.height
  window : ∀ request ∈ requests, next ≤ request.height ∧ request.height ≤ min p.bestHeight (next + limit - 1)
  free : ∀ request ∈ requests, p.inflight[request.height]? = none ∧ request.height ∉ p.received
  grown : ∀ (height : Int) (entry : InflightRequest), q.inflight[height]? = some entry ↔
    p.inflight[height]? = some entry ∨
      ∃ request ∈ requests, request.height = height ∧ entry = { peerID := request.peerID, requestedAt := now }

theorem planAt_cases (p : RequestPlanner) (next limit now : Int) :
    (p.planAt next limit now).1 = p ∧ next ≤ 0 ∧ (∃ err, (p.planAt next limit now).2 = .error err) ∨
    0 < next ∧ ((p.planAt next limit now).1 = p.pruneMarkersBelow next ∧
        ((∃ err, (p.planAt next limit now).2 = .error err) ∨ (p.planAt next limit now).2 = .ok []) ∨
      0 < limit ∧ next ≤ p.bestHeight ∧ ∃ windowEnd, (next + limit - 1 < 2 ^ 63 → windowEnd = next + limit - 1) ∧
        (2 ^ 63 ≤ next + limit - 1 → next < 2 ^ 63 → windowEnd = p.bestHeight) ∧
        p.planAt next limit now =
          planLoop p.bestHeight windowEnd limit now (limit.toNat + 1) next (p.pruneMarkersBelow next) []) := by
  unfold planAt
  split
  next low => exact .inl ⟨rfl, low, _, rfl⟩
  next positive =>
    refine .inr ⟨by omega, ?_⟩
    dsimp only
    split
    · exact .inl ⟨rfl, .inr rfl⟩
    next some =>
      split
      · exact .inl ⟨rfl, .inl ⟨_, rfl⟩⟩
      next few =>
        split
        · exact .inl ⟨rfl, .inl ⟨_, rfl⟩⟩
        · split
          · exact .inl ⟨rfl, .inr rfl⟩
          next ahead =>
            refine .inr ⟨by omega, not_lt.mp ahead, _, ?_, ?_, rfl⟩
            · intro fits
              rw [wrap64_of_bounds _ (by omega) (by omega), if_neg (by omega)]
            · intro above below
              unfold maxRequestLimit at few
              have wrapped : wrap64 (next + limit - 1) < next := by
                rw [wrap64, Int.bmod_def]
                split <;> omega
              rw [if_pos wrapped]
              rfl

theorem Consistent.planAt (consistent : p.Consistent) (next limit now : Int) :
    (p.planAt next limit now).1.Consistent := by
  have pruned := consistent.of_drops (p.pruneMarkersBelow_drops next) rfl
  rcases p.planAt_cases next limit now with ⟨same, -⟩ | ⟨-, ⟨same, -⟩ | ⟨-, -, windowEnd, -, -, same⟩⟩
  · rw [same]
    exact consistent
  · rw [same]
    exact pruned
  · rw [same]
    exact pruned.planLoop

theorem planAt_error {err : Err} (failed : (p.planAt next limit now).2 = .error err) :
    (p.planAt next limit now).1.inflight = p.inflight := by
  rcases p.planAt_cases next limit now with ⟨same, -⟩ | ⟨-, ⟨same, -⟩ | ⟨-, -, windowEnd, -, -, same⟩⟩
  · rw [same]
  · rw [same]
    rfl
  · rw [same] at failed ⊢
    rw [(planLoop_error failed).1]
    rfl

theorem planAt_planned (consistent : p.Consistent) (fits : next + limit - 1 < 2 ^ 63)
    (ok : (p.planAt next limit now).2 = .ok requests) :
    Planned p (p.planAt next limit now).1 next limit now requests := by
  have pruned := consistent.of_drops (p.pruneMarkersBelow_drops next) rfl
  rcases p.planAt_cases next limit now with ⟨-, -, err, failed⟩ | ⟨positive, ⟨same, ended⟩ | ⟨some, -, windowEnd, ends, -, same⟩⟩
  · rw [ok] at failed
    cases failed
  · have none : requests = [] := by
      rcases ended with ⟨err, failed⟩ | empty
      · rw [ok] at failed
        cases failed
      · rw [ok] at empty
        cases empty
        rfl
    subst none
    rw [same]
    refine ⟨by simp, .nil, by simp, by simp, ?_⟩
    intro height entry
    simp [RequestPlanner.pruneMarkersBelow]
  · rw [same] at ok ⊢
    cases ends fits
    have start : Progress (p.pruneMarkersBelow next) (p.pruneMarkersBelow next) p.bestHeight (next + limit - 1) limit now
        next [] := by
      refine ⟨by simp; omega, .nil, by simp, by simp, rfl, ?_⟩
      intro height entry
      simp
    obtain ⟨count, increasing, window, free, -, grown⟩ :=
      planLoop_progress pruned start positive le_rfl (by omega) (by simp) ok
    refine ⟨fun _ => count, increasing, ?_, ?_, grown⟩
    · intro request member
      have within := window request member
      exact ⟨within.1, le_min within.2.1 within.2.2⟩
    · intro request member
      refine ⟨(free request member).1, ?_⟩
      intro received
      -- a marker that is pruned lies below the heights that are planned
      have within := window request member
      exact (free request member).2 ((GoMap.mem_dropWhere ..).mpr ⟨received, by simpa using within.1⟩)

theorem planLoop_rest (p : RequestPlanner) (requests : List Request) :
    (planLoop best windowEnd limit now fuel height p requests).1 =
      { p with inflight := (planLoop best windowEnd limit now fuel height p requests).1.inflight } := by
  induction fuel generalizing height p requests with
  | zero => rfl
  | succ fuel ih =>
    unfold planLoop
    split
    · rfl
    · split
      · exact ih p requests
      · split
        · split <;> rfl
        · exact ih _ _

theorem planAt_markers (p : RequestPlanner) (next limit now : Int) :
    (p.planAt next limit now).1.peers = p.peers ∧
      (∀ height, height ∈ (p.planAt next limit now).1.received → height ∈ p.received ∧ (0 < next → next ≤ height)) ∧
      (∀ id height, Marked (p.planAt next limit now).1.noBlocks id height →
        Marked p.noBlocks id height ∧ (0 < next → next ≤ height)) ∧
      ∀ id height, Marked (p.planAt next limit now).1.timeouts id height →
        Marked p.timeouts id height ∧ (0 < next → next ≤ height) := by
  -- but for the requests in flight, `PlanAt` only prunes markers
  -- all but the requests in flight is as it was, or as pruning left it
  have rest : (p.planAt next limit now).1 = p ∧ next ≤ 0 ∨ (p.planAt next limit now).1 =
      { p.pruneMarkersBelow next with inflight := (p.planAt next limit now).1.inflight } := by
    rcases p.planAt_cases next limit now with ⟨same, low, -⟩ | ⟨-, ⟨same, -⟩ | ⟨-, -, windowEnd, -, -, same⟩⟩
    · exact .inl ⟨same, low⟩
    · rw [same]
      exact .inr rfl
    · rw [same]
      exact .inr (planLoop_rest _ _)
  generalize (p.planAt next limit now).1 = q at rest ⊢
  rcases rest with ⟨rfl, low⟩ | same
  · exact ⟨rfl, fun _ member => ⟨member, by omega⟩, fun _ _ marked => ⟨marked, by omega⟩, fun _ _ marked => ⟨marked, by omega⟩⟩
  · rw [same]
    refine ⟨rfl, ?_, ?_, ?_⟩
    · intro height member
      have kept := (GoMap.mem_dropWhere ..).mp member
      exact ⟨kept.1, fun _ => by simpa using kept.2⟩
    · intro id height marked
      have kept := marked_pruneHeights.mp marked
      exact ⟨kept.1, fun _ => kept.2⟩
    · intro id height marked
      have kept := marked_pruneHeights.mp marked
      exact ⟨kept.1, fun _ => kept.2⟩

theorem planLoop_new {requests : List Request} (distinct : (requests.map (·.height)).Nodup)
    (listed : ∀ request ∈ requests, p.inflight.contains request.height = true) :
    (∀ (other : Int) (entry : InflightRequest), p.inflight[other]? = some entry →
      (planLoop best windowEnd limit now fuel height p requests).1.inflight[other]? = some entry) ∧
    ∀ all, (planLoop best windowEnd limit now fuel height p requests).2 = .ok all →
      (all.map (·.height)).Nodup ∧ ∀ request ∈ all, request ∈ requests ∨ p.inflight[request.height]? = none := by
  induction fuel generalizing height p requests with
  | zero =>
    refine ⟨fun _ _ found => found, ?_⟩
    rintro _ ⟨⟩
    exact ⟨distinct, fun _ => .inl⟩
  | succ fuel ih =>
    unfold planLoop
    split
    · refine ⟨fun _ _ found => found, ?_⟩
      rintro _ ⟨⟩
      exact ⟨distinct, fun _ => .inl⟩
    · split
      · exact ih distinct listed
      next free =>
        rw [Bool.or_eq_true, not_or, Bool.not_eq_true] at free
        have absent : p.inflight[height]? = none := by
          have missing := free.1
          rwa [Std.ExtTreeMap.contains_eq_isSome_getElem?, Option.isSome_eq_false_iff, Option.isNone_iff_eq_none] at missing
        split
        · split
          · exact ⟨fun _ _ found => found, fun all failed => by cases failed⟩
          · refine ⟨fun _ _ found => found, ?_⟩
            rintro _ ⟨⟩
            exact ⟨distinct, fun _ => .inl⟩
        next peerID chosen =>
          have old : ∀ (other : Int) (entry : InflightRequest), p.inflight[other]? = some entry →
              (p.inflight.insert height { peerID, requestedAt := now })[other]? = some entry := by
            intro other entry found
            rw [GoMap.get_insert, if_neg]
            · exact found
            · rintro rfl
              rw [absent] at found
              cases found
          have again : ((requests ++ [(⟨peerID, height⟩ : Request)]).map (·.height)).Nodup := by
            rw [List.map_append, List.nodup_append]
            refine ⟨distinct, List.nodup_singleton _, ?_⟩
            intro other before _ here same
            obtain ⟨request, member, rfl⟩ := List.mem_map.mp before
            rw [List.mem_singleton.mp here] at same
            have contained := listed request member
            rw [same, free.1] at contained
            cases contained
          obtain ⟨keeps, adds⟩ := @ih { p with inflight := p.inflight.insert height { peerID, requestedAt := now } }
            (wrap64 (height + 1)) (requests ++ [⟨peerID, height⟩]) again (by
              intro request member
              rw [Std.ExtTreeMap.contains_insert]
              rcases List.mem_append.mp member with before | here
              · simp [listed request before]
              · simp [List.mem_singleton.mp here])
          refine ⟨fun other entry found => keeps other entry (old other entry found), ?_⟩
          intro all ok
          obtain ⟨whole, new⟩ := adds all ok
          refine ⟨whole, ?_⟩
          intro request member
          rcases new request member with before | missing
          · rcases List.mem_append.mp before with before | here
            · exact .inl before
            · rw [List.mem_singleton.mp here]
              exact .inr absent
          · right
            cases found : p.inflight[request.height]? with
            | none => rfl
            | some entry =>
              rw [old _ _ found] at missing
              cases missing

theorem planAt_new (p : RequestPlanner) (next limit now : Int) :
    (∀ (other : Int) (entry : InflightRequest), p.inflight[other]? = some entry →
      (p.planAt next limit now).1.inflight[other]? = some entry) ∧
    ∀ all, (p.planAt next limit now).2 = .ok all →
      (all.map (·.height)).Nodup ∧ ∀ request ∈ all, p.inflight[request.height]? = none := by
  rcases p.planAt_cases next limit now with ⟨same, -, err, failed⟩ | ⟨-, ⟨same, ended⟩ | ⟨-, -, windowEnd, -, -, same⟩⟩
  · rw [same, failed]
    exact ⟨fun _ _ found => found, fun all ok => by cases ok⟩
  · rw [same]
    refine ⟨fun _ _ found => found, ?_⟩
    intro all ok
    rcases ended with ⟨err, failed⟩ | none
    · rw [failed] at ok
      cases ok
    · rw [none] at ok
      cases ok
      simp
  · rw [same]
    obtain ⟨keeps, adds⟩ := @planLoop_new (p.pruneMarkersBelow next) next p.bestHeight windowEnd limit now
      (limit.toNat + 1) [] .nil (by simp)
    refine ⟨keeps, ?_⟩
    intro all ok
    obtain ⟨distinct, new⟩ := adds all ok
    exact ⟨distinct, fun request member => (new request member).resolve_left (by simp)⟩

theorem bestHeight_lt {bound : Int} (positive : 0 < bound)
    (ranges : ∀ (id : PeerID) (range : PeerRange), p.peers[id]? = some range → range.height < bound) :
    p.bestHeight < bound := by
  have listed : ∀ entry ∈ p.peers.toList, entry.2.height < bound := fun entry member =>
    ranges entry.1 entry.2 (Std.ExtTreeMap.mem_toList_iff_getElem?_eq_some.mp member)
  unfold bestHeight
  generalize p.peers.toList = entries at listed
  have fold : ∀ best, best < bound →
      entries.foldl (fun best entry => if best < entry.2.height then entry.2.height else best) best < bound := by
    induction entries with
    | nil => exact fun best below => below
    | cons entry rest ih =>
      intro best below
      obtain ⟨here, others⟩ := List.forall_mem_cons.mp listed
      rw [List.foldl_cons]
      apply ih others
      split
      · exact here
      · exact below
  exact fold 0 positive

theorem planAt_window (consistent : p.Consistent)
    (ranges : ∀ (id : PeerID) (range : PeerRange), p.peers[id]? = some range → range.height < 2 ^ 63)
    {entry : InflightRequest} (found : (p.planAt next limit now).1.inflight[height]? = some entry) :
    p.inflight[height]? = some entry ∨ next ≤ height ∧ height < next + limit := by
  have pruned := consistent.of_drops (p.pruneMarkersBelow_drops next) rfl
  have best := bestHeight_lt (by norm_num) ranges
  cases ended : (p.planAt next limit now).2 with
  | error err =>
    rw [planAt_error ended] at found
    exact .inl found
  | ok requests =>
    rcases p.planAt_cases next limit now with ⟨same, -⟩ | ⟨positive, ⟨same, -⟩ | ⟨some, ahead, windowEnd, fits, wraps, same⟩⟩
    · rw [same] at found
      exact .inl found
    · rw [same] at found
      exact .inl found
    · rw [same] at ended found
      have start : Progress (p.pruneMarkersBelow next) (p.pruneMarkersBelow next) p.bestHeight windowEnd limit now next [] := by
        refine ⟨by simp; omega, .nil, by simp, by simp, rfl, ?_⟩
        intro height entry
        simp
      have progress := planLoop_progress pruned start positive le_rfl (by omega) (by simp) ended
      rcases (progress.grown height entry).mp found with old | ⟨request, member, rfl, -⟩
      · exact .inl old
      · have within := progress.window request member
        right
        by_cases room : next + limit - 1 < 2 ^ 63
        · rw [fits room] at within
          omega
        · omega

end Plan

end RequestPlanner

inductive PlannerOp where
  | upsertPeer (id : PeerID) (advertised : PeerRange)
  | removePeer (id : PeerID)
  | markDone (height : Int)
  | markFailed (height : Int)
  | markReceived (height : Int)
  | markNoBlock (id : PeerID) (height : Int)
  | expireInflight (now timeout : Int)
  | planAt (nextHeight limit now : Int)

def RequestPlanner.apply (p : RequestPlanner) : PlannerOp → RequestPlanner
  | .upsertPeer id advertised => (p.upsertPeer id advertised).1
  | .removePeer id => p.removePeer id
  | .markDone height => p.markDone height
  | .markFailed height => p.markFailed height
  | .markReceived height => p.markReceived height
  | .markNoBlock id height => p.markNoBlock id height
  | .expireInflight now timeout => (p.expireInflight now timeout).1
  | .planAt nextHeight limit now => (p.planAt nextHeight limit now).1

namespace RequestPlanner

variable {p : RequestPlanner}

theorem markNoBlock_peers (p : RequestPlanner) (id : PeerID) (height : Int) :
    (p.markNoBlock id height).peers = p.peers := by
  unfold markNoBlock
  split
  · rfl
  · split
    · rfl
    · split <;> rfl

theorem Consistent.apply (consistent : p.Consistent) (op : PlannerOp) : (p.apply op).Consistent := by
  cases op with
  | upsertPeer id advertised => exact consistent.upsertPeer id advertised
  | removePeer id => exact consistent.removePeer id
  | markDone height => exact consistent.of_drops (p.markDone_drops height) rfl
  | markFailed height => exact consistent.of_drops (p.markFailed_drops height) rfl
  | markReceived height => exact consistent.markReceived height
  | markNoBlock id height => exact consistent.of_drops (p.markNoBlock_drops id height) (p.markNoBlock_peers id height)
  | expireInflight now timeout =>
    obtain ⟨drops, peers, -⟩ := p.expireInflight_spec now timeout
    exact consistent.of_drops drops peers
  | planAt nextHeight limit now => exact consistent.planAt nextHeight limit now

theorem newRequestPlanner_consistent : newRequestPlanner.Consistent := by
  refine ⟨?_, ?_, ?_, ?_, ?_, ?_, ?_⟩
  all_goals simp [newRequestPlanner, Marked]

theorem foldl_consistent (ops : List PlannerOp) : (ops.foldl RequestPlanner.apply newRequestPlanner).Consistent := by
  induction ops using List.reverseRecOn with
  | nil => exact newRequestPlanner_consistent
  | append_singleton ops op ih =>
    rw [List.foldl_append]
    exact ih.apply op

end RequestPlanner

/-- The planner stays consistent whatever is called, and a plan adds exactly its requests. -/
theorem planner_invariant (ops : List PlannerOp) (next limit now : Int) :
    (ops.foldl RequestPlanner.apply newRequestPlanner).Consistent ∧
    (∀ requests, next + limit - 1 < 2 ^ 63 →
      ((ops.foldl RequestPlanner.apply newRequestPlanner).planAt next limit now).2 = .ok requests →
      RequestPlanner.Planned (ops.foldl RequestPlanner.apply newRequestPlanner)
        ((ops.foldl RequestPlanner.apply newRequestPlanner).planAt next limit now).1 next limit now requests) ∧
    ∀ err, ((ops.foldl RequestPlanner.apply newRequestPlanner).planAt next limit now).2 = .error err →
      ((ops.foldl RequestPlanner.apply newRequestPlanner).planAt next limit now).1.inflight =
        (ops.foldl RequestPlanner.apply newRequestPlanner).inflight := by
  have consistent := RequestPlanner.foldl_consistent ops
  refine ⟨consistent, ?_, ?_⟩
  · intro requests fits ok
    exact RequestPlanner.planAt_planned consistent fits ok
  · intro err failed
    exact RequestPlanner.planAt_error failed

def refusedOps : List PlannerOp :=
  [.upsertPeer "a" ⟨1, 3⟩, .upsertPeer "b" ⟨1, 2⟩, .planAt 1 1 0, .markNoBlock "a" 1]

theorem planner_invariant_refused :
    RequestPlanner.Planned (refusedOps.foldl RequestPlanner.apply newRequestPlanner)
      ((refusedOps.foldl RequestPlanner.apply newRequestPlanner).planAt 1 2 5).1 1 2 5 [⟨"b", 1⟩, ⟨"a", 2⟩] :=
  (planner_invariant refusedOps 1 2 5).2.1 _ (by decide) (by decide)

end CometArchive.Blocksync
