import CometArchive.Archive.Manifest

set_option autoImplicit false

namespace CometArchive.Archive

open GoBytes GoError

def Adjoining (segments : List SegmentManifest) : Prop :=
  -- each segment starts where the one before it ends
  segments.IsChain fun a b => b.firstHeight = a.lastHeight + 1

/-- What `slices.SortFunc` promises: it says nothing about segments that compare equal. -/
structure Sorts (sort : List SegmentManifest → List SegmentManifest) : Prop where
  perm : ∀ segments, (sort segments).Perm segments
  sorted : ∀ segments, (sort segments).Pairwise fun a b => a.firstHeight ≤ b.firstHeight

theorem insertionSort_sorts : Sorts fun segments => segments.insertionSort fun a b => a.firstHeight ≤ b.firstHeight where
  perm segments := List.perm_insertionSort _ _
  sorted segments := by
    have total : Std.Total fun a b : SegmentManifest => a.firstHeight ≤ b.firstHeight := ⟨fun a b => Int.le_total _ _⟩
    have trans : IsTrans SegmentManifest fun a b => a.firstHeight ≤ b.firstHeight := ⟨fun _ _ _ => Int.le_trans⟩
    exact List.pairwise_insertionSort _ _

def newManifestBy (sort : List SegmentManifest → List SegmentManifest) (chainID : String)
    (segments : List SegmentManifest) (now : Int) : Manifest × Except Err Unit :=
  let sorted := sort segments
  let m : Manifest :=
    { revision := "", sourceKey := ""
      version := manifestVersion
      chainID
      firstHeight := (sorted.head?.map (·.firstHeight)).getD 0
      lastHeight := (sorted.getLast?.map (·.lastHeight)).getD 0
      createdAt := now
      updatedAt := now
      segments := sorted }
  (m, m.validate)

theorem newManifest_eq (chainID : String) (segments : List SegmentManifest) (now : Int) :
    newManifest chainID segments now =
      newManifestBy (fun segments => segments.insertionSort fun a b => a.firstHeight ≤ b.firstHeight) chainID segments now :=
  rfl

section Order

variable {segments sorted : List SegmentManifest} {next stop : Int}

theorem Tiles.adjoining (tiles : Tiles next segments stop) : Adjoining segments := by
  induction segments generalizing next with
  | nil => exact .nil
  | cons head rest ih =>
    obtain ⟨-, tiles⟩ := tiles
    cases rest with
    | nil => exact .singleton head
    | cons second rest => exact .cons_cons tiles.1 (ih tiles)

theorem Adjoining.tiles {head : SegmentManifest} {rest : List SegmentManifest} (adjoining : Adjoining (head :: rest)) :
    Tiles head.firstHeight (head :: rest) (((head :: rest).getLast (by simp)).lastHeight + 1) := by
  induction rest generalizing head with
  | nil => exact ⟨rfl, rfl⟩
  | cons second rest ih =>
    obtain ⟨follows, adjoining⟩ := List.isChain_cons_cons.mp adjoining
    have tiles := ih adjoining
    rw [follows] at tiles
    exact ⟨rfl, tiles⟩

theorem Adjoining.apart (adjoining : Adjoining segments) (valid : ∀ segment ∈ segments, segment.Valid) :
    segments.Pairwise fun a b => a.lastHeight < b.firstHeight := by
  cases segments with
  | nil => exact .nil
  | cons head rest => exact adjoining.tiles.apart valid

theorem Adjoining.sort_eq (adjoining : Adjoining segments) (valid : ∀ segment ∈ segments, segment.Valid)
    (perm : sorted.Perm segments) (ordered : sorted.Pairwise fun a b => a.firstHeight ≤ b.firstHeight) :
    sorted = segments := by
  -- whatever a sort does with equal segments, there are none
  have increasing : segments.Pairwise fun a b => a.firstHeight < b.firstHeight := by
    refine (adjoining.apart valid).imp_of_mem ?_
    intro a b member _ apart
    have last := (valid a member).last
    omega
  have distinct : (segments.map (·.firstHeight)).Nodup := by
    refine List.pairwise_map.mpr (increasing.imp ?_)
    intro a b less
    exact ne_of_lt less
  refine List.Perm.eq_of_pairwise ?_ ordered (increasing.imp fun less => le_of_lt less) perm
  intro a b listed member below above
  exact List.inj_on_of_nodup_map distinct (perm.mem_iff.mp listed) member (le_antisymm below above)

theorem Tiles.getLast {prev : SegmentManifest} (tiles : Tiles next segments stop) (last : segments.getLast? = some prev) :
    prev.lastHeight + 1 = stop := by
  induction segments generalizing next with
  | nil => cases last
  | cons head rest ih =>
    cases rest with
    | nil =>
      cases last
      exact tiles.2
    | cons second rest => exact ih tiles.2 (by rwa [List.getLast?_cons_cons] at last)

theorem Tiles.ends (tiles : Tiles next segments stop) (filled : segments ≠ []) :
    (segments.head?.map (·.firstHeight)).getD 0 = next ∧ (segments.getLast?.map (·.lastHeight)).getD 0 + 1 = stop := by
  have last := tiles.getLast (List.getLast?_eq_getLast_of_ne_nil filled)
  rw [List.getLast?_eq_getLast_of_ne_nil filled]
  refine ⟨?_, last⟩
  cases segments with
  | nil => exact absurd rfl filled
  | cons head rest => exact tiles.1

end Order

section New

variable {chainID : String} {segments : List SegmentManifest} {sort : List SegmentManifest → List SegmentManifest}
  {now : Int}

theorem newManifestBy_eq_ok (named : validateArchiveChainID chainID = .ok ())
    (valid : ∀ segment ∈ sort segments, segment.Valid) :
    (newManifestBy sort chainID segments now).2 = .ok () ↔
      ((sort segments).map (·.key)).Nodup ∧ Adjoining (sort segments) := by
  have chain : chainID ≠ "" := by
    rintro rfl
    revert named
    decide
  change Manifest.validate _ = .ok () ↔ _
  rw [Manifest.validate_eq_ok]
  constructor
  · intro built
    refine ⟨built.keys, ?_⟩
    rcases built.range with ⟨empty, -⟩ | ⟨-, -, -, tiles⟩
    · change sort segments = [] at empty
      rw [empty]
      exact .nil
    · exact tiles.adjoining
  · rintro ⟨keys, adjoining⟩
    refine ⟨rfl, ⟨chain, named⟩, .inr (.inr le_rfl), valid, keys, ?_⟩
    dsimp only
    cases sorted : sort segments with
    | nil => exact .inl ⟨rfl, rfl, rfl⟩
    | cons head rest =>
      rw [sorted] at adjoining valid
      have tiles := adjoining.tiles
      have bounds := (tiles.bounds valid).2 head List.mem_cons_self
      have first := (valid head List.mem_cons_self).first
      have last := (valid head List.mem_cons_self).last
      refine .inr ⟨by simp, first, ?_, ?_⟩
      · rw [List.getLast?_eq_getLast_of_ne_nil (by simp)]
        change head.firstHeight ≤ ((head :: rest).getLast _).lastHeight
        omega
      · rw [List.getLast?_eq_getLast_of_ne_nil (by simp)]
        exact tiles

variable (chainID now) in
theorem newManifestBy_tiles {next stop : Int} (sorts : Sorts sort) (valid : ∀ segment ∈ segments, segment.Valid)
    (tiles : Tiles next segments (stop + 1)) (filled : segments ≠ []) :
    (newManifestBy sort chainID segments now).1.segments = segments ∧
      (newManifestBy sort chainID segments now).1.firstHeight = next ∧
      (newManifestBy sort chainID segments now).1.lastHeight = stop := by
  have same := tiles.adjoining.sort_eq valid (sorts.perm segments) (sorts.sorted segments)
  obtain ⟨first, last⟩ := tiles.ends filled
  simp only [newManifestBy, same, true_and]
  exact ⟨first, by omega⟩

/-- `NewManifest` accepts the tilings, in whatever order the segments come and whatever its sort does. -/
theorem newManifest_accepts_tilings (named : validateArchiveChainID chainID = .ok ())
    (valid : ∀ segment ∈ segments, segment.validate = .ok ()) (sorts : Sorts sort) (now : Int) :
    ((newManifestBy sort chainID segments now).2 = .ok () ↔
      (segments.map (·.key)).Nodup ∧ ∃ ordering, ordering.Perm segments ∧ Adjoining ordering) ∧
    ((newManifestBy sort chainID segments now).2 = .ok () → ∀ other sort' now', other.Perm segments → Sorts sort' →
      (newManifestBy sort' chainID other now').2 = .ok () ∧
      (newManifestBy sort' chainID other now').1.segments = (newManifestBy sort chainID segments now).1.segments ∧
      (newManifestBy sort' chainID other now').1.firstHeight = (newManifestBy sort chainID segments now).1.firstHeight ∧
      (newManifestBy sort' chainID other now').1.lastHeight = (newManifestBy sort chainID segments now).1.lastHeight) := by
  simp only [SegmentManifest.validate_eq_ok] at valid
  have validOf {other : List SegmentManifest} (perm : other.Perm segments) : ∀ segment ∈ other, segment.Valid :=
    fun segment member => valid segment (perm.mem_iff.mp member)
  have sorted := sorts.perm segments
  have checked : (newManifestBy sort chainID segments now).2 = .ok () ↔ _ := newManifestBy_eq_ok named (validOf sorted)
  have keys : ((sort segments).map (·.key)).Nodup ↔ (segments.map (·.key)).Nodup := (sorted.map _).nodup_iff
  constructor
  · rw [checked, keys]
    constructor
    · rintro ⟨distinct, adjoining⟩
      exact ⟨distinct, sort segments, sorted, adjoining⟩
    · rintro ⟨distinct, ordering, perm, adjoining⟩
      have same := adjoining.sort_eq (validOf perm) (sorted.trans perm.symm) (sorts.sorted segments)
      rw [same]
      exact ⟨distinct, adjoining⟩
  · intro built other sort' now' perm sorts'
    obtain ⟨distinct, adjoining⟩ := checked.mp built
    have again := (sorts'.perm other).trans perm
    have same := adjoining.sort_eq (validOf sorted) (again.trans sorted.symm) (sorts'.sorted other)
    refine ⟨?_, same, ?_, ?_⟩
    · rw [newManifestBy_eq_ok named (validOf again), same]
      exact ⟨distinct, adjoining⟩
    · simp only [newManifestBy, same]
    · simp only [newManifestBy, same]

def unitSegment (key : String) (height : Int) : SegmentManifest where
  key := key
  firstHeight := height
  lastHeight := height
  compression := compressionNone
  sizeBytes := 1
  sha256 := hexEncode (List.replicate 32 0)
  blocks := [{ height, hash := hexEncode (List.replicate 32 1), offset := 0 }]

theorem newManifest_accepts_units :
    (newManifest "c" [unitSegment "b" 2, unitSegment "a" 1] 0).2 = .ok () ∧
    (newManifest "c" [unitSegment "a" 1, unitSegment "b" 2] 1).1.segments =
      (newManifest "c" [unitSegment "b" 2, unitSegment "a" 1] 0).1.segments := by
  obtain ⟨accepts, same⟩ := newManifest_accepts_tilings (by decide : validateArchiveChainID "c" = .ok ())
    (by decide +kernel : ∀ segment ∈ [unitSegment "b" 2, unitSegment "a" 1], segment.validate = .ok ())
    insertionSort_sorts 0
  have built := accepts.mpr ⟨by decide, [unitSegment "a" 1, unitSegment "b" 2], List.Perm.swap _ _ _,
    .cons_cons rfl (.singleton _)⟩
  exact ⟨built, (same built [unitSegment "a" 1, unitSegment "b" 2] _ 1 (List.Perm.swap _ _ _) insertionSort_sorts).2.1⟩

end New

section Append

def Manifest.appendInPlace (m : Manifest) (segment : SegmentManifest) (now : Int) : Except Err Unit × Manifest :=
  -- `AppendSegmentInPlace`: its error, and the manifest that its receiver points to when it returns
  let m := if m.version = 0 then { m with version := manifestVersion } else m
  match wrapping "segment" segment.validate with
  | .error err => (.error err, m)
  | .ok () =>
    match m.segments.getLast? with
    | none =>
      (.ok (), { m with
        segments := m.segments ++ [segment]
        firstHeight := segment.firstHeight
        lastHeight := segment.lastHeight
        createdAt := if m.createdAt = 0 then now else m.createdAt
        updatedAt := now })
    | some prev =>
      if segment.firstHeight ≠ prev.lastHeight + 1 then
        (.error (.new s!"segment starts at {segment.firstHeight}, expected {prev.lastHeight + 1}"), m)
      else if segment.key = prev.key then (.error (.new s!"duplicate segment key {quoted segment.key}"), m)
      else (.ok (), { m with segments := m.segments ++ [segment], lastHeight := segment.lastHeight, updatedAt := now })

variable {m : Manifest} {segment : SegmentManifest} {now : Int}

theorem Manifest.appendInPlace_eq : m.appendInPlace segment now =
    match m.appendSegmentInPlace segment now with
    | .ok m' => (.ok (), m')
    | .error err => (.error err, if m.version = 0 then { m with version := manifestVersion } else m) := by
  unfold appendInPlace appendSegmentInPlace
  generalize (if m.version = 0 then { m with version := manifestVersion } else m) = m
  dsimp only
  cases wrapping "segment" segment.validate with
  | error err => rfl
  | ok _ =>
    cases last : m.segments.getLast? with
    | none => rfl
    | some prev =>
      dsimp only
      by_cases follows : segment.firstHeight ≠ prev.lastHeight + 1
      · rw [if_pos follows, refuse, if_pos follows]
        rfl
      · rw [if_neg follows, refuse, if_neg follows]
        by_cases same : segment.key = prev.key
        · rw [if_pos same, refuse, if_pos same]
          rfl
        · rw [if_neg same, refuse, if_neg same]
          rfl

theorem Tiles.concat {segments : List SegmentManifest} {next stop : Int} (tiles : Tiles next segments stop)
    (follows : segment.firstHeight = stop) : Tiles next (segments ++ [segment]) (segment.lastHeight + 1) := by
  induction segments generalizing next with
  | nil => exact ⟨follows.trans tiles.symm, rfl⟩
  | cons head rest ih => exact ⟨tiles.1, ih tiles.2⟩

/-- The checks against the last segment suffice, but for the keys of those before it. -/
theorem Manifest.Valid.append {m' : Manifest} (valid : m.Valid) (later : m.createdAt ≤ now)
    (unused : ∀ other ∈ m.segments, other.key ≠ segment.key) (ok : m.appendSegmentInPlace segment now = .ok m') :
    m'.Valid := by
  obtain ⟨segmentValid, segments, last, chainID, -, -, -, -⟩ := appendSegmentInPlace_spec ok
  have versioned : m.version ≠ 0 := by rw [valid.version]; decide
  simp only [appendSegmentInPlace, if_neg versioned, then_eq_ok] at ok
  obtain ⟨-, ok⟩ := ok
  have members : ∀ other ∈ m'.segments, other.Valid := by
    rw [segments]
    intro other member
    rcases List.mem_append.mp member with old | new
    · exact valid.segments other old
    · rwa [List.mem_singleton.mp new]
  have keys : (m'.segments.map (·.key)).Nodup := by
    rw [segments, List.map_append, List.nodup_append]
    refine ⟨valid.keys, by simp, ?_⟩
    intro old listed new appended
    obtain ⟨other, member, rfl⟩ := List.mem_map.mp listed
    obtain rfl : new = segment.key := by simpa using appended
    exact unused other member
  have filled : m'.segments ≠ [] := by simp [segments]
  have first := segmentValid.first
  have ordered := segmentValid.last
  split at ok
  next empty =>
    rw [List.getLast?_eq_none_iff] at empty
    cases ok
    refine ⟨valid.version, valid.chainID, .inr (.inr ?_), members, keys, .inr ⟨filled, first, ordered, ?_⟩⟩
    · dsimp only
      split <;> omega
    · rw [segments, empty]
      exact ⟨rfl, rfl⟩
  next prev found =>
    simp only [then_eq_ok, refuse_eq_ok, not_not] at ok
    obtain ⟨follows, -, ok⟩ := ok
    cases ok
    rcases valid.range with ⟨empty, -⟩ | ⟨-, positive, low, tiles⟩
    · rw [empty] at found
      cases found
    · have reached := tiles.getLast found
      refine ⟨valid.version, valid.chainID, .inr (.inr later), members, keys, .inr ⟨filled, positive, ?_, ?_⟩⟩
      · change m.firstHeight ≤ segment.lastHeight
        omega
      · exact tiles.concat (by omega)

theorem Manifest.Valid.rebuilt {sort : List SegmentManifest → List SegmentManifest} (valid : m.Valid)
    (sorts : Sorts sort) (now : Int) :
    (newManifestBy sort m.chainID m.segments now).2 = .ok () ∧
      (newManifestBy sort m.chainID m.segments now).1.segments = m.segments ∧
      (newManifestBy sort m.chainID m.segments now).1.firstHeight = m.firstHeight ∧
      (newManifestBy sort m.chainID m.segments now).1.lastHeight = m.lastHeight := by
  have adjoining : Adjoining m.segments := by
    rcases valid.range with ⟨empty, -⟩ | ⟨-, -, -, tiles⟩
    · rw [empty]
      exact .nil
    · exact tiles.adjoining
  have same : sort m.segments = m.segments :=
    adjoining.sort_eq valid.segments (sorts.perm m.segments) (sorts.sorted m.segments)
  constructor
  · rw [newManifestBy_eq_ok valid.chainID.2 (by rw [same]; exact valid.segments), same]
    exact ⟨valid.keys, adjoining⟩
  · rcases valid.range with ⟨empty, first, last⟩ | ⟨filled, -, -, tiles⟩
    · refine ⟨same, ?_⟩
      simp only [newManifestBy, same]
      rw [empty, first, last]
      exact ⟨rfl, rfl⟩
    · exact newManifestBy_tiles _ _ sorts valid.segments tiles filled

theorem Manifest.Valid.append_eq_ok (valid : m.Valid) (filled : m.segments ≠ []) (now : Int) :
    (∃ m', m.appendSegmentInPlace segment now = .ok m') ↔
      segment.Valid ∧ segment.firstHeight = m.lastHeight + 1 ∧ segment.key ≠ (m.segments.getLast filled).key := by
  have versioned : m.version ≠ 0 := by rw [valid.version]; decide
  have last := List.getLast?_eq_getLast_of_ne_nil filled
  have reached : (m.segments.getLast filled).lastHeight = m.lastHeight := by
    rcases valid.range with ⟨empty, -⟩ | ⟨-, -, -, tiles⟩
    · exact absurd empty filled
    · have ends := tiles.getLast last
      omega
  simp only [appendSegmentInPlace, if_neg versioned, then_eq_ok, wrapping_eq_ok, SegmentManifest.validate_eq_ok, last,
    refuse_eq_ok, reached, not_not]
  constructor
  · rintro ⟨m', segmentValid, follows, fresh, -⟩
    exact ⟨segmentValid, follows, fresh⟩
  · rintro ⟨segmentValid, follows, fresh⟩
    exact ⟨_, segmentValid, follows, fresh, rfl⟩

/-- An append keeps a manifest valid and is the rebuild, unless it fits but for the key of an earlier segment. -/
theorem append_in_place_rebuilds (segment : SegmentManifest) (valid : m.validate = .ok ()) (later : m.createdAt ≤ now) :
    (((m.appendInPlace segment now).1 = .ok () →
      (m.appendInPlace segment now).2.validate = .ok () ∧
      ∀ sort built, Sorts sort →
        (newManifestBy sort m.chainID (m.segments ++ [segment]) built).2 = .ok () ∧
        (newManifestBy sort m.chainID (m.segments ++ [segment]) built).1.segments =
          (m.appendInPlace segment now).2.segments ∧
        (newManifestBy sort m.chainID (m.segments ++ [segment]) built).1.firstHeight =
          (m.appendInPlace segment now).2.firstHeight ∧
        (newManifestBy sort m.chainID (m.segments ++ [segment]) built).1.lastHeight =
          (m.appendInPlace segment now).2.lastHeight) ∧
    (∀ err, (m.appendInPlace segment now).1 = .error err → (m.appendInPlace segment now).2 = m)) ↔
    (segment.validate = .ok () → segment.firstHeight = m.lastHeight + 1 →
      ∀ other ∈ m.segments.dropLast, other.key ≠ segment.key) := by
  rw [Manifest.validate_eq_ok] at valid
  rw [Manifest.appendInPlace_eq, SegmentManifest.validate_eq_ok]
  constructor
  · rintro ⟨kept, -⟩ segmentValid follows other earlier same
    have filled : m.segments ≠ [] := by
      intro empty
      rw [empty] at earlier
      cases earlier
    have split := List.dropLast_append_getLast filled
    have distinct := valid.keys
    rw [← split, List.map_append, List.nodup_append] at distinct
    -- the last segment has another key, so the append goes through, and its key is there twice
    have fresh : segment.key ≠ (m.segments.getLast filled).key := by
      rw [← same]
      exact distinct.2.2 _ (List.mem_map_of_mem earlier) _ (List.mem_map_of_mem (List.mem_singleton_self _))
    obtain ⟨m', ok⟩ := (valid.append_eq_ok filled now).mpr ⟨segmentValid, follows, fresh⟩
    obtain ⟨-, segments, -⟩ := Manifest.appendSegmentInPlace_spec ok
    simp only [ok, forall_const] at kept
    have keys := (Manifest.validate_eq_ok.mp kept.1).keys
    rw [segments, List.map_append, List.nodup_append] at keys
    refine keys.2.2 other.key (List.mem_map_of_mem (List.dropLast_subset _ earlier)) segment.key ?_ same
    exact List.mem_map_of_mem (List.mem_singleton_self _)
  · intro unused
    cases ok : m.appendSegmentInPlace segment now with
    | error err =>
      have versioned : m.version ≠ 0 := by rw [valid.version]; decide
      refine ⟨?_, fun _ _ => if_neg versioned⟩
      intro impossible
      cases impossible
    | ok m' =>
      obtain ⟨segmentValid, segments, -, chainID, -⟩ := Manifest.appendSegmentInPlace_spec ok
      have fresh : ∀ other ∈ m.segments, other.key ≠ segment.key := by
        intro other member
        have filled := List.ne_nil_of_mem member
        obtain ⟨-, follows, last⟩ := (valid.append_eq_ok filled now).mp ⟨m', ok⟩
        rw [← List.dropLast_append_getLast filled] at member
        rcases List.mem_append.mp member with earlier | final
        · exact unused segmentValid follows other earlier
        · rw [List.mem_singleton.mp final]
          exact last.symm
      have validAfter := valid.append later fresh ok
      refine ⟨fun _ => ⟨Manifest.validate_eq_ok.mpr validAfter, ?_⟩, ?_⟩
      · intro sort built sorts
        rw [← segments, ← chainID]
        exact validAfter.rebuilt sorts built
      · intro err impossible
        cases impossible

def unitsManifest : Manifest :=
  (newManifest "c" [unitSegment "a" 1, unitSegment "b" 2] 1).1

theorem append_in_place_rebuilds_units :
    (unitsManifest.appendInPlace (unitSegment "c" 3) 2).2.validate = .ok () := by
  have appended := append_in_place_rebuilds (unitSegment "c" 3)
    (by decide +kernel : unitsManifest.validate = .ok ()) (by decide : unitsManifest.createdAt ≤ 2)
  exact ((appended.mpr fun _ _ => by decide).1 (by decide +kernel)).1

theorem append_in_place_repeats_key :
    unitsManifest.validate = .ok () ∧ unitsManifest.createdAt ≤ 2 ∧
      (unitsManifest.appendInPlace (unitSegment "a" 3) 2).1 = .ok () ∧
      (unitsManifest.appendInPlace (unitSegment "a" 3) 2).2.validate ≠ .ok () ∧
      (newManifest "c" (unitsManifest.segments ++ [unitSegment "a" 3]) 2).2 ≠ .ok () := by
  -- the key of a segment before the last one is not looked at
  refine ⟨by decide +kernel, by decide, by decide +kernel, ?_, ?_⟩
  · rw [Ne, Manifest.validate_eq_ok]
    intro valid
    exact absurd valid.keys (by decide +kernel)
  · intro built
    exact absurd (Manifest.validate_eq_ok.mp built).keys (by decide +kernel)

end Append

end CometArchive.Archive
