import CometArchive.Archive.Incremental
import CometArchive.Archive.MigrateStates

set_option autoImplicit false

namespace CometArchive.Archive

open GoBytes GoError Programs Programs.Fallible Runs

variable {V : Type} {host : Host V} {contentOf : String → Bytes} {source : Source} {used : MigrationOptions → Prop}
  {target : Target} {t : ObjectStore contentOf × Nat} {inv : ObjectStore contentOf × Nat → Prop}

def Unharmed (host : Host V) (source : Source) (used : MigrationOptions → Prop) (target : Target)
    (t : ObjectStore contentOf × Nat) : Prop :=
  -- no harm was done, and what is stored can be resumed
  Resumable host source used target t.1 ∧ t.2 = 0

/-- A state of this migration whose segments are those of the reader. -/
structure Begun (host : Host V) (source : Source) (used : MigrationOptions → Prop) (target : Target)
    (state : MigrationState) : Prop where
  chain : state.chainID = target.chainID
  going : Going target.start target.stop state
  lists : Migrated host source.Answers used target.stop target.start state.segments state.nextHeight

section Reads

theorem absorbMissing_safe {α S : Type} {effect : (op : Op) → S → op.Res → S → Prop} {inv : S → Prop} {s : S} {read : M α}
    {post : Option α → S → Prop}
    (safe : read.Safe effect inv (fun err s' => err.is .objectNotFound = true → post none s')
      (fun value s' => post (some value) s') s) :
    (absorbMissing read).Safe effect inv (fun _ _ => True) post s := by
  unfold absorbMissing
  refine Safe.recover ?_
  change ((read >>= fun value => pure (some value) : M (Option α))).Safe _ _ _ _ _
  refine Safe.bind (Safe.mono safe (fun _ => id) ?_ fun value s' here holds => Safe.pure here holds)
  intro err s' here none
  split
  next missing => exact Safe.pure here (none missing)
  next => exact Safe.lift here (fun _ _ => trivial) (by rintro _ ⟨⟩)

theorem clampRange_safe {opts : MigrationOptions} (here : inv t) :
    (clampRange opts.startHeight opts.endHeight).Safe (Migrating host source target) inv (fun _ _ => True)
      (fun range t' => t' = t ∧ range = ((opts.target source).start, (opts.target source).stop) ∧
        range.1 ≤ range.2 ∧ range.2 ≤ source.height) t := by
  unfold clampRange
  refine Safe.bind (Safe.query Op.base here ?_)
  rintro base t' taken
  obtain rfl := taken.still id taken.1.1
  obtain rfl : base = source.base := taken.1.2
  refine ⟨here, Safe.bind (Safe.query Op.height here ?_)⟩
  rintro height t' taken
  obtain rfl := taken.still id taken.1.1
  obtain rfl : height = source.height := taken.1.2
  refine ⟨here, Safe.check here (fun _ _ => trivial) fun _ _ => ?_⟩
  refine Safe.check here (fun _ _ => trivial) fun _ _ => ?_
  refine Safe.check here (fun _ _ => trivial) fun _ within => ?_
  refine Safe.check here (fun _ _ => trivial) fun _ ordered => ?_
  rw [refuse_eq_ok] at within ordered
  exact Safe.pure here ⟨rfl, rfl, not_lt.mp ordered, not_lt.mp within⟩

theorem loadExisting_safe {key : String} (rejects : host.json.RejectsSegments) (here : inv t) :
    (absorbMissing (loadManifest host key)).Safe (Migrating host source target) inv (fun _ _ => True)
      (fun existing t' => t' = t ∧ ((existing.map (·.revision)).getD "" = "" ∨
        ¬ IsSegment (contentOf ((existing.map (·.revision)).getD "")))) t := by
  -- the revision of a manifest that is there is not that of a segment
  apply absorbMissing_safe
  refine Safe.mono (loadManifest_safe (fun answer t' => t' = t ∧ ReadsFrom t.1 key answer) here ?_) (fun _ => id) ?_ ?_
  · rintro answer t' taken
    rcases answer with err | ⟨data, revision⟩
    · obtain rfl := taken.still id taken.1.1.1
      exact ⟨here, rfl, taken.1.1.2⟩
    · obtain rfl := taken.still id taken.1.1.1
      exact ⟨here, rfl, taken.1.1.2⟩
  · intro err t' _ missed missing
    exact ⟨(missed missing).1, .inl rfl⟩
  · rintro m t' - ⟨data, revision, ⟨rfl, stored⟩, parses⟩
    refine ⟨rfl, .inr ?_⟩
    obtain ⟨read, parsed, rfl⟩ := parses.parsed
    change ¬ IsSegment (contentOf revision)
    rw [(t'.1.determined key _ stored).2]
    intro segment
    obtain ⟨text, rejected⟩ := rejects data segment
    cases parsed.symm.trans rejected

def FoundState (host : Host V) (source : Source) (used : MigrationOptions → Prop) (target : Target)
    (s : ObjectStore contentOf) (key : String) : Option MigrationState → Prop
  | none => s.objects key = none
  | some state => validateMigrationState state = .ok () ∧
    (∃ data, s.objects key = some ⟨data, state.revision⟩ ∧ HoldsState host data state) ∧
    (state.chainID = target.chainID → state.startHeight = target.start → state.endHeight = target.stop →
      Migrated host source.Answers used target.stop target.start state.segments state.nextHeight)

theorem loadMigrationStateWithFound_safe {key : String} (states : target.States key)
    (resumable : Resumable host source used target t.1) (here : inv t) :
    (loadMigrationStateWithFound host key).Safe (Migrating host source target) inv (fun _ _ => True)
      (fun found t' => t' = t ∧ FoundState host source used target t.1 key found) t := by
  unfold loadMigrationStateWithFound
  refine Safe.bind (Safe.mono (absorbMissing_safe (Safe.attempt here ?_ ?_) :
    (absorbMissing (getVersioned key)).Safe (Migrating host source target) inv (fun _ _ => True)
      (fun found t' => t' = t ∧ t.1.objects key = found.map fun read => ⟨read.1, read.2⟩) t)
    (fun _ => id) (fun _ _ _ _ => trivial) ?_)
  · rintro answer err t' taken rfl
    obtain rfl := taken.still id taken.1.1.1
    exact ⟨here, fun missing => ⟨rfl, taken.1.1.2 missing⟩⟩
  · rintro answer ⟨data, revision⟩ t' taken rfl
    obtain rfl := taken.still id taken.1.1.1
    exact ⟨here, rfl, taken.1.1.2⟩
  · rintro found t' - ⟨rfl, stored⟩
    cases found with
    | none => exact Safe.pure here ⟨rfl, stored⟩
    | some found =>
      obtain ⟨data, revision⟩ := found
      refine Safe.check here (fun _ _ => trivial) fun _ _ => ?_
      refine Safe.check here (fun _ _ => trivial) fun state parsed => ?_
      refine Safe.check here (fun _ _ => trivial) fun _ valid => ?_
      rw [textual_eq_ok] at parsed
      rw [wrapping_eq_ok] at valid
      refine Safe.pure here ⟨rfl, valid, ⟨data, stored, state, parsed, rfl⟩, ?_⟩
      exact resumable key states _ stored state parsed valid

def FoundAny (host : Host V) (source : Source) (used : MigrationOptions → Prop) (target : Target)
    (s : ObjectStore contentOf) : Option MigrationState × Bool → Prop
  | (found, false) => FoundState host source used target s target.stateKey found
  | (none, true) => False
  | (some state, true) => s.objects target.stateKey = none ∧ state.revision = "" ∧
    validateMigrationState state = .ok () ∧
    (state.chainID = target.chainID → state.startHeight = target.start → state.endHeight = target.stop →
      Migrated host source.Answers used target.stop target.start state.segments state.nextHeight)

theorem findMigrationState_safe {opts : MigrationOptions} (resumable : Resumable host source used (opts.target source) t.1)
    (here : inv t) :
    (findMigrationState host opts (opts.target source).stateKey).Safe (Migrating host source (opts.target source)) inv
      (fun _ _ => True) (fun found t' => t' = t ∧ FoundAny host source used (opts.target source) t.1 found) t := by
  unfold findMigrationState
  refine Safe.bind (Safe.mono (loadMigrationStateWithFound_safe (.inl rfl) resumable here) (fun _ => id)
    (fun _ _ _ => id) ?_)
  rintro found _ - ⟨rfl, stored⟩
  split
  next legacy =>
    obtain ⟨rfl, unnamed, default, -⟩ := legacy
    have states : (opts.target source).States (legacyMigrationStateKey opts.keyPrefix opts.chainID) :=
      .inr (if_pos ⟨unnamed, default⟩)
    refine Safe.bind (Safe.mono (loadMigrationStateWithFound_safe states resumable here) (fun _ => id)
      (fun _ _ _ => id) ?_)
    rintro old _ - ⟨rfl, there⟩
    cases old with
    | none => exact Safe.pure here ⟨rfl, stored⟩
    | some state => exact Safe.pure here ⟨rfl, stored, rfl, there.1, there.2.2⟩
  next => exact Safe.pure here ⟨rfl, stored⟩

end Reads

section Writes

variable {state : MigrationState}

theorem saveMigrationState_safe (lawful : host.json.LawfulStates) (unharmed : Unharmed host source used target t)
    (free : state.revision = "" ∨ ¬ IsSegment (contentOf state.revision)) (incomplete : ¬ Complete host target t.1)
    (lists : validateMigrationState state = .ok () →
      Migrated host source.Answers used target.stop target.start state.segments state.nextHeight) :
    (saveMigrationState host target.stateKey state).Safe (Migrating host source target)
      (Unharmed host source used target) (fun _ _ => True)
      (fun saved t' => validateMigrationState saved = .ok () ∧ Kept host target t'.1 saved ∧
        ∃ revision, saved = { state with revision, sourceKey := target.stateKey }) t := by
  unfold saveMigrationState
  refine Safe.check unharmed (fun _ _ => trivial) fun _ _ => ?_
  refine Safe.check unharmed (fun _ _ => trivial) fun _ _ => ?_
  refine Safe.check unharmed (fun _ _ => trivial) fun _ _ => ?_
  refine Safe.check unharmed (fun _ _ => trivial) fun _ valid => ?_
  refine Safe.check unharmed (fun _ _ => trivial) fun encoded marshalled => ?_
  refine Safe.check unharmed (fun _ _ => trivial) fun _ _ => ?_
  have holds : HoldsState host (encoded ++ [10]) state := lawful.state state encoded valid (textual_eq_ok.mp marshalled)
  have written {newRevision : String} {t' : ObjectStore contentOf × Nat}
      (swaps : Swaps t.1 target.stateKey (encoded ++ [10]) state.revision newRevision t'.1)
      (count : Harms host target (.compareAndSwap target.stateKey (encoded ++ [10]) state.revision) t.1 t'.1 ∧
        t'.2 = t.2 + 1 ∨ ¬ Harms host target (.compareAndSwap target.stateKey (encoded ++ [10]) state.revision) t.1 t'.1 ∧
        t'.2 = t.2) : Unharmed host source used target t' := by
    constructor
    · intro key states object found
      rw [show t'.1.objects = _ from swaps.2] at found
      by_cases same : key = target.stateKey
      · subst same
        rw [Function.update_self] at found
        cases found
        obtain ⟨read, parsed, content⟩ := holds
        intro other reparsed _ _ _ _
        cases parsed.symm.trans reparsed
        have segments : read.content.segments = state.content.segments := by rw [content]
        have next : read.content.nextHeight = state.content.nextHeight := by rw [content]
        change read.segments = state.segments at segments
        change read.nextHeight = state.nextHeight at next
        rw [segments, next]
        exact lists valid
      · rw [Function.update_of_ne same] at found
        exact unharmed.1 key states object found
    · rcases count with ⟨altered | ⟨complete, -⟩, -⟩ | ⟨-, none⟩
      · exact absurd (swaps.keepsSegments free) altered
      · exact absurd complete incomplete
      · rw [none]
        exact unharmed.2
  refine Safe.bind (Safe.attempt unharmed ?_ ?_)
  · rintro answer err t' taken rfl
    refine ⟨?_, trivial⟩
    rcases taken.1.1 with same | ⟨newRevision, swaps⟩
    · rw [taken.still id same]
      exact unharmed
    · exact written swaps taken.2
  · rintro answer revision t' ⟨⟨swaps, -⟩, count⟩ rfl
    have after := written swaps count
    refine ⟨after, Safe.pure after ⟨valid, ⟨encoded ++ [10], ?_, ?_⟩, revision, rfl⟩⟩
    · rw [show t'.1.objects = _ from swaps.2, Function.update_self]
    · exact holds

theorem buildAndUploadSegment_safe {opts : LiveArchiveOptions} {first last : Int} (lawful : host.json.LawfulStates)
    (unharmed : Unharmed host source used target t) (incomplete : ¬ Complete host target t.1) :
    (buildAndUploadSegment host opts.chainID opts.keyPrefix opts.compression first last).Safe
      (Migrating host source target) (Unharmed host source used target) (fun _ _ => True)
      (fun built t' => first ≤ last ∧ LiveSegment host source.Answers opts first last built.1 ∧ Adds t.1 t'.1) t := by
  have ok := @buildAndUploadSegment_ok _ host opts.chainID opts.keyPrefix [] _ _ opts.compression first last
    building_permits fun _ _ _ encoded => (encodeSegment_spec host.codec encoded).isSegment
  refine Safe.mono (Ok.safe (fun history t' => (∀ entry ∈ history, source.Answers entry.1 entry.2) ∧
    Adds t.1 t'.1 ∧ t'.2 = t.2) ok ⟨by simp, Adds.refl _, rfl⟩ ?_ ?_) (fun _ => id) (fun _ _ _ _ => trivial) ?_
  · rintro history op mid answer t' ⟨reads, adds, count⟩ building taken
    have going : ¬ Complete host target mid.1 := by
      rw [adds.complete_iff lawful]
      exact incomplete
    obtain ⟨more, none⟩ := taken.adds building going
    refine ⟨?_, adds.trans more, none.trans count⟩
    intro entry member
    rcases List.mem_append.mp member with old | new
    · exact reads entry old
    · cases List.mem_singleton.mp new
      exact taken.1.2
  · rintro history t' ⟨-, adds, count⟩
    exact ⟨adds.resumable lawful unharmed.1, count.trans unharmed.2⟩
  · rintro built t' - ⟨history, ⟨reads, adds, -⟩, ordered, archived⟩
    exact ⟨ordered, archived.live reads, adds⟩

theorem startMigrationState_begun {opts : MigrationOptions} {s : ObjectStore contentOf} {found : Option MigrationState × Bool}
    (range : (opts.target source).start ≤ (opts.target source).stop)
    (any : FoundAny host source used (opts.target source) s found)
    (ok : startMigrationState opts (opts.target source).start (opts.target source).stop found.1 = .ok state) :
    Begun host source used (opts.target source) state ∧ (found.2 = false → Held host (opts.target source) s state) ∧
      (found.2 = true → s.objects (opts.target source).stateKey = none ∧ state.revision = "") := by
  obtain ⟨saved, legacy⟩ := found
  cases saved with
  | none =>
    cases ok
    cases legacy with
    | true => exact any.elim
    | false =>
      refine ⟨⟨rfl, ⟨rfl, rfl, .inr range⟩, rfl⟩, fun _ => .inr ⟨rfl, range, ?_⟩, by rintro ⟨⟩⟩
      intro object there
      cases (show s.objects _ = none from any).symm.trans there
  | some found =>
    simp only [startMigrationState, then_eq_ok, refuse_eq_ok] at ok
    obtain ⟨same, ok⟩ := ok
    cases ok
    simp only [not_or, not_not] at same
    obtain ⟨chain, first, last⟩ := same
    cases legacy with
    | false =>
      obtain ⟨valid, kept, lists⟩ := any
      exact ⟨⟨chain, ⟨first, last, .inl valid⟩, lists chain first last⟩, fun _ => .inl kept, by rintro ⟨⟩⟩
    | true =>
      obtain ⟨absent, none, valid, lists⟩ := any
      exact ⟨⟨chain, ⟨first, last, .inl valid⟩, lists chain first last⟩, by rintro ⟨⟩, fun _ => ⟨absent, none⟩⟩

theorem adoptLegacyState_safe {legacy : Bool} (lawful : host.json.LawfulStates)
    (unharmed : Unharmed host source used target t) (begun : Begun host source used target state)
    (held : legacy = false → Held host target t.1 state)
    (vacant : legacy = true → t.1.objects target.stateKey = none ∧ state.revision = "") :
    (adoptLegacyState host target.stateKey legacy state).Safe (Migrating host source target)
      (Unharmed host source used target) (fun _ _ => True)
      (fun saved t' => Begun host source used target saved ∧ Held host target t'.1 saved) t := by
  unfold adoptLegacyState
  cases legacy with
  | false => exact Safe.pure unharmed ⟨begun, held rfl⟩
  | true =>
    obtain ⟨absent, none⟩ := vacant rfl
    have incomplete : ¬ Complete host target t.1 := by
      rintro ⟨object, _, found, -⟩
      cases absent.symm.trans found
    rw [if_pos rfl]
    refine Safe.mono (saveMigrationState_safe lawful unharmed (.inl none) incomplete fun _ => begun.lists) (fun _ => id)
      (fun _ _ _ _ => trivial) ?_
    rintro saved t' - ⟨valid, kept, revision, rfl⟩
    exact ⟨⟨begun.chain, ⟨begun.going.first, begun.going.last, .inl valid⟩, begun.lists⟩, .inl kept⟩

theorem migrateLoop_safe {opts : MigrationOptions} {fuel : Nat} {height : Int} {counts : Nat × Nat}
    (lawful : host.json.LawfulStates) (placed : ByHeight source.Answers) (bounded : target.stop ≤ maxInt64)
    (few : opts.live.segmentBlocks ≤ maxSegmentBlocks) (chosen : used opts)
    (unharmed : Unharmed host source used target t) (begun : Begun host source used target state)
    (held : Held host target t.1 state) (here : state.nextHeight = height)
    (enough : (target.stop - height + 1).toNat ≤ fuel) :
    (migrateLoop host { opts with
        segmentBlocks := opts.live.segmentBlocks
        compression := opts.live.compression } target.stateKey target.stop fuel height state counts).Safe
      (Migrating host source target) (Unharmed host source used target) (fun _ _ => True)
      (fun result t' => Begun host source used target result.1 ∧ Kept host target t'.1 result.1 ∧
        target.stop < result.1.nextHeight) t := by
  induction fuel generalizing t height state counts with
  | zero =>
    have through : target.stop < state.nextHeight := by omega
    exact Safe.pure unharmed ⟨begun, held.kept through, through⟩
  | succ fuel ih =>
    unfold migrateLoop
    split
    next through =>
      rw [← here] at through
      exact Safe.pure unharmed ⟨begun, held.kept through, through⟩
    next inside =>
      refine Safe.bind (Safe.attempt unharmed ?_ ?_)
      · rintro answer err t' taken -
        obtain rfl := taken.still id taken.1.1
        exact ⟨unharmed, trivial⟩
      rintro answer _ t' taken -
      obtain rfl := taken.still id taken.1.1
      refine ⟨unharmed, ?_⟩
      have incomplete := held.incomplete lawful (by omega)
      refine Safe.bind (Safe.mono (buildAndUploadSegment_safe lawful unharmed incomplete :
        (buildAndUploadSegment host opts.live.chainID opts.live.keyPrefix opts.live.compression height
          (segmentEnd opts.live.segmentBlocks target.stop height)).Safe _ _ _ _ _) (fun _ => id) (fun _ _ _ _ => trivial) ?_)
      rintro ⟨segment, uploaded⟩ built after ⟨ordered, live, adds⟩
      refine Safe.bind (Safe.query Op.now after ?_)
      rintro now t'' taken
      obtain rfl := taken.still id taken.1.1
      refine ⟨after, ?_⟩
      have first := (live.spec placed).1
      have appended : appendSegment state.segments segment = state.segments ++ [segment] :=
        Migrated.appendSegment placed begun.lists (first.trans here.symm)
      -- the next state starts above zero, so that the end of the segment did not wrap around
      have lists : 0 < target.start → Migrated host source.Answers used target.stop target.start
          (appendSegment state.segments segment) (segmentEnd opts.live.segmentBlocks target.stop height + 1) := by
        intro positive
        have above := begun.lists.le
        have exact := segmentEnd_eq (by omega) (by omega) bounded ⟨opts.live_blocks, few⟩ ordered
        rw [appended, exact]
        rw [exact] at live
        rw [here] at above
        exact (here ▸ begun.lists).snoc (by omega) chosen live
      have free := held.free lawful
      refine Safe.bind (Safe.mono (saveMigrationState_safe lawful after free
        (by rw [adds.complete_iff lawful]; exact incomplete) fun valid => ?_) (fun _ => id) (fun _ _ _ _ => trivial) ?_)
      · apply lists
        have positive := validateMigrationState_pos valid
        change 0 < state.startHeight at positive
        rw [begun.going.first] at positive
        exact positive
      rintro saved t' stored ⟨valid, kept, revision, rfl⟩
      have positive := validateMigrationState_pos valid
      change 0 < state.startHeight at positive
      rw [begun.going.first] at positive
      refine ih stored ?_ (.inl kept) rfl ?_
      · exact ⟨begun.chain, ⟨begun.going.first, begun.going.last, .inl valid⟩, lists positive⟩
      · change (target.stop - (segmentEnd opts.live.segmentBlocks target.stop height + 1) + 1).toNat ≤ fuel
        omega

end Writes

section Checks

theorem runPool_safe {check : SegmentManifest → M Nat} (good : SegmentManifest → Prop) (here : inv t)
    (checks : ∀ segment, (check segment).Safe (Migrating host source target) inv (fun _ _ => True)
      (fun _ t' => t' = t ∧ good segment) t) {fuel : Nat} {jobs : List SegmentManifest} {counts : Nat × Nat}
    (enough : jobs.length = fuel) :
    (runPool check fuel jobs counts).Safe (Migrating host source target) inv (fun _ _ => True)
      (fun _ t' => t' = t ∧ ∀ segment ∈ jobs, good segment) t := by
  induction fuel generalizing jobs counts with
  | zero =>
    rw [List.length_eq_zero_iff] at enough
    subst enough
    exact Safe.pure here ⟨rfl, by simp⟩
  | succ fuel ih =>
    unfold runPool
    refine Safe.bind (Safe.query (Op.pick jobs.length) here ?_)
    rintro choice t' taken
    obtain rfl := taken.still id taken.1.1
    refine ⟨here, ?_⟩
    have inside : choice % jobs.length < jobs.length := Nat.mod_lt _ (by omega)
    simp only [List.getElem?_eq_getElem inside]
    refine Safe.bind (Safe.attempt here ?_ ?_)
    · rintro answer err t'' taken -
      obtain rfl := taken.still id taken.1.1
      exact ⟨here, trivial⟩
    rintro answer _ t'' taken -
    obtain rfl := taken.still id taken.1.1
    refine ⟨here, Safe.bind (Safe.mono (checks _) (fun _ => id) (fun _ _ _ => id) ?_)⟩
    rintro blocks _ - ⟨rfl, checked⟩
    refine Safe.mono (ih (by rw [List.length_eraseIdx_of_lt inside]; omega)) (fun _ => id) (fun _ _ _ => id) ?_
    rintro _ _ - ⟨rfl, others⟩
    refine ⟨rfl, ?_⟩
    intro segment member
    -- the segment taken and the others are all of them
    rcases List.mem_cons.mp ((List.getElem_cons_eraseIdx_perm inside).mem_iff.mpr member) with rfl | member
    · exact checked
    · exact others segment member

theorem verifyCompletedSegment_safe {segment : SegmentManifest} (here : inv t) :
    (verifyCompletedSegment host segment).Safe (Migrating host source target) inv (fun _ _ => True)
      (fun _ t' => t' = t ∧ Readable host t.1 segment) t := by
  unfold verifyCompletedSegment
  refine Safe.bind (Safe.mapErr (Safe.attempt here ?_ ?_))
  · rintro answer err t' taken rfl
    obtain rfl := taken.still id taken.1.1.1
    exact ⟨here, trivial⟩
  rintro answer size t' taken rfl
  obtain rfl := taken.still id taken.1.1.1
  refine ⟨here, Safe.check here (fun _ _ => trivial) fun _ _ => ?_⟩
  refine Safe.bind (Safe.mapErr (Safe.attempt here ?_ ?_))
  · rintro answer err t' taken rfl
    obtain rfl := taken.still id taken.1.1.1
    exact ⟨here, trivial⟩
  rintro answer data t' taken rfl
  obtain rfl := taken.still id taken.1.1.1
  obtain ⟨revision, stored⟩ := taken.1.1.2
  refine ⟨here, Safe.check here (fun _ _ => trivial) fun _ _ => ?_⟩
  refine Safe.check here (fun _ _ => trivial) fun records decoded => ?_
  exact Safe.pure here ⟨rfl, _, records, stored, wrapping_eq_ok.mp decoded⟩

theorem verifyCompletedMigrationSegments_safe {segments : List SegmentManifest} (here : inv t) :
    (verifyCompletedMigrationSegments host segments).Safe (Migrating host source target) inv (fun _ _ => True)
      (fun _ t' => t' = t ∧ ∀ segment ∈ segments, Readable host t.1 segment) t := by
  unfold verifyCompletedMigrationSegments
  refine Safe.bind (Safe.mono (runPool_safe (Readable host t.1) here ?_ rfl) (fun _ => id) (fun _ _ _ => id) ?_)
  · intro segment
    refine Safe.bind (Safe.mono (verifyCompletedSegment_safe here) (fun _ => id) (fun _ _ _ => id) ?_)
    rintro _ _ - ⟨rfl, readable⟩
    exact Safe.pure here ⟨rfl, readable⟩
  · rintro _ _ - ⟨rfl, readable⟩
    split
    next => exact Safe.pure here ⟨rfl, readable⟩
    next =>
      refine Safe.attempt here ?_ ?_
      · rintro answer err t' taken -
        obtain rfl := taken.still id taken.1.1
        exact ⟨here, trivial⟩
      · rintro answer _ t' taken -
        obtain rfl := taken.still id taken.1.1
        exact ⟨here, rfl, readable⟩

theorem createManifest_safe {chainID : String} {segments : List SegmentManifest} (here : inv t) :
    (createManifest chainID segments).Safe (Migrating host source target) inv (fun _ _ => True)
      (fun m t' => t' = t ∧ ∃ now, m = (newManifest chainID segments now).1) t := by
  unfold createManifest
  refine Safe.bind (Safe.query Op.now here ?_)
  rintro now t' taken
  obtain rfl := taken.still id taken.1.1
  refine ⟨here, Safe.check here (fun _ _ => trivial) fun _ _ => ?_⟩
  exact Safe.pure here ⟨rfl, now, rfl⟩

theorem saveManifest_safe {key : String} {m : Manifest} (json : host.json.Lawful) (apart : ¬ target.States key)
    (unharmed : Unharmed host source used target t)
    (free : m.revision = "" ∨ ¬ IsSegment (contentOf m.revision)) :
    (saveManifest host key m).Safe (Migrating host source target) (Unharmed host source used target) (fun _ _ => True)
      (fun saved t' => Loads host key t'.1 saved ∧ saved.content = m.content ∧ KeepsSegments t.1 t'.1 ∧
        (Complete host target t.1 → Complete host target t'.1)) t := by
  unfold saveManifest
  refine Safe.check unharmed (fun _ _ => trivial) fun _ named => ?_
  refine Safe.check unharmed (fun _ _ => trivial) fun _ store => ?_
  refine Safe.check unharmed (fun _ _ => trivial) fun _ _ => ?_
  refine Safe.check unharmed (fun _ _ => trivial) fun _ checked => ?_
  refine Safe.check unharmed (fun _ _ => trivial) fun encoded marshalled => ?_
  refine Safe.check unharmed (fun _ _ => trivial) fun _ fits => ?_
  have valid := Manifest.validate_eq_ok.mp checked
  obtain ⟨read, parsed, same⟩ := json.manifest m encoded valid (textual_eq_ok.mp marshalled)
  have elsewhere {newRevision : String} {s' : ObjectStore contentOf}
      (swaps : Swaps t.1 key (encoded ++ [10]) m.revision newRevision s') {other : String} (states : target.States other) :
      s'.objects other = t.1.objects other := by
    rw [show s'.objects = _ from swaps.2, Function.update_of_ne]
    rintro rfl
    exact apart states
  have completes {newRevision : String} {s' : ObjectStore contentOf}
      (swaps : Swaps t.1 key (encoded ++ [10]) m.revision newRevision s') (complete : Complete host target t.1) :
      Complete host target s' := by
    obtain ⟨object, state, found, rest⟩ := complete
    exact ⟨object, state, (elsewhere swaps (.inl rfl)).trans found, rest⟩
  have written {newRevision : String} {t' : ObjectStore contentOf × Nat}
      (swaps : Swaps t.1 key (encoded ++ [10]) m.revision newRevision t'.1)
      (count : Harms host target (.compareAndSwap key (encoded ++ [10]) m.revision) t.1 t'.1 ∧ t'.2 = t.2 + 1 ∨
        ¬ Harms host target (.compareAndSwap key (encoded ++ [10]) m.revision) t.1 t'.1 ∧ t'.2 = t.2) :
      Unharmed host source used target t' := by
    constructor
    · intro other states object found
      exact unharmed.1 other states object ((elsewhere swaps states).symm.trans found)
    · rcases count with ⟨altered | ⟨complete, uploads | lost⟩, -⟩ | ⟨-, none⟩
      · exact absurd (swaps.keepsSegments free) altered
      · exact uploads.elim
      · exact absurd (completes swaps complete) lost
      · rw [none]
        exact unharmed.2
  refine Safe.bind (Safe.mapErr (Safe.attempt unharmed ?_ ?_))
  · rintro answer err t' taken rfl
    refine ⟨?_, trivial⟩
    rcases taken.1.1 with same | ⟨newRevision, swaps⟩
    · rw [taken.still id same]
      exact unharmed
    · exact written swaps taken.2
  · rintro answer revision t' ⟨⟨swaps, -⟩, count⟩ rfl
    have after := written swaps count
    refine ⟨after, Safe.pure after ⟨⟨wrapping_eq_ok.mp named, ?_, ?_, valid.of_content rfl⟩, rfl,
      swaps.keepsSegments free, completes swaps⟩⟩
    · rw [refuse_eq_ok] at store
      simpa using store
    · rw [refuse_eq_ok] at fits
      refine ⟨⟨encoded ++ [10], revision⟩, read, ?_, not_lt.mp fits, parsed, ?_⟩
      · rw [show t'.1.objects = _ from swaps.2, Function.update_self]
      · have content := same.symm
        simp only [Manifest.content, Manifest.mk.injEq, true_and] at content ⊢
        exact content

end Checks

structure Finished (host : Host V) (source : Source) (used : MigrationOptions → Prop) (target : Target)
    (s : ObjectStore contentOf) (m : Manifest) : Prop where
  loads : Loads host target.key s m
  readable : ∀ segment ∈ m.segments, Readable host s segment
  lists : Migrated host source.Answers used target.stop target.start m.segments (target.stop + 1)
  first : m.firstHeight = target.start
  last : m.lastHeight = target.stop
  complete : Complete host target s

theorem MigrationOptions.target_apart (opts : MigrationOptions) (source : Source) :
    ¬ (opts.target source).States (opts.target source).key := by
  rintro (same | same)
  · exact chosenStateKey_ne_chosenManifestKey _ _ _ _ same.symm
  · unfold MigrationOptions.target at same
    dsimp only at same
    split at same
    next legacy =>
      rw [Option.some.injEq, chosenManifestKey, if_neg (not_not.mpr legacy.1)] at same
      exact legacyMigrationStateKey_ne_manifestKey _ _ _ same
    next => cases same

theorem migrate_safe {opts : MigrationOptions} (json : host.json.Lawful) (lawful : host.json.LawfulStates)
    (rejects : host.json.RejectsSegments) (placed : ByHeight source.Answers) (bounded : source.height ≤ maxInt64)
    (chosen : used opts) (unharmed : Unharmed host source used (opts.target source) t) :
    (migrate host opts).Safe (Migrating host source (opts.target source))
      (Unharmed host source used (opts.target source)) (fun _ _ => True)
      (fun result t' => Finished host source used (opts.target source) t'.1 result.manifest) t := by
  unfold migrate
  refine Safe.check unharmed (fun _ _ => trivial) fun _ _ => ?_
  refine Safe.check unharmed (fun _ _ => trivial) fun _ few => ?_
  refine Safe.check unharmed (fun _ _ => trivial) fun _ _ => ?_
  refine Safe.check unharmed (fun _ _ => trivial) fun resolved resolves => ?_
  obtain rfl : resolved = (opts.target source).key := (resolveKey_spec resolves).1
  refine Safe.check unharmed (fun _ _ => trivial) fun stateKey resolvesState => ?_
  obtain rfl : stateKey = (opts.target source).stateKey := (resolveKey_spec resolvesState).1
  refine Safe.check unharmed (fun _ _ => trivial) fun _ _ => ?_
  refine Safe.check unharmed (fun _ _ => trivial) fun _ _ => ?_
  refine Safe.bind (Safe.mono (clampRange_safe unharmed) (fun _ => id) (fun _ _ _ => id) ?_)
  rintro _ _ - ⟨rfl, rfl, range, within⟩
  dsimp only at range within
  refine Safe.bind (Safe.mono (loadExisting_safe rejects unharmed) (fun _ => id) (fun _ _ _ => id) ?_)
  rintro existing _ - ⟨rfl, free⟩
  refine Safe.check unharmed (fun _ _ => trivial) fun _ _ => ?_
  refine Safe.bind (Safe.mono (findMigrationState_safe unharmed.1 unharmed) (fun _ => id) (fun _ _ _ => id) ?_)
  rintro found _ - ⟨rfl, any⟩
  refine Safe.check unharmed (fun _ _ => trivial) fun state started => ?_
  obtain ⟨begun, held, vacant⟩ := startMigrationState_begun range any started
  refine Safe.bind (Safe.mono (adoptLegacyState_safe lawful unharmed begun held vacant) (fun _ => id) (fun _ _ _ => id) ?_)
  rintro ready t' unharmed ⟨begun, held⟩
  rw [refuse_eq_ok] at few
  refine Safe.bind (Safe.mono (migrateLoop_safe lawful placed (within.trans bounded) (not_lt.mp few) chosen unharmed begun
    held rfl le_rfl) (fun _ => id) (fun _ _ _ => id) ?_)
  rintro ⟨done, uploaded, reused⟩ t' unharmed ⟨begun, kept, through⟩
  dsimp only at begun kept through
  refine Safe.bind (Safe.mono (verifyCompletedMigrationSegments_safe unharmed) (fun _ => id) (fun _ _ _ => id) ?_)
  rintro _ _ - ⟨rfl, readable⟩
  refine Safe.bind (Safe.mono (createManifest_safe unharmed) (fun _ => id) (fun _ _ _ => id) ?_)
  rintro manifest _ - ⟨rfl, now, made⟩
  refine Safe.bind (Safe.mono (saveManifest_safe json (opts.target_apart source) unharmed free) (fun _ => id)
    (fun _ _ _ => id) ?_)
  rintro saved t' after ⟨loads, content, keeps, completes⟩
  obtain ⟨valid, tiles, filled⟩ := begun.going.tiles through
  obtain ⟨segments, first, last⟩ := newManifestBy_tiles opts.chainID now insertionSort_sorts valid tiles filled
  rw [← newManifest_eq, ← made] at segments first last
  have same : saved.segments = done.segments ∧ saved.firstHeight = manifest.firstHeight ∧
      saved.lastHeight = manifest.lastHeight := by
    simp only [Manifest.content, Manifest.mk.injEq, true_and] at content
    exact ⟨content.2.2.2.2.2.2.trans segments, content.2.2.1, content.2.2.2.1⟩
  have reached : done.nextHeight = (opts.target source).stop + 1 := by
    have bound := begun.lists.next_le (by omega)
    omega
  refine Safe.pure after ⟨loads, ?_, ?_, same.2.1.trans first, same.2.2.trans last,
    completes (kept.complete_iff.mpr through)⟩
  · intro segment member
    obtain ⟨object, records, stored, decoded⟩ := readable segment (same.1 ▸ member)
    have magic := (decodeSegmentRecords_spec host.codec decoded).1.magic
    exact ⟨object, records, keeps _ object stored magic, decoded⟩
  · rw [same.1, ← reached]
    exact begun.lists

section Attempts

variable {s s' : ObjectStore contentOf}

/-- A run of `Migrate` that is cut off after any of its calls. -/
def MigrationStep (host : Host V) (source : Source) (s : ObjectStore contentOf) (opts : MigrationOptions)
    (s' : ObjectStore contentOf) : Prop :=
  ∃ proc, Walk (Alone host source.Answers) ⟨(migrate host opts).run, []⟩ s proc s'

variable {α : Type} {post : α → ObjectStore contentOf × Nat → Prop}

theorem harmless {op : Op} {next : op.Res → Prog Op Op.Res α} {answer : op.Res}
    (safe : (Prog.call op next).Safe (Migrating host source target) (Unharmed host source used target) post (s, 0))
    (taken : Alone host source.Answers op s answer s') : ¬ Harms host target op s s' := by
  -- a program that is never to leave harm behind does none with its next call
  intro harms
  have counted := (safe.2 answer (s', 1) ⟨taken, .inl ⟨harms, rfl⟩⟩).here.2
  cases counted

theorem walk_unharmed {proc proc' : Proc Op Op.Res α} (walk : Walk (Alone host source.Answers) proc s proc' s')
    (safe : proc.rest.Safe (Migrating host source target) (Unharmed host source used target) post (s, 0)) :
    proc'.rest.Safe (Migrating host source target) (Unharmed host source used target) post (s', 0) ∧
      (Complete host target s → Complete host target s') := by
  induction walk with
  | refl => exact ⟨safe, id⟩
  | step taken _ ih =>
    have none := harmless safe taken
    obtain ⟨later, keeps⟩ := ih (safe.2 _ (_, 0) ⟨taken, .inr ⟨none, rfl⟩⟩)
    refine ⟨later, fun complete => keeps ?_⟩
    by_contra lost
    exact none (.inr ⟨complete, .inr lost⟩)

theorem upload_fails {op : Op} (uploads : Uploading op) (s : ObjectStore contentOf) :
    ∃ answer, Alone host source.Answers op s answer s := by
  cases op with
  | putIfAbsent key data => exact ⟨.error (.new ""), .inl rfl, trivial⟩
  | putIfAbsentReturningETag key data => exact ⟨.error (.new ""), .inl rfl, trivial⟩
  | _ => exact uploads.elim

theorem Finished.covers {m : Manifest} (placed : ByHeight source.Answers)
    (finished : Finished host source used target s m) :
    (∀ h, target.start ≤ h → h ≤ target.stop →
      ∃! segment, segment ∈ m.segments ∧ segment.firstHeight ≤ h ∧ h ≤ segment.lastHeight) ∧
    ∀ h hash, m.Indexes h hash ↔ target.start ≤ h ∧ h ≤ target.stop ∧
      ∃ block, source.block h = some block ∧ hash = hexEncode (host.comet.blockHash block) := by
  have valid := finished.loads.valid
  have tiles := finished.lists.tiles placed
  have hashed {h : Int} {hash : Bytes} (indexes : m.Indexes h hash) :
      ∃ block, source.block h = some block ∧ hash = hexEncode (host.comet.blockHash block) := by
    obtain ⟨segment, member, entry, listed, rfl, rfl⟩ := indexes
    obtain ⟨block, given, hash⟩ := finished.lists.entries placed segment member entry listed
    exact ⟨block, given.symm, hash⟩
  constructor
  · intro h low high
    obtain ⟨segment, member, above, below⟩ := tiles.exists_segment low (by omega)
    refine ⟨segment, ⟨member, above, below⟩, ?_⟩
    rintro other ⟨listed, above', below'⟩
    exact tiles.unique valid.segments other listed segment member above' below' above below
  · intro h hash
    constructor
    · intro indexes
      have bounds := valid.bounds indexes
      rw [finished.first, finished.last] at bounds
      exact ⟨bounds.2.1, bounds.2.2, hashed indexes⟩
    · rintro ⟨low, high, block, found, rfl⟩
      obtain ⟨segment, member, -, -⟩ := tiles.exists_segment low (by omega)
      have positive : 0 < m.firstHeight := by
        rcases valid.range with ⟨empty, -⟩ | ⟨-, first, -, -⟩
        · rw [empty] at member
          cases member
        · exact first
      obtain ⟨hash, indexes⟩ := valid.exists_index positive (finished.first.trans_le low) (high.trans_eq finished.last.symm)
      obtain ⟨other, again, same⟩ := hashed indexes
      cases found.symm.trans again
      rw [← same]
      exact indexes

theorem migration_resumes {tried : List MigrationOptions} (json : host.json.Lawful) (lawful : host.json.LawfulStates)
    (rejects : host.json.RejectsSegments)
    (placed : ∀ height block, source.block height = some block → block.height = height)
    (bounded : source.height ≤ maxInt64)
    -- the runs differ in the size and the compression of the segments alone
    (aimed : ∀ opts, used opts → opts.target source = target)
    (resumable : Resumable host source used target s) (chosen : ∀ opts ∈ tried, used opts)
    (attempts : Run (MigrationStep host source) s tried s') :
    -- no call of a run alters a segment
    (∀ opts proc t op next answer t', used opts →
      Walk (Alone host source.Answers) ⟨(migrate host opts).run, []⟩ s' proc t → proc.rest = .call op next →
      Alone host source.Answers op t answer t' → KeepsSegments t t') ∧
    ∀ opts result after, used opts → (migrate host opts).run.Leads (Alone host source.Answers) s' (.ok result) after →
      Loads host target.key after result.manifest ∧
      result.manifest.firstHeight = target.start ∧ result.manifest.lastHeight = target.stop ∧
      (∀ h, target.start ≤ h → h ≤ target.stop → ∃! segment,
        segment ∈ result.manifest.segments ∧ segment.firstHeight ≤ h ∧ h ≤ segment.lastHeight) ∧
      (∀ h hash, result.manifest.Indexes h hash ↔ target.start ≤ h ∧ h ≤ target.stop ∧
        ∃ block, source.block h = some block ∧ hash = hexEncode (host.comet.blockHash block)) ∧
      (fullVerify host target.key).Sure (Faithful after) (fun verified => verified.manifest = result.manifest) ∧
      -- with one choice of options the segments are those of a run that is not interrupted
      ((∀ other, used other → other = opts) → ∀ (fresh last : ObjectStore contentOf) (single : MigrationResult),
        (∀ key, target.States key → fresh.objects key = none) →
        (migrate host opts).run.Leads (Alone host source.Answers) fresh (.ok single) last →
        result.manifest.segments = single.manifest.segments) ∧
      -- a further run uploads nothing
      ∀ again proc t op next, used again →
        Walk (Alone host source.Answers) ⟨(migrate host again).run, []⟩ after proc t → proc.rest = .call op next →
        ¬ Uploading op := by
  have heights : ByHeight source.Answers := fun height block given => placed height block given.symm
  have safe {opts : MigrationOptions} {store : ObjectStore contentOf} (use : used opts)
      (ready : Resumable host source used target store) :
      (migrate host opts).Safe (Migrating host source target) (Unharmed host source used target) (fun _ _ => True)
        (fun result t' => Finished host source used target t'.1 result.manifest) (store, 0) := by
    have aim := aimed opts use
    subst aim
    exact migrate_safe json lawful rejects heights bounded use ⟨ready, rfl⟩
  have finish {opts : MigrationOptions} {store last : ObjectStore contentOf} {result : MigrationResult} (use : used opts)
      (ready : Resumable host source used target store)
      (led : (migrate host opts).run.Leads (Alone host source.Answers) store (.ok result) last) :
      Finished host source used target last result.manifest ∧ Resumable host source used target last := by
    obtain ⟨count, led⟩ := led.counted (Harms host target) 0
    obtain ⟨unharmed, finished⟩ := (safe use ready).prog.leads led
    exact ⟨finished, unharmed.1⟩
  have reached : Resumable host source used target s' := by
    induction attempts with
    | refl => exact resumable
    | snoc before taken ih =>
      have ready := ih fun opts member => chosen opts (List.mem_append_left _ member)
      obtain ⟨proc, walk⟩ := taken
      exact (walk_unharmed walk (safe (chosen _ (List.mem_append_right _ List.mem_cons_self)) ready).prog).1.here.1
  refine ⟨?_, ?_⟩
  · rintro opts ⟨_, trace⟩ t op next answer t' use walk rfl taken
    have none := harmless (walk_unharmed walk (safe use reached).prog).1 taken
    by_contra altered
    exact none (.inl altered)
  · intro opts result after use led
    obtain ⟨finished, ready⟩ := finish use reached led
    obtain ⟨once, indexed⟩ := finished.covers heights
    refine ⟨finished.loads, finished.first, finished.last, once, indexed, ?_, ?_, ?_⟩
    · exact Intact.sure json rfl ⟨finished.loads, finished.readable⟩
    · intro one fresh last single empty alone
      have unused : Resumable host source used target fresh := by
        intro key states object found
        cases (empty key states).symm.trans found
      have other := (finish use unused alone).1.lists.tiling one
      exact (finished.lists.tiling one).complete_unique source.steady (by omega) other (by omega)
    · rintro again ⟨_, trace⟩ t op next use walk rfl uploads
      obtain ⟨later, keeps⟩ := walk_unharmed walk (safe use ready).prog
      obtain ⟨answer, taken⟩ := upload_fails uploads t
      exact harmless later taken (.inr ⟨keeps finished.complete, .inl uploads⟩)

end Attempts

section Sample

def migratedState : MigrationState where
  revision := ""
  sourceKey := ""
  chainID := "c"
  startHeight := 1
  endHeight := 1
  nextHeight := 2
  segments := [sampleSegment]
  lastUpdatedAt := 0

def Json.migrating : Json :=
  { Json.only sampleManifest with
    marshalState := fun state => if state.content = migratedState.content then .ok [91] else .error "unsupported value"
    unmarshalState := fun data => if data = [91, 10] then .ok migratedState else .error "invalid character" }

theorem Json.migrating_states : Json.migrating.LawfulStates where
  state := by
    intro state data _ marshalled
    simp only [Json.migrating] at marshalled
    split at marshalled
    next same =>
      cases marshalled
      exact ⟨migratedState, rfl, same.symm⟩
    next => cases marshalled
  rejects := by
    intro data segment
    have apart : data ≠ [91, 10] := by
      rintro rfl
      revert segment
      decide
    exact ⟨_, if_neg apart⟩

def migratingHost : Host Unit := { sampleHost with json := Json.migrating }

def migratingOptions : MigrationOptions where
  chainID := "c"
  startHeight := 0
  endHeight := 0
  segmentBlocks := 1
  keyPrefix := ""
  manifestName := ""
  manifestKey := "m"
  compression := compressionNone

def migratingRun (n : Nat) (s : ObjectStore spelledContent) :
    Proc Op Op.Res (Except Err MigrationResult) × ObjectStore spelledContent :=
  drive (serve sampleCodec sampleSource) n ⟨(migrate migratingHost migratingOptions).run, []⟩ s

theorem serve_migrating (op : Op) (s : ObjectStore spelledContent) :
    Alone migratingHost sampleSource.Answers op s (serve sampleCodec sampleSource op s).1
      (serve sampleCodec sampleSource op s).2 :=
  serve_alone op s

theorem migratingRun_step (n : Nat) (s : ObjectStore spelledContent) :
    MigrationStep migratingHost sampleSource s migratingOptions (migratingRun n s).2 :=
  ⟨_, drive_walk serve_migrating n _ s⟩

theorem migratingRun_leads {n : Nat} {s : ObjectStore spelledContent} {result : Except Err MigrationResult}
    (ended : (migratingRun n s).1.rest.returned = some result) :
    (migrate migratingHost migratingOptions).run.Leads (Alone migratingHost sampleSource.Answers) s result
      (migratingRun n s).2 :=
  drive_leads serve_migrating n ended

-- one run stops before it saves its state, the next one before it publishes
def stoppedTwice : ObjectStore spelledContent := (migratingRun 12 (migratingRun 9 .empty).2).2

theorem migration_resumes_sample : ∃ (result : MigrationResult) (last : ObjectStore spelledContent),
    Run (MigrationStep migratingHost sampleSource) .empty [migratingOptions, migratingOptions] stoppedTwice ∧
      (migrate migratingHost migratingOptions).run.Leads (Alone migratingHost sampleSource.Answers) stoppedTwice
        (.ok result) last ∧
      Loads migratingHost "m" last result.manifest ∧
      result.manifest.firstHeight = 1 ∧ result.manifest.lastHeight = 1 := by
  have ok : (migratingRun 30 stoppedTwice).1.rest.returned.map Except.toBool = some true := by decide +kernel
  obtain ⟨ended, returned, isOk⟩ := Option.map_eq_some_iff.mp ok
  cases ended with
  | error err => cases isOk
  | ok result =>
    have led := migratingRun_leads returned
    have attempts : Run (MigrationStep migratingHost sampleSource) .empty [migratingOptions, migratingOptions]
        stoppedTwice := .snoc (.snoc .refl (migratingRun_step 9 .empty)) (migratingRun_step 12 _)
    generalize (migratingRun 30 stoppedTwice).2 = last at led
    have placed : ∀ height block, sampleSource.block height = some block → block.height = height := by
      intro height block found
      obtain ⟨one, given⟩ := Option.ite_none_right_eq_some.mp found
      cases given
      exact one.symm
    have fresh : Resumable migratingHost sampleSource (· = migratingOptions) (migratingOptions.target sampleSource)
        ObjectStore.empty := by
      intro key _ object found
      cases found
    have lawful : migratingHost.json.Lawful := ⟨sampleHost_lawful.manifest, sampleHost_lawful.segment⟩
    have resumes := @migration_resumes _ migratingHost _ sampleSource (· = migratingOptions)
      (migratingOptions.target sampleSource) .empty stoppedTwice _ lawful Json.migrating_states sampleHost_rejects placed
      (by decide) (fun opts chosen => congrArg (·.target sampleSource) chosen) fresh (by simp) attempts
    obtain ⟨loads, first, final, -⟩ := resumes.2 migratingOptions result last rfl led
    exact ⟨result, last, attempts, led, loads, first, final⟩

end Sample

end CometArchive.Archive
