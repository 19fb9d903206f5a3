import CometArchive.Archive.Hydrate
import CometArchive.Archive.Incremental
import CometArchive.Blocksync.ColdSource

set_option autoImplicit false

namespace CometArchive.Blocksync

open GoBytes GoError Archive Programs Programs.Fallible Runs

namespace ArchiveBlockSource

section Cache

variable {source : ArchiveBlockSource} {key : Bytes} {records : List BlockRecord} {element : SegmentElement}
  {elements kept : List SegmentElement} {limit size bytes bytes' : Int}
  {segments segments' : Bytes → Option SegmentElement}

def Mapped (segments : Bytes → Option SegmentElement) (elements : List SegmentElement) : Prop :=
  -- the map holds the elements of the list under their keys
  ∀ key element, segments key = some element ↔ element ∈ elements ∧ element.key = key

def totalBytes (elements : List SegmentElement) : Int := (elements.map (·.bytes)).sum

theorem moveToFront_perm (distinct : (elements.map (·.id)).Nodup) (member : element ∈ elements) :
    (moveToFront element elements).Perm elements := by
  have listed : elements.any (·.id = element.id) = true := by
    rw [List.any_eq_true]
    exact ⟨element, member, by simp⟩
  rw [moveToFront, if_pos listed]
  clear listed
  induction elements with
  | nil => cases member
  | cons head rest ih =>
    rw [List.map_cons, List.nodup_cons] at distinct
    obtain ⟨new, distinct⟩ := distinct
    rcases List.mem_cons.mp member with rfl | member
    · rw [List.filter_cons_of_neg (by simp), List.filter_eq_self.mpr]
      intro other listed
      have differs : other.id ≠ element.id := by
        intro same
        rw [← same] at new
        exact new (List.mem_map_of_mem listed)
      simpa using differs
    · have differs : head.id ≠ element.id := by
        intro same
        rw [same] at new
        exact new (List.mem_map_of_mem member)
      rw [List.filter_cons_of_pos (by simpa using differs)]
      exact (List.Perm.swap ..).trans ((ih distinct member).cons head)

/-- Elements that make way leave both the list and the map, and the loop ends before the list is empty or
when it is, since `size` fits. -/
theorem evict_spec (fits : size ≤ limit) (mapped : Mapped segments elements) (distinct : (elements.map (·.id)).Nodup) :
    ∃ kept segments', evict limit size elements (totalBytes elements) segments =
        some (kept, totalBytes kept, segments') ∧ kept.Sublist elements ∧ Mapped segments' kept ∧
      totalBytes kept + size ≤ limit := by
  induction elements generalizing segments with
  | nil =>
    refine ⟨[], segments, if_neg ?_, List.Sublist.refl _, mapped, ?_⟩
    all_goals simpa [totalBytes] using fits
  | cons head rest ih =>
    rw [List.map_cons, List.nodup_cons] at distinct
    obtain ⟨new, distinct⟩ := distinct
    by_cases full : limit < totalBytes (head :: rest) + size
    · have without : Mapped (Function.update segments head.key none) rest := by
        intro other element
        by_cases same : other = head.key
        · subst same
          rw [Function.update_self]
          refine ⟨by simp, ?_⟩
          rintro ⟨member, named⟩
          have twice := (mapped _ element).mpr ⟨List.mem_cons_of_mem _ member, named⟩
          rw [(mapped _ head).mpr ⟨List.mem_cons_self, rfl⟩] at twice
          cases twice
          exact absurd (List.mem_map_of_mem member) new
        · rw [Function.update_of_ne same, mapped, List.mem_cons]
          constructor
          · rintro ⟨rfl | member, named⟩
            · exact absurd named.symm same
            · exact ⟨member, named⟩
          · exact fun ⟨member, named⟩ => ⟨.inr member, named⟩
      obtain ⟨kept, segments', evicted, fewer, mapped, room⟩ := ih without distinct
      refine ⟨kept, segments', ?_, fewer.cons head, mapped, room⟩
      have less : totalBytes (head :: rest) - head.bytes = totalBytes rest := by
        simp [totalBytes]
      rw [evict, if_pos full, less]
      exact evicted
    · exact ⟨head :: rest, segments, if_neg full, List.Sublist.refl _, mapped, by omega⟩

structure Kept (source : ArchiveBlockSource) : Prop where
  -- the list, the map and the count of bytes agree
  mapped : Mapped source.segments source.segmentLRU
  distinct : (source.segmentLRU.map (·.id)).Nodup
  old : ∀ element ∈ source.segmentLRU, element.id < source.fresh
  bytes : source.segmentBytes = totalBytes source.segmentLRU

theorem Kept.moveToFront (inOrder : source.Kept) (found : source.segments key = some element) :
    Kept { source with segmentLRU := moveToFront element source.segmentLRU } := by
  have member := ((inOrder.mapped key element).mp found).1
  have same := moveToFront_perm inOrder.distinct member
  refine ⟨?_, ?_, ?_, ?_⟩
  · intro other element
    rw [same.mem_iff]
    exact inOrder.mapped other element
  · exact (same.map _).nodup_iff.mpr inOrder.distinct
  · intro element member
    exact inOrder.old element (same.mem_iff.mp member)
  · exact inOrder.bytes.trans (same.map _).sum_eq.symm

theorem Kept.keepSegment (inOrder : source.Kept) (absent : source.segments key = none) (records : List BlockRecord) :
    ∃ segments segmentLRU segmentBytes fresh, source.keepSegment key records =
        some { source with segments, segmentLRU, segmentBytes, fresh } ∧
      Kept { source with segments, segmentLRU, segmentBytes, fresh } ∧
      (∀ other element, segments other = some element → source.segments other = some element ∨
        other = key ∧ element.records = records ∧ element.bytes = recordsSize key records) ∧
      (source.segmentBytes ≤ source.segmentCacheLimit → segmentBytes ≤ source.segmentCacheLimit) := by
  by_cases fits : recordsSize key records ≤ source.segmentCacheLimit
  · have reversed : Mapped source.segments source.segmentLRU.reverse := by
      intro other element
      rw [List.mem_reverse]
      exact inOrder.mapped other element
    have distinct : (source.segmentLRU.reverse.map (·.id)).Nodup := by
      rw [List.map_reverse, List.nodup_reverse]
      exact inOrder.distinct
    have total : source.segmentBytes = totalBytes source.segmentLRU.reverse := by
      rw [inOrder.bytes, totalBytes, totalBytes, List.map_reverse, List.sum_reverse]
    obtain ⟨kept, segments, evicted, fewer, mapped, room⟩ := evict_spec fits reversed distinct
    have before : ∀ element ∈ kept, element ∈ source.segmentLRU := fun element member =>
      List.mem_reverse.mp (fewer.subset member)
    let added : SegmentElement := { id := source.fresh, key, records, bytes := recordsSize key records }
    refine ⟨Function.update segments key (some added), added :: kept.reverse, totalBytes kept + recordsSize key records,
      source.fresh + 1, ?_, ⟨?_, ?_, ?_, ?_⟩, ?_, fun _ => room⟩
    · rw [ArchiveBlockSource.keepSegment, if_pos fits, total, evicted]
      rfl
    · intro other element
      dsimp only
      rw [List.mem_cons, List.mem_reverse]
      by_cases same : other = key
      · subst same
        rw [Function.update_self, Option.some.injEq]
        constructor
        · rintro rfl
          exact ⟨.inl rfl, rfl⟩
        · rintro ⟨rfl | member, named⟩
          · rfl
          · -- the key was not there, so no element that is left has it
            have found := (inOrder.mapped _ element).mpr ⟨before element member, named⟩
            rw [absent] at found
            cases found
      · rw [Function.update_of_ne same, mapped]
        constructor
        · exact fun ⟨member, named⟩ => ⟨.inr member, named⟩
        · rintro ⟨rfl | member, named⟩
          · exact absurd named.symm same
          · exact ⟨member, named⟩
    · change (source.fresh :: kept.reverse.map (·.id)).Nodup
      rw [List.nodup_cons, List.map_reverse, List.nodup_reverse]
      refine ⟨?_, (fewer.map _).nodup distinct⟩
      intro listed
      obtain ⟨element, member, same⟩ := List.mem_map.mp (List.mem_reverse.mp listed)
      have older := inOrder.old element (before element member)
      omega
    · intro element member
      dsimp only
      rcases List.mem_cons.mp member with rfl | member
      · exact Nat.lt_succ_self _
      · have older := inOrder.old element (before element (List.mem_reverse.mp member))
        omega
    · change _ = totalBytes (added :: kept.reverse)
      simp [totalBytes, List.sum_reverse, added, add_comm]
    · intro other element found
      by_cases same : other = key
      · subst same
        rw [Function.update_self] at found
        rw [← Option.some.inj found]
        exact .inr ⟨rfl, rfl, rfl⟩
      · rw [Function.update_of_ne same, mapped] at found
        exact .inl ((inOrder.mapped other element).mpr ⟨before element found.1, found.2⟩)
  · refine ⟨source.segments, source.segmentLRU, source.segmentBytes, source.fresh, if_neg fits, inOrder, ?_, id⟩
    intro other element found
    exact .inl found

end Cache

end ArchiveBlockSource

section Calls

variable {V : Type} {host : Host V} {manifestKey : String} {contentOf : String → Bytes} {w w' : World contentOf}
  {m : Manifest} {α : Type}

def Steady : (op : ColdOp) → World contentOf → op.Res → World contentOf → Prop := ColdEffect (fun s => Faithful s) True

theorem onStore_achieves {p : M α} {value : α → Prop} {post : Except Err α → World contentOf → Prop}
    (sure : p.Sure (Faithful w.store) value) (holds : ∀ result, value result → post (.ok result) w) :
    (onStore p).run.Achieves Steady post w := by
  have ends : ∀ result, p.run.Outcome (Faithful w.store) result → post result w := by
    intro result ended
    obtain ⟨result, rfl, done⟩ := sure.outcome ended
    exact holds result done
  change (p.run.embed _ _).Achieves Steady post w
  generalize p.run = program at ends
  induction program with
  | ret result => exact ends result rfl
  | call op next ih =>
    constructor
    · obtain ⟨answer, answered⟩ := faithful_served w.store op
      exact ⟨answer, w, rfl, answered⟩
    · rintro answer _ ⟨rfl, answered⟩
      exact ih answer fun result ended => ends result ⟨answer, answered, ended⟩

/-- Between two calls no load is under way, and what is cached is right. -/
structure Quiet (host : Host V) (m : Manifest) (w : World contentOf) : Prop where
  manifest : ∀ cached loadedAt, w.source.cachedManifest = some (cached, loadedAt) → cached = m
  flight : w.source.manifestFlight = none
  flights : ∀ key, w.source.flights key = none
  slots : w.source.fetchSlots = 0
  kept : w.source.Kept
  records : ∀ segment ∈ m.segments, ∀ key element, host.json.marshalSegment segment = .ok key →
    w.source.segments key = some element → DecodesTo host w.store segment element.records

theorem newArchiveBlockSource_quiet {source : ArchiveBlockSource} {s : ObjectStore contentOf} {now : Int}
    (created : newArchiveBlockSource host manifestKey = .ok source) : Quiet host m ⟨s, source, now⟩ := by
  unfold newArchiveBlockSource at created
  rw [then_eq_ok, then_eq_ok, then_eq_ok] at created
  obtain ⟨-, -, -, same⟩ := created
  cases same
  refine ⟨by simp, rfl, by simp, rfl, ⟨?_, .nil, by simp, rfl⟩, by simp⟩
  intro key element
  simp

theorem loadManifest_achieves (quiet : Quiet host m w) (loads : Loads host manifestKey w.store m) :
    (ArchiveBlockSource.loadManifest host manifestKey).run.Achieves Steady
      (fun result w' => result = .ok m ∧ Quiet host m w' ∧ w'.store = w.store) w := by
  unfold ArchiveBlockSource.loadManifest
  apply achieves_bind
  refine ⟨⟨_, _, rfl, rfl⟩, ?_⟩
  rintro _ _ ⟨rfl, rfl⟩
  refine ⟨_, rfl, ?_⟩
  unfold ArchiveBlockSource.enterManifest
  cases fresh : w.source.freshManifest w.now with
  | some cached =>
    have same : cached = m := by
      unfold ArchiveBlockSource.freshManifest at fresh
      split at fresh
      next found =>
        split at fresh
        next =>
          cases fresh
          exact quiet.manifest _ _ found
        next => cases fresh
      next => cases fresh
    subst same
    exact ⟨rfl, quiet, rfl⟩
  | none =>
    simp only [quiet.flight]
    apply achieves_bind
    refine Prog.Achieves.bind (onStore_achieves loads.sure ?_)
    rintro _ rfl
    refine ⟨_, rfl, ?_⟩
    apply achieves_bind
    refine ⟨⟨(), _, rfl⟩, ?_⟩
    rintro _ _ rfl
    refine ⟨(), rfl, rfl, ⟨?_, rfl, quiet.flights, quiet.slots, ?_, quiet.records⟩, rfl⟩
    · intro cached loadedAt same
      cases same
      rfl
    · refine ⟨quiet.kept.mapped, quiet.kept.distinct, ?_, quiet.kept.bytes⟩
      intro element member
      exact Nat.lt_succ_of_lt (quiet.kept.old element member)

def Told (host : Host V) (m : Manifest) : Prop :=
  -- descriptors of the manifest that differ have different texts
  ∀ a ∈ m.segments, ∀ b ∈ m.segments, ∀ text, host.json.marshalSegment a = .ok text →
    host.json.marshalSegment b = .ok text → a = b

theorem loadSegment_achieves {segment : SegmentManifest} {records : List BlockRecord} (quiet : Quiet host m w)
    (json : host.json.Lawful) (told : Told host m) (listed : segment ∈ m.segments)
    (decodes : DecodesTo host w.store segment records) (fuel : Nat) :
    (ArchiveBlockSource.loadSegment host (fuel + 1) segment).run.Achieves Steady
      (fun result w' => result = .ok records ∧ Quiet host m w' ∧ w'.store = w.store) w := by
  obtain ⟨text, marshalled⟩ := json.segment segment
  unfold ArchiveBlockSource.loadSegment
  apply achieves_bind
  refine ⟨text, textual_eq_ok.mpr marshalled, ?_⟩
  unfold ArchiveBlockSource.acquireSegment
  apply achieves_bind
  refine ⟨⟨_, _, rfl, rfl⟩, ?_⟩
  rintro _ _ ⟨rfl, rfl⟩
  refine ⟨_, rfl, ?_⟩
  unfold ArchiveBlockSource.enterSegment
  cases found : w.source.segments text with
  | some element =>
    have same := (quiet.records segment listed text element marshalled found).unique decodes
    subst same
    exact ⟨rfl, ⟨quiet.manifest, quiet.flight, quiet.flights, quiet.slots, quiet.kept.moveToFront found, quiet.records⟩, rfl⟩
  | none =>
    simp only [quiet.flights, quiet.slots, maxFetchSlots, Nat.zero_lt_succ, if_true]
    apply achieves_bind
    refine Prog.Achieves.bind (onStore_achieves (Leaves.mono decodes.leaves fun _ _ read => read.2) ?_)
    intro read same
    rw [same]
    refine ⟨_, rfl, ?_⟩
    -- nothing of the cache has changed since the section before
    have before : ArchiveBlockSource.Kept { w.source with
        flights := Function.update w.source.flights text (some w.source.fresh)
        fetchSlots := 1
        fresh := w.source.fresh + 1 } :=
      ⟨quiet.kept.mapped, quiet.kept.distinct,
        fun element member => Nat.lt_succ_of_lt (quiet.kept.old element member), quiet.kept.bytes⟩
    obtain ⟨segments, segmentLRU, segmentBytes, fresh, keeps, kept, entries, -⟩ := before.keepSegment found records
    have finished := congrArg (fun after => after.bind fun source : ArchiveBlockSource => some { source with
      segmentLoads := Function.update source.segmentLoads w.source.fresh (some (.ok records))
      flights := Function.update source.flights text none }) keeps
    apply achieves_bind
    refine ⟨⟨(), _, _, finished, rfl⟩, ?_⟩
    rintro _ _ ⟨after, again, rfl⟩
    cases finished.symm.trans again
    refine ⟨(), rfl, ?_⟩
    apply achieves_bind
    refine ⟨⟨(), _, Nat.zero_lt_one, rfl⟩, ?_⟩
    rintro _ _ ⟨-, rfl⟩
    refine ⟨(), rfl, rfl, ⟨quiet.manifest, quiet.flight, ?_, rfl, ?_, ?_⟩, rfl⟩
    · intro other
      dsimp only
      rw [Function.update_idem, Function.update_apply]
      split
      · rfl
      · exact quiet.flights other
    · exact ⟨kept.mapped, kept.distinct, kept.old, kept.bytes⟩
    · intro other member key element described cached
      rcases entries key element cached with old | ⟨rfl, same, -⟩
      · exact quiet.records other member key element described old
      · cases told _ member _ listed _ described marshalled
        rw [same]
        exact decodes

theorem decodesTo_block {s : ObjectStore contentOf} {segment : SegmentManifest} {records : List BlockRecord} {height : Int}
    (decodes : DecodesTo host s segment records) (listed : segment ∈ m.segments) (above : segment.firstHeight ≤ height)
    (below : height ≤ segment.lastHeight) :
    ∃ record block, records[(height - segment.firstHeight).toNat]? = some record ∧
      recordToBlock host.comet record = .ok block ∧ m.Names host.comet height block := by
  obtain ⟨object, -, decoded⟩ := decodes
  obtain ⟨indexed, accepted⟩ := decodeSegmentRecords_spec host.codec decoded
  obtain ⟨record, member, sameHeight, indexes, position⟩ := indexed.exists_record above below
  obtain ⟨block, read⟩ := validateDecodedBlockRecord_eq_ok.mp (accepted record member)
  obtain ⟨blockHeight, hash⟩ := recordToBlock_spec read
  rw [← hash] at indexes
  exact ⟨record, block, position, read, by omega, segment, listed, indexes⟩

def Answers (comet : Comet V) (m : Manifest) (height : Int) (answer : Except Err Block) : Prop :=
  (0 < height → m.firstHeight ≤ height → height ≤ m.lastHeight →
      ∃ block, answer = .ok block ∧ m.Names comet height block) ∧
    ((height ≤ 0 ∨ height < m.firstHeight ∨ m.lastHeight < height) → answer = .error (.sentinel .coldBlockNotFound))

theorem loadBlock_achieves (quiet : Quiet host m w) (json : host.json.Lawful) (told : Told host m)
    (intact : Intact host manifestKey w.store m) (fuel : Nat) (height : Int) :
    (ArchiveBlockSource.loadBlock host manifestKey (fuel + 1) height).run.Achieves Steady
      (fun answer w' => Answers host.comet m height answer ∧ Quiet host m w' ∧ w'.store = w.store) w := by
  have valid := intact.loads.valid
  unfold ArchiveBlockSource.loadBlock
  by_cases positive : 0 < height
  · apply achieves_bind
    refine ⟨(), refuse_eq_ok.mpr (by omega), ?_⟩
    apply achieves_bind
    apply achieves_mapErr
    refine (loadManifest_achieves quiet intact.loads).mono ?_
    rintro _ w₁ ⟨rfl, quiet, same⟩
    refine ⟨m, rfl, ?_⟩
    cases search : ArchiveBlockSource.segmentForHeight m.segments height with
    | none =>
      refine ⟨⟨?_, fun _ => rfl⟩, quiet, same⟩
      intro _ low high
      rcases valid.range with ⟨-, first, last⟩ | ⟨-, -, -, tiles⟩
      · omega
      · obtain ⟨segment, found⟩ := ArchiveBlockSource.segmentForHeight_covers tiles valid.segments low (by omega)
        rw [found] at search
        cases search
    | some segment =>
      obtain ⟨listed, above, below⟩ := ArchiveBlockSource.segmentForHeight_mem search
      obtain ⟨records, decodes⟩ := (intact.readable segment listed).decodesTo
      rw [← same] at decodes
      apply achieves_bind
      refine (loadSegment_achieves quiet json told listed decodes fuel).mono ?_
      rintro _ w₂ ⟨rfl, quiet, again⟩
      refine ⟨records, rfl, ?_⟩
      obtain ⟨record, block, position, read, named⟩ := decodesTo_block decodes listed above below
      dsimp only
      rw [if_neg (by omega), position]
      have inside := valid.bounds named.2
      refine ⟨⟨fun _ _ _ => ⟨block, read, named⟩, ?_⟩, quiet, again.trans same⟩
      intro outside
      omega
  · -- the bind stops at the first error
    have refused : refuse (height ≤ 0) (.sentinel .coldBlockNotFound : Err) = .error (.sentinel .coldBlockNotFound) :=
      if_pos (by omega)
    rw [refused]
    refine ⟨⟨?_, fun _ => rfl⟩, quiet, rfl⟩
    intro above
    exact absurd above positive

theorem advertisedRange_achieves (quiet : Quiet host m w) (loads : Loads host manifestKey w.store m) :
    (ArchiveBlockSource.advertisedRange host manifestKey).run.Achieves Steady
      (fun answer w' => answer = .ok ⟨m.firstHeight, m.lastHeight⟩ ∧ Quiet host m w' ∧ w'.store = w.store) w := by
  unfold ArchiveBlockSource.advertisedRange recover
  refine Prog.Achieves.bind (achieves_bind ((loadManifest_achieves quiet loads).mono ?_))
  rintro _ w' ⟨rfl, later⟩
  refine ⟨m, rfl, ?_⟩
  by_cases empty : m.lastHeight = 0
  · rw [if_pos empty]
    have first : m.firstHeight = 0 := by
      rcases loads.valid.range with ⟨-, first, -⟩ | ⟨-, first, last, -⟩
      · exact first
      · omega
    rw [first, empty]
    exact ⟨rfl, later⟩
  · rw [if_neg empty]
    exact ⟨rfl, later⟩

inductive Call where
  | loadBlock (height : Int)
  | advertisedRange
  | setManifestCacheTTL (ttl : Int)
  | wait (time : Int)

def Called (host : Host V) (manifestKey : String) (w : World contentOf) : Call → World contentOf → Prop
  | .loadBlock height, w' =>
    ∃ fuel answer, (ArchiveBlockSource.loadBlock host manifestKey (fuel + 1) height).run.Leads Steady w answer w'
  | .advertisedRange, w' => ∃ answer, (ArchiveBlockSource.advertisedRange host manifestKey).run.Leads Steady w answer w'
  | .setManifestCacheTTL ttl, w' => ∃ source, w.source.setManifestCacheTTL ttl = .ok source ∧ w' = { w with source }
  | .wait time, w' => w' = { w with now := w.now + time }

theorem Called.quiet {call : Call} (json : host.json.Lawful) (told : Told host m)
    (intact : Intact host manifestKey w.store m) (quiet : Quiet host m w) (called : Called host manifestKey w call w') :
    Quiet host m w' ∧ w'.store = w.store := by
  cases call with
  | loadBlock height =>
    obtain ⟨fuel, answer, led⟩ := called
    exact ((loadBlock_achieves quiet json told intact fuel height).leads led).2
  | advertisedRange =>
    obtain ⟨answer, led⟩ := called
    exact ((advertisedRange_achieves quiet intact.loads).leads led).2
  | setManifestCacheTTL ttl =>
    obtain ⟨source, changed, rfl⟩ := called
    unfold ArchiveBlockSource.setManifestCacheTTL at changed
    rw [then_eq_ok] at changed
    obtain ⟨-, changed⟩ := changed
    cases changed
    refine ⟨⟨?_, quiet.flight, quiet.flights, quiet.slots, ?_, quiet.records⟩, rfl⟩
    · intro cached loadedAt found
      dsimp only at found
      split at found
      · cases found
      · exact quiet.manifest cached loadedAt found
    · exact ⟨quiet.kept.mapped, quiet.kept.distinct, quiet.kept.old, quiet.kept.bytes⟩
  | wait time =>
    cases called
    exact ⟨⟨quiet.manifest, quiet.flight, quiet.flights, quiet.slots, quiet.kept, quiet.records⟩, rfl⟩

theorem Called.run_quiet {calls : List Call} (json : host.json.Lawful) (told : Told host m)
    (intact : Intact host manifestKey w.store m) (quiet : Quiet host m w)
    (run : Run (Called host manifestKey) w calls w') : Quiet host m w' ∧ w'.store = w.store := by
  refine run.preserves (fun w' => Quiet host m w' ∧ w'.store = w.store) ⟨quiet, rfl⟩ ?_
  rintro w₁ call w₂ ⟨quiet, same⟩ called
  rw [← same] at intact
  obtain ⟨quiet, again⟩ := called.quiet json told intact quiet
  exact ⟨quiet, again.trans same⟩

/-- An archive that verifies is read alike by all readers: by `LoadBlock` after whatever calls on the source,
by `DecodeSegmentBlock` and by `Hydrate`. -/
theorem verified_archive_readable {s : ObjectStore contentOf} {result : VerifyResult} {source : ArchiveBlockSource}
    {now : Int} {calls : List Call} (json : host.json.Lawful) (told : Told host result.manifest)
    (verified : (fullVerify host manifestKey).Returns (Faithful s) result)
    (created : newArchiveBlockSource host manifestKey = .ok source)
    (run : Run (Called host manifestKey) ⟨s, source, now⟩ calls w) :
    (∀ fuel height, (ArchiveBlockSource.loadBlock host manifestKey (fuel + 1) height).run.Achieves Steady
      (fun answer _ => Answers host.comet result.manifest height answer) w) ∧
    (∀ height, 0 < height → result.manifest.firstHeight ≤ height → height ≤ result.manifest.lastHeight →
      ∃ segment ∈ result.manifest.segments, segment.firstHeight ≤ height ∧ height ≤ segment.lastHeight) ∧
    (∀ segment ∈ result.manifest.segments, ∀ height, segment.firstHeight ≤ height → height ≤ segment.lastHeight →
      ∃ object block, s.objects segment.key = some object ∧
        decodeSegmentBlock host.codec host.comet object.data segment height = .ok block ∧
        result.manifest.Names host.comet height block) ∧
    ∀ (opts : HydrateOptions) start stop, opts.manifestKey = manifestKey → opts.cacheDir ≠ "" → 0 ≤ opts.maxBytes →
      (start = if opts.startHeight = 0 then result.manifest.firstHeight else opts.startHeight) →
      (stop = if opts.endHeight = 0 then result.manifest.lastHeight else opts.endHeight) →
      0 < start → result.manifest.firstHeight ≤ start → start ≤ stop → stop ≤ result.manifest.lastHeight →
      ∃ records, Follows start records (stop + 1) ∧
        (∀ record ∈ records, ∃ segment ∈ result.manifest.segments, ∃ all, DecodesTo host s segment all ∧ record ∈ all) ∧
        (hydrate host opts).Leaves (Faithful s) fun trace hydrated =>
          written trace = records.map (blockFile (blockDir opts.cacheDir result.manifest.chainID)) ∧
            hydrated.blocksWritten = records.length := by
  have intact := verify_returns rfl (returns_truthful verified)
  change Intact host manifestKey s result.manifest at intact
  obtain ⟨quiet, same⟩ := Called.run_quiet json told intact (newArchiveBlockSource_quiet created) run
  refine ⟨?_, ?_, ?_, ?_⟩
  · intro fuel height
    change w.store = s at same
    rw [← same] at intact
    exact (loadBlock_achieves quiet json told intact fuel height).mono fun _ _ ended => ended.1
  · intro height positive low high
    rcases intact.loads.valid.range with ⟨-, first, last⟩ | ⟨-, -, -, tiles⟩
    · omega
    · exact tiles.exists_segment low (by omega)
  · intro segment listed height above below
    exact intact.decodes_block listed above below
  · rintro opts start stop rfl placed limit starts stops positive low ordered high
    exact intact.hydrate placed limit starts stops positive low ordered high

end Calls

section Sample

theorem verified_archive_sample : ∃ (s : ObjectStore spelledContent) (source : ArchiveBlockSource) (w : World spelledContent)
    (m : Manifest) (calls : List Call), Run (Called sampleHost (sampleJob "").key) ⟨s, source, 0⟩ calls w ∧ calls ≠ [] ∧
      m.firstHeight = 1 ∧ m.lastHeight = 1 ∧
      (ArchiveBlockSource.loadBlock sampleHost (sampleJob "").key 1 1).run.Achieves Steady
        (fun answer _ => ∃ block, answer = .ok block ∧ m.Names sampleComet 1 block) w := by
  obtain ⟨s, manifest, intact⟩ := sampleStore_intact
  generalize (sampleJob "").key = manifestKey at *
  have whole : (fullVerify sampleHost manifestKey).Sure (Faithful s) fun result => result.manifest = manifest := by
    apply Intact.sure sampleHost_lawful rfl
    exact intact
  obtain ⟨result, verified, rfl⟩ := whole.returns (faithful_served s)
  have only : ∀ segment ∈ result.manifest.segments, segment = sampleSegment :=
    sampleStore_describes manifestKey s result.manifest intact.loads
  have told : Told sampleHost result.manifest := by
    intro a left b right _ _ _
    rw [only a left, only b right]
  obtain ⟨source, created⟩ : ∃ source, newArchiveBlockSource sampleHost manifestKey = .ok source := by
    have named : refuse (manifestKey = "") (.new "manifest key is required" : Err) = .ok () :=
      refuse_eq_ok.mpr intact.loads.named_ne
    exact ⟨_, then_eq_ok.mpr ⟨rfl, then_eq_ok.mpr ⟨named, then_eq_ok.mpr ⟨intact.loads.named, rfl⟩⟩⟩⟩
  have step : Called sampleHost manifestKey ⟨s, source, 0⟩ (.wait 1) ⟨s, source, 1⟩ := rfl
  have range : result.manifest.firstHeight = 1 ∧ result.manifest.lastHeight = 1 := by
    obtain ⟨object, read, -, -, parsed, same⟩ := intact.loads.stored
    simp only [sampleHost, Json.only] at parsed
    split at parsed
    · cases parsed
      rw [same]
      exact ⟨rfl, rfl⟩
    · cases parsed
  obtain ⟨loaded, -⟩ := verified_archive_readable sampleHost_lawful told verified created (Run.cons step .refl)
  refine ⟨s, source, _, result.manifest, _, Run.cons step .refl, by simp, range.1, range.2, ?_⟩
  refine (loaded 0 1).mono ?_
  intro answer _ answers
  exact answers.1 (by omega) (by omega) (by omega)

end Sample

end CometArchive.Blocksync
