import CometArchive.Archive.Heights
import CometArchive.Archive.Hydrate
import CometArchive.Archive.PruneBounds
import CometArchive.Blocksync.ColdSource

set_option autoImplicit false

namespace CometArchive.Archive

open GoBytes GoError

def SegmentManifest.Contains (s : SegmentManifest) (height : Int) : Prop :=
  s.firstHeight ≤ height ∧ height ≤ s.lastHeight

instance (s : SegmentManifest) (height : Int) : Decidable (s.Contains height) :=
  inferInstanceAs (Decidable (s.firstHeight ≤ height ∧ height ≤ s.lastHeight))

theorem SegmentManifest.Valid.block {s : SegmentManifest} {height : Int} (valid : s.Valid) (within : s.Contains height) :
    ∃ block, s.blocks[(height - s.firstHeight).toNat]? = some block ∧ block.height = height := by
  obtain ⟨low, high⟩ := within
  have length := valid.length
  have inside : (height - s.firstHeight).toNat < s.blocks.length := by omega
  refine ⟨_, List.getElem?_eq_getElem inside, ?_⟩
  rw [valid.blocks.getElem (List.getElem?_eq_getElem inside)]
  omega

section Partition

variable {segments : List SegmentManifest} {next stop height : Int}

theorem Tiles.existsUnique (tiles : Tiles next segments stop) (valid : ∀ segment ∈ segments, segment.Valid) :
    next ≤ height ∧ height < stop ↔
      ∃! i : Nat, ∃ segment : SegmentManifest, segments[i]? = some segment ∧ segment.Contains height := by
  -- of the positions of a tiling, exactly one has a segment with the height, if the height is in its range
  constructor
  · rintro ⟨low, high⟩
    obtain ⟨segment, member, within⟩ := tiles.exists_segment low high
    obtain ⟨i, found⟩ := List.getElem?_of_mem member
    refine ⟨i, ⟨segment, found, within⟩, ?_⟩
    rintro j ⟨other, there, also⟩
    obtain ⟨boundI, rfl⟩ := List.getElem?_eq_some_iff.mp found
    obtain ⟨boundJ, rfl⟩ := List.getElem?_eq_some_iff.mp there
    have apart := List.pairwise_iff_getElem.mp (tiles.apart valid)
    -- of two positions, the earlier ends before the later starts
    rcases Nat.lt_trichotomy i j with before | same | after
    · have gap := apart i j boundI boundJ before
      have lowest := also.1
      have highest := within.2
      omega
    · exact same.symm
    · have gap := apart j i boundJ boundI after
      have lowest := within.1
      have highest := also.2
      omega
  · rintro ⟨i, ⟨segment, found, low, high⟩, -⟩
    have bounds := (tiles.bounds valid).2 segment (List.mem_of_getElem? found)
    omega

theorem Tiles.overlapping {segment : SegmentManifest} (tiles : Tiles next segments stop)
    (valid : ∀ segment ∈ segments, segment.Valid) (member : segment ∈ segments) (within : segment.Contains height) :
    segments.filter (fun other => ¬ (other.lastHeight < height ∨ height < other.firstHeight)) = [segment] := by
  induction segments generalizing next with
  | nil => cases member
  | cons head rest ih =>
    obtain ⟨-, others⟩ := List.forall_mem_cons.mp valid
    have above := (tiles.2.bounds others).2
    obtain ⟨low, high⟩ := within
    rcases List.mem_cons.mp member with rfl | later
    · have none : rest.filter (fun other => ¬ (other.lastHeight < height ∨ height < other.firstHeight)) = [] := by
        rw [List.filter_eq_nil_iff]
        intro other listed
        have bounds := above other listed
        rw [decide_eq_true_eq]
        omega
      rw [List.filter_cons_of_pos (by rw [decide_eq_true_eq]; omega), none]
    · have bounds := above segment later
      rw [List.filter_cons_of_neg (by rw [decide_eq_true_eq]; omega)]
      exact ih tiles.2 others later

end Partition

end CometArchive.Archive

namespace CometArchive.Blocksync

open GoBytes GoError Archive ArchiveBlockSource

theorem segmentForHeight_eq_some {segments : List SegmentManifest} {segment : SegmentManifest} {next stop height : Int}
    (tiles : Tiles next segments stop) (valid : ∀ segment ∈ segments, segment.Valid) :
    segmentForHeight segments height = some segment ↔ segment ∈ segments ∧ segment.Contains height := by
  constructor
  · exact segmentForHeight_mem
  · rintro ⟨member, low, high⟩
    have bounds := (tiles.bounds valid).2 segment member
    obtain ⟨other, found⟩ := segmentForHeight_covers tiles valid (by omega : next ≤ height) (by omega)
    obtain ⟨listed, above, below⟩ := segmentForHeight_mem found
    rw [found, tiles.unique valid other listed segment member above below low high]

variable {V : Type}

/-- The segments of a manifest that `Validate` accepts partition its range, and every search finds the same one. -/
theorem lookups_agree (comet : Comet V) {m : Manifest} (fits : m.Int64s) (valid : m.validate64 = .ok ())
    (filled : m.segments ≠ []) :
    (∀ height,
      (m.firstHeight ≤ height ∧ height ≤ m.lastHeight ↔
        ∃! i : Nat, ∃ segment : SegmentManifest, m.segments[i]? = some segment ∧ segment.Contains height) ∧
      (∀ segment, segmentForHeight m.segments height = some segment ↔ segment ∈ m.segments ∧ segment.Contains height) ∧
      ∀ segment ∈ m.segments, segment.Contains height →
        -- the search of the prune boundary, and the filter of `Hydrate` for one height
        m.segments[sortSearch m.segments.length fun i =>
          (m.segments[i]?.map fun other => decide (height ≤ other.lastHeight)).getD false]? = some segment ∧
        m.segments.filter (fun other => ¬ (other.lastHeight < height ∨ height < other.firstHeight)) = [segment] ∧
        wrap64 (height - segment.firstHeight) = height - segment.firstHeight ∧
        ∃ entry, segment.blocks[(height - segment.firstHeight).toNat]? = some entry ∧ entry.height = height ∧
          ∀ blockStore block, blockStore.load height = some block →
            validatePruneBoundary comet blockStore m m.chainID height =
              refuse (equalFold (hexEncode (comet.blockHash block)) entry.hash = false)
                (.new s!"archive block hash at prune boundary {height} does not match hot store")) ∧
    0 < m.firstHeight ∧ IsInt64 (m.lastHeight + 1) ∧
    ∀ segment ∈ m.segments, 0 < segment.firstHeight ∧ IsInt64 (segment.lastHeight + 1) ∧
      ∀ block ∈ segment.blocks, segment.Contains block.height := by
  rw [Manifest.validate64_eq fits, Manifest.validate_eq_ok] at valid
  rcases valid.range with ⟨empty, -⟩ | ⟨-, first, ordered, tiles⟩
  · exact absurd empty filled
  refine ⟨?_, first, ?_, ?_⟩
  · intro height
    refine ⟨?_, fun _ => segmentForHeight_eq_some tiles valid.segments, ?_⟩
    · rw [← tiles.existsUnique valid.segments]
      omega
    · intro segment member within
      have segmentValid := valid.segments segment member
      have positive := segmentValid.first
      have bounded := segmentValid.bounded
      obtain ⟨entry, found, same⟩ := segmentValid.block within
      obtain ⟨low, high⟩ := within
      refine ⟨tiles.pruneSearch valid.segments member low high, tiles.overlapping valid.segments member ⟨low, high⟩,
        wrap64_of_isInt64 ⟨by omega, by omega⟩, entry, found, same, ?_⟩
      intro blockStore block loaded
      rw [validatePruneBoundary_eq valid member low high found loaded]
      rw [refuse_eq_ok.mpr (not_not.mpr rfl)]
      rfl
  · have reached := tiles.getLast (List.getLast?_eq_getLast_of_ne_nil filled)
    have bounded := (valid.segments _ (List.getLast_mem filled)).bounded
    exact ⟨by omega, by omega⟩
  · intro segment member
    have segmentValid := valid.segments segment member
    have positive := segmentValid.first
    have low := segmentValid.last
    have bounded := segmentValid.bounded
    have length := segmentValid.length
    refine ⟨positive, ⟨by omega, by omega⟩, ?_⟩
    intro block listed
    have within := segmentValid.blocks.bounds block listed
    exact ⟨within.1, by omega⟩

theorem lookups_agree_units :
    segmentForHeight unitsManifest.segments 2 = some (unitSegment "b" 2) ∧
    unitsManifest.segments.filter (fun other => ¬ (other.lastHeight < 2 ∨ 2 < other.firstHeight)) = [unitSegment "b" 2] := by
  have agree := (lookups_agree Comet.plain (by constructor <;> decide +kernel : unitsManifest.Int64s) (by decide +kernel)
    (by decide +kernel)).1 2
  have member : unitSegment "b" 2 ∈ unitsManifest.segments := by decide +kernel
  have within : (unitSegment "b" 2).Contains 2 := by decide
  exact ⟨(agree.2.1 _).mpr ⟨member, within⟩, (agree.2.2 _ member within).2.1⟩

end CometArchive.Blocksync
