import CometArchive.Archive.Tiling

set_option autoImplicit false

namespace CometArchive.Archive

open GoBytes GoError

def validateBlockIndex64 (firstHeight : Int) : Nat → List BlockIndex → Except Err Unit
  | _, [] => .ok ()
  | i, block :: rest => do
    let wantHeight := wrap64 (firstHeight + i)
    refuse (block.height ≠ wantHeight) (.new s!"block index height {block.height}, expected {wantHeight}")
    refuse (block.hash.length ≠ blockHashHexLen)
      (.new s!"block index for height {block.height} hash must be {blockHashHexLen} hex characters")
    refuse (isHex block.hash = false)
      (.wrap s!"block index for height {block.height} hash is not valid hex" (.new (hexDecodeError block.hash)))
    validateBlockIndex64 firstHeight (i + 1) rest

def SegmentManifest.validate64 (s : SegmentManifest) : Except Err Unit := do
  validateObjectKey s.key
  refuse (s.firstHeight ≤ 0 ∨ s.lastHeight < s.firstHeight ∨ s.lastHeight = maxInt64)
    (.new s!"invalid height range {s.firstHeight}-{s.lastHeight}")
  refuse (s.compression = "") (.new "compression is required")
  validateCompression s.compression
  refuse (s.sizeBytes ≤ 0) (.new "size_bytes must be positive")
  refuse (s.sha256.length ≠ blockHashHexLen) (.new "sha256 must be 64 hex characters")
  refuse (isHex s.sha256 = false) (.wrap "sha256 is not valid hex" (.new (hexDecodeError s.sha256)))
  refuse (maxSegmentBlocks ≤ wrap64 (s.lastHeight - s.firstHeight)) (.new "segment block count exceeds maximum")
  let want := wrap64 (wrap64 (s.lastHeight - s.firstHeight) + 1)
  refuse ((s.blocks.length : Int) ≠ want) (.new s!"block index length {s.blocks.length}, expected {want}")
  validateBlockIndex64 s.firstHeight 0 s.blocks

def validateSegments64 : Nat → Int → List String → List SegmentManifest → Except Err Int
  | _, expected, _, [] => .ok expected
  | i, expected, seen, segment :: rest => do
    wrapping s!"segment {i}" segment.validate64
    refuse (segment.key ∈ seen) (.new s!"duplicate segment key {quoted segment.key}")
    refuse (segment.firstHeight ≠ expected)
      (.new s!"segment {i} starts at {segment.firstHeight}, expected {expected}")
    validateSegments64 (i + 1) (wrap64 (segment.lastHeight + 1)) (segment.key :: seen) rest

def Manifest.validate64 (m : Manifest) : Except Err Unit := do
  refuse (m.version ≠ manifestVersion) (.new s!"unsupported manifest version {m.version}")
  refuse (m.chainID = "") (.new "manifest chain_id is required")
  validateArchiveChainID m.chainID
  refuse (m.createdAt ≠ 0 ∧ m.updatedAt ≠ 0 ∧ m.updatedAt < m.createdAt)
    (.new "manifest updated_at must not be before created_at")
  if m.segments = [] then
    refuse (m.firstHeight ≠ 0 ∨ m.lastHeight ≠ 0) (.new "empty manifest must not define a height range")
  else
    refuse (m.firstHeight ≤ 0 ∨ m.lastHeight < m.firstHeight)
      (.new s!"invalid manifest height range {m.firstHeight}-{m.lastHeight}")
    let expected ← validateSegments64 0 m.firstHeight [] m.segments
    refuse (wrap64 (expected - 1) ≠ m.lastHeight)
      (.new s!"manifest last height {m.lastHeight} does not match segments ending at {wrap64 (expected - 1)}")

def IsInt64 (value : Int) : Prop := -2 ^ 63 ≤ value ∧ value ≤ maxInt64

instance (value : Int) : Decidable (IsInt64 value) :=
  inferInstanceAs (Decidable (-2 ^ 63 ≤ value ∧ value ≤ maxInt64))

structure Manifest.Int64s (m : Manifest) : Prop where
  first : IsInt64 m.firstHeight
  last : IsInt64 m.lastHeight
  segments : ∀ segment ∈ m.segments, IsInt64 segment.firstHeight ∧ IsInt64 segment.lastHeight

theorem wrap64_of_isInt64 {value : Int} (fits : IsInt64 value) : wrap64 value = value := by
  obtain ⟨low, high⟩ := fits
  unfold maxInt64 at high
  exact wrap64_of_bounds value low (by omega)

section Wrap

theorem then_congr {ε α : Type} {check : Except ε Unit} {f g : Unit → Except ε α}
    (same : check = .ok () → f () = g ()) : (check >>= f) = (check >>= g) := by
  cases check with
  | error err => rfl
  | ok _ => exact same rfl

theorem validateBlockIndex64_eq {first : Int} {i : Nat} {blocks : List BlockIndex} (positive : 0 < first)
    (fits : first + i + blocks.length ≤ maxInt64) :
    validateBlockIndex64 first i blocks = validateBlockIndex (first + i) blocks := by
  induction blocks generalizing i with
  | nil => rfl
  | cons block rest ih =>
    rw [List.length_cons] at fits
    push_cast at fits
    have exact64 : wrap64 (first + i) = first + i := wrap64_of_isInt64 ⟨by omega, by omega⟩
    have rest64 := ih (i := i + 1) (by push_cast; omega)
    push_cast at rest64
    rw [← add_assoc] at rest64
    simp only [validateBlockIndex64, validateBlockIndex, exact64, rest64]

theorem SegmentManifest.validate64_eq {s : SegmentManifest} (fits : IsInt64 s.lastHeight) : s.validate64 = s.validate := by
  unfold validate64 validate
  refine then_congr fun _ => ?_
  have top : s.lastHeight = maxInt64 ↔ maxInt64 ≤ s.lastHeight := ⟨fun same => same.ge, fun above => le_antisymm fits.2 above⟩
  simp only [top]
  refine then_congr fun range => ?_
  rw [refuse_eq_ok] at range
  -- from here on the range is positive, so neither the difference nor the count leaves int64
  have difference : wrap64 (s.lastHeight - s.firstHeight) = s.lastHeight - s.firstHeight :=
    wrap64_of_isInt64 ⟨by omega, by omega⟩
  have count : wrap64 (s.lastHeight - s.firstHeight + 1) = s.lastHeight - s.firstHeight + 1 :=
    wrap64_of_isInt64 ⟨by omega, by omega⟩
  simp only [difference, count]
  iterate 6 refine then_congr fun _ => ?_
  refine then_congr fun length => ?_
  rw [refuse_eq_ok, not_not] at length
  have fits : s.firstHeight + (0 : Nat) + s.blocks.length ≤ maxInt64 := by
    push_cast
    omega
  simpa using validateBlockIndex64_eq (by omega) fits

theorem validateSegments64_eq {i : Nat} {expected : Int} {seen : List String} {segments : List SegmentManifest}
    (fit : ∀ segment ∈ segments, IsInt64 segment.lastHeight) :
    validateSegments64 i expected seen segments = validateSegments i expected seen segments := by
  induction segments generalizing i expected seen with
  | nil => rfl
  | cons segment rest ih =>
    obtain ⟨here, others⟩ := List.forall_mem_cons.mp fit
    unfold validateSegments64 validateSegments
    rw [segment.validate64_eq here]
    refine then_congr fun valid => ?_
    rw [wrapping_eq_ok, SegmentManifest.validate_eq_ok] at valid
    have first := valid.first
    have last := valid.last
    have bounded := valid.bounded
    refine then_congr fun _ => then_congr fun _ => ?_
    have next : wrap64 (segment.lastHeight + 1) = segment.lastHeight + 1 := wrap64_of_isInt64 ⟨by omega, by omega⟩
    rw [next]
    exact ih others

/-- No manifest is extreme enough for `Validate` to leave int64. -/
theorem Manifest.validate64_eq {m : Manifest} (fits : m.Int64s) : m.validate64 = m.validate := by
  unfold validate64 validate
  iterate 4 refine then_congr fun _ => ?_
  split
  next => rfl
  next filled =>
    refine then_congr fun range => ?_
    rw [refuse_eq_ok] at range
    rw [validateSegments64_eq fun segment member => (fits.segments segment member).2]
    cases walked : validateSegments 0 m.firstHeight [] m.segments with
    | error err => rfl
    | ok expected =>
      obtain ⟨valid, -, -, tiles⟩ := validateSegments_eq_ok.mp walked
      obtain ⟨above, -⟩ := tiles.bounds valid
      -- the walk stops after its last segment, which ends below the largest height
      have reached := tiles.getLast (List.getLast?_eq_getLast_of_ne_nil filled)
      have bounded := (valid _ (List.getLast_mem filled)).bounded
      have before : wrap64 (expected - 1) = expected - 1 := wrap64_of_isInt64 ⟨by omega, by omega⟩
      change (refuse _ _ : Except Err Unit) = refuse _ _
      simp only [before]

end Wrap

end CometArchive.Archive
