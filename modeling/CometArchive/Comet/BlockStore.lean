import CometArchive.Comet.Block

set_option autoImplicit false

namespace CometArchive

/-- The CometBFT block store: a contiguous range of blocks, each filed under its own height. An empty
store has base and height zero. -/
structure BlockStore where
  base : Int
  height : Int
  load : Int → Option Block
  range : (base = 0 ∧ height = 0) ∨ (0 < base ∧ base ≤ height)
  loaded : ∀ h, (load h).isSome = true ↔ 0 < base ∧ base ≤ h ∧ h ≤ height
  named : ∀ h block, load h = some block → block.height = h

namespace BlockStore

def empty : BlockStore where
  base := 0
  height := 0
  load := fun _ => none
  range := .inl ⟨rfl, rfl⟩
  loaded := by simp
  named := by simp

theorem height_nonneg (s : BlockStore) : 0 ≤ s.height := by
  have range := s.range
  omega

theorem bounds_of_load {s : BlockStore} {h : Int} {block : Block} (found : s.load h = some block) :
    0 < s.base ∧ s.base ≤ h ∧ h ≤ s.height :=
  (s.loaded h).mp (by simp [found])

theorem exists_load {s : BlockStore} {h : Int} (positive : 0 < s.base) (low : s.base ≤ h)
    (high : h ≤ s.height) : ∃ block, s.load h = some block :=
  Option.isSome_iff_exists.mp ((s.loaded h).mpr ⟨positive, low, high⟩)

theorem exists_head (s : BlockStore) (nonempty : 0 < s.height) : ∃ block, s.load s.height = some block := by
  have range := s.range
  exact exists_load (by omega) (by omega) (by omega)

theorem load_eq_none {s : BlockStore} {h : Int} (outside : ¬ (0 < s.base ∧ s.base ≤ h ∧ h ≤ s.height)) :
    s.load h = none := by
  cases found : s.load h with
  | none => rfl
  | some block => exact absurd (bounds_of_load found) outside

/-- `SaveBlock`; `none` is its panic on a height that does not extend the store. -/
def saveBlock (s : BlockStore) (block : Block) : Option BlockStore :=
  if extend : 0 < block.height ∧ (s.height = 0 ∨ block.height = s.height + 1) then
    some
      { base := if s.height = 0 then block.height else s.base
        height := block.height
        load := Function.update s.load block.height (some block)
        range := by
          have range := s.range
          split <;> omega
        loaded := by
          intro h
          have range := s.range
          have loaded := s.loaded h
          by_cases same : h = block.height
          · subst same
            simp only [Function.update_self, Option.isSome_some, true_iff]
            split <;> omega
          · rw [Function.update_of_ne same, loaded]
            split <;> omega
        named := by
          intro h found same
          by_cases at_height : h = block.height
          · subst at_height
            simp only [Function.update_self, Option.some.injEq] at same
            rw [← same]
          · rw [Function.update_of_ne at_height] at same
            exact s.named h found same }
  else none

theorem saveBlock_isSome {s : BlockStore} {block : Block} :
    (s.saveBlock block).isSome = true ↔
      0 < block.height ∧ (s.height = 0 ∨ block.height = s.height + 1) := by
  unfold saveBlock
  split <;> simp_all

theorem saveBlock_spec {s s' : BlockStore} {block : Block} (saved : s.saveBlock block = some s') :
    s'.height = block.height ∧ s'.base = (if s.height = 0 then block.height else s.base) ∧
      s'.load = Function.update s.load block.height (some block) := by
  unfold saveBlock at saved
  split at saved
  · cases saved
    exact ⟨rfl, rfl, rfl⟩
  · cases saved

theorem saveBlock_load_self {s s' : BlockStore} {block : Block} (saved : s.saveBlock block = some s') :
    s'.load block.height = some block := by
  rw [(saveBlock_spec saved).2.2, Function.update_self]

theorem saveBlock_load_of_ne {s s' : BlockStore} {block : Block} {h : Int}
    (saved : s.saveBlock block = some s') (other : h ≠ block.height) : s'.load h = s.load h := by
  rw [(saveBlock_spec saved).2.2, Function.update_of_ne other]

theorem saveBlock_load_mono {s s' : BlockStore} {block old : Block} {h : Int}
    (saved : s.saveBlock block = some s') (found : s.load h = some old) : s'.load h = some old := by
  have extend := saveBlock_isSome.mp (Option.isSome_of_eq_some saved)
  have bounds := bounds_of_load found
  rw [saveBlock_load_of_ne saved (by omega), found]

def pruneBlocks (s : BlockStore) (target : Int) : Except Err BlockStore :=
  -- `PruneBlocks`: the blocks below `target` go, or nothing does
  if zero : target ≤ 0 then .error (.new "height must be greater than 0")
  else if beyond : s.height < target then
    .error (.new s!"cannot prune beyond the latest height {s.height}")
  else if below : target < s.base then
    .error (.new s!"cannot prune to height {target}, it is lower than base height {s.base}")
  else
    .ok
      { base := target
        height := s.height
        load := fun h => if h < target then none else s.load h
        range := by omega
        loaded := by
          intro h
          have loaded := s.loaded h
          have range := s.range
          by_cases gone : h < target
          · simp only [gone, if_true, Option.isSome_none]
            constructor
            · intro impossible
              cases impossible
            · omega
          · simp only [gone, if_false, loaded]
            omega
        named := by
          intro h block found
          split at found
          · cases found
          · exact s.named h block found }

theorem pruneBlocks_spec {s s' : BlockStore} {target : Int} (pruned : s.pruneBlocks target = .ok s') :
    s.base ≤ target ∧ 0 < target ∧ target ≤ s.height ∧ 0 < s.base ∧ s'.base = target ∧ s'.height = s.height ∧
      ∀ h, s'.load h = if h < target then none else s.load h := by
  have range := s.range
  unfold pruneBlocks at pruned
  split at pruned
  · cases pruned
  · split at pruned
    · cases pruned
    · split at pruned
      · cases pruned
      · cases pruned
        exact ⟨by omega, by omega, by omega, by omega, rfl, rfl, fun _ => rfl⟩

end BlockStore

end CometArchive
