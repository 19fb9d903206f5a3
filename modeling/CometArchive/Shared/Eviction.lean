import Mathlib.Algebra.GroupWithZero.Nat
import Mathlib.Algebra.Order.BigOperators.Group.List
import Mathlib.Data.List.Infix

set_option autoImplicit false

namespace Eviction

variable {α β : Type} {size : α → Nat} {limit : Int} {items kept : List α}

def total (size : α → Nat) (items : List α) : Nat := (items.map size).sum

@[simp] theorem total_nil : total size [] = 0 := rfl

@[simp] theorem total_cons (item : α) : total size (item :: items) = size item + total size items := rfl

structure LongestWithin (size : α → Nat) (limit : Int) (items kept : List α) : Prop where
  -- no longer end of the list is within the limit
  suffix : kept <:+ items
  within : (total size kept : Int) ≤ limit
  longest : ∀ other, other <:+ items → (total size other : Int) ≤ limit → other <:+ kept

def shed (size : α → Nat) (limit : Int) : List α → Int → List α
  | [], _ => []
  | item :: rest, sum => if sum ≤ limit then item :: rest else shed size limit rest (sum - size item)

theorem shed_longest (nonneg : 0 ≤ limit) :
    LongestWithin size limit items (shed size limit items (total size items)) := by
  induction items with
  | nil => exact ⟨List.suffix_rfl, nonneg, fun other inside _ => inside⟩
  | cons item rest ih =>
    unfold shed
    split
    next fits => exact ⟨List.suffix_rfl, fits, fun other inside _ => inside⟩
    next above =>
      have left : (total size (item :: rest) : Int) - size item = total size rest := by
        rw [total_cons]
        omega
      rw [left]
      refine ⟨ih.suffix.trans (List.suffix_cons ..), ih.within, ?_⟩
      intro other inside fits
      rcases List.suffix_cons_iff.mp inside with rfl | inside
      · exact absurd fits above
      · exact ih.longest other inside fits

theorem total_map {size' : β → Nat} {f : α → β} (same : ∀ item, size' (f item) = size item) :
    total size' (items.map f) = total size items := by
  unfold total
  rw [List.map_map]
  congr 1
  exact List.map_congr_left fun item _ => same item

theorem LongestWithin.map {size' : β → Nat} {f : α → β} (longest : LongestWithin size limit items kept)
    (same : ∀ item, size' (f item) = size item) : LongestWithin size' limit (items.map f) (kept.map f) := by
  refine ⟨longest.suffix.map f, by rw [total_map same]; exact longest.within, ?_⟩
  intro other inside fits
  -- an end of the image is the image of an end
  obtain ⟨part, ended, rfl⟩ := List.suffix_map_iff.mp inside
  rw [total_map same] at fits
  exact (longest.longest part ended fits).map f

end Eviction
