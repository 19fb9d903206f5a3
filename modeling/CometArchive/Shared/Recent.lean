import CometArchive.Shared.Maps

set_option autoImplicit false

namespace GoMap

open Std

def recent {α : Type} (limit : Nat) (log : List α) : List α := log.drop (log.length - limit)

section Recent

variable {α : Type} {limit : Nat}

theorem length_recent_le (limit : Nat) (log : List α) : (recent limit log).length ≤ limit := by
  rw [recent, List.length_drop]
  omega

theorem recent_snoc (log : List α) (entry : α) (positive : 0 < limit) :
    recent limit (log ++ [entry]) =
      (if limit ≤ (recent limit log).length then (recent limit log).tail else recent limit log) ++ [entry] := by
  simp only [recent, List.length_append, List.length_singleton, List.length_drop, List.tail_drop]
  split
  next full =>
    have split : log.length + 1 - limit = log.length - limit + 1 := by omega
    rw [split, List.drop_append_of_le_length (by omega)]
  next =>
    have all : log.length + 1 - limit = 0 := by omega
    have none : log.length - limit = 0 := by omega
    rw [all, none, List.drop_zero, List.drop_zero]

end Recent

variable {κ ν : Type} [Ord κ] [TransOrd κ]

def pushRecent (limit : Nat) (entries : Map κ ν) (order : List κ) (key : κ) (value : ν) : Map κ ν × List κ :=
  -- the insertion, with the oldest key deleted when the cache is full
  let (entries, order) :=
    if limit ≤ order.length then
      match order with
      | oldest :: rest => (entries.erase oldest, rest)
      | [] => (entries, [])
    else (entries, order)
  (entries.insert key value, order ++ [key])

/-- The cache holds the last `limit` entries of the log, under different keys. -/
structure Recent (limit : Nat) (log : List (κ × ν)) (entries : Map κ ν) (order : List κ) : Prop where
  keys : order = (recent limit log).map Prod.fst
  distinct : order.Nodup
  holds : ∀ key value, entries[key]? = some value ↔ (key, value) ∈ recent limit log

variable {limit : Nat} {log : List (κ × ν)} {entries : Map κ ν} {order : List κ}

theorem Recent.empty (limit : Nat) : Recent limit [] (∅ : Map κ ν) [] := by
  constructor <;> simp [recent]

theorem Recent.length_le (cache : Recent limit log entries order) : order.length ≤ limit := by
  rw [cache.keys, List.length_map]
  exact length_recent_le limit log

theorem Recent.mem_order (cache : Recent limit log entries order) (key : κ) :
    key ∈ order ↔ ∃ value, entries[key]? = some value := by
  simp [cache.keys, cache.holds]

theorem pushRecent_eq (entries : Map κ ν) (order : List κ) (positive : 0 < limit) (key : κ) (value : ν) :
    pushRecent limit entries order key value =
      if limit ≤ order.length then
        ((order.head?.elim entries entries.erase).insert key value, order.tail ++ [key])
      else (entries.insert key value, order ++ [key]) := by
  unfold pushRecent
  by_cases full : limit ≤ order.length
  next =>
    rw [if_pos full, if_pos full]
    cases order with
    | nil => exact absurd full (by rw [List.length_nil]; omega)
    | cons oldest rest => rfl
  next => rw [if_neg full, if_neg full]

theorem Recent.push [LawfulEqOrd κ] [DecidableEq κ] (cache : Recent limit log entries order) (positive : 0 < limit) {key : κ}
    (fresh : key ∉ order) (value : ν) :
    Recent limit (log ++ [(key, value)]) (pushRecent limit entries order key value).1
      (pushRecent limit entries order key value).2 := by
  have window := recent_snoc log (key, value) positive
  have length : (recent limit log).length = order.length := by rw [cache.keys, List.length_map]
  have keys := cache.keys
  have distinct := cache.distinct
  have holds := cache.holds
  rw [length] at window
  rw [pushRecent_eq entries order positive]
  -- the map before the new key is inserted, against what is left of the window
  suffices kept : ∀ (left : Map κ ν) (rest : List (κ × ν)), rest ⊆ recent limit log → (rest.map Prod.fst).Nodup →
      (∀ key value, left[key]? = some value ↔ (key, value) ∈ rest) →
      recent limit (log ++ [(key, value)]) = rest ++ [(key, value)] →
      Recent limit (log ++ [(key, value)]) (left.insert key value) (rest.map Prod.fst ++ [key]) by
    split
    next full =>
      rw [if_pos full] at window
      cases shape : recent limit log with
      | nil =>
        rw [shape, List.length_nil] at length
        omega
      | cons first rest =>
        rw [shape] at window keys holds
        subst keys
        rw [List.map_cons, List.nodup_cons] at distinct
        refine kept _ rest (by rw [shape]; exact List.subset_cons_self _ _) distinct.2 ?_ window
        intro other found
        simp only [List.map_cons, List.head?_cons, Option.elim_some, get_erase]
        split
        next same =>
          -- the deleted key is in no later entry
          simp only [reduceCtorEq, false_iff]
          intro member
          exact distinct.1 (same ▸ List.mem_map_of_mem member)
        next differs =>
          rw [holds, List.mem_cons]
          constructor
          · rintro (rfl | member)
            · exact absurd rfl differs
            · exact member
          · exact .inr
    next room =>
      rw [if_neg room] at window
      rw [keys] at distinct ⊢
      exact kept entries (recent limit log) (List.Subset.refl _) distinct holds window
  intro left rest inside unique found shape
  have absent : key ∉ rest.map Prod.fst := by
    intro member
    apply fresh
    rw [keys]
    exact List.map_subset _ inside member
  refine ⟨by rw [shape, List.map_append, List.map_singleton], ?_, ?_⟩
  · rw [List.nodup_append]
    refine ⟨unique, List.nodup_singleton _, ?_⟩
    intro other member last final
    rw [List.mem_singleton] at final
    rintro rfl
    exact absent (final ▸ member)
  · intro other result
    rw [shape, get_insert, List.mem_append, List.mem_singleton, Prod.mk.injEq]
    split
    next same =>
      subst same
      rw [Option.some.injEq]
      constructor
      · rintro rfl
        exact .inr ⟨rfl, rfl⟩
      · rintro (member | ⟨-, same⟩)
        · exact absurd (List.mem_map_of_mem member) absent
        · exact same.symm
    next differs =>
      rw [found]
      constructor
      · exact .inl
      · rintro (member | ⟨same, -⟩)
        · exact member
        · exact absurd same.symm differs

end GoMap
