import Mathlib

set_option autoImplicit false

/-!
# Go maps

A Go map is an ordered extensional map here: the iteration order of a Go map is unspecified, and
every loop over one below has a result that does not depend on it. `deleteWhere` is the loop that
deletes entries while it ranges over the map.
-/

namespace GoMap

open Std

abbrev Map (κ ν : Type) [Ord κ] := ExtTreeMap κ ν
abbrev KeySet (κ : Type) [Ord κ] := ExtTreeSet κ

section Map

variable {κ ν : Type} [Ord κ] [TransOrd κ] [LawfulEqOrd κ]

theorem get_insert [DecidableEq κ] (m : Map κ ν) (key other : κ) (value : ν) :
    (m.insert key value)[other]? = if key = other then some value else m[other]? := by
  simp [ExtTreeMap.getElem?_insert, LawfulEqCmp.compare_eq_iff_eq]

theorem get_erase [DecidableEq κ] (m : Map κ ν) (key other : κ) :
    (m.erase key)[other]? = if key = other then none else m[other]? := by
  simp [ExtTreeMap.getElem?_erase, LawfulEqCmp.compare_eq_iff_eq]

def deleteWhere (m : Map κ ν) (drop : κ → ν → Bool) : Map κ ν :=
  m.toList.foldl (fun rest entry => if drop entry.1 entry.2 then rest.erase entry.1 else rest) m

theorem deleteFold_get [DecidableEq κ] (drop : κ → ν → Bool) (entries : List (κ × ν))
    (m : Map κ ν) (key : κ) :
    (entries.foldl (fun rest entry =>
      if drop entry.1 entry.2 then rest.erase entry.1 else rest) m)[key]? =
      if ∃ entry ∈ entries, entry.1 = key ∧ drop entry.1 entry.2 = true then none else m[key]? := by
  induction entries generalizing m with
  | nil => simp
  | cons entry rest ih =>
    rw [List.foldl_cons, ih]
    by_cases later : ∃ e ∈ rest, e.1 = key ∧ drop e.1 e.2 = true
    · have any : ∃ e ∈ entry :: rest, e.1 = key ∧ drop e.1 e.2 = true := by
        obtain ⟨e, member, hit⟩ := later
        exact ⟨e, List.mem_cons_of_mem _ member, hit⟩
      rw [if_pos later, if_pos any]
    · rw [if_neg later]
      by_cases dropped : drop entry.1 entry.2 = true
      · by_cases same : entry.1 = key
        · have any : ∃ e ∈ entry :: rest, e.1 = key ∧ drop e.1 e.2 = true :=
            ⟨entry, by simp, same, dropped⟩
          rw [if_pos any, if_pos dropped, get_erase, if_pos same]
        · have none : ¬ ∃ e ∈ entry :: rest, e.1 = key ∧ drop e.1 e.2 = true := by
            simp_all
          rw [if_neg none, if_pos dropped, get_erase, if_neg same]
      · have none : ¬ ∃ e ∈ entry :: rest, e.1 = key ∧ drop e.1 e.2 = true := by
          simp_all
        rw [if_neg none, if_neg dropped]

theorem get_deleteWhere (m : Map κ ν) (drop : κ → ν → Bool) (key : κ) :
    (deleteWhere m drop)[key]? = m[key]?.filter (fun value => !drop key value) := by
  classical
  rw [deleteWhere, deleteFold_get]
  have entries : (∃ entry ∈ m.toList, entry.1 = key ∧ drop entry.1 entry.2 = true) ↔
      ∃ value, m[key]? = some value ∧ drop key value = true := by
    constructor
    · rintro ⟨⟨k, value⟩, member, rfl, dropped⟩
      exact ⟨value, ExtTreeMap.mem_toList_iff_getElem?_eq_some.mp member, dropped⟩
    · rintro ⟨value, found, dropped⟩
      exact ⟨(key, value), ExtTreeMap.mem_toList_iff_getElem?_eq_some.mpr found, rfl, dropped⟩
  simp only [entries]
  cases found : m[key]? with
  | none => simp
  | some value => by_cases dropped : drop key value = true <;> simp [dropped, Option.filter]

theorem get_deleteWhere_eq_some (m : Map κ ν) (drop : κ → ν → Bool) (key : κ) (value : ν) :
    (deleteWhere m drop)[key]? = some value ↔ m[key]? = some value ∧ drop key value = false := by
  rw [get_deleteWhere, Option.filter_eq_some_iff]
  simp

def updateWhere (m : Map κ ν) (update : κ → ν → Option ν) : Map κ ν :=
  m.toList.foldl (fun rest entry =>
    match update entry.1 entry.2 with
    | some value => rest.insert entry.1 value
    | none => rest.erase entry.1) m

theorem updateFold_get [DecidableEq κ] (update : κ → ν → Option ν) (entries : List (κ × ν)) (key : κ)
    (distinct : (entries.map Prod.fst).Nodup) (m : Map κ ν) :
    (∀ value, (key, value) ∈ entries →
      (entries.foldl (fun rest entry =>
        match update entry.1 entry.2 with
        | some value => rest.insert entry.1 value
        | none => rest.erase entry.1) m)[key]? = update key value) ∧
    (key ∉ entries.map Prod.fst →
      (entries.foldl (fun rest entry =>
        match update entry.1 entry.2 with
        | some value => rest.insert entry.1 value
        | none => rest.erase entry.1) m)[key]? = m[key]?) := by
  induction entries generalizing m with
  | nil => simp
  | cons entry rest ih =>
    rw [List.map_cons, List.nodup_cons] at distinct
    obtain ⟨fresh, distinct⟩ := distinct
    have step : ∀ other : κ, (match update entry.1 entry.2 with
        | some value => m.insert entry.1 value
        | none => m.erase entry.1)[other]? = if entry.1 = other then update entry.1 entry.2 else m[other]? := by
      intro other
      cases update entry.1 entry.2 with
      | none => simp only [get_erase]
      | some value => simp only [get_insert]
    rw [List.foldl_cons]
    constructor
    · intro value member
      rcases List.mem_cons.mp member with rfl | member
      · rw [(ih distinct _).2 fresh, step, if_pos rfl]
      · exact (ih distinct _).1 value member
    · intro absent
      rw [List.map_cons, List.mem_cons, not_or] at absent
      rw [(ih distinct _).2 absent.2, step, if_neg (Ne.symm absent.1)]

theorem get_updateWhere (m : Map κ ν) (update : κ → ν → Option ν) (key : κ) :
    (updateWhere m update)[key]? = m[key]?.bind (update key) := by
  classical
  have distinct : (m.toList.map Prod.fst).Nodup := by
    rw [ExtTreeMap.map_fst_toList_eq_keys]
    exact ExtTreeMap.nodup_keys
  have fold := updateFold_get update m.toList key distinct m
  cases found : m[key]? with
  | none =>
    have absent : key ∉ m.toList.map Prod.fst := by
      rw [ExtTreeMap.map_fst_toList_eq_keys, ExtTreeMap.mem_keys]
      intro member
      have present := ExtTreeMap.mem_iff_isSome_getElem?.mp member
      rw [found] at present
      cases present
    rw [updateWhere, fold.2 absent, found]
    rfl
  | some value =>
    rw [updateWhere, fold.1 value (ExtTreeMap.mem_toList_iff_getElem?_eq_some.mpr found)]
    rfl

end Map

section KeySet

variable {κ : Type} [Ord κ] [TransOrd κ] [LawfulEqOrd κ]

theorem mem_insert (s : KeySet κ) (key other : κ) : other ∈ s.insert key ↔ key = other ∨ other ∈ s := by
  simp [ExtTreeSet.mem_insert, LawfulEqCmp.compare_eq_iff_eq]

theorem mem_erase (s : KeySet κ) (key other : κ) : other ∈ s.erase key ↔ key ≠ other ∧ other ∈ s := by
  simp [ExtTreeSet.mem_erase, LawfulEqCmp.compare_eq_iff_eq]

def dropWhere (s : KeySet κ) (drop : κ → Bool) : KeySet κ :=
  s.toList.foldl (fun rest key => if drop key then rest.erase key else rest) s

theorem dropFold_mem (drop : κ → Bool) (keys : List κ) (s : KeySet κ) (key : κ) :
    key ∈ keys.foldl (fun rest key => if drop key then rest.erase key else rest) s ↔
      key ∈ s ∧ ¬ (key ∈ keys ∧ drop key = true) := by
  induction keys generalizing s with
  | nil => simp
  | cons head rest ih =>
    rw [List.foldl_cons, ih]
    by_cases dropped : drop head = true
    · rw [if_pos dropped, mem_erase]
      by_cases same : head = key
      · subst same
        simp [dropped]
      · simp [same, Ne.symm same]
    · rw [if_neg dropped]
      by_cases same : head = key
      · subst same
        simp [dropped]
      · simp [Ne.symm same]

theorem mem_dropWhere (s : KeySet κ) (drop : κ → Bool) (key : κ) :
    key ∈ dropWhere s drop ↔ key ∈ s ∧ drop key = false := by
  rw [dropWhere, dropFold_mem, ExtTreeSet.mem_toList]
  constructor
  · rintro ⟨member, kept⟩
    exact ⟨member, by simpa [member] using kept⟩
  · rintro ⟨member, kept⟩
    exact ⟨member, by simp [kept]⟩

end KeySet

section Bounds

theorem size_le_of_bounds {ν : Type} {m : Map Int ν} {low count : Int} (nonneg : 0 ≤ count)
    (bounds : ∀ (key : Int) (value : ν), m[key]? = some value → low ≤ key ∧ key < low + count) : (m.size : Int) ≤ count := by
  have distinct : m.keys.Nodup := ExtTreeMap.nodup_keys
  have inside : m.keys.toFinset ⊆ Finset.Ico low (low + count) := by
    intro key member
    rw [List.mem_toFinset, ExtTreeMap.mem_keys, ExtTreeMap.mem_iff_isSome_getElem?] at member
    obtain ⟨value, found⟩ := Option.isSome_iff_exists.mp member
    exact Finset.mem_Ico.mpr (bounds key value found)
  have card := Finset.card_le_card inside
  rw [List.toFinset_card_of_nodup distinct, Int.card_Ico, ExtTreeMap.length_keys] at card
  omega

theorem keySet_size_le_of_bounds {s : KeySet Int} {low count : Int} (nonneg : 0 ≤ count)
    (bounds : ∀ key, key ∈ s → low ≤ key ∧ key < low + count) : (s.size : Int) ≤ count := by
  have distinct : s.toList.Nodup := by
    refine ExtTreeSet.distinct_toList.imp ?_
    rintro a _ differ rfl
    exact differ ReflCmp.compare_self
  have inside : s.toList.toFinset ⊆ Finset.Ico low (low + count) := by
    intro key member
    rw [List.mem_toFinset, ExtTreeSet.mem_toList] at member
    exact Finset.mem_Ico.mpr (bounds key member)
  have card := Finset.card_le_card inside
  rw [List.toFinset_card_of_nodup distinct, Int.card_Ico, ExtTreeSet.length_toList] at card
  omega

end Bounds

end GoMap
