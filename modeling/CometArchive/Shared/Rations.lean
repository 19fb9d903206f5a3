import CometArchive.Shared.Programs
import Mathlib.Algebra.BigOperators.Group.Finset.Basic
import Mathlib.Algebra.Order.BigOperators.Group.Finset

set_option autoImplicit false

namespace Programs

variable {Op : Type} {Res : Op → Type} {α S L : Type} {effect : (op : Op) → S → Res op → S → Prop}
  {env : S → L → S → Prop} {Inv : S → Prop} {Know : Nat → S → Trace Op Res → Prop}
  {Apart : Trace Op Res → Trace Op Res → Prop} {may : Trace Op Res → Op → Prop} {post : Trace Op Res → α → Prop}

def Machine.tokens (taken : Trace Op Res → Nat) (m : Machine S Op Res α) (id : Nat) : Nat :=
  -- the tokens of a process
  (m.procs id).elim 0 fun proc => taken proc.trace

/-- Whichever processes are counted, the state has given out as many tokens as they have. -/
def Machine.Rationed (taken : Trace Op Res → Nat) (given : S → Nat) (m : Machine S Op Res α) : Prop :=
  ∀ ids : Finset Nat, ∑ id ∈ ids, m.tokens taken id ≤ given m.shared

structure Rations (effect : (op : Op) → S → Res op → S → Prop) (env : S → L → S → Prop) (Inv : S → Prop)
    (Know : Nat → S → Trace Op Res → Prop) (may : Trace Op Res → Op → Prop) (taken : Trace Op Res → Nat)
    (given : S → Nat) : Prop where
  start : taken [] = 0
  call : ∀ id trace op s answer s', Inv s → Know id s trace → may trace op → effect op s answer s' →
    given s + taken (trace ++ [⟨op, answer⟩]) ≤ given s' + taken trace
  moves : ∀ s label s', env s label s' → given s ≤ given s'

variable {taken : Trace Op Res → Nat} {given : S → Nat}

theorem Machine.sum_tokens_update (m : Machine S Op Res α) (taken : Trace Op Res → Nat) {id : Nat} {before : Proc Op Res α}
    (present : m.procs id = some before) (shared : S) (after : Proc Op Res α) (ids : Finset Nat) :
    ∑ other ∈ insert id ids, Machine.tokens taken ⟨shared, Function.update m.procs id (some after)⟩ other + taken before.trace =
      ∑ other ∈ insert id ids, m.tokens taken other + taken after.trace := by
  -- the others have what they had
  have others : ∑ other ∈ (insert id ids).erase id, Machine.tokens taken
      ⟨shared, Function.update m.procs id (some after)⟩ other = ∑ other ∈ (insert id ids).erase id, m.tokens taken other := by
    refine Finset.sum_congr rfl fun other member => ?_
    simp [Machine.tokens, Finset.ne_of_mem_erase member]
  rw [← Finset.add_sum_erase _ _ (Finset.mem_insert_self id ids), ← Finset.add_sum_erase _ (m.tokens taken)
    (Finset.mem_insert_self id ids), others]
  simp only [Machine.tokens, Function.update_self, present, Option.elim_some]
  omega

theorem Step.rationed {m m' : Machine S Op Res α} {event : Event Op Res α L}
    (rations : Rations effect env Inv Know may taken given) (step : Step effect env m event m')
    (informed : m.Informed Inv Know Apart may post) (rationed : m.Rationed taken given) :
    m'.Rationed taken given := by
  intro ids
  cases step with
  | @spawn id p free =>
    refine le_trans (Finset.sum_le_sum fun other _ => ?_) (rationed ids)
    by_cases same : other = id
    · simp [same, Machine.tokens, rations.start]
    · simp [same, Machine.tokens]
  | @run id op next trace answer shared present called =>
    obtain ⟨all, knows⟩ := informed.procs id _ present
    have paid := rations.call id trace op m.shared answer shared informed.inv knows all.1 called
    have all := rationed (insert id ids)
    have sums := m.sum_tokens_update taken present shared ⟨next answer, trace ++ [⟨op, answer⟩]⟩ ids
    refine le_trans (Finset.sum_le_sum_of_subset (Finset.subset_insert id ids)) ?_
    dsimp only at sums ⊢
    omega
  | @kill id =>
    refine le_trans (Finset.sum_le_sum fun other _ => ?_) (rationed ids)
    by_cases same : other = id
    · simp [same, Machine.tokens]
    · simp [same, Machine.tokens]
  | @env label shared moved => exact (rationed ids).trans (rations.moves _ _ _ moved)

theorem Run.rationed {m m' : Machine S Op Res α} {events : List (Event Op Res α L)}
    (rations : Rations effect env Inv Know may taken given) (informs : Informs effect env Inv Know Apart may)
    (run : Runs.Run (Step effect env) m events m') (started : ∀ id p, .spawn id p ∈ events → p.All may post [])
    (informed : m.Informed Inv Know Apart may post) (rationed : m.Rationed taken given) : m'.Rationed taken given := by
  induction run with
  | refl => exact rationed
  | snoc before step ih =>
    have earlier := fun id p spawned => started id p (List.mem_append_left _ spawned)
    exact Step.rationed rations step (Run.informed informs before earlier informed) (ih earlier)

end Programs
