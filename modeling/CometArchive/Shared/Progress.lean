import CometArchive.Shared.Rations
import Mathlib.Logic.Hydra

set_option autoImplicit false

namespace Programs

variable {Op : Type} {Res : Op → Type} {α S L : Type} {effect : (op : Op) → S → Res op → S → Prop}
  {env : S → L → S → Prop} {Inv : S → Prop} {Know : Nat → S → Trace Op Res → Prop}
  {Apart : Trace Op Res → Trace Op Res → Prop} {may : Trace Op Res → Op → Prop} {post : Trace Op Res → α → Prop}
  {taken : Trace Op Res → Nat} {given : S → Nat}

theorem Prog.All.and {may' : Trace Op Res → Op → Prop} {post' : Trace Op Res → α → Prop} {p : Prog Op Res α}
    {trace : Trace Op Res} (all : p.All may post trace) (also : p.All may' post' trace) :
    p.All (fun trace op => may trace op ∧ may' trace op) (fun trace value => post trace value ∧ post' trace value) trace := by
  induction p generalizing trace with
  | ret value => exact ⟨all, also⟩
  | call op next ih => exact ⟨⟨all.1, also.1⟩, fun answer => ih answer (all.2 answer) (also.2 answer)⟩

theorem Fallible.Ok.always {ε : Type} {ends : Trace Op Res → Prop} {p : Fallible Op Res ε α} {trace : Trace Op Res}
    (ok : p.Ok may (fun later _ => ends later) (fun later _ => ends later) trace) :
    p.run.All may (fun later _ => ends later) trace := by
  refine ok.all.mono ?_
  intro later result holds
  cases result with
  | error err => exact holds
  | ok value => exact holds

/-- The processes have all the tokens that the state has given out. -/
def Machine.Accounted (taken : Trace Op Res → Nat) (given : S → Nat) (m : Machine S Op Res α) : Prop :=
  ∃ ids : Finset Nat, given m.shared ≤ ∑ id ∈ ids, m.tokens taken id

theorem Machine.Accounted.holder {m : Machine S Op Res α} (accounted : m.Accounted taken given)
    (positive : 0 < given m.shared) : ∃ id proc, m.procs id = some proc ∧ 0 < taken proc.trace := by
  obtain ⟨ids, covered⟩ := accounted
  obtain ⟨id, -, has⟩ := Finset.exists_ne_zero_of_sum_ne_zero (f := m.tokens taken) (s := ids) (by omega)
  unfold Machine.tokens at has
  cases found : m.procs id with
  | none =>
    rw [found] at has
    exact absurd rfl has
  | some proc =>
    rw [found] at has
    exact ⟨id, proc, found, Nat.pos_of_ne_zero has⟩

structure Accounts (effect : (op : Op) → S → Res op → S → Prop) (env : S → L → S → Prop) (Inv : S → Prop)
    (Know : Nat → S → Trace Op Res → Prop) (may : Trace Op Res → Op → Prop) (taken : Trace Op Res → Nat)
    (given : S → Nat) : Prop where
  call : ∀ id trace op s answer s', Inv s → Know id s trace → may trace op → effect op s answer s' →
    given s' + taken trace ≤ given s + taken (trace ++ [⟨op, answer⟩])
  moves : ∀ s label s', env s label s' → given s' ≤ given s

theorem Step.accounted {m m' : Machine S Op Res α} {event : Event Op Res α L}
    (accounts : Accounts effect env Inv Know may taken given) (step : Step effect env m event m')
    (informed : m.Informed Inv Know Apart may post) (spared : ∀ id, event ≠ .kill id) (accounted : m.Accounted taken given) :
    m'.Accounted taken given := by
  obtain ⟨ids, covered⟩ := accounted
  cases step with
  | @spawn id p free =>
    refine ⟨ids, covered.trans (Finset.sum_le_sum fun other _ => ?_)⟩
    by_cases same : other = id
    · simp [same, Machine.tokens, free]
    · simp [same, Machine.tokens]
  | @run id op next trace answer shared present called =>
    obtain ⟨all, knows⟩ := informed.procs id _ present
    have paid := accounts.call id trace op m.shared answer shared informed.inv knows all.1 called
    have more := Finset.sum_le_sum_of_subset (f := m.tokens taken) (Finset.subset_insert id ids)
    have sums := m.sum_tokens_update taken present shared ⟨next answer, trace ++ [⟨op, answer⟩]⟩ ids
    exact ⟨insert id ids, by dsimp only at sums ⊢; omega⟩
  | kill => exact absurd rfl (spared _)
  | env moved => exact ⟨ids, (accounts.moves _ _ _ moved).trans covered⟩

theorem Run.accounted {m m' : Machine S Op Res α} {events : List (Event Op Res α L)}
    (accounts : Accounts effect env Inv Know may taken given) (informs : Informs effect env Inv Know Apart may)
    (run : Runs.Run (Step effect env) m events m') (started : ∀ id p, .spawn id p ∈ events → p.All may post [])
    (spared : ∀ id, .kill id ∉ events) (informed : m.Informed Inv Know Apart may post)
    (accounted : m.Accounted taken given) : m'.Accounted taken given := by
  induction run with
  | refl => exact accounted
  | snoc before step ih =>
    have earlier := fun id p spawned => started id p (List.mem_append_left _ spawned)
    refine Step.accounted accounts step (Run.informed informs before earlier informed) ?_
      (ih earlier fun id killed => spared id (List.mem_append_left _ killed))
    rintro id rfl
    exact spared id (List.mem_append_right _ List.mem_cons_self)

theorem Run.spawned {s : S} {m : Machine S Op Res α} {events : List (Event Op Res α L)} {id : Nat}
    (run : Runs.Run (Step effect env) (Machine.idle s) events m) (present : m.procs id ≠ none) :
    ∃ p, .spawn id p ∈ events := by
  generalize start : (Machine.idle s : Machine S Op Res α) = first at run
  induction run with
  | refl =>
    subst start
    exact absurd rfl present
  | @snoc events mid last event before step ih =>
    have earlier (there : mid.procs id ≠ none) : ∃ p, .spawn id p ∈ events ++ [event] := by
      obtain ⟨p, spawned⟩ := ih there
      exact ⟨p, List.mem_append_left _ spawned⟩
    cases step with
    | @spawn other p free =>
      by_cases same : id = other
      · exact ⟨p, same ▸ List.mem_append_right _ List.mem_cons_self⟩
      · exact earlier (by simpa [same] using present)
    | @run other op next trace answer shared there taken =>
      by_cases same : id = other
      · exact earlier (by simp [same, there])
      · exact earlier (by simpa [same] using present)
    | @kill other =>
      by_cases same : id = other
      · simp [same] at present
      · exact earlier (by simpa [same] using present)
    | env moved => exact earlier present

def Event.spawns : Event Op Res α L → Option Nat
  | .spawn id _ => some id
  | _ => none

theorem Run.processes {s : S} {m : Machine S Op Res α} {events : List (Event Op Res α L)}
    (run : Runs.Run (Step effect env) (Machine.idle s) events m) : ∃ ids : Finset Nat, ∀ id, m.procs id ≠ none → id ∈ ids := by
  refine ⟨(events.filterMap Event.spawns).toFinset, ?_⟩
  intro id present
  obtain ⟨p, spawned⟩ := Run.spawned run present
  exact List.mem_toFinset.mpr (List.mem_filterMap.mpr ⟨_, spawned, rfl⟩)

end Programs
