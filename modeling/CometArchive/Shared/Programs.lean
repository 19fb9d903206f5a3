import CometArchive.Shared.Runs
import Mathlib.Logic.Function.Basic

set_option autoImplicit false

/-!
# Programs that share a world

A program calls one operation at a time and goes on with its answer. What it may still do depends on
the answers alone, so facts about one program are stated over its trace, the operations it called with
the answers it got, and hold whatever the other programs do.
-/

namespace Programs

inductive Prog (Op : Type) (Res : Op → Type) (α : Type) where
  | ret (value : α)
  | call (op : Op) (next : Res op → Prog Op Res α)

variable {Op : Type} {Res : Op → Type} {α β ε : Type}

def Prog.bind : Prog Op Res α → (α → Prog Op Res β) → Prog Op Res β
  | .ret value, f => f value
  | .call op next, f => .call op fun answer => (next answer).bind f

instance : Monad (Prog Op Res) where
  pure := .ret
  bind := Prog.bind

@[simp] theorem Prog.ret_bind (value : α) (f : α → Prog Op Res β) : (Prog.ret value >>= f) = f value := rfl

@[simp] theorem Prog.call_bind (op : Op) (next : Res op → Prog Op Res α) (f : α → Prog Op Res β) :
    (Prog.call op next >>= f) = .call op fun answer => next answer >>= f := rfl

@[simp] theorem Prog.pure_eq (value : α) : (pure value : Prog Op Res α) = .ret value := rfl

def Prog.ask (op : Op) : Prog Op Res (Res op) := .call op .ret

def Prog.embed {Op' : Type} {Res' : Op' → Type} (into : Op → Op') (back : (op : Op) → Res' (into op) → Res op) :
    Prog Op Res α → Prog Op' Res' α
  -- the program with its calls made as calls of another kind
  | .ret value => .ret value
  | .call op next => .call (into op) fun answer => (next (back op answer)).embed into back

abbrev Fallible (Op : Type) (Res : Op → Type) (ε : Type) := ExceptT ε (Prog Op Res)

abbrev Entry (Op : Type) (Res : Op → Type) := (op : Op) × Res op

abbrev Trace (Op : Type) (Res : Op → Type) := List (Entry Op Res)

/-- Whatever the answers are, each call satisfies `may` at the trace before it, and the result
satisfies `post` at the trace of the whole program. -/
def Prog.All (may : Trace Op Res → Op → Prop) (post : Trace Op Res → α → Prop) :
    Prog Op Res α → Trace Op Res → Prop
  | .ret value, trace => post trace value
  | .call op next, trace => may trace op ∧ ∀ answer, (next answer).All may post (trace ++ [⟨op, answer⟩])

variable {may : Trace Op Res → Op → Prop} {trace : Trace Op Res}

theorem Prog.All.mono {post post' : Trace Op Res → α → Prop} {p : Prog Op Res α} (all : p.All may post trace)
    (weaker : ∀ trace value, post trace value → post' trace value) : p.All may post' trace := by
  induction p generalizing trace with
  | ret value => exact weaker _ _ all
  | call op next ih => exact ⟨all.1, fun answer => ih answer (all.2 answer)⟩

theorem Prog.All.weaken {may' : Trace Op Res → Op → Prop} {post : Trace Op Res → α → Prop} {p : Prog Op Res α}
    (all : p.All may post trace) (weaker : ∀ trace op, may trace op → may' trace op) : p.All may' post trace := by
  induction p generalizing trace with
  | ret value => exact all
  | call op next ih => exact ⟨weaker _ _ all.1, fun answer => ih answer (all.2 answer)⟩

theorem Prog.All.bind {post : Trace Op Res → β → Prop} {p : Prog Op Res α} {f : α → Prog Op Res β}
    (all : p.All may (fun trace value => (f value).All may post trace) trace) : (p >>= f).All may post trace := by
  induction p generalizing trace with
  | ret value => exact all
  | call op next ih => exact ⟨all.1, fun answer => ih answer (all.2 answer)⟩

theorem Prog.All.keeping (kept : Trace Op Res → Prop) {post : Trace Op Res → α → Prop} {p : Prog Op Res α}
    (all : p.All may post trace) (start : kept trace)
    (step : ∀ trace op answer, kept trace → may trace op → kept (trace ++ [⟨op, answer⟩])) :
    p.All (fun trace op => may trace op ∧ kept trace) (fun trace value => post trace value ∧ kept trace) trace := by
  induction p generalizing trace with
  | ret value => exact ⟨all, start⟩
  | call op next ih =>
    refine ⟨⟨all.1, start⟩, ?_⟩
    intro answer
    exact ih answer (all.2 answer) (step _ _ answer start all.1)

theorem Prog.All.carry {calm : Op → Prop} (kept : Trace Op Res → Prop) {post : Trace Op Res → α → Prop}
    {p : Prog Op Res α} (all : p.All (fun _ op => calm op) post trace) (start : kept trace)
    (step : ∀ trace op answer, kept trace → calm op → kept (trace ++ [⟨op, answer⟩]))
    (allowed : ∀ trace op, kept trace → calm op → may trace op) :
    p.All may (fun trace value => post trace value ∧ kept trace) trace :=
  (Prog.All.keeping kept all start step).weaken fun trace op holds => allowed trace op holds.2 holds.1

theorem Prog.All.prolongs {post : Trace Op Res → α → Prop} {p : Prog Op Res α} (all : p.All may post trace) :
    p.All may (fun later value => post later value ∧ trace <+: later) trace := by
  induction p generalizing trace with
  | ret value => exact ⟨all, List.prefix_rfl⟩
  | call op next ih =>
    refine ⟨all.1, ?_⟩
    intro answer
    refine Prog.All.mono (ih answer (all.2 answer)) ?_
    intro later value holds
    exact ⟨holds.1, (List.prefix_append ..).trans holds.2⟩

theorem Prog.All.embed {Op' : Type} {Res' : Op' → Type} (into : Op → Op') (back : (op : Op) → Res' (into op) → Res op)
    {may' : Trace Op' Res' → Op' → Prop} {post : Trace Op Res → α → Prop} (part : Trace Op' Res' → Trace Op Res)
    (grows : ∀ trace op answer, part (trace ++ [⟨into op, answer⟩]) = part trace ++ [⟨op, back op answer⟩])
    (allowed : ∀ trace op, may (part trace) op → may' trace (into op)) {p : Prog Op Res α} {trace : Trace Op' Res'}
    (all : p.All may post (part trace)) :
    (p.embed into back).All may' (fun trace value => post (part trace) value) trace := by
  -- `part` picks from a trace what the calls of an embedded program leave there
  induction p generalizing trace with
  | ret value => exact all
  | call op next ih =>
    refine ⟨allowed _ _ all.1, ?_⟩
    intro answer
    apply ih
    rw [grows]
    exact all.2 _

namespace Fallible

def lift (result : Except ε α) : Fallible Op Res ε α := ExceptT.mk (.ret result)

def query (op : Op) : Fallible Op Res ε (Res op) := ExceptT.mk (.call op fun answer => .ret (.ok answer))

def attempt (op : Op) (outcome : Res op → Except ε α) : Fallible Op Res ε α :=
  ExceptT.mk (.call op fun answer => .ret (outcome answer))

theorem pure_eq_lift (value : α) : (pure value : Fallible Op Res ε α) = lift (.ok value) := rfl

theorem lift_bind_lift (result : Except ε α) (f : α → Except ε β) :
    (lift result >>= fun value => lift (f value) : Fallible Op Res ε β) = lift (result >>= f) := by
  cases result <;> rfl

def mapErr (f : ε → ε) (p : Fallible Op Res ε α) : Fallible Op Res ε α :=
  ExceptT.mk (p.run >>= fun result => .ret (result.mapError f))

def recover (p : Fallible Op Res ε α) (handler : ε → Fallible Op Res ε α) : Fallible Op Res ε α :=
  ExceptT.mk (p.run >>= fun result => match result with
    | .error err => (handler err).run
    | .ok value => .ret (.ok value))

/-- Whatever the answers are, each call satisfies `may`, a value that is returned satisfies `post`, and
an error that is returned satisfies `fail`. -/
def Ok (may : Trace Op Res → Op → Prop) (fail : Trace Op Res → ε → Prop) (post : Trace Op Res → α → Prop)
    (p : Fallible Op Res ε α) (trace : Trace Op Res) : Prop :=
  p.run.All may (fun trace result => match result with
    | .error err => fail trace err
    | .ok value => post trace value) trace

variable {fail : Trace Op Res → ε → Prop}

theorem Ok.mono {fail' : Trace Op Res → ε → Prop} {post post' : Trace Op Res → α → Prop} {p : Fallible Op Res ε α}
    (ok : p.Ok may fail post trace) (failing : ∀ trace err, fail trace err → fail' trace err)
    (weaker : ∀ trace value, post trace value → post' trace value) : p.Ok may fail' post' trace := by
  refine Prog.All.mono ok ?_
  intro trace result holds
  cases result with
  | error err => exact failing trace err holds
  | ok value => exact weaker trace value holds

theorem Ok.carry {calm : Op → Prop} (kept : Trace Op Res → Prop) {post : Trace Op Res → α → Prop}
    {p : Fallible Op Res ε α} (ok : p.Ok (fun _ op => calm op) fail post trace) (start : kept trace)
    (step : ∀ trace op answer, kept trace → calm op → kept (trace ++ [⟨op, answer⟩]))
    (allowed : ∀ trace op, kept trace → calm op → may trace op) :
    p.Ok may (fun trace err => fail trace err ∧ kept trace) (fun trace value => post trace value ∧ kept trace) trace := by
  refine Prog.All.mono (Prog.All.carry kept ok start step allowed) ?_
  intro trace result holds
  cases result with
  | error err => exact holds
  | ok value => exact holds

theorem Ok.bind {post : Trace Op Res → β → Prop} {p : Fallible Op Res ε α} {f : α → Fallible Op Res ε β}
    (ok : p.Ok may fail (fun trace value => (f value).Ok may fail post trace) trace) :
    (p >>= f).Ok may fail post trace := by
  refine Prog.All.bind (Prog.All.mono ok ?_)
  intro trace result holds
  cases result with
  | error err => exact holds
  | ok value => exact holds

theorem Ok.pure {post : Trace Op Res → α → Prop} {value : α} (holds : post trace value) :
    (pure value : Fallible Op Res ε α).Ok may fail post trace := holds

theorem Ok.lift {post : Trace Op Res → α → Prop} {result : Except ε α}
    (failing : ∀ err, result = .error err → fail trace err) (holds : ∀ value, result = .ok value → post trace value) :
    (lift result : Fallible Op Res ε α).Ok may fail post trace := by
  cases result with
  | error err => exact failing err rfl
  | ok value => exact holds value rfl

theorem Ok.check {post : Trace Op Res → β → Prop} {result : Except ε α} {f : α → Fallible Op Res ε β}
    (failing : ∀ err, result = .error err → fail trace err)
    (rest : ∀ value, result = .ok value → (f value).Ok may fail post trace) :
    (Fallible.lift result >>= f).Ok may fail post trace :=
  Ok.bind (Ok.lift failing rest)

theorem Ok.query (op : Op) {post : Trace Op Res → Res op → Prop} (allowed : may trace op)
    (rest : ∀ answer, post (trace ++ [⟨op, answer⟩]) answer) :
    (query op : Fallible Op Res ε (Res op)).Ok may fail post trace :=
  ⟨allowed, rest⟩

theorem Ok.attempt {post : Trace Op Res → α → Prop} {op : Op} {outcome : Res op → Except ε α} (allowed : may trace op)
    (failing : ∀ answer err, outcome answer = .error err → fail (trace ++ [⟨op, answer⟩]) err)
    (rest : ∀ answer value, outcome answer = .ok value → post (trace ++ [⟨op, answer⟩]) value) :
    (attempt op outcome : Fallible Op Res ε α).Ok may fail post trace := by
  refine ⟨allowed, ?_⟩
  intro answer
  cases result : outcome answer with
  | error err => simpa only [Prog.All, result] using failing answer err result
  | ok value => simpa only [Prog.All, result] using rest answer value result

theorem Ok.prolongs {post : Trace Op Res → α → Prop} {p : Fallible Op Res ε α} (ok : p.Ok may fail post trace) :
    p.Ok may (fun later err => fail later err ∧ trace <+: later) (fun later value => post later value ∧ trace <+: later)
      trace := by
  refine Prog.All.mono (Prog.All.prolongs ok) ?_
  intro later result holds
  cases result with
  | error err => exact holds
  | ok value => exact holds

theorem Ok.grows {post : Trace Op Res → α → Prop} {p : Fallible Op Res ε α} (ok : p.Ok may fail post trace) :
    p.Ok may (fun later err => fail later err ∧ trace ⊆ later) (fun later value => post later value ∧ trace ⊆ later)
      trace :=
  ok.prolongs.mono (fun _ _ holds => ⟨holds.1, holds.2.subset⟩) fun _ _ holds => ⟨holds.1, holds.2.subset⟩

theorem Ok.mapErr {post : Trace Op Res → α → Prop} {g : ε → ε} {p : Fallible Op Res ε α}
    (ok : p.Ok may (fun trace err => fail trace (g err)) post trace) : (p.mapErr g).Ok may fail post trace := by
  refine Prog.All.bind (Prog.All.mono ok ?_)
  intro trace result holds
  cases result with
  | error err => exact holds
  | ok value => exact holds

theorem Ok.recover {post : Trace Op Res → α → Prop} {p : Fallible Op Res ε α} {handler : ε → Fallible Op Res ε α}
    (ok : p.Ok may (fun trace err => (handler err).Ok may fail post trace) post trace) :
    (p.recover handler).Ok may fail post trace := by
  refine Prog.All.bind (Prog.All.mono ok ?_)
  intro trace result holds
  cases result with
  | error err => exact holds
  | ok value => exact holds

theorem Ok.outcome {post : Trace Op Res → Except ε α → Prop} {p : Fallible Op Res ε α}
    (ok : p.Ok may (fun trace err => post trace (.error err)) (fun trace value => post trace (.ok value)) trace) :
    Ok may fail post (ExceptT.mk (p.run >>= fun result => .ret (.ok result)) : Fallible Op Res ε (Except ε α)) trace := by
  refine Prog.All.bind (Prog.All.mono ok ?_)
  intro trace result holds
  cases result with
  | error err => exact holds
  | ok value => exact holds

theorem Ok.embed {Op' : Type} {Res' : Op' → Type} (into : Op → Op') (back : (op : Op) → Res' (into op) → Res op)
    {may' : Trace Op' Res' → Op' → Prop} {post : Trace Op Res → α → Prop} (part : Trace Op' Res' → Trace Op Res)
    (grows : ∀ trace op answer, part (trace ++ [⟨into op, answer⟩]) = part trace ++ [⟨op, back op answer⟩])
    (allowed : ∀ trace op, may (part trace) op → may' trace (into op)) {p : Fallible Op Res ε α}
    {trace : Trace Op' Res'} (ok : p.Ok may fail post (part trace)) :
    Ok may' (fun trace err => fail (part trace) err) (fun trace value => post (part trace) value)
      (ExceptT.mk (p.run.embed into back)) trace := by
  refine Prog.All.mono (Prog.All.embed into back part grows allowed ok) ?_
  intro trace result holds
  cases result with
  | error err => exact holds
  | ok value => exact holds

theorem Ok.all {post : Trace Op Res → α → Prop} {p : Fallible Op Res ε α} (ok : p.Ok may fail post trace) :
    p.run.All may (fun trace result => match result with
      | .error err => fail trace err
      | .ok value => post trace value) trace := ok

theorem Ok.of_all {post : Trace Op Res → α → Prop} {p : Fallible Op Res ε α}
    (all : p.run.All may (fun trace result => match result with
      | .error err => fail trace err
      | .ok value => post trace value) trace) : p.Ok may fail post trace := all

-- from here on only the rules above are used
attribute [irreducible] Ok

end Fallible

structure Proc (Op : Type) (Res : Op → Type) (α : Type) where
  rest : Prog Op Res α
  trace : Trace Op Res

structure Machine (S : Type) (Op : Type) (Res : Op → Type) (α : Type) where
  shared : S
  procs : Nat → Option (Proc Op Res α)

inductive Event (Op : Type) (Res : Op → Type) (α L : Type) where
  -- `env` is a step of the shared state that no program takes
  | spawn (id : Nat) (p : Prog Op Res α)
  | run (id : Nat)
  | kill (id : Nat)
  | env (label : L)

variable {S L : Type} {effect : (op : Op) → S → Res op → S → Prop} {env : S → L → S → Prop}

/-- `effect op s answer s'` says that `op` may answer so and take the shared state from `s` to `s'`. -/
inductive Step (effect : (op : Op) → S → Res op → S → Prop) (env : S → L → S → Prop) :
    Machine S Op Res α → Event Op Res α L → Machine S Op Res α → Prop
  | spawn {m : Machine S Op Res α} {id : Nat} {p : Prog Op Res α} (free : m.procs id = none) :
    Step effect env m (.spawn id p) { m with procs := Function.update m.procs id (some ⟨p, []⟩) }
  | run {m : Machine S Op Res α} {id : Nat} {op : Op} {next : Res op → Prog Op Res α} {trace : Trace Op Res}
    {answer : Res op} {shared : S} (present : m.procs id = some ⟨.call op next, trace⟩)
    (taken : effect op m.shared answer shared) :
    Step effect env m (.run id)
      { shared, procs := Function.update m.procs id (some ⟨next answer, trace ++ [⟨op, answer⟩]⟩) }
  | kill {m : Machine S Op Res α} {id : Nat} :
    Step effect env m (.kill id) { m with procs := Function.update m.procs id none }
  | env {m : Machine S Op Res α} {label : L} {shared : S} (moved : env m.shared label shared) :
    Step effect env m (.env label) { m with shared }

/-- The shared state is in order, every process follows its rules and knows something of the state, and any
two of them are apart. -/
structure Machine.Informed (Inv : S → Prop) (Know : Nat → S → Trace Op Res → Prop)
    (Apart : Trace Op Res → Trace Op Res → Prop) (may : Trace Op Res → Op → Prop) (post : Trace Op Res → α → Prop)
    (m : Machine S Op Res α) : Prop where
  inv : Inv m.shared
  procs : ∀ id proc, m.procs id = some proc → proc.rest.All may post proc.trace ∧ Know id m.shared proc.trace
  apart : ∀ id other proc theirs, other ≠ id → m.procs id = some proc → m.procs other = some theirs →
    Apart proc.trace theirs.trace

/-- What one step has to keep, whichever process takes it. What a call does may be known better from the trace. -/
structure InformsBy (step : Trace Op Res → (op : Op) → S → Res op → S → Prop) (env : S → L → S → Prop) (Inv : S → Prop)
    (Know : Nat → S → Trace Op Res → Prop) (Apart : Trace Op Res → Trace Op Res → Prop)
    (may : Trace Op Res → Op → Prop) : Prop where
  symm : ∀ trace theirs, Apart trace theirs → Apart theirs trace
  start : ∀ id s, Inv s → Know id s [] ∧ ∀ theirs, Apart [] theirs
  call : ∀ id trace op s answer s', Inv s → Know id s trace → may trace op → step trace op s answer s' →
    Inv s' ∧ Know id s' (trace ++ [⟨op, answer⟩])
  others : ∀ id trace op s answer s' other theirs, Inv s → Know id s trace → may trace op → step trace op s answer s' →
    other ≠ id → Know other s theirs → Apart trace theirs →
    Know other s' theirs ∧ Apart (trace ++ [⟨op, answer⟩]) theirs
  moves : ∀ s label s', Inv s → env s label s' → Inv s' ∧ ∀ id trace, Know id s trace → Know id s' trace

abbrev Informs (effect : (op : Op) → S → Res op → S → Prop) (env : S → L → S → Prop) (Inv : S → Prop)
    (Know : Nat → S → Trace Op Res → Prop) (Apart : Trace Op Res → Trace Op Res → Prop)
    (may : Trace Op Res → Op → Prop) : Prop :=
  InformsBy (fun _ => effect) env Inv Know Apart may

variable {Inv : S → Prop} {Know : Nat → S → Trace Op Res → Prop} {Apart : Trace Op Res → Trace Op Res → Prop}
  {post : Trace Op Res → α → Prop}

theorem Step.informedBy {step : Trace Op Res → (op : Op) → S → Res op → S → Prop} {m m' : Machine S Op Res α}
    {event : Event Op Res α L} (informs : InformsBy step env Inv Know Apart may)
    (informed : m.Informed Inv Know Apart may post) (taken : Step effect env m event m')
    (known : ∀ id op next trace answer s', m.procs id = some ⟨.call op next, trace⟩ → effect op m.shared answer s' →
      step trace op m.shared answer s') (started : ∀ id p, event = .spawn id p → p.All may post []) :
    m'.Informed Inv Know Apart may post := by
  cases taken with
  | @spawn id p free =>
    have new := informs.start id m.shared informed.inv
    refine ⟨informed.inv, ?_, ?_⟩
    · intro other proc found
      dsimp only at found
      by_cases same : other = id
      · subst same
        rw [Function.update_self] at found
        cases found
        exact ⟨started _ _ rfl, new.1⟩
      · rw [Function.update_of_ne same] at found
        exact informed.procs other proc found
    · intro one other proc theirs differ found present
      dsimp only at found present
      by_cases same : one = id
      · subst same
        rw [Function.update_self] at found
        cases found
        exact new.2 _
      · rw [Function.update_of_ne same] at found
        by_cases again : other = id
        · subst again
          rw [Function.update_self] at present
          cases present
          exact informs.symm _ _ (new.2 _)
        · rw [Function.update_of_ne again] at present
          exact informed.apart one other proc theirs differ found present
  | @run id op next trace answer shared present taken =>
    obtain ⟨all, knows⟩ := informed.procs id _ present
    have taken := known id op next trace answer shared present taken
    have called := informs.call id trace op m.shared answer shared informed.inv knows all.1 taken
    have others : ∀ other proc, other ≠ id → m.procs other = some proc →
        proc.rest.All may post proc.trace ∧ Know other shared proc.trace ∧ Apart (trace ++ [⟨op, answer⟩]) proc.trace := by
      intro other proc differ found
      obtain ⟨theirs, known⟩ := informed.procs other proc found
      exact ⟨theirs, informs.others id trace op m.shared answer shared other proc.trace informed.inv knows all.1 taken
        differ known (informed.apart id other _ proc differ present found)⟩
    refine ⟨called.1, ?_, ?_⟩
    · intro other proc found
      dsimp only at found
      by_cases same : other = id
      · subst same
        rw [Function.update_self] at found
        cases found
        exact ⟨all.2 answer, called.2⟩
      · rw [Function.update_of_ne same] at found
        obtain ⟨theirs, known, -⟩ := others other proc same found
        exact ⟨theirs, known⟩
    · intro one other proc theirs differ found running
      dsimp only at found running
      by_cases same : one = id
      · subst same
        rw [Function.update_self] at found
        rw [Function.update_of_ne differ] at running
        cases found
        exact (others other theirs differ running).2.2
      · rw [Function.update_of_ne same] at found
        by_cases again : other = id
        · subst again
          rw [Function.update_self] at running
          cases running
          exact informs.symm _ _ (others one proc same found).2.2
        · rw [Function.update_of_ne again] at running
          exact informed.apart one other proc theirs differ found running
  | @kill id =>
    have stays : ∀ other proc, Function.update m.procs id none other = some proc → m.procs other = some proc := by
      intro other proc found
      by_cases same : other = id
      · subst same
        rw [Function.update_self] at found
        cases found
      · rwa [Function.update_of_ne same] at found
    refine ⟨informed.inv, ?_, ?_⟩
    · intro other proc found
      exact informed.procs other proc (stays other proc found)
    · intro one other proc theirs differ found running
      exact informed.apart one other proc theirs differ (stays one proc found) (stays other theirs running)
  | @env label shared moved =>
    obtain ⟨inv, stable⟩ := informs.moves m.shared label shared informed.inv moved
    refine ⟨inv, ?_, informed.apart⟩
    intro other proc found
    obtain ⟨others, known⟩ := informed.procs other proc found
    exact ⟨others, stable other proc.trace known⟩

theorem Step.informed {m m' : Machine S Op Res α} {event : Event Op Res α L}
    (informs : Informs effect env Inv Know Apart may) (informed : m.Informed Inv Know Apart may post)
    (taken : Step effect env m event m') (started : ∀ id p, event = .spawn id p → p.All may post []) :
    m'.Informed Inv Know Apart may post :=
  Step.informedBy informs informed taken (fun _ _ _ _ _ _ _ effect => effect) started

theorem Run.informedBy {step : Trace Op Res → (op : Op) → S → Res op → S → Prop}
    {steps : Machine S Op Res α → Event Op Res α L → Machine S Op Res α → Prop} {m m' : Machine S Op Res α}
    {events : List (Event Op Res α L)} (informs : InformsBy step env Inv Know Apart may)
    (known : ∀ m event m', steps m event m' → Step effect env m event m' ∧
      ∀ id op next trace answer s', m.procs id = some ⟨.call op next, trace⟩ → effect op m.shared answer s' →
        step trace op m.shared answer s')
    (run : Runs.Run steps m events m') (started : ∀ id p, .spawn id p ∈ events → p.All may post [])
    (informed : m.Informed Inv Know Apart may post) : m'.Informed Inv Know Apart may post := by
  induction run with
  | refl => exact informed
  | snoc before taken ih =>
    obtain ⟨taken, known⟩ := known _ _ _ taken
    apply Step.informedBy informs (ih fun id p member => started id p (List.mem_append_left _ member)) taken known
    rintro id p rfl
    exact started id p (List.mem_append_right _ List.mem_cons_self)

theorem Run.informed {m m' : Machine S Op Res α} {events : List (Event Op Res α L)}
    (informs : Informs effect env Inv Know Apart may) (run : Runs.Run (Step effect env) m events m')
    (started : ∀ id p, .spawn id p ∈ events → p.All may post []) (informed : m.Informed Inv Know Apart may post) :
    m'.Informed Inv Know Apart may post :=
  Run.informedBy informs (fun _ _ _ taken => ⟨taken, fun _ _ _ _ _ _ _ effect => effect⟩) run started informed

structure Machine.Sound (Inv : S → Prop) (Fact : S → Entry Op Res → Prop) (may : Trace Op Res → Op → Prop)
    (post : Trace Op Res → α → Prop) (m : Machine S Op Res α) : Prop where
  inv : Inv m.shared
  procs : ∀ id proc, m.procs id = some proc →
    proc.rest.All may post proc.trace ∧ ∀ entry ∈ proc.trace, Fact m.shared entry

variable {Fact : S → Entry Op Res → Prop}

def Keeps (effect : (op : Op) → S → Res op → S → Prop) (Inv : S → Prop) (Fact : S → Entry Op Res → Prop)
    (may : Trace Op Res → Op → Prop) : Prop :=
  ∀ trace op s answer s', Inv s → (∀ entry ∈ trace, Fact s entry) → may trace op → effect op s answer s' →
    Inv s' ∧ (∀ entry, Fact s entry → Fact s' entry) ∧ Fact s' ⟨op, answer⟩

def EnvKeeps (env : S → L → S → Prop) (Inv : S → Prop) (Fact : S → Entry Op Res → Prop) : Prop :=
  ∀ s label s', Inv s → env s label s' → Inv s' ∧ ∀ entry, Fact s entry → Fact s' entry

theorem Keeps.informs (keeps : Keeps effect Inv Fact may) (envKeeps : EnvKeeps env Inv Fact) :
    Informs effect env Inv (fun _ s trace => ∀ entry ∈ trace, Fact s entry) (fun _ _ => True) may where
  symm _ _ := id
  start _ _ _ := ⟨by simp, fun _ => trivial⟩
  call _ trace op s answer s' inv facts allowed taken := by
    obtain ⟨kept, stable, learned⟩ := keeps trace op s answer s' inv facts allowed taken
    refine ⟨kept, ?_⟩
    intro entry member
    rcases List.mem_append.mp member with old | new
    · exact stable entry (facts entry old)
    · cases List.mem_singleton.mp new
      exact learned
  others _ trace op s answer s' _ _ inv facts allowed taken _ known _ := by
    obtain ⟨-, stable, -⟩ := keeps trace op s answer s' inv facts allowed taken
    exact ⟨fun entry member => stable entry (known entry member), trivial⟩
  moves s label s' inv moved := by
    obtain ⟨kept, stable⟩ := envKeeps s label s' inv moved
    exact ⟨kept, fun _ _ known entry member => stable entry (known entry member)⟩

theorem Machine.Sound.informed {m : Machine S Op Res α} (sound : m.Sound Inv Fact may post) :
    m.Informed Inv (fun _ s trace => ∀ entry ∈ trace, Fact s entry) (fun _ _ => True) may post :=
  ⟨sound.inv, sound.procs, fun _ _ _ _ _ _ _ => trivial⟩

theorem Run.sound {m m' : Machine S Op Res α} {events : List (Event Op Res α L)} (keeps : Keeps effect Inv Fact may)
    (envKeeps : EnvKeeps env Inv Fact) (run : Runs.Run (Step effect env) m events m')
    (started : ∀ id p, .spawn id p ∈ events → p.All may post []) (sound : m.Sound Inv Fact may post) :
    m'.Sound Inv Fact may post := by
  have informed := Run.informed (keeps.informs envKeeps) run started sound.informed
  exact ⟨informed.inv, informed.procs⟩

def Machine.idle (shared : S) : Machine S Op Res α := ⟨shared, fun _ => none⟩

theorem Machine.idle_sound {shared : S} (inv : Inv shared) :
    (Machine.idle shared : Machine S Op Res α).Sound Inv Fact may post :=
  ⟨inv, by simp [Machine.idle]⟩

theorem Step.prolongs {m m' : Machine S Op Res α} {event : Event Op Res α L} {id : Nat} {proc : Proc Op Res α}
    (step : Step effect env m event m') (present : m.procs id = some proc) (spared : event ≠ .kill id) :
    ∃ proc', m'.procs id = some proc' ∧ proc.trace <+: proc'.trace := by
  cases step with
  | @spawn other p free =>
    have differ : id ≠ other := by
      rintro rfl
      rw [present] at free
      cases free
    exact ⟨proc, by dsimp only; rw [Function.update_of_ne differ]; exact present, List.prefix_rfl⟩
  | @run other op next trace answer shared found taken =>
    by_cases same : id = other
    · subst same
      cases present.symm.trans found
      exact ⟨_, Function.update_self .., List.prefix_append _ _⟩
    · exact ⟨proc, by dsimp only; rw [Function.update_of_ne same]; exact present, List.prefix_rfl⟩
  | @kill other =>
    have differ : id ≠ other := by
      rintro rfl
      exact spared rfl
    exact ⟨proc, by dsimp only; rw [Function.update_of_ne differ]; exact present, List.prefix_rfl⟩
  | env => exact ⟨proc, present, List.prefix_rfl⟩

theorem Run.prolongs {m m' : Machine S Op Res α} {events : List (Event Op Res α L)} {id : Nat} {proc : Proc Op Res α}
    (run : Runs.Run (Step effect env) m events m') (present : m.procs id = some proc) (spared : .kill id ∉ events) :
    ∃ proc', m'.procs id = some proc' ∧ proc.trace <+: proc'.trace := by
  induction run with
  | refl => exact ⟨proc, present, List.prefix_rfl⟩
  | snoc before taken ih =>
    obtain ⟨mid, found, prolonged⟩ := ih fun member => spared (List.mem_append_left _ member)
    obtain ⟨last, there, further⟩ := taken.prolongs found
      fun same => spared (List.mem_append_right _ (List.mem_singleton.mpr same.symm))
    exact ⟨last, there, prolonged.trans further⟩

inductive Walk (effect : (op : Op) → S → Res op → S → Prop) : Proc Op Res α → S → Proc Op Res α → S → Prop
  -- calls of one process, with no one else in between
  | refl {proc : Proc Op Res α} {s : S} : Walk effect proc s proc s
  | step {op : Op} {next : Res op → Prog Op Res α} {trace : Trace Op Res} {answer : Res op} {s mid last : S}
    {proc : Proc Op Res α} (taken : effect op s answer mid)
    (rest : Walk effect ⟨next answer, trace ++ [⟨op, answer⟩]⟩ mid proc last) :
    Walk effect ⟨.call op next, trace⟩ s proc last

theorem Run.walk {proc proc' : Proc Op Res α} {s last : S} (walk : Walk effect proc s proc' last)
    (m : Machine S Op Res α) (id : Nat) (present : m.procs id = some proc) (here : m.shared = s) :
    ∃ k, Runs.Run (Step effect env) m (List.replicate k (.run id))
      { shared := last, procs := Function.update m.procs id (some proc') } := by
  induction walk generalizing m with
  | refl =>
    refine ⟨0, ?_⟩
    rw [← present, ← here, Function.update_eq_self]
    exact .refl
  | @step op next trace answer s mid last proc taken rest ih =>
    subst here
    have first : Step effect env m (.run id) _ := Step.run present taken
    have later := ih ⟨mid, Function.update m.procs id (some ⟨next answer, trace ++ [⟨op, answer⟩]⟩)⟩
      (Function.update_self ..) rfl
    simp only [Function.update_idem] at later
    obtain ⟨k, later⟩ := later
    refine ⟨k + 1, ?_⟩
    rw [List.replicate_succ]
    exact Runs.Run.cons first later

theorem Run.start {p : Prog Op Res α} {proc : Proc Op Res α} {s last : S} (walk : Walk effect ⟨p, []⟩ s proc last)
    (m : Machine S Op Res α) (id : Nat) (free : m.procs id = none) (here : m.shared = s) :
    ∃ k, Runs.Run (Step effect env) m (.spawn id p :: List.replicate k (.run id))
      { shared := last, procs := Function.update m.procs id (some proc) } := by
  subst here
  have later : ∃ k, Runs.Run (Step effect env) _ (List.replicate k (.run id)) _ :=
    Run.walk walk ⟨m.shared, Function.update m.procs id (some ⟨p, []⟩)⟩ id (Function.update_self ..) rfl
  simp only [Function.update_idem] at later
  obtain ⟨k, later⟩ := later
  exact ⟨k, Runs.Run.cons (Step.spawn free) later⟩

def drive (answer : (op : Op) → S → Res op × S) : Nat → Proc Op Res α → S → Proc Op Res α × S
  | 0, proc, s => (proc, s)
  | _ + 1, ⟨.ret value, trace⟩, s => (⟨.ret value, trace⟩, s)
  | n + 1, ⟨.call op next, trace⟩, s =>
    drive answer n ⟨next (answer op s).1, trace ++ [⟨op, (answer op s).1⟩]⟩ (answer op s).2

theorem drive_walk {answer : (op : Op) → S → Res op × S} (served : ∀ op s, effect op s (answer op s).1 (answer op s).2)
    (n : Nat) (proc : Proc Op Res α) (s : S) : Walk effect proc s (drive answer n proc s).1 (drive answer n proc s).2 := by
  induction n generalizing proc s with
  | zero => exact .refl
  | succ n ih =>
    obtain ⟨rest, trace⟩ := proc
    cases rest with
    | ret value => exact .refl
    | call op next => exact .step (served op s) (ih _ _)

theorem Run.alone {answer : (op : Op) → S → Res op × S} (served : ∀ op s, effect op s (answer op s).1 (answer op s).2)
    (n : Nat) (p : Prog Op Res α) (s : S) :
    ∃ events procs, (∀ id q, .spawn id q ∈ events → q = p) ∧
      Runs.Run (Step effect env) (Machine.idle s) events ⟨(Programs.drive answer n ⟨p, []⟩ s).2, procs⟩ := by
  obtain ⟨k, run⟩ := Run.start (drive_walk served n ⟨p, []⟩ s) (Machine.idle s) 0 rfl rfl
  refine ⟨_, _, ?_, run⟩
  intro id q member
  rcases List.mem_cons.mp member with same | member
  · cases same
    rfl
  · cases List.eq_of_mem_replicate member

end Programs
