import CometArchive.Shared.Outcomes

set_option autoImplicit false

namespace Programs

variable {Op : Type} {Res : Op → Type} {α S L : Type}

structure Solo (S Op : Type) (Res : Op → Type) (α : Type) where
  shared : S
  current : Option (Proc Op Res α)

inductive SoloEvent (Op : Type) (Res : Op → Type) (α L : Type) where
  | spawn (p : Prog Op Res α)
  | call
  | stop
  | env (label : L)
  | reset (label : L)

inductive SoloStep (effect : (op : Op) → S → Res op → S → Prop) (env reset : S → L → S → Prop) :
    Solo S Op Res α → SoloEvent Op Res α L → Solo S Op Res α → Prop
  | spawn {s : S} {p : Prog Op Res α} : SoloStep effect env reset ⟨s, none⟩ (.spawn p) ⟨s, some ⟨p, []⟩⟩
  | call {s s' : S} {op : Op} {next : Res op → Prog Op Res α} {trace : Trace Op Res} {answer : Res op}
    (taken : effect op s answer s') : SoloStep effect env reset ⟨s, some ⟨.call op next, trace⟩⟩ .call
      ⟨s', some ⟨next answer, trace ++ [⟨op, answer⟩]⟩⟩
  | stop {s : S} {current : Option (Proc Op Res α)} : SoloStep effect env reset ⟨s, current⟩ .stop ⟨s, none⟩
  | env {s s' : S} {label : L} {current : Option (Proc Op Res α)} (moved : env s label s') :
    SoloStep effect env reset ⟨s, current⟩ (.env label) ⟨s', current⟩
  | reset {s s' : S} {label : L} (moved : reset s label s') :
    SoloStep effect env reset ⟨s, none⟩ (.reset label) ⟨s', none⟩

structure Solo.Sound (Inv : S → Prop) (Know : S → Trace Op Res → Prop) (may : Trace Op Res → Op → Prop)
    (post : Trace Op Res → α → Prop) (m : Solo S Op Res α) : Prop where
  inv : Inv m.shared
  current : ∀ proc, m.current = some proc → proc.rest.All may post proc.trace ∧ Know m.shared proc.trace

variable {effect : (op : Op) → S → Res op → S → Prop} {env reset : S → L → S → Prop} {Inv : S → Prop}
  {Know : S → Trace Op Res → Prop} {may : Trace Op Res → Op → Prop} {post : Trace Op Res → α → Prop}

structure SoloKeeps (effect : (op : Op) → S → Res op → S → Prop) (env reset : S → L → S → Prop) (Inv : S → Prop)
    (Know : S → Trace Op Res → Prop) (may : Trace Op Res → Op → Prop) : Prop where
  starts : ∀ s, Inv s → Know s []
  calls : ∀ trace op s answer s', Inv s → Know s trace → may trace op → effect op s answer s' →
    Inv s' ∧ Know s' (trace ++ [⟨op, answer⟩])
  moves : ∀ s label s', Inv s → env s label s' → Inv s' ∧ ∀ trace, Know s trace → Know s' trace
  resets : ∀ s label s', Inv s → reset s label s' → Inv s'

theorem SoloStep.sound {m m' : Solo S Op Res α} {event : SoloEvent Op Res α L}
    (keeps : SoloKeeps effect env reset Inv Know may) (sound : m.Sound Inv Know may post)
    (step : SoloStep effect env reset m event m') (started : ∀ p, event = .spawn p → p.All may post []) :
    m'.Sound Inv Know may post := by
  obtain ⟨inv, current⟩ := sound
  cases step with
  | spawn =>
    refine ⟨inv, ?_⟩
    rintro _ ⟨⟩
    exact ⟨started _ rfl, keeps.starts _ inv⟩
  | call taken =>
    obtain ⟨all, know⟩ := current _ rfl
    obtain ⟨inv, know⟩ := keeps.calls _ _ _ _ _ inv know all.1 taken
    refine ⟨inv, ?_⟩
    rintro _ ⟨⟩
    exact ⟨all.2 _, know⟩
  | stop => exact ⟨inv, by rintro _ ⟨⟩⟩
  | env moved =>
    obtain ⟨inv, stable⟩ := keeps.moves _ _ _ inv moved
    refine ⟨inv, ?_⟩
    intro proc running
    obtain ⟨all, know⟩ := current proc running
    exact ⟨all, stable _ know⟩
  | reset moved => exact ⟨keeps.resets _ _ _ inv moved, by rintro _ ⟨⟩⟩

theorem Solo.run_sound {m m' : Solo S Op Res α} {events : List (SoloEvent Op Res α L)}
    (keeps : SoloKeeps effect env reset Inv Know may) (run : Runs.Run (SoloStep effect env reset) m events m')
    (started : ∀ p, .spawn p ∈ events → p.All may post []) (sound : m.Sound Inv Know may post) :
    m'.Sound Inv Know may post := by
  induction run with
  | refl => exact sound
  | snoc before taken ih =>
    apply taken.sound keeps (ih fun p member => started p (List.mem_append_left _ member))
    rintro p rfl
    exact started p (List.mem_append_right _ List.mem_cons_self)

theorem Solo.run_walk {proc proc' : Proc Op Res α} {s s' : S} (walk : Walk effect proc s proc' s') :
    ∃ k, Runs.Run (SoloStep effect env reset) ⟨s, some proc⟩ (List.replicate k .call) ⟨s', some proc'⟩ := by
  induction walk with
  | refl => exact ⟨0, .refl⟩
  | step taken _ ih =>
    obtain ⟨k, later⟩ := ih
    exact ⟨k + 1, by rw [List.replicate_succ]; exact .cons (.call taken) later⟩

end Programs
