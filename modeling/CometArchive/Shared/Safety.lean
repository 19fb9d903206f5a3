import CometArchive.Shared.Outcomes

set_option autoImplicit false

namespace Programs

variable {Op : Type} {Res : Op → Type} {α β ε S : Type} {effect : (op : Op) → S → Res op → S → Prop}
  {inv : S → Prop} {s s' : S}

/-- `inv` holds before and after every call, and `post` of what is returned. -/
def Prog.Safe (effect : (op : Op) → S → Res op → S → Prop) (inv : S → Prop) (post : α → S → Prop) :
    Prog Op Res α → S → Prop
  | .ret value, s => inv s ∧ post value s
  | .call op next, s => inv s ∧ ∀ answer s', effect op s answer s' → (next answer).Safe effect inv post s'

theorem Prog.Safe.here {post : α → S → Prop} {p : Prog Op Res α} (safe : p.Safe effect inv post s) : inv s := by
  cases p with
  | ret value => exact safe.1
  | call op next => exact safe.1

theorem Prog.Safe.mono {inv' : S → Prop} {post post' : α → S → Prop} {p : Prog Op Res α}
    (safe : p.Safe effect inv post s) (between : ∀ s, inv s → inv' s)
    (weaker : ∀ value s, inv s → post value s → post' value s) : p.Safe effect inv' post' s := by
  induction p generalizing s with
  | ret value => exact ⟨between s safe.1, weaker value s safe.1 safe.2⟩
  | call op next ih => exact ⟨between s safe.1, fun answer s' taken => ih answer (safe.2 answer s' taken)⟩

theorem Prog.Safe.bind {post : β → S → Prop} {p : Prog Op Res α} {f : α → Prog Op Res β}
    (safe : p.Safe effect inv (fun value s' => (f value).Safe effect inv post s') s) :
    (p >>= f).Safe effect inv post s := by
  induction p generalizing s with
  | ret value => exact safe.2
  | call op next ih => exact ⟨safe.1, fun answer s' taken => ih answer (safe.2 answer s' taken)⟩

theorem Prog.Safe.walk {post : α → S → Prop} {proc proc' : Proc Op Res α} (walk : Walk effect proc s proc' s')
    (safe : proc.rest.Safe effect inv post s) : proc'.rest.Safe effect inv post s' := by
  induction walk with
  | refl => exact safe
  | step taken _ ih => exact ih (safe.2 _ _ taken)

theorem Prog.Safe.leads {post : α → S → Prop} {p : Prog Op Res α} {result : α} (safe : p.Safe effect inv post s)
    (led : p.Leads effect s result s') : inv s' ∧ post result s' := by
  induction p generalizing s with
  | ret value =>
    obtain ⟨rfl, rfl⟩ := led
    exact safe
  | call op next ih =>
    obtain ⟨answer, mid, taken, rest⟩ := led
    exact ih answer (safe.2 answer mid taken) rest

theorem Prog.All.safe {may : Trace Op Res → Op → Prop} {post : Trace Op Res → α → Prop} {p : Prog Op Res α}
    {trace : Trace Op Res} (Inv : Trace Op Res → S → Prop) (all : p.All may post trace) (start : Inv trace s)
    (keeps : ∀ trace op s answer s', Inv trace s → may trace op → effect op s answer s' →
      Inv (trace ++ [⟨op, answer⟩]) s') (between : ∀ trace s, Inv trace s → inv s) :
    p.Safe effect inv (fun value s' => ∃ later, Inv later s' ∧ post later value) s := by
  induction p generalizing s trace with
  | ret value => exact ⟨between trace s start, trace, start, all⟩
  | call op next ih =>
    refine ⟨between trace s start, ?_⟩
    intro answer s' taken
    exact ih answer (all.2 answer) (keeps trace op s answer s' start all.1 taken)

def logged (effect : (op : Op) → S → Res op → S → Prop) (op : Op) (before : S × List (Entry Op Res × S))
    (answer : Res op) (after : S × List (Entry Op Res × S)) : Prop :=
  -- the state with a log of the calls, each with the state after it
  ∃ s, effect op before.1 answer s ∧ after = (s, before.2 ++ [(⟨op, answer⟩, s)])

def counted (counts : Op → S → S → Prop) (effect : (op : Op) → S → Res op → S → Prop) (op : Op) (before : S × Nat)
    (answer : Res op) (after : S × Nat) : Prop :=
  effect op before.1 answer after.1 ∧
    (counts op before.1 after.1 ∧ after.2 = before.2 + 1 ∨ ¬ counts op before.1 after.1 ∧ after.2 = before.2)

theorem Prog.Safe.uncounted {counts : Op → S → S → Prop} {inv : S × Nat → Prop} {post : α → S × Nat → Prop}
    {p : Prog Op Res α} {n : Nat} (safe : p.Safe (counted counts effect) inv post (s, n)) :
    p.Safe effect (fun s => ∃ n, inv (s, n)) (fun value s => ∃ n, post value (s, n)) s := by
  induction p generalizing s n with
  | ret value => exact ⟨⟨n, safe.1⟩, n, safe.2⟩
  | call op next ih =>
    refine ⟨⟨n, safe.1⟩, ?_⟩
    intro answer s' taken
    by_cases counts : counts op s s'
    · exact ih answer (safe.2 answer (s', n + 1) ⟨taken, .inl ⟨counts, rfl⟩⟩)
    · exact ih answer (safe.2 answer (s', n) ⟨taken, .inr ⟨counts, rfl⟩⟩)

theorem Prog.Leads.counted {p : Prog Op Res α} {result : α} (counts : Op → S → S → Prop)
    (led : p.Leads effect s result s') (n : Nat) :
    ∃ count, p.Leads (Programs.counted counts effect) (s, n) result (s', count) := by
  induction p generalizing s n with
  | ret value =>
    obtain ⟨rfl, rfl⟩ := led
    exact ⟨n, rfl, rfl⟩
  | call op next ih =>
    obtain ⟨answer, mid, taken, rest⟩ := led
    by_cases counts : counts op s mid
    · obtain ⟨count, later⟩ := ih answer rest (n + 1)
      exact ⟨count, answer, (mid, n + 1), ⟨taken, .inl ⟨counts, rfl⟩⟩, later⟩
    · obtain ⟨count, later⟩ := ih answer rest n
      exact ⟨count, answer, (mid, n), ⟨taken, .inr ⟨counts, rfl⟩⟩, later⟩

namespace Fallible

variable {fail : ε → S → Prop}

def Safe (effect : (op : Op) → S → Res op → S → Prop) (inv : S → Prop) (fail : ε → S → Prop) (post : α → S → Prop)
    (p : Fallible Op Res ε α) (s : S) : Prop :=
  p.run.Safe effect inv (fun result s => match result with
    | .error err => fail err s
    | .ok value => post value s) s

theorem Safe.mono {inv' : S → Prop} {fail' : ε → S → Prop} {post post' : α → S → Prop} {p : Fallible Op Res ε α}
    (safe : p.Safe effect inv fail post s) (between : ∀ s, inv s → inv' s)
    (failing : ∀ err s, inv s → fail err s → fail' err s) (weaker : ∀ value s, inv s → post value s → post' value s) :
    p.Safe effect inv' fail' post' s := by
  refine Prog.Safe.mono safe between ?_
  intro result s holds ended
  cases result with
  | error err => exact failing err s holds ended
  | ok value => exact weaker value s holds ended

theorem Safe.bind {post : β → S → Prop} {p : Fallible Op Res ε α} {f : α → Fallible Op Res ε β}
    (safe : p.Safe effect inv fail (fun value s => (f value).Safe effect inv fail post s) s) :
    (p >>= f).Safe effect inv fail post s := by
  refine Prog.Safe.bind (Prog.Safe.mono safe (fun _ holds => holds) ?_)
  intro result s holds ended
  cases result with
  | error err => exact ⟨holds, ended⟩
  | ok value => exact ended

theorem Safe.pure {post : α → S → Prop} {value : α} (holds : inv s) (ended : post value s) :
    (pure value : Fallible Op Res ε α).Safe effect inv fail post s := ⟨holds, ended⟩

theorem Safe.lift {post : α → S → Prop} {result : Except ε α} (holds : inv s)
    (failing : ∀ err, result = .error err → fail err s) (ended : ∀ value, result = .ok value → post value s) :
    (lift result : Fallible Op Res ε α).Safe effect inv fail post s := by
  refine ⟨holds, ?_⟩
  cases result with
  | error err => exact failing err rfl
  | ok value => exact ended value rfl

theorem Safe.check {post : β → S → Prop} {result : Except ε α} {f : α → Fallible Op Res ε β} (holds : inv s)
    (failing : ∀ err, result = .error err → fail err s)
    (rest : ∀ value, result = .ok value → (f value).Safe effect inv fail post s) :
    (Fallible.lift result >>= f).Safe effect inv fail post s :=
  Safe.bind (Safe.lift holds failing rest)

theorem Safe.query (op : Op) {post : Res op → S → Prop} (holds : inv s)
    (rest : ∀ answer s', effect op s answer s' → inv s' ∧ post answer s') :
    (query op : Fallible Op Res ε (Res op)).Safe effect inv fail post s :=
  ⟨holds, rest⟩

theorem Safe.attempt {post : α → S → Prop} {op : Op} {outcome : Res op → Except ε α} (holds : inv s)
    (failing : ∀ answer err s', effect op s answer s' → outcome answer = .error err → inv s' ∧ fail err s')
    (rest : ∀ answer value s', effect op s answer s' → outcome answer = .ok value → inv s' ∧ post value s') :
    (attempt op outcome : Fallible Op Res ε α).Safe effect inv fail post s := by
  refine ⟨holds, ?_⟩
  intro answer s' taken
  cases result : outcome answer with
  | error err => simpa only [Prog.Safe, result] using failing answer err s' taken result
  | ok value => simpa only [Prog.Safe, result] using rest answer value s' taken result

theorem Safe.mapErr {post : α → S → Prop} {g : ε → ε} {p : Fallible Op Res ε α}
    (safe : p.Safe effect inv (fun err s => fail (g err) s) post s) : (p.mapErr g).Safe effect inv fail post s := by
  refine Prog.Safe.bind (Prog.Safe.mono safe (fun _ holds => holds) ?_)
  intro result s holds ended
  cases result with
  | error err => exact ⟨holds, ended⟩
  | ok value => exact ⟨holds, ended⟩

theorem Safe.recover {post : α → S → Prop} {p : Fallible Op Res ε α} {handler : ε → Fallible Op Res ε α}
    (safe : p.Safe effect inv (fun err s => (handler err).Safe effect inv fail post s) post s) :
    (p.recover handler).Safe effect inv fail post s := by
  refine Prog.Safe.bind (Prog.Safe.mono safe (fun _ holds => holds) ?_)
  intro result s holds ended
  cases result with
  | error err => exact ended
  | ok value => exact ⟨holds, ended⟩

theorem Safe.prog {post : α → S → Prop} {p : Fallible Op Res ε α} (safe : p.Safe effect inv fail post s) :
    p.run.Safe effect inv (fun result s => match result with
      | .error err => fail err s
      | .ok value => post value s) s := safe

theorem Ok.safe {may : Trace Op Res → Op → Prop} {fails : Trace Op Res → ε → Prop} {post : Trace Op Res → α → Prop}
    {p : Fallible Op Res ε α} {trace : Trace Op Res} (Inv : Trace Op Res → S → Prop) (ok : p.Ok may fails post trace)
    (start : Inv trace s)
    (keeps : ∀ trace op s answer s', Inv trace s → may trace op → effect op s answer s' →
      Inv (trace ++ [⟨op, answer⟩]) s') (between : ∀ trace s, Inv trace s → inv s) :
    p.Safe effect inv (fun err s' => ∃ later, Inv later s' ∧ fails later err)
      (fun value s' => ∃ later, Inv later s' ∧ post later value) s := by
  refine Prog.Safe.mono (Prog.All.safe Inv ok.all start keeps between) (fun _ holds => holds) ?_
  intro result s _ ended
  cases result with
  | error err => exact ended
  | ok value => exact ended

-- from here on only the rules above are used
attribute [irreducible] Safe

end Fallible

end Programs
