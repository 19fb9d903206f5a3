import CometArchive.Shared.Programs

set_option autoImplicit false

namespace Programs

variable {Op : Type} {Res : Op → Type} {α β ε : Type} {honest : (op : Op) → Res op → Prop}

def Prog.Outcome (honest : (op : Op) → Res op → Prop) : Prog Op Res α → α → Prop
  | .ret value, result => result = value
  | .call op next, result => ∃ answer, honest op answer ∧ (next answer).Outcome honest result

theorem Prog.outcome_bind {p : Prog Op Res α} {f : α → Prog Op Res β} {result : β} :
    (p >>= f).Outcome honest result ↔ ∃ value, p.Outcome honest value ∧ (f value).Outcome honest result := by
  induction p with
  | ret value => simp [Prog.Outcome]
  | call op next ih =>
    simp only [Prog.call_bind, Prog.Outcome, ih]
    constructor
    · rintro ⟨answer, answered, value, first, second⟩
      exact ⟨value, ⟨answer, answered, first⟩, second⟩
    · rintro ⟨value, ⟨answer, answered, first⟩, second⟩
      exact ⟨answer, answered, value, first, second⟩

theorem Prog.Outcome.mono {honest' : (op : Op) → Res op → Prop} {p : Prog Op Res α} {result : α}
    (ended : p.Outcome honest result) (weaker : ∀ op answer, honest op answer → honest' op answer) :
    p.Outcome honest' result := by
  induction p with
  | ret value => exact ended
  | call op next ih =>
    obtain ⟨answer, answered, rest⟩ := ended
    exact ⟨answer, weaker op answer answered, ih answer rest⟩

theorem Prog.exists_outcome (served : ∀ op, ∃ answer, honest op answer) (p : Prog Op Res α) :
    ∃ result, p.Outcome honest result := by
  induction p with
  | ret value => exact ⟨value, rfl⟩
  | call op next ih =>
    obtain ⟨answer, answered⟩ := served op
    obtain ⟨result, rest⟩ := ih answer
    exact ⟨result, answer, answered, rest⟩

def Prog.Takes (honest : (op : Op) → Res op → Prop) : Prog Op Res α → Trace Op Res → α → Prop
  -- the calls on the way to an outcome, with their answers
  | .ret value, trace, result => trace = [] ∧ result = value
  | .call op next, trace, result =>
    ∃ answer rest, honest op answer ∧ trace = ⟨op, answer⟩ :: rest ∧ (next answer).Takes honest rest result

theorem Prog.takes_bind {p : Prog Op Res α} {f : α → Prog Op Res β} {trace : Trace Op Res} {result : β} :
    (p >>= f).Takes honest trace result ↔ ∃ first second value, trace = first ++ second ∧
      p.Takes honest first value ∧ (f value).Takes honest second result := by
  induction p generalizing trace with
  | ret value =>
    constructor
    · intro taken
      exact ⟨[], trace, value, rfl, ⟨rfl, rfl⟩, taken⟩
    · rintro ⟨_, second, _, rfl, ⟨rfl, rfl⟩, taken⟩
      exact taken
  | call op next ih =>
    constructor
    · rintro ⟨answer, rest, answered, rfl, taken⟩
      obtain ⟨first, second, value, rfl, before, after⟩ := (ih answer).mp taken
      exact ⟨⟨op, answer⟩ :: first, second, value, rfl, ⟨answer, first, answered, rfl, before⟩, after⟩
    · rintro ⟨_, second, value, rfl, ⟨answer, first, answered, rfl, before⟩, after⟩
      exact ⟨answer, first ++ second, answered, rfl, (ih answer).mpr ⟨first, second, value, rfl, before, after⟩⟩

theorem Prog.Outcome.takes {p : Prog Op Res α} {result : α} (ended : p.Outcome honest result) :
    ∃ trace, p.Takes honest trace result := by
  induction p with
  | ret value => exact ⟨[], rfl, ended⟩
  | call op next ih =>
    obtain ⟨answer, answered, rest⟩ := ended
    obtain ⟨trace, taken⟩ := ih answer rest
    exact ⟨⟨op, answer⟩ :: trace, answer, trace, answered, rfl, taken⟩

theorem exists_unit {holds : Unit → Prop} : (∃ value, holds value) ↔ holds () :=
  ⟨fun ⟨_, held⟩ => held, fun held => ⟨(), held⟩⟩

namespace Fallible

variable {p : Fallible Op Res ε α} {f : α → Fallible Op Res ε β} {value : α} {result : β}

def Returns (honest : (op : Op) → Res op → Prop) (p : Fallible Op Res ε α) (value : α) : Prop :=
  p.run.Outcome honest (.ok value)

/-- The program returns, whatever the answers are, and `post` holds of its calls and of what it returns. -/
def Leaves (honest : (op : Op) → Res op → Prop) (post : Trace Op Res → α → Prop) (p : Fallible Op Res ε α) : Prop :=
  ∀ trace result, p.run.Takes honest trace result → ∃ value, result = .ok value ∧ post trace value

abbrev Sure (honest : (op : Op) → Res op → Prop) (post : α → Prop) (p : Fallible Op Res ε α) : Prop :=
  p.Leaves honest fun _ value => post value

theorem Sure.outcome {post : α → Prop} (sure : p.Sure honest post) {result : Except ε α}
    (ended : p.run.Outcome honest result) : ∃ value, result = .ok value ∧ post value := by
  obtain ⟨trace, taken⟩ := ended.takes
  exact sure trace result taken

theorem Sure.returns {post : α → Prop} (sure : p.Sure honest post) (served : ∀ op, ∃ answer, honest op answer) :
    ∃ value, p.Returns honest value ∧ post value := by
  obtain ⟨result, ended⟩ := Prog.exists_outcome served p.run
  obtain ⟨value, rfl, holds⟩ := sure.outcome ended
  exact ⟨value, ended, holds⟩

theorem Leaves.mono {post post' : Trace Op Res → α → Prop} (leaves : p.Leaves honest post)
    (weaker : ∀ trace value, post trace value → post' trace value) : p.Leaves honest post' := by
  intro trace result taken
  obtain ⟨value, same, holds⟩ := leaves trace result taken
  exact ⟨value, same, weaker trace value holds⟩

theorem Leaves.bind {post : Trace Op Res → β → Prop}
    (leaves : p.Leaves honest fun first value => (f value).Leaves honest fun second => post (first ++ second)) :
    (p >>= f).Leaves honest post := by
  intro trace result taken
  change (p.run >>= fun first => _).Takes honest trace result at taken
  obtain ⟨first, second, outcome, rfl, before, rest⟩ := Prog.takes_bind.mp taken
  obtain ⟨value, rfl, later⟩ := leaves first outcome before
  exact later second result rest

theorem Leaves.pure {post : Trace Op Res → α → Prop} (holds : post [] value) :
    (pure value : Fallible Op Res ε α).Leaves honest post := by
  rintro _ result ⟨rfl, ended⟩
  exact ⟨value, ended, holds⟩

theorem Leaves.lift {post : Trace Op Res → α → Prop} {outcome : Except ε α} (ok : outcome = .ok value)
    (holds : post [] value) : (lift outcome : Fallible Op Res ε α).Leaves honest post := by
  rintro _ result ⟨rfl, ended⟩
  exact ⟨value, ended.trans ok, holds⟩

theorem Leaves.query (op : Op) {post : Trace Op Res → Res op → Prop}
    (holds : ∀ answer, honest op answer → post [⟨op, answer⟩] answer) :
    (query op : Fallible Op Res ε (Res op)).Leaves honest post := by
  rintro _ result ⟨answer, _, answered, rfl, rfl, rfl⟩
  exact ⟨answer, rfl, holds answer answered⟩

theorem Leaves.attempt {op : Op} {outcome : Res op → Except ε α} {post : Trace Op Res → α → Prop}
    (ok : ∀ answer, honest op answer → ∃ value, outcome answer = .ok value ∧ post [⟨op, answer⟩] value) :
    (attempt op outcome : Fallible Op Res ε α).Leaves honest post := by
  rintro _ result ⟨answer, _, answered, rfl, rfl, rfl⟩
  exact ok answer answered

theorem Leaves.mapErr {g : ε → ε} {post : Trace Op Res → α → Prop} (leaves : p.Leaves honest post) :
    (p.mapErr g).Leaves honest post := by
  intro trace result taken
  change (p.run >>= fun first => _).Takes honest trace result at taken
  obtain ⟨first, _, outcome, rfl, before, rfl, ended⟩ := Prog.takes_bind.mp taken
  obtain ⟨value, rfl, holds⟩ := leaves first outcome before
  rw [List.append_nil]
  exact ⟨value, ended, holds⟩

@[simp] theorem returns_bind :
    (p >>= f).Returns honest result ↔ ∃ value, p.Returns honest value ∧ (f value).Returns honest result := by
  change (p.run >>= fun first => _).Outcome honest (Except.ok result) ↔ _
  rw [Prog.outcome_bind]
  constructor
  · rintro ⟨first, ended, rest⟩
    cases first with
    | error err => cases rest
    | ok value => exact ⟨value, ended, rest⟩
  · rintro ⟨value, ended, rest⟩
    exact ⟨.ok value, ended, rest⟩

@[simp] theorem returns_pure {other : α} : (pure value : Fallible Op Res ε α).Returns honest other ↔ other = value := by
  constructor
  · intro same
    exact Except.ok.inj same
  · rintro rfl
    rfl

@[simp] theorem returns_lift {outcome : Except ε α} :
    (lift outcome : Fallible Op Res ε α).Returns honest value ↔ outcome = .ok value := eq_comm

@[simp] theorem returns_query {op : Op} {answer : Res op} :
    (query op : Fallible Op Res ε (Res op)).Returns honest answer ↔ honest op answer := by
  constructor
  · rintro ⟨given, answered, same⟩
    cases same
    exact answered
  · intro answered
    exact ⟨answer, answered, rfl⟩

theorem returns_attempt {op : Op} {outcome : Res op → Except ε α} :
    (attempt op outcome : Fallible Op Res ε α).Returns honest value ↔
      ∃ answer, honest op answer ∧ outcome answer = .ok value := by
  constructor
  · rintro ⟨answer, answered, same⟩
    exact ⟨answer, answered, same.symm⟩
  · rintro ⟨answer, answered, same⟩
    exact ⟨answer, answered, same.symm⟩

@[simp] theorem returns_mapErr {g : ε → ε} : (p.mapErr g).Returns honest value ↔ p.Returns honest value := by
  change (p.run >>= fun first => _).Outcome honest (Except.ok value) ↔ _
  rw [Prog.outcome_bind]
  constructor
  · rintro ⟨first, ended, rest⟩
    cases first with
    | error err => cases rest
    | ok other =>
      cases rest
      exact ended
  · intro ended
    exact ⟨.ok value, ended, rfl⟩

end Fallible

section Achieves

variable {S : Type} {effect : (op : Op) → S → Res op → S → Prop}

/-- The program, run alone from `s`, is answered at every call, and however it is answered it ends in a
state where `post` holds. -/
def Prog.Achieves (effect : (op : Op) → S → Res op → S → Prop) (post : α → S → Prop) : Prog Op Res α → S → Prop
  | .ret value, s => post value s
  | .call op next, s =>
    (∃ answer s', effect op s answer s') ∧ ∀ answer s', effect op s answer s' → (next answer).Achieves effect post s'

variable {s : S}

theorem Prog.Achieves.mono {post post' : α → S → Prop} {p : Prog Op Res α} (achieves : p.Achieves effect post s)
    (weaker : ∀ value s', post value s' → post' value s') : p.Achieves effect post' s := by
  induction p generalizing s with
  | ret value => exact weaker _ _ achieves
  | call op next ih =>
    obtain ⟨answered, rest⟩ := achieves
    exact ⟨answered, fun answer s' taken => ih answer (rest answer s' taken)⟩

theorem Prog.Achieves.bind {post : β → S → Prop} {p : Prog Op Res α} {f : α → Prog Op Res β}
    (achieves : p.Achieves effect (fun value s' => (f value).Achieves effect post s') s) :
    (p >>= f).Achieves effect post s := by
  induction p generalizing s with
  | ret value => exact achieves
  | call op next ih =>
    obtain ⟨answered, rest⟩ := achieves
    exact ⟨answered, fun answer s' taken => ih answer (rest answer s' taken)⟩

def Prog.Leads (effect : (op : Op) → S → Res op → S → Prop) : Prog Op Res α → S → α → S → Prop
  -- one way the program, run alone from `s`, may end
  | .ret value, s, result, s' => result = value ∧ s' = s
  | .call op next, s, result, s' => ∃ answer mid, effect op s answer mid ∧ (next answer).Leads effect mid result s'

theorem Prog.Achieves.leads {post : α → S → Prop} {p : Prog Op Res α} {result : α} {s' : S}
    (achieves : p.Achieves effect post s) (led : p.Leads effect s result s') : post result s' := by
  induction p generalizing s with
  | ret value =>
    obtain ⟨rfl, rfl⟩ := led
    exact achieves
  | call op next ih =>
    obtain ⟨answer, mid, taken, rest⟩ := led
    exact ih answer (achieves.2 answer mid taken) rest

theorem Prog.All.leads {may : Trace Op Res → Op → Prop} {post : Trace Op Res → α → Prop} {p : Prog Op Res α}
    {trace : Trace Op Res} {result : α} {s' : S} (Inv : Trace Op Res → S → Prop) (all : p.All may post trace)
    (led : p.Leads effect s result s') (inv : Inv trace s)
    (keeps : ∀ trace op s answer s', Inv trace s → may trace op → effect op s answer s' →
      Inv (trace ++ [⟨op, answer⟩]) s') : ∃ later, Inv later s' ∧ post later result := by
  induction p generalizing s trace with
  | ret value =>
    obtain ⟨rfl, rfl⟩ := led
    exact ⟨trace, inv, all⟩
  | call op next ih =>
    obtain ⟨answer, mid, taken, rest⟩ := led
    exact ih answer (all.2 answer) rest (keeps trace op s answer mid inv all.1 taken)

theorem Walk.preserves {proc proc' : Proc Op Res α} {s' : S} (Inv : S → Prop) (walk : Walk effect proc s proc' s')
    (init : Inv s) (keeps : ∀ op s answer s', effect op s answer s' → Inv s → Inv s') : Inv s' := by
  induction walk with
  | refl => exact init
  | step taken _ ih => exact ih (keeps _ _ _ _ taken init)

theorem Walk.leads {proc : Proc Op Res α} {value : α} {trace : Trace Op Res} {s' : S}
    (walk : Walk effect proc s ⟨.ret value, trace⟩ s') : proc.rest.Leads effect s value s' := by
  generalize ended : (⟨.ret value, trace⟩ : Proc Op Res α) = last at walk
  induction walk with
  | refl =>
    subst ended
    exact ⟨rfl, rfl⟩
  | step taken rest ih => exact ⟨_, _, taken, ih ended⟩

def tryDrive (answer : (op : Op) → S → Option (Res op × S)) : Nat → Proc Op Res α → S → Option (Proc Op Res α × S)
  -- at most `n` calls of a process, as long as `answer` has an answer
  | 0, proc, s => some (proc, s)
  | _ + 1, ⟨.ret value, trace⟩, s => some (⟨.ret value, trace⟩, s)
  | n + 1, ⟨.call op next, trace⟩, s =>
    match answer op s with
    | some (given, after) => tryDrive answer n ⟨next given, trace ++ [⟨op, given⟩]⟩ after
    | none => none

theorem tryDrive_walk {answer : (op : Op) → S → Option (Res op × S)}
    (served : ∀ op s given after, answer op s = some (given, after) → effect op s given after) {n : Nat}
    {proc proc' : Proc Op Res α} {s' : S} (driven : tryDrive answer n proc s = some (proc', s')) :
    Walk effect proc s proc' s' := by
  induction n generalizing proc s with
  | zero =>
    cases driven
    exact .refl
  | succ n ih =>
    obtain ⟨rest, trace⟩ := proc
    cases rest with
    | ret value =>
      cases driven
      exact .refl
    | call op next =>
      unfold tryDrive at driven
      split at driven
      next given after found => exact .step (served op s given after found) (ih driven)
      next => cases driven

def play {L : Type} (answer : (op : Op) → S → Option (Res op × S)) (move : S → L → Option S) :
    List (Event Op Res α L) → Machine S Op Res α → Option (Machine S Op Res α)
  -- the machine after these events, where every call and every move of the shared state has one answer or none
  | [], m => some m
  | .spawn id p :: rest, m =>
    if (m.procs id).isNone then
      play answer move rest { m with procs := Function.update m.procs id (some ⟨p, []⟩) }
    else none
  | .run id :: rest, m =>
    match m.procs id with
    | some ⟨.call op next, trace⟩ =>
      match answer op m.shared with
      | some (given, shared) => play answer move rest
          { shared, procs := Function.update m.procs id (some ⟨next given, trace ++ [⟨op, given⟩]⟩) }
      | none => none
    | _ => none
  | .kill id :: rest, m => play answer move rest { m with procs := Function.update m.procs id none }
  | .env label :: rest, m =>
    match move m.shared label with
    | some shared => play answer move rest { m with shared }
    | none => none

theorem play_run {L : Type} {env : S → L → S → Prop} {answer : (op : Op) → S → Option (Res op × S)}
    {move : S → L → Option S} (served : ∀ op s given after, answer op s = some (given, after) → effect op s given after)
    (moved : ∀ s label after, move s label = some after → env s label after) {events : List (Event Op Res α L)}
    {m m' : Machine S Op Res α} (played : play answer move events m = some m') :
    Runs.Run (Step effect env) m events m' := by
  induction events generalizing m with
  | nil =>
    cases played
    exact .refl
  | cons event rest ih =>
    cases event with
    | spawn id p =>
      simp only [play] at played
      split at played
      next free => exact .cons (.spawn (Option.isNone_iff_eq_none.mp free)) (ih played)
      next => cases played
    | run id =>
      simp only [play] at played
      split at played
      next op next trace present =>
        split at played
        next given shared found => exact .cons (.run present (served op _ given shared found)) (ih played)
        next => cases played
      next => cases played
    | kill id => exact .cons .kill (ih played)
    | env label =>
      simp only [play] at played
      split at played
      next shared found => exact .cons (.env (moved _ label shared found)) (ih played)
      next => cases played

def Prog.returned : Prog Op Res α → Option α
  | .ret value => some value
  | .call _ _ => none

theorem drive_leads {answer : (op : Op) → S → Res op × S} (served : ∀ op s, effect op s (answer op s).1 (answer op s).2)
    (n : Nat) {p : Prog Op Res α} {value : α} (ended : (drive answer n ⟨p, []⟩ s).1.rest.returned = some value) :
    p.Leads effect s value (drive answer n ⟨p, []⟩ s).2 := by
  have walk := drive_walk served n ⟨p, []⟩ s
  generalize (drive answer n ⟨p, []⟩ s).1 = last at walk ended
  obtain ⟨rest, trace⟩ := last
  cases rest with
  | call op next => cases ended
  | ret last =>
    cases ended
    exact walk.leads

theorem Fallible.achieves_bind {post : Except ε β → S → Prop} {p : Fallible Op Res ε α} {f : α → Fallible Op Res ε β}
    (achieves : p.run.Achieves effect
      (fun outcome s' => ∃ value, outcome = .ok value ∧ (f value).run.Achieves effect post s') s) :
    (p >>= f).run.Achieves effect post s := by
  refine Prog.Achieves.bind (achieves.mono ?_)
  rintro _ s' ⟨value, rfl, rest⟩
  exact rest

theorem Fallible.achieves_mapErr {post : Except ε α → S → Prop} {p : Fallible Op Res ε α} {g : ε → ε}
    (achieves : p.run.Achieves effect (fun outcome s' => post (outcome.mapError g) s') s) :
    (p.mapErr g).run.Achieves effect post s :=
  Prog.Achieves.bind achieves

end Achieves

end Programs
