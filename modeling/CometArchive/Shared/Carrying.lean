import CometArchive.Shared.Programs

set_option autoImplicit false

/-!
# Calls carried out by programs

A call of one kind may itself be a program over calls of another kind, and many such programs run at once.
A call that takes effect in one of its steps, and leaves the state as it appears from above alone in all
others, cannot be told from one that is made in a single step.

What a call will answer is often open when it takes effect. So what is kept of a call is the set of the
answers that it may still give, and every choice from these sets is matched by a run of its own.
-/

namespace Programs

variable {Op : Type} {Res : Op → Type} {Low : Type} {LowRes : Low → Type} {α β ε S A G L : Type}

inductive Phase (Op : Type) (Res : Op → Type) (Low : Type) (LowRes : Low → Type) (α : Type) where
  | between (proc : Proc Op Res α)
  | inside (op : Op) (next : Res op → Prog Op Res α) (trace : Trace Op Res) (rest : Prog Low LowRes (Res op))

structure Carrier (S Op : Type) (Res : Op → Type) (Low : Type) (LowRes : Low → Type) (α : Type) where
  shared : S
  procs : Nat → Option (Phase Op Res Low LowRes α)

def Carrier.idle (shared : S) : Carrier S Op Res Low LowRes α := ⟨shared, fun _ => none⟩

inductive CarryEvent (Op : Type) (Res : Op → Type) (α : Type) where
  | spawn (id : Nat) (p : Prog Op Res α)
  | enter (id : Nat)
  | run (id : Nat)
  | leave (id : Nat)
  | kill (id : Nat)

/-- What the programs of a group of processes do to the state they share, and what each of them relies on
while it waits for its turn. -/
structure Conduct (S Low : Type) (LowRes : Low → Type) where
  effect : Nat → (low : Low) → S → LowRes low → S → Prop
  dies : Nat → S → S → Prop
  inv : S → Prop
  rely : Nat → S → S → Prop
  rely_refl : ∀ id s, rely id s s
  rely_trans : ∀ {id s t u}, rely id s t → rely id t u → rely id s u
  death : ∀ {id s s'}, inv s → dies id s s' → inv s' ∧ ∀ other, other ≠ id → rely other s s'

variable {c : Conduct S Low LowRes} {carry : (op : Op) → Prog Low LowRes (Res op)}

inductive CarryStep (c : Conduct S Low LowRes) (carry : (op : Op) → Prog Low LowRes (Res op)) :
    Carrier S Op Res Low LowRes α → CarryEvent Op Res α → Carrier S Op Res Low LowRes α → Prop
  -- `carry op` is how a call of `op` is carried out
  | spawn {d : Carrier S Op Res Low LowRes α} {id : Nat} {p : Prog Op Res α} (free : d.procs id = none) :
    CarryStep c carry d (.spawn id p) { d with procs := Function.update d.procs id (some (.between ⟨p, []⟩)) }
  | enter {d : Carrier S Op Res Low LowRes α} {id : Nat} {op : Op} {next : Res op → Prog Op Res α}
    {trace : Trace Op Res} (present : d.procs id = some (.between ⟨.call op next, trace⟩)) :
    CarryStep c carry d (.enter id)
      { d with procs := Function.update d.procs id (some (.inside op next trace (carry op))) }
  | run {d : Carrier S Op Res Low LowRes α} {id : Nat} {op : Op} {next : Res op → Prog Op Res α} {trace : Trace Op Res}
    {low : Low} {rest : LowRes low → Prog Low LowRes (Res op)} {answer : LowRes low} {shared : S}
    (present : d.procs id = some (.inside op next trace (.call low rest)))
    (taken : c.effect id low d.shared answer shared) :
    CarryStep c carry d (.run id)
      { shared, procs := Function.update d.procs id (some (.inside op next trace (rest answer))) }
  | leave {d : Carrier S Op Res Low LowRes α} {id : Nat} {op : Op} {next : Res op → Prog Op Res α}
    {trace : Trace Op Res} {answer : Res op} (present : d.procs id = some (.inside op next trace (.ret answer))) :
    CarryStep c carry d (.leave id)
      { d with procs := Function.update d.procs id (some (.between ⟨next answer, trace ++ [⟨op, answer⟩]⟩)) }
  | kill {d : Carrier S Op Res Low LowRes α} {id : Nat} {shared : S} (died : c.dies id d.shared shared) :
    CarryStep c carry d (.kill id) { shared, procs := Function.update d.procs id none }

/-- Whatever the others do in between, each call keeps the state in order and what the others rely on, moves
the mark `g` as `moves` allows, and `post` holds of what is returned. -/
def Prog.Careful (c : Conduct S Low LowRes) (id : Nat) (moves : G → S → S → G → Prop) (post : β → G → S → Prop) :
    Prog Low LowRes β → G → S → Prop
  | .ret value, g, s => ∀ t, c.rely id s t → c.inv t → post value g t
  | .call low next, g, s => ∀ t, c.rely id s t → c.inv t → ∀ answer t', c.effect id low t answer t' →
    c.inv t' ∧ (∀ other, other ≠ id → c.rely other t t') ∧
      ∃ g', moves g t t' g' ∧ (next answer).Careful c id moves post g' t'

section Rules

variable {id : Nat} {moves : G → S → S → G → Prop} {g : G} {s s' : S}

theorem Prog.Careful.rely {post : β → G → S → Prop} {p : Prog Low LowRes β} (careful : p.Careful c id moves post g s)
    (meanwhile : c.rely id s s') : p.Careful c id moves post g s' := by
  cases p with
  | ret value => exact fun t later inv => careful t (c.rely_trans meanwhile later) inv
  | call low next => exact fun t later inv => careful t (c.rely_trans meanwhile later) inv

theorem Prog.Careful.mono {post post' : β → G → S → Prop} {p : Prog Low LowRes β}
    (careful : p.Careful c id moves post g s) (weaker : ∀ value g s, c.inv s → post value g s → post' value g s) :
    p.Careful c id moves post' g s := by
  induction p generalizing g s with
  | ret value => exact fun t later inv => weaker value g t inv (careful t later inv)
  | call low next ih =>
    intro t later inv answer t' taken
    obtain ⟨kept, others, g', moved, rest⟩ := careful t later inv answer t' taken
    exact ⟨kept, others, g', moved, ih answer rest⟩

theorem Prog.Careful.bind {post : β → G → S → Prop} {p : Prog Low LowRes α} {f : α → Prog Low LowRes β}
    (careful : p.Careful c id moves (fun value g s => (f value).Careful c id moves post g s) g s) :
    (p >>= f).Careful c id moves post g s := by
  induction p generalizing g s with
  | ret value =>
    -- the rest starts in a state that the others have reached from here
    change (f value).Careful c id moves post g s
    cases next : f value with
    | ret result =>
      intro t later inv
      have rest : (f value).Careful c id moves post g t := careful t later inv
      rw [next] at rest
      exact rest t (c.rely_refl id t) inv
    | call low rest =>
      intro t later inv
      have rest : (f value).Careful c id moves post g t := careful t later inv
      rw [next] at rest
      exact rest t (c.rely_refl id t) inv
  | call low next ih =>
    intro t later inv answer t' taken
    obtain ⟨kept, others, g', moved, rest⟩ := careful t later inv answer t' taken
    exact ⟨kept, others, g', moved, ih answer rest⟩

theorem Prog.All.careful {quiet : Low → Prop} {post : Trace Low LowRes → β → Prop} {p : Prog Low LowRes β}
    {trace : Trace Low LowRes} (all : p.All (fun _ low => quiet low) post trace)
    (quietly : ∀ low t answer t', quiet low → c.inv t → c.effect id low t answer t' →
      c.inv t' ∧ (∀ other, c.rely other t t') ∧ moves g t t' g) :
    p.Careful c id moves (fun value g' t => g' = g ∧ c.rely id s t ∧ ∃ later, post later value) g s := by
  -- a program all of whose calls are `quiet` does nothing that the process itself could not rely on
  suffices more : ∀ from', c.rely id s from' →
      p.Careful c id moves (fun value g' t => g' = g ∧ c.rely id s t ∧ ∃ later, post later value) g from' from
    more s (c.rely_refl id s)
  induction p generalizing trace with
  | ret value =>
    intro from' before t later inv
    exact ⟨rfl, c.rely_trans before later, trace, all⟩
  | call low next ih =>
    intro from' before t later inv answer t' taken
    obtain ⟨kept, everyone, still⟩ := quietly low t answer t' all.1 inv taken
    exact ⟨kept, fun other _ => everyone other, g, still,
      ih answer (all.2 answer) t' (c.rely_trans (c.rely_trans before later) (everyone id))⟩

namespace Fallible

def EndsIn (fail : ε → G → S → Prop) (post : β → G → S → Prop) : Except ε β → G → S → Prop
  | .error err => fail err
  | .ok value => post value

def Careful (c : Conduct S Low LowRes) (id : Nat) (moves : G → S → S → G → Prop) (fail : ε → G → S → Prop)
    (post : β → G → S → Prop) (p : Fallible Low LowRes ε β) (g : G) (s : S) : Prop :=
  p.run.Careful c id moves (EndsIn fail post) g s

variable {fail : ε → G → S → Prop}

theorem Careful.prog {post : β → G → S → Prop} {p : Fallible Low LowRes ε β}
    (careful : p.Careful c id moves fail post g s) : p.run.Careful c id moves (EndsIn fail post) g s := careful

theorem Careful.rely {post : β → G → S → Prop} {p : Fallible Low LowRes ε β}
    (careful : p.Careful c id moves fail post g s) (meanwhile : c.rely id s s') :
    p.Careful c id moves fail post g s' := Prog.Careful.rely careful meanwhile

theorem Careful.mono {fail' : ε → G → S → Prop} {post post' : β → G → S → Prop} {p : Fallible Low LowRes ε β}
    (careful : p.Careful c id moves fail post g s) (failing : ∀ err g s, c.inv s → fail err g s → fail' err g s)
    (weaker : ∀ value g s, c.inv s → post value g s → post' value g s) : p.Careful c id moves fail' post' g s := by
  refine Prog.Careful.mono careful ?_
  intro result g s inv holds
  cases result with
  | error err => exact failing err g s inv holds
  | ok value => exact weaker value g s inv holds

theorem Careful.pure {post : β → G → S → Prop} {value : β}
    (holds : ∀ t, c.rely id s t → c.inv t → post value g t) :
    (pure value : Fallible Low LowRes ε β).Careful c id moves fail post g s := holds

theorem Careful.lift {post : β → G → S → Prop} {result : Except ε β}
    (failing : ∀ err t, result = .error err → c.rely id s t → c.inv t → fail err g t)
    (holds : ∀ value t, result = .ok value → c.rely id s t → c.inv t → post value g t) :
    (lift result : Fallible Low LowRes ε β).Careful c id moves fail post g s := by
  intro t later inv
  cases result with
  | error err => exact failing err t rfl later inv
  | ok value => exact holds value t rfl later inv

theorem Careful.bind {post : β → G → S → Prop} {p : Fallible Low LowRes ε α} {f : α → Fallible Low LowRes ε β}
    (careful : p.Careful c id moves (fun err g s => ∀ t, c.rely id s t → c.inv t → fail err g t)
      (fun value g s => (f value).Careful c id moves fail post g s) g s) :
    (p >>= f).Careful c id moves fail post g s := by
  refine Prog.Careful.bind (Prog.Careful.mono careful ?_)
  intro result g s inv holds
  cases result with
  | error err => exact holds
  | ok value => exact holds

theorem Careful.check {post : β → G → S → Prop} {result : Except ε α} {f : α → Fallible Low LowRes ε β}
    (failing : ∀ err t, result = .error err → c.rely id s t → c.inv t → fail err g t)
    (rest : ∀ value, result = .ok value → (f value).Careful c id moves fail post g s) :
    (Fallible.lift result >>= f).Careful c id moves fail post g s := by
  apply Careful.bind
  apply Careful.lift
  · intro err t same later inv u further holds
    exact failing err u same (c.rely_trans later further) holds
  · intro value t same later inv
    exact (rest value same).rely later

theorem Careful.attempt {post : β → G → S → Prop} {low : Low} {outcome : LowRes low → Except ε β}
    (called : ∀ t, c.rely id s t → c.inv t → ∀ answer t', c.effect id low t answer t' →
      c.inv t' ∧ (∀ other, other ≠ id → c.rely other t t') ∧ ∃ g', moves g t t' g' ∧
        (∀ err u, outcome answer = .error err → c.rely id t' u → c.inv u → fail err g' u) ∧
        ∀ value u, outcome answer = .ok value → c.rely id t' u → c.inv u → post value g' u) :
    (attempt low outcome : Fallible Low LowRes ε β).Careful c id moves fail post g s := by
  intro t later inv answer t' taken
  obtain ⟨kept, others, g', moved, failing, ended⟩ := called t later inv answer t' taken
  refine ⟨kept, others, g', moved, ?_⟩
  intro u further holds
  cases result : outcome answer with
  | error err => exact failing err u result further holds
  | ok value => exact ended value u result further holds

theorem Careful.recover {post : β → G → S → Prop} {p : Fallible Low LowRes ε β} {handler : ε → Fallible Low LowRes ε β}
    (careful : p.Careful c id moves (fun err g s => (handler err).Careful c id moves fail post g s)
      (fun value g s => ∀ t, c.rely id s t → c.inv t → post value g t) g s) :
    (p.recover handler).Careful c id moves fail post g s := by
  refine Prog.Careful.bind (Prog.Careful.mono careful ?_)
  intro result g s inv holds
  cases result with
  | error err => exact holds
  | ok value => exact holds

theorem Ok.careful {quiet : Low → Prop} {fails : Trace Low LowRes → ε → Prop} {post : Trace Low LowRes → β → Prop}
    {p : Fallible Low LowRes ε β} {trace : Trace Low LowRes} (ok : p.Ok (fun _ low => quiet low) fails post trace)
    (quietly : ∀ low t answer t', quiet low → c.inv t → c.effect id low t answer t' →
      c.inv t' ∧ (∀ other, c.rely other t t') ∧ moves g t t' g) :
    p.Careful c id moves (fun err g' t => g' = g ∧ c.rely id s t ∧ ∃ later, fails later err)
      (fun value g' t => g' = g ∧ c.rely id s t ∧ ∃ later, post later value) g s := by
  refine Prog.Careful.mono (Prog.All.careful ok.all quietly) ?_
  intro result g s inv holds
  cases result with
  | error err => exact holds
  | ok value => exact holds

def deferring (p : Fallible Low LowRes ε β) (last : Fallible Low LowRes ε Unit) : Fallible Low LowRes ε β :=
  -- `defer`: `last` runs when `p` is done, and what it returns is not looked at
  ExceptT.mk (p.run >>= fun result => last.run >>= fun _ => .ret result)

theorem Careful.deferring {post : β → G → S → Prop} {p : Fallible Low LowRes ε β} {last : Fallible Low LowRes ε Unit}
    (careful : p.Careful c id moves
      (fun err g s => last.Careful c id moves (fun _ g s => ∀ t, c.rely id s t → c.inv t → fail err g t)
        (fun _ g s => ∀ t, c.rely id s t → c.inv t → fail err g t) g s)
      (fun value g s => last.Careful c id moves (fun _ g s => ∀ t, c.rely id s t → c.inv t → post value g t)
        (fun _ g s => ∀ t, c.rely id s t → c.inv t → post value g t) g s) g s) :
    (p.deferring last).Careful c id moves fail post g s := by
  refine Prog.Careful.bind (Prog.Careful.mono careful ?_)
  intro result g s inv holds
  refine Prog.Careful.bind (?_ : last.run.Careful c id moves (fun _ g s =>
    ∀ t, c.rely id s t → c.inv t → EndsIn fail post result g t) g s)
  cases result with
  | error err =>
    refine Prog.Careful.mono holds ?_
    intro done g s inv ended
    cases done with
    | error _ => exact ended
    | ok _ => exact ended
  | ok value =>
    refine Prog.Careful.mono holds ?_
    intro done g s inv ended
    cases done with
    | error _ => exact ended
    | ok _ => exact ended

-- from here on only the rules above are used
attribute [irreducible] Careful

end Fallible

end Rules

section Matching

variable {up : (op : Op) → A → Res op → A → Prop} {abs : S → A} {allowed : Op → Prop}

/-- A step leaves the state as it appears from above alone, or it is the one in which the call takes effect.
From then on the call may only give one of `answers`. -/
def Takes (up : (op : Op) → A → Res op → A → Prop) (abs : S → A) (op : Op) (g : Option (Res op → Prop)) (s s' : S)
    (g' : Option (Res op → Prop)) : Prop :=
  (g' = g ∧ abs s' = abs s) ∨
    (g = none ∧ ∃ answers, g' = some answers ∧ (∃ answer, answers answer) ∧
      ∀ answer, answers answer → up op (abs s) answer (abs s'))

def Ends (up : (op : Op) → A → Res op → A → Prop) (abs : S → A) (op : Op) (answer : Res op) :
    Option (Res op → Prop) → S → Prop
  -- a call that has not taken effect when it returns does so then
  | none, s => up op (abs s) answer (abs s)
  | some answers, _ => answers answer

abbrev Prog.Carries (c : Conduct S Low LowRes) (up : (op : Op) → A → Res op → A → Prop) (abs : S → A) (id : Nat)
    (op : Op) (p : Prog Low LowRes (Res op)) (g : Option (Res op → Prop)) (s : S) : Prop :=
  p.Careful c id (Takes up abs op) (Ends up abs op) g s

inductive Tracked (Op : Type) (Res : Op → Type) (Low : Type) (LowRes : Low → Type) (α : Type) where
  | between (proc : Proc Op Res α)
  | inside (op : Op) (next : Res op → Prog Op Res α) (trace : Trace Op Res) (rest : Prog Low LowRes (Res op))
    (g : Option (Res op → Prop))

def Tracked.phase : Tracked Op Res Low LowRes α → Phase Op Res Low LowRes α
  | .between proc => .between proc
  | .inside op next trace rest _ => .inside op next trace rest

def Tracked.Ok (c : Conduct S Low LowRes) (up : (op : Op) → A → Res op → A → Prop) (abs : S → A) (allowed : Op → Prop)
    (id : Nat) (s : S) : Tracked Op Res Low LowRes α → Prop
  | .between proc => proc.rest.All (fun _ op => allowed op) (fun _ _ => True) proc.trace
  | .inside op next trace rest g => rest.Carries c up abs id op g s ∧ (∀ answers ∈ g, ∃ answer, answers answer) ∧
    ∀ answer, (next answer).All (fun _ op => allowed op) (fun _ _ => True) (trace ++ [⟨op, answer⟩])

inductive Shows : Option (Tracked Op Res Low LowRes α) → Option (Proc Op Res α) → Prop
  -- the process that makes its calls in single steps, for a choice of the answers that are still open
  | none : Shows none none
  | between (proc : Proc Op Res α) : Shows (some (.between proc)) (some proc)
  | before (op : Op) (next : Res op → Prog Op Res α) (trace : Trace Op Res) (rest : Prog Low LowRes (Res op)) :
    Shows (some (.inside op next trace rest none)) (some ⟨.call op next, trace⟩)
  | after (op : Op) (next : Res op → Prog Op Res α) (trace : Trace Op Res) (rest : Prog Low LowRes (Res op))
    (answers : Res op → Prop) (answer : Res op) (open' : answers answer) :
    Shows (some (.inside op next trace rest (some answers))) (some ⟨next answer, trace ++ [⟨op, answer⟩]⟩)

inductive Appears : Option (Phase Op Res Low LowRes α) → Option (Proc Op Res α) → Prop
  -- what of a process can be told from above: inside a call, it has either not made it or been answered
  | none : Appears none none
  | between (proc : Proc Op Res α) : Appears (some (.between proc)) (some proc)
  | waiting (op : Op) (next : Res op → Prog Op Res α) (trace : Trace Op Res) (rest : Prog Low LowRes (Res op)) :
    Appears (some (.inside op next trace rest)) (some ⟨.call op next, trace⟩)
  | answered (op : Op) (next : Res op → Prog Op Res α) (trace : Trace Op Res) (rest : Prog Low LowRes (Res op))
    (answer : Res op) : Appears (some (.inside op next trace rest)) (some ⟨next answer, trace ++ [⟨op, answer⟩]⟩)

theorem Shows.appears {tracked : Option (Tracked Op Res Low LowRes α)} {proc : Option (Proc Op Res α)}
    (shows' : Shows tracked proc) : Appears (tracked.map Tracked.phase) proc := by
  cases shows' with
  | none => exact .none
  | between proc => exact .between proc
  | before op next trace rest => exact .waiting op next trace rest
  | after op next trace rest answers answer open' => exact .answered op next trace rest answer

theorem Tracked.Ok.shows {id : Nat} {s : S} {tracked : Tracked Op Res Low LowRes α}
    (ok : tracked.Ok c up abs allowed id s) : ∃ proc, Shows (some tracked) (some proc) := by
  cases tracked with
  | between proc => exact ⟨proc, .between proc⟩
  | inside op next trace rest g =>
    cases g with
    | none => exact ⟨_, .before op next trace rest⟩
    | some answers =>
      obtain ⟨answer, open'⟩ := ok.2.1 answers rfl
      exact ⟨_, .after op next trace rest answers answer open'⟩

theorem Tracked.Ok.rely {id : Nat} {s s' : S} {tracked : Tracked Op Res Low LowRes α}
    (ok : tracked.Ok c up abs allowed id s) (meanwhile : c.rely id s s') : tracked.Ok c up abs allowed id s' := by
  cases tracked with
  | between proc => exact ok
  | inside op next trace rest g => exact ⟨ok.1.rely meanwhile, ok.2⟩

variable {start : A} {env : A → L → A → Prop}

structure Matched (c : Conduct S Low LowRes) (up : (op : Op) → A → Res op → A → Prop) (abs : S → A)
    (allowed : Op → Prop) (env : A → L → A → Prop) (start : A) (events : List (CarryEvent Op Res α))
    (d : Carrier S Op Res Low LowRes α) (tracked : Nat → Option (Tracked Op Res Low LowRes α)) : Prop where
  -- every choice of the answers that are still open is matched by a run of single steps
  inv : c.inv d.shared
  phases : ∀ id, (tracked id).map Tracked.phase = d.procs id
  ok : ∀ id phase, tracked id = some phase → phase.Ok c up abs allowed id d.shared
  runs : ∀ m : Machine A Op Res α, m.shared = abs d.shared → (∀ id, Shows (tracked id) (m.procs id)) →
    ∃ steps, Runs.Run (Step up env) (Machine.idle start) steps m ∧
      ∀ id p, .spawn id p ∈ steps → .spawn id p ∈ events

variable {events : List (CarryEvent Op Res α)} {d d' : Carrier S Op Res Low LowRes α}
  {tracked : Nat → Option (Tracked Op Res Low LowRes α)} {id : Nat} {event : CarryEvent Op Res α}

theorem Matched.phase (matched : Matched c up abs allowed env start events d tracked)
    {phase : Phase Op Res Low LowRes α} (present : d.procs id = some phase) :
    ∃ known, tracked id = some known ∧ known.phase = phase := by
  have same := matched.phases id
  rw [present] at same
  exact Option.map_eq_some_iff.mp same

theorem Matched.moved {shared : S} (now : Option (Tracked Op Res Low LowRes α))
    (matched : Matched c up abs allowed env start events d tracked) (inv : c.inv shared)
    (others : ∀ other, other ≠ id → c.rely other d.shared shared)
    (mine : ∀ phase ∈ now, phase.Ok c up abs allowed id shared)
    (runs : ∀ m : Machine A Op Res α, m.shared = abs shared →
      (∀ other, Shows (Function.update tracked id now other) (m.procs other)) →
      ∃ steps, Runs.Run (Step up env) (Machine.idle start) steps m ∧
        ∀ other p, .spawn other p ∈ steps → .spawn other p ∈ events ++ [event]) :
    Matched c up abs allowed env start (events ++ [event])
      ⟨shared, Function.update d.procs id (now.map Tracked.phase)⟩ (Function.update tracked id now) := by
  refine ⟨inv, ?_, ?_, runs⟩
  · intro other
    by_cases same : other = id
    · subst same
      simp only [Function.update_self]
    · simp only [Function.update_of_ne same]
      exact matched.phases other
  · intro other phase found
    by_cases same : other = id
    · subst same
      rw [Function.update_self] at found
      exact mine phase found
    · rw [Function.update_of_ne same] at found
      exact (matched.ok other phase found).rely (others other same)

theorem Matched.before {m : Machine A Op Res α} {now : Option (Tracked Op Res Low LowRes α)}
    (proc : Option (Proc Op Res α)) (matched : Matched c up abs allowed env start events d tracked)
    (shown : ∀ other, Shows (Function.update tracked id now other) (m.procs other))
    (stood : Shows (tracked id) proc) :
    ∃ steps, Runs.Run (Step up env) (Machine.idle start) steps ⟨abs d.shared, Function.update m.procs id proc⟩ ∧
      ∀ other p, .spawn other p ∈ steps → .spawn other p ∈ events := by
  refine matched.runs _ rfl ?_
  intro other
  by_cases same : other = id
  · subst same
    simpa only [Function.update_self] using stood
  · have shown := shown other
    rw [Function.update_of_ne same] at shown
    simpa only [Function.update_of_ne same] using shown

theorem spawns_snoc {steps : List (Event Op Res α L)} {step : Event Op Res α L}
    (spawns : ∀ other p, .spawn other p ∈ steps → .spawn other p ∈ events)
    (last : ∀ other p, step = .spawn other p → event = .spawn other p) :
    ∀ other p, .spawn other p ∈ steps ++ [step] → .spawn other p ∈ events ++ [event] := by
  intro other p member
  rcases List.mem_append.mp member with old | new
  · exact List.mem_append_left _ (spawns other p old)
  · rw [last other p (List.mem_singleton.mp new).symm]
    exact List.mem_append_right _ List.mem_cons_self

theorem spawns_weaken {steps : List (Event Op Res α L)}
    (spawns : ∀ other p, .spawn other p ∈ steps → .spawn other p ∈ events) :
    ∀ other p, .spawn other p ∈ steps → .spawn other p ∈ events ++ [event] :=
  fun other p member => List.mem_append_left _ (spawns other p member)

theorem Matched.effect {m : Machine A Op Res α} {now : Option (Tracked Op Res Low LowRes α)} {op : Op}
    {next : Res op → Prog Op Res α} {trace : Trace Op Res} {rest : Prog Low LowRes (Res op)} {answer : Res op}
    (matched : Matched c up abs allowed env start events d tracked)
    (shown : ∀ other, Shows (Function.update tracked id now other) (m.procs other))
    (stood : tracked id = some (.inside op next trace rest none)) (taken : up op (abs d.shared) answer m.shared)
    (stands : m.procs id = some ⟨next answer, trace ++ [⟨op, answer⟩]⟩) :
    ∃ steps, Runs.Run (Step up env) (Machine.idle start) steps m ∧
      ∀ q p, .spawn q p ∈ steps → .spawn q p ∈ events ++ [event] := by
  obtain ⟨steps, run, spawns⟩ := matched.before (some ⟨.call op next, trace⟩) shown (by rw [stood]; exact .before ..)
  have step : Step up env ⟨abs d.shared, Function.update m.procs id (some ⟨.call op next, trace⟩)⟩ (.run id) _ :=
    Step.run (Function.update_self ..) taken
  have reached : (⟨m.shared, Function.update (Function.update m.procs id (some ⟨.call op next, trace⟩)) id
      (some ⟨next answer, trace ++ [⟨op, answer⟩]⟩)⟩ : Machine A Op Res α) = m := by
    rw [Function.update_idem, ← stands, Function.update_eq_self]
  refine ⟨_, reached ▸ run.snoc step, spawns_snoc spawns ?_⟩
  rintro q p ⟨⟩

theorem CarryStep.matched (matched : Matched c up abs allowed env start events d tracked)
    (carried : ∀ id op s, allowed op → c.inv s → (carry op).Carries c up abs id op none s)
    (still : ∀ id s s', c.inv s → c.dies id s s' → abs s' = abs s)
    (step : CarryStep c carry d event d')
    (job : ∀ id p, event = .spawn id p → p.All (fun _ op => allowed op) (fun _ _ => True) []) :
    ∃ tracked', Matched c up abs allowed env start (events ++ [event]) d' tracked' := by
  have same (id : Nat) : ∀ other, other ≠ id → c.rely other d.shared d.shared := fun other _ => c.rely_refl other _
  cases step with
  | @spawn id p free =>
    refine ⟨_, matched.moved (some (.between ⟨p, []⟩)) matched.inv (same id) ?_ ?_⟩
    · rintro _ ⟨⟩
      exact job id p rfl
    · intro m here shown
      have stood : tracked id = none := by
        have none := matched.phases id
        rw [free] at none
        exact Option.map_eq_none_iff.mp none
      obtain ⟨steps, run, spawns⟩ := matched.before none shown (by rw [stood]; exact .none)
      have mine := shown id
      rw [Function.update_self] at mine
      generalize there : m.procs id = proc at mine
      cases mine
      have spawned : Step up env ⟨abs d.shared, Function.update m.procs id none⟩ (.spawn id p) _ :=
        Step.spawn (Function.update_self ..)
      have reached : (⟨abs d.shared, Function.update (Function.update m.procs id none) id (some ⟨p, []⟩)⟩ :
          Machine A Op Res α) = m := by
        rw [Function.update_idem, ← there, Function.update_eq_self, ← here]
      refine ⟨_, reached ▸ run.snoc spawned, spawns_snoc spawns ?_⟩
      rintro q other ⟨⟩
      rfl
  | @enter id op next trace present =>
    obtain ⟨known, stood, phase⟩ := matched.phase present
    have ok := matched.ok id known stood
    cases known with
    | inside => cases phase
    | between proc =>
      cases phase
      refine ⟨_, matched.moved (some (.inside op next trace (carry op) none)) matched.inv (same id) ?_ ?_⟩
      · rintro _ ⟨⟩
        exact ⟨carried id op d.shared ok.1 matched.inv, by rintro _ ⟨⟩, ok.2⟩
      · intro m here shown
        have mine := shown id
        rw [Function.update_self] at mine
        generalize there : m.procs id = proc at mine
        cases mine
        obtain ⟨steps, run, spawns⟩ := matched.before _ shown (by rw [stood]; exact .between _)
        rw [← there, Function.update_eq_self, ← here] at run
        exact ⟨steps, run, spawns_weaken spawns⟩
  | @run id op next trace low rest answer shared present taken =>
    obtain ⟨known, stood, phase⟩ := matched.phase present
    have ok := matched.ok id known stood
    cases known with
    | between => cases phase
    | inside op' next' trace' rest' g =>
      cases phase
      obtain ⟨careful, filled, later⟩ := ok
      obtain ⟨inv, others, g', moved, careful⟩ := careful d.shared (c.rely_refl id _) matched.inv answer shared taken
      refine ⟨_, matched.moved (some (.inside op next trace (rest answer) g')) inv others ?_ ?_⟩
      · rintro _ ⟨⟩
        refine ⟨careful, ?_, later⟩
        rcases moved with ⟨rfl, -⟩ | ⟨-, answers, rfl, some, -⟩
        · exact filled
        · rintro _ ⟨⟩
          exact some
      · intro m here shown
        have mine := shown id
        rw [Function.update_self] at mine
        rcases moved with ⟨rfl, unseen⟩ | ⟨rfl, answers, rfl, -, effect⟩
        · -- the step cannot be seen from above
          obtain ⟨steps, run, spawns⟩ := matched.before (m.procs id) shown (by
            rw [stood]
            generalize m.procs id = proc at mine
            cases mine with
            | before => exact .before ..
            | after _ _ _ _ _ _ open' => exact .after _ _ _ _ _ _ open')
          rw [Function.update_eq_self, ← unseen, ← here] at run
          exact ⟨steps, run, spawns_weaken spawns⟩
        · generalize there : m.procs id = proc at mine
          cases mine with
          | after _ _ _ _ _ chosen open' =>
            refine matched.effect shown stood ?_ there
            rw [here]
            exact effect chosen open'
  | @leave id op next trace answer present =>
    obtain ⟨known, stood, phase⟩ := matched.phase present
    have ok := matched.ok id known stood
    cases known with
    | between => cases phase
    | inside op' next' trace' rest' g =>
      cases phase
      obtain ⟨careful, -, later⟩ := ok
      have ended := careful d.shared (c.rely_refl id _) matched.inv
      refine ⟨_, matched.moved (some (.between ⟨next answer, trace ++ [⟨op, answer⟩]⟩)) matched.inv (same id) ?_ ?_⟩
      · rintro _ ⟨⟩
        exact later answer
      · intro m here shown
        have mine := shown id
        rw [Function.update_self] at mine
        generalize there : m.procs id = proc at mine
        cases mine
        cases g with
        | none =>
          refine matched.effect shown stood ?_ there
          rw [here]
          exact ended
        | some answers =>
          obtain ⟨steps, run, spawns⟩ := matched.before _ shown (by rw [stood]; exact .after _ _ _ _ _ answer ended)
          rw [← there, Function.update_eq_self, ← here] at run
          exact ⟨steps, run, spawns_weaken spawns⟩
  | @kill id shared died =>
    obtain ⟨inv, others⟩ := c.death matched.inv died
    refine ⟨_, matched.moved none inv others (by rintro _ ⟨⟩) ?_⟩
    intro m here shown
    have mine := shown id
    rw [Function.update_self] at mine
    generalize there : m.procs id = proc at mine
    cases mine
    have stood : ∃ proc, Shows (tracked id) proc := by
      cases known : tracked id with
      | none => exact ⟨none, .none⟩
      | some phase =>
        obtain ⟨proc, shown⟩ := (matched.ok id phase known).shows
        exact ⟨some proc, shown⟩
    obtain ⟨proc, stood⟩ := stood
    obtain ⟨steps, run, spawns⟩ := matched.before _ shown stood
    have killed : Step up env ⟨abs d.shared, Function.update m.procs id proc⟩ (.kill id) _ := Step.kill
    have reached : (⟨abs d.shared, Function.update (Function.update m.procs id proc) id none⟩ :
        Machine A Op Res α) = m := by
      rw [Function.update_idem, ← there, Function.update_eq_self, ← still id d.shared shared matched.inv died, ← here]
    refine ⟨_, reached ▸ run.snoc killed, spawns_snoc spawns ?_⟩
    rintro q p ⟨⟩

/-- Calls that each take effect once cannot be told from calls that are made in single steps. -/
theorem CarryRun.matched {init : S} (inv : c.inv init)
    (carried : ∀ id op s, allowed op → c.inv s → (carry op).Carries c up abs id op none s)
    (still : ∀ id s s', c.inv s → c.dies id s s' → abs s' = abs s)
    (run : Runs.Run (CarryStep c carry) (Carrier.idle init) events d)
    (jobs : ∀ id p, .spawn id p ∈ events → p.All (fun _ op => allowed op) (fun _ _ => True) []) :
    c.inv d.shared ∧ ∃ steps m, Runs.Run (Step up env) (Machine.idle (abs init)) steps m ∧ m.shared = abs d.shared ∧
      (∀ id, Appears (d.procs id) (m.procs id)) ∧ ∀ id p, .spawn id p ∈ steps → .spawn id p ∈ events := by
  have all : ∃ tracked, Matched c up abs allowed env (abs init) events d tracked := by
    induction run with
    | refl =>
      refine ⟨fun _ => none, inv, fun _ => rfl, by rintro _ _ ⟨⟩, ?_⟩
      rintro ⟨shared, procs⟩ rfl shown
      have none : procs = fun _ => none := by
        funext id
        have mine : Shows none (procs id) := shown id
        generalize procs id = proc at mine
        cases mine
        rfl
      subst none
      exact ⟨[], .refl, by rintro _ _ ⟨⟩⟩
    | snoc before taken ih =>
      obtain ⟨tracked, matched⟩ := ih fun id p member => jobs id p (List.mem_append_left _ member)
      refine taken.matched matched carried still ?_
      rintro id p rfl
      exact jobs id p (List.mem_append_right _ List.mem_cons_self)
  obtain ⟨tracked, matched⟩ := all
  have shows' : ∀ id, ∃ proc, Shows (tracked id) proc := by
    intro id
    cases known : tracked id with
    | none => exact ⟨none, .none⟩
    | some phase =>
      obtain ⟨proc, shown⟩ := (matched.ok id phase known).shows
      exact ⟨some proc, shown⟩
  choose procs shown using shows'
  obtain ⟨steps, steps', spawns⟩ := matched.runs ⟨abs d.shared, procs⟩ rfl shown
  refine ⟨matched.inv, steps, _, steps', rfl, ?_, spawns⟩
  intro id
  rw [← matched.phases id]
  exact (shown id).appears

end Matching

def playCarry (serve : Nat → (low : Low) → S → LowRes low × S) (die : Nat → S → S)
    (carry : (op : Op) → Prog Low LowRes (Res op)) :
    List (CarryEvent Op Res α) → Carrier S Op Res Low LowRes α → Option (Carrier S Op Res Low LowRes α)
  | [], d => some d
  | .spawn id p :: rest, d =>
    if (d.procs id).isNone then
      playCarry serve die carry rest { d with procs := Function.update d.procs id (some (.between ⟨p, []⟩)) }
    else none
  | .enter id :: rest, d =>
    match d.procs id with
    | some (.between ⟨.call op next, trace⟩) => playCarry serve die carry rest
        { d with procs := Function.update d.procs id (some (.inside op next trace (carry op))) }
    | _ => none
  | .run id :: rest, d =>
    match d.procs id with
    | some (.inside op next trace (.call low more)) => playCarry serve die carry rest
        { shared := (serve id low d.shared).2
          procs := Function.update d.procs id (some (.inside op next trace (more (serve id low d.shared).1))) }
    | _ => none
  | .leave id :: rest, d =>
    match d.procs id with
    | some (.inside op next trace (.ret answer)) => playCarry serve die carry rest
        { d with procs := Function.update d.procs id (some (.between ⟨next answer, trace ++ [⟨op, answer⟩]⟩)) }
    | _ => none
  | .kill id :: rest, d =>
    playCarry serve die carry rest { shared := die id d.shared, procs := Function.update d.procs id none }

theorem playCarry_run {serve : Nat → (low : Low) → S → LowRes low × S} {die : Nat → S → S}
    (served : ∀ id low s, c.effect id low s (serve id low s).1 (serve id low s).2) (died : ∀ id s, c.dies id s (die id s))
    {events : List (CarryEvent Op Res α)} {d d' : Carrier S Op Res Low LowRes α}
    (played : playCarry serve die carry events d = some d') : Runs.Run (CarryStep c carry) d events d' := by
  induction events generalizing d with
  | nil =>
    cases played
    exact .refl
  | cons event rest ih =>
    cases event with
    | spawn id p =>
      simp only [playCarry] at played
      split at played
      next free => exact .cons (.spawn (Option.isNone_iff_eq_none.mp free)) (ih played)
      next => cases played
    | enter id =>
      simp only [playCarry] at played
      split at played
      next present => exact .cons (.enter present) (ih played)
      next => cases played
    | run id =>
      simp only [playCarry] at played
      split at played
      next present => exact .cons (.run present (served id _ d.shared)) (ih played)
      next => cases played
    | leave id =>
      simp only [playCarry] at played
      split at played
      next present => exact .cons (.leave present) (ih played)
      next => cases played
    | kill id => exact .cons (.kill (died id d.shared)) (ih played)

end Programs
