import Mathlib.Data.List.Basic

set_option autoImplicit false

namespace GoError

inductive Error (σ : Type) where
  | sentinel (value : σ)
  | new (text : String)
  | wrap (text : String) (inner : Error σ)
  | both (outer inner : Error σ)
  deriving DecidableEq, Repr

variable {σ : Type} [DecidableEq σ]

def Error.is : Error σ → σ → Bool
  -- `errors.Is(err, target)` for a sentinel target
  | .sentinel value, target => decide (value = target)
  | .new _, _ => false
  | .wrap _ inner, target => inner.is target
  | .both outer inner, target => outer.is target || inner.is target

@[simp] theorem Error.is_sentinel (value target : σ) :
    (Error.sentinel value).is target = decide (value = target) := rfl

@[simp] theorem Error.is_new (text : String) (target : σ) :
    (Error.new text : Error σ).is target = false := rfl

@[simp] theorem Error.is_wrap (text : String) (inner : Error σ) (target : σ) :
    (Error.wrap text inner).is target = inner.is target := rfl

/-- The `%q` verb on printable text: quotes and backslashes are escaped. -/
def quoted (text : String) : String :=
  String.ofList ('"' :: text.toList.flatMap (fun c =>
    if c = '"' ∨ c = '\\' then ['\\', c] else [c]) ++ ['"'])

-- `if cond { return err }`
def refuse {ε : Type} (cond : Prop) [Decidable cond] (err : ε) : Except ε Unit := if cond then .error err else .ok ()

def wrapping {σ α : Type} (text : String) : Except (Error σ) α → Except (Error σ) α
  -- `if err != nil { return fmt.Errorf("text: %w", err) }`
  | .error err => .error (.wrap text err)
  | .ok value => .ok value

section Results

variable {ε α β : Type} {cond : Prop} [Decidable cond] {err : ε}

@[simp] theorem refuse_eq_ok : refuse cond err = .ok () ↔ ¬ cond := by
  unfold refuse
  split <;> simp_all

@[simp] theorem wrapping_eq_ok {σ α : Type} {text : String} {result : Except (Error σ) α} {value : α} :
    wrapping text result = .ok value ↔ result = .ok value := by
  cases result <;> simp [wrapping]

theorem bind_eq_ok {result : Except ε α} {f : α → Except ε β} {value : β} :
    (result >>= f) = .ok value ↔ ∃ mid, result = .ok mid ∧ f mid = .ok value := by
  cases result with
  | error err => simp [bind, Except.bind]
  | ok mid => simp [bind, Except.bind]

@[simp] theorem then_eq_ok {check : Except ε Unit} {f : Unit → Except ε β} {value : β} :
    (check >>= f) = .ok value ↔ check = .ok () ∧ f () = .ok value := by
  rw [bind_eq_ok]
  exact ⟨fun ⟨_, passed, rest⟩ => ⟨passed, rest⟩, fun ⟨passed, rest⟩ => ⟨(), passed, rest⟩⟩

theorem toOption_eq_some {result : Except ε α} {value : α} : result.toOption = some value ↔ result = .ok value := by
  cases result <;> simp [Except.toOption]

end Results

section Plain

variable {α β : Type} {err : Error σ} {text : String}

def Plain (result : Except (Error σ) α) : Prop := ∀ err target, result = .error err → err.is target = false

theorem Plain.ok (value : α) : Plain (.ok value : Except (Error σ) α) := by
  intro err target same
  cases same

theorem Plain.new (text : String) : Plain (.error (.new text) : Except (Error σ) α) := by
  intro err target same
  cases same
  rfl

theorem Plain.refuse {cond : Prop} [Decidable cond] (plain : ∀ target, err.is target = false) :
    Plain (refuse cond err) := by
  intro other target same
  unfold GoError.refuse at same
  split at same
  · cases same
    exact plain target
  · cases same

theorem Plain.wrapping {result : Except (Error σ) α} (plain : Plain result) : Plain (wrapping text result) := by
  intro other target same
  cases result with
  | error inner =>
    cases same
    exact plain inner target rfl
  | ok value => cases same

theorem Plain.bind {result : Except (Error σ) α} {f : α → Except (Error σ) β} (first : Plain result)
    (rest : ∀ value, Plain (f value)) : Plain (result >>= f) := by
  cases result with
  | error inner =>
    intro other target same
    cases same
    exact first inner target rfl
  | ok value => exact rest value

end Plain

end GoError
