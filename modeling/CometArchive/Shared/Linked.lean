import Mathlib.Logic.Relation
import Mathlib.Tactic.Common

set_option autoImplicit false

namespace Linked

variable {B H : Type} {R : B → B → Prop} {f g : Int → Option B} {low top : Int}

def LinkedBy (R : B → B → Prop) (f : Int → Option B) (low : Int) : Prop :=
  ∀ h lower upper, low ≤ h → f h = some lower → f (h + 1) = some upper → R upper lower

theorem LinkedBy.of_subset (linked : LinkedBy R f low) (subset : ∀ h b, g h = some b → f h = some b) :
    LinkedBy R g low :=
  fun h lower upper above found next => linked h lower upper above (subset h lower found) (subset _ upper next)

theorem LinkedBy.reaches (linked : LinkedBy R f low) {last : B} (found : f top = some last) (steps : Nat) :
    ∀ b, low ≤ top - steps → (∀ h, top - steps ≤ h → h ≤ top → (f h).isSome = true) →
      f (top - steps) = some b → Relation.ReflTransGen R last b := by
  induction steps with
  | zero =>
    intro b _ _ same
    rw [Int.natCast_zero, Int.sub_zero, found] at same
    cases same
    exact .refl
  | succ steps ih =>
    intro b bound present same
    have above : top - (steps + 1 : Nat) + 1 = top - (steps : Nat) := by omega
    obtain ⟨upper, next⟩ := Option.isSome_iff_exists.mp (present (top - steps) (by omega) (by omega))
    have reached := ih upper (by omega) (fun h lower higher => present h (by omega) higher) next
    exact reached.tail (linked _ b upper bound same (above ▸ next))

/-- Two sequences linked by hash that carry the same hash at `top` carry the same hash wherever both
go on down to: the hash of an entry fixes the link it holds. -/
theorem hash_eq_below {hash link : B → H}
    (hf : LinkedBy (fun upper lower => link upper = hash lower) f low)
    (hg : LinkedBy (fun upper lower => link upper = hash lower) g low)
    (fixes : ∀ h a b, f h = some a → g h = some b → hash a = hash b → link a = link b)
    {a b : B} (fTop : f top = some a) (gTop : g top = some b) (same : hash a = hash b) (steps : Nat) :
    ∀ c d, low ≤ top - steps → (∀ h, top - steps ≤ h → h ≤ top → (f h).isSome = true ∧ (g h).isSome = true) →
      f (top - steps) = some c → g (top - steps) = some d → hash c = hash d := by
  induction steps with
  | zero =>
    intro c d _ _ fFound gFound
    rw [Int.natCast_zero, Int.sub_zero] at fFound gFound
    rw [fTop] at fFound
    rw [gTop] at gFound
    cases fFound
    cases gFound
    exact same
  | succ steps ih =>
    intro c d bound present fFound gFound
    have above : top - (steps + 1 : Nat) + 1 = top - (steps : Nat) := by omega
    obtain ⟨fSome, gSome⟩ := present (top - steps) (by omega) (by omega)
    obtain ⟨fUpper, fNext⟩ := Option.isSome_iff_exists.mp fSome
    obtain ⟨gUpper, gNext⟩ := Option.isSome_iff_exists.mp gSome
    have upper := ih fUpper gUpper (by omega) (fun h lower higher => present h (by omega) higher) fNext gNext
    calc hash c = link fUpper := (hf _ c fUpper bound fFound (above ▸ fNext)).symm
      _ = link gUpper := fixes _ fUpper gUpper fNext gNext upper
      _ = hash d := hg _ d gUpper bound gFound (above ▸ gNext)

end Linked
