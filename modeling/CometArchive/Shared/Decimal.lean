import CometArchive.Shared.Text

set_option autoImplicit false

namespace GoText

def numeral (digits : List Char) : Nat := Nat.ofDigitChars 10 digits 0

theorem numeral_cons (c : Char) (rest : List Char) :
    numeral (c :: rest) = 10 ^ rest.length * (c.toNat - 48) + numeral rest := by
  rw [numeral, Nat.ofDigitChars_cons, Nat.ofDigitChars_eq_ofDigitChars_zero]
  simp [numeral]

theorem toNat_of_isDigit {c : Char} (digit : c.isDigit = true) : 48 ≤ c.toNat ∧ c.toNat ≤ 57 := by
  simpa [Char.isDigit, UInt32.le_iff_toNat_le] using digit

theorem numeral_lt {digits : List Char} (all : ∀ c ∈ digits, c.isDigit = true) : numeral digits < 10 ^ digits.length := by
  induction digits with
  | nil => simp [numeral]
  | cons c rest ih =>
    have tail := ih fun d member => all d (List.mem_cons_of_mem _ member)
    have head := toNat_of_isDigit (all c (by simp))
    rw [numeral_cons, List.length_cons, pow_succ]
    have scaled : 10 ^ rest.length * (c.toNat - 48) ≤ 10 ^ rest.length * 9 := Nat.mul_le_mul_left _ (by omega)
    omega

theorem numeral_lt_iff {left right : List Char} (length : left.length = right.length)
    (leftDigits : ∀ c ∈ left, c.isDigit = true) (rightDigits : ∀ c ∈ right, c.isDigit = true) :
    left < right ↔ numeral left < numeral right := by
  induction left generalizing right with
  | nil =>
    rw [List.length_nil] at length
    rw [List.length_eq_zero_iff.mp length.symm]
    simp
  | cons c rest ih =>
    cases right with
    | nil => simp at length
    | cons d others =>
      rw [List.length_cons, List.length_cons, Nat.succ_inj] at length
      have cDigit := toNat_of_isDigit (leftDigits c (by simp))
      have dDigit := toNat_of_isDigit (rightDigits d (by simp))
      have leftTail : ∀ x ∈ rest, x.isDigit = true := fun x member => leftDigits x (List.mem_cons_of_mem _ member)
      have rightTail : ∀ x ∈ others, x.isDigit = true := fun x member => rightDigits x (List.mem_cons_of_mem _ member)
      have leftBound := numeral_lt leftTail
      have rightBound := numeral_lt rightTail
      rw [← length] at rightBound
      rw [List.cons_lt_cons_iff, ih length leftTail rightTail, numeral_cons, numeral_cons, ← length]
      have order : c < d ↔ c.toNat < d.toNat := Iff.rfl
      have same : c = d ↔ c.toNat = d.toNat := Char.toNat_inj.symm
      rw [order, same]
      -- the leading digit decides unless the two are the same
      rcases lt_trichotomy c.toNat d.toNat with less | equal | more
      · have gap : 10 ^ rest.length * (c.toNat - 48) + 10 ^ rest.length ≤ 10 ^ rest.length * (d.toNat - 48) := by
          rw [← Nat.mul_succ]
          exact Nat.mul_le_mul_left _ (by omega)
        omega
      · rw [equal]
        omega
      · have gap : 10 ^ rest.length * (d.toNat - 48) + 10 ^ rest.length ≤ 10 ^ rest.length * (c.toNat - 48) := by
          rw [← Nat.mul_succ]
          exact Nat.mul_le_mul_left _ (by omega)
        omega

variable {value other : Int}

theorem toList_decimal12 (nonneg : 0 ≤ value) :
    (decimal12 value).toList =
      List.replicate (12 - (Nat.toDigits 10 value.natAbs).length) '0' ++ Nat.toDigits 10 value.natAbs := by
  simp [decimal12, if_neg (not_lt.mpr nonneg)]

theorem decimal12_isDigit (nonneg : 0 ≤ value) : ∀ c ∈ (decimal12 value).toList, c.isDigit = true := by
  intro c member
  rw [toList_decimal12 nonneg] at member
  rcases List.mem_append.mp member with zero | digit
  · rw [List.eq_of_mem_replicate zero]
    rfl
  · exact Nat.isDigit_of_mem_toDigits (by decide) (by decide) digit

theorem numeral_decimal12 (nonneg : 0 ≤ value) : numeral (decimal12 value).toList = value.natAbs := by
  rw [toList_decimal12 nonneg, numeral, Nat.ofDigitChars_append, Nat.ofDigitChars_replicate_zero, Nat.mul_zero,
    Nat.ofDigitChars_ten_toDigits]

theorem decimal12_inj (nonneg : 0 ≤ value) (nonneg' : 0 ≤ other) (same : decimal12 value = decimal12 other) :
    value = other := by
  have values := congrArg (fun text => numeral text.toList) same
  simp only [numeral_decimal12 nonneg, numeral_decimal12 nonneg'] at values
  omega

theorem length_decimal12 (nonneg : 0 ≤ value) (small : value < 10 ^ 12) : (decimal12 value).toList.length = 12 := by
  have short := (Nat.length_toDigits_le_iff (b := 10) (n := value.natAbs) (k := 12) (by decide) (by decide)).mpr (by omega)
  rw [toList_decimal12 nonneg, List.length_append, List.length_replicate]
  omega

end GoText
