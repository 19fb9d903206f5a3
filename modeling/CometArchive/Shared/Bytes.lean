import Mathlib.Data.List.Basic
import Mathlib.Data.Nat.Digits.Defs
import Mathlib.Tactic

set_option autoImplicit false

namespace GoBytes

abbrev Bytes := List UInt8

def wrap64 (value : Int) : Int := Int.bmod value (2 ^ 64)

theorem wrap64_of_bounds (value : Int) (low : -2 ^ 63 ≤ value) (high : value < 2 ^ 63) :
    wrap64 value = value := by
  unfold wrap64
  rw [Int.bmod_eq_of_le] <;> omega

def maxInt64 : Int := 2 ^ 63 - 1

-- `value + 1` on an int64: the smallest one comes after the largest
def succ64 (value : Int) : Int := if value = maxInt64 then -2 ^ 63 else value + 1

theorem succ64_eq_wrap64 {value : Int} (low : -2 ^ 63 ≤ value) (high : value ≤ maxInt64) :
    succ64 value = wrap64 (value + 1) := by
  unfold maxInt64 at high
  unfold succ64 maxInt64
  split
  next last =>
    subst last
    decide
  next => exact (wrap64_of_bounds (value + 1) (by omega) (by omega)).symm

theorem succ64_of_lt {value : Int} (small : value < maxInt64) : succ64 value = value + 1 := if_neg small.ne

theorem succ64_of_pos {value : Int} (positive : 0 < succ64 value) : succ64 value = value + 1 := by
  unfold succ64 at positive ⊢
  split at positive
  · exact absurd positive (by decide)
  next differ => exact if_neg differ

theorem succ64_ne (value : Int) : succ64 value ≠ value := by
  unfold succ64 maxInt64
  split <;> omega

theorem succ64_low {value : Int} (positive : 0 < value) : -2 ^ 63 ≤ succ64 value := by
  unfold succ64
  split
  · exact le_refl _
  · omega

def bigEndian : Nat → Nat → Bytes
  | 0, _ => []
  | width + 1, value => UInt8.ofNat (value / 256 ^ width) :: bigEndian width value

def fromBigEndian : Bytes → Nat
  | [] => 0
  | byte :: rest => byte.toNat * 256 ^ rest.length + fromBigEndian rest

@[simp] theorem bigEndian_length (width value : Nat) : (bigEndian width value).length = width := by
  induction width with
  | zero => rfl
  | succ width ih => simp [bigEndian, ih]

theorem fromBigEndian_bigEndian (width value : Nat) :
    fromBigEndian (bigEndian width value) = value % 256 ^ width := by
  induction width with
  | zero => simp [bigEndian, fromBigEndian, Nat.mod_one]
  | succ width ih =>
    have byte : (UInt8.ofNat (value / 256 ^ width)).toNat = value / 256 ^ width % 256 := by simp
    rw [bigEndian, fromBigEndian, bigEndian_length, ih, byte, Nat.pow_succ, Nat.mod_mul,
      Nat.add_comm, Nat.mul_comm]

theorem fromBigEndian_lt (bytes : Bytes) : fromBigEndian bytes < 256 ^ bytes.length := by
  induction bytes with
  | nil => simp [fromBigEndian]
  | cons byte rest ih =>
    have bound := byte.toNat_lt
    simp only [fromBigEndian, List.length_cons, Nat.pow_succ]
    nlinarith [Nat.one_le_pow rest.length 256 (by norm_num)]

theorem bigEndian_add (width high value : Nat) :
    bigEndian width (high * 256 ^ width + value) = bigEndian width value := by
  induction width generalizing high with
  | zero => rfl
  | succ width ih =>
    have shift : high * 256 ^ (width + 1) + value = high * 256 * 256 ^ width + value := by ring
    have positive : 0 < 256 ^ width := Nat.pow_pos (by norm_num)
    have top : (high * 256 * 256 ^ width + value) / 256 ^ width = high * 256 + value / 256 ^ width := by
      rw [Nat.mul_comm (high * 256), Nat.mul_add_div positive]
    rw [bigEndian, bigEndian, shift, ih (high * 256), top]
    congr 1
    apply UInt8.toNat_inj.mp
    simp

theorem bigEndian_fromBigEndian (bytes : Bytes) : bigEndian bytes.length (fromBigEndian bytes) = bytes := by
  induction bytes with
  | nil => rfl
  | cons byte rest ih =>
    have bound := fromBigEndian_lt rest
    have positive : 0 < 256 ^ rest.length := Nat.pow_pos (by norm_num)
    have top : (byte.toNat * 256 ^ rest.length + fromBigEndian rest) / 256 ^ rest.length = byte.toNat := by
      rw [Nat.mul_comm byte.toNat, Nat.mul_add_div positive, Nat.div_eq_of_lt bound, Nat.add_zero]
    rw [List.length_cons, bigEndian, fromBigEndian, top, bigEndian_add, ih, UInt8.ofNat_toNat]

-- `binary.Write(BigEndian, int64)`: eight bytes of two's complement
def int64Bytes (value : Int) : Bytes := bigEndian 8 (value % 2 ^ 64).toNat

def int64Of (bytes : Bytes) : Int := wrap64 (fromBigEndian bytes)

theorem int64Of_int64Bytes (value : Int) (low : -2 ^ 63 ≤ value) (high : value < 2 ^ 63) :
    int64Of (int64Bytes value) = value := by
  have nonneg : (0 : Int) ≤ value % 2 ^ 64 := Int.emod_nonneg _ (by norm_num)
  have small : value % 2 ^ 64 < 2 ^ 64 := Int.emod_lt_of_pos _ (by norm_num)
  have same : fromBigEndian (int64Bytes value) = (value % 2 ^ 64).toNat := by
    rw [int64Bytes, fromBigEndian_bigEndian, Nat.mod_eq_of_lt]
    omega
  rw [int64Of, same, Int.toNat_of_nonneg nonneg]
  have step : wrap64 (value % 2 ^ 64) = wrap64 value := by
    unfold wrap64
    exact Int.emod_bmod value (2 ^ 64)
  rw [step, wrap64_of_bounds value low high]

theorem int64Of_bounds (bytes : Bytes) : -2 ^ 63 ≤ int64Of bytes ∧ int64Of bytes < 2 ^ 63 := by
  unfold int64Of wrap64
  rw [Int.bmod_def]
  split <;> omega

theorem int64Bytes_int64Of {bytes : Bytes} (length : bytes.length = 8) : int64Bytes (int64Of bytes) = bytes := by
  have bound := fromBigEndian_lt bytes
  rw [length] at bound
  have same : (int64Of bytes % 2 ^ 64).toNat = fromBigEndian bytes := by
    unfold int64Of wrap64
    rw [Int.bmod_def]
    split <;> omega
  have back := bigEndian_fromBigEndian bytes
  rwa [length, ← same] at back

def hexDigit (n : Nat) : UInt8 :=
  if n < 10 then UInt8.ofNat (48 + n) else UInt8.ofNat (87 + n)

def hexEncode (bytes : Bytes) : Bytes :=
  bytes.flatMap fun byte => [hexDigit (byte.toNat / 16), hexDigit (byte.toNat % 16)]

def isHexDigit (byte : UInt8) : Bool :=
  (48 ≤ byte && byte ≤ 57) || (97 ≤ byte && byte ≤ 102) || (65 ≤ byte && byte ≤ 70)

-- `hex.DecodeString` succeeds
def isHex (bytes : Bytes) : Bool := bytes.length % 2 == 0 && bytes.all isHexDigit

/-- The `%#U` verb on a byte: the code point, and the character itself where it is printable. -/
def runeText (byte : UInt8) : String :=
  let digit (n : Nat) : Char := (Nat.digitChar n).toUpper
  let n := byte.toNat
  let code := String.ofList ['U', '+', '0', '0', digit (n / 16), digit (n % 16)]
  let printable := (0x20 ≤ n && n ≤ 0x7E) || (0xA1 ≤ n && n != 0xAD)
  if printable then code ++ String.ofList [' ', '\'', Char.ofNat n, '\''] else code

def hexDecodeError (bytes : Bytes) : String :=
  match bytes.find? (fun byte => !isHexDigit byte) with
  | some byte => "encoding/hex: invalid byte: " ++ runeText byte
  | none => "encoding/hex: odd length hex string"

@[simp] theorem hexEncode_length (bytes : Bytes) : (hexEncode bytes).length = 2 * bytes.length := by
  induction bytes with
  | nil => rfl
  | cons byte rest ih =>
    have step : hexEncode (byte :: rest) =
        hexDigit (byte.toNat / 16) :: hexDigit (byte.toNat % 16) :: hexEncode rest := rfl
    rw [step, List.length_cons, List.length_cons, ih, List.length_cons]
    omega

theorem isHexDigit_hexDigit : ∀ n < 16, isHexDigit (hexDigit n) = true := by decide

theorem isHex_hexEncode (bytes : Bytes) : isHex (hexEncode bytes) = true := by
  have digits : (hexEncode bytes).all isHexDigit = true := by
    rw [List.all_eq_true]
    intro digit member
    obtain ⟨byte, -, member⟩ := List.mem_flatMap.mp member
    have bound := byte.toNat_lt
    have high : byte.toNat / 16 < 16 := by omega
    have low : byte.toNat % 16 < 16 := by omega
    rcases List.mem_cons.mp member with rfl | member
    · exact isHexDigit_hexDigit _ high
    · rw [List.mem_singleton.mp member]
      exact isHexDigit_hexDigit _ low
  simp [isHex, digits]

theorem hexDigit_injective :
    ∀ a < 16, ∀ b < 16, hexDigit a = hexDigit b → a = b := by decide

theorem hexEncode_injective : Function.Injective hexEncode := by
  intro left
  induction left with
  | nil =>
    intro right same
    have len := congrArg List.length same
    simp only [hexEncode_length, List.length_nil] at len
    exact (List.length_eq_zero_iff.mp (by omega)).symm
  | cons byte rest ih =>
    intro right same
    cases right with
    | nil =>
      have len := congrArg List.length same
      simp at len
    | cons other more =>
      have step (b : UInt8) (bs : Bytes) : hexEncode (b :: bs) =
          hexDigit (b.toNat / 16) :: hexDigit (b.toNat % 16) :: hexEncode bs := rfl
      rw [step, step] at same
      obtain ⟨high, same⟩ := List.cons.inj same
      obtain ⟨low, same⟩ := List.cons.inj same
      have bound := byte.toNat_lt
      have otherBound := other.toNat_lt
      have sameHigh := hexDigit_injective _ (by omega) _ (by omega) high
      have sameLow := hexDigit_injective _ (by omega) _ (by omega) low
      have sameByte : byte = other := UInt8.toNat_inj.mp (by omega)
      rw [sameByte, ih same]

def asciiText (bytes : Bytes) : String := String.ofList (bytes.map fun byte => Char.ofNat byte.toNat)

def ofText (text : String) : Bytes := text.toUTF8.toList

def lowerByte (byte : UInt8) : UInt8 := if 65 ≤ byte ∧ byte ≤ 90 then byte + 32 else byte

-- `strings.EqualFold` on ASCII text
def equalFold (left right : Bytes) : Bool := left.map lowerByte == right.map lowerByte

theorem map_lowerByte_hexEncode (bytes : Bytes) : (hexEncode bytes).map lowerByte = hexEncode bytes := by
  have digit : ∀ n, n < 16 → lowerByte (hexDigit n) = hexDigit n := by decide
  induction bytes with
  | nil => rfl
  | cons byte rest ih =>
    have step : hexEncode (byte :: rest) =
        hexDigit (byte.toNat / 16) :: hexDigit (byte.toNat % 16) :: hexEncode rest := rfl
    have small := byte.toNat_lt
    rw [step, List.map_cons, List.map_cons, ih, digit _ (by omega), digit _ (by omega)]

theorem equalFold_hexEncode {left right : Bytes} : equalFold (hexEncode left) (hexEncode right) = true ↔ left = right := by
  rw [equalFold, map_lowerByte_hexEncode, map_lowerByte_hexEncode, beq_iff_eq]
  exact hexEncode_injective.eq_iff

end GoBytes
