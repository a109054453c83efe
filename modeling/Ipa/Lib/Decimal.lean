import Ipa.Lib.Binary
import Ipa.Lib.JsonText
import Mathlib.Algebra.Order.Field.Basic
import Mathlib.Data.List.Basic
import Mathlib.Tactic.Ring

/-!
# Decimal output

The decimal text of a natural number, and the value of a `float` rounded to four decimals, half to
even, as `%.4f` prints it. The text of a finite `float` is a number of JSON with four decimals, and its
value is at most half of the last decimal away.
-/

namespace Ipa

open JsonText

/-! ## The value of a float -/

namespace Binary32

def exponentBits (x : Binary32) : Nat := x.mag / 2 ^ 23

def IsFinite (x : Binary32) : Prop := x.exponentBits ≠ 0xFF

instance (x : Binary32) : Decidable x.IsFinite := inferInstanceAs (Decidable (_ ≠ _))

/-- The significand with its hidden bit. -/
def significand (x : Binary32) : Nat :=
  if x.exponentBits = 0 then x.mag else x.mag % 2 ^ 23 + 2 ^ 23

/-- The exponent of two, with 149 added. -/
def scale (x : Binary32) : Nat := x.exponentBits - 1

def isMinus (x : Binary32) : Bool := decide (2 ^ 31 ≤ x.bits.toNat)

/-- The value of a finite float. -/
def value (x : Binary32) : ℚ :=
  (if x.isMinus then -1 else 1) * (x.significand * 2 ^ x.scale / 2 ^ 149)

end Binary32

/-! ## Digits -/

def digitByte (d : Nat) : UInt8 := UInt8.ofNat (0x30 + d)

theorem isDigit_digitByte {d : Nat} (h : d < 10) : isDigit (digitByte d) = true := by
  have hall : ∀ d : Fin 10, isDigit (digitByte d) = true := by decide
  exact hall ⟨d, h⟩

theorem toNat_digitByte {d : Nat} (h : d < 10) : (digitByte d).toNat - 0x30 = d := by
  have hall : ∀ d : Fin 10, (digitByte d).toNat - 0x30 = d := by decide
  exact hall ⟨d, h⟩

/-- A natural number in decimal. -/
def decimal (n : Nat) : List UInt8 :=
  if n < 10 then [digitByte n]
  else decimal (n / 10) ++ [digitByte (n % 10)]

/-- The last four digits. -/
def fourDigits (n : Nat) : List UInt8 :=
  [digitByte (n / 1000 % 10), digitByte (n / 100 % 10), digitByte (n / 10 % 10), digitByte (n % 10)]

theorem digitsValue_append (a b : List UInt8) :
    digitsValue (a ++ b) = digitsValue a * 10 ^ b.length + digitsValue b := by
  have hfold : ∀ (b : List UInt8) (n : Nat),
      b.foldl (fun n c => 10 * n + (c.toNat - 0x30)) n = n * 10 ^ b.length + digitsValue b := by
    intro b
    induction b with
    | nil =>
      intro n
      simp [digitsValue]
    | cons c b ih =>
      intro n
      unfold digitsValue
      rw [List.foldl_cons, List.foldl_cons, ih, ih (10 * 0 + _), List.length_cons, pow_succ]
      ring
  unfold digitsValue
  rw [List.foldl_append, hfold]
  rfl

theorem digitsValue_decimal (n : Nat) : digitsValue (decimal n) = n := by
  induction n using decimal.induct with
  | case1 n h =>
    rw [decimal, if_pos h]
    change 10 * 0 + ((digitByte n).toNat - 0x30) = n
    rw [toNat_digitByte h]
    omega
  | case2 n h ih =>
    rw [decimal, if_neg h, digitsValue_append, ih]
    change n / 10 * 10 ^ 1 + (10 * 0 + ((digitByte (n % 10)).toNat - 0x30)) = n
    rw [toNat_digitByte (Nat.mod_lt _ (by decide))]
    omega

theorem decimal_digits (n : Nat) : Digits (decimal n) := by
  induction n using decimal.induct with
  | case1 n h =>
    rw [decimal, if_pos h]
    refine ⟨by simp, fun d hd => ?_⟩
    rw [List.mem_singleton.mp hd]
    exact isDigit_digitByte h
  | case2 n h ih =>
    rw [decimal, if_neg h]
    refine ⟨by simp, fun d hd => ?_⟩
    rcases List.mem_append.mp hd with hd | hd
    · exact ih.2 d hd
    · rw [List.mem_singleton.mp hd]
      exact isDigit_digitByte (Nat.mod_lt _ (by decide))

/-- Only zero starts with a zero. -/
theorem decimal_leading (n : Nat) : (decimal n).head? = some 0x30 → decimal n = [0x30] := by
  have hhead : ∀ n, 0 < n → (decimal n).head? ≠ some 0x30 := by
    intro n
    induction n using decimal.induct with
    | case1 n h =>
      intro hpos heq
      rw [decimal, if_pos h] at heq
      have hall : ∀ d : Fin 10, 0 < d.val → digitByte d ≠ 0x30 := by decide
      exact hall ⟨n, h⟩ hpos (Option.some.inj heq)
    | case2 n h ih =>
      intro _
      rw [decimal, if_neg h, List.head?_append_of_ne_nil _ (decimal_digits _).1]
      exact ih (by omega)
  intro h
  rcases Nat.eq_zero_or_pos n with rfl | hpos
  · rw [decimal, if_pos (by decide)]
    rfl
  · exact absurd h (hhead n hpos)

theorem fourDigits_digits (n : Nat) : ∀ d ∈ fourDigits n, isDigit d = true := by
  intro d hd
  have hlt : ∀ k, k % 10 < 10 := fun k => Nat.mod_lt k (by decide)
  simp only [fourDigits, List.mem_cons, List.not_mem_nil, or_false] at hd
  rcases hd with rfl | rfl | rfl | rfl <;> exact isDigit_digitByte (hlt _)

theorem digitsValue_fourDigits {n : Nat} (h : n < 10000) : digitsValue (fourDigits n) = n := by
  have hdigit : ∀ k, (digitByte (k % 10)).toNat - 0x30 = k % 10 :=
    fun k => toNat_digitByte (Nat.mod_lt k (by decide))
  unfold digitsValue fourDigits
  simp only [List.foldl_cons, List.foldl_nil, hdigit]
  omega

/-! ## Four decimals -/

/-- `num / den`, rounded half to even. -/
def roundEven (num den : Nat) : Nat :=
  if 2 * (num % den) < den then num / den
  else if den < 2 * (num % den) then num / den + 1
  else if num / den % 2 = 0 then num / den else num / den + 1

/-- The rounded quotient is half away at most. -/
theorem roundEven_near {num den : Nat} (hden : 0 < den) :
    2 * (roundEven num den * den) ≤ 2 * num + den ∧ 2 * num ≤ 2 * (roundEven num den * den) + den := by
  have hdiv := Nat.div_add_mod num den
  have hmod := Nat.mod_lt num hden
  have hcomm : den * (num / den) = num / den * den := Nat.mul_comm _ _
  have hstep : (num / den + 1) * den = num / den * den + den := Nat.succ_mul _ _
  unfold roundEven
  split
  · omega
  split
  · omega
  split <;> omega

/-- Ten thousand times the magnitude of a float, rounded. -/
def tenThousandths (x : Binary32) : Nat :=
  roundEven (x.significand * 2 ^ x.scale * 10000) (2 ^ 149)

/-- The number that is printed. -/
def fixed4Numeral (x : Binary32) : Numeral where
  minus := x.isMinus
  whole := decimal (tenThousandths x / 10000)
  frac := fourDigits (tenThousandths x % 10000)
  exponent := none
  whole_ok := decimal_digits _
  leading := decimal_leading _
  frac_ok := fourDigits_digits _

/-- What `printf("%.4f", (double)x)` prints in the C locale, for a finite `x`. -/
def fixed4 (x : Binary32) : List UInt8 := (fixed4Numeral x).text

theorem fixed4Numeral_value (x : Binary32) :
    (fixed4Numeral x).value = (if x.isMinus then -1 else 1) * (tenThousandths x / 10000 : ℚ) := by
  have hdigits : digitsValue (decimal (tenThousandths x / 10000) ++
      fourDigits (tenThousandths x % 10000)) = tenThousandths x := by
    rw [digitsValue_append, digitsValue_decimal,
      digitsValue_fourDigits (Nat.mod_lt _ (by decide))]
    change _ * 10 ^ 4 + _ = _
    omega
  unfold Numeral.value fixed4Numeral
  dsimp only
  rw [hdigits]
  change _ * _ * (10 : ℚ) ^ ((0 : Int) - 4) = _
  have hpow : (10 : ℚ) ^ ((0 : Int) - 4) = 1 / 10000 := by norm_num
  rw [hpow]
  ring

/-- The magnitude is printed with an error of half of the last decimal. -/
theorem tenThousandths_near (x : Binary32) :
    |(tenThousandths x / 10000 : ℚ) - x.significand * 2 ^ x.scale / 2 ^ 149| ≤ 1 / 20000 := by
  have hden : 0 < (2 : Nat) ^ 149 := by positivity
  obtain ⟨hlow, hhigh⟩ := @roundEven_near (x.significand * 2 ^ x.scale * 10000) _ hden
  have hlow' : (2 : ℚ) * (tenThousandths x * 2 ^ 149) ≤
      2 * (x.significand * 2 ^ x.scale * 10000) + 2 ^ 149 := by exact_mod_cast hlow
  have hhigh' : (2 : ℚ) * (x.significand * 2 ^ x.scale * 10000) ≤
      2 * (tenThousandths x * 2 ^ 149) + 2 ^ 149 := by exact_mod_cast hhigh
  have hpow : (0 : ℚ) < 2 ^ 149 := by positivity
  generalize (2 : ℚ) ^ 149 = d at hlow' hhigh' hpow ⊢
  generalize (x.significand : ℚ) * 2 ^ x.scale = a at hlow' hhigh' ⊢
  generalize (tenThousandths x : ℚ) = k at hlow' hhigh' ⊢
  have hdiff : k / 10000 - a / d = (k * d - a * 10000) / (10000 * d) := by
    rw [div_sub_div _ _ (by norm_num) hpow.ne', mul_comm a]
  rw [hdiff, abs_div, abs_of_pos (by positivity : (0 : ℚ) < 10000 * d), div_le_iff₀ (by positivity),
    abs_le]
  constructor <;> linarith

/-- What is printed is half of the last decimal away at most. -/
theorem fixed4_near (x : Binary32) : |(fixed4Numeral x).value - x.value| ≤ 1 / 20000 := by
  rw [fixed4Numeral_value, Binary32.value, ← mul_sub, abs_mul]
  have hsign : |(if x.isMinus then -1 else 1 : ℚ)| = 1 := by
    split <;> simp
  rw [hsign, one_mul]
  exact tenThousandths_near x

end Ipa
