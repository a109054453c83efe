import Ipa.Lib.Binary
import Ipa.Lib.Strtod

/-!
# IEEE 754 arithmetic

The arithmetic of a target with binary64 operations rounded to nearest, ties to even, and no
contraction: an instance of `Arith` that evaluates. A double out of the range of `int` is
clamped, and of the texts that `strtod` reads it takes the decimal ones.
-/

namespace Ipa

open Float.Model

namespace Ieee

def unpack32 (x : Binary32) : UnpackedFloat := UnpackedFloat.unpack .binary32 x.bits.toBitVec

def unpack64 (x : Binary64) : UnpackedFloat := UnpackedFloat.unpack .binary64 x.bits.toBitVec

def pack32 (x : UnpackedFloat) : Binary32 := ⟨UInt32.ofBitVec (UnpackedFloat.pack .binary32 x)⟩

def pack64 (x : UnpackedFloat) : Binary64 := ⟨UInt64.ofBitVec (UnpackedFloat.pack .binary64 x)⟩

/-- A number in another format. -/
def convert (spec : Format) : UnpackedFloat → UnpackedFloat
  | .finite sign mantissa exponent _ => UnpackedFloat.round spec sign mantissa exponent
  | x => x

/-! ## Decimal texts -/

/-- The value of some digits. -/
def digitsValue (digits : List UInt8) : Nat :=
  digits.foldl (fun n c => 10 * n + (c.toNat - 0x30)) 0

/-- `+`, `-` or nothing, and the rest. -/
def splitSign : List UInt8 → Bool × List UInt8
  | 0x2B :: rest => (false, rest)
  | 0x2D :: rest => (true, rest)
  | s => (false, s)

/-- The digits behind a point, and the rest. -/
def fraction : List UInt8 → List UInt8 × List UInt8
  | 0x2E :: rest => (rest.takeWhile isDigit, rest.dropWhile isDigit)
  | s => ([], s)

/-- The exponent behind an `e`. -/
def exponent : List UInt8 → Int
  | c :: rest =>
    if lower c = 0x65 then
      let (neg, digits) := splitSign rest
      let n := digitsValue (digits.takeWhile isDigit)
      if neg then -n else n
    else 0
  | [] => 0

/-- The number that a decimal text denotes, rounded to a double. -/
def ofDecimal (text : List UInt8) : UnpackedFloat :=
  let (neg, rest) := splitSign (text.dropWhile isspace)
  let whole := rest.takeWhile isDigit
  let (frac, rest) := fraction (rest.dropWhile isDigit)
  let x := UnpackedFloat.ofScientific .binary64 (digitsValue (whole ++ frac))
    (exponent rest - frac.length)
  if neg then x.neg else x

end Ieee

/-- Binary64 arithmetic. -/
@[reducible] def ieee : Arith where
  widen x := Ieee.pack64 (Ieee.convert .binary64 (Ieee.unpack32 x))
  narrow x := Ieee.pack32 (Ieee.convert .binary32 (Ieee.unpack64 x))
  add x y := Ieee.pack64 (UnpackedFloat.add .binary64 (Ieee.unpack64 x) (Ieee.unpack64 y))
  sub x y := Ieee.pack64 (UnpackedFloat.sub .binary64 (Ieee.unpack64 x) (Ieee.unpack64 y))
  mul x y := Ieee.pack64 (UnpackedFloat.mul .binary64 (Ieee.unpack64 x) (Ieee.unpack64 y))
  div x y := Ieee.pack64 (UnpackedFloat.div .binary64 (Ieee.unpack64 x) (Ieee.unpack64 y))
  sqrt x := Ieee.pack64 (UnpackedFloat.sqrt .binary64 (Ieee.unpack64 x))
  toInt x := (Ieee.unpack64 x).toInt32
  ofText text := Ieee.pack64 (Ieee.ofDecimal text)

/-! ## Rounding to `float` -/

namespace Ieee

theorem toNat_packComponents (s : UnpackedFloat.Sign) (e : BitVec 8) (m : BitVec 23) :
    (UnpackedFloat.packComponents .binary32 s e m).toNat =
      s.toBitVec.toNat * 2 ^ 31 + e.toNat * 2 ^ 23 + m.toNat := by
  change ((s.toBitVec ++ e) ++ m).toNat = _
  rw [BitVec.toNat_append, ← Nat.shiftLeft_add_eq_or_of_lt m.isLt, BitVec.toNat_append,
    ← Nat.shiftLeft_add_eq_or_of_lt e.isLt, Nat.shiftLeft_eq, Nat.shiftLeft_eq]
  omega

/-- Only a NaN is packed as a NaN. -/
theorem pack32_isNaN {x : UnpackedFloat} (h : x ≠ .notANumber) : (pack32 x).isNaN = false := by
  have hmag : ∀ s e m, (e : BitVec 8).toNat < 255 ∨ (m : BitVec 23).toNat = 0 →
      (⟨UInt32.ofBitVec (UnpackedFloat.packComponents .binary32 s e m)⟩ : Binary32).isNaN =
        false := by
    intro s e m hnumber
    have hm := m.isLt
    have he := e.isLt
    have hbits : (UInt32.ofBitVec (UnpackedFloat.packComponents .binary32 s e m)).toNat = _ :=
      toNat_packComponents s e m
    simp only [Binary32.isNaN, Binary32.mag, hbits, decide_eq_false_iff_not]
    omega
  cases x with
  | notANumber => exact absurd rfl h
  | infinity s => exact hmag s (-1#_) 0 (.inr rfl)
  | zero s => exact hmag s 0 0 (.inr rfl)
  | finite s m e hpos =>
    unfold pack32 UnpackedFloat.pack
    simp only
    split
    · exact hmag s (-1#_) 0 (.inr rfl)
    rename_i hlow
    split
    · refine hmag s _ _ (.inl ?_)
      change ¬ 256 ≤ _ at hlow
      rw [BitVec.toNat_ofNat]
      exact (Nat.mod_le _ _).trans_lt (by omega)
    · exact hmag s 0 _ (.inl (by decide))

theorem convert_ne {spec : Format} {x : UnpackedFloat} (h : x ≠ .notANumber) :
    convert spec x ≠ .notANumber := by
  cases x with
  | notANumber => exact absurd rfl h
  | infinity s => exact fun h => by cases h
  | zero s => exact fun h => by cases h
  | finite s m e hpos =>
    intro heq
    unfold convert UnpackedFloat.round UnpackedFloat.roundWithAccuracy at heq
    rcases dite_eq_iff.mp heq with ⟨_, heq⟩ | ⟨_, heq⟩ <;> cases heq

theorem unpack64_ne {x : Binary64} (h : x.isNaN = false) : unpack64 x ≠ .notANumber := by
  have hmag := of_decide_eq_false h
  unfold Binary64.mag at hmag
  intro hnan
  unfold unpack64 UnpackedFloat.unpack at hnan
  rcases ite_eq_iff.mp hnan with ⟨hexp, hnan⟩ | ⟨-, hnan⟩
  · rcases ite_eq_iff.mp hnan with ⟨-, hnan⟩ | ⟨hmant, -⟩
    · cases hnan
    -- an exponent of ones and a mantissa that is not zero
    have hexp : x.bits.toNat >>> 52 % 2048 = 2047 := by
      simpa [UnpackedFloat.unpackExponent, BitVec.extractLsb] using congrArg BitVec.toNat hexp
    have hmant : x.bits.toNat % 4503599627370496 ≠ 0 := by
      intro hzero
      refine hmant (BitVec.eq_of_toNat_eq ?_)
      simpa [UnpackedFloat.unpackMantissa, BitVec.extractLsb] using hzero
    rw [Nat.shiftRight_eq_div_pow] at hexp
    omega
  · rcases ite_eq_iff.mp hnan with ⟨-, hnan⟩ | ⟨-, hnan⟩
    · rcases dite_eq_iff.mp hnan with ⟨_, hnan⟩ | ⟨_, hnan⟩ <;> cases hnan
    · cases hnan

end Ieee

theorem ieee_roundsNumbers : @RoundsNumbers ieee :=
  fun _ h => Ieee.pack32_isNaN (Ieee.convert_ne (Ieee.unpack64_ne h))

theorem ieee_zerosRoundAlike : @ZerosRoundAlike ieee := by
  intro t
  have hneg : @Arith.narrow ieee .negZero = ⟨0x80000000⟩ := by decide +kernel
  have hpos : @Arith.narrow ieee .zero = ⟨0⟩ := by decide +kernel
  rw [hneg, hpos]
  rfl

end Ipa
