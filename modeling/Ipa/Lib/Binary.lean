import Mathlib.Tactic.Linarith

/-!
# IEEE 754 bit patterns

`float` and `double` are their bit patterns. The comparisons are those of the standard: a NaN
compares with nothing, and the other patterns are ordered by sign and magnitude, the two zeros
being equal. The arithmetic is a parameter: `Arith` gives its operations and no law, so what is
proved over it holds for every rounding, contraction and extended precision of a target.
-/

namespace Ipa

structure Binary32 where
  bits : UInt32
deriving DecidableEq, Repr, Inhabited

structure Binary64 where
  bits : UInt64
deriving DecidableEq, Repr, Inhabited

namespace Binary32

def mag (x : Binary32) : Nat := x.bits.toNat % 2 ^ 31

/-- The magnitude with its sign. -/
def key (x : Binary32) : Int := if x.bits.toNat < 2 ^ 31 then x.mag else -x.mag

/-- The magnitude is above that of infinity. -/
def isNaN (x : Binary32) : Bool := decide (0x7F800000 < x.mag)

def lt (x y : Binary32) : Bool := !x.isNaN && !y.isNaN && decide (x.key < y.key)

def le (x y : Binary32) : Bool := !x.isNaN && !y.isNaN && decide (x.key ≤ y.key)

theorem lt_irrefl (x : Binary32) : x.lt x = false := by
  simp [lt]

theorem le_of_lt {x y : Binary32} (h : x.lt y = true) : x.le y = true := by
  simp only [lt, le, Bool.and_eq_true, decide_eq_true_eq] at *
  exact ⟨h.1, Int.le_of_lt h.2⟩

theorem lt_of_lt_of_le {x y z : Binary32} (hxy : x.lt y = true) (hyz : y.le z = true) :
    x.lt z = true := by
  simp only [lt, le, Bool.and_eq_true, decide_eq_true_eq] at *
  exact ⟨⟨hxy.1.1, hyz.1.2⟩, Int.lt_of_lt_of_le hxy.2 hyz.2⟩

theorem not_lt {x y : Binary32} (hx : x.isNaN = false) (hy : y.isNaN = false) :
    x.lt y = false ↔ y.le x = true := by
  simp [lt, le, hx, hy]

end Binary32

namespace Binary64

def mag (x : Binary64) : Nat := x.bits.toNat % 2 ^ 63

/-- The magnitude with its sign. -/
def key (x : Binary64) : Int := if x.bits.toNat < 2 ^ 63 then x.mag else -x.mag

/-- The magnitude is above that of infinity. -/
def isNaN (x : Binary64) : Bool := decide (0x7FF0000000000000 < x.mag)

def lt (x y : Binary64) : Bool := !x.isNaN && !y.isNaN && decide (x.key < y.key)

def le (x y : Binary64) : Bool := !x.isNaN && !y.isNaN && decide (x.key ≤ y.key)

def zero : Binary64 := ⟨0⟩

def negZero : Binary64 := ⟨0x8000000000000000⟩

theorem lt_asymm {x y : Binary64} (h : x.lt y = true) : y.lt x = false := by
  simp only [lt, Bool.and_eq_true, decide_eq_true_eq] at h
  simp only [lt, Bool.and_eq_false_iff, decide_eq_false_iff_not]
  omega

theorem lt_trans {x y z : Binary64} (hxy : x.lt y = true) (hyz : y.lt z = true) :
    x.lt z = true := by
  simp only [lt, Bool.and_eq_true, decide_eq_true_eq] at *
  exact ⟨⟨hxy.1.1, hyz.1.2⟩, by omega⟩

theorem lt_irrefl (x : Binary64) : x.lt x = false := by
  simp [lt]

theorem not_lt {x y : Binary64} (hx : x.isNaN = false) (hy : y.isNaN = false) :
    x.lt y = false ↔ y.le x = true := by
  simp [lt, le, hx, hy]

theorem le_trans {x y z : Binary64} (hxy : x.le y = true) (hyz : y.le z = true) :
    x.le z = true := by
  simp only [le, Bool.and_eq_true, decide_eq_true_eq] at *
  exact ⟨⟨hxy.1.1, hyz.1.2⟩, by omega⟩

theorem le_of_lt {x y : Binary64} (h : x.lt y = true) : x.le y = true := by
  simp only [lt, le, Bool.and_eq_true, decide_eq_true_eq] at *
  exact ⟨h.1, by omega⟩

/-- What compares is a number. -/
theorem numbers_of_le {x y : Binary64} (h : x.le y = true) : x.isNaN = false ∧ y.isNaN = false := by
  simp only [le, Bool.and_eq_true, Bool.not_eq_true'] at h
  exact h.1

def inf : Binary64 := ⟨0x7FF0000000000000⟩

def negInf : Binary64 := ⟨0xFFF0000000000000⟩

/-- A number lies between the infinities. -/
theorem between_infs {x : Binary64} (h : x.isNaN = false) : negInf.le x = true ∧ x.le inf = true := by
  have hmag : x.mag ≤ 0x7FF0000000000000 := by simpa [isNaN] using h
  have hkey : x.key ≤ x.mag ∧ -(x.mag : Int) ≤ x.key := by
    unfold key
    split <;> omega
  have hinf : inf.key = 0x7FF0000000000000 := by decide
  have hneg : negInf.key = -0x7FF0000000000000 := by decide
  have hnumbers : inf.isNaN = false ∧ negInf.isNaN = false := by decide
  simp only [le, h, hnumbers, Bool.not_false, Bool.and_true, Bool.true_and, decide_eq_true_eq]
  omega

/-- Doubles that compare equal are one, or the two zeros. -/
theorem eq_or_zeros {x y : Binary64} (hxy : x.le y = true) (hyx : y.le x = true) :
    x = y ∨ (x = zero ∧ y = negZero) ∨ (x = negZero ∧ y = zero) := by
  have hext : ∀ {a b : Binary64}, a.bits.toNat = b.bits.toNat → a = b := by
    rintro ⟨a⟩ ⟨b⟩ h
    exact congrArg mk (UInt64.toNat_inj.mp h)
  have hzero : zero.bits.toNat = 0 := rfl
  have hneg : negZero.bits.toNat = 2 ^ 63 := rfl
  have hx := x.bits.toNat_lt
  have hy := y.bits.toNat_lt
  simp only [le, Bool.and_eq_true, decide_eq_true_eq] at hxy hyx
  have hkey := Int.le_antisymm hxy.2 hyx.2
  simp only [key, mag] at hkey
  by_cases hsame : x.bits.toNat = y.bits.toNat
  · exact .inl (hext hsame)
  -- of two patterns with one magnitude and two signs only the zeros compare equal
  by_cases hpos : x.bits.toNat < 2 ^ 63
  · rw [if_pos hpos] at hkey
    split at hkey
    · omega
    · exact .inr (.inl ⟨hext (by omega), hext (by omega)⟩)
  · rw [if_neg hpos] at hkey
    split at hkey
    · exact .inr (.inr ⟨hext (by omega), hext (by omega)⟩)
    · omega

end Binary64

/-- The arithmetic of the target: conversions, the operations on `double`, and the value that
`strtod` gives the text it consumes. -/
class Arith where
  widen : Binary32 → Binary64
  narrow : Binary64 → Binary32
  add : Binary64 → Binary64 → Binary64
  sub : Binary64 → Binary64 → Binary64
  mul : Binary64 → Binary64 → Binary64
  div : Binary64 → Binary64 → Binary64
  sqrt : Binary64 → Binary64
  toInt : Binary64 → Int32
  ofText : List UInt8 → Binary64

/-- Rounding to `float` does not tell the two zeros apart. -/
def ZerosRoundAlike [Arith] : Prop :=
  ∀ t, (Arith.narrow .negZero).lt t = (Arith.narrow .zero).lt t

/-- Rounding a number to `float` gives a number or an infinity. -/
def RoundsNumbers [Arith] : Prop := ∀ x : Binary64, x.isNaN = false → (Arith.narrow x).isNaN = false

theorem narrow_lt_congr [Arith] (hzeros : ZerosRoundAlike) {x y : Binary64}
    (hxy : x.le y = true) (hyx : y.le x = true) (t : Binary32) :
    (Arith.narrow x).lt t = (Arith.narrow y).lt t := by
  rcases Binary64.eq_or_zeros hxy hyx with rfl | ⟨rfl, rfl⟩ | ⟨rfl, rfl⟩
  · rfl
  · exact (hzeros t).symm
  · exact hzeros t

end Ipa
