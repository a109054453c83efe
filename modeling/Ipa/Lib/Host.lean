import Ipa.Lib.Words

/-!
# The target machine

What the compiled code takes from the machine it runs on: the width of `size_t`, the byte order
of the integers it copies to and from memory.
-/

namespace Ipa

inductive SizeWidth
  | w32
  | w64
deriving DecidableEq, Repr

def SizeWidth.bits : SizeWidth → Nat
  | w32 => 32
  | w64 => 64

structure Host where
  width : SizeWidth
  order : ByteOrder
deriving DecidableEq, Repr

namespace Host

/-- The number of values of `size_t`. -/
def sizeMod (host : Host) : Nat := 2 ^ host.width.bits

/-- A `size_t` result. -/
def size (host : Host) (n : Nat) : Nat := n % host.sizeMod

theorem two_pow_32_le_sizeMod (host : Host) : 2 ^ 32 ≤ host.sizeMod := by
  unfold sizeMod
  cases host.width <;> decide

theorem size_of_lt {host : Host} {n : Nat} (h : n < host.sizeMod) : host.size n = n :=
  Nat.mod_eq_of_lt h

theorem size_lt (host : Host) (n : Nat) : host.size n < host.sizeMod :=
  Nat.mod_lt _ (Nat.two_pow_pos _)

end Host

end Ipa
