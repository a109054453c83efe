import Ipa.Lib.Run
import Ipa.Lib.Host

/-!
# Growable byte buffers

A buffer doubles its capacity until what is appended fits, in the arithmetic of `size_t`. A
capacity that is a power of two stays one, so it never exceeds half of the range of `size_t`: a
request beyond that doubles for ever.
-/

namespace Ipa

open Run

structure Buffer where
  data : List UInt8
  capacity : Nat
deriving DecidableEq

namespace Buffer

variable {ε : Type}

/-- `while (next < needed) next *= 2`. After as many doublings as `size_t` has bits `next` is
zero, and the loop does not end. -/
def doubleTo (host : Host) (needed : Nat) : Nat → Nat → Option Nat
  | 0, next => if next < needed then none else some next
  | fuel + 1, next =>
    if next < needed then doubleTo host needed fuel (host.size (next * 2)) else some next

/-- The capacity that has room for `amount` more bytes. -/
def grow (host : Host) (err : ε) (buf : Buffer) (amount : Nat) : Run ε Nat :=
  let needed := host.size (buf.data.length + amount)
  if needed ≤ buf.capacity then pure buf.capacity
  else
    match doubleTo host needed host.width.bits (host.size (buf.capacity * 2)) with
    | none => fault .fuel
    | some next => do
      allocOr err
      pure next

def append (host : Host) (err : ε) (buf : Buffer) (bytes : List UInt8) : Run ε Buffer := do
  let capacity ← grow host err buf bytes.length
  if capacity < buf.data.length + bytes.length then fault .index
  else pure ⟨buf.data ++ bytes, capacity⟩

/-- The contents fit in a capacity that is a power of two of `size_t`. -/
structure Sound (host : Host) (buf : Buffer) : Prop where
  fits : buf.data.length ≤ buf.capacity
  capacity : ∃ k, k < host.width.bits ∧ buf.capacity = 2 ^ k

theorem Sound.length_le {host : Host} {buf : Buffer} (h : buf.Sound host) :
    2 * buf.data.length ≤ host.sizeMod := by
  obtain ⟨k, hk, hcap⟩ := h.capacity
  have hpow : 2 ^ (k + 1) ≤ host.sizeMod := Nat.pow_le_pow_right (by decide) hk
  have := h.fits
  rw [Nat.pow_succ] at hpow
  omega

theorem size_double {host : Host} {k : Nat} (hk : k < host.width.bits) :
    host.size (2 ^ k * 2) = 0 ∨ ∃ m, m < host.width.bits ∧ host.size (2 ^ k * 2) = 2 ^ m := by
  rw [show 2 ^ k * 2 = 2 ^ (k + 1) from (Nat.pow_succ ..).symm]
  by_cases hlt : k + 1 < host.width.bits
  · exact .inr ⟨k + 1, hlt, Host.size_of_lt (Nat.pow_lt_pow_right (by decide) hlt)⟩
  · rw [show k + 1 = host.width.bits by omega]
    exact .inl (Nat.mod_self _)

theorem doubleTo_some {host : Host} {needed : Nat} (hneeded : 0 < needed) :
    ∀ {fuel next v : Nat}, (next = 0 ∨ ∃ k, k < host.width.bits ∧ next = 2 ^ k) →
      doubleTo host needed fuel next = some v →
      needed ≤ v ∧ ∃ k, k < host.width.bits ∧ v = 2 ^ k := by
  intro fuel
  induction fuel with
  | zero =>
    intro next v hnext h
    unfold doubleTo at h
    split at h
    · cases h
    · cases h
      rcases hnext with rfl | hnext
      · omega
      · exact ⟨by omega, hnext⟩
  | succ fuel ih =>
    intro next v hnext h
    unfold doubleTo at h
    split at h
    · refine ih ?_ h
      rcases hnext with rfl | ⟨k, hk, rfl⟩
      · exact .inl (by rw [Nat.zero_mul]; rfl)
      · exact size_double hk
    · cases h
      rcases hnext with rfl | hnext
      · omega
      · exact ⟨by omega, hnext⟩

/-- Below half of the range, a power of two has a next one. -/
theorem two_pow_next {host : Host} {k n : Nat} (hk : k < host.width.bits) (hlt : 2 ^ k < n)
    (hle : 2 * n ≤ host.sizeMod) : k + 1 < host.width.bits := by
  by_contra hge
  have hpow : host.sizeMod = 2 * 2 ^ k := by
    rw [Host.sizeMod, show host.width.bits = k + 1 by omega, Nat.pow_succ]
    omega
  omega

/-- Doubling reaches every size up to half of the range. -/
theorem doubleTo_isSome {host : Host} {needed : Nat} (hneeded : 2 * needed ≤ host.sizeMod) :
    ∀ {fuel k : Nat}, k < host.width.bits → host.width.bits ≤ k + fuel + 1 →
      (doubleTo host needed fuel (2 ^ k)).isSome := by
  intro fuel
  induction fuel with
  | zero =>
    intro k hk hfuel
    unfold doubleTo
    have hpow : host.sizeMod = 2 * 2 ^ k := by
      rw [Host.sizeMod, show host.width.bits = k + 1 by omega, Nat.pow_succ]
      omega
    rw [if_neg (by omega)]
    rfl
  | succ fuel ih =>
    intro k hk hfuel
    unfold doubleTo
    split
    · rename_i hlt
      have hnext := two_pow_next hk hlt hneeded
      rw [show 2 ^ k * 2 = 2 ^ (k + 1) from (Nat.pow_succ ..).symm,
        Host.size_of_lt (Nat.pow_lt_pow_right (by decide) hnext)]
      exact ih hnext (by omega)
    · rfl

/-- Appending `amount` bytes ends: the buffer is sound and has room to grow, unless a run that
does not end and a write past the end are accepted as ends. -/
def Roomy (host : Host) (X : Stop ε → Prop) (buf : Buffer) (amount : Nat) : Prop :=
  (X (.fault .fuel) ∧ X (.fault .index)) ∨
    (buf.Sound host ∧ 2 * (buf.data.length + amount) ≤ host.sizeMod)

/-- Room is left after a part of what was asked for. -/
theorem Roomy.mono {host : Host} {X : Stop ε → Prop} {buf buf' : Buffer} {amount amount' : Nat}
    (h : Roomy host X buf amount) (hsound : buf.Sound host → buf'.Sound host)
    (hle : buf'.data.length + amount' ≤ buf.data.length + amount) : Roomy host X buf' amount' := by
  rcases h with h | ⟨hs, hroom⟩
  · exact .inl h
  · exact .inr ⟨hsound hs, by omega⟩

section Append

variable {host : Host} {err : ε} {I : Env → Prop} {X : Stop ε → Prop} [Serves I X err]

theorem grow_keeps {buf : Buffer} {amount : Nat} (hroom : Roomy host X buf amount) :
    Keeps I X (grow host err buf amount) fun capacity => buf.Sound host →
      (∃ k, k < host.width.bits ∧ capacity = 2 ^ k) ∧
        host.size (buf.data.length + amount) ≤ capacity := by
  unfold grow
  simp only
  split
  · rename_i hle
    exact Keeps.pure fun h => ⟨h.capacity, hle⟩
  · rename_i hneeded
    split
    · rename_i hnone
      rcases hroom with ⟨hfuel, -⟩ | ⟨hsound, hle⟩
      · exact Keeps.fault hfuel
      · obtain ⟨k, hk, hcap⟩ := hsound.capacity
        have hsize : host.size (buf.data.length + amount) = buf.data.length + amount :=
          Host.size_of_lt (by have := host.two_pow_32_le_sizeMod; omega)
        rw [hsize, hcap] at hnone
        rw [hsize, hcap] at hneeded
        have hnext := two_pow_next hk (Nat.lt_of_not_le hneeded) hle
        rw [show 2 ^ k * 2 = 2 ^ (k + 1) from (Nat.pow_succ ..).symm,
          Host.size_of_lt (Nat.pow_lt_pow_right (by decide) hnext)] at hnone
        have := @doubleTo_isSome host _ hle host.width.bits (k + 1) hnext (by omega)
        rw [hnone] at this
        cases this
    · rename_i next hnext
      refine Keeps.bind Keeps.allocOr fun _ _ => Keeps.pure fun h => ?_
      obtain ⟨k, hk, hcap⟩ := h.capacity
      rw [hcap] at hnext
      exact (doubleTo_some (by omega) (size_double hk) hnext).symm

/-- An append that returns has appended, and keeps the buffer sound. -/
theorem append_keeps {buf : Buffer} {bytes : List UInt8} (hroom : Roomy host X buf bytes.length) :
    Keeps I X (append host err buf bytes) fun buf' =>
      buf'.data = buf.data ++ bytes ∧ (buf.Sound host → buf'.Sound host) := by
  unfold append
  refine Keeps.bind (grow_keeps hroom) fun capacity hcapacity => ?_
  split
  · rename_i hlt
    rcases hroom with ⟨-, hindex⟩ | ⟨hsound, hle⟩
    · exact Keeps.fault hindex
    · have hcap := (hcapacity hsound).2
      rw [Host.size_of_lt (by have := host.two_pow_32_le_sizeMod; omega)] at hcap
      omega
  · refine Keeps.pure ⟨rfl, fun h => ⟨?_, (hcapacity h).1⟩⟩
    show (buf.data ++ bytes).length ≤ capacity
    rw [List.length_append]
    omega

end Append

end Buffer

end Ipa
