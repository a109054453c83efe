import Mathlib.Tactic.Linarith

/-!
# UTF-8

The bytes of a character: one byte that is its code point, or bytes from 0x80 on. No encoding
starts with another one, so the bytes of a text determine its characters.
-/

namespace Ipa

/-- The bytes of some characters. -/
def utf8 (cs : List Char) : List UInt8 := cs.flatMap String.utf8EncodeChar

theorem utf8_cons (c : Char) (cs : List Char) : utf8 (c :: cs) = String.utf8EncodeChar c ++ utf8 cs :=
  rfl

theorem utf8_ascii {c : Char} (h : c.toNat < 0x80) :
    String.utf8EncodeChar c = [UInt8.ofNat c.toNat] := by
  have hle : c.val.toNat ≤ 0x7F := Nat.le_of_lt_succ h
  unfold String.utf8EncodeChar
  exact if_pos hle

theorem utf8_byte {c : Char} {b : UInt8} (h : b ∈ String.utf8EncodeChar c) :
    (c.toNat < 0x80 ∧ b.toNat = c.toNat) ∨ 0x80 ≤ b.toNat := by
  by_cases hc : c.toNat < 0x80
  · rw [utf8_ascii hc, List.mem_singleton] at h
    rw [h, UInt8.toNat_ofNat']
    omega
  · have hle : ¬ c.val.toNat ≤ 0x7F := fun h => hc (Nat.lt_succ_of_le h)
    have htail : ∀ x base : Nat, 0x80 ≤ base → x + base < 256 →
        0x80 ≤ (UInt8.ofNat (x + base)).toNat := by
      intro x base hbase hlt
      rw [UInt8.toNat_ofNat']
      omega
    right
    unfold String.utf8EncodeChar at h
    simp only [if_neg hle] at h
    split at h
    · simp only [List.mem_cons, List.not_mem_nil, or_false] at h
      rcases h with rfl | rfl <;> exact htail _ _ (by omega) (by omega)
    split at h
    · simp only [List.mem_cons, List.not_mem_nil, or_false] at h
      rcases h with rfl | rfl | rfl <;> exact htail _ _ (by omega) (by omega)
    · simp only [List.mem_cons, List.not_mem_nil, or_false] at h
      rcases h with rfl | rfl | rfl | rfl <;> exact htail _ _ (by omega) (by omega)

/-- The first character is determined by what starts with its bytes. -/
theorem utf8EncodeChar_append_inj {c d : Char} {s t : List UInt8}
    (h : String.utf8EncodeChar c ++ s = String.utf8EncodeChar d ++ t) : c = d ∧ s = t := by
  have hcd : c = d := by
    have hc := ByteArray.utf8DecodeChar?_utf8EncodeChar_append (b := s.toByteArray) (c := c)
    rw [← List.toByteArray_append, h, List.toByteArray_append,
      ByteArray.utf8DecodeChar?_utf8EncodeChar_append] at hc
    exact (Option.some.inj hc).symm
  subst hcd
  exact ⟨rfl, List.append_cancel_left h⟩

end Ipa
