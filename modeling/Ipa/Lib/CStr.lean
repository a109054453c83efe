import Mathlib.Tactic.Linarith
import Mathlib.Data.List.TakeWhile

/-!
# C strings

A C string is the bytes before its terminator, so it holds no NUL. `CStr.read mem off` is the
string that a pointer at offset `off` into `mem` denotes; the memory reads as zero past its end,
which is where a string that no NUL of `mem` ends is cut.
-/

namespace Ipa

/-- What holds of the 256 bytes holds of all. -/
theorem forall_byte {P : UInt8 → Prop} (h : ∀ n : Fin 256, P (UInt8.ofNat n)) : ∀ c, P c := by
  intro c
  have hc := h ⟨c.toNat, c.toNat_lt⟩
  rwa [UInt8.ofNat_toNat] at hc

/-- The bytes of a C string, without the terminator. -/
structure CStr where
  bytes : List UInt8
  nulFree : (0 : UInt8) ∉ bytes
deriving DecidableEq

/-- The bytes of an ASCII text. -/
def ascii (s : String) : List UInt8 := s.toList.map Char.toUInt8

namespace CStr

@[ext] theorem ext {s t : CStr} (h : s.bytes = t.bytes) : s = t := by
  cases s; cases t; cases h; rfl

def strlen (s : CStr) : Nat := s.bytes.length

def empty : CStr := ⟨[], by simp⟩

instance : Inhabited CStr := ⟨empty⟩

/-- The string held by a buffer: its bytes up to the first NUL. -/
def ofBuffer (buf : List UInt8) : CStr :=
  ⟨buf.takeWhile (· ≠ 0), fun h => by simpa using List.mem_takeWhile_imp h⟩

/-- A string literal. -/
def ofString (s : String) : CStr := ofBuffer (ascii s)

/-- The string at offset `off` of `mem`. -/
def read (mem : List UInt8) (off : Nat) : CStr := ofBuffer (mem.drop off)

/-- The bytes from `i` up to `j`. -/
def slice (s : CStr) (i j : Nat) : CStr :=
  ⟨(s.bytes.drop i).take (j - i), fun h =>
    s.nulFree (List.mem_of_mem_drop (List.mem_of_mem_take h))⟩

/-- A part of a part. -/
theorem slice_slice (s : CStr) {i j k l : Nat} (h : i + l ≤ j) :
    (s.slice i j).slice k l = s.slice (i + k) (i + l) := by
  apply ext
  change (((s.bytes.drop i).take (j - i)).drop k).take (l - k) =
    (s.bytes.drop (i + k)).take (i + l - (i + k))
  rw [List.drop_take, List.take_take, List.drop_drop]
  congr 1
  omega

theorem ofBuffer_append_nul (s : CStr) (rest : List UInt8) :
    ofBuffer (s.bytes ++ 0 :: rest) = s := by
  apply ext
  show (s.bytes ++ 0 :: rest).takeWhile (· ≠ 0) = s.bytes
  have hall : ∀ b ∈ s.bytes, decide (b ≠ 0) = true := by
    intro b hb
    have : b ≠ 0 := fun h0 => s.nulFree (h0 ▸ hb)
    simpa using this
  rw [List.takeWhile_append_of_pos hall]
  simp

@[simp] theorem ofBuffer_bytes (s : CStr) : ofBuffer s.bytes = s := by
  apply ext
  show s.bytes.takeWhile (· ≠ 0) = s.bytes
  rw [List.takeWhile_eq_self_iff]
  intro b hb
  have : b ≠ 0 := fun h0 => s.nulFree (h0 ▸ hb)
  simpa using this

theorem ofBuffer_of_nulFree {buf : List UInt8} (h : (0 : UInt8) ∉ buf) :
    (ofBuffer buf).bytes = buf := by
  rw [ofBuffer_bytes ⟨buf, h⟩]

/-- The string and its terminator lie at offset `off` of `mem`. -/
def Lies (mem : List UInt8) (off : Nat) (s : CStr) : Prop :=
  ∃ rest, mem.drop off = s.bytes ++ 0 :: rest

theorem Lies.read_eq {mem : List UInt8} {off : Nat} {s : CStr} (h : Lies mem off s) :
    CStr.read mem off = s := by
  obtain ⟨rest, h⟩ := h
  rw [CStr.read, h, ofBuffer_append_nul]

theorem Lies.lt {mem : List UInt8} {off : Nat} {s : CStr} (h : Lies mem off s) :
    off + s.strlen < mem.length := by
  obtain ⟨rest, h⟩ := h
  have := congrArg List.length h
  simp only [List.length_drop, List.length_append, List.length_cons] at this
  unfold strlen
  omega

theorem Lies.append {mem : List UInt8} {off : Nat} {s : CStr} (h : Lies mem off s)
    (tail : List UInt8) : Lies (mem ++ tail) off s := by
  have hlt := h.lt
  obtain ⟨rest, h⟩ := h
  refine ⟨rest ++ tail, ?_⟩
  rw [List.drop_append_of_le_length (by omega), h, List.append_assoc, List.cons_append]

theorem Lies.prepend {mem : List UInt8} {off : Nat} {s : CStr} (h : Lies mem off s)
    (head : List UInt8) : Lies (head ++ mem) (head.length + off) s := by
  obtain ⟨rest, h⟩ := h
  refine ⟨rest, ?_⟩
  rw [List.drop_append, List.drop_eq_nil_of_le (by omega), List.nil_append,
    Nat.add_sub_cancel_left, h]

theorem lies_end (mem : List UInt8) (s : CStr) : Lies (mem ++ s.bytes ++ [0]) mem.length s :=
  ⟨[], by rw [List.append_assoc, List.drop_left]⟩

end CStr

end Ipa
