import Mathlib.Tactic.Linarith
import Mathlib.Data.List.Basic

/-!
# 32-bit words in memory

Structs of 32-bit fields are written and read as runs of words, in the byte order of the host.
Behind the end of the memory there is nothing to read: `byteAt` gives zero there to be total, and
code that may get there logs its accesses.
-/

namespace Ipa

inductive ByteOrder
  | little
  | big
deriving DecidableEq, Repr

/-- A count that is above an index. -/
theorem count_pos {n : UInt32} {i : Nat} (h : i < n.toNat) : 0 < n :=
  UInt32.lt_iff_toNat_lt.mpr (Nat.lt_of_le_of_lt (Nat.zero_le i) h)

/-- The byte at offset `i`. -/
def byteAt (mem : List UInt8) (i : Nat) : UInt8 := mem.getD i 0

namespace ByteOrder

def ofBytes (o : ByteOrder) (b0 b1 b2 b3 : UInt8) : UInt32 :=
  match o with
  | little => UInt32.ofNat (b0.toNat + 2 ^ 8 * b1.toNat + 2 ^ 16 * b2.toNat + 2 ^ 24 * b3.toNat)
  | big => UInt32.ofNat (b3.toNat + 2 ^ 8 * b2.toNat + 2 ^ 16 * b1.toNat + 2 ^ 24 * b0.toNat)

/-- The four bytes of a word. -/
def bytes (o : ByteOrder) (w : UInt32) : List UInt8 :=
  let le := [UInt8.ofNat w.toNat, UInt8.ofNat (w.toNat / 2 ^ 8), UInt8.ofNat (w.toNat / 2 ^ 16),
    UInt8.ofNat (w.toNat / 2 ^ 24)]
  match o with
  | little => le
  | big => le.reverse

/-- The bytes of a struct of words. -/
def encode (o : ByteOrder) (ws : List UInt32) : List UInt8 := ws.flatMap o.bytes

/-- The word at offset `off`. -/
def readU32 (o : ByteOrder) (mem : List UInt8) (off : Nat) : UInt32 :=
  o.ofBytes (byteAt mem off) (byteAt mem (off + 1)) (byteAt mem (off + 2)) (byteAt mem (off + 3))

/-- The `n` words from offset `off` on. -/
def readWords (o : ByteOrder) (mem : List UInt8) (off n : Nat) : List UInt32 :=
  (List.range n).map fun k => o.readU32 mem (off + 4 * k)

@[simp] theorem length_bytes (o : ByteOrder) (w : UInt32) : (o.bytes w).length = 4 := by
  cases o <;> rfl

@[simp] theorem length_encode (o : ByteOrder) (ws : List UInt32) :
    (o.encode ws).length = 4 * ws.length := by
  induction ws with
  | nil => rfl
  | cons w ws ih =>
    simp only [encode, List.flatMap_cons, List.length_append, length_bytes, List.length_cons] at *
    omega

private theorem word_of_digits (w : UInt32) :
    UInt32.ofNat ((UInt8.ofNat w.toNat).toNat + 2 ^ 8 * (UInt8.ofNat (w.toNat / 2 ^ 8)).toNat +
      2 ^ 16 * (UInt8.ofNat (w.toNat / 2 ^ 16)).toNat +
      2 ^ 24 * (UInt8.ofNat (w.toNat / 2 ^ 24)).toNat) = w := by
  apply UInt32.toNat_inj.mp
  have hw := w.toNat_lt
  simp only [UInt8.toNat_ofNat', UInt32.toNat_ofNat']
  omega

/-- A word written is the word read. -/
theorem readU32_of_drop {o : ByteOrder} {mem : List UInt8} {off : Nat} {w : UInt32}
    {rest : List UInt8} (h : mem.drop off = o.bytes w ++ rest) : o.readU32 mem off = w := by
  have hb : ∀ i, byteAt mem (off + i) = (o.bytes w ++ rest).getD i 0 := by
    intro i
    rw [byteAt, ← h, List.getD_eq_getElem?_getD, List.getD_eq_getElem?_getD, List.getElem?_drop]
  have h0 := hb 0
  rw [Nat.add_zero] at h0
  unfold readU32
  rw [h0, hb 1, hb 2, hb 3]
  cases o
  · exact word_of_digits w
  · exact word_of_digits w

theorem readWords_succ (o : ByteOrder) (mem : List UInt8) (off n : Nat) :
    o.readWords mem off (n + 1) = o.readU32 mem off :: o.readWords mem (off + 4) n := by
  unfold readWords
  rw [List.range_succ_eq_map, List.map_cons, List.map_map]
  refine congrArg₂ _ rfl (List.map_congr_left fun k _ => ?_)
  show o.readU32 mem (off + 4 * (k + 1)) = _
  rw [show off + 4 * (k + 1) = off + 4 + 4 * k by omega]

/-- A struct written is the struct read. -/
theorem readWords_of_drop {o : ByteOrder} {mem : List UInt8} {rest : List UInt8} :
    ∀ {ws : List UInt32} {off : Nat}, mem.drop off = o.encode ws ++ rest →
      o.readWords mem off ws.length = ws
  | [], _, _ => rfl
  | w :: ws, off, h => by
    have h' : mem.drop off = o.bytes w ++ (o.encode ws ++ rest) := by
      rw [h, encode, List.flatMap_cons, List.append_assoc, ← encode]
    have htail : mem.drop (off + 4) = o.encode ws ++ rest := by
      rw [← List.drop_drop, h', List.drop_append_of_le_length (by simp)]
      simp
    rw [List.length_cons, readWords_succ, readU32_of_drop h', readWords_of_drop htail]

end ByteOrder

/-! ## Records of one size -/

theorem drop_flatMap {α β : Type} {f : α → List β} {k : Nat} :
    ∀ {l : List α} (i : Nat), (∀ a ∈ l, (f a).length = k) →
      (l.flatMap f).drop (i * k) = (l.drop i).flatMap f
  | [], i, _ => by simp
  | a :: l, 0, _ => by simp
  | a :: l, i + 1, h => by
    rw [List.flatMap_cons, Nat.succ_mul, Nat.add_comm, List.drop_append,
      List.drop_eq_nil_of_le (by rw [h a List.mem_cons_self]; omega), List.nil_append,
      h a List.mem_cons_self, Nat.add_sub_cancel_left,
      drop_flatMap i fun a ha => h a (List.mem_cons_of_mem _ ha), List.drop_succ_cons]

/-- The record behind `i` others. -/
theorem drop_record {α β : Type} {f : α → List β} {k : Nat} {l : List α} {i : Nat} {a : α}
    (h : ∀ a ∈ l, (f a).length = k) (ha : l[i]? = some a) :
    (l.flatMap f).drop (i * k) = f a ++ (l.drop (i + 1)).flatMap f := by
  obtain ⟨hlt, rfl⟩ := List.getElem?_eq_some_iff.mp ha
  rw [drop_flatMap i h, List.drop_eq_getElem_cons hlt, List.flatMap_cons]

theorem length_flatMap_const {α β : Type} {f : α → List β} {k : Nat} {l : List α}
    (h : ∀ a ∈ l, (f a).length = k) : (l.flatMap f).length = l.length * k := by
  induction l with
  | nil => simp
  | cons a l ih =>
    rw [List.flatMap_cons, List.length_append, h a List.mem_cons_self,
      ih fun a ha => h a (List.mem_cons_of_mem _ ha), List.length_cons, Nat.succ_mul, Nat.add_comm]

end Ipa
