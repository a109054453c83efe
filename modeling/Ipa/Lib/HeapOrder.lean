import Mathlib.Order.Basic
import Mathlib.Tactic.Linarith

/-!
# The order of an array heap

A binary heap in an array, as the ranks of its places: no place ranks before its parent. A sift
moves one rank from its place toward the root, or away from it; meanwhile the other places are in
order, and in order across that one.
-/

namespace Ipa.HeapOrder

variable {β : Type} [Preorder β]

/-- No place ranks before its parent. -/
def Heaped (n : Nat) (f : Nat → β) : Prop := ∀ j, 0 < j → j < n → f ((j - 1) / 2) ≤ f j

/-- So none ranks before the root. -/
theorem Heaped.root_le {n : Nat} {f : Nat → β} (h : Heaped n f) : ∀ j, j < n → f 0 ≤ f j := by
  intro j
  induction j using Nat.strongRecOn with
  | ind j ih =>
    intro hj
    rcases Nat.eq_zero_or_pos j with rfl | hpos
    · exact le_rfl
    · exact (ih ((j - 1) / 2) (by omega) (by omega)).trans (h j hpos hj)

/-- The ranks with two places exchanged. -/
def swapped (f : Nat → β) (i p : Nat) (j : Nat) : β :=
  if j = i then f p else if j = p then f i else f j

/-- A rank on its way to the root. -/
structure Rising (n : Nat) (f : Nat → β) (i : Nat) : Prop where
  others : ∀ j, 0 < j → j < n → j ≠ i → f ((j - 1) / 2) ≤ f j
  across : 0 < i → ∀ j, 0 < j → j < n → (j - 1) / 2 = i → f ((i - 1) / 2) ≤ f j

theorem Rising.done {n : Nat} {f : Nat → β} {i : Nat} (h : Rising n f i)
    (hstop : 0 < i → f ((i - 1) / 2) ≤ f i) : Heaped n f := by
  intro j hpos hj
  by_cases hi : j = i
  · rw [hi]
    exact hstop (hi ▸ hpos)
  · exact h.others j hpos hj hi

/-- One step up. -/
theorem Rising.step {n : Nat} {f : Nat → β} {i : Nat} (h : Rising n f i) (hpos : 0 < i)
    (hi : i < n) (hlt : f i < f ((i - 1) / 2)) :
    Rising n (swapped f i ((i - 1) / 2)) ((i - 1) / 2) := by
  have hparent : ∀ j, 0 < j → (j - 1) / 2 < j := fun j hj => by omega
  have hp := hparent i hpos
  generalize hpe : (i - 1) / 2 = p at hlt hp ⊢
  have hup : 0 < p → f ((p - 1) / 2) ≤ f p :=
    fun hppos => h.others p hppos (Nat.lt_trans hp hi) (Nat.ne_of_lt hp)
  refine ⟨fun j hjpos hj hjp => ?_, fun hppos j hjpos hj hjparent => ?_⟩
  · unfold swapped
    by_cases hji : j = i
    · rw [if_pos hji, hji, hpe, if_neg (Nat.ne_of_lt hp), if_pos rfl]
      exact le_of_lt hlt
    rw [if_neg hji, if_neg hjp]
    by_cases hchild : (j - 1) / 2 = i
    · -- a child of the place that it left
      rw [if_pos hchild, ← hpe]
      exact h.across hpos j hjpos hj hchild
    rw [if_neg hchild]
    by_cases hsibling : (j - 1) / 2 = p
    · rw [if_pos hsibling]
      have := h.others j hjpos hj hji
      rw [hsibling] at this
      exact (le_of_lt hlt).trans this
    · rw [if_neg hsibling]
      exact h.others j hjpos hj hji
  · have hpp := hparent p hppos
    unfold swapped
    rw [if_neg (show (p - 1) / 2 ≠ i by omega), if_neg (Nat.ne_of_lt hpp)]
    by_cases hji : j = i
    · rw [if_pos hji]
      exact hup hppos
    · rw [if_neg hji, if_neg (show j ≠ p by omega)]
      have := h.others j hjpos hj hji
      rw [hjparent] at this
      exact (hup hppos).trans this

/-- A rank on its way from the root. -/
structure Sinking (n : Nat) (f : Nat → β) (i : Nat) : Prop where
  others : ∀ j, 0 < j → j < n → (j - 1) / 2 ≠ i → f ((j - 1) / 2) ≤ f j
  across : 0 < i → ∀ j, 0 < j → j < n → (j - 1) / 2 = i → f ((i - 1) / 2) ≤ f j

theorem Sinking.done {n : Nat} {f : Nat → β} {i : Nat} (h : Sinking n f i)
    (hstop : ∀ j, 0 < j → j < n → (j - 1) / 2 = i → f i ≤ f j) : Heaped n f := by
  intro j hpos hj
  by_cases hi : (j - 1) / 2 = i
  · rw [hi]
    exact hstop j hpos hj hi
  · exact h.others j hpos hj hi

/-- One step down, to a child that no other child ranks before. -/
theorem Sinking.step {n : Nat} {f : Nat → β} {i c : Nat} (h : Sinking n f i) (hcpos : 0 < c)
    (hc : c < n) (hparent : (c - 1) / 2 = i) (hlt : f c < f i)
    (hleast : ∀ j, 0 < j → j < n → (j - 1) / 2 = i → f c ≤ f j) :
    Sinking n (swapped f i c) c := by
  have hic : i < c := by omega
  refine ⟨fun j hjpos hj hjc => ?_, fun _ j hjpos hj hjparent => ?_⟩
  · unfold swapped
    by_cases hji : j = i
    · -- the place it left, under its parent
      subst hji
      rw [if_pos rfl, if_neg (show (j - 1) / 2 ≠ j by omega),
        if_neg (show (j - 1) / 2 ≠ c by omega)]
      exact h.across hjpos c hcpos hc hparent
    rw [if_neg hji]
    by_cases hchild : (j - 1) / 2 = i
    · rw [if_pos hchild]
      by_cases hj' : j = c
      · rw [if_pos hj']
        exact le_of_lt hlt
      · rw [if_neg hj']
        exact hleast j hjpos hj hchild
    · rw [if_neg hchild, if_neg hjc, if_neg (show j ≠ c by omega)]
      exact h.others j hjpos hj hchild
  · unfold swapped
    rw [if_pos hparent, if_neg (show j ≠ i by omega), if_neg (show j ≠ c by omega)]
    have := h.others j hjpos hj (by omega)
    rwa [hjparent] at this

end Ipa.HeapOrder
