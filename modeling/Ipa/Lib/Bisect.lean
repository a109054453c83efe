import Mathlib.Tactic.Linarith

/-!
# Binary search

The loop that halves `[left, right)` on a predicate that holds on an initial part of it, and
ends at the first index where the predicate fails.
-/

namespace Ipa

/-- `fuel` bounds the number of halvings; `right - left` is enough. -/
def bisect (p : Nat → Bool) : Nat → Nat → Nat → Nat
  | 0, left, _ => left
  | fuel + 1, left, right =>
    if left < right then
      let mid := left + (right - left) / 2
      if p mid then bisect p fuel (mid + 1) right else bisect p fuel left mid
    else left

/-- The index found splits the range into the part where `p` holds and the part where it
fails. -/
theorem bisect_spec (p : Nat → Bool) : ∀ (fuel left right : Nat), left ≤ right →
    right - left ≤ fuel →
    (∀ i j, left ≤ i → i ≤ j → j < right → p j = true → p i = true) →
    left ≤ bisect p fuel left right ∧ bisect p fuel left right ≤ right ∧
      (∀ i, left ≤ i → i < bisect p fuel left right → p i = true) ∧
      ∀ i, bisect p fuel left right ≤ i → i < right → p i = false := by
  intro fuel
  induction fuel with
  | zero =>
    intro left right hle hfuel _
    simp only [bisect]
    exact ⟨Nat.le_refl _, hle, fun i _ _ => by omega, fun i _ _ => by omega⟩
  | succ fuel ih =>
    intro left right hle hfuel hmono
    unfold bisect
    by_cases hlt : left < right
    · simp only [hlt, ite_true]
      generalize hmid : left + (right - left) / 2 = mid
      have hl : left ≤ mid := by omega
      have hr : mid < right := by omega
      by_cases hp : p mid = true
      · simp only [hp, ite_true]
        obtain ⟨h1, h2, h3, h4⟩ := ih (mid + 1) right (by omega) (by omega)
          (fun i j hi hij hj => hmono i j (by omega) hij hj)
        refine ⟨by omega, h2, fun i hi hlt => ?_, h4⟩
        by_cases him : i ≤ mid
        · exact hmono i mid hi him hr hp
        · exact h3 i (by omega) hlt
      · simp only [hp, Bool.false_eq_true, ite_false]
        obtain ⟨h1, h2, h3, h4⟩ := ih left mid hl (by omega)
          (fun i j hi hij hj => hmono i j hi hij (by omega))
        refine ⟨h1, by omega, h3, fun i hi hlt => ?_⟩
        by_cases him : i < mid
        · exact h4 i hi him
        · cases hpi : p i with
          | false => rfl
          | true => exact absurd (hmono mid i hl (by omega) hlt hpi) hp
    · simp only [hlt, ite_false]
      exact ⟨Nat.le_refl _, hle, fun i _ _ => by omega, fun i _ _ => by omega⟩

end Ipa
