import Mathlib.Tactic.Linarith
import Mathlib.Data.List.Perm.Basic

/-!
# Exchange sort

The sort of two nested index loops that swaps whenever the outer element is worse than the inner
one. One pass over the tail leaves in front an element that is worse than none of the rest.
-/

namespace Ipa.Exchange

variable {α : Type} (worse : α → α → Bool)

/-- One inner loop: the element in front and the tail it leaves. -/
def sweep : α → List α → α × List α
  | h, [] => (h, [])
  | h, y :: ys =>
    let (h', y') := if worse h y then (y, h) else (h, y)
    let (b, r) := sweep h' ys
    (b, y' :: r)

/-- The outer loop, one element after the other; the fuel is the length. -/
def sortLoop : Nat → List α → List α
  | 0, l => l
  | _ + 1, [] => []
  | n + 1, h :: t =>
    let (b, r) := sweep worse h t
    b :: sortLoop n r

def sort (l : List α) : List α := sortLoop worse l.length l

theorem sweep_perm : ∀ (h : α) (l : List α),
    List.Perm ((sweep worse h l).1 :: (sweep worse h l).2) (h :: l)
  | h, [] => .refl _
  | h, y :: ys => by
    unfold sweep
    by_cases hw : worse h y
    · simp only [hw, ite_true]
      exact (List.Perm.swap _ _ _).trans
        (((sweep_perm y ys).cons h).trans (.refl _))
    · simp only [hw, Bool.false_eq_true, ite_false]
      exact (List.Perm.swap _ _ _).trans (((sweep_perm h ys).cons y).trans (.swap _ _ _))

theorem length_sweep (h : α) (l : List α) : (sweep worse h l).2.length = l.length := by
  have := (sweep_perm worse h l).length_eq
  simpa using this

theorem sortLoop_perm : ∀ (n : Nat) (l : List α), l.length ≤ n → (sortLoop worse n l).Perm l
  | 0, [], _ => .refl _
  | _ + 1, [], _ => .refl _
  | n + 1, h :: t, hn => by
    unfold sortLoop
    have hlen := length_sweep worse h t
    simp only [List.length_cons] at hn
    exact ((sortLoop_perm n _ (by omega)).cons _).trans (sweep_perm worse h t)

theorem sort_perm (l : List α) : (sort worse l).Perm l :=
  sortLoop_perm worse l.length l (Nat.le_refl _)

/-- Sorting by a key of the elements. -/
theorem sweep_map {β : Type} (f : β → α) : ∀ (h : β) (l : List β),
    sweep worse (f h) (l.map f) =
      (f (sweep (fun a b => worse (f a) (f b)) h l).1,
        (sweep (fun a b => worse (f a) (f b)) h l).2.map f)
  | _, [] => rfl
  | h, y :: ys => by
    rw [List.map_cons, sweep, sweep]
    by_cases hw : worse (f h) (f y) = true
    · simp only [hw, ite_true, sweep_map f y ys, List.map_cons]
    · simp only [hw, Bool.false_eq_true, ite_false, sweep_map f h ys, List.map_cons]

theorem sortLoop_map {β : Type} (f : β → α) : ∀ (n : Nat) (l : List β),
    sortLoop worse n (l.map f) = (sortLoop (fun a b => worse (f a) (f b)) n l).map f
  | 0, _ => rfl
  | _ + 1, [] => rfl
  | n + 1, h :: t => by
    rw [List.map_cons, sortLoop, sortLoop]
    simp only [sweep_map, sortLoop_map f n, List.map_cons]

theorem sort_map {β : Type} (f : β → α) (l : List β) :
    sort worse (l.map f) = (sort (fun a b => worse (f a) (f b)) l).map f := by
  rw [sort, sort, List.length_map, sortLoop_map]

variable {worse}
variable (hasymm : ∀ a b, worse a b = true → worse b a = false)
  (htrans : ∀ a b c, worse a b = true → worse b c = true → worse a c = true)

include hasymm htrans in
/-- What a pass leaves in front is worse than nothing it passed, and the front only gets
better on the way. -/
theorem sweep_front : ∀ (h : α) (l : List α),
    (∀ y ∈ (sweep worse h l).2, worse (sweep worse h l).1 y = false) ∧
      ∀ x, worse h x = false → worse (sweep worse h l).1 x = false
  | h, [] => ⟨by simp [sweep], fun _ hx => hx⟩
  | h, y :: ys => by
    unfold sweep
    by_cases hw : worse h y
    · simp only [hw, ite_true]
      obtain ⟨hrest, hkeep⟩ := sweep_front y ys
      refine ⟨fun z hz => ?_, fun x hx => hkeep x ?_⟩
      · rcases List.mem_cons.mp hz with rfl | hz
        · exact hkeep _ (hasymm _ _ hw)
        · exact hrest z hz
      · cases hyx : worse y x with
        | false => rfl
        | true => rw [htrans _ _ _ hw hyx] at hx; cases hx
    · simp only [hw, Bool.false_eq_true, ite_false]
      obtain ⟨hrest, hkeep⟩ := sweep_front h ys
      refine ⟨fun z hz => ?_, hkeep⟩
      rcases List.mem_cons.mp hz with rfl | hz
      · exact hkeep _ (by simpa using hw)
      · exact hrest z hz

include hasymm htrans in
theorem sortLoop_pairwise : ∀ (n : Nat) (l : List α), l.length ≤ n →
    (sortLoop worse n l).Pairwise fun a b => worse a b = false
  | 0, [], _ => .nil
  | _ + 1, [], _ => .nil
  | n + 1, h :: t, hn => by
    unfold sortLoop
    have hlen := length_sweep worse h t
    simp only [List.length_cons] at hn
    refine .cons (fun y hy => ?_) (sortLoop_pairwise n _ (by omega))
    exact (sweep_front hasymm htrans h t).1 y ((sortLoop_perm worse n _ (by omega)).mem_iff.mp hy)

include hasymm htrans in
/-- The sorted list has no element worse than a later one. -/
theorem sort_pairwise (l : List α) : (sort worse l).Pairwise fun a b => worse a b = false :=
  sortLoop_pairwise hasymm htrans l.length l (Nat.le_refl _)

/-- What a cut of the sorted list leaves out is better than nothing that it keeps. -/
theorem take_of_pairwise {l : List α} (h : l.Pairwise fun a b => worse a b = false) {n : Nat}
    {x y : α} (hx : x ∈ l) (hout : x ∉ l.take n) (hy : y ∈ l.take n) : worse y x = false := by
  rw [← List.take_append_drop n l] at h hx
  rcases List.mem_append.mp hx with hx | hx
  · exact absurd hx hout
  · exact (List.pairwise_append.mp h).2.2 y hy x hx

end Ipa.Exchange
