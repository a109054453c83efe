import Mathlib.Data.List.Nodup
import Mathlib.Logic.Function.Basic

/-!
# Blocks and their owners

The blocks of one kind are found under their addresses. They are `Live` with a list of addresses if
the list names every allocated block, each once: what its owner frees along the list is freed once,
and nothing is left behind.
-/

namespace Ipa

variable {β : Type}

/-- The allocated blocks are those of the list, each once, and none lies at `next` or above. -/
structure Live (blocks : Nat → Option β) (next : Nat) (owned : List Nat) : Prop where
  isSome : ∀ p, (blocks p).isSome = true ↔ p ∈ owned
  nodup : owned.Nodup
  below : ∀ p ∈ owned, p < next

namespace Live

variable {blocks : Nat → Option β} {next next' p : Nat} {owned owned' : List Nat}

theorem empty : Live (fun _ => none : Nat → Option β) next [] :=
  ⟨fun p => by simp, List.nodup_nil, fun p h => by cases h⟩

/-- Nothing is allocated where nothing is owned. -/
theorem eq_none (h : Live blocks next []) (p : Nat) : blocks p = none := by
  have hnot := h.isSome p
  cases hblock : blocks p with
  | none => rfl
  | some b =>
    rw [hblock] at hnot
    cases hnot.mp rfl

theorem perm (h : Live blocks next owned) (hperm : owned.Perm owned') : Live blocks next owned' :=
  ⟨fun p => (h.isSome p).trans hperm.mem_iff, hperm.nodup_iff.mp h.nodup,
    fun p hp => h.below p (hperm.mem_iff.mpr hp)⟩

theorem mono (h : Live blocks next owned) (hle : next ≤ next') : Live blocks next' owned :=
  ⟨h.isSome, h.nodup, fun p hp => Nat.lt_of_lt_of_le (h.below p hp) hle⟩

theorem mem (h : Live blocks next owned) {b : β} (hb : blocks p = some b) : p ∈ owned := by
  apply (h.isSome p).mp
  rw [hb]
  rfl

theorem exists_block (h : Live blocks next owned) (hp : p ∈ owned) : ∃ b, blocks p = some b :=
  Option.isSome_iff_exists.mp ((h.isSome p).mpr hp)

/-- The next block. -/
theorem alloc (h : Live blocks next owned) (b : β) :
    Live (Function.update blocks next (some b)) (next + 1) (owned ++ [next]) where
  isSome p := by
    rw [List.mem_append, List.mem_singleton]
    by_cases hp : p = next
    · subst hp
      simp
    · rw [Function.update_of_ne hp, h.isSome p]
      simp [hp]
  nodup := by
    refine List.nodup_append.mpr ⟨h.nodup, List.nodup_singleton _, fun a ha b hb heq => ?_⟩
    rw [List.mem_singleton] at hb
    have hlt := h.below a ha
    omega
  below p hp := by
    rcases List.mem_append.mp hp with hp | hp
    · exact Nat.lt_succ_of_lt (h.below p hp)
    · rw [List.mem_singleton] at hp
      omega

/-- A block is written. -/
theorem write (h : Live blocks next owned) (hp : p ∈ owned) (b : β) :
    Live (Function.update blocks p (some b)) next owned := by
  refine ⟨fun q => ?_, h.nodup, h.below⟩
  by_cases hq : q = p
  · subst hq
    simp [hp]
  · rw [Function.update_of_ne hq, h.isSome q]

/-- A block is freed. -/
theorem free (h : Live blocks next (p :: owned)) : Live (Function.update blocks p none) next owned := by
  obtain ⟨hnot, hnodup⟩ := List.nodup_cons.mp h.nodup
  refine ⟨fun q => ?_, hnodup, fun q hq => h.below q (List.mem_cons_of_mem _ hq)⟩
  by_cases hq : q = p
  · subst hq
    simp [hnot]
  · rw [Function.update_of_ne hq, h.isSome q, List.mem_cons, or_iff_right hq]

/-- The block at the end of the list is freed. -/
theorem free_last (h : Live blocks next (owned ++ [p])) :
    Live (Function.update blocks p none) next owned :=
  (h.perm (List.perm_append_singleton p owned)).free

end Live

end Ipa
