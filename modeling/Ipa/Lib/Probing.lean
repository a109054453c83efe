import Mathlib.Data.List.GetD
import Mathlib.Tactic.Linarith

/-!
# Open addressing with linear probing

A table is an array of slots that are empty or hold an element, and the elements are inserted one
after the other, each into the first empty slot from its home on, around the end of the array. As
long as a slot stays empty every walk ends, and the first element with a key that a walk meets is
the one that was inserted first.
-/

namespace Ipa.Probing

variable {α κ : Type}

/-- The slot at a distance from a home. -/
def slot (slots : List (Option α)) (home d : Nat) : Option α :=
  slots.getD ((home + d) % slots.length) none

/-- The slots hold the elements inserted, and those between an element and its home hold elements
that were inserted before it. -/
structure Filled (key : α → κ) (home : κ → Nat) (slots : List (Option α)) (inserted : List α) :
    Prop where
  count : slots.countP Option.isSome = inserted.length
  members : ∀ a, some a ∈ slots → a ∈ inserted
  reached : ∀ (p : Nat) (a : α), inserted[p]? = some a → ∃ d, slot slots (home (key a)) d = some a ∧
    ∀ d' < d, ∃ b ∈ inserted.take p, slot slots (home (key a)) d' = some b

theorem mem_of_slot {slots : List (Option α)} {home d : Nat} {a : α}
    (h : slot slots home d = some a) : some a ∈ slots := by
  unfold slot at h
  by_cases hlt : (home + d) % slots.length < slots.length
  · rw [List.getD_eq_getElem _ _ hlt] at h
    exact h ▸ List.getElem_mem hlt
  · rw [List.getD_eq_default _ _ (Nat.le_of_not_lt hlt)] at h
    cases h

/-- A loop that goes from slot to slot until one stops it. -/
theorem walk_eq {β : Type} {n : Nat} {f : Nat → Nat → β} {g : Nat → β} {P : Nat → Prop}
    (hstop : ∀ fuel h, P h → f (fuel + 1) h = g h)
    (hgo : ∀ fuel h, ¬ P h → f (fuel + 1) h = f fuel ((h + 1) % n)) {d fuel h : Nat} (hh : h < n)
    (hfuel : d < fuel) (hend : P ((h + d) % n)) (hbefore : ∀ d' < d, ¬ P ((h + d') % n)) :
    f fuel h = g ((h + d) % n) := by
  induction d generalizing fuel h with
  | zero =>
    obtain ⟨fuel, rfl⟩ := Nat.exists_eq_succ_of_ne_zero (Nat.ne_of_gt hfuel)
    rw [Nat.add_zero, Nat.mod_eq_of_lt hh] at hend ⊢
    exact hstop fuel h hend
  | succ d ih =>
    obtain ⟨fuel, rfl⟩ := Nat.exists_eq_succ_of_ne_zero (Nat.ne_of_gt (Nat.zero_lt_of_lt hfuel))
    have hfirst := hbefore 0 (Nat.zero_lt_succ d)
    rw [Nat.add_zero, Nat.mod_eq_of_lt hh] at hfirst
    have hshift : ∀ k, ((h + 1) % n + k) % n = (h + (k + 1)) % n := by
      intro k
      rw [Nat.mod_add_mod, Nat.add_assoc, Nat.add_comm 1 k]
    rw [hgo fuel h hfirst, ih (Nat.mod_lt _ (Nat.zero_lt_of_lt hh)) (Nat.lt_of_succ_lt_succ hfuel)
      (by rw [hshift]; exact hend) (fun d' hd' => by rw [hshift]; exact hbefore (d' + 1) (by omega)),
      hshift]

section Table

variable {key : α → κ} {home : κ → Nat} {slots : List (Option α)} {inserted : List α}

theorem filled_replicate (n : Nat) : Filled key home (List.replicate n none) [] where
  count := by simp
  members := by
    intro a ha
    cases (List.mem_replicate.mp ha).2
  reached := by
    intro p a ha
    cases ha

/-- From every home an empty slot is reached, through full ones. -/
theorem Filled.free (h : Filled key home slots inserted) (hroom : inserted.length < slots.length)
    (start : Nat) : ∃ d < slots.length, slot slots start d = none ∧
      ∀ d' < d, ∃ b, slot slots start d' = some b := by
  have hempty : ∃ i, i < slots.length ∧ slots.getD i none = none := by
    by_contra hfull
    push Not at hfull
    have hall : slots.countP Option.isSome = slots.length := by
      rw [List.countP_eq_length]
      intro o ho
      obtain ⟨i, hi, rfl⟩ := List.getElem_of_mem ho
      have := hfull i hi
      rw [List.getD_eq_getElem _ _ hi] at this
      exact Option.isSome_iff_ne_none.mpr this
    rw [h.count] at hall
    omega
  obtain ⟨i, hi, hnone⟩ := hempty
  have hpos : 0 < slots.length := Nat.zero_lt_of_lt hi
  have hreach : ∃ d, (slot slots start d).isNone = true := by
    refine ⟨i + (slots.length - start % slots.length), ?_⟩
    have hmod := Nat.mod_lt start hpos
    have hplace : (start + (i + (slots.length - start % slots.length))) % slots.length = i := by
      have hdiv := Nat.div_add_mod start slots.length
      have : start + (i + (slots.length - start % slots.length)) =
          i + slots.length * (start / slots.length + 1) := by
        rw [Nat.mul_add, Nat.mul_one]
        omega
      rw [this, Nat.add_mul_mod_self_left, Nat.mod_eq_of_lt hi]
    rw [slot, hplace, hnone]
    rfl
  obtain ⟨d, hd, hmin⟩ : ∃ d, (slot slots start d).isNone = true ∧
      ∀ d' < d, ¬ (slot slots start d').isNone = true :=
    ⟨Nat.find hreach, Nat.find_spec hreach, fun _ => Nat.find_min hreach⟩
  refine ⟨d, ?_, Option.isNone_iff_eq_none.mp hd, fun d' hd' => ?_⟩
  · -- distances that differ by the size of the array are one place
    by_contra hge
    apply hmin (d - slots.length) (by omega)
    have hsame : slot slots start (d - slots.length) = slot slots start d := by
      unfold slot
      congr 1
      rw [← Nat.add_mod_right]
      congr 1
      omega
    rw [hsame]
    exact hd
  · have hfull := hmin d' hd'
    rw [Option.isNone_iff_eq_none] at hfull
    exact Option.ne_none_iff_exists'.mp hfull

theorem slot_set {start d : Nat} (x : α) (start' d' : Nat) (hpos : 0 < slots.length) :
    slot (slots.set ((start + d) % slots.length) (some x)) start' d' =
      if (start' + d') % slots.length = (start + d) % slots.length then some x
      else slot slots start' d' := by
  have hlt := Nat.mod_lt (start' + d') hpos
  unfold slot
  rw [List.length_set, List.getD_eq_getElem _ _ (by rw [List.length_set]; exact hlt),
    List.getElem_set, List.getD_eq_getElem _ _ hlt]
  by_cases heq : (start' + d') % slots.length = (start + d) % slots.length
  · rw [if_pos heq, if_pos heq.symm]
  · rw [if_neg heq, if_neg (Ne.symm heq)]

theorem countP_set_free {i : Nat} (hi : i < slots.length) (hnone : slots.getD i none = none) (x : α) :
    (slots.set i (some x)).countP Option.isSome = slots.countP Option.isSome + 1 := by
  rw [List.getD_eq_getElem _ _ hi] at hnone
  have hold : slots = slots.take i ++ none :: slots.drop (i + 1) := by
    conv_lhs => rw [← List.take_append_drop i slots, List.drop_eq_getElem_cons hi, hnone]
  rw [List.set_eq_take_append_cons_drop, if_pos hi]
  conv_rhs => rw [hold]
  simp only [List.countP_append, List.countP_cons, Option.isSome_some, Option.isSome_none,
    if_true, Bool.false_eq_true, if_false]
  omega

/-- **Inserting** into the first empty slot from the home of the element on. -/
theorem Filled.insert (h : Filled key home slots inserted) (x : α) {d : Nat}
    (hpos : 0 < slots.length) (hnone : slot slots (home (key x)) d = none)
    (hbefore : ∀ d' < d, ∃ b, slot slots (home (key x)) d' = some b) :
    Filled key home (slots.set ((home (key x) + d) % slots.length) (some x)) (inserted ++ [x]) where
  count := by
    rw [countP_set_free (Nat.mod_lt _ hpos) hnone, h.count, List.length_append]
    rfl
  members := by
    intro a ha
    rcases List.mem_or_eq_of_mem_set ha with ha | ha
    · exact List.mem_append_left _ (h.members a ha)
    · cases ha
      exact List.mem_append_right _ List.mem_cons_self
  reached := by
    -- a full slot is another one than the slot that is filled
    have hkeep : ∀ (start' d' : Nat) (b : α), slot slots start' d' = some b →
        slot (slots.set ((home (key x) + d) % slots.length) (some x)) start' d' = some b := by
      intro start' d' b hb
      rw [slot_set x start' d' hpos, if_neg, hb]
      intro heq
      unfold slot at hb hnone
      rw [heq, hnone] at hb
      cases hb
    intro p a hp
    by_cases hlast : p < inserted.length
    · rw [List.getElem?_append_left hlast] at hp
      obtain ⟨d', hslot, hpath⟩ := h.reached p a hp
      refine ⟨d', hkeep _ _ _ hslot, fun d'' hd'' => ?_⟩
      obtain ⟨b, hb, hslot⟩ := hpath d'' hd''
      refine ⟨b, ?_, hkeep _ _ _ hslot⟩
      rw [List.take_append_of_le_length (Nat.le_of_lt hlast)]
      exact hb
    · have hlen : p < (inserted ++ [x]).length := (List.getElem?_eq_some_iff.mp hp).1
      rw [List.length_append, List.length_singleton] at hlen
      have heq : p = inserted.length := by omega
      rw [heq, List.getElem?_append_right (Nat.le_refl _), Nat.sub_self] at hp
      cases hp
      refine ⟨d, by rw [slot_set x _ _ hpos, if_pos rfl], fun d' hd' => ?_⟩
      obtain ⟨b, hb⟩ := hbefore d' hd'
      refine ⟨b, ?_, hkeep _ _ _ hb⟩
      rw [heq, List.take_left' rfl]
      exact h.members b (mem_of_slot hb)

/-- **Looking up**: the walk from the home of a key ends at the element with that key that was
inserted first, or at an empty slot when there is none. -/
theorem Filled.lookup [DecidableEq κ] (h : Filled key home slots inserted)
    (hroom : inserted.length < slots.length) (k : κ) :
    ∃ d < slots.length, slot slots (home k) d = inserted.find? (fun a => key a = k) ∧
      ∀ d' < d, ∃ b, slot slots (home k) d' = some b ∧ key b ≠ k := by
  cases hfind : inserted.find? (fun a => key a = k) with
  | none =>
    rw [List.find?_eq_none] at hfind
    obtain ⟨d, hd, hnone, hbefore⟩ := h.free hroom (home k)
    refine ⟨d, hd, hnone, fun d' hd' => ?_⟩
    obtain ⟨b, hb⟩ := hbefore d' hd'
    refine ⟨b, hb, fun hkey => ?_⟩
    exact hfind b (h.members b (mem_of_slot hb)) (decide_eq_true hkey)
  | some a =>
    obtain ⟨hkey, p, hp, hpa, hfirst⟩ := List.find?_eq_some_iff_getElem.mp hfind
    rw [decide_eq_true_eq] at hkey
    subst hkey
    obtain ⟨d, hslot, hpath⟩ := h.reached p a (by rw [List.getElem?_eq_getElem hp, hpa])
    obtain ⟨free, hfree, hnone, -⟩ := h.free hroom (home (key a))
    have hother : ∀ d' < d, ∃ b, slot slots (home (key a)) d' = some b ∧ key b ≠ key a := by
      intro d' hd'
      obtain ⟨b, hb, hslot⟩ := hpath d' hd'
      obtain ⟨q, hq, rfl⟩ := List.mem_take_iff_getElem.mp hb
      refine ⟨_, hslot, fun hsame => ?_⟩
      have := hfirst q (by omega)
      simp [hsame] at this
    refine ⟨d, ?_, hslot, hother⟩
    by_contra hge
    obtain ⟨b, hb, -⟩ := hother free (by omega)
    rw [hnone] at hb
    cases hb

end Table

end Ipa.Probing
