import Ipa.Hnsw.Index

/-!
# Filling the index

`add` appends one item. While the reserved array has room for it and the byte count of a vector
does not wrap, it writes in bounds; a run that returns on an index that has lost no item has
appended one with a non-empty identifier, whatever the room.
-/

namespace Ipa.Hnsw

open Run

/-- The array has room for one more item. -/
structure HasRoom (host : Host) (hnsw : Index) : Prop where
  bytes : hnsw.dimension * 4 < host.sizeMod
  capacity : hnsw.count < hnsw.capacity
  slots : hnsw.count < hnsw.slots

/-- What stays when items are appended. -/
structure SameShape (hnsw hnsw' : Index) : Prop where
  dimension : hnsw'.dimension = hnsw.dimension
  metric : hnsw'.metric = hnsw.metric
  efSearch : hnsw'.efSearch = hnsw.efSearch

/-- The index after one more item. -/
structure Added (hnsw : Index) (item : Item) (hnsw' : Index) : Prop where
  items : hnsw'.items = hnsw.items ++ [item]
  lost : hnsw'.lost = 0
  shape : SameShape hnsw hnsw'
  room : hnsw.count < hnsw.capacity → hnsw'.capacity = hnsw.capacity ∧ hnsw'.slots = hnsw.slots

/-- The array behind the items after a request for `capacity`. -/
inductive Resized (host : Host) (capacity : Nat) (hnsw : Index) : Index → Prop
  | enough (h : capacity ≤ hnsw.capacity) : Resized host capacity hnsw hnsw
  | moved (h : hnsw.capacity < capacity) :
    Resized host capacity hnsw { hnsw.cut (slotsFor host capacity) with capacity }

theorem Resized.shape {host : Host} {capacity : Nat} {hnsw hnsw' : Index}
    (h : Resized host capacity hnsw hnsw') : SameShape hnsw hnsw' := by
  cases h <;> exact ⟨rfl, rfl, rfl⟩

theorem Resized.count {host : Host} {capacity : Nat} {hnsw hnsw' : Index}
    (h : Resized host capacity hnsw hnsw') : hnsw'.count = hnsw.count := by
  cases h with
  | enough _ => rfl
  | moved _ => exact hnsw.cut_count _

/-- Where there is still a place behind the items, none was lost. -/
theorem Resized.whole {host : Host} {capacity : Nat} {hnsw hnsw' : Index}
    (h : Resized host capacity hnsw hnsw') (hlost : hnsw.lost = 0) (hroom : hnsw'.count ≤ hnsw'.slots) :
    hnsw'.items = hnsw.items ∧ hnsw'.lost = 0 := by
  have hcount := h.count
  cases h with
  | enough _ => exact ⟨rfl, hlost⟩
  | moved _ =>
    have hle : hnsw.items.length ≤ slotsFor host capacity := by
      rw [hcount, Index.count, hlost, Nat.add_zero] at hroom
      exact hroom
    rw [Index.cut_of_le hle]
    exact ⟨rfl, hlost⟩

/-- The array behind the items when one more is to be added. -/
def Widened (host : Host) (hnsw hnsw' : Index) : Prop :=
  if hnsw.count = hnsw.capacity then Resized host (nextCapacity host hnsw.capacity) hnsw hnsw'
  else hnsw' = hnsw

theorem Widened.resized {host : Host} {hnsw hnsw' : Index} (h : Widened host hnsw hnsw') :
    ∃ capacity, Resized host capacity hnsw hnsw' := by
  unfold Widened at h
  split at h
  · exact ⟨_, h⟩
  · rw [h]
    exact ⟨_, .enough (Nat.le_refl _)⟩

/-- No block of the index is resized to no bytes. -/
def SomeBytes (host : Host) (hnsw : Index) (capacity : Nat) : Prop :=
  host.size (capacity * itemSize host) = 0 → hnsw.capacity = 0

section Adding

variable {host : Host} {hnsw : Index} {I : Env → Prop} {X : Stop Status → Prop}
  [Serves I X Status.enomem]

theorem reserveLocked_keeps (capacity : Nat)
    (hbytes : SomeBytes host hnsw capacity ∨ X (.fault .index)) :
    Keeps I X (reserveLocked host hnsw capacity) (Resized host capacity hnsw) := by
  unfold reserveLocked
  split
  · rename_i h
    exact Keeps.pure (.enough h)
  split
  · rename_i h
    rcases hbytes with hsome | hfault
    · exact absurd (hsome h.1) h.2
    · exact Keeps.fault hfault
  · rename_i h _
    exact Keeps.bind Keeps.allocOr fun _ _ => Keeps.pure (.moved (by omega))

theorem growFor_keeps (hbytes : (hnsw.count = hnsw.capacity →
    SomeBytes host hnsw (nextCapacity host hnsw.capacity)) ∨ X (.fault .index)) :
    Keeps I X (growFor host hnsw) (Widened host hnsw) := by
  unfold growFor Widened
  split
  · rename_i hfull
    exact reserveLocked_keeps _ (hbytes.imp_left fun h => h hfull)
  · exact Keeps.pure rfl

variable [Arith]

/-- An item as `add` appends it. -/
def freshItem (id : CStr) (values : List Binary32) : Item :=
  ⟨id, values, vectorNorm values, -1, none⟩

/-- The copies and the item need a vector whose bytes can be counted, and a place. -/
theorem appendItem_keeps (id : CStr) (values : List Binary32)
    (hroom : hnsw.dimension * 4 < host.sizeMod ∧ hnsw.count < hnsw.slots ∨ X (.fault .index)) :
    Keeps I X (appendItem host hnsw id values) fun hnsw' =>
      (hnsw.dimension * 4 < host.sizeMod ∧ hnsw.count < hnsw.slots) ∧
        hnsw' = { hnsw.push (freshItem id values) with entryPointSet := false, maxLevel := -1 } := by
  have hsize := host.size_lt (hnsw.dimension * 4)
  unfold appendItem
  refine Keeps.bind Keeps.allocOr fun _ _ => Keeps.bind Keeps.allocOr fun _ _ => ?_
  split
  · rename_i hwrap
    refine hroom.elim (fun h => ?_) Keeps.fault
    rw [Host.size_of_lt h.1] at hwrap
    omega
  split
  · rename_i hfull
    exact hroom.elim (fun h => absurd h.2 (by omega)) Keeps.fault
  · rename_i hwrap hfull
    exact Keeps.pure ⟨⟨by omega, by omega⟩, rfl⟩

/-- **An addition** that returns has appended the item. -/
theorem add_keeps {id : CStr} {values : List Binary32} (hlost : hnsw.lost = 0)
    (hempty : id.bytes = [] → X (.fail .einval))
    (hroom : HasRoom host hnsw ∨ X (.fault .index)) :
    Keeps I X (add host hnsw id values) fun hnsw' =>
      id.bytes ≠ [] ∧ Added hnsw (freshItem id values) hnsw' ∧
        (hnsw.count < hnsw.capacity → HasRoom host hnsw) := by
  unfold add
  split
  · rename_i h
    exact Keeps.fail (hempty (List.isEmpty_iff.mp h))
  rename_i hid
  have hne : id.bytes ≠ [] := fun h => hid (List.isEmpty_iff.mpr h)
  have hgrow : Keeps I X (growFor host hnsw) (Widened host hnsw) :=
    growFor_keeps (hroom.imp_left fun h hfull => absurd h.capacity (by omega))
  refine Keeps.bind hgrow fun grown hwide => ?_
  -- an array that is not full stays as it is
  have hsame : hnsw.count < hnsw.capacity → grown = hnsw := by
    intro hlt
    rwa [Widened, if_neg (by omega)] at hwide
  have happend : Keeps I X (appendItem host grown id values) _ :=
    appendItem_keeps id values (hroom.imp_left fun h => by
      rw [hsame h.capacity]
      exact ⟨h.bytes, h.slots⟩)
  refine happend.mono ?_
  rintro hnsw' ⟨⟨hbytes, hslots⟩, rfl⟩
  obtain ⟨capacity, hsize⟩ := hwide.resized
  obtain ⟨hitems, hlost'⟩ := hsize.whole hlost (Nat.le_of_lt hslots)
  have hshape := hsize.shape
  rw [Index.push_of_whole hlost', hitems]
  refine ⟨hne, ⟨rfl, hlost', ⟨hshape.dimension, hshape.metric, hshape.efSearch⟩, fun hlt => ?_⟩,
    fun hlt => ?_⟩
  · rw [hsame hlt]
    exact ⟨rfl, rfl⟩
  · rw [hsame hlt] at hbytes hslots
    exact ⟨hbytes, hlt, hslots⟩

end Adding

end Ipa.Hnsw
