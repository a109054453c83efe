import Ipa.Schema.Accepted
import Mathlib.Data.List.Perm.Subperm

/-!
# What the compiler keeps of the tree

The parser builds nodes to any depth, the passes of the compiler visit the nodes and their
children. An image is complete when the entries and the rows it holds account for every
description and every emit pair of every node at any depth, each with a place of its own. That is
so exactly when nothing below the children has a description or an emit pair.
-/

namespace Ipa

open Run

/-! ## The nodes at any depth -/

mutual

/-- The nodes below a node, at any depth, each behind its parent. -/
def descendants (nd : NodeDef) : List (NodeDef × NodeDef) :=
  match nd with
  | ⟨id, descriptions, emits, children⟩ =>
    descendantsOf ⟨id, descriptions, emits, children⟩ children

def descendantsOf (parent : NodeDef) (nodes : List NodeDef) : List (NodeDef × NodeDef) :=
  match nodes with
  | [] => []
  | ch :: rest => (parent, ch) :: descendants ch ++ descendantsOf parent rest

end

theorem descendantsOf_eq (parent : NodeDef) (nodes : List NodeDef) :
    descendantsOf parent nodes = nodes.flatMap fun ch => (parent, ch) :: descendants ch := by
  induction nodes with
  | nil => simp [descendantsOf]
  | cons ch rest ih => simp [descendantsOf, ih]

theorem descendants_eq (nd : NodeDef) :
    descendants nd = nd.children.flatMap fun ch => (nd, ch) :: descendants ch := by
  obtain ⟨id, descriptions, emits, children⟩ := nd
  rw [descendants, descendantsOf_eq]

/-- The children of the nodes, each behind its parent. -/
def childPairs (nodes : List NodeDef) : List (NodeDef × NodeDef) :=
  nodes.flatMap fun nd => nd.children.map (nd, ·)

/-- What the nodes below the top hold, in the order of a walk of the tree. -/
theorem flatMap_descendants {β : Type} (f : NodeDef × NodeDef → List β) (nodes : List NodeDef) :
    (nodes.flatMap descendants).flatMap f =
      (childPairs nodes).flatMap fun x => f x ++ (descendants x.2).flatMap f := by
  rw [childPairs, List.flatMap_assoc, List.flatMap_assoc]
  refine congrArg (fun g => List.flatMap g nodes) (funext fun nd => ?_)
  rw [descendants_eq, List.flatMap_assoc, List.flatMap_map]
  simp only [List.flatMap_cons]

/-- Two parts of a list are no longer than the first when the second is empty. -/
theorem flatMap_append_le {α β : Type} {f g : α → List β} {l : List α} :
    (l.flatMap fun a => f a ++ g a).length ≤ (l.flatMap f).length ↔ ∀ a ∈ l, g a = [] := by
  have hge : ∀ l : List α, (l.flatMap f).length ≤ (l.flatMap fun a => f a ++ g a).length := by
    intro l
    induction l with
    | nil => simp
    | cons a l ih => simp only [List.flatMap_cons, List.length_append] at *; omega
  induction l with
  | nil => simp
  | cons a l ih =>
    have := hge l
    simp only [List.flatMap_cons, List.length_append, List.forall_mem_cons, ← ih,
      ← List.length_eq_zero_iff (l := g a)]
    omega

/-- Nothing below the children has anything to show for. -/
theorem flatMap_descendants_le {β : Type} (f : NodeDef × NodeDef → List β)
    (nodes : List NodeDef) :
    ((nodes.flatMap descendants).flatMap f).length ≤ ((childPairs nodes).flatMap f).length ↔
      ∀ ch ∈ childNodes nodes, ∀ x ∈ descendants ch, f x = [] := by
  rw [flatMap_descendants, flatMap_append_le]
  simp only [List.flatMap_eq_nil_iff, childPairs, childNodes, List.mem_flatMap, List.mem_map]
  constructor
  · rintro h ch ⟨nd, hnd, hch⟩ x hx
    exact h (nd, ch) ⟨nd, hnd, ch, hch, rfl⟩ x hx
  · rintro h _ ⟨nd, hnd, ch, hch, rfl⟩ x hx
    exact h ch ⟨nd, hnd, hch⟩ x hx

theorem flatMap_descendants_of_nil {β : Type} {f : NodeDef × NodeDef → List β}
    {nodes : List NodeDef} (h : ∀ ch ∈ childNodes nodes, ∀ x ∈ descendants ch, f x = []) :
    (nodes.flatMap descendants).flatMap f = (childPairs nodes).flatMap f := by
  rw [flatMap_descendants]
  refine List.flatMap_congr fun x hx => ?_
  obtain ⟨nd, hnd, hx⟩ := List.mem_flatMap.mp hx
  obtain ⟨ch, hch, rfl⟩ := List.mem_map.mp hx
  have hnil : (descendants ch).flatMap f = [] :=
    List.flatMap_eq_nil_iff.mpr (h ch (List.mem_flatMap.mpr ⟨nd, hnd, hch⟩))
  rw [hnil, List.append_nil]

/-! ## Complete images -/

/-- The ids and the embeddings of the descriptions of a node behind its parent. -/
def describedAt (emb : Emb) (x : NodeDef × NodeDef) :
    List ((NodeDef × NodeDef) × Option (List Binary32)) :=
  x.2.descriptions.map fun description => (x, description.bind emb.exec)

/-- A description as its entry has it. -/
def entryOf (x : (NodeDef × NodeDef) × Option (List Binary32)) :
    Option CStr × Option (List Binary32) :=
  (x.1.2.id, x.2)

def emitsAt (x : NodeDef × NodeDef) : List ((NodeDef × NodeDef) × EmitDef) := x.2.emits.map (x, ·)

structure NodePairReads (mem : List UInt8) (strtab : Nat) (row : NodeMeta) (x : NodeDef × EmitDef) :
    Prop where
  node : ReadsBack mem strtab row.nodeIdOff row.nodeIdLen x.1.id
  key : ReadsBack mem strtab row.emitKeyOff row.emitKeyLen x.2.key
  value : ReadsBack mem strtab row.emitValOff row.emitValLen x.2.value

/-- The row names a node under its parent. -/
structure ChildMeta.Names (mem : List UInt8) (strtab : Nat) (row : ChildMeta)
    (x : NodeDef × NodeDef) : Prop where
  parent : ReadsBack mem strtab row.parentIdOff row.parentIdLen x.1.id
  node : ReadsBack mem strtab row.nodeIdOff row.nodeIdLen x.2.id

structure ChildPairReads (mem : List UInt8) (strtab : Nat) (row : ChildMeta)
    (x : (NodeDef × NodeDef) × EmitDef) : Prop where
  names : row.Names mem strtab x.1
  key : ReadsBack mem strtab row.emitKeyOff row.emitKeyLen x.2.key
  value : ReadsBack mem strtab row.emitValOff row.emitValLen x.2.value

/-- Some of the rows, one for each of the pairs, are these pairs. -/
def Accounted {α β : Type} (R : α → β → Prop) (rows : List α) (pairs : List β) : Prop :=
  ∃ picked : List α, picked.Subperm rows ∧ List.Forall₂ R picked pairs

/-- Every description and every emit pair, at any depth, has its entry or its row in the image. An
entry has the id of its node and no field for the parent: a description is attached to that by a
row, one for each node that has a description, which names the node under its parent. -/
structure Complete (host : Host) (emb : Emb) (m : Manifest) (image : List UInt8) : Prop where
  nodeDescriptions : (described emb m.nodes).Subperm
    ((FileHdr.read host.order image).nodeBlock host image).entries
  nodeEmits : Accounted
    (NodePairReads image (FileHdr.read host.order image).strtabOff.toNat)
    ((FileHdr.read host.order image).nodeRows host.order image)
    (m.nodes.flatMap fun nd => nd.emits.map (nd, ·))
  nestedDescriptions : (((m.nodes.flatMap descendants).flatMap (describedAt emb)).map
    entryOf).Subperm ((FileHdr.read host.order image).childBlock host image).entries
  nestedParents : Accounted
    (ChildMeta.Names image (FileHdr.read host.order image).strtabOff.toNat)
    ((FileHdr.read host.order image).childRows host.order image)
    ((m.nodes.flatMap descendants).filter fun x => !x.2.descriptions.isEmpty)
  nestedEmits : Accounted
    (ChildPairReads image (FileHdr.read host.order image).strtabOff.toNat)
    ((FileHdr.read host.order image).childRows host.order image)
    ((m.nodes.flatMap descendants).flatMap emitsAt)

section Accounted

variable {α β γ : Type} {R : α → γ → Prop} {S : α → β → Prop} {g : γ → Option β} {q : α → Bool}
  {rows : List α} {slots : List γ}

theorem accounted_filterMap (h : List.Forall₂ R rows slots)
    (hS : ∀ row slot x, R row slot → g slot = some x → S row x) :
    Accounted S rows (slots.filterMap g) := by
  suffices hsub : ∃ picked : List α, picked.Sublist rows ∧
      List.Forall₂ S picked (slots.filterMap g) by
    obtain ⟨picked, hsub, hpicked⟩ := hsub
    exact ⟨picked, hsub.subperm, hpicked⟩
  induction h with
  | nil => exact ⟨[], .slnil, .nil⟩
  | @cons row slot rows slots hrow _ ih =>
    obtain ⟨picked, hsub, hpicked⟩ := ih
    cases hg : g slot with
    | none =>
      rw [List.filterMap_cons_none hg]
      exact ⟨picked, hsub.cons _, hpicked⟩
    | some x =>
      rw [List.filterMap_cons_some hg]
      exact ⟨row :: picked, hsub.cons_cons _, .cons (hS row slot x hrow hg) hpicked⟩

/-- Rows that stand for some slots stand for those that are picked. -/
theorem accounted_sublist {slots picked : List γ} (h : List.Forall₂ R rows slots)
    (hsub : picked.Sublist slots) : Accounted R rows picked := by
  suffices hrows : ∃ kept : List α, kept.Sublist rows ∧ List.Forall₂ R kept picked by
    obtain ⟨kept, hkept, hpicked⟩ := hrows
    exact ⟨kept, hkept.subperm, hpicked⟩
  induction hsub generalizing rows with
  | slnil => exact ⟨[], List.nil_sublist _, .nil⟩
  | cons slot _ ih =>
    obtain ⟨row, rows', -, hrest, rfl⟩ := List.forall₂_cons_right_iff.mp h
    obtain ⟨kept, hkept, hpicked⟩ := ih hrest
    exact ⟨kept, hkept.cons row, hpicked⟩
  | cons_cons slot _ ih =>
    obtain ⟨row, rows', hrow, hrest, rfl⟩ := List.forall₂_cons_right_iff.mp h
    obtain ⟨kept, hkept, hpicked⟩ := ih hrest
    exact ⟨row :: kept, hkept.cons_cons row, .cons hrow hpicked⟩

theorem length_filter_le (h : List.Forall₂ R rows slots)
    (hq : ∀ row slot, R row slot → g slot = none → q row = false) :
    (rows.filter q).length ≤ (slots.filterMap g).length := by
  induction h with
  | nil => exact Nat.le_refl _
  | @cons row slot rows slots hrow _ ih =>
    cases hg : g slot with
    | none =>
      rw [List.filterMap_cons_none hg, List.filter_cons_of_neg (by rw [hq row slot hrow hg]; simp)]
      exact ih
    | some x =>
      rw [List.filterMap_cons_some hg, List.length_cons]
      have := List.length_filter_le q [row]
      rw [← List.singleton_append, List.filter_append, List.length_append]
      simp only [List.length_singleton] at this
      omega

/-- Rows of a kind are as many as the pairs they account for, at least. -/
theorem Accounted.length_le {pairs : List β} (h : Accounted S rows pairs)
    (hq : ∀ row x, S row x → q row = true) : pairs.length ≤ (rows.filter q).length := by
  obtain ⟨picked, hsub, hpicked⟩ := h
  have hall : ∀ row ∈ picked, q row = true := by
    clear hsub
    induction hpicked with
    | nil => intro row hrow; cases hrow
    | cons hrow _ ih =>
      rintro row (_ | ⟨_, hmem⟩)
      · exact hq _ _ hrow
      · exact ih row hmem
  rw [← hpicked.length_eq, ← List.filter_eq_self.mpr hall]
  exact (hsub.filter q).length_le

end Accounted

theorem described_eq (emb : Emb) (nodes : List NodeDef) :
    described emb (childNodes nodes) =
      ((childPairs nodes).flatMap (describedAt emb)).map entryOf := by
  rw [described, childNodes, childPairs, List.map_flatMap, List.flatMap_assoc, List.flatMap_assoc]
  refine congrArg (fun g => List.flatMap g nodes) (funext fun nd => ?_)
  rw [List.flatMap_map]
  refine congrArg (fun g => List.flatMap g nd.children) (funext fun ch => ?_)
  rw [describedAt, List.map_map]
  rfl

/-- The pair of a row, where it has one. -/
def pairOf (x : Place × Option EmitDef) : Option ((NodeDef × NodeDef) × EmitDef) :=
  x.2.map fun emit => ((x.1.1, x.1.node), emit)

theorem filterMap_emitSlots {β : Type} (nd : NodeDef) (f : EmitDef → β) :
    (emitSlots nd).filterMap (Option.map f) = nd.emits.map f := by
  unfold emitSlots
  split
  · rename_i h
    rw [List.isEmpty_iff.mp h]
    rfl
  · rw [List.filterMap_map]
    exact List.filterMap_eq_map (f := f) ▸ rfl

theorem slots_pairs (nodes : List NodeDef) :
    (slotsAt (childPlaces nodes)).filterMap pairOf = (childPairs nodes).flatMap emitsAt := by
  rw [slotsAt, atPlaces, childPlaces, childPairs, List.flatMap_assoc, List.flatMap_assoc,
    List.filterMap_flatMap]
  refine congrArg (fun g => List.flatMap g nodes) (funext fun nd => ?_)
  rw [List.flatMap_map, List.flatMap_map, List.filterMap_flatMap]
  refine congrArg (fun g => List.flatMap g nd.children) (funext fun ch => ?_)
  rw [List.filterMap_map]
  exact filterMap_emitSlots ch fun emit => ((nd, ch), emit)

/-- Each child has a row. -/
theorem childPairs_sublist (nodes : List NodeDef) :
    (childPairs nodes).Sublist ((slotsAt (childPlaces nodes)).map fun x => (x.1.1, x.1.node)) := by
  have hflat : ∀ {α β : Type} {f g : α → List β} (l : List α), (∀ a ∈ l, (f a).Sublist (g a)) →
      (l.flatMap f).Sublist (l.flatMap g) := by
    intro α β f g l
    induction l with
    | nil => exact fun _ => .slnil
    | cons a l ih =>
      intro h
      obtain ⟨hfirst, hrest⟩ := List.forall_mem_cons.mp h
      rw [List.flatMap_cons, List.flatMap_cons]
      exact hfirst.append (ih hrest)
  rw [slotsAt, atPlaces, childPlaces, childPairs, List.map_flatMap, List.flatMap_assoc]
  refine hflat nodes fun nd _ => ?_
  rw [List.flatMap_map, List.map_eq_flatMap]
  refine hflat nd.children fun ch _ => List.singleton_sublist.mpr ?_
  obtain ⟨slot, hslot⟩ := List.exists_mem_of_ne_nil (emitSlots ch) (emitSlots_ne_nil ch)
  exact List.mem_map.mpr ⟨((nd, some ch), slot), List.mem_map_of_mem hslot, rfl⟩

theorem slots_nodePairs (nodes : List NodeDef) :
    (slotsAt (nodePlaces nodes)).filterMap (fun x => x.2.map (x.1.node, ·)) =
      nodes.flatMap fun nd => nd.emits.map (nd, ·) := by
  rw [slotsAt, atPlaces, nodePlaces, List.flatMap_map, List.filterMap_flatMap]
  refine congrArg (fun g => List.flatMap g nodes) (funext fun nd => ?_)
  rw [List.filterMap_map]
  exact filterMap_emitSlots nd fun emit => (nd, emit)

/-- A row that holds a key. -/
def ChildMeta.keyed (row : ChildMeta) : Bool := !(row.emitKeyOff == 0 && row.emitKeyLen == 0)

/-- Offset 0 of the table is the id of the manifest, so no empty key stands there. -/
theorem ReadsBack.keyed {mem tab : List UInt8} {strtab : Nat} {off len : UInt32}
    {str : Option CStr} (h : ReadsBack mem strtab off len str) (htab : TabAt mem strtab tab)
    {id : CStr} (hid : id.bytes ≠ []) (hstart : ∃ rest, tab = tabBytes [some id] ++ rest) :
    (!(off == 0 && len == 0)) = true := by
  obtain ⟨s, -, ⟨tail, hlies⟩, hlen⟩ := h
  by_contra hzero
  simp only [Bool.not_eq_true', Bool.not_eq_false, Bool.and_eq_true, beq_iff_eq] at hzero
  obtain ⟨rfl, rfl⟩ := hzero
  have hnil : s.bytes = [] := List.length_eq_zero_iff.mp hlen.symm
  obtain ⟨rest, hrest⟩ := htab.bytes
  obtain ⟨rest', rfl⟩ := hstart
  obtain ⟨c, cs, hc⟩ := List.exists_cons_of_ne_nil hid
  rw [hnil, UInt32.toNat_zero, Nat.add_zero, hrest] at hlies
  simp only [tabBytes, List.flatMap_cons, Option.getD_some, hc, List.cons_append] at hlies
  have hhead := (List.cons.inj hlies).1
  exact id.nulFree (by rw [hc, hhead]; exact List.mem_cons_self)

/-- Where nothing below the children is described, the nodes that are described are children. -/
theorem filter_descendants {q : NodeDef × NodeDef → Bool} {nodes : List NodeDef}
    (h : ∀ ch ∈ childNodes nodes, ∀ x ∈ descendants ch, q x = false) :
    (nodes.flatMap descendants).filter q = (childPairs nodes).filter q := by
  have hsingle : ∀ l : List (NodeDef × NodeDef),
      l.filter q = l.flatMap fun x => if q x then [x] else [] := by
    intro l
    induction l with
    | nil => rfl
    | cons x l ih =>
      rw [List.filter_cons, List.flatMap_cons, ← ih]
      split <;> rfl
  rw [hsingle, hsingle]
  refine flatMap_descendants_of_nil fun ch hch x hx => ?_
  rw [h ch hch x hx]
  rfl

namespace Parts

variable {host : Host} {emb : Emb} {m : Manifest} {p : Parts} (hp : p.Of emb m)
  (hmapped : p.size host.order < host.sizeMod)

include hp hmapped

theorem Of.complete_iff (hwhole : m.Whole emb) (hvalid : m.Valid) :
    Complete host emb m (p.image host.order emb m) ↔
      ∀ ch ∈ childNodes m.nodes, ∀ x ∈ descendants ch, x.2.descriptions = [] ∧ x.2.emits = [] := by
  have htab := hp.tabAt host hwhole.entries.strings
  have hread : FileHdr.read host.order (p.image host.order emb m) =
      p.hdr host.order emb m := FileHdr.read_encode _ _ _
  have hnode := (hp.nodeStored hmapped hwhole.toNodesWhole).entries_eq htab hp.nodeLabels
    hp.nodeVecs
  have hchild := (hp.childStored hmapped hwhole.entries).entries_eq htab hp.childLabels hp.childVecs
  rw [descriptionsAt_map, nodePlaces_node] at hnode
  rw [descriptionsAt_map, childPlaces_node, described_eq] at hchild
  have hnames : ∀ row x, ChildRowFor p.tab row x → row.Names (p.image host.order emb m)
      (p.hdr host.order emb m).strtabOff.toNat (x.1.1, x.1.node) := fun row x hrow =>
    ⟨(hrow.parent.readsBack htab).1, (hrow.node.readsBack htab).1⟩
  have hpairs : ∀ row x y, ChildRowFor p.tab row x → pairOf x = some y →
      ChildPairReads (p.image host.order emb m)
        (p.hdr host.order emb m).strtabOff.toNat row y := by
    rintro row ⟨place, slot⟩ y hrow hy
    obtain ⟨emit, rfl, rfl⟩ := Option.map_eq_some_iff.mp hy
    exact ⟨hnames row _ hrow, (hrow.slot.1.readsBack htab).1, (hrow.slot.2.readsBack htab).1⟩
  constructor
  · rintro ⟨-, -, hdesc, -, hemits⟩
    rw [hread, hchild] at hdesc
    rw [hread, hp.childRows_eq hwhole] at hemits
    have hle := hdesc.length_le
    rw [List.length_map, List.length_map] at hle
    have hdesc := (flatMap_descendants_le (describedAt emb) m.nodes).mp hle
    obtain ⟨id, hid, hne⟩ := hvalid.id
    have hstart := hp.start
    rw [hid] at hstart
    have hle := hemits.length_le (q := ChildMeta.keyed)
      fun row x hrow => hrow.key.keyed htab hne hstart
    have hge := length_filter_le (q := ChildMeta.keyed) (g := pairOf) hp.childRows
      fun row x hrow hnone => by
        have hslot := hrow.slot
        rw [Option.map_eq_none_iff.mp hnone] at hslot
        simp only [SlotRefers, StrRef.mk.injEq] at hslot
        simp [ChildMeta.keyed, hslot.1.1, hslot.1.2]
    rw [slots_pairs] at hge
    have hemits := (flatMap_descendants_le emitsAt m.nodes).mp (Nat.le_trans hle hge)
    intro ch hch x hx
    exact ⟨List.map_eq_nil_iff.mp (hdesc ch hch x hx), List.map_eq_nil_iff.mp (hemits ch hch x hx)⟩
  · intro hnil
    refine ⟨?_, ?_, ?_, ?_, ?_⟩
    · rw [hread, hnode]
    · rw [hread, hp.nodeRows_eq hwhole.toNodesWhole, ← slots_nodePairs]
      refine accounted_filterMap hp.nodeRows ?_
      rintro row ⟨place, slot⟩ y hrow hy
      obtain ⟨emit, rfl, rfl⟩ := Option.map_eq_some_iff.mp hy
      exact ⟨(hrow.node.readsBack htab).1, (hrow.slot.1.readsBack htab).1,
        (hrow.slot.2.readsBack htab).1⟩
    · rw [hread, hchild, flatMap_descendants_of_nil (f := describedAt emb)
        fun ch hch x hx => List.map_eq_nil_iff.mpr (hnil ch hch x hx).1]
    · rw [hread, hp.childRows_eq hwhole, filter_descendants fun ch hch x hx => by
        rw [(hnil ch hch x hx).1]
        rfl]
      have hrows := List.forall₂_map_right_iff.mpr
        (hp.childRows.imp fun row x hrow => hnames row x hrow)
      exact accounted_sublist hrows (List.filter_sublist.trans (childPairs_sublist m.nodes))
    · rw [hread, hp.childRows_eq hwhole, flatMap_descendants_of_nil (f := emitsAt)
        (fun ch hch x hx => List.map_eq_nil_iff.mpr (hnil ch hch x hx).2), ← slots_pairs]
      exact accounted_filterMap hp.childRows hpairs

end Parts

/-- **Completeness**: an image whose header states everything accounts for the whole tree exactly
when nothing below the children has a description or an emit pair. -/
theorem serialize_complete_iff (host : Host) (emb : Emb) (m : Manifest) (image : List UInt8)
    {e e' : Env} (hbuild : (serialize host (some emb) m).exec e = (.ok image, e'))
    (hwhole : m.Whole emb) :
    Complete host emb m image ↔ ∀ ch ∈ childNodes m.nodes, ∀ x ∈ descendants ch,
      x.2.descriptions = [] ∧ x.2.emits = [] := by
  obtain ⟨hvalid, emb', hemb, p, hp, rfl, hhalf⟩ := serialize_ok hbuild
  cases hemb
  rw [p.length_image] at hhalf
  exact hp.complete_iff (Parts.size_lt hhalf) hwhole hvalid

theorem serialize_complete_iff_family : ∃ image e',
    (serialize unitSystem.host (some unitEmb) familyManifest).exec ⟨[], []⟩ = (.ok image, e') ∧
      (Complete unitSystem.host unitEmb familyManifest image ↔
        ∀ ch ∈ childNodes familyManifest.nodes, ∀ x ∈ descendants ch,
          x.2.descriptions = [] ∧ x.2.emits = []) := by
  obtain ⟨image, e', hbuild, -⟩ := exec_of_value?
    (x := serialize unitSystem.host (some unitEmb) familyManifest) (e := ⟨[], []⟩)
    (q := fun _ => true) (by decide +kernel)
  exact ⟨image, e', hbuild, serialize_complete_iff unitSystem.host unitEmb familyManifest image hbuild
    familyManifest_whole⟩

/-- A child that has a child of its own, with a description. -/
def grandchildText : List UInt8 := ascii
  ("\x7b\"schema\":\"ipa.map.v1\",\"id\":\"m\",\"vendor\":\"v\",\"version\":\"1\",\"nodes\":[" ++
    "\x7b\"id\":\"n\",\"descriptions\":[\"d\"],\"children\":[" ++
      "\x7b\"id\":\"c\",\"descriptions\":[\"x\"],\"children\":[" ++
        "\x7b\"id\":\"g\",\"descriptions\":[\"y\"]\x7d]\x7d]\x7d]\x7d")

theorem build_not_complete : ∃ m e₁ image e',
    (@parseText ieee grandchildText).exec ⟨[], []⟩ = (.ok m, e₁) ∧
      (@build ieee unitSystem.host (some unitEmb) grandchildText).exec ⟨[], []⟩ =
        (.ok image, e') ∧
      ¬ Complete unitSystem.host unitEmb m image := by
  obtain ⟨m, e₁, hparse, h⟩ := exec_of_value? (x := @parseText ieee grandchildText) (e := ⟨[], []⟩)
    (q := fun m => ((@build ieee unitSystem.host (some unitEmb) grandchildText).value?
      ⟨[], []⟩).any fun image => decide
        (((FileHdr.read unitSystem.host.order image).childBlock unitSystem.host image).count <
          ((m.nodes.flatMap descendants).flatMap (describedAt unitEmb)).length))
    (by decide +kernel)
  obtain ⟨image, e', hbuild, hlt⟩ := exec_of_value? h
  refine ⟨m, e₁, image, e', hparse, hbuild, fun hcomplete => ?_⟩
  have hle := hcomplete.nestedDescriptions.length_le
  rw [EmbBlock.entries, List.length_map, List.length_map, List.length_range] at hle
  exact absurd (of_decide_eq_true hlt) (by omega)

end Ipa
