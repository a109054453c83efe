import Ipa.Schema.Build
import Mathlib.Data.List.Forall2

/-!
# What the compiler writes

The passes walk the tree with nested loops. Here they are loops over flat lists: the descriptions
of the nodes, those of the children, the rows of the nodes, those of the children. A pass that
returns has written one reference, entry or row for each element of its list, in order; the
references are to strings of the table, at offsets truncated to 32 bits.

`X` collects what may end a run early. A `NULL` string is dereferenced only where an id, a key or
a value is missing, a buffer that cannot grow is needed only beyond half of the range of `size_t`.
-/

namespace Ipa

open Run

/-! ## The tree as lists -/

/-- A node, or one of its children. -/
abbrev Place := NodeDef × Option NodeDef

/-- The node at a place. -/
def Place.node (p : Place) : NodeDef := p.2.getD p.1

def childPlaces (nodes : List NodeDef) : List Place :=
  nodes.flatMap fun nd => nd.children.map fun ch => (nd, some ch)

def nodePlaces (nodes : List NodeDef) : List Place := nodes.map fun nd => (nd, none)

/-- What the nodes at some places hold, in order. -/
def atPlaces {β : Type} (g : NodeDef → List β) (places : List Place) : List (Place × β) :=
  places.flatMap fun p => (g p.node).map (p, ·)

/-- The descriptions at some places. -/
def descriptionsAt (places : List Place) : List (Place × Option CStr) :=
  atPlaces (·.descriptions) places

/-- The rows of some places. -/
def slotsAt (places : List Place) : List (Place × Option EmitDef) := atPlaces emitSlots places

/-- A node and its children, in the order of the passes that fill the string table. -/
def family (nd : NodeDef) : List Place := (nd, none) :: nd.children.map fun ch => (nd, some ch)

def allPlaces (nodes : List NodeDef) : List Place := nodes.flatMap family

theorem atPlaces_append {β : Type} (g : NodeDef → List β) (a b : List Place) :
    atPlaces g (a ++ b) = atPlaces g a ++ atPlaces g b :=
  List.flatMap_append

theorem filter_atPlaces {β : Type} (g : NodeDef → List β) (q : Place → Bool)
    (places : List Place) :
    (atPlaces g places).filter (fun x => q x.1) = atPlaces g (places.filter q) := by
  induction places with
  | nil => rfl
  | cons p places ih =>
    have hone : atPlaces g (p :: places) = (g p.node).map (p, ·) ++ atPlaces g places := rfl
    rw [hone, List.filter_append, ih, List.filter_cons, List.filter_map]
    cases hq : q p with
    | true => simp [Function.comp_def, hq, atPlaces]
    | false => simp [Function.comp_def, hq]

theorem filter_family_none (nd : NodeDef) :
    (family nd).filter (fun p => p.2.isNone) = [(nd, none)] := by
  simp [family, List.filter_map, Function.comp_def]

theorem filter_family_some (nd : NodeDef) :
    (family nd).filter (fun p => p.2.isSome) = nd.children.map fun ch => (nd, some ch) := by
  simp [family, List.filter_map, Function.comp_def]

theorem allPlaces_none (nodes : List NodeDef) :
    (allPlaces nodes).filter (fun p => p.2.isNone) = nodePlaces nodes := by
  rw [allPlaces, List.filter_flatMap]
  simp only [filter_family_none]
  exact List.map_eq_flatMap.symm

theorem allPlaces_some (nodes : List NodeDef) :
    (allPlaces nodes).filter (fun p => p.2.isSome) = childPlaces nodes := by
  rw [allPlaces, List.filter_flatMap]
  simp only [filter_family_some]
  rfl

theorem atPlaces_none {β : Type} (g : NodeDef → List β) (nodes : List NodeDef) :
    (atPlaces g (allPlaces nodes)).filter (fun x => x.1.2.isNone) =
      atPlaces g (nodePlaces nodes) := by
  rw [filter_atPlaces g fun p => p.2.isNone, allPlaces_none]

theorem atPlaces_some {β : Type} (g : NodeDef → List β) (nodes : List NodeDef) :
    (atPlaces g (allPlaces nodes)).filter (fun x => x.1.2.isSome) =
      atPlaces g (childPlaces nodes) := by
  rw [filter_atPlaces g fun p => p.2.isSome, allPlaces_some]

/-! ## The string table -/

/-- The strings as they stand in the table. -/
def tabBytes (strs : List (Option CStr)) : List UInt8 :=
  strs.flatMap fun s => (s.getD CStr.empty).bytes ++ [0]

/-- The strings that a label of a description adds. -/
def labelStrings : Place → List (Option CStr)
  | (nd, none) => [nd.id]
  | (nd, some ch) => [ch.id, nd.id]

def emitStrings : Option EmitDef → List (Option CStr)
  | none => []
  | some emit => [emit.key, emit.value]

/-- The strings that a row adds. -/
def rowStrings : Place → List (Option CStr)
  | (nd, none) => [nd.id]
  | (nd, some ch) => [nd.id, ch.id]

/-- The strings that one row adds. -/
def slotStrings (x : Place × Option EmitDef) : List (Option CStr) :=
  rowStrings x.1 ++ emitStrings x.2

/-- The strings that the passes put into the string table. -/
def tableStrings (m : Manifest) : List (Option CStr) :=
  [orEmpty m.id, orEmpty m.vendor, orEmpty m.version] ++
    (descriptionsAt (allPlaces m.nodes)).flatMap (fun x => labelStrings x.1) ++
    (slotsAt (allPlaces m.nodes)).flatMap slotStrings

/-- A reference to a string of the table; the offset and the length are truncated. -/
def Refers (tab : List UInt8) (ref : StrRef) (str : Option CStr) : Prop :=
  ∃ s off, str = some s ∧ CStr.Lies tab off s ∧
    ref = ⟨UInt32.ofNat off, UInt32.ofNat s.strlen⟩

theorem Refers.append {tab : List UInt8} {ref : StrRef} {str : Option CStr}
    (h : Refers tab ref str) (tail : List UInt8) : Refers (tab ++ tail) ref str := by
  obtain ⟨s, off, hstr, hlies, href⟩ := h
  exact ⟨s, off, hstr, hlies.append tail, href⟩

theorem tabBytes_append (a b : List (Option CStr)) : tabBytes (a ++ b) = tabBytes a ++ tabBytes b :=
  List.flatMap_append

theorem tabBytes_cons (s : Option CStr) (strs : List (Option CStr)) :
    tabBytes (s :: strs) = tabBytes [s] ++ tabBytes strs := by
  simp [tabBytes]

section Passes

variable {host : Host} {I : Env → Prop} {X : Stop BuildError → Prop}
  [Serves I X BuildError.noMemory]

theorem strtabAdd_keeps {st : Buffer} {str : Option CStr} (hnull : str = none → X (.fault .null))
    (hroom : Buffer.Roomy host X st (tabBytes [str]).length) :
    Keeps I X (strtabAdd host st str) fun r =>
      Refers r.2.data r.1 str ∧ r.2.data = st.data ++ tabBytes [str] ∧
        (st.Sound host → r.2.Sound host) := by
  unfold strtabAdd
  refine Keeps.bind (Keeps.deref hnull fun s hs => hs) fun s hs => ?_
  subst hs
  have hbytes : tabBytes [some s] = s.bytes ++ [0] := by simp [tabBytes]
  rw [hbytes] at hroom ⊢
  refine Keeps.bind (Buffer.append_keeps hroom) ?_
  rintro st' ⟨hdata, hsound⟩
  refine Keeps.pure ⟨⟨s, st.data.length, rfl, ?_, rfl⟩, hdata, hsound⟩
  show CStr.Lies st'.data st.data.length s
  rw [hdata, ← List.append_assoc]
  exact CStr.lies_end st.data s

/-! ## The labels -/

/-- The label of one description at a place. -/
def labelPlace (host : Host) : Place → Labels → Run BuildError Labels
  | (nd, none), st => labelDescription host nd st
  | (nd, some ch), st => labelChildDescription host nd ch st

theorem labelPass_eq (nodes : List NodeDef) (st : Labels) :
    nodes.foldlM (labelNode host) st =
      (descriptionsAt (allPlaces nodes)).foldlM (fun st x => labelPlace host x.1 st) st := by
  rw [descriptionsAt, atPlaces, foldlM_flatMap, allPlaces, foldlM_flatMap]
  refine congrArg (fun f => nodes.foldlM f st) (funext fun st => funext fun nd => ?_)
  simp only [family, List.foldlM_cons, List.foldlM_map, labelNode, labelPlace, Place.node,
    Option.getD_none, Option.getD_some]

/-- The state after the labels of the descriptions in `done`. -/
structure Labelled (host : Host) (tab : Buffer) (done : List (Place × Option CStr)) (st : Labels) :
    Prop where
  data : st.strtab.data = tab.data ++ tabBytes (done.flatMap fun x => labelStrings x.1)
  sound : tab.Sound host → st.strtab.Sound host
  node : List.Forall₂ (fun ref x => Refers st.strtab.data ref x.1.node.id) st.nodeEmbLabel
    (done.filter fun x => x.1.2.isNone)
  child : List.Forall₂ (fun ref x => Refers st.strtab.data ref x.1.node.id) st.childEmbLabel
    (done.filter fun x => x.1.2.isSome)

theorem forall₂_append_one {α β : Type} {R S : α → β → Prop} {l : List α} {r : List β} {a : α}
    {b : β} (h : List.Forall₂ R l r) (himp : ∀ a b, R a b → S a b) (hab : S a b) :
    List.Forall₂ S (l ++ [a]) (r ++ [b]) :=
  List.rel_append (h.imp himp) (.cons hab .nil)

theorem labelStrings_node (nd : NodeDef) : labelStrings (nd, none) = [nd.id] := rfl

theorem labelStrings_child (nd ch : NodeDef) : labelStrings (nd, some ch) = [ch.id, nd.id] := rfl

section Labelled

variable {tab strtab : Buffer} {done : List (Place × Option CStr)} {st : Labels} {nd ch : NodeDef}
  {description : Option CStr} {ref : StrRef} (h : Labelled host tab done st)
  (hsound : st.strtab.Sound host → strtab.Sound host)

include h hsound

theorem Labelled.addNode
    (hadd : strtab.data = st.strtab.data ++ tabBytes (labelStrings (nd, none)))
    (href : Refers strtab.data ref nd.id) :
    Labelled host tab (done ++ [((nd, none), description)])
      { st with strtab, nodeEmbLabel := st.nodeEmbLabel ++ [ref] } := by
  have hlater : ∀ r s, Refers st.strtab.data r s → Refers strtab.data r s := by
    intro r s hr
    rw [hadd]
    exact hr.append _
  refine ⟨?_, fun hs => hsound (h.sound hs), ?_, ?_⟩
  · show strtab.data = _
    rw [hadd, h.data, List.flatMap_append, tabBytes_append, List.append_assoc,
      List.flatMap_singleton]
  · rw [List.filter_append]
    exact forall₂_append_one h.node (fun r y hr => hlater r _ hr) href
  · rw [List.filter_append]
    simp only [Option.isSome_none, Bool.false_eq_true, not_false_eq_true,
      List.filter_cons_of_neg, List.filter_nil, List.append_nil]
    exact h.child.imp fun r y hr => hlater r _ hr

theorem Labelled.addChild {parent : StrRef}
    (hadd : strtab.data = st.strtab.data ++ tabBytes (labelStrings (nd, some ch)))
    (href : Refers strtab.data ref ch.id) :
    Labelled host tab (done ++ [((nd, some ch), description)])
      { st with
        strtab, childEmbLabel := st.childEmbLabel ++ [ref]
        childParentId := st.childParentId ++ [parent] } := by
  have hlater : ∀ r s, Refers st.strtab.data r s → Refers strtab.data r s := by
    intro r s hr
    rw [hadd]
    exact hr.append _
  refine ⟨?_, fun hs => hsound (h.sound hs), ?_, ?_⟩
  · show strtab.data = _
    rw [hadd, h.data, List.flatMap_append, tabBytes_append, List.append_assoc,
      List.flatMap_singleton]
  · rw [List.filter_append]
    simp only [Option.isNone_some, Bool.false_eq_true, not_false_eq_true,
      List.filter_cons_of_neg, List.filter_nil, List.append_nil]
    exact h.node.imp fun r y hr => hlater r _ hr
  · rw [List.filter_append]
    exact forall₂_append_one h.child (fun r y hr => hlater r _ hr) href

end Labelled

theorem labelPlace_keeps {tab : Buffer} {done rest : List (Place × Option CStr)}
    {x : Place × Option CStr} {st : Labels} (h : Labelled host tab done st)
    (hnull : ∀ s ∈ labelStrings x.1, s = none → X (.fault .null))
    (hroom : Buffer.Roomy host X tab
      (tabBytes ((done ++ x :: rest).flatMap fun x => labelStrings x.1)).length) :
    Keeps I X (labelPlace host x.1 st) (Labelled host tab (done ++ [x])) := by
  have hdata := congrArg List.length h.data
  rw [List.length_append] at hdata
  rw [List.flatMap_append, List.flatMap_cons, tabBytes_append, tabBytes_append] at hroom
  simp only [List.length_append] at hroom
  obtain ⟨⟨nd, ch⟩, description⟩ := x
  cases ch with
  | none =>
    rw [labelStrings_node] at hroom
    refine Keeps.bind (strtabAdd_keeps (hnull _ List.mem_cons_self)
      (hroom.mono h.sound (by omega))) ?_
    rintro ⟨ref, strtab⟩ ⟨href, hadd, hsound⟩
    exact Keeps.pure (h.addNode hsound hadd href)
  | some ch =>
    rw [labelStrings_child, tabBytes_cons, List.length_append] at hroom
    refine Keeps.bind (strtabAdd_keeps (hnull _ List.mem_cons_self)
      (hroom.mono h.sound (by omega))) ?_
    rintro ⟨ref, strtab⟩ ⟨href, hadd, hsound⟩
    have hadd' := congrArg List.length hadd
    rw [List.length_append] at hadd'
    refine Keeps.bind (strtabAdd_keeps (hnull _ (List.mem_cons_of_mem _ List.mem_cons_self))
      (hroom.mono (fun hs => hsound (h.sound hs)) (by simp only at *; omega))) ?_
    rintro ⟨parent, strtab'⟩ ⟨-, hadd₂, hsound₂⟩
    simp only at hadd₂ hadd
    refine Keeps.pure (h.addChild (fun hs => hsound₂ (hsound hs)) ?_ ?_)
    · rw [hadd₂, hadd, labelStrings_child, tabBytes_cons ch.id [nd.id], List.append_assoc]
    · rw [hadd₂]
      exact href.append _

theorem labelPass_keeps {nodes : List NodeDef} {tab : Buffer}
    (hnull : ∀ x ∈ descriptionsAt (allPlaces nodes), ∀ s ∈ labelStrings x.1,
      s = none → X (.fault .null))
    (hroom : Buffer.Roomy host X tab
      (tabBytes ((descriptionsAt (allPlaces nodes)).flatMap fun x => labelStrings x.1)).length) :
    Keeps I X (nodes.foldlM (labelNode host) ⟨tab, [], [], []⟩)
      (Labelled host tab (descriptionsAt (allPlaces nodes))) := by
  rw [labelPass_eq]
  refine Keeps.foldlM_split (Labelled host tab) ⟨by simp [tabBytes], id, .nil, .nil⟩ ?_
  intro done x rest st hsplit hst
  rw [hsplit] at hnull hroom
  exact labelPlace_keeps hst (hnull x (by simp)) hroom

/-! ## The rows -/

/-- The references of a key and a value; a row without an emit pair has none. -/
def SlotRefers (tab : List UInt8) (key val : StrRef) : Option EmitDef → Prop
  | none => key = ⟨0, 0⟩ ∧ val = ⟨0, 0⟩
  | some emit => Refers tab key emit.key ∧ Refers tab val emit.value

structure NodeRowFor (tab : List UInt8) (row : NodeMeta) (x : Place × Option EmitDef) : Prop where
  node : Refers tab ⟨row.nodeIdOff, row.nodeIdLen⟩ x.1.node.id
  slot : SlotRefers tab ⟨row.emitKeyOff, row.emitKeyLen⟩ ⟨row.emitValOff, row.emitValLen⟩ x.2
  hasChildren : row.hasChildren = if x.1.node.children.length > 0 then 1 else 0

structure ChildRowFor (tab : List UInt8) (row : ChildMeta) (x : Place × Option EmitDef) : Prop where
  parent : Refers tab ⟨row.parentIdOff, row.parentIdLen⟩ x.1.1.id
  node : Refers tab ⟨row.nodeIdOff, row.nodeIdLen⟩ x.1.node.id
  slot : SlotRefers tab ⟨row.emitKeyOff, row.emitKeyLen⟩ ⟨row.emitValOff, row.emitValLen⟩ x.2

theorem SlotRefers.append {tab : List UInt8} {key val : StrRef} {slot : Option EmitDef}
    (h : SlotRefers tab key val slot) (tail : List UInt8) :
    SlotRefers (tab ++ tail) key val slot := by
  cases slot with
  | none => exact h
  | some emit => exact ⟨h.1.append tail, h.2.append tail⟩

theorem NodeRowFor.append {tab : List UInt8} {row : NodeMeta} {x : Place × Option EmitDef}
    (h : NodeRowFor tab row x) (tail : List UInt8) : NodeRowFor (tab ++ tail) row x :=
  ⟨h.node.append tail, h.slot.append tail, h.hasChildren⟩

theorem ChildRowFor.append {tab : List UInt8} {row : ChildMeta} {x : Place × Option EmitDef}
    (h : ChildRowFor tab row x) (tail : List UInt8) : ChildRowFor (tab ++ tail) row x :=
  ⟨h.parent.append tail, h.node.append tail, h.slot.append tail⟩

theorem addEmit_keeps {st : Buffer} (slot : Option EmitDef)
    (hnull : ∀ s ∈ emitStrings slot, s = none → X (.fault .null))
    (hroom : Buffer.Roomy host X st (tabBytes (emitStrings slot)).length) :
    Keeps I X (addEmit host st slot) fun r =>
      SlotRefers r.2.2.data r.1 r.2.1 slot ∧ r.2.2.data = st.data ++ tabBytes (emitStrings slot) ∧
        (st.Sound host → r.2.2.Sound host) := by
  cases slot with
  | none => exact Keeps.pure ⟨⟨rfl, rfl⟩, by simp [emitStrings, tabBytes], id⟩
  | some emit =>
    have hstrings : emitStrings (some emit) = [emit.key, emit.value] := rfl
    rw [hstrings, tabBytes_cons emit.key [emit.value], List.length_append] at hroom
    refine Keeps.bind (strtabAdd_keeps (hnull _ List.mem_cons_self)
      (hroom.mono id (by omega))) ?_
    rintro ⟨key, st₁⟩ ⟨hkey, hadd₁, hsound₁⟩
    simp only at hkey hadd₁ hsound₁
    refine Keeps.bind (strtabAdd_keeps (hnull _ (List.mem_cons_of_mem _ List.mem_cons_self))
      (hroom.mono hsound₁ (by rw [hadd₁, List.length_append]; omega))) ?_
    rintro ⟨val, st₂⟩ ⟨hval, hadd₂, hsound₂⟩
    simp only at hval hadd₂ hsound₂
    refine Keeps.pure ⟨⟨?_, hval⟩, ?_, fun hs => hsound₂ (hsound₁ hs)⟩
    · simp only
      rw [hadd₂]
      exact hkey.append _
    · simp only
      rw [hadd₂, hadd₁, hstrings, tabBytes_cons emit.key [emit.value], List.append_assoc]

/-- One row at a place. -/
def addPlaceRow (host : Host) : Place → Metas → Option EmitDef → Run BuildError Metas
  | (nd, none), st, slot => addNodeRow host nd st slot
  | (nd, some ch), st, slot => addChildRow host nd ch st slot

theorem metaPass_eq (nodes : List NodeDef) (st : Metas) :
    nodes.foldlM (metaNode host) st =
      (slotsAt (allPlaces nodes)).foldlM (fun st x => addPlaceRow host x.1 st x.2) st := by
  rw [slotsAt, atPlaces, foldlM_flatMap, allPlaces, foldlM_flatMap]
  refine congrArg (fun f => nodes.foldlM f st) (funext fun st => funext fun nd => ?_)
  simp only [family, List.foldlM_cons, List.foldlM_map, metaNode, addPlaceRow, Place.node,
    Option.getD_none, Option.getD_some]

/-- The state after the rows in `done`. -/
structure Rowed (host : Host) (tab : Buffer) (done : List (Place × Option EmitDef)) (st : Metas) :
    Prop where
  data : st.strtab.data = tab.data ++ tabBytes (done.flatMap slotStrings)
  sound : tab.Sound host → st.strtab.Sound host
  node : List.Forall₂ (NodeRowFor st.strtab.data) st.nodeMeta (done.filter fun x => x.1.2.isNone)
  child : List.Forall₂ (ChildRowFor st.strtab.data) st.childMeta
    (done.filter fun x => x.1.2.isSome)

section Rowed

variable {tab strtab : Buffer} {done : List (Place × Option EmitDef)} {st : Metas} {nd ch : NodeDef}
  {slot : Option EmitDef} (h : Rowed host tab done st)
  (hsound : st.strtab.Sound host → strtab.Sound host)

include h hsound

theorem Rowed.addNode {row : NodeMeta}
    (hadd : strtab.data = st.strtab.data ++ tabBytes (slotStrings ((nd, none), slot)))
    (hrow : NodeRowFor strtab.data row ((nd, none), slot)) :
    Rowed host tab (done ++ [((nd, none), slot)])
      { st with strtab, nodeMeta := st.nodeMeta ++ [row] } := by
  refine ⟨?_, fun hs => hsound (h.sound hs), ?_, ?_⟩
  · show strtab.data = _
    rw [hadd, h.data, List.flatMap_append, tabBytes_append, List.append_assoc,
      List.flatMap_singleton]
  · rw [List.filter_append]
    refine forall₂_append_one h.node (fun r y hr => ?_) hrow
    show NodeRowFor strtab.data r y
    rw [hadd]
    exact hr.append _
  · rw [List.filter_append]
    simp only [Option.isSome_none, Bool.false_eq_true, not_false_eq_true,
      List.filter_cons_of_neg, List.filter_nil, List.append_nil]
    refine h.child.imp fun r y hr => ?_
    show ChildRowFor strtab.data r y
    rw [hadd]
    exact hr.append _

theorem Rowed.addChild {row : ChildMeta}
    (hadd : strtab.data = st.strtab.data ++ tabBytes (slotStrings ((nd, some ch), slot)))
    (hrow : ChildRowFor strtab.data row ((nd, some ch), slot)) :
    Rowed host tab (done ++ [((nd, some ch), slot)])
      { st with strtab, childMeta := st.childMeta ++ [row] } := by
  refine ⟨?_, fun hs => hsound (h.sound hs), ?_, ?_⟩
  · show strtab.data = _
    rw [hadd, h.data, List.flatMap_append, tabBytes_append, List.append_assoc,
      List.flatMap_singleton]
  · rw [List.filter_append]
    simp only [Option.isNone_some, Bool.false_eq_true, not_false_eq_true,
      List.filter_cons_of_neg, List.filter_nil, List.append_nil]
    refine h.node.imp fun r y hr => ?_
    show NodeRowFor strtab.data r y
    rw [hadd]
    exact hr.append _
  · rw [List.filter_append]
    refine forall₂_append_one h.child (fun r y hr => ?_) hrow
    show ChildRowFor strtab.data r y
    rw [hadd]
    exact hr.append _

end Rowed

theorem addPlaceRow_keeps {tab : Buffer} {done rest : List (Place × Option EmitDef)}
    {x : Place × Option EmitDef} {st : Metas} (h : Rowed host tab done st)
    (hnull : ∀ s ∈ slotStrings x, s = none → X (.fault .null))
    (hroom : Buffer.Roomy host X tab
      (tabBytes ((done ++ x :: rest).flatMap slotStrings)).length) :
    Keeps I X (addPlaceRow host x.1 st x.2) (Rowed host tab (done ++ [x])) := by
  have hdata := congrArg List.length h.data
  rw [List.length_append] at hdata
  rw [List.flatMap_append, List.flatMap_cons, tabBytes_append, tabBytes_append] at hroom
  simp only [List.length_append] at hroom
  obtain ⟨⟨nd, ch⟩, slot⟩ := x
  cases ch with
  | none =>
    have hstrings : slotStrings ((nd, none), slot) = nd.id :: emitStrings slot := rfl
    rw [hstrings] at hroom hnull
    rw [tabBytes_cons, List.length_append] at hroom
    refine Keeps.bind (strtabAdd_keeps (hnull _ List.mem_cons_self)
      (hroom.mono h.sound (by omega))) ?_
    rintro ⟨nid, strtab₁⟩ ⟨hnid, hadd₁, hsound₁⟩
    simp only at hnid hadd₁ hsound₁
    refine Keeps.bind (addEmit_keeps slot (fun s hs => hnull s (List.mem_cons_of_mem _ hs))
      (hroom.mono (fun hs => hsound₁ (h.sound hs))
        (by rw [hadd₁, List.length_append]; omega))) ?_
    rintro ⟨key, val, strtab₂⟩ ⟨hslot, hadd₂, hsound₂⟩
    simp only at hslot hadd₂ hsound₂
    refine Keeps.pure (h.addNode (fun hs => hsound₂ (hsound₁ hs)) ?_ ⟨?_, hslot, rfl⟩)
    · rw [hadd₂, hadd₁, hstrings, tabBytes_cons nd.id (emitStrings slot), List.append_assoc]
    · rw [hadd₂]
      exact hnid.append _
  | some ch =>
    have hstrings : slotStrings ((nd, some ch), slot) = nd.id :: ch.id :: emitStrings slot := rfl
    rw [hstrings] at hroom hnull
    rw [tabBytes_cons nd.id, tabBytes_cons ch.id, List.length_append, List.length_append] at hroom
    refine Keeps.bind (strtabAdd_keeps (hnull _ List.mem_cons_self)
      (hroom.mono h.sound (by omega))) ?_
    rintro ⟨pid, strtab₁⟩ ⟨hpid, hadd₁, hsound₁⟩
    simp only at hpid hadd₁ hsound₁
    refine Keeps.bind (strtabAdd_keeps (hnull _ (List.mem_cons_of_mem _ List.mem_cons_self))
      (hroom.mono (fun hs => hsound₁ (h.sound hs))
        (by rw [hadd₁, List.length_append]; omega))) ?_
    rintro ⟨cid, strtab₂⟩ ⟨hcid, hadd₂, hsound₂⟩
    simp only at hcid hadd₂ hsound₂
    refine Keeps.bind (addEmit_keeps slot
      (fun s hs => hnull s (List.mem_cons_of_mem _ (List.mem_cons_of_mem _ hs)))
      (hroom.mono (fun hs => hsound₂ (hsound₁ (h.sound hs)))
        (by rw [hadd₂, hadd₁, List.length_append, List.length_append]; omega))) ?_
    rintro ⟨key, val, strtab₃⟩ ⟨hslot, hadd₃, hsound₃⟩
    simp only at hslot hadd₃ hsound₃
    refine Keeps.pure (h.addChild (fun hs => hsound₃ (hsound₂ (hsound₁ hs))) ?_ ⟨?_, ?_, hslot⟩)
    · rw [hadd₃, hadd₂, hadd₁, hstrings, tabBytes_cons nd.id (ch.id :: emitStrings slot),
        tabBytes_cons ch.id (emitStrings slot)]
      simp only [List.append_assoc]
    · rw [hadd₃, hadd₂]
      exact (hpid.append _).append _
    · rw [hadd₃]
      exact hcid.append _

theorem metaPass_keeps {nodes : List NodeDef} {tab : Buffer}
    (hnull : ∀ x ∈ slotsAt (allPlaces nodes), ∀ s ∈ slotStrings x, s = none → X (.fault .null))
    (hroom : Buffer.Roomy host X tab
      (tabBytes ((slotsAt (allPlaces nodes)).flatMap slotStrings)).length) :
    Keeps I X (nodes.foldlM (metaNode host) ⟨tab, [], []⟩)
      (Rowed host tab (slotsAt (allPlaces nodes))) := by
  rw [metaPass_eq]
  refine Keeps.foldlM_split (Rowed host tab) ⟨by simp [tabBytes], id, .nil, .nil⟩ ?_
  intro done x rest st hsplit hst
  rw [hsplit] at hnull hroom
  exact addPlaceRow_keeps hst (hnull x (by simp)) hroom

end Passes

end Ipa
