import Ipa.Runtime.Keeps
import Ipa.Schema.Accepted

/-!
# The tables of a compiled schema

What the loops over the metadata tables compute, in terms of the manifest that was compiled: the
emit pairs of all nodes of one id, whether one of them has children, and whether one of them
declares a child of an id. A row whose key is empty counts as a row without a pair.
-/

namespace Ipa

open Run

/-- The rows that a test picks stand for the slots that a function keeps. -/
theorem filter_map_of_forall₂ {α β γ : Type} {R : α → β → Prop} {q : α → Bool} {f : α → γ}
    {g : β → Option γ} {rows : List α} {slots : List β} (h : List.Forall₂ R rows slots)
    (hg : ∀ row slot, R row slot → g slot = if q row then some (f row) else none) :
    (rows.filter q).map f = slots.filterMap g := by
  induction h with
  | nil => rfl
  | @cons row slot rows slots hrow _ ih =>
    have hslot := hg row slot hrow
    cases hq : q row with
    | true =>
      rw [hq, if_pos rfl] at hslot
      rw [List.filter_cons_of_pos hq, List.map_cons, List.filterMap_cons_some hslot, ih]
    | false =>
      rw [hq, if_neg Bool.false_ne_true] at hslot
      rw [List.filter_cons_of_neg (by rw [hq]; exact Bool.false_ne_true),
        List.filterMap_cons_none hslot, ih]

theorem any_of_forall₂ {α β : Type} {R : α → β → Prop} {q : α → Bool} {g : β → Bool}
    {rows : List α} {slots : List β} (h : List.Forall₂ R rows slots)
    (hg : ∀ row slot, R row slot → q row = g slot) : rows.any q = slots.any g := by
  induction h with
  | nil => rfl
  | cons hrow _ ih => rw [List.any_cons, List.any_cons, hg _ _ hrow, ih]

/-! ## Emits in the manifest -/

/-- The pair has a key that is not empty. -/
def EmitDef.keyed (emit : EmitDef) : Bool := emit.key.any fun key => !key.bytes.isEmpty

/-- A pair as it is emitted for a span. -/
def EmitDef.emitted (span : CStr) (emit : EmitDef) : Emit :=
  ⟨emit.key, emit.value.map fun value => resolved value span⟩

/-- The nodes of an id. -/
def namesakes (nodes : List NodeDef) (id : CStr) : List NodeDef :=
  nodes.filter fun nd => nd.id == some id

/-- The pairs with a key of all the nodes of an id. -/
def keyedEmits (nodes : List NodeDef) (id : CStr) : List EmitDef :=
  (namesakes nodes id).flatMap fun nd => nd.emits.filter EmitDef.keyed

/-! ## Rows and slots -/

section Slots

variable {s : Schema}

theorem ReadsBack.textAt {off len : UInt32} {str : Option CStr}
    (h : ReadsBack s.mem s.strtab off len str) : str = some (s.textAt off) := by
  obtain ⟨t, rfl, hlies, -⟩ := h
  rw [Schema.textAt, hlies.read_eq]

theorem ReadsBack.textIs {off len : UInt32} {str : Option CStr}
    (h : ReadsBack s.mem s.strtab off len str) (text : CStr) :
    (s.textAt off == text) = (str == some text) := by
  rw [h.textAt]
  rfl

/-- The emit of a row is that of its slot. -/
theorem SlotReads.emit {keyOff keyLen valOff valLen : UInt32} {slot : Option EmitDef}
    (h : SlotReads s keyOff keyLen valOff valLen slot) (span : CStr) :
    (slot.filter EmitDef.keyed).map (EmitDef.emitted span) =
      if keyLen != 0 then some (s.emitAt keyOff valOff span) else none := by
  cases slot with
  | none =>
    rw [show keyLen = 0 from h]
    rfl
  | some emit =>
    obtain ⟨hkey, hval⟩ := h
    have hkeyed : emit.keyed = (keyLen != 0) := by
      obtain ⟨key, hsome, -, hlen⟩ := hkey
      rw [EmitDef.keyed, hsome]
      rw [Bool.eq_iff_iff]
      simp only [Option.any_some, Bool.not_eq_true', List.isEmpty_eq_false_iff, bne_iff_ne, ne_eq,
        ← UInt32.toNat_inj, hlen, UInt32.toNat_zero, CStr.strlen, List.length_eq_zero_iff]
    rw [Option.filter_some, hkeyed]
    split
    · simp only [Option.map_some, EmitDef.emitted, Schema.emitAt, hkey.textAt, hval.textAt]
    · rfl

end Slots

/-- The emits of the slots of a node, where it counts. -/
theorem filterMap_slots (nd : NodeDef) (span : CStr) (counts : Bool) :
    (emitSlots nd).filterMap (fun slot => if counts then
      (slot.filter EmitDef.keyed).map (EmitDef.emitted span) else none) =
        if counts then (nd.emits.filter EmitDef.keyed).map (EmitDef.emitted span) else [] := by
  cases counts with
  | false => simp
  | true =>
    simp only [if_true]
    unfold emitSlots
    split
    · rename_i hnil
      rw [List.isEmpty_iff.mp hnil]
      rfl
    · rw [List.filterMap_map]
      induction nd.emits with
      | nil => rfl
      | cons emit emits ih =>
        rw [List.filterMap_cons, List.filter_cons, ih]
        simp only [Function.comp_apply, Option.filter_some]
        cases emit.keyed <;> rfl

/-- What the nodes that pass a test hold. -/
theorem flatMap_filter_nodes {β : Type} (q : NodeDef → Bool) (f : NodeDef → List β)
    (nodes : List NodeDef) :
    (nodes.filter q).flatMap f = nodes.flatMap fun nd => if q nd then f nd else [] := by
  induction nodes with
  | nil => rfl
  | cons nd nodes ih =>
    rw [List.filter_cons, List.flatMap_cons, ← ih]
    cases q nd <;> rfl

/-! ## The node table -/

section Tables

variable [Arith] {sys : System} {emb : Emb} {m : Manifest} {s : Schema}

section Nodes

variable (h : NodesOf sys emb m s)

include h

/-- **The emits of an id** are the pairs with a key of all the nodes that have it. -/
theorem NodesOf.nodeEmits_eq (id span : CStr) :
    nodeEmits sys.host s id span = (keyedEmits m.nodes id).map (EmitDef.emitted span) := by
  have hrows := filter_map_of_forall₂
    (q := fun row => row.emitKeyLen != 0 && s.textAt row.nodeIdOff == id)
    (f := fun row => s.emitAt row.emitKeyOff row.emitValOff span)
    (g := fun x => if x.1.id == some id then
      (x.2.filter EmitDef.keyed).map (EmitDef.emitted span) else none) h.nodeRows
    fun row x hrow => by
      rw [hrow.slot.emit span, hrow.node.textIs id]
      cases row.emitKeyLen != 0 <;> cases x.1.id == some id <;> rfl
  have hrange : nodeEmits sys.host s id span = ((s.nodeRows sys.host).filter fun row =>
      row.emitKeyLen != 0 && s.textAt row.nodeIdOff == id).map fun row =>
        s.emitAt row.emitKeyOff row.emitValOff span := by
    rw [Schema.nodeRows, List.filter_map, List.map_map]
    rfl
  rw [hrange, hrows, keyedEmits, namesakes, List.filterMap_flatMap, List.map_flatMap,
    flatMap_filter_nodes]
  refine List.flatMap_congr fun nd _ => ?_
  rw [List.filterMap_map]
  refine (filterMap_slots nd span (nd.id == some id)).trans ?_
  cases nd.id == some id <;> rfl

theorem NodesOf.hasChildren_iff (id : CStr) :
    hasChildren sys.host s id = true ↔ ∃ nd ∈ m.nodes, nd.id = some id ∧ nd.children ≠ [] := by
  have hrows := any_of_forall₂ (q := fun row => s.textAt row.nodeIdOff == id && row.hasChildren != 0)
    (g := fun x => x.1.id == some id && !x.1.children.isEmpty) h.nodeRows fun row x hrow => by
      rw [hrow.node.textIs id, hrow.hasChildren]
      cases x.1.children <;> rfl
  have hrange : hasChildren sys.host s id = (s.nodeRows sys.host).any fun row =>
      s.textAt row.nodeIdOff == id && row.hasChildren != 0 := by
    rw [Schema.nodeRows, List.any_map]
    rfl
  rw [hrange, hrows, List.any_eq_true]
  constructor
  · rintro ⟨⟨nd, slot⟩, hmem, hx⟩
    obtain ⟨nd', hnd, hslot⟩ := List.mem_flatMap.mp hmem
    obtain ⟨_, -, heq⟩ := List.mem_map.mp hslot
    cases heq
    simp only [Bool.and_eq_true, beq_iff_eq, Bool.not_eq_true', List.isEmpty_eq_false_iff] at hx
    exact ⟨nd, hnd, hx⟩
  · rintro ⟨nd, hnd, hid, hchildren⟩
    obtain ⟨slot, hslot⟩ := List.exists_mem_of_ne_nil _ (emitSlots_ne_nil nd)
    refine ⟨(nd, slot), List.mem_flatMap.mpr ⟨nd, hnd, List.mem_map.mpr ⟨slot, hslot, rfl⟩⟩, ?_⟩
    simp [hid, hchildren]

end Nodes

/-! ## The child table -/

variable (h : SchemaOf sys emb m s)

include h

omit [Arith] h in
theorem ChildRowReads.named {row : ChildMeta} {x : (NodeDef × NodeDef) × Option EmitDef}
    (hrow : ChildRowReads s row x) (id parentId : CStr) :
    (s.textAt row.nodeIdOff == id && s.textAt row.parentIdOff == parentId) =
      (x.1.2.id == some id && x.1.1.id == some parentId) := by
  rw [hrow.node.textIs id, hrow.parent.textIs parentId]

theorem SchemaOf.isChildOf_iff (id parentId : CStr) :
    isChildOf sys.host s id parentId = true ↔
      ∃ nd ∈ m.nodes, nd.id = some parentId ∧ ∃ ch ∈ nd.children, ch.id = some id := by
  have hrows := any_of_forall₂
    (q := fun row => s.textAt row.nodeIdOff == id && s.textAt row.parentIdOff == parentId)
    (g := fun x => x.1.2.id == some id && x.1.1.id == some parentId) h.childRows
    fun row x hrow => hrow.named id parentId
  have hrange : isChildOf sys.host s id parentId = (s.childRows sys.host).any fun row =>
      s.textAt row.nodeIdOff == id && s.textAt row.parentIdOff == parentId := by
    rw [Schema.childRows, List.any_map]
    rfl
  rw [hrange, hrows, List.any_eq_true]
  constructor
  · rintro ⟨⟨⟨nd, ch⟩, slot⟩, hmem, hx⟩
    obtain ⟨nd', hnd, hch⟩ := List.mem_flatMap.mp hmem
    obtain ⟨ch', hch', hslot⟩ := List.mem_flatMap.mp hch
    obtain ⟨_, -, heq⟩ := List.mem_map.mp hslot
    cases heq
    simp only [Bool.and_eq_true, beq_iff_eq] at hx
    exact ⟨nd, hnd, hx.2, ch, hch', hx.1⟩
  · rintro ⟨nd, hnd, hparent, ch, hch, hid⟩
    obtain ⟨slot, hslot⟩ := List.exists_mem_of_ne_nil _ (emitSlots_ne_nil ch)
    refine ⟨((nd, ch), slot), List.mem_flatMap.mpr ⟨nd, hnd, List.mem_flatMap.mpr
      ⟨ch, hch, List.mem_map.mpr ⟨slot, hslot, rfl⟩⟩⟩, ?_⟩
    simp [hid, hparent]

/-- **The emits of a child** under a parent. -/
theorem SchemaOf.childEmits_eq (parentId id span : CStr) :
    childEmits sys.host s parentId id span =
      (keyedEmits ((namesakes m.nodes parentId).flatMap (·.children)) id).map
        (EmitDef.emitted span) := by
  have hrows := filter_map_of_forall₂
    (q := fun row => row.emitKeyLen != 0 &&
      (s.textAt row.nodeIdOff == id && s.textAt row.parentIdOff == parentId))
    (f := fun row => s.emitAt row.emitKeyOff row.emitValOff span)
    (g := fun x => if x.1.2.id == some id && x.1.1.id == some parentId then
      (x.2.filter EmitDef.keyed).map (EmitDef.emitted span) else none) h.childRows
    fun row x hrow => by
      rw [hrow.slot.emit span, hrow.named id parentId]
      cases row.emitKeyLen != 0 <;> cases x.1.2.id == some id && x.1.1.id == some parentId <;> rfl
  have hrange : childEmits sys.host s parentId id span = ((s.childRows sys.host).filter fun row =>
      row.emitKeyLen != 0 && (s.textAt row.nodeIdOff == id &&
        s.textAt row.parentIdOff == parentId)).map fun row =>
          s.emitAt row.emitKeyOff row.emitValOff span := by
    rw [Schema.childRows, List.filter_map, List.map_map]
    rfl
  rw [hrange, hrows, keyedEmits, namesakes, namesakes, flatMap_filter_nodes, flatMap_filter_nodes,
    List.filterMap_flatMap, List.flatMap_assoc, List.map_flatMap]
  refine List.flatMap_congr fun nd _ => ?_
  have hchild : ∀ ch : NodeDef, ((emitSlots ch).map ((nd, ch), ·)).filterMap
      (fun x => if x.1.2.id == some id && x.1.1.id == some parentId then
        (x.2.filter EmitDef.keyed).map (EmitDef.emitted span) else none) =
      if ch.id == some id && nd.id == some parentId then
        (ch.emits.filter EmitDef.keyed).map (EmitDef.emitted span) else [] := by
    intro ch
    rw [List.filterMap_map]
    exact filterMap_slots ch span (ch.id == some id && nd.id == some parentId)
  rw [List.filterMap_flatMap]
  simp only [hchild]
  cases nd.id == some parentId with
  | false => simp
  | true =>
    rw [if_pos rfl, List.map_flatMap]
    refine List.flatMap_congr fun ch _ => ?_
    rw [Bool.and_true]
    cases ch.id == some id <;> rfl

end Tables

/-! ## Compiled schemas -/

section Compiled

variable [Arith] {sys : System} {emb : Emb} {m : Manifest} {image : List UInt8} {s : Schema}
  {e e' e₀ e₁ : Env} (hbuild : (serialize sys.host sys.emb m).exec e = (.ok image, e'))
  (hopen : (openSchema sys image).exec e₀ = (.ok s, e₁))

include hbuild hopen

/-- What is opened from an image was opened from the parts of its manifest. -/
theorem openedFrom_parts :
    m.Valid ∧ ∃ p : Parts, p.Of s.emb m ∧ image = p.image sys.host.order s.emb m ∧
      p.size sys.host.order < sys.host.sizeMod ∧
        OpenedFrom sys (p.image sys.host.order s.emb m) (p.hdr sys.host.order s.emb m) s := by
  obtain ⟨hvalid, emb, hemb, p, hp, rfl, hhalf⟩ := serialize_ok hbuild
  rw [p.length_image] at hhalf
  have hmapped := Parts.size_lt hhalf
  obtain ⟨hdr, hcheck, hfrom⟩ := openSchema_from hopen
  rw [Parts.mapping_image hmapped, Parts.checkHeader_image] at hcheck
  cases hcheck
  rw [Parts.mapping_image hmapped] at hfrom
  obtain rfl : emb = s.emb := Option.some.inj (hemb.symm.trans hfrom.model)
  exact ⟨hvalid, p, hp, rfl, hmapped, hfrom⟩

/-- Where the header states the table of the nodes, that part is the manifest. -/
theorem nodesOf_of_whole (hemb : sys.emb = some emb) (hwhole : m.NodesWhole emb) :
    s.Searchable ∧ NodesOf sys emb m s := by
  obtain ⟨-, p, hp, -, hmapped, hfrom⟩ := openedFrom_parts hbuild hopen
  obtain rfl : emb = s.emb := Option.some.inj (hemb.symm.trans hfrom.model)
  exact ⟨hfrom.searchable, hp.nodesOf hmapped hwhole hfrom⟩

/-- **What is opened from the image of a manifest** is its schema, in any environment, where the
header states everything. -/
theorem schemaOf_of_whole (hemb : sys.emb = some emb) (hwhole : m.Whole emb) :
    m.Valid ∧ s.Searchable ∧ SchemaOf sys emb m s := by
  obtain ⟨hvalid, p, hp, -, hmapped, hfrom⟩ := openedFrom_parts hbuild hopen
  obtain rfl : emb = s.emb := Option.some.inj (hemb.symm.trans hfrom.model)
  exact ⟨hvalid, hfrom.searchable, hp.schemaOf hmapped hwhole hemb hfrom⟩

end Compiled

end Ipa
