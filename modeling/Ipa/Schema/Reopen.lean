import Ipa.Schema.RoundTrip
import Ipa.Runtime.Parse

/-!
# The schema of a manifest

`SchemaOf` says that an open schema is a manifest: which entries its indexes received, which rows
its tables hold as the runtime reads them, and the three numbers. The image that the compiler
wrote for a manifest opens to its schema unless a child that has descriptions has no name, and
then it does not open.
-/

namespace Ipa

open Run

/-! ## What a schema holds -/

/-- The ids and the embeddings of the descriptions of some nodes, in order. -/
def described (emb : Emb) (nodes : List NodeDef) :
    List (Option CStr × Option (List Binary32)) :=
  nodes.flatMap fun nd => nd.descriptions.map fun description => (nd.id, description.bind emb.exec)

/-- The children of the nodes. -/
def childNodes (nodes : List NodeDef) : List NodeDef := nodes.flatMap (·.children)

/-- The emit pair of a row; a row without one has a key of length 0. -/
def SlotReads (s : Schema) (keyOff keyLen valOff valLen : UInt32) : Option EmitDef → Prop
  | none => keyLen = 0
  | some emit => ReadsBack s.mem s.strtab keyOff keyLen emit.key ∧
      ReadsBack s.mem s.strtab valOff valLen emit.value

structure NodeRowReads (s : Schema) (row : NodeMeta) (x : NodeDef × Option EmitDef) : Prop where
  node : ReadsBack s.mem s.strtab row.nodeIdOff row.nodeIdLen x.1.id
  slot : SlotReads s row.emitKeyOff row.emitKeyLen row.emitValOff row.emitValLen x.2
  hasChildren : row.hasChildren = if x.1.children = [] then 0 else 1

structure ChildRowReads (s : Schema) (row : ChildMeta) (x : (NodeDef × NodeDef) × Option EmitDef) :
    Prop where
  parent : ReadsBack s.mem s.strtab row.parentIdOff row.parentIdLen x.1.1.id
  node : ReadsBack s.mem s.strtab row.nodeIdOff row.nodeIdLen x.1.2.id
  slot : SlotReads s row.emitKeyOff row.emitKeyLen row.emitValOff row.emitValLen x.2

/-- The blocks of entries that the header of the file of a schema states. -/
def Schema.nodeBlock (host : Host) (s : Schema) : EmbBlock :=
  (FileHdr.read host.order s.mem).nodeBlock host s.mem

def Schema.childBlock (host : Host) (s : Schema) : EmbBlock :=
  (FileHdr.read host.order s.mem).childBlock host s.mem

/-- The rows of the tables of a file. -/
def FileHdr.nodeRows (hdr : FileHdr) (o : ByteOrder) (mem : List UInt8) : List NodeMeta :=
  (List.range hdr.nodeMetaCount.toNat).map fun i =>
    NodeMeta.read o mem (hdr.nodeMetaOff.toNat + nodeMetaSize * i)

def FileHdr.childRows (hdr : FileHdr) (o : ByteOrder) (mem : List UInt8) : List ChildMeta :=
  (List.range hdr.childMetaCount.toNat).map fun i =>
    ChildMeta.read o mem (hdr.childMetaOff.toNat + childMetaSize * i)

/-- The rows as the runtime reads them. -/
def Schema.nodeRows (host : Host) (s : Schema) : List NodeMeta :=
  (List.range s.index.nodeMetaCount).map (nodeMetaAt host s)

def Schema.childRows (host : Host) (s : Schema) : List ChildMeta :=
  (List.range s.index.childMetaCount).map (childMetaAt host s)

/-! ## Rows -/

theorem SlotRefers.reads {s : Schema} {tab : List UInt8} {key val : StrRef} {slot : Option EmitDef}
    (h : SlotRefers tab key val slot) (htab : TabAt s.mem s.strtab tab) :
    SlotReads s key.off key.len val.off val.len slot := by
  cases slot with
  | none =>
    obtain ⟨rfl, rfl⟩ := h
    rfl
  | some emit => exact ⟨(h.1.readsBack htab).1, (h.2.readsBack htab).1⟩

/-- The rows that stand in a table, read one after the other. -/
theorem read_rows {α : Type} {o : ByteOrder} {mem : List UInt8} {off size : Nat}
    {read : Nat → α} {words : α → List UInt32} {rows : List α}
    (hread : ∀ off row rest, mem.drop off = o.encode (words row) ++ rest → read off = row)
    (hsize : ∀ row, (o.encode (words row)).length = size)
    (hbytes : ∃ rest, mem.drop off = rowsBytes o (rows.map words) ++ rest) :
    (List.range rows.length).map (fun i => read (off + size * i)) = rows := by
  obtain ⟨rest, hrest⟩ := hbytes
  have hsizes : ∀ ws ∈ rows.map words, (o.encode ws).length = size := by
    intro ws hws
    obtain ⟨row, -, rfl⟩ := List.mem_map.mp hws
    exact hsize row
  apply List.ext_getElem
  · simp
  · intro i hi hi'
    have hlen : i * size ≤ (rowsBytes o (rows.map words)).length := by
      rw [rowsBytes, length_flatMap_const hsizes, List.length_map]
      exact Nat.mul_le_mul_right _ (Nat.le_of_lt hi')
    rw [List.getElem_map, List.getElem_range]
    refine hread _ _ (((rows.map words).drop (i + 1)).flatMap o.encode ++ rest) ?_
    rw [← List.drop_drop, hrest, Nat.mul_comm, List.drop_append_of_le_length hlen, rowsBytes,
      drop_record hsizes (a := words rows[i]) (by simp [hi']), List.append_assoc]

/-! ## Places and nodes -/

theorem descriptionsAt_map (emb : Emb) (places : List Place) :
    (descriptionsAt places).map (fun x => (x.1.node.id, x.2.bind emb.exec)) =
      described emb (places.map Place.node) := by
  rw [descriptionsAt, atPlaces, described, List.map_flatMap, List.flatMap_map]
  simp only [List.map_map, Function.comp_def]

theorem nodePlaces_node (nodes : List NodeDef) : (nodePlaces nodes).map Place.node = nodes := by
  rw [nodePlaces, List.map_map]
  exact List.map_id' nodes

theorem childPlaces_node (nodes : List NodeDef) :
    (childPlaces nodes).map Place.node = childNodes nodes := by
  rw [childPlaces, childNodes, List.map_flatMap]
  refine congrArg (fun f => List.flatMap f nodes) (funext fun nd => ?_)
  rw [List.map_map]
  exact List.map_id' nd.children

theorem slotsAt_nodePlaces (nodes : List NodeDef) :
    (slotsAt (nodePlaces nodes)).map (fun x => (x.1.1, x.2)) =
      nodes.flatMap fun nd => (emitSlots nd).map (nd, ·) := by
  rw [slotsAt, atPlaces, nodePlaces, List.map_flatMap, List.flatMap_map]
  simp only [List.map_map, Function.comp_def, Place.node, Option.getD_none]

theorem slotsAt_childPlaces (nodes : List NodeDef) :
    (slotsAt (childPlaces nodes)).map (fun x => ((x.1.1, x.1.node), x.2)) =
      nodes.flatMap fun nd => nd.children.flatMap fun ch => (emitSlots ch).map ((nd, ch), ·) := by
  rw [slotsAt, atPlaces, childPlaces, List.map_flatMap, List.flatMap_assoc]
  simp only [List.flatMap_map, List.map_map, Function.comp_def, Place.node, Option.getD_some]

theorem mem_slotsAt_nodePlaces {nodes : List NodeDef} {x : Place × Option EmitDef}
    (hx : x ∈ slotsAt (nodePlaces nodes)) : x.1.node = x.1.1 := by
  obtain ⟨p, hp, hx⟩ := List.mem_flatMap.mp hx
  obtain ⟨slot, -, rfl⟩ := List.mem_map.mp hx
  obtain ⟨nd, -, rfl⟩ := List.mem_map.mp hp
  rfl

theorem mem_descriptionsAt_nodePlaces {nodes : List NodeDef} {x : Place × Option CStr}
    (hx : x ∈ descriptionsAt (nodePlaces nodes)) :
    ∃ nd ∈ nodes, x.1.node = nd ∧ x.2 ∈ nd.descriptions := by
  obtain ⟨p, hp, hx⟩ := List.mem_flatMap.mp hx
  obtain ⟨description, hdesc, rfl⟩ := List.mem_map.mp hx
  obtain ⟨nd, hnd, rfl⟩ := List.mem_map.mp hp
  exact ⟨nd, hnd, rfl, hdesc⟩

theorem forall_childDescriptions {nodes : List NodeDef} {q : NodeDef → Prop} :
    (∀ x ∈ descriptionsAt (childPlaces nodes), q x.1.node) ↔
      ∀ ch ∈ childNodes nodes, ch.descriptions ≠ [] → q ch := by
  constructor
  · intro h ch hch hdesc
    obtain ⟨nd, hnd, hch⟩ := List.mem_flatMap.mp hch
    obtain ⟨description, hmem⟩ := List.exists_mem_of_ne_nil _ hdesc
    exact h ((nd, some ch), description) (List.mem_flatMap.mpr ⟨(nd, some ch),
      List.mem_flatMap.mpr ⟨nd, hnd, List.mem_map_of_mem hch⟩, List.mem_map_of_mem hmem⟩)
  · intro h x hx
    obtain ⟨p, hp, hx⟩ := List.mem_flatMap.mp hx
    obtain ⟨description, hdesc, rfl⟩ := List.mem_map.mp hx
    obtain ⟨nd, hnd, hp⟩ := List.mem_flatMap.mp hp
    obtain ⟨ch, hch, rfl⟩ := List.mem_map.mp hp
    exact h ch (List.mem_flatMap.mpr ⟨nd, hnd, hch⟩) (List.ne_nil_of_mem hdesc)

namespace Parts

variable {host : Host} {emb : Emb} {m : Manifest} {p : Parts} (hp : p.Of emb m)

include hp

theorem Of.nodeRows_eq (hwhole : m.NodesWhole emb) : (p.hdr host.order emb m).nodeRows host.order
    (p.image host.order emb m) = p.nodeRows := by
  have hcount : (p.hdr host.order emb m).nodeMetaCount.toNat = p.nodeRows.length :=
    toNat_of_lt (hp.nodeRows.length_eq ▸ hwhole.nodeRows)
  have hoff : (p.hdr host.order emb m).nodeMetaOff.toNat = p.nodeMetaOff host.order :=
    toNat_of_lt (hp.nodeMetaOff_eq ▸ hwhole.nodeTable)
  rw [FileHdr.nodeRows, hcount, hoff]
  have hsize : ∀ row : NodeMeta, (host.order.encode row.words).length = nodeMetaSize := fun row => by
    simp [NodeMeta.words, nodeMetaSize]
  exact read_rows (fun off row rest hdrop => NodeMeta.read_of_drop hdrop) hsize ⟨_, drop_nodeMeta⟩

theorem Of.childRows_eq (hwhole : m.Whole emb) : (p.hdr host.order emb m).childRows host.order
    (p.image host.order emb m) = p.childRows := by
  have hlen := hp.childRows.length_eq
  have hcount : (p.hdr host.order emb m).childMetaCount.toNat = p.childRows.length :=
    toNat_of_lt (hlen ▸ hwhole.childRows)
  rw [FileHdr.childRows, hcount]
  by_cases hnone : p.childRows = []
  · rw [hnone]
    rfl
  have hoff : (p.hdr host.order emb m).childMetaOff.toNat = p.childMetaOff host.order :=
    toNat_of_lt (hp.childMetaOff_eq ▸ hwhole.childTable (hlen ▸ List.length_pos_iff.mpr hnone))
  rw [hoff]
  have hsize : ∀ row : ChildMeta, (host.order.encode row.words).length = childMetaSize :=
    fun row => by simp [ChildMeta.words, childMetaSize]
  refine read_rows (fun off row rest hdrop => ChildMeta.read_of_drop hdrop) hsize ⟨[], ?_⟩
  rw [drop_childMeta, List.append_nil]
  rfl

end Parts

/-! ## The schema of a manifest -/

section Schema

variable [Arith]

/-- The index received these entries in this order, and was built from them. -/
def EmbBlock.Received (b : EmbBlock) (efSearch : Option Int) (seed : UInt64) (hnsw : Hnsw.Index)
    (entries : List (Option CStr × Option (List Binary32))) : Prop :=
  ∃ filled, b.BuiltInto efSearch seed hnsw filled ∧
    filled.items.map (fun item => (some item.id, some item.values)) = entries

/-- The nodes of an open schema are those of the manifest. -/
structure NodesOf (sys : System) (emb : Emb) (m : Manifest) (s : Schema) : Prop where
  nodeIndex : (s.nodeBlock sys.host).Received sys.efSearch sys.nodeSeed s.index.nodeHnsw
    (described emb m.nodes)
  nodeRows : List.Forall₂ (NodeRowReads s) (s.nodeRows sys.host)
    (m.nodes.flatMap fun nd => (emitSlots nd).map (nd, ·))

/-- An open schema is the manifest. -/
structure SchemaOf (sys : System) (emb : Emb) (m : Manifest) (s : Schema) : Prop
    extends NodesOf sys emb m s where
  model : s.emb = emb
  childIndex : (∃ hnsw, s.index.childHnsw = some hnsw ∧ (s.childBlock sys.host).Received
      sys.efSearch sys.childSeed hnsw (described emb (childNodes m.nodes))) ∨
    (s.index.childHnsw = none ∧ described emb (childNodes m.nodes) = [])
  childRows : List.Forall₂ (ChildRowReads s) (s.childRows sys.host)
    (m.nodes.flatMap fun nd => nd.children.flatMap fun ch => (emitSlots ch).map ((nd, ch), ·))
  nodeThreshold : s.nodeThreshold = m.nodeThreshold
  minNgram : s.minNgram = m.minNgram
  maxNgram : s.maxNgram = m.maxNgram

section Opened

variable {sys : System} {mem : List UInt8} {hdr : FileHdr} {s : Schema}
  (h : OpenedFrom sys mem hdr s)

include h

/-- The runtime reads the rows of the file. -/
theorem OpenedFrom.nodeMetaAt_eq {i : Nat} (hi : i < hdr.nodeMetaCount.toNat) :
    nodeMetaAt sys.host s i =
      NodeMeta.read sys.host.order mem (hdr.nodeMetaOff.toNat + nodeMetaSize * i) := by
  rw [nodeMetaAt, h.mapped, h.nodeMeta (count_pos hi)]

theorem OpenedFrom.childMetaAt_eq {i : Nat} (hi : i < hdr.childMetaCount.toNat) :
    childMetaAt sys.host s i =
      ChildMeta.read sys.host.order mem (hdr.childMetaOff.toNat + childMetaSize * i) := by
  rw [childMetaAt, h.mapped, h.childMeta (count_pos hi)]

theorem OpenedFrom.nodeRows_eq : s.nodeRows sys.host = hdr.nodeRows sys.host.order mem := by
  rw [Schema.nodeRows, FileHdr.nodeRows, h.nodeMetaCount]
  exact List.map_congr_left fun i hi => h.nodeMetaAt_eq (List.mem_range.mp hi)

theorem OpenedFrom.childRows_eq : s.childRows sys.host = hdr.childRows sys.host.order mem := by
  rw [Schema.childRows, FileHdr.childRows, h.childMetaCount]
  exact List.map_congr_left fun i hi => h.childMetaAt_eq (List.mem_range.mp hi)

end Opened

/-! ## The image of a manifest -/

namespace Parts

variable {sys : System} {emb : Emb} {m : Manifest} {p : Parts}
  (hp : p.Of emb m) (hmapped : p.size sys.host.order < sys.host.sizeMod)

include hp hmapped

/-- The part of the nodes that was opened from the image of a manifest. -/
theorem Of.nodesOf {s : Schema} (hwhole : m.NodesWhole emb)
    (h : OpenedFrom sys (p.image sys.host.order emb m) (p.hdr sys.host.order emb m) s) :
    NodesOf sys emb m s := by
  have htab := hp.tabAt sys.host hwhole.entries.strings
  have htab' : TabAt s.mem s.strtab p.tab := by
    rw [h.mapped, h.strtab]
    exact htab
  have hread : FileHdr.read sys.host.order s.mem = p.hdr sys.host.order emb m := by
    rw [h.mapped]
    exact FileHdr.read_encode _ _ _
  constructor
  · obtain ⟨filled, hfilled⟩ := h.nodeIndex
    rw [Schema.nodeBlock, hread, h.mapped]
    refine ⟨filled, hfilled, ?_⟩
    rw [hfilled.fills.items, EmbBlock.items_entries,
      (hp.nodeStored hmapped hwhole).entries_eq htab hp.nodeLabels hp.nodeVecs,
      descriptionsAt_map, nodePlaces_node]
  · rw [h.nodeRows_eq, hp.nodeRows_eq hwhole, ← slotsAt_nodePlaces, List.forall₂_map_right_iff]
    refine List.forall₂_iff_get.mpr ⟨hp.nodeRows.length_eq, fun i hi hi' => ?_⟩
    have hrow := hp.nodeRows.get hi hi'
    have hnode := mem_slotsAt_nodePlaces (List.get_mem _ ⟨i, hi'⟩)
    refine ⟨?_, hrow.slot.reads htab', ?_⟩
    · rw [← hnode]
      exact (hrow.node.readsBack htab').1
    · rw [hrow.hasChildren, hnode]
      generalize ((slotsAt (nodePlaces m.nodes)).get ⟨i, hi'⟩).1.1.children = children
      cases children <;> simp

/-- What was opened from the image of a manifest is its schema. -/
theorem Of.schemaOf {s : Schema} (hwhole : m.Whole emb) (hemb : sys.emb = some emb)
    (h : OpenedFrom sys (p.image sys.host.order emb m) (p.hdr sys.host.order emb m) s) :
    SchemaOf sys emb m s := by
  have htab := hp.tabAt sys.host hwhole.entries.strings
  have htab' : TabAt s.mem s.strtab p.tab := by
    rw [h.mapped, h.strtab]
    exact htab
  have hread : FileHdr.read sys.host.order s.mem = p.hdr sys.host.order emb m := by
    rw [h.mapped]
    exact FileHdr.read_encode _ _ _
  refine ⟨hp.nodesOf hmapped hwhole.toNodesWhole h, ?_, ?_, ?_, h.nodeThreshold, ?_, ?_⟩
  · exact Option.some.inj (h.model.symm.trans hemb)
  · by_cases hcount : 0 < (p.hdr sys.host.order emb m).childEmbCount
    · obtain ⟨hnsw, hsome, filled, hfilled⟩ := h.childIndex hcount
      rw [Schema.childBlock, hread, h.mapped]
      refine .inl ⟨hnsw, hsome, filled, hfilled, ?_⟩
      rw [hfilled.fills.items, EmbBlock.items_entries,
        (hp.childStored hmapped hwhole.entries).entries_eq htab hp.childLabels hp.childVecs,
        descriptionsAt_map, childPlaces_node]
    · have hzero : (p.hdr sys.host.order emb m).childEmbCount = 0 := by
        simpa [UInt32.lt_iff_toNat_lt, ← UInt32.toNat_inj] using hcount
      refine .inr ⟨h.noChildIndex hzero, ?_⟩
      have hcounted : (p.hdr sys.host.order emb m).childEmbCount.toNat = p.childLabels.length :=
        toNat_of_lt (hp.childCount ▸ hwhole.entries.childCount)
      have hlen := hp.childLabels.length_eq
      rw [← hcounted, hzero] at hlen
      rw [← childPlaces_node, ← descriptionsAt_map, List.length_eq_zero_iff.mp hlen.symm]
      rfl
  · rw [h.childRows_eq, hp.childRows_eq hwhole, ← slotsAt_childPlaces, List.forall₂_map_right_iff]
    exact hp.childRows.imp fun row x hrow => ⟨(hrow.parent.readsBack htab').1,
      (hrow.node.readsBack htab').1, hrow.slot.reads htab'⟩
  · rw [h.minNgram]
    rfl
  · rw [h.maxNgram]
    rfl

omit hmapped in
/-- **Opening an image**: it ends with a schema, or at a child whose descriptions have a label
without bytes. -/
theorem Of.openSchema_keeps {X : Stop OpenError → Prop} (hwhole : m.EntriesWhole emb)
    (hemb : sys.emb = some emb) (hhalf : 2 * p.size sys.host.order ≤ sys.host.sizeMod)
    (hvalid : m.Valid)
    (hchild : (∃ ch ∈ childNodes m.nodes, ch.descriptions ≠ [] ∧ isBlank ch.id = true) →
      X (.fail .childIndex)) :
    Keeps Quiet X (openSchema sys (p.image sys.host.order emb m)) fun s =>
      OpenedFrom sys (p.image sys.host.order emb m) (p.hdr sys.host.order emb m) s ∧
        ∀ ch ∈ childNodes m.nodes, ch.descriptions ≠ [] → isBlank ch.id = false := by
  have hmapped := size_lt hhalf
  have hlen := p.length_image sys.host.order emb m
  have htab := hp.tabAt sys.host hwhole.strings
  have hnode := hp.nodeStored_take hmapped hwhole.strings
  have hchildStored := hp.childStored hmapped hwhole
  have hdim := hp.dim
  have hdimLt := emb.dim_lt
  have hhdr : 0 < (p.hdr sys.host.order emb m).embDim.toNat := by
    rw [hdr_embDim]
    omega
  have hnodeOk := (hnode.entriesOk_iff htab (List.forall₂_take _ hp.nodeLabels)).mpr fun x hx => by
    obtain ⟨nd, hnd, hid, -⟩ := mem_descriptionsAt_nodePlaces (List.mem_of_mem_take hx)
    rw [hid]
    obtain ⟨id, hid, hne⟩ := (hvalid.named nd hnd).id
    exact isBlank_eq_false.mpr ⟨id, hid, hne⟩
  have hchildOk := hchildStored.entriesOk_iff htab hp.childLabels
  rw [forall_childDescriptions (q := fun nd => isBlank nd.id = false)] at hchildOk
  unfold openSchema
  refine Keeps.bind Keeps.allocOr fun _ _ => Keeps.bind Keeps.allocOr fun _ _ => ?_
  simp only [mapping_image hmapped, checkHeader_image]
  rw [if_neg (by rintro ⟨hne, hzero⟩; exact hne hzero)]
  refine (openMapped_keeps served_quiet ?_ ?_ ?_ ?_ ?_ ?_ (fun _ _ _ he => he)
    (.inl (tablesOk hmapped))).mono fun s hs => ⟨hs, ?_⟩
  · intro hnone
    rw [hemb] at hnone
    cases hnone
  · intro emb' hsome hbad
    rw [hemb] at hsome
    cases hsome
    rcases hbad with hle | hne
    · omega
    · exact absurd rfl hne
  · rintro ⟨i, hi, hbad⟩
    exact absurd (hnodeOk i hi) hbad
  · intro hbad
    refine hchild (by_contra fun hgood => ?_)
    obtain ⟨i, hi, hbad⟩ := hbad
    refine hbad (hchildOk.mpr (fun ch hch hdesc => ?_) i hi)
    by_contra hblank
    exact hgood ⟨ch, hch, hdesc, by simpa using hblank⟩
  · exact fun hcount => .inl (hnode.fits hhdr (hlen ▸ hhalf) hcount)
  · exact fun hcount => .inl (hchildStored.fits hhdr (hlen ▸ hhalf) hcount)
  · refine hchildOk.mp ?_
    by_cases hcount : 0 < (p.hdr sys.host.order emb m).childEmbCount
    · obtain ⟨hnsw, -, filled, hfilled⟩ := hs.childIndex hcount
      exact hfilled.fills.ok
    · intro i hi
      have hzero : (p.hdr sys.host.order emb m).childEmbCount.toNat = 0 := by
        simpa [UInt32.lt_iff_toNat_lt] using hcount
      change i < (p.hdr sys.host.order emb m).childEmbCount.toNat at hi
      omega

end Parts

end Schema

end Ipa
