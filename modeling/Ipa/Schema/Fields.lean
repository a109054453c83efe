import Ipa.Schema.Null

/-!
# The 32-bit fields of an image

The compiler counts in `size_t` and writes 32 bits of each size, offset, count and length. An
image is untruncated when every field holds the whole number, and every string stands at the
offset that is stored for it. Nothing in the compiler refuses a larger image: all of its fields
are whole exactly when the image has less than 2^32 bytes.
-/

namespace Ipa

open Run

/-! ## Untruncated fields -/

/-- The key and the value of a row stand where the row says; a row without them holds zeros. -/
def SlotStands (image : List UInt8) (key val : StrRef) : Option EmitDef → Prop
  | none => key = ⟨0, 0⟩ ∧ val = ⟨0, 0⟩
  | some emit => ReadsBack image fileHdrSize key.off key.len emit.key ∧
      ReadsBack image fileHdrSize val.off val.len emit.value

structure NodeRowStands (image : List UInt8) (row : NodeMeta) (x : Place × Option EmitDef) :
    Prop where
  node : ReadsBack image fileHdrSize row.nodeIdOff row.nodeIdLen x.1.node.id
  slot : SlotStands image ⟨row.emitKeyOff, row.emitKeyLen⟩ ⟨row.emitValOff, row.emitValLen⟩ x.2
  hasChildren : row.hasChildren = if x.1.node.children.length > 0 then 1 else 0

structure ChildRowStands (image : List UInt8) (row : ChildMeta) (x : Place × Option EmitDef) :
    Prop where
  parent : ReadsBack image fileHdrSize row.parentIdOff row.parentIdLen x.1.1.id
  node : ReadsBack image fileHdrSize row.nodeIdOff row.nodeIdLen x.1.node.id
  slot : SlotStands image ⟨row.emitKeyOff, row.emitKeyLen⟩ ⟨row.emitValOff, row.emitValLen⟩ x.2

/-- The label of an entry stands where the entry says. -/
def LabelStands (image : List UInt8) (hdr : EmbHdr) (x : Place × Option CStr) : Prop :=
  ReadsBack image fileHdrSize hdr.labelOff hdr.labelLen x.1.node.id

/-- `count` records of `size` bytes from `start` on, as they are read. -/
def recordsAt {α : Type} (read : Nat → α) (start size count : Nat) : List α :=
  (List.range count).map fun i => read (start + size * i)

/-- Every 32-bit field of an image holds the whole number. The records are those at the offsets
where the compiler put them. -/
structure Untruncated (o : ByteOrder) (emb : Emb) (m : Manifest) (image : List UInt8) : Prop where
  fileSize : (FileHdr.read o image).fileSize.toNat = image.length
  strtabOff : (FileHdr.read o image).strtabOff.toNat = fileHdrSize
  strtabSize : (FileHdr.read o image).strtabSize.toNat = (tabBytes (tableStrings m)).length
  embDim : (FileHdr.read o image).embDim.toNat = emb.dim.toNat
  nodeEmbOff : (FileHdr.read o image).nodeEmbOff.toNat = nodeEmbStart m
  nodeEmbCount : (FileHdr.read o image).nodeEmbCount.toNat = totalNodeEmb m.nodes
  childEmbOff : (FileHdr.read o image).childEmbOff.toNat = childEmbStart emb m
  childEmbCount : (FileHdr.read o image).childEmbCount.toNat = totalChildEmb m.nodes
  nodeMetaOff : (FileHdr.read o image).nodeMetaOff.toNat = nodeMetaStart emb m
  nodeMetaCount : (FileHdr.read o image).nodeMetaCount.toNat =
    (slotsAt (nodePlaces m.nodes)).length
  childMetaOff : (FileHdr.read o image).childMetaOff.toNat = childMetaStart emb m
  childMetaCount : (FileHdr.read o image).childMetaCount.toNat =
    (slotsAt (childPlaces m.nodes)).length
  id : ReadsBack image fileHdrSize (FileHdr.read o image).idOff (FileHdr.read o image).idLen
    (orEmpty m.id)
  vendor : ReadsBack image fileHdrSize (FileHdr.read o image).vendorOff
    (FileHdr.read o image).vendorLen (orEmpty m.vendor)
  schemaver : ReadsBack image fileHdrSize (FileHdr.read o image).schemaverOff
    (FileHdr.read o image).schemaverLen (orEmpty m.version)
  nodeLabels : List.Forall₂ (LabelStands image)
    (recordsAt (EmbHdr.read o image) (nodeEmbStart m) emb.entrySize (totalNodeEmb m.nodes))
    (descriptionsAt (nodePlaces m.nodes))
  childLabels : List.Forall₂ (LabelStands image)
    (recordsAt (EmbHdr.read o image) (childEmbStart emb m) emb.entrySize (totalChildEmb m.nodes))
    (descriptionsAt (childPlaces m.nodes))
  nodeRows : List.Forall₂ (NodeRowStands image)
    (recordsAt (NodeMeta.read o image) (nodeMetaStart emb m) nodeMetaSize
      (slotsAt (nodePlaces m.nodes)).length)
    (slotsAt (nodePlaces m.nodes))
  childRows : List.Forall₂ (ChildRowStands image)
    (recordsAt (ChildMeta.read o image) (childMetaStart emb m) childMetaSize
      (slotsAt (childPlaces m.nodes)).length)
    (slotsAt (childPlaces m.nodes))

theorem SlotRefers.stands {image tab : List UInt8} {key val : StrRef} {slot : Option EmitDef}
    (h : SlotRefers tab key val slot) (htab : TabAt image fileHdrSize tab) :
    SlotStands image key val slot := by
  cases slot with
  | none => exact h
  | some emit => exact ⟨(h.1.readsBack htab).1, (h.2.readsBack htab).1⟩

/-- The labels of a stored block, read entry by entry. -/
theorem EmbBlock.Stored.labels_eq {b : EmbBlock} {labels : List StrRef}
    {vecs : List (List Binary32)} (h : b.Stored labels vecs) :
    recordsAt (EmbHdr.read b.host.order b.mem) b.off (embHdrSize + 4 * b.dim) b.count =
      labels.map fun ref => ⟨ref.off, ref.len⟩ := by
  apply List.ext_getElem
  · rw [recordsAt, List.length_map, List.length_range, List.length_map, h.labelCount]
  · intro i hi hi'
    rw [List.length_map] at hi'
    have hcount : i < b.count := h.labelCount ▸ hi'
    have hhdr := h.hdr_eq hcount (List.getElem?_eq_getElem hi')
    rw [EmbBlock.hdr, h.offset_eq hcount, Nat.mul_comm] at hhdr
    simpa only [recordsAt, List.getElem_map, List.getElem_range] using hhdr

namespace Parts

variable {p : Parts} {host : Host} {emb : Emb} {m : Manifest}

theorem Of.untruncated (hp : p.Of emb m) (hsmall : p.size host.order < 2 ^ 32) :
    Untruncated host.order emb m (p.image host.order emb m) := by
  have hread : FileHdr.read host.order (p.image host.order emb m) = p.hdr host.order emb m :=
    FileHdr.read_encode _ _ _
  have hloc := hp.located hsmall
  have hwhole := hp.whole hsmall
  have htab := hp.tabAt host hwhole.entries.strings
  have hnode := hp.nodeStored (lt_sizeMod hsmall) hwhole.toNodesWhole
  have hchild := hp.childStored (lt_sizeMod hsmall) hwhole.entries
  have hsizeOf : (p.hdr host.order emb m).fileSize.toNat = (p.image host.order emb m).length :=
    (toNat_of_lt hsmall).trans (p.length_image host.order emb m).symm
  rw [hloc.strtabOff] at htab
  have hnodeLabels := hnode.labels_eq
  have hchildLabels := hchild.labels_eq
  simp only [FileHdr.nodeBlock, hloc.nodeEmbOff, hloc.nodeEmbCount, hloc.embDim,
    hp.nodeEmbOff_eq, hp.nodeCount] at hnodeLabels
  simp only [FileHdr.childBlock, hloc.childEmbOff, hloc.childEmbCount, hloc.embDim,
    hp.childEmbOff_eq, hp.childCount] at hchildLabels
  have hnodeRows : recordsAt (NodeMeta.read host.order (p.image host.order emb m))
      (nodeMetaStart emb m) nodeMetaSize (slotsAt (nodePlaces m.nodes)).length = p.nodeRows := by
    rw [← hp.nodeMetaOff_eq (o := host.order), ← hp.nodeRows.length_eq]
    exact read_rows (fun _ _ _ => NodeMeta.read_of_drop) (fun row => by simp [NodeMeta.words, nodeMetaSize])
      ⟨_, drop_nodeMeta⟩
  have hchildRows : recordsAt (ChildMeta.read host.order (p.image host.order emb m))
      (childMetaStart emb m) childMetaSize (slotsAt (childPlaces m.nodes)).length =
        p.childRows := by
    rw [← hp.childMetaOff_eq (o := host.order), ← hp.childRows.length_eq]
    exact read_rows (fun _ _ _ => ChildMeta.read_of_drop) (fun row => by simp [ChildMeta.words, childMetaSize])
      ⟨[], by rw [List.append_nil]; exact drop_childMeta⟩
  refine ⟨?_, ?_, ?_, ?_, ?_, ?_, ?_, ?_, ?_, ?_, ?_, ?_, ?_, ?_, ?_, ?_, ?_, ?_, ?_⟩
  · rw [hread]
    exact hsizeOf
  · rw [hread]
    exact hloc.strtabOff
  · rw [hread]
    exact hp.strings ▸ hloc.strtabSize
  · rw [hread]
    exact hloc.embDim
  · rw [hread]
    exact hloc.nodeEmbOff.trans hp.nodeEmbOff_eq
  · rw [hread]
    exact hloc.nodeEmbCount.trans hp.nodeCount
  · rw [hread]
    exact hloc.childEmbOff.trans hp.childEmbOff_eq
  · rw [hread]
    exact hloc.childEmbCount.trans hp.childCount
  · rw [hread]
    exact hloc.nodeMetaOff.trans hp.nodeMetaOff_eq
  · rw [hread]
    exact hloc.nodeMetaCount.trans hp.nodeRows.length_eq
  · rw [hread]
    exact hloc.childMetaOff.trans hp.childMetaOff_eq
  · rw [hread]
    exact hloc.childMetaCount.trans hp.childRows.length_eq
  · rw [hread]
    exact (hp.id.readsBack htab).1
  · rw [hread]
    exact (hp.vendor.readsBack htab).1
  · rw [hread]
    exact (hp.schemaver.readsBack htab).1
  · rw [Emb.entrySize, hnodeLabels, List.forall₂_map_left_iff]
    exact hp.nodeLabels.imp fun ref x href => (href.readsBack htab).1
  · rw [Emb.entrySize, hchildLabels, List.forall₂_map_left_iff]
    exact hp.childLabels.imp fun ref x href => (href.readsBack htab).1
  · rw [hnodeRows]
    exact hp.nodeRows.imp fun row x hrow =>
      ⟨(hrow.node.readsBack htab).1, hrow.slot.stands htab, hrow.hasChildren⟩
  · rw [hchildRows]
    exact hp.childRows.imp fun row x hrow =>
      ⟨(hrow.parent.readsBack htab).1, (hrow.node.readsBack htab).1, hrow.slot.stands htab⟩

theorem Of.untruncated_iff (hp : p.Of emb m) :
    Untruncated host.order emb m (p.image host.order emb m) ↔ imageSize emb m < 2 ^ 32 := by
  constructor
  · intro h
    have hfile := h.fileSize
    have hlt := (FileHdr.read host.order (p.image host.order emb m)).fileSize.toNat_lt
    rw [hfile, p.length_image, hp.size_eq] at hlt
    exact hlt
  · intro hsmall
    exact hp.untruncated (hp.size_eq (o := host.order) ▸ hsmall)

end Parts

/-- **The 32-bit fields** of a compiled image are whole exactly when the manifest has an image of
less than 2^32 bytes. -/
theorem serialize_untruncated_iff (host : Host) (emb : Emb) (m : Manifest) (image : List UInt8)
    {e e' : Env} (hbuild : (serialize host (some emb) m).exec e = (.ok image, e')) :
    Untruncated host.order emb m image ↔ imageSize emb m < 2 ^ 32 := by
  obtain ⟨-, emb', hemb, p, hp, rfl, -⟩ := serialize_ok hbuild
  cases hemb
  exact hp.untruncated_iff

theorem serialize_untruncated_iff_family : ∃ image e',
    (serialize unitSystem.host (some unitEmb) familyManifest).exec ⟨[], []⟩ = (.ok image, e') ∧
      (Untruncated unitSystem.host.order unitEmb familyManifest image ↔
        imageSize unitEmb familyManifest < 2 ^ 32) := by
  obtain ⟨image, e', hbuild, -⟩ := exec_of_value?
    (x := serialize unitSystem.host (some unitEmb) familyManifest) (e := ⟨[], []⟩)
    (q := fun _ => true) (by decide +kernel)
  exact ⟨image, e', hbuild,
    serialize_untruncated_iff unitSystem.host unitEmb familyManifest image hbuild⟩

/-! ## No size is refused -/

/-- With every allocation served, a manifest whose strings and embeddings are there is compiled,
up to half of the range of `size_t`. -/
theorem serialize_returns {host : Host} {emb : Emb} {m : Manifest}
    (haccept : validateManifest m = .ok ()) (hdim : 0 < emb.dim)
    (hderefs : Derefs (fun _ => False) m.nodes)
    (hembeds : ∀ x ∈ descriptionsAt (nodePlaces m.nodes) ++ descriptionsAt (childPlaces m.nodes),
      x.2.bind emb.exec ≠ none)
    (hroom : 2 * imageSize emb m ≤ host.sizeMod) :
    Returns (serialize host (some emb) m) fun image =>
      ∃ p : Parts, p.Of emb m ∧ image = p.image host.order emb m := by
  have hcompiles : Compiles host emb (fun _ => False) m :=
    ⟨fun h => by omega, hderefs, fun x hx h => hembeds x hx h, fun h => by omega⟩
  unfold serialize
  rw [haccept]
  exact (compile_keeps hcompiles).mono fun image h => by
    obtain ⟨p, hp, himage, -⟩ := h
    exact ⟨p, hp, himage⟩

/-- A model of dimension 1024. -/
def wideEmb : Emb where
  dim := 1024
  dim_lt := by decide
  exec _ := some (List.replicate 1024 .one)
  exec_length _ v h := by cases h; exact List.length_replicate

/-- One node with `n` descriptions. -/
def wideNode (n : Nat) : NodeDef :=
  { leaf "n" [] [] with descriptions := List.replicate n (some (.ofString "d")) }

def wideManifest (n : Nat) : Manifest := manifestOf [wideNode n]

theorem descriptionsAt_wide (n : Nat) : descriptionsAt (allPlaces (wideManifest n).nodes) =
    List.replicate n ((wideNode n, none), some (.ofString "d")) := by
  change atPlaces (·.descriptions) [(wideNode n, none)] = _
  simp [atPlaces, Place.node, wideNode]

theorem imageSize_wide (n : Nat) : imageSize wideEmb (wideManifest n) = n * 4106 + 128 := by
  have hlabels : (tabBytes ((descriptionsAt (allPlaces (wideManifest n).nodes)).flatMap
      fun x => labelStrings x.1)).length = n * 2 := by
    rw [descriptionsAt_wide, tabBytes, List.flatMap_assoc, length_flatMap_const (k := 2),
      List.length_replicate]
    intro x hx
    rw [List.eq_of_mem_replicate hx]
    rfl
  have hstrings : (tabBytes (tableStrings (wideManifest n))).length = n * 2 + 8 := by
    rw [tableStrings, tabBytes_append, tabBytes_append, List.length_append, List.length_append,
      hlabels]
    have hfirst : (tabBytes [orEmpty (wideManifest n).id, orEmpty (wideManifest n).vendor,
      orEmpty (wideManifest n).version]).length = 6 := rfl
    have hrows : (tabBytes ((slotsAt (allPlaces (wideManifest n).nodes)).flatMap
      slotStrings)).length = 2 := rfl
    omega
  have hnode : totalNodeEmb (wideManifest n).nodes = n := by
    change [(List.replicate n (some (CStr.ofString "d"))).length].sum = n
    simp
  have hchild : totalChildEmb (wideManifest n).nodes = 0 := rfl
  have hentry : wideEmb.entrySize = 4104 := rfl
  have hrows : (slotsAt (nodePlaces (wideManifest n).nodes)).length = 1 := rfl
  have hchildRows : (slotsAt (childPlaces (wideManifest n).nodes)).length = 0 := rfl
  rw [imageSize_eq, hstrings, hnode,
    hchild, hentry, hrows, hchildRows]
  unfold fileHdrSize nodeMetaSize
  omega

theorem validateManifest_wide {n : Nat} (hn : 0 < n) :
    validateManifest (wideManifest n) = .ok () := by
  have hschema : (wideManifest n).schema.map (·.bytes) = some (ascii "ipa.map.v1") := rfl
  have hid : isBlank (wideManifest n).id = false := rfl
  have hvendor : isBlank (wideManifest n).vendor = false := rfl
  have hversion : isBlank (wideManifest n).version = false := rfl
  have hnodes : (wideManifest n).nodes = [wideNode n] := rfl
  have hthreshold : ¬ ((wideManifest n).nodeThreshold.lt .zero = true ∨
      Binary32.one.lt (wideManifest n).nodeThreshold = true) := by
    change ¬ (defaultThreshold.lt .zero = true ∨ Binary32.one.lt defaultThreshold = true)
    decide
  have hngram : ¬ ((wideManifest n).minNgram < 1 ∨
      (wideManifest n).maxNgram < (wideManifest n).minNgram) := by
    change ¬ ((1 : Int32) < 1 ∨ (5 : Int32) < 1)
    decide
  have hnode : validateNode (wideNode n) = .ok () := by
    change (if (CStr.ofString "n").bytes.isEmpty then Except.error ManifestError.nodeId
      else if (List.replicate n (some (CStr.ofString "d"))).length < 1 then _
      else Except.ok ()) = _
    rw [if_neg (by decide), List.length_replicate, if_neg (by omega)]
  unfold validateManifest
  rw [if_neg (not_not.mpr hschema), hid, hvendor, hversion, if_neg (by simp), if_neg (by simp),
    if_neg (by simp), hnodes, if_neg (by simp), if_neg hthreshold, if_neg hngram, List.forM_cons,
    hnode]
  rfl

/-- An image of a million descriptions is written with wrapped offsets. -/
theorem serialize_truncates : ∃ image e',
    (serialize ⟨.w64, .little⟩ (some wideEmb) (wideManifest (2 ^ 20))).exec ⟨[], []⟩ =
      (.ok image, e') ∧ ¬ Untruncated .little wideEmb (wideManifest (2 ^ 20)) image := by
  have hsize := imageSize_wide (2 ^ 20)
  have hnode : ∀ nd ∈ (wideManifest (2 ^ 20)).nodes, nd = wideNode (2 ^ 20) :=
    fun nd hnd => List.mem_singleton.mp hnd
  have hwritten : ∀ nd ∈ (wideManifest (2 ^ 20)).nodes, nd.Written := by
    intro nd hnd
    rw [hnode nd hnd]
    refine ⟨fun description h => ?_, fun emit h => ?_, fun ch h => ?_⟩
    · rw [List.eq_of_mem_replicate h]
      exact Option.some_ne_none _
    · cases h
    · cases h
  have hnamed : ChildrenNamed (wideManifest (2 ^ 20)).nodes := fun ch hch => by cases hch
  have haccept := validateManifest_wide (n := 2 ^ 20) (by decide)
  have hbuild : Returns (serialize ⟨.w64, .little⟩ (some wideEmb) (wideManifest (2 ^ 20))) _ :=
    serialize_returns haccept (by decide)
      (derefs_of_named (validateManifest_ok haccept) hwritten hnamed) (fun x hx => ?_)
      (by rw [hsize]; decide)
  · obtain ⟨image, e', hrun, -, p, hp, rfl⟩ := hbuild.exec (e := ⟨[], []⟩) rfl
    refine ⟨_, e', hrun, fun h => ?_⟩
    have hlt := (@Parts.Of.untruncated_iff p ⟨.w64, .little⟩ _ _ hp).mp h
    rw [hsize] at hlt
    omega
  · have hdesc : x ∈ descriptionsAt (nodePlaces (wideManifest (2 ^ 20)).nodes) :=
      (List.mem_append.mp hx).resolve_right fun h => by cases h
    obtain ⟨nd, hnd, -, hmem⟩ := mem_descriptionsAt_nodePlaces hdesc
    rw [hnode nd hnd] at hmem
    rw [List.eq_of_mem_replicate hmem]
    exact Option.some_ne_none _

end Ipa
