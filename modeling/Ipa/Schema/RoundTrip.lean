import Ipa.Schema.Image
import Ipa.Schema.Opened

/-!
# Opening what the compiler wrote

The image of some parts, read at the offsets of its own header, gives the parts back: the header,
the labels and vectors of the two blocks, the rows of the two tables, and the strings that the
references are to. So the image passes every check of `openSchema`, as long as its header
states its offsets in full and no label is empty.
-/

namespace Ipa

open Run

/-! ## Strings -/

/-- The string stands, with its terminator, where the offset says, and has the length. -/
def ReadsBack (mem : List UInt8) (strtab : Nat) (off len : UInt32) (str : Option CStr) : Prop :=
  ∃ s, str = some s ∧ CStr.Lies mem (strtab + off.toNat) s ∧ len.toNat = s.strlen

/-- A table of strings, of less than 2^32 bytes, inside a file. -/
structure TabAt (mem : List UInt8) (strtab : Nat) (tab : List UInt8) : Prop where
  bytes : ∃ rest, mem.drop strtab = tab ++ rest
  le : strtab ≤ mem.length
  small : tab.length < 2 ^ 32

theorem TabAt.end_le {mem : List UInt8} {strtab : Nat} {tab : List UInt8} (h : TabAt mem strtab tab) :
    strtab + tab.length ≤ mem.length := by
  obtain ⟨rest, hrest⟩ := h.bytes
  have := congrArg List.length hrest
  rw [List.length_drop, List.length_append] at this
  have := h.le
  omega

theorem TabAt.lies {mem : List UInt8} {strtab off : Nat} {tab : List UInt8} {s : CStr}
    (h : TabAt mem strtab tab) (hs : CStr.Lies tab off s) : CStr.Lies mem (strtab + off) s := by
  obtain ⟨rest, hrest⟩ := h.bytes
  have hsplit : mem.take strtab ++ (tab ++ rest) = mem := by rw [← hrest, List.take_append_drop]
  have := (hs.append rest).prepend (mem.take strtab)
  rwa [hsplit, List.length_take, Nat.min_eq_left h.le] at this

theorem Refers.readsBack {mem : List UInt8} {strtab : Nat} {tab : List UInt8} {ref : StrRef}
    {str : Option CStr} (href : Refers tab ref str) (htab : TabAt mem strtab tab) :
    ReadsBack mem strtab ref.off ref.len str ∧
      strtab + ref.off.toNat + ref.len.toNat + 1 ≤ mem.length := by
  obtain ⟨s, off, hstr, hlies, rfl⟩ := href
  have hlt := hlies.lt
  have hend := htab.end_le
  have hsmall := htab.small
  have hoff : (UInt32.ofNat off).toNat = off := by
    rw [UInt32.toNat_ofNat']
    omega
  have hlen : (UInt32.ofNat s.strlen).toNat = s.strlen := by
    rw [UInt32.toNat_ofNat']
    omega
  refine ⟨⟨s, hstr, ?_, hlen⟩, ?_⟩
  · simp only [hoff]
    exact htab.lies hlies
  · simp only [hoff, hlen]
    omega

/-! ## Entries -/

/-- The labels and vectors that a block of a file holds. -/
structure EmbBlock.Stored (b : EmbBlock) (labels : List StrRef) (vecs : List (List Binary32)) :
    Prop where
  bytes : ∃ rest, b.mem.drop b.off = entriesBytes b.host.order labels vecs ++ rest
  le : b.off ≤ b.mem.length
  labelCount : labels.length = b.count
  vecCount : vecs.length = b.count
  dims : ∀ v ∈ vecs, v.length = b.dim
  mapped : b.mem.length < b.host.sizeMod
  counted : b.count < 2 ^ 32

namespace EmbBlock

/-- The labels and the vectors of a block. -/
def entries (b : EmbBlock) : List (Option CStr × Option (List Binary32)) :=
  (List.range b.count).map fun i => (some (b.label i), some (b.vector i))

/-- The items that a fill adds are the entries. -/
theorem items_entries [Arith] (b : EmbBlock) :
    ((List.range b.count).map b.item).map (fun item => (some item.id, some item.values)) =
      b.entries := by
  rw [List.map_map]
  rfl

variable {b : EmbBlock} {labels : List StrRef} {vecs : List (List Binary32)}

namespace Stored

theorem sizes (h : b.Stored labels vecs) :
    ∀ e ∈ labels.zip vecs, (entryBytes b.host.order e).length = embHdrSize + 4 * b.dim := by
  rintro ⟨ref, v⟩ he
  rw [length_entryBytes, h.dims v (List.of_mem_zip he).2]

theorem end_le (h : b.Stored labels vecs) :
    b.off + b.count * (embHdrSize + 4 * b.dim) ≤ b.mem.length := by
  obtain ⟨rest, hrest⟩ := h.bytes
  have hlen := congrArg List.length hrest
  rw [List.length_drop, List.length_append, entriesBytes, length_flatMap_const h.sizes,
    List.length_zip, h.labelCount, h.vecCount, Nat.min_self] at hlen
  have := h.le
  omega

theorem end_of_lt (h : b.Stored labels vecs) {i : Nat} (hi : i < b.count) :
    b.off + i * (embHdrSize + 4 * b.dim) + (embHdrSize + 4 * b.dim) ≤ b.mem.length := by
  have hend := h.end_le
  have hmul := Nat.mul_le_mul_right (embHdrSize + 4 * b.dim) hi
  rw [Nat.succ_mul] at hmul
  omega

theorem dim_lt (h : b.Stored labels vecs) {i : Nat} (hi : i < b.count) :
    b.dim * 4 < b.host.sizeMod := by
  have := h.end_of_lt hi
  have := h.mapped
  omega

theorem stride_eq (h : b.Stored labels vecs) {i : Nat} (hi : i < b.count) :
    entryStride b.host b.dim = embHdrSize + 4 * b.dim := by
  have := h.end_of_lt hi
  have := h.mapped
  rw [entryStride, Host.size_of_lt (h.dim_lt hi), Host.size_of_lt (by omega)]
  omega

theorem offset_eq (h : b.Stored labels vecs) {i : Nat} (hi : i < b.count) :
    b.offset i = b.off + i * (embHdrSize + 4 * b.dim) := by
  have := h.end_of_lt hi
  have := h.mapped
  rw [offset, entryOffset, h.stride_eq hi,
    Host.size_of_lt (n := i * (embHdrSize + 4 * b.dim)) (by omega), Host.size_of_lt (by omega)]

theorem drop_offset (h : b.Stored labels vecs) {i : Nat} (hi : i < b.count) {ref : StrRef}
    {v : List Binary32} (href : labels[i]? = some ref) (hv : vecs[i]? = some v) :
    ∃ rest, b.mem.drop (b.offset i) = entryBytes b.host.order (ref, v) ++ rest := by
  obtain ⟨rest, hrest⟩ := h.bytes
  have hend := h.end_of_lt hi
  have hzip : (labels.zip vecs)[i]? = some (ref, v) := by
    rw [List.getElem?_zip_eq_some]
    exact ⟨href, hv⟩
  have hlen : i * (embHdrSize + 4 * b.dim) ≤ (entriesBytes b.host.order labels vecs).length := by
    rw [entriesBytes, length_flatMap_const h.sizes, List.length_zip, h.labelCount, h.vecCount, Nat.min_self]
    exact Nat.mul_le_mul_right _ (Nat.le_of_lt hi)
  refine ⟨((labels.zip vecs).drop (i + 1)).flatMap (entryBytes b.host.order) ++ rest, ?_⟩
  rw [h.offset_eq hi, ← List.drop_drop, hrest, List.drop_append_of_le_length hlen, entriesBytes,
    drop_record h.sizes hzip, List.append_assoc]

theorem hdr_eq (h : b.Stored labels vecs) {i : Nat} (hi : i < b.count) {ref : StrRef}
    (href : labels[i]? = some ref) : b.hdr i = ⟨ref.off, ref.len⟩ := by
  obtain ⟨rest, hrest⟩ := h.drop_offset hi href
    (List.getElem?_eq_getElem (by rw [h.vecCount]; exact hi))
  rw [entryBytes, List.append_assoc] at hrest
  exact EmbHdr.read_of_drop hrest

theorem vector_eq (h : b.Stored labels vecs) {i : Nat} (hi : i < b.count) {v : List Binary32}
    (hv : vecs[i]? = some v) : b.vector i = v := by
  obtain ⟨rest, hrest⟩ := h.drop_offset hi
    (List.getElem?_eq_getElem (by rw [h.labelCount]; exact hi)) hv
  have hdrop : b.mem.drop (b.offset i + embHdrSize) =
      b.host.order.encode (vectorWords v) ++ rest := by
    rw [← List.drop_drop, hrest, entryBytes, List.append_assoc]
    simp [EmbHdr.words, embHdrSize]
  rw [vector, ← h.dims v (List.mem_of_getElem? hv), readVector_of_drop hdrop]

theorem inside_eq (h : b.Stored labels vecs) {i : Nat} (hi : i < b.count) : b.inside i = true := by
  have hend := h.end_of_lt hi
  rw [inside, boundsOk, decide_eq_true_eq, h.offset_eq hi, h.stride_eq hi, UInt32.toNat_ofNat']
  -- the cast and the sum can only lower what is compared
  have hcast := Nat.mod_le (b.off + i * (embHdrSize + 4 * b.dim)) (2 ^ 32)
  exact (Nat.mod_le _ _).trans ((Nat.add_le_add_right hcast _).trans hend)

/-- The checks of an entry whose label is a string of the table come down to its name. -/
theorem entryOk_iff (h : b.Stored labels vecs) {tab : List UInt8} (htab : TabAt b.mem b.strtab tab)
    {i : Nat} (hi : i < b.count) {ref : StrRef} (href : labels[i]? = some ref) {str : Option CStr}
    (hrefers : Refers tab ref str) :
    str = some (b.label i) ∧ (b.EntryOk i ↔ (b.label i).bytes ≠ []) := by
  obtain ⟨⟨s, hstr, hlies, -⟩, hle⟩ := hrefers.readsBack htab
  have hlabel : b.label i = s := by
    rw [label, labelAt, h.hdr_eq hi href]
    exact hlies.read_eq
  refine ⟨by rw [hlabel, hstr], fun hok => hok.named, fun hnamed => ⟨h.inside_eq hi, ?_, hnamed⟩⟩
  have hmapped := h.mapped
  rw [labelInside, boundsOk, decide_eq_true_eq, h.hdr_eq hi href]
  simp only
  rw [Host.size_of_lt (by omega)]
  exact (Nat.mod_le _ _).trans (by omega)

/-- The arrays of an index over a block of an image do not wrap. -/
theorem fits (h : b.Stored labels vecs) (hdim : 0 < b.dim)
    (himage : 2 * b.mem.length ≤ b.host.sizeMod) (hcount : 0 < b.count) : b.Fits := by
  have hend := h.end_le
  have hcounted := h.counted
  refine ⟨h.dim_lt hcount, ?_⟩
  have hmul : b.count * 12 ≤ b.count * (embHdrSize + 4 * b.dim) :=
    Nat.mul_le_mul_left _ (by unfold embHdrSize; omega)
  cases hw : b.host.width with
  | w32 =>
    have hsize : Hnsw.itemSize b.host = 24 := by rw [Hnsw.itemSize, hw]
    have hmod : b.host.sizeMod = 2 ^ 32 := by rw [Host.sizeMod, hw]; rfl
    rw [hsize]
    omega
  | w64 =>
    have hsize : Hnsw.itemSize b.host = 40 := by rw [Hnsw.itemSize, hw]
    have hmod : b.host.sizeMod = 2 ^ 64 := by rw [Host.sizeMod, hw]; rfl
    rw [hsize, hmod]
    omega

section Named

variable {tab : List UInt8} {xs : List (Place × Option CStr)}

/-- **The checks of a block** whose labels are the ids of some nodes come down to their names. -/
theorem entriesOk_iff (h : b.Stored labels vecs) (htab : TabAt b.mem b.strtab tab)
    (hlabels : List.Forall₂ (fun ref x => Refers tab ref x.1.node.id) labels xs) :
    (∀ i < b.count, b.EntryOk i) ↔ ∀ x ∈ xs, isBlank x.1.node.id = false := by
  have hlen := hlabels.length_eq
  have hentry : ∀ i (hi : i < xs.length), b.EntryOk i ↔ isBlank (xs.get ⟨i, hi⟩).1.node.id = false := by
    intro i hi
    have hi' : i < labels.length := by omega
    obtain ⟨hid, hok⟩ := h.entryOk_iff htab (by rw [← h.labelCount]; exact hi')
      (List.getElem?_eq_getElem hi') (hlabels.get hi' hi)
    rw [hok, hid]
    simp [isBlank]
  rw [← h.labelCount, hlen]
  constructor
  · intro hok x hx
    obtain ⟨i, rfl⟩ := List.get_of_mem hx
    exact (hentry i i.2).mp (hok i i.2)
  · intro hnamed i hi
    exact (hentry i hi).mpr (hnamed _ (List.get_mem _ _))

/-- The entries of a block, in order, are the ids and the embeddings of the descriptions. -/
theorem entries_eq {emb : Emb} (h : b.Stored labels vecs) (htab : TabAt b.mem b.strtab tab)
    (hlabels : List.Forall₂ (fun ref x => Refers tab ref x.1.node.id) labels xs)
    (hvecs : List.Forall₂ (Parts.Embeds emb) vecs xs) :
    b.entries = xs.map fun x => (x.1.node.id, x.2.bind emb.exec) := by
  have hlen := hlabels.length_eq
  have hlen' := hvecs.length_eq
  apply List.ext_getElem
  · rw [entries, List.length_map, List.length_range, List.length_map, ← h.labelCount, hlen]
  · intro i hi hi'
    rw [List.length_map] at hi'
    have hcount : i < b.count := by rw [← h.labelCount]; omega
    have hid := (h.entryOk_iff htab hcount (List.getElem?_eq_getElem (by omega))
      (hlabels.get (by omega) hi')).1
    obtain ⟨text, htext, hexec⟩ := hvecs.get (by omega) hi'
    simp only [List.get_eq_getElem] at hid htext hexec
    have hvec := h.vector_eq hcount (List.getElem?_eq_getElem (show i < vecs.length by omega))
    simp only [entries, List.getElem_map, List.getElem_range, hid, htext, Option.bind_some, hexec,
      hvec]

end Named

end Stored

end EmbBlock

/-! ## The image -/

theorem entriesBytes_take {o : ByteOrder} {labels : List StrRef} {vecs : List (List Binary32)}
    {rest : List UInt8} (n : Nat) : entriesBytes o labels vecs ++ rest =
      entriesBytes o (labels.take n) (vecs.take n) ++
        (((labels.zip vecs).drop n).flatMap (entryBytes o) ++ rest) := by
  have htake : (labels.zip vecs).take n = (labels.take n).zip (vecs.take n) := List.take_zipWith
  rw [entriesBytes, entriesBytes, ← htake, ← List.append_assoc, ← List.flatMap_append,
    List.take_append_drop]

namespace Parts

variable {p : Parts} {o : ByteOrder} {emb : Emb} {m : Manifest}

theorem Of.nodeVecs_length (hp : p.Of emb m) : p.nodeVecs.length = p.nodeLabels.length :=
  hp.nodeVecs.length_eq.trans hp.nodeLabels.length_eq.symm

theorem Of.childVecs_length (hp : p.Of emb m) : p.childVecs.length = p.childLabels.length :=
  hp.childVecs.length_eq.trans hp.childLabels.length_eq.symm

theorem length_nodeTable : (p.nodeTable o).length = p.nodeRows.length * nodeMetaSize := by
  rw [nodeTable, rowsBytes, length_flatMap_const (k := nodeMetaSize), List.length_map]
  intro row hrow
  obtain ⟨row, -, rfl⟩ := List.mem_map.mp hrow
  simp [NodeMeta.words, nodeMetaSize]

theorem length_childTable : (p.childTable o).length = p.childRows.length * childMetaSize := by
  rw [childTable, rowsBytes, length_flatMap_const (k := childMetaSize), List.length_map]
  intro row hrow
  obtain ⟨row, -, rfl⟩ := List.mem_map.mp hrow
  simp [ChildMeta.words, childMetaSize]

theorem Of.nodeCount (hp : p.Of emb m) : p.nodeLabels.length = totalNodeEmb m.nodes :=
  hp.nodeLabels.length_eq.trans (length_nodeDescriptions m.nodes).symm

theorem Of.childCount (hp : p.Of emb m) : p.childLabels.length = totalChildEmb m.nodes :=
  hp.childLabels.length_eq.trans (length_childDescriptions m.nodes).symm

theorem Of.nodeEmbOff_eq (hp : p.Of emb m) : p.nodeEmbOff = nodeEmbStart m := by
  rw [nodeEmbOff, nodeEmbStart, hp.strings]

theorem Of.childEmbOff_eq (hp : p.Of emb m) : p.childEmbOff o = childEmbStart emb m := by
  rw [childEmbOff, childEmbStart, hp.nodeEmbOff_eq, nodeEntries,
    length_entriesBytes hp.nodeVecs_length (dims_of_embeds hp.nodeVecs), hp.nodeCount,
    Emb.entrySize]

theorem Of.nodeMetaOff_eq (hp : p.Of emb m) : p.nodeMetaOff o = nodeMetaStart emb m := by
  rw [nodeMetaOff, nodeMetaStart, hp.childEmbOff_eq, childEntries,
    length_entriesBytes hp.childVecs_length (dims_of_embeds hp.childVecs), hp.childCount,
    Emb.entrySize]

theorem Of.childMetaOff_eq (hp : p.Of emb m) : p.childMetaOff o = childMetaStart emb m := by
  rw [childMetaOff, childMetaStart, hp.nodeMetaOff_eq, length_nodeTable, hp.nodeRows.length_eq]

/-- The size of an image is the size of its manifest. -/
theorem Of.size_eq (hp : p.Of emb m) : p.size o = imageSize emb m := by
  rw [size, imageSize, hp.childMetaOff_eq, length_childTable, hp.childRows.length_eq]

/-- The header of a small image says where things are. -/
structure Located (p : Parts) (o : ByteOrder) (emb : Emb) (m : Manifest) : Prop where
  strtabOff : (p.hdr o emb m).strtabOff.toNat = fileHdrSize
  strtabSize : (p.hdr o emb m).strtabSize.toNat = p.tab.length
  embDim : (p.hdr o emb m).embDim.toNat = emb.dim.toNat
  nodeEmbOff : (p.hdr o emb m).nodeEmbOff.toNat = p.nodeEmbOff
  nodeEmbCount : (p.hdr o emb m).nodeEmbCount.toNat = p.nodeLabels.length
  childEmbOff : (p.hdr o emb m).childEmbOff.toNat = p.childEmbOff o
  childEmbCount : (p.hdr o emb m).childEmbCount.toNat = p.childLabels.length
  nodeMetaOff : (p.hdr o emb m).nodeMetaOff.toNat = p.nodeMetaOff o
  nodeMetaCount : (p.hdr o emb m).nodeMetaCount.toNat = p.nodeRows.length
  childMetaOff : (p.hdr o emb m).childMetaOff.toNat = p.childMetaOff o
  childMetaCount : (p.hdr o emb m).childMetaCount.toNat = p.childRows.length

theorem toNat_of_lt {n : Nat} (h : n < 2 ^ 32) : (UInt32.ofNat n).toNat = n := by
  rw [UInt32.toNat_ofNat']
  omega

theorem le_mul_of_pos {n k : Nat} (h : 0 < k) : n ≤ n * k := Nat.le_mul_of_pos_right n h

theorem Of.located (hp : p.Of emb m) (hsmall : p.size o < 2 ^ 32) : p.Located o emb m := by
  have hnode : (p.nodeEntries o).length = p.nodeLabels.length * (embHdrSize + 4 * emb.dim.toNat) :=
    length_entriesBytes hp.nodeVecs_length (dims_of_embeds hp.nodeVecs)
  have hchild : (p.childEntries o).length =
      p.childLabels.length * (embHdrSize + 4 * emb.dim.toNat) :=
    length_entriesBytes hp.childVecs_length (dims_of_embeds hp.childVecs)
  have hnodeTable := length_nodeTable (p := p) (o := o)
  have hchildTable := length_childTable (p := p) (o := o)
  have hpos : 0 < embHdrSize + 4 * emb.dim.toNat := by unfold embHdrSize; omega
  have h1 := le_mul_of_pos (n := p.nodeLabels.length) hpos
  have h2 := le_mul_of_pos (n := p.childLabels.length) hpos
  have h3 := le_mul_of_pos (n := p.nodeRows.length) (k := nodeMetaSize) (by decide)
  have h4 := le_mul_of_pos (n := p.childRows.length) (k := childMetaSize) (by decide)
  have hdim := emb.dim_lt
  have hsize : p.size o = fileHdrSize + p.tab.length + (p.nodeEntries o).length +
      (p.childEntries o).length + (p.nodeTable o).length + (p.childTable o).length := rfl
  refine ⟨?_, ?_, ?_, ?_, ?_, ?_, ?_, ?_, ?_, ?_, ?_⟩ <;> refine toNat_of_lt ?_
  · decide
  · omega
  · omega
  · unfold nodeEmbOff; omega
  · omega
  · unfold childEmbOff nodeEmbOff; omega
  · omega
  · unfold nodeMetaOff childEmbOff nodeEmbOff; omega
  · omega
  · unfold childMetaOff nodeMetaOff childEmbOff nodeEmbOff; omega
  · omega

theorem drop_tab : (p.image o emb m).drop fileHdrSize = p.body o := by
  rw [image, ← FileHdr.length_encode o (p.hdr o emb m), List.drop_left]

theorem drop_nodeEmb : ∃ rest, (p.image o emb m).drop p.nodeEmbOff = p.nodeEntries o ++ rest := by
  refine ⟨p.childEntries o ++ (p.nodeTable o ++ p.childTable o), ?_⟩
  rw [nodeEmbOff, ← List.drop_drop, drop_tab, body]
  simp only [List.append_assoc]
  rw [List.drop_left]

theorem drop_childEmb :
    ∃ rest, (p.image o emb m).drop (p.childEmbOff o) = p.childEntries o ++ rest := by
  refine ⟨p.nodeTable o ++ p.childTable o, ?_⟩
  rw [childEmbOff, nodeEmbOff, ← List.drop_drop, ← List.drop_drop, drop_tab, body]
  simp only [List.append_assoc]
  rw [List.drop_left, List.drop_left]

theorem drop_nodeMeta :
    (p.image o emb m).drop (p.nodeMetaOff o) = p.nodeTable o ++ p.childTable o := by
  rw [nodeMetaOff, childEmbOff, nodeEmbOff, ← List.drop_drop, ← List.drop_drop, ← List.drop_drop,
    drop_tab, body]
  simp only [List.append_assoc]
  rw [List.drop_left, List.drop_left, List.drop_left]

theorem drop_childMeta : (p.image o emb m).drop (p.childMetaOff o) = p.childTable o := by
  rw [childMetaOff, ← List.drop_drop, drop_nodeMeta, List.drop_left]

/-- The compiler builds images of at most half of the range of `size_t`. -/
theorem size_lt {host : Host} (h : 2 * p.size o ≤ host.sizeMod) : p.size o < host.sizeMod := by
  have hpos : fileHdrSize ≤ p.size o := by
    unfold size childMetaOff nodeMetaOff childEmbOff nodeEmbOff
    omega
  unfold fileHdrSize at hpos
  omega

theorem lt_sizeMod {host : Host} (hsmall : p.size o < 2 ^ 32) : p.size o < host.sizeMod :=
  hsmall.trans_le host.two_pow_32_le_sizeMod

theorem Of.whole (hp : p.Of emb m) (hsmall : p.size o < 2 ^ 32) : m.Whole emb :=
  Manifest.whole_of_size (hp.size_eq (o := o) ▸ hsmall)

theorem hdr_strtabOff : (p.hdr o emb m).strtabOff.toNat = fileHdrSize := toNat_of_lt (by decide)

theorem hdr_embDim : (p.hdr o emb m).embDim.toNat = emb.dim.toNat := by
  have hdim := emb.dim_lt
  exact toNat_of_lt (by omega)

section Opens

variable {host : Host} (hp : p.Of emb m)

include hp

variable (host) in
theorem Of.tabAt (hstrings : nodeEmbStart m < 2 ^ 32) : TabAt (p.image host.order emb m)
    (p.hdr host.order emb m).strtabOff.toNat p.tab := by
  have hlen := p.length_image host.order emb m
  rw [hdr_strtabOff]
  refine ⟨⟨p.nodeEntries host.order ++ (p.childEntries host.order ++
    (p.nodeTable host.order ++ p.childTable host.order)), ?_⟩, ?_, ?_⟩
  · rw [drop_tab, body]
    simp only [List.append_assoc]
  · rw [hlen]
    unfold size childMetaOff nodeMetaOff childEmbOff nodeEmbOff
    omega
  · rw [← hp.nodeEmbOff_eq, nodeEmbOff] at hstrings
    omega

variable (hmapped : p.size host.order < host.sizeMod)

include hmapped

/-- The entries of the nodes that the header counts. -/
theorem Of.nodeStored_take (hstrings : nodeEmbStart m < 2 ^ 32) :
    let count := (p.hdr host.order emb m).nodeEmbCount.toNat
    ((p.hdr host.order emb m).nodeBlock host (p.image host.order emb m)).Stored
      (p.nodeLabels.take count) (p.nodeVecs.take count) := by
  intro count
  have hlen := p.length_image host.order emb m
  have hle : count ≤ p.nodeLabels.length := (UInt32.toNat_ofNat' ..).trans_le (Nat.mod_le _ _)
  have hoff : (p.hdr host.order emb m).nodeEmbOff.toNat = p.nodeEmbOff :=
    toNat_of_lt (hp.nodeEmbOff_eq ▸ hstrings)
  refine ⟨?_, ?_, ?_, ?_, ?_, hlen ▸ hmapped, UInt32.toNat_lt _⟩
  · obtain ⟨rest, hrest⟩ := @drop_nodeEmb p host.order emb m
    change ∃ rest, List.drop (p.hdr host.order emb m).nodeEmbOff.toNat
      (p.image host.order emb m) = _
    rw [hoff, hrest, nodeEntries]
    exact ⟨_, entriesBytes_take count⟩
  · change (p.hdr host.order emb m).nodeEmbOff.toNat ≤ (p.image host.order emb m).length
    rw [hoff, hlen]
    unfold size childMetaOff nodeMetaOff childEmbOff
    omega
  · exact List.length_take_of_le hle
  · exact List.length_take_of_le (hp.nodeVecs_length ▸ hle)
  · intro v hv
    exact (dims_of_embeds hp.nodeVecs v (List.mem_of_mem_take hv)).trans
      (hdr_embDim (p := p) (o := host.order) (m := m)).symm

theorem Of.nodeStored (hwhole : m.NodesWhole emb) : ((p.hdr host.order emb m).nodeBlock host
    (p.image host.order emb m)).Stored p.nodeLabels p.nodeVecs := by
  have hcount : (p.hdr host.order emb m).nodeEmbCount.toNat = p.nodeLabels.length :=
    toNat_of_lt (hp.nodeCount ▸ hwhole.nodeCount)
  have hstored := hp.nodeStored_take hmapped hwhole.entries.strings
  simp only [hcount] at hstored
  rwa [List.take_length, ← hp.nodeVecs_length, List.take_length] at hstored

theorem Of.childStored (hwhole : m.EntriesWhole emb) : ((p.hdr host.order emb m).childBlock host
    (p.image host.order emb m)).Stored p.childLabels p.childVecs := by
  have hlen := p.length_image host.order emb m
  have hcount : (p.hdr host.order emb m).childEmbCount.toNat = p.childLabels.length :=
    toNat_of_lt (hp.childCount ▸ hwhole.childCount)
  have hoff : (p.hdr host.order emb m).childEmbOff.toNat ≤ p.childEmbOff host.order :=
    (UInt32.toNat_ofNat' ..).trans_le (Nat.mod_le _ _)
  refine ⟨?_, ?_, hcount.symm, hp.childVecs_length.trans hcount.symm, ?_, hlen ▸ hmapped,
    UInt32.toNat_lt _⟩
  · change ∃ rest, List.drop (p.hdr host.order emb m).childEmbOff.toNat _ = _
    by_cases hnone : p.childLabels = []
    · rw [hnone]
      exact ⟨_, rfl⟩
    · have hpos := List.length_pos_iff.mpr hnone
      have hfull : (p.hdr host.order emb m).childEmbOff.toNat = p.childEmbOff host.order :=
        toNat_of_lt (hp.childEmbOff_eq ▸ hwhole.children (hp.childCount ▸ hpos))
      rw [hfull]
      exact drop_childEmb
  · change (p.hdr host.order emb m).childEmbOff.toNat ≤ (p.image host.order emb m).length
    refine hoff.trans ?_
    rw [hlen]
    unfold size childMetaOff nodeMetaOff
    omega
  · intro v hv
    exact (dims_of_embeds hp.childVecs v hv).trans
      (hdr_embDim (p := p) (o := host.order) (m := m)).symm

omit hp in
/-- Reduced offsets and counts pass the checks of the tables all the more. -/
theorem tablesOk :
    (p.hdr host.order emb m).TablesOk host (p.image host.order emb m) := by
  have hlen := p.length_image host.order emb m
  have hnode := length_nodeTable (p := p) (o := host.order)
  have hchild := length_childTable (p := p) (o := host.order)
  have hsize : p.size host.order = p.nodeMetaOff host.order +
    (p.nodeTable host.order).length + (p.childTable host.order).length := rfl
  have hpasses : ∀ (off count size : Nat), off + count * size ≤ p.size host.order →
      tableOk host (p.image host.order emb m) (UInt32.ofNat off) (UInt32.ofNat count) size =
        true := by
    intro off count size hle
    have hoff : (UInt32.ofNat off).toNat ≤ off := (UInt32.toNat_ofNat' ..).trans_le (Nat.mod_le _ _)
    have hcount : (UInt32.ofNat count).toNat ≤ count :=
      (UInt32.toNat_ofNat' ..).trans_le (Nat.mod_le _ _)
    have hmul := Nat.mul_le_mul_right size hcount
    rw [tableOk, boundsOk, decide_eq_true_eq, hlen, Host.size_of_lt (by omega)]
    exact (Nat.mod_le _ _).trans (by omega)
  refine ⟨fun _ => hpasses _ _ _ (by omega), fun _ => hpasses _ _ _ ?_⟩
  unfold childMetaOff
  omega

omit hp in
theorem mapping_image :
    mapping host (p.image host.order emb m) = p.image host.order emb m := by
  have hlen := p.length_image host.order emb m
  rw [mapping, Host.size_of_lt (by omega), List.take_length]

omit hp hmapped in
/-- The size of the file is compared in 32 bits. -/
theorem checkHeader_image : checkHeader host (p.image host.order emb m) =
    .ok (p.hdr host.order emb m) := by
  have hlen := p.length_image host.order emb m
  have hread : FileHdr.read host.order (p.image host.order emb m) =
      p.hdr host.order emb m := FileHdr.read_encode _ _ _
  have hsize : fileHdrSize + p.tab.length ≤ p.size host.order := by
    unfold size childMetaOff nodeMetaOff childEmbOff nodeEmbOff
    omega
  have htab : (p.hdr host.order emb m).strtabSize.toNat ≤ p.tab.length :=
    (UInt32.toNat_ofNat' ..).trans_le (Nat.mod_le _ _)
  have hmagic : (p.image host.order emb m).take 4 = magic := by
    rw [image, FileHdr.encode, List.append_assoc]
    rfl
  unfold checkHeader
  rw [if_neg (by omega), if_neg (by simp [hmagic])]
  simp only [hread]
  rw [if_neg (by simp [hdr]), if_neg (by simp [hdr, hlen]), if_neg]
  simp only [Bool.not_eq_true', Bool.not_eq_false]
  rw [boundsOk, decide_eq_true_eq, hdr_strtabOff, hlen]
  exact (Nat.mod_le _ _).trans (by omega)

end Opens

end Parts

end Ipa
