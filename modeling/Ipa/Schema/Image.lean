import Ipa.Schema.Strings

/-!
# The image of a manifest

`Parts` are what the passes leave: the string table, the references, the vectors, the rows. Their
image is the header, the table, the two blocks of embedding entries and the two tables of rows,
one behind the other. `Parts.Of` says which manifest they are the parts of, and `compile_keeps`
that the compiler writes the image of such parts.
-/

namespace Ipa

open Run

/-- One embedding entry. -/
def entryBytes (o : ByteOrder) (e : StrRef × List Binary32) : List UInt8 :=
  o.encode (EmbHdr.words ⟨e.1.off, e.1.len⟩) ++ o.encode (vectorWords e.2)

/-- A block of embedding entries. -/
def entriesBytes (o : ByteOrder) (labels : List StrRef) (vecs : List (List Binary32)) :
    List UInt8 :=
  (labels.zip vecs).flatMap (entryBytes o)

theorem length_entryBytes (o : ByteOrder) (e : StrRef × List Binary32) :
    (entryBytes o e).length = embHdrSize + 4 * e.2.length := by
  simp [entryBytes, EmbHdr.words, vectorWords, embHdrSize]

theorem length_entriesBytes {o : ByteOrder} {labels : List StrRef} {vecs : List (List Binary32)} {dim : Nat}
    (hlen : vecs.length = labels.length) (hdims : ∀ v ∈ vecs, v.length = dim) :
    (entriesBytes o labels vecs).length = labels.length * (embHdrSize + 4 * dim) := by
  rw [entriesBytes, length_flatMap_const (k := embHdrSize + 4 * dim), List.length_zip, hlen,
    Nat.min_self]
  rintro ⟨ref, v⟩ he
  rw [length_entryBytes, hdims v (List.of_mem_zip he).2]

/-- A table of rows. -/
def rowsBytes (o : ByteOrder) (rows : List (List UInt32)) : List UInt8 := rows.flatMap o.encode

theorem length_rowsBytes {o : ByteOrder} {rows : List (List UInt32)} {k : Nat}
    (hrows : ∀ row ∈ rows, 4 * row.length = k) : (rowsBytes o rows).length = rows.length * k := by
  refine length_flatMap_const fun row hrow => ?_
  rw [ByteOrder.length_encode, hrows row hrow]

structure Parts where
  tab : List UInt8
  id : StrRef
  vendor : StrRef
  schemaver : StrRef
  nodeLabels : List StrRef
  childLabels : List StrRef
  nodeVecs : List (List Binary32)
  childVecs : List (List Binary32)
  nodeRows : List NodeMeta
  childRows : List ChildMeta

namespace Parts

variable (p : Parts) (o : ByteOrder)

def nodeEntries : List UInt8 := entriesBytes o p.nodeLabels p.nodeVecs

def childEntries : List UInt8 := entriesBytes o p.childLabels p.childVecs

def nodeTable : List UInt8 := rowsBytes o (p.nodeRows.map (·.words))

def childTable : List UInt8 := rowsBytes o (p.childRows.map (·.words))

def nodeEmbOff : Nat := fileHdrSize + p.tab.length

def childEmbOff : Nat := p.nodeEmbOff + (p.nodeEntries o).length

def nodeMetaOff : Nat := p.childEmbOff o + (p.childEntries o).length

def childMetaOff : Nat := p.nodeMetaOff o + (p.nodeTable o).length

def size : Nat := p.childMetaOff o + (p.childTable o).length

def hdr (emb : Emb) (m : Manifest) : FileHdr where
  version := 1
  fileSize := UInt32.ofNat (p.size o)
  strtabOff := UInt32.ofNat fileHdrSize
  strtabSize := UInt32.ofNat p.tab.length
  idOff := p.id.off
  idLen := p.id.len
  vendorOff := p.vendor.off
  vendorLen := p.vendor.len
  schemaverOff := p.schemaver.off
  schemaverLen := p.schemaver.len
  nodeThreshold := m.nodeThreshold
  minNgram := m.minNgram.toUInt32
  maxNgram := m.maxNgram.toUInt32
  embDim := UInt32.ofNat emb.dim.toNat
  nodeEmbOff := UInt32.ofNat p.nodeEmbOff
  nodeEmbCount := UInt32.ofNat p.nodeLabels.length
  childEmbOff := UInt32.ofNat (p.childEmbOff o)
  childEmbCount := UInt32.ofNat p.childLabels.length
  nodeMetaOff := UInt32.ofNat (p.nodeMetaOff o)
  nodeMetaCount := UInt32.ofNat p.nodeRows.length
  childMetaOff := UInt32.ofNat (p.childMetaOff o)
  childMetaCount := UInt32.ofNat p.childRows.length

/-- What stands behind the header. -/
def body : List UInt8 :=
  p.tab ++ p.nodeEntries o ++ p.childEntries o ++ p.nodeTable o ++ p.childTable o

def image (emb : Emb) (m : Manifest) : List UInt8 := (p.hdr o emb m).encode o ++ p.body o

theorem length_image (emb : Emb) (m : Manifest) : (p.image o emb m).length = p.size o := by
  simp only [image, body, List.length_append, FileHdr.length_encode, size, childMetaOff,
    nodeMetaOff, childEmbOff, nodeEmbOff]
  omega

/-- The vector is the embedding of the description. -/
def Embeds (emb : Emb) (v : List Binary32) (x : Place × Option CStr) : Prop :=
  ∃ text, x.2 = some text ∧ emb.exec text = some v

/-- The parts are those of a manifest. -/
structure Of (emb : Emb) (m : Manifest) (p : Parts) : Prop where
  dim : 0 < emb.dim
  strings : p.tab = tabBytes (tableStrings m)
  id : Refers p.tab p.id (orEmpty m.id)
  vendor : Refers p.tab p.vendor (orEmpty m.vendor)
  schemaver : Refers p.tab p.schemaver (orEmpty m.version)
  nodeLabels : List.Forall₂ (fun ref x => Refers p.tab ref x.1.node.id) p.nodeLabels
    (descriptionsAt (nodePlaces m.nodes))
  childLabels : List.Forall₂ (fun ref x => Refers p.tab ref x.1.node.id) p.childLabels
    (descriptionsAt (childPlaces m.nodes))
  nodeVecs : List.Forall₂ (Embeds emb) p.nodeVecs (descriptionsAt (nodePlaces m.nodes))
  childVecs : List.Forall₂ (Embeds emb) p.childVecs (descriptionsAt (childPlaces m.nodes))
  nodeRows : List.Forall₂ (NodeRowFor p.tab) p.nodeRows (slotsAt (nodePlaces m.nodes))
  childRows : List.Forall₂ (ChildRowFor p.tab) p.childRows (slotsAt (childPlaces m.nodes))

theorem Of.start {emb : Emb} {m : Manifest} {p : Parts} (hp : p.Of emb m) :
    ∃ rest, p.tab = tabBytes [orEmpty m.id] ++ rest := by
  rw [hp.strings, tableStrings, List.append_assoc, List.cons_append, tabBytes_cons]
  exact ⟨_, rfl⟩

theorem dims_of_embeds {emb : Emb} {vecs : List (List Binary32)} {xs : List (Place × Option CStr)}
    (h : List.Forall₂ (Embeds emb) vecs xs) : ∀ v ∈ vecs, v.length = emb.dim.toNat := by
  induction h with
  | nil => intro v hv; cases hv
  | cons hv _ ih =>
    intro v hmem
    rcases List.mem_cons.mp hmem with rfl | hmem
    · obtain ⟨text, -, hexec⟩ := hv
      exact emb.exec_length text _ hexec
    · exact ih v hmem

end Parts

/-! ## The size of an image -/

def Emb.entrySize (emb : Emb) : Nat := embHdrSize + 4 * emb.dim.toNat

def nodeEmbStart (m : Manifest) : Nat := fileHdrSize + (tabBytes (tableStrings m)).length

def childEmbStart (emb : Emb) (m : Manifest) : Nat :=
  nodeEmbStart m + totalNodeEmb m.nodes * emb.entrySize

def nodeMetaStart (emb : Emb) (m : Manifest) : Nat :=
  childEmbStart emb m + totalChildEmb m.nodes * emb.entrySize

def childMetaStart (emb : Emb) (m : Manifest) : Nat :=
  nodeMetaStart emb m + (slotsAt (nodePlaces m.nodes)).length * nodeMetaSize

/-- The bytes that the header, the strings, the entries and the rows of a manifest take. -/
def imageSize (emb : Emb) (m : Manifest) : Nat :=
  childMetaStart emb m + (slotsAt (childPlaces m.nodes)).length * childMetaSize

theorem imageSize_eq (emb : Emb) (m : Manifest) : imageSize emb m =
    fileHdrSize + (tabBytes (tableStrings m)).length +
      totalNodeEmb m.nodes * emb.entrySize + totalChildEmb m.nodes * emb.entrySize +
      (slotsAt (nodePlaces m.nodes)).length * nodeMetaSize +
      (slotsAt (childPlaces m.nodes)).length * childMetaSize := rfl

theorem Emb.entrySize_pos (emb : Emb) : 0 < emb.entrySize :=
  Nat.add_pos_left (by decide) _

/-! ## Images whose header can be read -/

/-- The header states in full where the strings end, and where and how many the entries of the
children are. -/
structure Manifest.EntriesWhole (emb : Emb) (m : Manifest) : Prop where
  strings : nodeEmbStart m < 2 ^ 32
  children : 0 < totalChildEmb m.nodes → childEmbStart emb m < 2 ^ 32
  childCount : totalChildEmb m.nodes < 2 ^ 32

/-- The header states in full where and how many the rows of the nodes are. -/
structure Manifest.NodesWhole (emb : Emb) (m : Manifest) : Prop where
  nodeTable : nodeMetaStart emb m < 2 ^ 32
  nodeRows : (slotsAt (nodePlaces m.nodes)).length < 2 ^ 32

/-- The header states in full where and how many the entries and the rows are. What is behind the
start of the last table, and with it the size of the file, may be larger. -/
structure Manifest.Whole (emb : Emb) (m : Manifest) : Prop extends m.NodesWhole emb where
  childTable : 0 < (slotsAt (childPlaces m.nodes)).length → childMetaStart emb m < 2 ^ 32
  childRows : (slotsAt (childPlaces m.nodes)).length < 2 ^ 32

theorem Manifest.NodesWhole.nodeCount {emb : Emb} {m : Manifest} (h : m.NodesWhole emb) :
    totalNodeEmb m.nodes < 2 ^ 32 := by
  have htable := h.nodeTable
  have hcount := Nat.le_mul_of_pos_right (totalNodeEmb m.nodes) emb.entrySize_pos
  unfold nodeMetaStart childEmbStart at htable
  omega

/-- The rows stand behind the entries. -/
theorem Manifest.NodesWhole.entries {emb : Emb} {m : Manifest} (h : m.NodesWhole emb) :
    m.EntriesWhole emb := by
  have htable := h.nodeTable
  have hcount := Nat.le_mul_of_pos_right (totalChildEmb m.nodes) emb.entrySize_pos
  unfold nodeMetaStart childEmbStart at htable
  exact ⟨by omega, fun _ => by unfold childEmbStart; omega, by omega⟩

/-- An image of less than 2^32 bytes has a header that states everything. -/
theorem Manifest.whole_of_size {emb : Emb} {m : Manifest} (h : imageSize emb m < 2 ^ 32) :
    m.Whole emb := by
  unfold imageSize childMetaStart nodeMetaSize childMetaSize at h
  exact ⟨⟨by omega, by omega⟩, fun _ => by unfold childMetaStart nodeMetaSize; omega, by omega⟩

/-! ## The passes that write -/

section Passes

variable {host : Host} {emb : Emb} {I : Env → Prop} {X : Stop BuildError → Prop}

variable [Serves I X BuildError.noMemory]

theorem wbufAppend_keeps {w : Buffer} {src : List UInt8}
    (hroom : Buffer.Roomy host X w src.length) :
    Keeps I X (wbufAppend host w src) fun w' =>
      w'.data = w.data ++ src ∧ (w.Sound host → w'.Sound host) :=
  Buffer.append_keeps hroom

/-- The state after the entries of the descriptions in `done`. -/
structure Entered (host : Host) (emb : Emb) (labels : List StrRef) (buf : Buffer)
    (done : List (Place × Option CStr)) (st : Writing) : Prop where
  next : st.next = done.length
  sound : buf.Sound host → st.buf.Sound host
  labelled : done.length ≤ labels.length
  data : ∃ vecs, List.Forall₂ (Parts.Embeds emb) vecs done ∧
    st.buf.data = buf.data ++ entriesBytes host.order (labels.take done.length) vecs

theorem entriesBytes_append (o : ByteOrder) {labels : List StrRef} {vecs : List (List Binary32)}
    (hlen : labels.length = vecs.length) (label : StrRef) (v : List Binary32) :
    entriesBytes o (labels ++ [label]) (vecs ++ [v]) =
      entriesBytes o labels vecs ++ entryBytes o (label, v) := by
  rw [entriesBytes, List.zip_append hlen, List.flatMap_append, ← entriesBytes]
  simp

omit [Serves I X BuildError.noMemory] in
theorem Entered.length {labels : List StrRef} {buf : Buffer} {done : List (Place × Option CStr)}
    {st : Writing} (h : Entered host emb labels buf done st) :
    st.buf.data.length = buf.data.length + done.length * emb.entrySize := by
  obtain ⟨vecs, hvecs, hdata⟩ := h.data
  have hlen : (labels.take done.length).length = done.length := by
    rw [List.length_take, Nat.min_eq_left h.labelled]
  rw [hdata, List.length_append, length_entriesBytes (hvecs.length_eq.trans hlen.symm)
    (Parts.dims_of_embeds hvecs), hlen, Emb.entrySize]

theorem writeEmb_keeps {labels : List StrRef} {buf : Buffer} {done : List (Place × Option CStr)}
    {st : Writing} (h : Entered host emb labels buf done st) (x : Place × Option CStr)
    (hlabel : done.length < labels.length)
    (hembeds : x.2.bind emb.exec = none → X (.fail (.embedding x.2)))
    (hroom : Buffer.Roomy host X buf ((done.length + 1) * emb.entrySize)) :
    Keeps I X (writeEmb host emb labels st x.2) (Entered host emb labels buf (done ++ [x])) := by
  have hlen := h.length
  have hsize : emb.entrySize = embHdrSize + 4 * emb.dim.toNat := rfl
  rw [Nat.succ_mul, hsize] at hroom
  rw [hsize] at hlen
  have hout : host.size (emb.dim.toNat * 4) / 4 < emb.dim.toNat → X (.fault .index) := by
    intro hlt
    rcases hroom with ⟨-, hindex⟩ | ⟨-, hle⟩
    · exact hindex
    · rw [Host.size_of_lt (by unfold embHdrSize at hle; omega)] at hlt
      omega
  unfold writeEmb
  refine Keeps.bind (embExec_keeps hout) fun r hr => ?_
  obtain ⟨hexec, hfits⟩ := hr
  cases r with
  | none => exact Keeps.fail (hembeds hexec.symm)
  | some v =>
    obtain ⟨text, htext, hexec⟩ := Option.bind_eq_some_iff.mp hexec.symm
    have hdim := emb.exec_length text v hexec
    have hle := hfits v rfl
    simp only
    rw [h.next, List.getElem?_eq_getElem hlabel]
    simp only
    -- the buffer for the vector is large enough, so its byte count did not wrap
    have htake : (host.order.encode (vectorWords v)).take (host.size (emb.dim.toNat * 4)) =
        host.order.encode (vectorWords v) := by
      apply List.take_of_length_le
      rw [ByteOrder.length_encode, vectorWords, List.length_map]
      omega
    have hvec : (host.order.encode (vectorWords v)).length = 4 * emb.dim.toNat := by
      rw [ByteOrder.length_encode, vectorWords, List.length_map, hdim]
    refine Keeps.bind (wbufAppend_keeps (hroom.mono h.sound ?_)) ?_
    · rw [ByteOrder.length_encode]
      simp only [EmbHdr.words, List.length_cons, List.length_nil]
      unfold embHdrSize at hlen ⊢
      omega
    rintro w ⟨hw, hsound⟩
    refine Keeps.bind (wbufAppend_keeps (hroom.mono (fun hs => hsound (h.sound hs)) ?_)) ?_
    · rw [hw, htake, hvec, List.length_append, ByteOrder.length_encode]
      simp only [EmbHdr.words, List.length_cons, List.length_nil]
      unfold embHdrSize at hlen ⊢
      omega
    rintro w' ⟨hw', hsound'⟩
    obtain ⟨vecs, hvecs, hdata⟩ := h.data
    refine Keeps.pure ⟨by simp, fun hs => hsound' (hsound (h.sound hs)), ?_, vecs ++ [v], ?_, ?_⟩
    · rw [List.length_append, List.length_singleton]
      omega
    · exact List.rel_append hvecs (.cons ⟨text, htext, hexec⟩ .nil)
    · rw [hw', htake, hw, hdata, List.length_append, List.length_singleton,
        List.take_add_one, List.getElem?_eq_getElem hlabel, Option.toList_some,
        entriesBytes_append, entryBytes]
      · simp only [List.append_assoc]
      · rw [List.length_take, hvecs.length_eq, Nat.min_eq_left h.labelled]

theorem writeEmbs_keeps {labels : List StrRef} {buf : Buffer}
    {descriptions : List (Place × Option CStr)} (hlabels : labels.length = descriptions.length)
    (hembeds : ∀ x ∈ descriptions, x.2.bind emb.exec = none → X (.fail (.embedding x.2)))
    (hroom : Buffer.Roomy host X buf (descriptions.length * emb.entrySize)) :
    Keeps I X (descriptions.foldlM (fun st x => writeEmb host emb labels st x.2) ⟨buf, 0⟩)
      (Entered host emb labels buf descriptions) := by
  refine Keeps.foldlM_split (Entered host emb labels buf)
    ⟨rfl, id, Nat.zero_le _, [], .nil, by simp [entriesBytes]⟩ ?_
  intro done x rest st hsplit hst
  have hlt : done.length < descriptions.length := by
    rw [hsplit, List.length_append, List.length_cons]
    omega
  refine writeEmb_keeps hst x (hlabels ▸ hlt) (hembeds x (hsplit ▸ by simp)) ?_
  exact hroom.mono id (Nat.add_le_add_left (Nat.mul_le_mul_right _ hlt) _)

theorem writeNodeEmbs_eq (labels : List StrRef) (nodes : List NodeDef) (buf : Buffer) :
    writeNodeEmbs host emb labels nodes buf = (do
      let st ← (descriptionsAt (nodePlaces nodes)).foldlM
        (fun st x => writeEmb host emb labels st x.2) ⟨buf, 0⟩
      pure st.buf) := by
  rw [writeNodeEmbs, descriptionsAt, atPlaces, foldlM_flatMap, nodePlaces]
  simp only [List.foldlM_map, Place.node, Option.getD_none]

theorem writeChildEmbs_eq (labels : List StrRef) (nodes : List NodeDef) (buf : Buffer) :
    writeChildEmbs host emb labels nodes buf = (do
      let st ← (descriptionsAt (childPlaces nodes)).foldlM
        (fun st x => writeEmb host emb labels st x.2) ⟨buf, 0⟩
      pure st.buf) := by
  rw [writeChildEmbs, descriptionsAt, atPlaces, foldlM_flatMap, childPlaces, foldlM_flatMap]
  simp only [List.foldlM_map, Place.node, Option.getD_some]

/-- The state after `n` rows. -/
structure Listed (host : Host) (rows : List (List UInt32)) (buf : Buffer) (n : Nat)
    (st : Writing) : Prop where
  next : st.next = n
  sound : buf.Sound host → st.buf.Sound host
  data : st.buf.data = buf.data ++ rowsBytes host.order (rows.take n)

theorem writeRow_keeps {rows : List (List UInt32)} {buf : Buffer} {n k : Nat} {st : Writing}
    (hrows : ∀ row ∈ rows, 4 * row.length = k) (h : Listed host rows buf n st)
    (hrow : n < rows.length) (hroom : Buffer.Roomy host X buf ((n + 1) * k)) :
    Keeps I X (writeRow host rows st) (Listed host rows buf (n + 1)) := by
  have hlen := congrArg List.length h.data
  rw [List.length_append, length_rowsBytes fun row hmem => hrows row (List.mem_of_mem_take hmem),
    List.length_take, Nat.min_eq_left (Nat.le_of_lt hrow)] at hlen
  unfold writeRow
  rw [h.next, List.getElem?_eq_getElem hrow]
  simp only
  refine Keeps.bind (wbufAppend_keeps (hroom.mono h.sound ?_)) ?_
  · rw [ByteOrder.length_encode, hrows _ (List.getElem_mem hrow), hlen, Nat.succ_mul]
    omega
  rintro w ⟨hw, hsound⟩
  refine Keeps.pure ⟨rfl, fun hs => hsound (h.sound hs), ?_⟩
  rw [hw, h.data, List.take_add_one, List.getElem?_eq_getElem hrow, Option.toList_some, rowsBytes,
    rowsBytes, List.flatMap_append, List.append_assoc]
  simp

theorem writeRows_keeps {rows : List (List UInt32)} {buf : Buffer} {k : Nat}
    {slots : List (Place × Option EmitDef)} (hrows : ∀ row ∈ rows, 4 * row.length = k)
    (hlen : rows.length = slots.length) (hroom : Buffer.Roomy host X buf (slots.length * k)) :
    Keeps I X (slots.foldlM (fun st _ => writeRow host rows st) ⟨buf, 0⟩)
      (Listed host rows buf slots.length) := by
  refine Keeps.foldlM_split (fun done => Listed host rows buf done.length)
    ⟨rfl, id, by simp [rowsBytes]⟩ ?_
  intro done x rest st hsplit hst
  have hlt : done.length < slots.length := by
    rw [hsplit, List.length_append, List.length_cons]
    omega
  rw [List.length_append, List.length_singleton]
  exact writeRow_keeps hrows hst (hlen ▸ hlt)
    (hroom.mono id (Nat.add_le_add_left (Nat.mul_le_mul_right _ hlt) _))

theorem writeNodeMetas_eq (rows : List NodeMeta) (nodes : List NodeDef) (buf : Buffer) :
    writeNodeMetas host rows nodes buf = (slotsAt (nodePlaces nodes)).foldlM
      (fun st _ => writeRow host (rows.map (·.words)) st) ⟨buf, 0⟩ := by
  rw [writeNodeMetas, slotsAt, atPlaces, foldlM_flatMap, nodePlaces]
  simp only [List.foldlM_map, Place.node, Option.getD_none]

theorem writeChildMetas_eq (rows : List ChildMeta) (nodes : List NodeDef) (buf : Buffer) :
    writeChildMetas host rows nodes buf = (slotsAt (childPlaces nodes)).foldlM
      (fun st _ => writeRow host (rows.map (·.words)) st) ⟨buf, 0⟩ := by
  rw [writeChildMetas, slotsAt, atPlaces, foldlM_flatMap, childPlaces, foldlM_flatMap]
  simp only [List.foldlM_map, Place.node, Option.getD_some]

/-! ## The compiler -/

theorem length_nodeDescriptions (nodes : List NodeDef) :
    totalNodeEmb nodes = (descriptionsAt (nodePlaces nodes)).length := by
  simp [totalNodeEmb, descriptionsAt, atPlaces, nodePlaces, Place.node, List.length_flatMap,
    Function.comp_def]

theorem length_childDescriptions (nodes : List NodeDef) :
    totalChildEmb nodes = (descriptionsAt (childPlaces nodes)).length := by
  induction nodes with
  | nil => rfl
  | cons nd nodes ih =>
    have hcons : descriptionsAt (childPlaces (nd :: nodes)) =
        descriptionsAt (nd.children.map fun ch => (nd, some ch)) ++
          descriptionsAt (childPlaces nodes) := atPlaces_append _ _ _
    rw [hcons, List.length_append, ← ih]
    simp [totalChildEmb, descriptionsAt, atPlaces, Place.node, List.length_flatMap,
      Function.comp_def]

/-- What can end the compiler early is accepted: a model without a dimension, a string that is
`NULL`, a description that the model refuses, an image beyond half of the range of `size_t`. -/
structure Compiles (host : Host) (emb : Emb) (X : Stop BuildError → Prop) (m : Manifest) :
    Prop where
  dim : emb.dim ≤ 0 → X (.fail (.embDim emb.dim))
  derefs : Derefs X m.nodes
  embeds : ∀ x ∈ descriptionsAt (nodePlaces m.nodes) ++ descriptionsAt (childPlaces m.nodes),
    x.2.bind emb.exec = none → X (.fail (.embedding x.2))
  room : host.sizeMod < 2 * imageSize emb m → X (.fault .fuel) ∧ X (.fault .index)

omit [Serves I X BuildError.noMemory] in
theorem Compiles.roomy {m : Manifest} (h : Compiles host emb X m) {buf : Buffer} {amount : Nat}
    (hsound : buf.Sound host) (hle : buf.data.length + amount ≤ imageSize emb m) :
    Buffer.Roomy host X buf amount := by
  by_cases hroom : 2 * imageSize emb m ≤ host.sizeMod
  · exact .inr ⟨hsound, by omega⟩
  · exact .inl (h.room (by omega))

theorem nodeMeta_words {rows : List NodeMeta} :
    ∀ row ∈ rows.map (·.words), 4 * row.length = nodeMetaSize := by
  intro row hrow
  obtain ⟨row, -, rfl⟩ := List.mem_map.mp hrow
  rfl

theorem childMeta_words {rows : List ChildMeta} :
    ∀ row ∈ rows.map (·.words), 4 * row.length = childMetaSize := by
  intro row hrow
  obtain ⟨row, -, rfl⟩ := List.mem_map.mp hrow
  rfl

section Write

variable {m : Manifest} (h : Compiles host emb X m) (hdim : 0 < emb.dim) {r : Referenced}
  (hr : r.Of host m)

include h hdim hr

/-- The passes that write lay the parts one behind the other. -/
theorem layOut_keeps :
    Keeps I X (layOut host emb m r) fun image => ∃ p : Parts, p.Of emb m ∧
      image = p.image host.order emb m ∧ 2 * image.length ≤ host.sizeMod := by
  have hsize := imageSize_eq emb m
  have hnodeCount := length_nodeDescriptions m.nodes
  have hchildCount := length_childDescriptions m.nodes
  have hbufLen : r.buf.data.length = fileHdrSize := by rw [hr.zeros, List.length_replicate]
  unfold layOut
  refine Keeps.bind (wbufAppend_keeps (h.roomy hr.sound ?_)) fun buf hbuf => ?_
  · rw [hbufLen, hr.strings]
    omega
  have hnodeOff : buf.data.length = fileHdrSize + (tabBytes (tableStrings m)).length := by
    rw [hbuf.1, List.length_append, hbufLen, hr.strings]
  simp only [writeNodeEmbs_eq, writeChildEmbs_eq, writeNodeMetas_eq, writeChildMetas_eq,
    bind_assoc, pure_bind]
  have hsoundBuf := hbuf.2 hr.sound
  refine Keeps.bind (writeEmbs_keeps hr.nodeLabels.length_eq
    (fun x hx => h.embeds x (List.mem_append_left _ hx)) (h.roomy hsoundBuf ?_))
    fun nodeEmbs hnodeEmbs => ?_
  · rw [hnodeOff, ← hnodeCount]
    omega
  have hchildOff := hnodeEmbs.length
  rw [hnodeOff, ← hnodeCount] at hchildOff
  refine Keeps.bind (writeEmbs_keeps hr.childLabels.length_eq
    (fun x hx => h.embeds x (List.mem_append_right _ hx)) (h.roomy (hnodeEmbs.sound hsoundBuf) ?_))
    fun childEmbs hchildEmbs => ?_
  · rw [hchildOff, ← hchildCount]
    omega
  have hnodeMetaOff := hchildEmbs.length
  rw [hchildOff, ← hchildCount] at hnodeMetaOff
  have hsoundBuf := hchildEmbs.sound (hnodeEmbs.sound hsoundBuf)
  refine Keeps.bind (writeRows_keeps nodeMeta_words
    ((List.length_map _).trans hr.nodeRows.length_eq) (h.roomy hsoundBuf ?_))
    fun nodeMetas hnodeMetas => ?_
  · rw [hnodeMetaOff]
    omega
  have hnodeTable := hnodeMetas.data
  rw [← hr.nodeRows.length_eq, List.take_of_length_le (by simp)] at hnodeTable
  have hchildMetaOff := congrArg List.length hnodeTable
  rw [List.length_append, length_rowsBytes nodeMeta_words, List.length_map,
    hr.nodeRows.length_eq, hnodeMetaOff] at hchildMetaOff
  have hsoundBuf := hnodeMetas.sound hsoundBuf
  refine Keeps.bind (writeRows_keeps childMeta_words
    ((List.length_map _).trans hr.childRows.length_eq) (h.roomy hsoundBuf ?_))
    fun childMetas hchildMetas => ?_
  · rw [hchildMetaOff]
    omega
  have hchildTable := hchildMetas.data
  rw [← hr.childRows.length_eq, List.take_of_length_le (by simp)] at hchildTable
  have hsoundBuf := hchildMetas.sound hsoundBuf
  obtain ⟨nodeVecs, hnodeVecs, hnodeData⟩ := hnodeEmbs.data
  obtain ⟨childVecs, hchildVecs, hchildData⟩ := hchildEmbs.data
  rw [← hr.nodeLabels.length_eq, List.take_length] at hnodeData
  rw [← hr.childLabels.length_eq, List.take_length] at hchildData
  let p : Parts := ⟨r.metas.strtab.data, r.id, r.vendor, r.schemaver, r.labels.nodeEmbLabel,
    r.labels.childEmbLabel, nodeVecs, childVecs, r.metas.nodeMeta, r.metas.childMeta⟩
  have hp : p.Of emb m := ⟨hdim, hr.strings, hr.id, hr.vendor, hr.schemaver, hr.nodeLabels,
    hr.childLabels, hnodeVecs, hchildVecs, hr.nodeRows, hr.childRows⟩
  -- each part starts where the one before it ends
  have hnodeAt : buf.data.length = p.nodeEmbOff := by rw [hnodeOff, ← hr.strings]; rfl
  have hchildAt : nodeEmbs.buf.data.length = p.childEmbOff host.order := by
    rw [hnodeData, List.length_append, hnodeAt]
    rfl
  have hnodeMetaAt : childEmbs.buf.data.length = p.nodeMetaOff host.order := by
    rw [hchildData, List.length_append, hchildAt]
    rfl
  have hchildMetaAt : nodeMetas.buf.data.length = p.childMetaOff host.order := by
    rw [hnodeTable, List.length_append, hnodeMetaAt]
    rfl
  have hsizeAt : childMetas.buf.data.length = p.size host.order := by
    rw [hchildTable, List.length_append, hchildMetaAt]
    rfl
  have hbody : childMetas.buf.data.drop fileHdrSize = p.body host.order := by
    rw [hchildTable, hnodeTable, hchildData, hnodeData, hbuf.1, hr.zeros]
    simp only [List.append_assoc]
    rw [List.drop_append_of_le_length (by simp), List.drop_replicate, Nat.sub_self,
      List.replicate_zero, List.nil_append]
    simp only [p, Parts.body, Parts.nodeEntries, Parts.childEntries, Parts.nodeTable,
      Parts.childTable, List.append_assoc]
  refine Keeps.pure ⟨p, hp, ?_, ?_⟩
  · rw [hbody, hsizeAt, hchildMetaAt, hnodeMetaAt, hchildAt, hnodeAt, hbufLen,
      hnodeMetas.next, hchildMetas.next, hnodeCount, hchildCount, ← hr.nodeLabels.length_eq,
      ← hr.childLabels.length_eq, ← hr.nodeRows.length_eq, ← hr.childRows.length_eq]
    rfl
  · rw [List.length_append, FileHdr.length_encode, List.length_drop]
    have hge : fileHdrSize ≤ childMetas.buf.data.length := by
      rw [hsizeAt, ← p.length_image host.order emb m, Parts.image, List.length_append,
        FileHdr.length_encode]
      omega
    rw [show fileHdrSize + (childMetas.buf.data.length - fileHdrSize) =
      childMetas.buf.data.length by omega]
    exact hsoundBuf.length_le

end Write

/-- **The compiler** writes the image of the parts of its manifest. -/
theorem compile_keeps {m : Manifest} (h : Compiles host emb X m) :
    Keeps I X (compile host emb m) fun image => ∃ p : Parts, p.Of emb m ∧
      image = p.image host.order emb m ∧ 2 * image.length ≤ host.sizeMod := by
  rw [compile_eq]
  split
  · rename_i hdim
    exact Keeps.fail (h.dim hdim)
  rename_i hdim
  refine Keeps.bind (references_keeps h.derefs fun hsound hle => h.roomy hsound ?_)
    fun r hr => layOut_keeps h (Int.not_le.mp hdim) hr
  have hsize := imageSize_eq emb m
  omega

end Passes

end Ipa
