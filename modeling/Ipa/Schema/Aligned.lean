import Ipa.Schema.Accepted

/-!
# Where the records of an image start

The compiler writes its records, the entries of the embeddings and the rows of the two tables, one
behind the other after the string table, and pads nothing. The runtime casts the places where they
start to structs of 32-bit fields. All of them start at a multiple of 4 exactly when the strings of
the manifest, with their terminators, add up to one.
-/

namespace Ipa

open Run

/-- Where the records that stand one behind the other from an offset on start. -/
def startsFrom (off : Nat) : List (List UInt8) → List Nat
  | [] => []
  | record :: records => off :: startsFrom (off + record.length) records

theorem startsFrom_eq {k : Nat} {records : List (List UInt8)}
    (hk : ∀ record ∈ records, record.length = k) (off : Nat) :
    startsFrom off records = (List.range records.length).map fun i => off + i * k := by
  induction records generalizing off with
  | nil => rfl
  | cons record records ih =>
    have hrecord := hk record List.mem_cons_self
    rw [startsFrom, hrecord, ih (fun r hr => hk r (List.mem_cons_of_mem _ hr)), List.length_cons,
      List.range_succ_eq_map, List.map_cons, List.map_map]
    congr 1
    · omega
    · refine List.map_congr_left fun i _ => ?_
      simp only [Function.comp_apply, Nat.succ_mul]
      omega

/-- Records of whole words start alike. -/
theorem startsFrom_aligned {records : List (List UInt8)}
    (hwords : ∀ record ∈ records, record.length % 4 = 0) (off : Nat) :
    ∀ start ∈ startsFrom off records, start % 4 = off % 4 := by
  induction records generalizing off with
  | nil =>
    intro start hstart
    cases hstart
  | cons record records ih =>
    intro start hstart
    have hrecord := hwords record List.mem_cons_self
    rcases List.mem_cons.mp hstart with rfl | hstart
    · rfl
    · have := ih (fun r hr => hwords r (List.mem_cons_of_mem _ hr)) _ start hstart
      omega

/-- The length of the strings of a manifest as the compiler collects them, each with its
terminator. -/
def stringBytes (m : Manifest) : Nat :=
  ((tableStrings m).map fun s => (s.getD CStr.empty).strlen + 1).sum

theorem length_tabBytes (strs : List (Option CStr)) :
    (tabBytes strs).length = (strs.map fun s => (s.getD CStr.empty).strlen + 1).sum := by
  rw [tabBytes, List.length_flatMap]
  congr 1
  refine List.map_congr_left fun s _ => ?_
  rw [List.length_append]
  rfl

/-- The places of the mapped file that `kc_ipa_open` casts to structs. -/
def FileHdr.casts (host : Host) (hdr : FileHdr) : List Nat :=
  (List.range hdr.nodeEmbCount.toNat).map
      (entryOffset host hdr.nodeEmbOff.toNat hdr.embDim.toNat) ++
    (List.range hdr.childEmbCount.toNat).map
      (entryOffset host hdr.childEmbOff.toNat hdr.embDim.toNat) ++
    (List.range hdr.nodeMetaCount.toNat).map (fun i => hdr.nodeMetaOff.toNat + i * nodeMetaSize) ++
    (List.range hdr.childMetaCount.toNat).map fun i => hdr.childMetaOff.toNat + i * childMetaSize

namespace Parts

variable {p : Parts} {o : ByteOrder} {emb : Emb} {m : Manifest}

/-- Where the records of an image start. -/
def starts (p : Parts) (o : ByteOrder) : List Nat :=
  startsFrom p.nodeEmbOff ((p.nodeLabels.zip p.nodeVecs).map (entryBytes o)) ++
    startsFrom (p.childEmbOff o) ((p.childLabels.zip p.childVecs).map (entryBytes o)) ++
    startsFrom (p.nodeMetaOff o) (p.nodeRows.map fun row => o.encode row.words) ++
    startsFrom (p.childMetaOff o) (p.childRows.map fun row => o.encode row.words)

theorem length_entry {labels : List StrRef} {vecs : List (List Binary32)} {dim : Nat}
    (hdims : ∀ v ∈ vecs, v.length = dim) :
    ∀ record ∈ (labels.zip vecs).map (entryBytes o), record.length = embHdrSize + 4 * dim := by
  intro record hrecord
  obtain ⟨⟨ref, v⟩, he, rfl⟩ := List.mem_map.mp hrecord
  rw [length_entryBytes, hdims v (List.of_mem_zip he).2]

theorem length_nodeRow : ∀ record ∈ p.nodeRows.map (fun row => o.encode row.words),
    record.length = nodeMetaSize := by
  intro record hrecord
  obtain ⟨row, -, rfl⟩ := List.mem_map.mp hrecord
  simp [NodeMeta.words, nodeMetaSize]

theorem length_childRow : ∀ record ∈ p.childRows.map (fun row => o.encode row.words),
    record.length = childMetaSize := by
  intro record hrecord
  obtain ⟨row, -, rfl⟩ := List.mem_map.mp hrecord
  simp [ChildMeta.words, childMetaSize]

theorem Of.tab_length (hp : p.Of emb m) : p.tab.length = stringBytes m := by
  rw [hp.strings, length_tabBytes]
  rfl

/-- All records start at one offset modulo 4. -/
theorem Of.starts_mod (hp : p.Of emb m) :
    ∀ start ∈ p.starts o, start % 4 = stringBytes m % 4 := by
  have htab := hp.tab_length
  have hnode : (p.nodeEntries o).length = p.nodeLabels.length * (embHdrSize + 4 * emb.dim.toNat) :=
    length_entriesBytes hp.nodeVecs_length (dims_of_embeds hp.nodeVecs)
  have hchild : (p.childEntries o).length =
      p.childLabels.length * (embHdrSize + 4 * emb.dim.toNat) :=
    length_entriesBytes hp.childVecs_length (dims_of_embeds hp.childVecs)
  have hrows := length_nodeTable (p := p) (o := o)
  have hentry : (embHdrSize + 4 * emb.dim.toNat) % 4 = 0 := by
    unfold embHdrSize
    omega
  have hwords : ∀ n k : Nat, k % 4 = 0 → n * k % 4 = 0 := by
    intro n k hk
    rw [Nat.mul_mod, hk, Nat.mul_zero]
  have h1 := hwords p.nodeLabels.length _ hentry
  have h2 := hwords p.childLabels.length _ hentry
  have h3 := hwords p.nodeRows.length nodeMetaSize rfl
  have hoff : p.nodeEmbOff % 4 = stringBytes m % 4 ∧ p.childEmbOff o % 4 = stringBytes m % 4 ∧
      p.nodeMetaOff o % 4 = stringBytes m % 4 ∧ p.childMetaOff o % 4 = stringBytes m % 4 := by
    unfold childMetaOff nodeMetaOff childEmbOff nodeEmbOff
    rw [hnode, hchild, hrows, htab]
    unfold fileHdrSize
    omega
  have hentries : ∀ (labels : List StrRef) (vecs : List (List Binary32)),
      (∀ v ∈ vecs, v.length = emb.dim.toNat) →
        ∀ record ∈ (labels.zip vecs).map (entryBytes o), record.length % 4 = 0 := by
    intro labels vecs hdims record hrecord
    rw [length_entry hdims record hrecord]
    exact hentry
  intro start hstart
  simp only [starts, List.mem_append] at hstart
  rcases hstart with ((hstart | hstart) | hstart) | hstart
  · exact (startsFrom_aligned (hentries _ _ (dims_of_embeds hp.nodeVecs)) _ start hstart).trans
      hoff.1
  · exact (startsFrom_aligned (hentries _ _ (dims_of_embeds hp.childVecs)) _ start hstart).trans
      hoff.2.1
  · refine (startsFrom_aligned (fun r hr => ?_) _ start hstart).trans hoff.2.2.1
    rw [length_nodeRow r hr]
    rfl
  · refine (startsFrom_aligned (fun r hr => ?_) _ start hstart).trans hoff.2.2.2
    rw [length_childRow r hr]
    rfl

/-- There is a row for every node. -/
theorem Of.starts_ne_nil (hp : p.Of emb m) (hnodes : m.nodes ≠ []) :
    ∃ start, start ∈ p.starts o := by
  obtain ⟨nd, nodes, hcons⟩ := List.exists_cons_of_ne_nil hnodes
  have hslots : slotsAt (nodePlaces m.nodes) ≠ [] := by
    intro hnil
    rw [hcons, slotsAt, nodePlaces, List.map_cons, atPlaces, List.flatMap_cons] at hnil
    exact emitSlots_ne_nil nd (List.map_eq_nil_iff.mp (List.append_eq_nil_iff.mp hnil).1)
  have hrows : p.nodeRows ≠ [] := by
    intro hnil
    have hlen := hp.nodeRows.length_eq
    rw [hnil] at hlen
    exact hslots (List.length_eq_zero_iff.mp hlen.symm)
  obtain ⟨row, rows, hrow⟩ := List.exists_cons_of_ne_nil hrows
  refine ⟨p.nodeMetaOff o, ?_⟩
  unfold starts
  rw [hrow, List.map_cons, startsFrom]
  simp

/-- The runtime casts the places where the records of a small image start. -/
theorem Of.casts_eq {host : Host} (hp : p.Of emb m) (hsmall : p.size host.order < 2 ^ 32) :
    (p.hdr host.order emb m).casts host = p.starts host.order := by
  have hloc := hp.located hsmall
  have hblock : ∀ (b : EmbBlock) {labels : List StrRef} {vecs : List (List Binary32)},
      b.Stored labels vecs → (List.range b.count).map (entryOffset b.host b.off b.dim) =
        startsFrom b.off ((labels.zip vecs).map (entryBytes b.host.order)) := by
    intro b labels vecs h
    rw [startsFrom_eq (length_entry h.dims), List.length_map, List.length_zip, h.labelCount,
      h.vecCount, Nat.min_self]
    refine List.map_congr_left fun i hi => ?_
    exact h.offset_eq (List.mem_range.mp hi)
  have hwhole := hp.whole hsmall
  have hnode := hblock _ (hp.nodeStored (Parts.lt_sizeMod hsmall) hwhole.toNodesWhole)
  have hchild := hblock _ (hp.childStored (Parts.lt_sizeMod hsmall) hwhole.entries)
  unfold FileHdr.nodeBlock at hnode
  unfold FileHdr.childBlock at hchild
  unfold FileHdr.casts starts
  dsimp only at hnode hchild
  rw [hnode, hchild, startsFrom_eq length_nodeRow, startsFrom_eq length_childRow, List.length_map,
    List.length_map, hloc.nodeMetaCount, hloc.nodeMetaOff, hloc.childMetaCount, hloc.childMetaOff,
    hloc.nodeEmbOff, hloc.childEmbOff]

end Parts

/-- **Alignment**: the records of a compiled image, which are what the runtime casts, start at
multiples of 4 exactly when the strings of the manifest take a multiple of 4 bytes. -/
theorem serialize_aligned_iff (host : Host) (emb? : Option Emb) (m : Manifest) (image : List UInt8)
    {e e' : Env} (hbuild : (serialize host emb? m).exec e = (.ok image, e')) :
    ∃ emb, emb? = some emb ∧ ∃ p : Parts, p.Of emb m ∧ image = p.image host.order emb m ∧
      (image.length < 2 ^ 32 →
        (FileHdr.read host.order image).casts host = p.starts host.order) ∧
      ((∀ start ∈ p.starts host.order, start % 4 = 0) ↔ stringBytes m % 4 = 0) := by
  obtain ⟨hvalid, emb, hemb, p, hp, rfl, -⟩ := serialize_ok hbuild
  refine ⟨emb, hemb, p, hp, rfl, fun hsmall => ?_, fun haligned => ?_, fun hbytes start hstart => ?_⟩
  · have hread : FileHdr.read host.order (p.image host.order emb m) = p.hdr host.order emb m :=
      FileHdr.read_encode _ _ _
    rw [p.length_image] at hsmall
    rw [hread]
    exact hp.casts_eq hsmall
  · obtain ⟨start, hstart⟩ := hp.starts_ne_nil (o := host.order) hvalid.nodes
    rw [← hp.starts_mod start hstart]
    exact haligned start hstart
  · rw [hp.starts_mod start hstart]
    exact hbytes

theorem serialize_aligned_iff_family : ∃ image e',
    (serialize unitSystem.host unitSystem.emb familyManifest).exec ⟨[], []⟩ = (.ok image, e') ∧
      ∃ emb, unitSystem.emb = some emb ∧ ∃ p : Parts, p.Of emb familyManifest ∧
        image = p.image .little emb familyManifest ∧
          ((∀ start ∈ p.starts .little, start % 4 = 0) ↔ stringBytes familyManifest % 4 = 0) := by
  obtain ⟨image, e', hbuild, -⟩ := exec_of_value?
    (x := serialize unitSystem.host unitSystem.emb familyManifest) (e := ⟨[], []⟩)
    (q := fun _ => true) (by decide +kernel)
  obtain ⟨emb, hemb, p, hp, himage, -, h⟩ :=
    serialize_aligned_iff unitSystem.host unitSystem.emb familyManifest image hbuild
  exact ⟨image, e', hbuild, emb, hemb, p, hp, himage, h⟩

/-- The members that every manifest has, and one node. -/
def leafText : List UInt8 := ascii
  ("\x7b\"schema\":\"ipa.map.v1\",\"id\":\"m\",\"vendor\":\"v\",\"version\":\"1\",\"nodes\":[" ++
    "\x7b\"id\":\"n\",\"descriptions\":[\"d\"]\x7d]\x7d")

/-- Strings of 10 bytes leave every record 2 bytes off. -/
theorem build_misaligned : ∃ image e',
    (@build ieee unitSystem.host unitSystem.emb leafText).exec ⟨[], []⟩ = (.ok image, e') ∧
      (FileHdr.read .little image).casts unitSystem.host = [102, 114] ∧
      ¬ ∀ start ∈ (FileHdr.read .little image).casts unitSystem.host, start % 4 = 0 := by
  obtain ⟨image, e', hbuild, hcasts⟩ := exec_of_value?
    (x := @build ieee unitSystem.host unitSystem.emb leafText) (e := ⟨[], []⟩)
    (q := fun image => (FileHdr.read .little image).casts unitSystem.host = [102, 114])
    (by decide +kernel)
  have hstarts := of_decide_eq_true hcasts
  refine ⟨image, e', hbuild, hstarts, fun h => ?_⟩
  have := h 102 (by rw [hstarts]; exact List.mem_cons_self)
  omega

end Ipa
