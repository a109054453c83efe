import Ipa.Schema.Layout

/-!
# The passes over the strings

`compile` adds all strings to the table before it writes anything but zeros: first `references`,
then `layOut`. `Referenced.Of` says of which manifest the references are; they are references
into the table as it is in the end, because a table only grows.
-/

namespace Ipa

open Run

/-- What the passes over the strings leave: the buffer with room for the header, the references of
the header and of the labels, the rows. -/
structure Referenced where
  buf : Buffer
  id : StrRef
  vendor : StrRef
  schemaver : StrRef
  labels : Labels
  metas : Metas

/-- `compile` up to the last string. -/
def references (host : Host) (m : Manifest) : Run BuildError Referenced := do
  allocOr .noMemory
  let strtab ← strtabInit
  let buf ← wbufInit
  let buf ← wbufAppend host buf (List.replicate fileHdrSize 0)
  allocOr .noMemory
  allocOr .noMemory
  allocOr .noMemory
  let (id, strtab) ← strtabAdd host strtab (orEmpty m.id)
  let (vendor, strtab) ← strtabAdd host strtab (orEmpty m.vendor)
  let (schemaver, strtab) ← strtabAdd host strtab (orEmpty m.version)
  let labels ← m.nodes.foldlM (labelNode host) ⟨strtab, [], [], []⟩
  allocOr .noMemory
  allocOr .noMemory
  let metas ← m.nodes.foldlM (metaNode host) ⟨labels.strtab, [], []⟩
  pure ⟨buf, id, vendor, schemaver, labels, metas⟩

/-- `compile` from the string table on. -/
def layOut (host : Host) (emb : Emb) (m : Manifest) (r : Referenced) :
    Run BuildError (List UInt8) := do
  let buf ← wbufAppend host r.buf r.metas.strtab.data
  let nodeEmbOff := buf.data.length
  let buf ← writeNodeEmbs host emb r.labels.nodeEmbLabel m.nodes buf
  let childEmbOff := buf.data.length
  let buf ← writeChildEmbs host emb r.labels.childEmbLabel m.nodes buf
  let nodeMetaOff := buf.data.length
  let nodeRows ← writeNodeMetas host r.metas.nodeMeta m.nodes buf
  let childMetaOff := nodeRows.buf.data.length
  let childRows ← writeChildMetas host r.metas.childMeta m.nodes nodeRows.buf
  let image := childRows.buf.data
  let hdr : FileHdr := {
    version := 1
    fileSize := UInt32.ofNat image.length
    strtabOff := UInt32.ofNat r.buf.data.length
    strtabSize := UInt32.ofNat r.metas.strtab.data.length
    idOff := r.id.off, idLen := r.id.len
    vendorOff := r.vendor.off, vendorLen := r.vendor.len
    schemaverOff := r.schemaver.off, schemaverLen := r.schemaver.len
    nodeThreshold := m.nodeThreshold
    minNgram := m.minNgram.toUInt32
    maxNgram := m.maxNgram.toUInt32
    embDim := UInt32.ofNat emb.dim.toNat
    nodeEmbOff := UInt32.ofNat nodeEmbOff
    nodeEmbCount := UInt32.ofNat (totalNodeEmb m.nodes)
    childEmbOff := UInt32.ofNat childEmbOff
    childEmbCount := UInt32.ofNat (totalChildEmb m.nodes)
    nodeMetaOff := UInt32.ofNat nodeMetaOff
    nodeMetaCount := UInt32.ofNat nodeRows.next
    childMetaOff := UInt32.ofNat childMetaOff
    childMetaCount := UInt32.ofNat childRows.next }
  pure (hdr.encode host.order ++ image.drop fileHdrSize)

theorem compile_eq (host : Host) (emb : Emb) (m : Manifest) : compile host emb m =
    if emb.dim ≤ 0 then fail (.embDim emb.dim)
    else references host m >>= layOut host emb m := by
  unfold compile references layOut
  simp only [bind_assoc, pure_bind]

/-- The references are those of a manifest. -/
structure Referenced.Of (host : Host) (m : Manifest) (r : Referenced) : Prop where
  zeros : r.buf.data = List.replicate fileHdrSize 0
  sound : r.buf.Sound host
  strings : r.metas.strtab.data = tabBytes (tableStrings m)
  id : Refers r.metas.strtab.data r.id (orEmpty m.id)
  vendor : Refers r.metas.strtab.data r.vendor (orEmpty m.vendor)
  schemaver : Refers r.metas.strtab.data r.schemaver (orEmpty m.version)
  nodeLabels : List.Forall₂ (fun ref x => Refers r.metas.strtab.data ref x.1.node.id)
    r.labels.nodeEmbLabel (descriptionsAt (nodePlaces m.nodes))
  childLabels : List.Forall₂ (fun ref x => Refers r.metas.strtab.data ref x.1.node.id)
    r.labels.childEmbLabel (descriptionsAt (childPlaces m.nodes))
  nodeRows : List.Forall₂ (NodeRowFor r.metas.strtab.data) r.metas.nodeMeta
    (slotsAt (nodePlaces m.nodes))
  childRows : List.Forall₂ (ChildRowFor r.metas.strtab.data) r.metas.childMeta
    (slotsAt (childPlaces m.nodes))

section Passes

variable {host : Host} {I : Env → Prop} {X : Stop BuildError → Prop}
  [Serves I X BuildError.noMemory]

/-- A string that the passes dereference is not `NULL`, unless that end is accepted. -/
structure Derefs (X : Stop BuildError → Prop) (nodes : List NodeDef) : Prop where
  labels : ∀ x ∈ descriptionsAt (allPlaces nodes), ∀ s ∈ labelStrings x.1,
    s = none → X (.fault .null)
  rows : ∀ x ∈ slotsAt (allPlaces nodes), ∀ s ∈ slotStrings x, s = none → X (.fault .null)

omit [Serves I X BuildError.noMemory] in
theorem sound_of_pow {host : Host} {k : Nat} (hk : k < 32) :
    Buffer.Sound host ⟨[], 2 ^ k⟩ := by
  refine ⟨Nat.zero_le _, k, ?_, rfl⟩
  have : 32 ≤ host.width.bits := by cases host.width <;> decide
  omega

theorem strtabInit_keeps (host : Host) :
    Keeps I X strtabInit fun st => st.data = [] ∧ st.Sound host :=
  Keeps.bind Keeps.allocOr fun _ _ => Keeps.pure ⟨rfl, sound_of_pow (k := 16) (by decide)⟩

theorem wbufInit_keeps (host : Host) :
    Keeps I X wbufInit fun w => w.data = [] ∧ w.Sound host :=
  Keeps.bind Keeps.allocOr fun _ _ => Keeps.pure ⟨rfl, sound_of_pow (k := 17) (by decide)⟩

/-- The passes over the strings need room for the header and for the table. -/
theorem references_keeps {m : Manifest} (hderefs : Derefs X m.nodes)
    (hroom : ∀ {buf : Buffer} {amount : Nat}, buf.Sound host →
      (buf.data.length + amount ≤ fileHdrSize ∨
        buf.data.length + amount ≤ (tabBytes (tableStrings m)).length) →
          Buffer.Roomy host X buf amount) :
    Keeps I X (references host m) (Referenced.Of host m) := by
  have hstrings : (tabBytes (tableStrings m)).length =
      (tabBytes [orEmpty m.id]).length + (tabBytes [orEmpty m.vendor]).length +
      (tabBytes [orEmpty m.version]).length +
      (tabBytes ((descriptionsAt (allPlaces m.nodes)).flatMap fun x => labelStrings x.1)).length +
      (tabBytes ((slotsAt (allPlaces m.nodes)).flatMap slotStrings)).length := by
    rw [tableStrings, tabBytes_append, tabBytes_append, tabBytes_cons (orEmpty m.id) [_, _],
      tabBytes_cons (orEmpty m.vendor) [_]]
    simp only [List.length_append]
    omega
  unfold references
  refine Keeps.bind Keeps.allocOr fun _ _ => ?_
  refine Keeps.bind (strtabInit_keeps host) fun tab₀ htab₀ => ?_
  refine Keeps.bind (wbufInit_keeps host) fun buf₀ hbuf₀ => ?_
  refine Keeps.bind (Buffer.append_keeps (hroom hbuf₀.2 (.inl ?_))) fun buf₁ hbuf₁ => ?_
  · rw [hbuf₀.1, List.length_replicate, List.length_nil]
    omega
  refine Keeps.bind Keeps.allocOr fun _ _ => Keeps.bind Keeps.allocOr fun _ _ =>
    Keeps.bind Keeps.allocOr fun _ _ => ?_
  have hempty : ∀ p, orEmpty p = none → X (.fault .null) := fun p hp => by cases hp
  refine Keeps.bind (strtabAdd_keeps (hempty _) (hroom htab₀.2 (.inr ?_))) ?_
  · rw [htab₀.1, List.length_nil]
    omega
  rintro ⟨id, tab₁⟩ ⟨hid, hadd₁, hsound₁⟩
  simp only at hid hadd₁ hsound₁
  have hlen₁ := congrArg List.length hadd₁
  rw [htab₀.1, List.nil_append] at hlen₁
  refine Keeps.bind (strtabAdd_keeps (hempty _) (hroom (hsound₁ htab₀.2) (.inr (by omega)))) ?_
  rintro ⟨vendor, tab₂⟩ ⟨hvendor, hadd₂, hsound₂⟩
  simp only at hvendor hadd₂ hsound₂
  have hlen₂ := congrArg List.length hadd₂
  rw [List.length_append] at hlen₂
  refine Keeps.bind (strtabAdd_keeps (hempty _)
    (hroom (hsound₂ (hsound₁ htab₀.2)) (.inr (by omega)))) ?_
  rintro ⟨schemaver, tab₃⟩ ⟨hschemaver, hadd₃, hsound₃⟩
  simp only at hschemaver hadd₃ hsound₃
  have hlen₃ := congrArg List.length hadd₃
  rw [List.length_append] at hlen₃
  have hsound := hsound₃ (hsound₂ (hsound₁ htab₀.2))
  refine Keeps.bind (labelPass_keeps hderefs.labels (hroom hsound (.inr (by omega))))
    fun labels hlabels => ?_
  have hlen₄ := congrArg List.length hlabels.data
  rw [List.length_append] at hlen₄
  refine Keeps.bind Keeps.allocOr fun _ _ => Keeps.bind Keeps.allocOr fun _ _ => ?_
  refine Keeps.bind (metaPass_keeps hderefs.rows (hroom (hlabels.sound hsound)
    (.inr (by omega)))) fun metas hmetas => ?_
  have htab : metas.strtab.data = tabBytes (tableStrings m) := by
    rw [hmetas.data, hlabels.data, hadd₃, hadd₂, hadd₁, htab₀.1, tableStrings, tabBytes_append,
      tabBytes_append, tabBytes_cons (orEmpty m.id) [_, _], tabBytes_cons (orEmpty m.vendor) [_]]
    simp only [List.nil_append, List.append_assoc]
  have hlabel := hlabels.node
  have hchildLabel := hlabels.child
  have hrows := hmetas.node
  have hchildRows := hmetas.child
  rw [descriptionsAt, atPlaces_none, ← descriptionsAt] at hlabel
  rw [descriptionsAt, atPlaces_some, ← descriptionsAt] at hchildLabel
  rw [slotsAt, atPlaces_none, ← slotsAt] at hrows
  rw [slotsAt, atPlaces_some, ← slotsAt] at hchildRows
  -- later strings leave the references valid
  have hlater : ∀ ref str, Refers labels.strtab.data ref str →
      Refers metas.strtab.data ref str := by
    intro ref str href
    rw [hmetas.data]
    exact href.append _
  have hearly : ∀ ref str, Refers tab₃.data ref str → Refers metas.strtab.data ref str := by
    intro ref str href
    refine hlater ref str ?_
    rw [hlabels.data]
    exact href.append _
  refine Keeps.pure ⟨?_, hbuf₁.2 hbuf₀.2, htab, ?_, ?_, hearly _ _ hschemaver, ?_, ?_, hrows,
    hchildRows⟩
  · rw [hbuf₁.1, hbuf₀.1, List.nil_append]
  · refine hearly _ _ ?_
    rw [hadd₃, hadd₂]
    exact (hid.append _).append _
  · refine hearly _ _ ?_
    rw [hadd₃]
    exact hvendor.append _
  · exact hlabel.imp fun ref x href => hlater ref _ href
  · exact hchildLabel.imp fun ref x href => hlater ref _ href

end Passes

end Ipa
