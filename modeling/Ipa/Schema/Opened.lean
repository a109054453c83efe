import Ipa.Schema.Entries

/-!
# What opening establishes

`OpenedFrom` says what a schema that `openSchema` returned has to do with its file: the fields of
the header, one index for each block of entries, the tables that passed their check. One triple
covers every use: which errors and faults may end the run, and which accesses the invariant must
admit, is left to the caller.
-/

namespace Ipa

open Run

/-- The embeddings of the nodes. -/
def FileHdr.nodeBlock (hdr : FileHdr) (host : Host) (mem : List UInt8) : EmbBlock :=
  ⟨host, mem, hdr.nodeEmbOff.toNat, hdr.nodeEmbCount.toNat, hdr.embDim.toNat, hdr.strtabOff.toNat⟩

/-- The embeddings of the children. -/
def FileHdr.childBlock (hdr : FileHdr) (host : Host) (mem : List UInt8) : EmbBlock :=
  ⟨host, mem, hdr.childEmbOff.toNat, hdr.childEmbCount.toNat, hdr.embDim.toNat,
    hdr.strtabOff.toNat⟩

/-- The two tables passed their bounds checks. -/
structure FileHdr.TablesOk (hdr : FileHdr) (host : Host) (mem : List UInt8) : Prop where
  node : 0 < hdr.nodeMetaCount →
    tableOk host mem hdr.nodeMetaOff hdr.nodeMetaCount nodeMetaSize = true
  child : 0 < hdr.childMetaCount →
    tableOk host mem hdr.childMetaOff hdr.childMetaCount childMetaSize = true

/-- The checks of all entries and of both tables pass. -/
structure FileHdr.Passes (hdr : FileHdr) (host : Host) (mem : List UInt8) : Prop where
  nodes : (hdr.nodeBlock host mem).Arrives (hdr.nodeBlock host mem).count
  children : (hdr.childBlock host mem).Arrives (hdr.childBlock host mem).count
  tables : hdr.TablesOk host mem

/-- What opening reads of the entries: those of the children only when those of the nodes are
taken. -/
def FileHdr.EntriesRead (hdr : FileHdr) (host : Host) (mem : List UInt8) (a : Access) : Prop :=
  (hdr.nodeBlock host mem).Reads a ∨
    (hdr.nodeBlock host mem).Arrives (hdr.nodeBlock host mem).count ∧
      (hdr.childBlock host mem).Reads a

/-- A block that is taken as a whole fits its arrays. -/
theorem EmbBlock.Arrives.fits {b : EmbBlock} (h : b.Arrives b.count) (hcount : 0 < b.count) : b.Fits := by
  obtain ⟨-, hvector, hslot⟩ := h (b.count - 1) (by omega)
  refine ⟨hvector, ?_⟩
  have hle : b.count * Hnsw.itemSize b.host ≤ b.slots * Hnsw.itemSize b.host :=
    Nat.mul_le_mul_right _ (by omega)
  have hslots : b.slots * Hnsw.itemSize b.host ≤ b.host.size (b.count * Hnsw.itemSize b.host) :=
    Nat.div_mul_le_self _ _
  have hlt := b.host.size_lt (b.count * Hnsw.itemSize b.host)
  omega

/-- The embedding model is there and has the dimension of the file. -/
structure System.Suits (sys : System) (hdr : FileHdr) (emb : Emb) : Prop where
  some : sys.emb = some emb
  dim : 0 < emb.dim ∧ UInt32.ofNat emb.dim.toNat = hdr.embDim

theorem System.Suits.dim_ne {sys : System} {hdr : FileHdr} {emb : Emb} (h : sys.Suits hdr emb) :
    hdr.embDim.toNat ≠ 0 := by
  have hlt := emb.dim_lt
  obtain ⟨hpos, heq⟩ := h.dim
  rw [← heq, UInt32.toNat_ofNat']
  omega

theorem System.Suits.not_mismatch {sys : System} {hdr : FileHdr} {emb : Emb}
    (h : sys.Suits hdr emb) : ¬ (emb.dim ≤ 0 ∨ UInt32.ofNat emb.dim.toNat ≠ hdr.embDim) := by
  obtain ⟨hpos, heq⟩ := h.dim
  rintro (hle | hne)
  · omega
  · exact hne heq

section Opening

variable [Arith]

/-- The index was built from the entries of the block, added in their order. -/
structure EmbBlock.BuiltInto (b : EmbBlock) (efSearch : Option Int) (seed : UInt64)
    (hnsw filled : Hnsw.Index) : Prop where
  fills : b.FilledTo b.count filled
  arrives : b.Arrives b.count
  received : ∃ e e', (b.fill efSearch seed).exec e = (.ok filled, e')
  built : ∃ e e', (Hnsw.build filled).exec e = (.ok hnsw, e')
  rebuilt : Hnsw.Rebuilt filled hnsw

/-- A schema and the file it was opened from. -/
structure OpenedFrom (sys : System) (mem : List UInt8) (hdr : FileHdr) (s : Schema) : Prop where
  mapped : s.mem = mem
  model : sys.emb = some s.emb
  dim : 0 < s.emb.dim ∧ UInt32.ofNat s.emb.dim.toNat = hdr.embDim
  nodeThreshold : s.nodeThreshold = hdr.nodeThreshold
  minNgram : s.minNgram = hdr.minNgram.toInt32
  maxNgram : s.maxNgram = hdr.maxNgram.toInt32
  strtab : s.strtab = hdr.strtabOff.toNat
  nodeIndex : ∃ filled, (hdr.nodeBlock sys.host mem).BuiltInto sys.efSearch sys.nodeSeed
    s.index.nodeHnsw filled
  childIndex : 0 < hdr.childEmbCount → ∃ hnsw, s.index.childHnsw = some hnsw ∧
    ∃ filled, (hdr.childBlock sys.host mem).BuiltInto sys.efSearch sys.childSeed hnsw filled
  noChildIndex : hdr.childEmbCount = 0 → s.index.childHnsw = none
  tables : hdr.TablesOk sys.host mem
  nodeMetaCount : s.index.nodeMetaCount = hdr.nodeMetaCount.toNat
  childMetaCount : s.index.childMetaCount = hdr.childMetaCount.toNat
  nodeMeta : 0 < hdr.nodeMetaCount → s.index.nodeMeta = hdr.nodeMetaOff.toNat
  childMeta : 0 < hdr.childMetaCount → s.index.childMeta = hdr.childMetaOff.toNat
  noNodeMeta : ¬ 0 < hdr.nodeMetaCount → s.index.nodeMeta = 0
  noChildMeta : ¬ 0 < hdr.childMetaCount → s.index.childMeta = 0

variable {I : Env → Prop} {X : Stop OpenError → Prop}

/-- The end of a build of an index as the caller sees it. -/
def indexStop (X : Stop OpenError → Prop) (err : OpenError) : Stop Hnsw.Status → Prop
  | .fault f => X (.fault f)
  | .fail _ => X (.fail err)

omit [Arith] in
theorem served_indexStop (hserved : Served I X) (err : OpenError) :
    Served I (indexStop X err) :=
  hserved.imp id fun h => ⟨h.1, fun _ => h.2 err⟩

theorem indexOr_keeps (b : EmbBlock) (efSearch : Option Int) (seed : UInt64) (err : OpenError)
    (hserved : Served I X) (hdim : b.dim ≠ 0)
    (hfail : (∃ i < b.count, ¬ b.EntryOk i) → X (.fail err))
    (hroom : 0 < b.count → b.Fits ∨ X (.fault .index))
    (hreads : ∀ a, b.Reads a → Admits I a) :
    Keeps I X (indexOr err (buildHnsw b.host b.mem b.off b.count b.dim b.strtab efSearch seed))
      fun hnsw => ∃ filled, b.BuiltInto efSearch seed hnsw filled := by
  have hserves : Serves I (indexStop X err) Hnsw.Status.enomem :=
    (served_indexStop hserved err).serves _
  have hbuild : Keeps I (indexStop X err)
      (buildHnsw b.host b.mem b.off b.count b.dim b.strtab efSearch seed)
      fun hnsw => ∃ filled, b.BuiltInto efSearch seed hnsw filled := by
    unfold buildHnsw
    refine Keeps.bind (b.fill_keeps efSearch seed (fun h => absurd h hdim) hfail hroom
      hreads).ran fun filled ⟨hfilled, hreceived⟩ => ?_
    have hrun : Keeps I (indexStop X err) (Hnsw.build filled)
        fun hnsw => ∃ filled, b.BuiltInto efSearch seed hnsw filled :=
      (Hnsw.build_keeps filled (.inl hfilled.1.lost)).ran.mono fun hnsw h =>
        ⟨filled, hfilled.1, hfilled.2, hreceived, h.2, h.1⟩
    split
    · rename_i hzero
      -- the build of an empty index returns it
      have hpure : Hnsw.build filled = pure filled := by
        unfold Hnsw.build
        rw [if_pos (by rw [hfilled.1.count, hzero])]
      rw [hpure] at hrun
      exact hrun
    · exact hrun
  unfold indexOr
  refine Keeps.bind (hbuild.catching fun f h => h) fun r hr => ?_
  cases r with
  | ok hnsw => exact Keeps.pure (hr.1 hnsw rfl)
  | error status => exact Keeps.fail (hr.2 status rfl)

/-- **Opening**, after the header checks. -/
theorem openMapped_keeps {sys : System} {mem : List UInt8} {hdr : FileHdr} (hserved : Served I X)
    (hemb : sys.emb = none → X (.fail .embOpen))
    (hdim : ∀ emb, sys.emb = some emb →
      emb.dim ≤ 0 ∨ UInt32.ofNat emb.dim.toNat ≠ hdr.embDim → X (.fail .embDimMismatch))
    (hnode : (∃ i < (hdr.nodeBlock sys.host mem).count, ¬ (hdr.nodeBlock sys.host mem).EntryOk i) →
      X (.fail .nodeIndex))
    (hchild : (∃ i < (hdr.childBlock sys.host mem).count,
      ¬ (hdr.childBlock sys.host mem).EntryOk i) → X (.fail .childIndex))
    (hnodeRoom : 0 < (hdr.nodeBlock sys.host mem).count →
      (hdr.nodeBlock sys.host mem).Fits ∨ X (.fault .index))
    (hchildRoom : 0 < (hdr.childBlock sys.host mem).count →
      (hdr.childBlock sys.host mem).Fits ∨ X (.fault .index))
    (hreads : ∀ a, hdr.EntriesRead sys.host mem a → Admits I a)
    (htables : hdr.TablesOk sys.host mem ∨
      (X (.fail .corruptNodeMeta) ∧ X (.fail .corruptChildMeta))) :
    Keeps I X (openMapped sys mem hdr) (OpenedFrom sys mem hdr) := by
  unfold openMapped
  extract_lets host dim strtab
  split
  · rename_i h
    exact Keeps.fail (hemb h)
  rename_i emb hsome
  split
  · rename_i h
    exact Keeps.fail (hdim emb hsome h)
  rename_i hgood
  simp only [not_or, Int.not_le, ne_eq, not_not] at hgood
  have hpos : hdr.embDim.toNat ≠ 0 := by
    have hlt := emb.dim_lt
    rw [← hgood.2, UInt32.toNat_ofNat']
    omega
  refine Keeps.bind (indexOr_keeps (hdr.nodeBlock sys.host mem) sys.efSearch sys.nodeSeed
    .nodeIndex hserved hpos hnode hnodeRoom fun a ha => hreads a (.inl ha)) fun nodeHnsw hnodeHnsw => ?_
  have hnodeAll : (hdr.nodeBlock sys.host mem).Arrives (hdr.nodeBlock sys.host mem).count := by
    obtain ⟨filled, hbuilt⟩ := hnodeHnsw
    exact hbuilt.arrives
  extract_lets tables
  have hrest : ∀ childHnsw,
      (0 < hdr.childEmbCount → ∃ hnsw, childHnsw = some hnsw ∧
        ∃ filled, (hdr.childBlock sys.host mem).BuiltInto sys.efSearch sys.childSeed hnsw filled) →
      (hdr.childEmbCount = 0 → childHnsw = none) →
      Keeps I X (tables childHnsw) (OpenedFrom sys mem hdr) := by
    intro childHnsw hsome' hnone
    simp only [tables]
    split
    · rename_i h
      refine Keeps.fail (htables.elim (fun hok => ?_) And.left)
      exact absurd (hok.node h.1) (by simpa using h.2)
    rename_i hn
    split
    · rename_i h
      refine Keeps.fail (htables.elim (fun hok => ?_) And.right)
      exact absurd (hok.child h.1) (by simpa using h.2)
    rename_i hc
    refine Keeps.pure ⟨rfl, hsome, hgood, rfl, rfl, rfl, rfl, hnodeHnsw, hsome', hnone,
      ⟨fun h => ?_, fun h => ?_⟩, rfl, rfl, fun h => if_pos h, fun h => if_pos h,
      fun h => if_neg h, fun h => if_neg h⟩
    · simpa [h] using hn
    · simpa [h] using hc
  split
  · rename_i hcount
    refine Keeps.bind (indexOr_keeps (hdr.childBlock sys.host mem) sys.efSearch sys.childSeed
      .childIndex hserved hpos hchild hchildRoom fun a ha => hreads a (.inr ⟨hnodeAll, ha⟩))
      fun hnsw hhnsw => ?_
    rw [pure_bind]
    refine hrest (some hnsw) (fun _ => ⟨hnsw, rfl, hhnsw⟩) fun h => ?_
    rw [h] at hcount
    exact absurd hcount (by decide)
  · rename_i hcount
    exact hrest none (fun h => absurd h hcount) fun _ => rfl

/-- Opening under an invariant that the accesses to the entries keep. -/
theorem openMapped_admitted {sys : System} {mem : List UInt8} {hdr : FileHdr} (hI : Unscripted I)
    (hreads : ∀ a, hdr.EntriesRead sys.host mem a → Admits I a) :
    Keeps I (fun _ => True) (openMapped sys mem hdr) (OpenedFrom sys mem hdr) := by
  apply openMapped_keeps (.inr ⟨hI, fun _ => trivial⟩)
  case hreads => exact hreads
  case htables => exact .inr ⟨trivial, trivial⟩
  case hnodeRoom => exact fun _ => .inr trivial
  case hchildRoom => exact fun _ => .inr trivial
  all_goals exact fun _ => by simp

/-- A file that passes its checks is opened. -/
theorem openMapped_returns {sys : System} {mem : List UInt8} {hdr : FileHdr} {emb : Emb}
    (hsuits : sys.Suits hdr emb)
    (hnodes : (hdr.nodeBlock sys.host mem).Arrives (hdr.nodeBlock sys.host mem).count)
    (hchildren : (hdr.childBlock sys.host mem).Arrives (hdr.childBlock sys.host mem).count)
    (htables : hdr.TablesOk sys.host mem) :
    Returns (openMapped sys mem hdr) (OpenedFrom sys mem hdr) := by
  refine openMapped_keeps served_quiet ?_ ?_ ?_ ?_ ?_ ?_ (fun _ _ _ he => he) (.inl htables)
  · intro hnone
    rw [hsuits.some] at hnone
    cases hnone
  · intro emb' hsome hbad
    rw [hsuits.some] at hsome
    cases hsome
    exact hsuits.not_mismatch hbad
  · exact fun ⟨i, hi, hbad⟩ => hbad (hnodes i hi).ok
  · exact fun ⟨i, hi, hbad⟩ => hbad (hchildren i hi).ok
  · exact fun hcount => .inl (hnodes.fits hcount)
  · exact fun hcount => .inl (hchildren.fits hcount)

/-- Opening is its header checks and what follows them. -/
theorem openSchema_keeps {sys : System} {file : List UInt8} {Q : Schema → Prop}
    (hI : Unscripted I)
    (hopen : ∀ hdr, checkHeader sys.host (mapping sys.host file) = .ok hdr →
      Keeps I (fun _ => True) (openMapped sys (mapping sys.host file) hdr) Q) :
    Keeps I (fun _ => True) (openSchema sys file) Q := by
  have hserves : Serves I (fun _ => True) OpenError.noMemory := serves_of_fail hI trivial
  unfold openSchema
  refine Keeps.bind Keeps.allocOr fun _ _ => Keeps.bind Keeps.allocOr fun _ _ => ?_
  simp only
  split
  · exact Keeps.fail trivial
  cases hcheck : checkHeader sys.host (mapping sys.host file) with
  | error err => exact Keeps.fail trivial
  | ok hdr => exact hopen hdr hcheck

theorem OpenedFrom.passes {sys : System} {mem : List UInt8} {hdr : FileHdr} {s : Schema}
    (h : OpenedFrom sys mem hdr s) : hdr.Passes sys.host mem := by
  obtain ⟨filled, hnode⟩ := h.nodeIndex
  refine ⟨hnode.arrives, fun i hi => ?_, h.tables⟩
  obtain ⟨_, -, _, hchild⟩ := h.childIndex (count_pos hi)
  exact hchild.arrives i hi

omit [Arith] in
/-- A file whose header passes is not empty. -/
theorem mapping_ne_nil {host : Host} {file : List UInt8} {hdr : FileHdr}
    (hcheck : checkHeader host (mapping host file) = .ok hdr) : (mapping host file).length ≠ 0 := by
  intro hzero
  unfold checkHeader at hcheck
  rw [if_pos (by rw [hzero]; decide)] at hcheck
  cases hcheck

/-- When no allocation fails, opening gets as far as its checks let it. -/
theorem openSchema_eq {sys : System} {file : List UInt8} {hdr : FileHdr} {e : Env} (he : Quiet e)
    (hcheck : checkHeader sys.host (mapping sys.host file) = .ok hdr) :
    (openSchema sys file).exec e = (openMapped sys (mapping sys.host file) hdr).exec e := by
  have hmapped := mapping_ne_nil hcheck
  unfold openSchema
  rw [exec_bind, allocOr_quiet he]
  simp only
  rw [exec_bind, allocOr_quiet he]
  simp only
  rw [if_neg fun h => hmapped h.2, hcheck]

/-- **A schema that was opened** comes from its file, whatever the file. -/
theorem openSchema_from {sys : System} {file : List UInt8} {s : Schema} {e e' : Env}
    (h : (openSchema sys file).exec e = (.ok s, e')) :
    ∃ hdr, checkHeader sys.host (mapping sys.host file) = .ok hdr ∧
      OpenedFrom sys (mapping sys.host file) hdr s := by
  have hopen : Keeps (fun _ => True) (fun _ => True) (openSchema sys file) fun s =>
      ∃ hdr, checkHeader sys.host (mapping sys.host file) = .ok hdr ∧
        OpenedFrom sys (mapping sys.host file) hdr s :=
    openSchema_keeps (fun _ _ _ => trivial) fun hdr hcheck =>
      (openMapped_admitted (fun _ _ _ => trivial) fun _ _ _ _ => trivial).mono
        fun s hs => ⟨hdr, hcheck, hs⟩
  exact (hopen.value trivial h).1

end Opening

end Ipa
