import Ipa.Schema.Accepted

/-!
# The bounds that are checked

The checks of an entry and of a table compute in other widths than the accesses: the offset of an
entry is cast to 32 bits, the stride and the sizes of the tables are products of `size_t`. What the
checks accept lies in the file unless one of these was reduced; `BoundsExact` says that where one
was, the range still lies in the file, and only for the entries that the loops arrive at and the
tables of a file that is accepted. That is exactly when opening stays in bounds.
-/

namespace Ipa

open Run

/-! ## Entries -/

namespace EmbBlock

variable (b : EmbBlock) (i : Nat)

/-- The whole entry lies in the file, no product reduced. -/
def Holds : Prop := b.offset i + (embHdrSize + b.dim * 4) ≤ b.mem.length

/-- The check of the entry sees another range than the entry. -/
def Reduced : Prop := 2 ^ 32 ≤ b.offset i ∨ b.host.sizeMod ≤ embHdrSize + b.dim * 4

/-- Entries that the loop arrives at and whose check passes are held, reduced or not. -/
def EntriesExact : Prop := ∀ i < b.count, b.Arrives i → b.inside i = true → b.Reduced i → b.Holds i

variable {b i}

theorem stride_eq (h : embHdrSize + b.dim * 4 < b.host.sizeMod) :
    entryStride b.host b.dim = embHdrSize + b.dim * 4 := by
  rw [entryStride, Host.size_of_lt (n := b.dim * 4) (by omega), Host.size_of_lt h]

/-- A check that sees the range of the entry is right. -/
theorem holds_of_inside (hdim : b.dim < 2 ^ 32) (hin : b.inside i = true)
    (hexact : ¬ b.Reduced i) : b.Holds i := by
  simp only [Reduced, not_or, Nat.not_le] at hexact
  obtain ⟨hoffset, hstride⟩ := hexact
  unfold inside boundsOk at hin
  rw [stride_eq hstride, UInt32.toNat_ofNat', Nat.mod_eq_of_lt hoffset, decide_eq_true_eq] at hin
  unfold embHdrSize at hin
  rw [Nat.mod_eq_of_lt (by omega)] at hin
  exact hin

theorem EntriesExact.holds (h : b.EntriesExact) (hdim : b.dim < 2 ^ 32) (hi : i < b.count)
    (harrives : b.Arrives i) (hin : b.inside i = true) : b.Holds i := by
  by_cases hreduced : b.Reduced i
  · exact h i hi harrives hin hreduced
  · exact holds_of_inside hdim hin hreduced

/-! ## What a block accesses -/

section Accesses

variable [Arith] {a : Access}

/-- A turn of the loop reads what its checks let it. -/
theorem addEntry_accesses (hread : b.EntryReads i a) (hnsw : Hnsw.Index) :
    CanAccess (addEntry b.host b.mem b.off b.dim b.strtab hnsw i) a := by
  unfold addEntry
  simp only
  cases hread with
  | entry hin =>
    rw [if_neg (by change ¬ (!b.inside i) = true; simp [hin])]
    exact CanAccess.touch.first
  | label hin hlabel =>
    rw [if_neg (by change ¬ (!b.inside i) = true; simp [hin]),
      if_neg (by change ¬ (!b.labelInside i) = true; simp [hlabel])]
    refine CanReturn.access (v := ()) ⟨⟨[], []⟩, _, rfl⟩ ?_
    exact CanAccess.first (CanAccess.first CanAccess.touch)

/-- The loop comes to every entry that it can arrive at. -/
theorem fill_accesses (efSearch : Option Int) (seed : UInt64) (hdim : b.dim ≠ 0)
    (hread : b.Reads a) : CanAccess (b.fill efSearch seed) a := by
  obtain ⟨i, hi, harrives, hread⟩ := hread
  have hsplit : List.range b.count = List.range i ++ i :: (List.range b.count).drop (i + 1) := by
    have hlt : i < (List.range b.count).length := by rwa [List.length_range]
    have hdrop := List.drop_eq_getElem_cons hlt
    rw [List.getElem_range] at hdrop
    rw [← hdrop, ← Nat.min_eq_left (Nat.le_of_lt hi), ← List.take_range,
      Nat.min_eq_left (Nat.le_of_lt hi), List.take_append_drop]
  unfold fill fillHnsw Hnsw.hnswOpen
  rw [if_neg hdim]
  simp only [bind_assoc, pure_bind]
  refine Returns.access Keeps.allocOr fun _ _ => ?_
  rw [if_neg (by omega)]
  refine Returns.access (reserve_keeps (by omega) rfl rfl rfl rfl rfl) fun hnsw h => ?_
  rw [hsplit, List.foldlM_append]
  refine Returns.access (fillLoop_keeps (Nat.le_of_lt hi) h.1 h.2
    (fun ⟨j, hj, hbad⟩ => hbad (harrives j hj).ok)
    (.inl fun j hj => ⟨(harrives j hj).vector, (harrives j hj).slot⟩) fun _ _ _ _ _ _ he => he)
    fun hnsw' _ => ?_
  rw [List.foldlM_cons]
  exact CanAccess.first (addEntry_accesses hread hnsw')

/-- Building the index accesses what its loop accesses. -/
theorem indexOr_accesses (efSearch : Option Int) (seed : UInt64) (err : OpenError)
    (hdim : b.dim ≠ 0) (hread : b.Reads a) : CanAccess (indexOr err
      (buildHnsw b.host b.mem b.off b.count b.dim b.strtab efSearch seed)) a := by
  unfold indexOr buildHnsw
  exact CanAccess.first (CanAccess.catching
    (CanAccess.first (fill_accesses efSearch seed hdim hread)))

/-- A block that is taken as a whole gives an index, when no allocation fails. -/
theorem indexOr_returns (efSearch : Option Int) (seed : UInt64) (err : OpenError)
    (hdim : b.dim ≠ 0) (harrives : b.Arrives b.count) :
    Returns (indexOr err (buildHnsw b.host b.mem b.off b.count b.dim b.strtab efSearch seed))
      fun _ => True :=
  (indexOr_keeps b efSearch seed err served_quiet hdim
    (fun ⟨i, hi, hbad⟩ => hbad (harrives i hi).ok) (fun hcount => .inl (harrives.fits hcount))
    fun _ _ _ he => he).mono fun _ _ => trivial

end Accesses

end EmbBlock

/-! ## Opening -/

section Open

variable [Arith] {sys : System} {mem : List UInt8} {hdr : FileHdr} {emb : Emb}

/-- The entries that the loops arrive at are accessed. -/
theorem openMapped_accesses (hsuits : sys.Suits hdr emb) {a : Access}
    (hread : hdr.EntriesRead sys.host mem a) : CanAccess (openMapped sys mem hdr) a := by
  have hdim := hsuits.dim_ne
  unfold openMapped
  extract_lets host dim strtab
  rw [hsuits.some]
  simp -zeta only
  rw [if_neg hsuits.not_mismatch]
  rcases hread with hread | ⟨hnodes, hread⟩
  · exact CanAccess.first (EmbBlock.indexOr_accesses (b := hdr.nodeBlock sys.host mem) sys.efSearch
      sys.nodeSeed .nodeIndex hdim hread)
  · refine Returns.access (EmbBlock.indexOr_returns (b := hdr.nodeBlock sys.host mem) sys.efSearch
      sys.nodeSeed .nodeIndex hdim hnodes) fun nodeHnsw _ => ?_
    rw [if_pos (by obtain ⟨i, hi, -⟩ := hread; exact count_pos hi)]
    exact CanAccess.first (EmbBlock.indexOr_accesses (b := hdr.childBlock sys.host mem) sys.efSearch
      sys.childSeed .childIndex hdim hread)

/-- So they are when the file is opened. -/
theorem openSchema_accesses {file : List UInt8} {hdr : FileHdr} {emb : Emb}
    (hcheck : checkHeader sys.host (mapping sys.host file) = .ok hdr) (hsuits : sys.Suits hdr emb)
    {a : Access} (hread : hdr.EntriesRead sys.host (mapping sys.host file) a) :
    CanAccess (openSchema sys file) a := by
  have hmapped := mapping_ne_nil hcheck
  unfold openSchema
  refine Returns.access Keeps.allocOr fun _ _ => Returns.access Keeps.allocOr fun _ _ => ?_
  simp only
  rw [if_neg fun h => hmapped h.2, hcheck]
  exact openMapped_accesses hsuits hread

end Open

/-! ## The tables -/

/-- A file that is accepted has the tables that it states, reduced or not. -/
structure FileHdr.BoundsExact (hdr : FileHdr) (host : Host) (mem : List UInt8) : Prop where
  nodes : (hdr.nodeBlock host mem).EntriesExact
  children : (hdr.nodeBlock host mem).Arrives (hdr.nodeBlock host mem).count →
    (hdr.childBlock host mem).EntriesExact
  nodeTable : hdr.Passes host mem → host.sizeMod ≤ hdr.nodeMetaCount.toNat * nodeMetaSize →
    hdr.nodeMetaOff.toNat + nodeMetaSize * hdr.nodeMetaCount.toNat ≤ mem.length
  childTable : hdr.Passes host mem → host.sizeMod ≤ hdr.childMetaCount.toNat * childMetaSize →
    hdr.childMetaOff.toNat + childMetaSize * hdr.childMetaCount.toNat ≤ mem.length

theorem count_pos_of_reduced {host : Host} {count : UInt32} {size : Nat}
    (h : host.sizeMod ≤ count.toNat * size) : 0 < count := by
  have hmod := host.two_pow_32_le_sizeMod
  exact count_pos (Nat.pos_of_mul_pos_right (Nat.lt_of_lt_of_le (by decide) (hmod.trans h)))

/-- A check that sees the size of the table is right. -/
theorem table_inside {host : Host} {mem : List UInt8} {off count : UInt32} {size : Nat}
    (hsize : size ≤ 2 ^ 20) (hok : tableOk host mem off count size = true)
    (hexact : count.toNat * size < host.sizeMod) :
    off.toNat + size * count.toNat ≤ mem.length := by
  have hoff := off.toNat_lt
  have hcount := count.toNat_lt
  have hmul : count.toNat * size ≤ 2 ^ 32 * 2 ^ 20 := Nat.mul_le_mul (Nat.le_of_lt hcount) hsize
  unfold tableOk boundsOk at hok
  rw [Host.size_of_lt hexact, decide_eq_true_eq, Nat.mod_eq_of_lt (by omega)] at hok
  rw [Nat.mul_comm size]
  exact hok

/-! ## The accesses of an opening -/

/-- Every block of a log is an entry that lies in the mapping, with its whole vector. -/
def EntriesInside (host : Host) (file : List UInt8) (log : List Access) : Prop :=
  ∀ off len, .block off len ∈ log → ∃ hdr, checkHeader host (mapping host file) = .ok hdr ∧
    off + (embHdrSize + hdr.embDim.toNat * 4) ≤ (mapping host file).length

/-- The two tables of a schema lie in its mapping. -/
structure Schema.TablesInside (s : Schema) : Prop where
  node : s.index.nodeMeta + nodeMetaSize * s.index.nodeMetaCount ≤ s.mem.length
  child : s.index.childMeta + childMetaSize * s.index.childMetaCount ≤ s.mem.length

/-- What an opening dereferences and what it publishes lies in the mapping, whatever the outcomes
of its allocations. -/
def OpensInside [Arith] (sys : System) (file : List UInt8) : Prop :=
  ∀ allocs, EntriesInside sys.host file ((openSchema sys file).exec ⟨allocs, []⟩).2.log ∧
    ∀ s e, (openSchema sys file).exec ⟨allocs, []⟩ = (.ok s, e) →
      s.mem = mapping sys.host file ∧ s.TablesInside

section Opens

variable [Arith] {sys : System} {file : List UInt8}

theorem OpenedFrom.tablesInside {mem : List UInt8} {hdr : FileHdr} {s : Schema}
    (h : OpenedFrom sys mem hdr s) (hexact : hdr.BoundsExact sys.host mem) : s.TablesInside := by
  have hzero : ∀ {n : UInt32}, ¬ 0 < n → n.toNat = 0 := by
    intro n hn
    rw [UInt32.lt_iff_toNat_lt] at hn
    exact Nat.eq_zero_of_not_pos hn
  refine ⟨?_, ?_⟩
  · rw [h.mapped, h.nodeMetaCount]
    by_cases hcount : 0 < hdr.nodeMetaCount
    · rw [h.nodeMeta hcount]
      by_cases hreduced : sys.host.sizeMod ≤ hdr.nodeMetaCount.toNat * nodeMetaSize
      · exact hexact.nodeTable h.passes hreduced
      · exact table_inside (by decide) (h.tables.node hcount) (Nat.lt_of_not_le hreduced)
    · rw [h.noNodeMeta hcount, hzero hcount]
      exact Nat.zero_le _
  · rw [h.mapped, h.childMetaCount]
    by_cases hcount : 0 < hdr.childMetaCount
    · rw [h.childMeta hcount]
      by_cases hreduced : sys.host.sizeMod ≤ hdr.childMetaCount.toNat * childMetaSize
      · exact hexact.childTable h.passes hreduced
      · exact table_inside (by decide) (h.tables.child hcount) (Nat.lt_of_not_le hreduced)
    · rw [h.noChildMeta hcount, hzero hcount]
      exact Nat.zero_le _

omit [Arith] in
theorem admits_entry {host : Host} {hdr : FileHdr}
    (hhdr : checkHeader host (mapping host file) = .ok hdr) {b : EmbBlock}
    (hmem : b.mem = mapping host file) (hdim : b.dim = hdr.embDim.toNat) {i : Nat}
    (h : b.Holds i) : Admits (fun e => EntriesInside host file e.log) (b.access i) := by
  intro e he off len hmem'
  rcases List.mem_cons.mp hmem' with heq | hmem'
  · cases heq
    refine ⟨hdr, hhdr, ?_⟩
    rw [← hmem, ← hdim]
    exact h
  · exact he off len hmem'

omit [Arith] in
theorem admits_label {host : Host} (off : Nat) :
    Admits (fun e => EntriesInside host file e.log) (.text off) := by
  intro e he off' len hmem
  rcases List.mem_cons.mp hmem with heq | hmem
  · cases heq
  · exact he off' len hmem

/-- Without a model of the dimension of the file nothing is accessed. -/
theorem openMapped_refused {mem : List UInt8} {hdr : FileHdr} (h : ¬ ∃ emb, sys.Suits hdr emb) :
    ∃ err, openMapped sys mem hdr = fail err := by
  unfold openMapped
  extract_lets host dim strtab
  cases hemb : sys.emb with
  | none => exact ⟨_, rfl⟩
  | some emb =>
    simp only
    by_cases hdim : emb.dim ≤ 0 ∨ UInt32.ofNat emb.dim.toNat ≠ hdr.embDim
    · rw [if_pos hdim]
      exact ⟨_, rfl⟩
    · simp only [not_or, Int.not_le, ne_eq, not_not] at hdim
      exact absurd ⟨emb, hemb, hdim⟩ h

/-- Opening under an invariant that the accesses to the entries keep, where the model is the one of
the file. -/
theorem openSchema_admitted {I : Env → Prop} (hI : Unscripted I)
    (hreads : ∀ hdr emb, checkHeader sys.host (mapping sys.host file) = .ok hdr →
      sys.Suits hdr emb → ∀ a, hdr.EntriesRead sys.host (mapping sys.host file) a → Admits I a) :
    Keeps I (fun _ => True) (openSchema sys file) fun s => ∃ hdr emb,
      (checkHeader sys.host (mapping sys.host file) = .ok hdr ∧ sys.Suits hdr emb) ∧
        OpenedFrom sys (mapping sys.host file) hdr s := by
  refine openSchema_keeps hI fun hdr hcheck => ?_
  by_cases hsuits : ∃ emb, sys.Suits hdr emb
  swap
  · obtain ⟨err, hrefused⟩ := @openMapped_refused _ sys (mapping sys.host file) hdr hsuits
    rw [hrefused]
    exact Keeps.fail trivial
  obtain ⟨emb, hsuits⟩ := hsuits
  exact (openMapped_admitted hI (hreads hdr emb hcheck hsuits)).mono fun s hs =>
    ⟨hdr, emb, ⟨hcheck, hsuits⟩, hs⟩

omit [Arith] in
variable (sys file) in
/-- What opening a file reads of it: the entries, when the model is the one of the file. -/
def System.OpeningReads (a : Access) : Prop :=
  ∃ hdr emb, (checkHeader sys.host (mapping sys.host file) = .ok hdr ∧ sys.Suits hdr emb) ∧
    hdr.EntriesRead sys.host (mapping sys.host file) a

/-- **What opening accesses**: under some outcomes of the allocations each of these, and under none
another one. -/
theorem openSchema_accesses_iff {a : Access} :
    CanAccess (openSchema sys file) a ↔ sys.OpeningReads file a := by
  constructor
  · intro h
    exact h.of_keeps (P := sys.OpeningReads file) (openSchema_admitted (fun _ _ h => h)
      fun hdr emb hcheck hsuits a ha => admits_logsOnly ⟨hdr, emb, ⟨hcheck, hsuits⟩, ha⟩)
  · rintro ⟨hdr, emb, ⟨hcheck, hsuits⟩, hread⟩
    exact openSchema_accesses hcheck hsuits hread

/-- Opening keeps to the entries that the checks accept rightly. -/
theorem openSchema_inside (hexact : ∀ hdr emb,
      checkHeader sys.host (mapping sys.host file) = .ok hdr → sys.Suits hdr emb →
        hdr.BoundsExact sys.host (mapping sys.host file)) :
    Keeps (fun e => EntriesInside sys.host file e.log) (fun _ => True) (openSchema sys file)
      fun s => s.mem = mapping sys.host file ∧ s.TablesInside := by
  refine (openSchema_admitted (fun _ _ h => h) fun hdr emb hcheck hsuits a ha => ?_).mono ?_
  · have hbounds := hexact hdr emb hcheck hsuits
    have hdim := hdr.embDim.toNat_lt
    rcases ha with ⟨i, hi, harrives, hread⟩ | ⟨hnodes, i, hi, harrives, hread⟩
    · cases hread with
      | entry hin => exact admits_entry hcheck rfl rfl (hbounds.nodes.holds hdim hi harrives hin)
      | label => exact admits_label _
    · cases hread with
      | entry hin =>
        exact admits_entry hcheck rfl rfl ((hbounds.children hnodes).holds hdim hi harrives hin)
      | label => exact admits_label _
  · rintro s ⟨hdr, emb, ⟨hcheck, hsuits⟩, hs⟩
    exact ⟨hs.mapped, hs.tablesInside (hexact hdr emb hcheck hsuits)⟩

theorem opensInside_of (hexact : ∀ hdr emb,
      checkHeader sys.host (mapping sys.host file) = .ok hdr → sys.Suits hdr emb →
        hdr.BoundsExact sys.host (mapping sys.host file)) : OpensInside sys file := by
  intro allocs
  have hkeeps := openSchema_inside hexact
  have hnone : EntriesInside sys.host file ([] : List Access) := fun off len hmem => by cases hmem
  refine ⟨(hkeeps ⟨allocs, []⟩ hnone).1, fun s e hrun => ?_⟩
  exact (hkeeps.value (e := ⟨allocs, []⟩) hnone hrun).1

/-- **The bounds of an opening**: everything it dereferences and publishes lies in the file exactly
when, wherever a check saw a reduced offset or size, the range itself lies in the file. -/
theorem openSchema_inside_iff (sys : System) (file : List UInt8) :
    OpensInside sys file ↔ ∀ hdr emb,
      checkHeader sys.host (mapping sys.host file) = .ok hdr → sys.Suits hdr emb →
        hdr.BoundsExact sys.host (mapping sys.host file) := by
  constructor
  · intro hinside hdr emb hcheck hsuits
    have hholds : ∀ {b : EmbBlock} {i : Nat}, b.mem = mapping sys.host file →
        b.dim = hdr.embDim.toNat → hdr.EntriesRead sys.host (mapping sys.host file) (b.access i) →
          b.Holds i := by
      intro b i hmem hdim hread
      obtain ⟨allocs, hlogged⟩ := openSchema_accesses hcheck hsuits hread
      obtain ⟨hdr', hcheck', hle⟩ := (hinside allocs).1 _ _ hlogged
      rw [hcheck] at hcheck'
      cases hcheck'
      rw [EmbBlock.Holds, hmem, hdim]
      exact hle
    have hopened : hdr.Passes sys.host (mapping sys.host file) → ∃ s,
        OpenedFrom sys (mapping sys.host file) hdr s ∧ s.mem = mapping sys.host file ∧
          s.TablesInside := by
      rintro ⟨hnodes, hchildren, hok⟩
      obtain ⟨s, e, hreturned, -, hs⟩ :=
        (openMapped_returns hsuits hnodes hchildren hok).exec (e := ⟨[], []⟩) rfl
      exact ⟨s, hs, (hinside []).2 s e
        ((openSchema_eq (e := ⟨[], []⟩) rfl hcheck).trans hreturned)⟩
    refine ⟨fun i hi harrives hin _ => ?_, fun hnodes i hi harrives hin _ => ?_,
      fun hpasses hreduced => ?_, fun hpasses hreduced => ?_⟩
    · exact hholds rfl rfl (.inl ⟨i, hi, harrives, .entry hin⟩)
    · exact hholds rfl rfl (.inr ⟨hnodes, i, hi, harrives, .entry hin⟩)
    · obtain ⟨s, hs, hmem, hnode, -⟩ := hopened hpasses
      rw [hmem, hs.nodeMeta (count_pos_of_reduced hreduced), hs.nodeMetaCount] at hnode
      exact hnode
    · obtain ⟨s, hs, hmem, -, hchild⟩ := hopened hpasses
      rw [hmem, hs.childMeta (count_pos_of_reduced hreduced), hs.childMetaCount] at hchild
      exact hchild
  · exact opensInside_of

end Opens

/-! ## Where nothing is reduced -/

theorem sizeMod_w64 {host : Host} (h : host.width = .w64) : host.sizeMod = 2 ^ 64 := by
  rw [Host.sizeMod, h]
  rfl

/-- In a file below 4 GiB on a 64-bit target, each entry that the loop arrives at starts where the
one before it ends. -/
theorem EmbBlock.not_reduced {b : EmbBlock} (hwidth : b.host.width = .w64)
    (hsmall : b.mem.length < 2 ^ 32) (hoff : b.off < 2 ^ 32) (hdim : b.dim < 2 ^ 32) {i : Nat}
    (harrives : b.Arrives i) : ¬ b.Reduced i := by
  have hmod := sizeMod_w64 hwidth
  have hstride := stride_eq (b := b) (by rw [hmod, embHdrSize]; omega)
  have hunreduced : ∀ i, b.off + i * (embHdrSize + b.dim * 4) < 2 ^ 32 →
      b.offset i = b.off + i * (embHdrSize + b.dim * 4) := by
    intro i hlt
    unfold EmbBlock.offset entryOffset
    rw [hstride, Host.size_of_lt (n := i * _) (by omega), Host.size_of_lt (by omega)]
  have hlt : b.off + i * (embHdrSize + b.dim * 4) < 2 ^ 32 := by
    induction i with
    | zero => omega
    | succ i ih =>
      have hbefore := ih fun j hj => harrives j (Nat.lt_succ_of_lt hj)
      have htaken := harrives i (Nat.lt_succ_self i)
      have hholds := holds_of_inside hdim htaken.ok.inside (by
        rw [EmbBlock.Reduced, hunreduced i hbefore, hmod, embHdrSize]
        rw [embHdrSize] at hbefore
        omega)
      rw [EmbBlock.Holds, hunreduced i hbefore] at hholds
      rw [Nat.succ_mul]
      omega
  rw [EmbBlock.Reduced, hunreduced i hlt, hmod, embHdrSize]
  rw [embHdrSize] at hlt
  omega

/-- **A 64-bit target** keeps to the file when that is smaller than 4 GiB. -/
theorem openSchema_inside_w64 [Arith] (sys : System) (file : List UInt8)
    (hwidth : sys.host.width = .w64) (hsmall : file.length < 2 ^ 32) : OpensInside sys file := by
  apply opensInside_of
  intro hdr emb _ _
  have hmem : (mapping sys.host file).length < 2 ^ 32 :=
    Nat.lt_of_le_of_lt (List.length_take_le' _ _) hsmall
  have hmod := sizeMod_w64 hwidth
  have hnodes := hdr.nodeMetaCount.toNat_lt
  have hchildren := hdr.childMetaCount.toNat_lt
  refine ⟨fun i _ harrives _ hreduced => ?_, fun _ i _ harrives _ hreduced => ?_,
    fun _ hreduced => ?_, fun _ hreduced => ?_⟩
  · exact absurd hreduced (EmbBlock.not_reduced hwidth hmem hdr.nodeEmbOff.toNat_lt
      hdr.embDim.toNat_lt harrives)
  · exact absurd hreduced (EmbBlock.not_reduced hwidth hmem hdr.childEmbOff.toNat_lt
      hdr.embDim.toNat_lt harrives)
  · rw [hmod, nodeMetaSize] at hreduced
    omega
  · rw [hmod, childMetaSize] at hreduced
    omega

/-- **A 32-bit target** keeps to the file when no stride and no table size reaches 4 GiB. -/
theorem openSchema_inside_w32 [Arith] (sys : System) (file : List UInt8)
    (hwidth : sys.host.width = .w32)
    (hsmall : ∀ hdr, checkHeader sys.host (mapping sys.host file) = .ok hdr →
      embHdrSize + hdr.embDim.toNat * 4 < 2 ^ 32 ∧
        hdr.nodeMetaCount.toNat * nodeMetaSize < 2 ^ 32 ∧
        hdr.childMetaCount.toNat * childMetaSize < 2 ^ 32) : OpensInside sys file := by
  apply opensInside_of
  intro hdr emb hcheck _
  obtain ⟨hstride, hnodes, hchildren⟩ := hsmall hdr hcheck
  have hmod : sys.host.sizeMod = 2 ^ 32 := by
    rw [Host.sizeMod, hwidth]
    rfl
  have hentries : ∀ b : EmbBlock, b.host = sys.host → b.dim = hdr.embDim.toNat → ∀ i,
      ¬ b.Reduced i := by
    intro b hhost hdim i hreduced
    rw [EmbBlock.Reduced, hhost, hdim, hmod] at hreduced
    have hoffset : b.offset i < 2 ^ 32 := by
      have hlt := b.host.size_lt (b.off + b.host.size (i * entryStride b.host b.dim))
      rwa [hhost, hmod, ← hhost] at hlt
    omega
  refine ⟨fun i _ _ _ hreduced => ?_, fun _ i _ _ _ hreduced => ?_, fun _ hreduced => ?_,
    fun _ hreduced => ?_⟩
  · exact absurd hreduced (hentries _ rfl rfl i)
  · exact absurd hreduced (hentries _ rfl rfl i)
  · rw [hmod] at hreduced
    omega
  · rw [hmod] at hreduced
    omega

/-! ## A table that wraps -/

/-- A header with 153391690 rows of 28 bytes: 24 bytes more than 2^32. -/
def wrappingHdr : FileHdr where
  version := 1
  fileSize := 116
  strtabOff := 92
  strtabSize := 0
  idOff := 0
  idLen := 0
  vendorOff := 0
  vendorLen := 0
  schemaverOff := 0
  schemaverLen := 0
  nodeThreshold := ⟨0x3F000000⟩
  minNgram := 1
  maxNgram := 1
  embDim := 1
  nodeEmbOff := 92
  nodeEmbCount := 0
  childEmbOff := 92
  childEmbCount := 0
  nodeMetaOff := 92
  nodeMetaCount := 153391690
  childMetaOff := 116
  childMetaCount := 0

/-- The header and 24 bytes more. -/
def wrappingFile : List UInt8 := wrappingHdr.encode .little ++ List.replicate 24 0

def narrowSystem : System := ⟨⟨.w32, .little⟩, some unitEmb, none, 1, 2⟩

/-- The file of 116 bytes is opened, with a table of 4 GiB. -/
theorem openSchema_not_inside : ¬ @OpensInside ieee narrowSystem wrappingFile := by
  intro hinside
  obtain ⟨s, e, hrun, hs⟩ := exec_of_value?
    (x := @openSchema ieee narrowSystem wrappingFile) (e := ⟨[], []⟩)
    (q := fun s => decide (s.index.nodeMetaCount = 153391690 ∧ s.mem.length = 116))
    (by decide +kernel)
  obtain ⟨hcount, hlength⟩ := of_decide_eq_true hs
  obtain ⟨-, hnode, -⟩ := (hinside []).2 s e hrun
  rw [hcount, hlength, nodeMetaSize] at hnode
  omega

end Ipa
