import Ipa.Runtime.Children

/-!
# What a parse reads of the tables

A parse reads what `Schema.Reads` names and nothing else. The one half is the invariant of the log
that `parse_keeps` carries. For the other half a lookup is singled out: where every allocation that
a window before it makes fails, the traversal passes those windows by and comes to it.
-/

namespace Ipa

open Run

/-- What a search can return, under some outcomes of its allocations. -/
def foundBy [Arith] (index : Hnsw.Index) (vec : List Binary32) (results : List Hnsw.Result) :
    Prop :=
  CanReturn (Hnsw.search index vec 1 .zero) results

/-! ## The loops over the rows -/

section Rows

variable {ε : Type} {host : Host} {s : Schema} {a : Access}

theorem readText_access (off : UInt32) :
    CanAccess (readText (ε := ε) s.mem s.strtab off) (s.textAccess off) := by
  unfold readText
  exact CanAccess.touch.first

theorem textIs_access (off : UInt32) (text : CStr) :
    CanAccess (textIs (ε := ε) s off text) (s.textAccess off) := by
  unfold textIs
  exact (readText_access off).first

theorem textIs_can (off : UInt32) (text : CStr) :
    CanReturn (textIs (ε := ε) s off text) (s.textAt off == text) :=
  Returns.can_eq (textIs_keeps (fun _ he => he) text)

theorem readNodeMeta_can (i : Nat) :
    CanReturn (readNodeMeta (ε := ε) host s i) (nodeMetaAt host s i) :=
  Returns.can_eq (readNodeMeta_keeps fun _ he => he)

theorem readChildMeta_can (i : Nat) :
    CanReturn (readChildMeta (ε := ε) host s i) (childMetaAt host s i) :=
  Returns.can_eq (readChildMeta_keeps fun _ he => he)

theorem strdup_can (text : CStr) : CanReturn (strdup (ε := ε) text) (some text) := by
  unfold strdup
  exact (CanReturn.alloc true).bind CanReturn.pure

/-- A filter makes the accesses of its test at every row. -/
theorem filterRows_access {test : Nat → Run ε Bool} {p : Nat → Bool} {n i : Nat} (hi : i < n)
    (hreturn : ∀ j < n, CanReturn (test j) (p j)) (h : CanAccess (test i) a) :
    CanAccess (filterRows test n) a := by
  refine CanAccess.foldlM (List.mem_range.mpr hi) (fun rows j hj => ?_) (fun _ => h.first) []
  refine ⟨if p j then rows ++ [j] else rows, (hreturn j (List.mem_range.mp hj)).bind ?_⟩
  split
  · exact CanReturn.pure
  · exact CanReturn.pure

/-- A loop that stops at the first row that satisfies its test makes the accesses of the test at the
rows up to that one. -/
theorem anyRow_access {test : Nat → Run ε Bool} {p : Nat → Bool} {n i : Nat} (hi : i < n)
    (hbefore : ∀ j < i, p j = false) (hreturn : ∀ j < i, CanReturn (test j) (p j))
    (h : CanAccess (test i) a) : CanAccess (anyRow test (List.range n)) a := by
  have go : ∀ left start, start + left = n → start ≤ i →
      CanAccess (anyRow test (List.range' start left)) a := by
    intro left
    induction left with
    | zero => exact fun start hn hle => absurd hi (by omega)
    | succ left ih =>
      intro start hn hle
      rw [List.range'_succ, anyRow]
      rcases Nat.lt_or_eq_of_le hle with hlt | rfl
      · have hfirst := hreturn start hlt
        rw [hbefore start hlt] at hfirst
        exact hfirst.access (ih (start + 1) (by omega) hlt)
      · exact h.first
  rw [List.range_eq_range']
  exact go n 0 (Nat.zero_add n) (Nat.zero_le i)

/-! ### Nodes -/

variable (host s) in
theorem nodeRowEmits_can (nodeId : CStr) {i : Nat} (hi : i < s.index.nodeMetaCount) :
    CanReturn (nodeRowEmits (ε := ε) host s nodeId i) (nodeRowIs host s nodeId i) :=
  Returns.can_eq (nodeRowEmits_keeps (fun _ _ _ he => he) hi)

theorem nodeRowEmits_access_row (nodeId : CStr) (i : Nat) :
    CanAccess (nodeRowEmits (ε := ε) host s nodeId i)
      (.row (s.index.nodeMeta + nodeMetaSize * i) nodeMetaSize) :=
  CanAccess.first (CanAccess.first CanAccess.touch)

theorem nodeRowEmits_access_name (nodeId : CStr) {i : Nat}
    (hpair : (nodeMetaAt host s i).emitKeyLen ≠ 0) :
    CanAccess (nodeRowEmits (ε := ε) host s nodeId i)
      (s.textAccess (nodeMetaAt host s i).nodeIdOff) := by
  refine (readNodeMeta_can i).access ?_
  rw [if_neg hpair]
  exact textIs_access _ _

theorem copyEmit_access_key (keyOff valOff : UInt32) (span : CStr) :
    CanAccess (copyEmit (ε := ε) s keyOff valOff span) (s.textAccess keyOff) := by
  unfold copyEmit
  exact (readText_access keyOff).first

theorem copyEmit_access_value (keyOff valOff : UInt32) (span : CStr) :
    CanAccess (copyEmit (ε := ε) s keyOff valOff span) (s.textAccess valOff) := by
  unfold copyEmit
  refine CanReturn.access (Returns.can_eq (readText_keeps fun _ he => he)) ?_
  exact (strdup_can _).access (readText_access valOff).first

theorem copyEmit_can (keyOff valOff : UInt32) (span : CStr) :
    CanReturn (copyEmit (ε := ε) s keyOff valOff span) (s.emitAt keyOff valOff span) :=
  Returns.can_eq ((copyEmit_keeps Keeps.alloc_served (fun _ he => he) (fun _ he => he) span).mono
    fun _ h => h.resolve_right fun hfailed => hfailed.2)

/-- The loop over the emits comes to every row of the node. -/
theorem fillNodeEmits_access {nodeId span : CStr} {i : Nat}
    (hown : nodeRowIs host s nodeId i = true) (hcopy : CanAccess (copyEmit (ε := ε) s
      (nodeMetaAt host s i).emitKeyOff (nodeMetaAt host s i).emitValOff span) a) :
    ∀ {rows : List Nat} (emits : List Emit), i ∈ rows → (∀ j ∈ rows, j < s.index.nodeMetaCount) →
      CanAccess (fillNodeEmits (ε := ε) host s nodeId span rows emits) a
  | j :: rest, emits, hi, hrows => by
    obtain ⟨hj, hrest⟩ := List.forall_mem_cons.mp hrows
    have htest := nodeRowEmits_can (ε := ε) host s nodeId hj
    unfold fillNodeEmits
    refine htest.access ?_
    rcases List.mem_cons.mp hi with rfl | hi
    · rw [hown, if_pos rfl]
      exact hcopy.first
    split
    · refine (copyEmit_can _ _ span).access ?_
      rw [if_neg (by simp [Schema.emitAt])]
      exact fillNodeEmits_access hown hcopy _ hi hrest
    · exact fillNodeEmits_access hown hcopy _ hi hrest

/-- The emits of a match read the rows. -/
theorem buildMatchEmits_access {nodeId span : CStr} {i : Nat} (hi : i < s.index.nodeMetaCount)
    (h : CanAccess (nodeRowEmits (ε := ε) host s nodeId i) a ∨
      nodeRowIs host s nodeId i = true ∧ CanAccess (copyEmit (ε := ε) s
        (nodeMetaAt host s i).emitKeyOff (nodeMetaAt host s i).emitValOff span) a) :
    CanAccess (buildMatchEmits (ε := ε) host s nodeId span) a := by
  unfold buildMatchEmits
  rcases h with h | ⟨hown, hcopy⟩
  · exact (filterRows_access hi (fun j hj => nodeRowEmits_can host s nodeId hj) h).first
  have hrows : CanReturn (filterRows (nodeRowEmits (ε := ε) host s nodeId) s.index.nodeMetaCount)
      ((List.range s.index.nodeMetaCount).filter (nodeRowIs host s nodeId)) :=
    Returns.can_eq (filterRows_keeps fun j hj => nodeRowEmits_keeps (fun _ _ _ he => he) hj)
  refine hrows.access ?_
  rw [if_neg]
  · exact (CanReturn.alloc true).access (fillNodeEmits_access hown hcopy []
      (List.mem_range.mpr hi) fun j hj => List.mem_range.mp hj)
  · intro hnone
    have hmem : i ∈ (List.range s.index.nodeMetaCount).filter (nodeRowIs host s nodeId) :=
      List.mem_filter.mpr ⟨List.mem_range.mpr hi, hown⟩
    rw [List.length_eq_zero_iff.mp hnone] at hmem
    cases hmem

/-- **A match of a node** reads the rows that are named for it. -/
theorem node_accesses {nodeId : CStr} (h : NodeReads host s nodeId a) (span : CStr) :
    CanAccess (buildMatchEmits (ε := ε) host s nodeId span) a ∨
      CanAccess (nodeHasChildren (ε := ε) host s nodeId) a := by
  cases h with
  | row hi => exact .inl (buildMatchEmits_access hi (.inl (nodeRowEmits_access_row nodeId _)))
  | keyed hi hpair =>
    exact .inl (buildMatchEmits_access hi (.inl (nodeRowEmits_access_name nodeId hpair)))
  | sought hi hbefore =>
    refine .inr (anyRow_access hi hbefore (fun j hj => ?_) ?_)
    · exact (readNodeMeta_can j).bind ((textIs_can _ nodeId).bind CanReturn.pure)
    · exact (readNodeMeta_can _).access (textIs_access _ nodeId).first
  | key hi hown => exact .inl (buildMatchEmits_access hi (.inr ⟨hown, copyEmit_access_key _ _ span⟩))
  | value hi hown =>
    exact .inl (buildMatchEmits_access hi (.inr ⟨hown, copyEmit_access_value _ _ span⟩))

/-! ### Children -/

theorem childRowOf_can (id parentId : CStr) (i : Nat) :
    CanReturn (childRowOf (ε := ε) host s id parentId i) (childRowIs host s id parentId i) :=
  Returns.can_eq (childRowOf_keeps (fun _ _ _ he => he) parentId)

theorem childRowOf_access {id : CStr} {i : Nat} (h : ComparisonReads host s id i a)
    (parentId : CStr) : CanAccess (childRowOf (ε := ε) host s id parentId i) a := by
  unfold childRowOf
  cases h with
  | row => exact CanAccess.first (CanAccess.first CanAccess.touch)
  | child => exact (readChildMeta_can i).access (textIs_access _ id).first
  | parent hsame =>
    have hname := textIs_can (ε := ε) (s := s) (childMetaAt host s i).nodeIdOff id
    rw [beq_iff_eq.mpr hsame] at hname
    exact (readChildMeta_can i).access (hname.access (textIs_access _ parentId))

variable (host s) in
theorem childRowEmits_can (id parentId : CStr) {i : Nat} (hi : i < s.index.childMetaCount) :
    CanReturn (childRowEmits (ε := ε) host s id parentId i)
      ((childMetaAt host s i).emitKeyLen != 0 && childRowIs host s id parentId i) :=
  Returns.can_eq (childRowEmits_keeps (fun _ _ _ he => he) hi)

/-- The loop over the emits comes to every row of the child under the parent. -/
theorem fillChildEmits_access {parentId id span : CStr} {i : Nat}
    (hown : ((childMetaAt host s i).emitKeyLen != 0 && childRowIs host s id parentId i) = true)
    (hcopy : CanAccess (copyEmit (ε := ε) s (childMetaAt host s i).emitKeyOff
      (childMetaAt host s i).emitValOff span) a) :
    ∀ {rows : List Nat} (emits : List Emit), i ∈ rows → (∀ j ∈ rows, j < s.index.childMetaCount) →
      CanAccess (fillChildEmits (ε := ε) host s parentId id span rows emits) a
  | j :: rest, emits, hi, hrows => by
    obtain ⟨hj, hrest⟩ := List.forall_mem_cons.mp hrows
    have htest := childRowEmits_can (ε := ε) host s id parentId hj
    unfold fillChildEmits
    refine htest.access ?_
    rcases List.mem_cons.mp hi with rfl | hi
    · rw [hown, if_pos rfl]
      exact hcopy.first
    split
    · exact (copyEmit_can _ _ span).access (fillChildEmits_access hown hcopy _ hi hrest)
    · exact fillChildEmits_access hown hcopy _ hi hrest

/-- **The emits of a child match** read the rows that are named for it. -/
theorem withChildEmits_access {parentId : CStr} {ch : Match} (hnone : ch.emits = [])
    (h : ChildEmitReads host s parentId ch.id a) :
    CanAccess (withChildEmits (ε := ε) host s parentId ch) a := by
  have hfilter : ∀ {i}, i < s.index.childMetaCount →
      CanAccess (childRowEmits (ε := ε) host s ch.id parentId i) a →
        CanAccess (withChildEmits (ε := ε) host s parentId ch) a := by
    intro i hi htest
    unfold withChildEmits
    rw [if_pos (by rw [hnone]; rfl)]
    exact (filterRows_access hi (fun j hj => childRowEmits_can host s ch.id parentId hj) htest).first
  have hfill : ∀ {i}, i < s.index.childMetaCount → (childMetaAt host s i).emitKeyLen ≠ 0 →
      childRowIs host s ch.id parentId i = true →
        CanAccess (copyEmit (ε := ε) s (childMetaAt host s i).emitKeyOff
          (childMetaAt host s i).emitValOff ch.span) a →
            CanAccess (withChildEmits (ε := ε) host s parentId ch) a := by
    intro i hi hpair hnamed hcopy
    have hown : ((childMetaAt host s i).emitKeyLen != 0 &&
        childRowIs host s ch.id parentId i) = true := by simp [hpair, hnamed]
    have hrows : CanReturn (filterRows (childRowEmits (ε := ε) host s ch.id parentId)
        s.index.childMetaCount) ((List.range s.index.childMetaCount).filter fun i =>
          (childMetaAt host s i).emitKeyLen != 0 && childRowIs host s ch.id parentId i) :=
      Returns.can_eq (filterRows_keeps fun j hj => childRowEmits_keeps (fun _ _ _ he => he) hj)
    unfold withChildEmits
    rw [if_pos (by rw [hnone]; rfl)]
    refine hrows.access ?_
    rw [if_neg]
    · exact (CanReturn.alloc true).access (CanAccess.first (fillChildEmits_access hown hcopy []
        (List.mem_range.mpr hi) fun j hj => List.mem_range.mp hj))
    · intro hzero
      have hmem : i ∈ (List.range s.index.childMetaCount).filter fun i =>
          (childMetaAt host s i).emitKeyLen != 0 && childRowIs host s ch.id parentId i :=
        List.mem_filter.mpr ⟨List.mem_range.mpr hi, hown⟩
      rw [List.length_eq_zero_iff.mp hzero] at hmem
      cases hmem
  cases h with
  | row hi => exact hfilter hi (CanAccess.first (CanAccess.first CanAccess.touch))
  | keyed hi hpair hread =>
    refine hfilter hi ((readChildMeta_can _).access ?_)
    rw [if_neg hpair]
    exact childRowOf_access hread parentId
  | key hi hpair hown => exact hfill hi hpair hown (copyEmit_access_key _ _ ch.span)
  | value hi hpair hown => exact hfill hi hpair hown (copyEmit_access_value _ _ ch.span)

variable (host s) in
theorem childNamed_can (parentId id : CStr) :
    CanReturn (anyRow (childRowOf (ε := ε) host s id parentId) (List.range s.index.childMetaCount))
      (isChildOf host s id parentId) :=
  Returns.can_eq (childNamed_keeps fun _ _ _ he => he)

theorem childNamed_access {parentId id : CStr} (h : ChildReads host s parentId id a) :
    CanAccess (anyRow (childRowOf (ε := ε) host s id parentId)
      (List.range s.index.childMetaCount)) a := by
  obtain ⟨i, hi, hbefore, hread⟩ := h
  exact anyRow_access hi hbefore (fun j _ => childRowOf_can id parentId j)
    (childRowOf_access hread parentId)

end Rows

/-! ## The visitors -/

section Visitors

variable [Arith] {ε : Type} {host : Host} {s : Schema} {a : Access} {chunk : Ngram.Chunk}

/-- Where the copy of its text is refused, a window hits nothing. -/
theorem visitHit_can_none (hnsw : Option Hnsw.Index) (chunk : Ngram.Chunk) :
    CanReturn (visitHit (ε := ε) host s hnsw chunk) none := by
  unfold visitHit
  split
  · exact CanReturn.pure
  · exact (CanReturn.alloc false).bind CanReturn.pure

theorem visitTop_skips : Ngram.Skips (visitTop (ε := ε) host s) :=
  fun chunk _ => (visitHit_can_none _ chunk).bind CanReturn.pure

theorem visitChild_skips (parentId : CStr) : Ngram.Skips (visitChild (ε := ε) host s parentId) :=
  fun chunk _ => (visitHit_can_none _ chunk).bind CanReturn.pure

variable (hroom : s.Room host) (hlt : chunk.byteStart < chunk.byteEnd)

include hroom hlt

/-- What a search can find is what a window can hit. -/
theorem visitHit_can {hnsw : Option Hnsw.Index} {id : CStr}
    (h : s.Finds hnsw foundBy chunk.text id) :
    ∃ score, CanReturn (visitHit (ε := ε) host s hnsw chunk) (some (chunk.text, id, score)) := by
  obtain ⟨index, vec, top, rest, rfl, hexec, hfirst, rfl, hhigh⟩ := h
  have hvec : CanReturn (embExec (ε := ε) s.emb (some chunk.text)
      (host.size (s.emb.dim.toNat * 4) / 4)) (some vec) :=
    Returns.can_eq (hexec ▸ embeds_keeps (.inl hroom) chunk.text)
  refine ⟨Arith.narrow top.score, ?_⟩
  unfold visitHit
  rw [if_neg (Nat.not_le_of_lt hlt)]
  refine (CanReturn.alloc true).bind ?_
  simp only [if_true]
  refine hvec.bind (hfirst.catching.bind ?_)
  simp only [hhigh]
  exact CanReturn.pure

variable {parentId id : CStr}

section Child

variable (hfinds : s.Finds s.index.childHnsw foundBy chunk.text id)

include hfinds

theorem visitChild_access (h : ChildReads host s parentId id a) (ctx : ScanCtx) :
    CanAccess (visitChild (ε := ε) host s parentId chunk ctx) a := by
  obtain ⟨score, hhit⟩ := visitHit_can (ε := ε) hroom hlt hfinds
  unfold visitChild
  exact hhit.access (childNamed_access h).first

theorem visitChild_can (hnamed : isChildOf host s id parentId = true) : ∃ score,
    CanReturn (visitChild (ε := ε) host s parentId chunk ⟨[], 0⟩)
      (1, ⟨[⟨id, chunk.text, score, [], []⟩], 8⟩) := by
  obtain ⟨score, hhit⟩ := visitHit_can (ε := ε) hroom hlt hfinds
  have hrow := childNamed_can (ε := ε) host s parentId id
  rw [hnamed] at hrow
  refine ⟨score, ?_⟩
  unfold visitChild
  refine hhit.bind (hrow.bind ?_)
  rw [if_pos rfl]
  refine (strdup_can id).bind ?_
  exact CanReturn.bind ((CanReturn.alloc true).bind CanReturn.pure) CanReturn.pure

end Child

omit hlt in
/-- **The scan under a node** can make the accesses of the lookup of any of its windows. -/
theorem scanChildren_access {span : CStr} {maxNgram : Int} (hwide : Unbounded maxNgram span)
    (h : ScanReads host s foundBy parentId span a) :
    CanAccess (scanChildren (ε := ε) host s 1 maxNgram parentId span) a := by
  obtain ⟨w, hw, id, hfinds, h⟩ := h
  have hmem := (Ngram.mem_windows (Int.le_refl 1)).mp hw
  have hlt := Ngram.chunkOf_lt hmem.1 hmem.2.1
  rw [← hwide.windows] at hw
  have haccept := childOptions_accepted maxNgram
  unfold scanChildren
  rcases h with h | ⟨hnamed, h⟩
  · exact (Ngram.execute_accesses hw haccept (visitChild_skips parentId)
      (visitChild_access hroom hlt hfinds h ⟨[], 0⟩)).first
  · obtain ⟨score, hfound⟩ := visitChild_can (ε := ε) hroom hlt hfinds hnamed
    obtain ⟨n, hrun⟩ := Ngram.execute_closes hw haccept (visitChild_skips parentId) hfound
    refine hrun.access ?_
    simp only [List.mapM_cons]
    exact (withChildEmits_access rfl h).first

/-- The visitor for nodes makes the accesses of a lookup among the nodes. -/
theorem visitTop_access
    (hsize : chunk.size = (Ngram.tokensOf Ngram.optionsDefault.separators chunk.text).length)
    (h : MatchReads host s foundBy foundBy chunk.text a) (ctx : ScanCtx) :
    CanAccess (visitTop (ε := ε) host s chunk ctx) a := by
  obtain ⟨id, hfinds, h⟩ := h
  obtain ⟨score, hhit⟩ := visitHit_can (ε := ε) hroom hlt hfinds
  have hemits : CanReturn (buildMatchEmits (ε := ε) host s id chunk.text)
      (some (nodeEmits host s id chunk.text)) :=
    Returns.can_eq ((buildMatchEmits_keeps Keeps.alloc_served (fun _ _ _ he => he) _).mono
      fun _ h => h.resolve_right fun hfailed => hfailed.2)
  unfold visitTop
  refine hhit.access ((strdup_can id).access ?_)
  simp only
  rcases h with h | ⟨hparent, h⟩
  · rcases node_accesses (ε := ε) h chunk.text with h | h
    · exact h.first
    · exact hemits.access h.first
  have hscanned : CanReturn (nodeHasChildren (ε := ε) host s id) true :=
    hparent ▸ Returns.can_eq (nodeHasChildren_keeps fun _ _ _ he => he)
  have hindexed : s.index.childHnsw.isSome := by
    obtain ⟨_, _, _, ⟨index, _, _, _, hindex, _⟩, _⟩ := h
    rw [hindex]
    rfl
  refine hemits.access (hscanned.access ?_)
  rw [if_pos ⟨rfl, hindexed⟩]
  exact (scanChildren_access hroom (.inr (by rw [hsize])) h).first

end Visitors

/-! ## The parse -/

section Parse

variable [Arith] {host : Host} {s : Schema} {input : CStr} {a : Access}

/-- A parse makes no access but those that `Schema.Reads` names. -/
theorem reads_of_access (hready : s.Searchable) (h : CanAccess (parse host s input) a) :
    s.Reads host foundBy foundBy input a := by
  have halloc : Keeps (LogsOnly (s.Reads host foundBy foundBy input)) (fun _ : Stop Unit => True)
      alloc fun served => served = false → True :=
    (Keeps.alloc fun _ _ h => h).mono fun _ _ _ => trivial
  have hsearched := hready.searched halloc
  have hsearch : s.Searched (LogsOnly (s.Reads host foundBy foundBy input)) True foundBy foundBy :=
    ⟨fun index hindex vec => (hsearched.node index hindex vec).ran.mono fun _ h => h.2,
      fun index hindex vec => (hsearched.child index hindex vec).ran.mono fun _ h => h.2⟩
  exact h.of_keeps (parse_keeps halloc (.inr trivial) hsearch (fun _ => trivial) input
    fun _ ha => admits_logsOnly ha)

/-- And it can make each of them. -/
theorem access_of_reads (hroom : s.Room host) (h : s.Reads host foundBy foundBy input a) :
    CanAccess (parse host s input) a := by
  obtain ⟨haccept, w, hw, h⟩ := h
  have hbuffer : CanReturn (embBuffer : Run Unit Unit) () :=
    (CanReturn.alloc true).bind CanReturn.pure
  rw [s.windows_eq] at hw
  have hmem := (Ngram.mem_windows haccept.1).mp hw
  have hsize := (textOf_window hmem.1 hmem.2.1).1
  refine hbuffer.access (CanAccess.first ?_)
  exact Ngram.execute_accesses hw haccept visitTop_skips
    (visitTop_access hroom (Ngram.chunkOf_lt hmem.1 hmem.2.1) hsize.symm h ⟨[], 0⟩)

/-- A search finds items, so where something is read of the rows the index has one. -/
theorem Schema.Reads.items_ne (hready : s.Searchable)
    (h : s.Reads host foundBy foundBy input a) : s.index.nodeHnsw.items ≠ [] := by
  obtain ⟨-, w, -, id, ⟨index, vec, top, rest, hindex, -, ⟨e, e', hfound⟩, -⟩, -⟩ := h
  cases hindex
  have halloc : Keeps (fun _ => True) (fun _ : Stop Unit => True) alloc
      fun served => served = false → True := (Keeps.trivially alloc).mono fun _ _ _ => trivial
  obtain ⟨item, hitem, -⟩ := ((search_fromItems halloc hready.node vec).value trivial hfound).1 top
    List.mem_cons_self
  exact List.ne_nil_of_mem hitem

/-- **What a parse accesses**: under some outcomes of the allocations it makes each access that
`Schema.Reads` names, and under none another one. -/
theorem OpenedFrom.parse_accesses_iff {sys : System} {mem : List UInt8} {hdr : FileHdr}
    (h : OpenedFrom sys mem hdr s) :
    CanAccess (parse sys.host s input) a ↔ s.Reads sys.host foundBy foundBy input a :=
  ⟨reads_of_access h.searchable, fun hreads =>
    access_of_reads (h.room (hreads.items_ne h.searchable)) hreads⟩

end Parse

end Ipa
