import Ipa.Runtime.Children

/-!
# What a manifest means

`Lookups.meaning` says what a manifest makes of an input, in terms of the manifest alone: the
windows are taken greedily, a window is a match where the best of all node descriptions is
acceptable for its text, and within its text the children of its node are found in the same way.
All that is left open is which of several equally good descriptions a lookup finds, and that is
settled once: an opened schema has one lookup for each index, and with these two its parse of every
input is the meaning of the manifest.
-/

namespace Ipa

open Run

section Meaning

variable [Arith]

/-! ## The meaning -/

/-- What the lookup of a text can find in some descriptions: one that is best, where it is
acceptable. -/
inductive Finds (emb : Emb) (threshold : Binary32) (ds : List Description) (text : CStr) :
    Option (CStr × Binary32) → Prop
  | found {vec : List Binary32} {d : Description} (embedded : emb.exec text = some vec)
      (best : Best ds vec d) (accepted : acceptable threshold vec d = true) :
      Finds emb threshold ds text (some (d.label, Arith.narrow (d.score vec)))
  | passed {vec : List Binary32} {d : Description} (embedded : emb.exec text = some vec)
      (best : Best ds vec d) (dropped : acceptable threshold vec d = false) :
      Finds emb threshold ds text none
  | nothing {vec : List Binary32} (embedded : emb.exec text = some vec)
      (nobest : ∀ d, ¬ Best ds vec d) : Finds emb threshold ds text none
  | unembedded (embedded : emb.exec text = none) : Finds emb threshold ds text none

/-- A lookup in the descriptions of the nodes, and one in those of the children of all nodes. -/
structure Lookups (emb : Emb) (m : Manifest) where
  nodes : CStr → Option (CStr × Binary32)
  children : CStr → Option (CStr × Binary32)
  nodes_finds : ∀ text, Finds emb m.nodeThreshold (describedBy emb m.nodes) text (nodes text)
  children_finds : ∀ text,
    Finds emb m.nodeThreshold (describedBy emb (childNodes m.nodes)) text (children text)

/-- The windows of a text within the bounds of the manifest. -/
def Manifest.windows (m : Manifest) (text : CStr) : List Ngram.Span :=
  let count := (Ngram.tokensOf Ngram.optionsDefault.separators text).length
  Ngram.windows count m.minNgram.toInt (min m.maxNgram.toInt.toNat count)

omit [Arith] in
/-- A scan that finds nothing has no matches. -/
theorem scanBy_nothing {lookup : CStr → Option (CStr × Binary32)} (h : ∀ text, lookup text = none)
    (children : List NodeDef) (maxTokens : Int) (span : CStr) :
    scanBy lookup children maxTokens span = [] := by
  unfold scanBy placedBy
  refine List.map_eq_nil_iff.mpr (Ngram.visits_keeps (P := fun items : List Match => items = [])
    (fun w _ items hitems => ?_) rfl)
  rw [h, hitems]
  rfl

/-- The node declares a child of this id. -/
def Manifest.declares (m : Manifest) (parentId id : CStr) : Bool :=
  (ownChildren m parentId).any fun c => c.id == some id

namespace Lookups

variable {emb : Emb} {m : Manifest} (l : Lookups emb m)

/-- The lookup of a text under a node: what is found, where the node declares it. -/
def under (parentId text : CStr) : Option (CStr × Binary32) :=
  (l.children text).filter fun found => m.declares parentId found.1

/-- The match of a text for which a node is found. -/
def matchOf (text : CStr) (found : CStr × Binary32) : Match where
  id := found.1
  span := text
  score := found.2
  emits := (keyedEmits m.nodes found.1).map (EmitDef.emitted text)
  children := scanBy (l.under found.1) (ownChildren m found.1) 0 text

/-- The windows of an input in which a node is found. -/
def taken (input : CStr) : List Ngram.Span :=
  Ngram.greedy (fun w => (l.nodes (textOf input w)).isSome) (m.windows input) []

/-- The matches of an input. -/
def meaning (input : CStr) : List Match :=
  (l.taken input).filterMap fun w => (l.nodes (textOf input w)).map (l.matchOf (textOf input w))

/-- The visitor that has this meaning. -/
def place (text : CStr) (items : List Match) : Int × List Match :=
  match l.nodes text with
  | none => (0, items)
  | some found => (1, items ++ [l.matchOf text found])

/-- What it leaves behind is the meaning. -/
theorem visits_place (input : CStr) :
    Ngram.leftBy (Ngram.visits (fun w => l.place (textOf input w)) (m.windows input) [] []) =
      l.meaning input := by
  have hclosed : ([] : List Ngram.Span) = Ngram.closedBy [] := rfl
  unfold meaning taken
  rw [hclosed]
  refine Ngram.visits_greedy (P := fun taken items => items = taken.filterMap fun w =>
    (l.nodes (textOf input w)).map (l.matchOf (textOf input w))) ?_ rfl
  intro w _ taken items hitems
  unfold place
  cases hfound : l.nodes (textOf input w) with
  | none => exact ⟨rfl, hitems⟩
  | some found =>
    refine ⟨rfl, ?_⟩
    rw [Option.isSome_some, if_pos rfl, List.filterMap_append, List.filterMap_cons, hfound, hitems]
    rfl

end Lookups

/-! ## The lookups of a schema -/

section Schema

variable {sys : System} {emb : Emb} {m : Manifest} {s : Schema} (h : SchemaOf sys emb m s)

include h

/-- The lookup in an index that was built from the descriptions of some nodes. -/
theorem SchemaOf.topHit_finds {b : EmbBlock} {efSearch : Option Int} {seed : UInt64}
    {index : Hnsw.Index} {nodes : List NodeDef}
    (hreceived : b.Received efSearch seed index (described emb nodes)) (hready : Hnsw.Ready index)
    (hcount : (describedBy emb nodes).length ≤ 1024) (text : CStr) :
    Finds emb m.nodeThreshold (describedBy emb nodes) text
      (s.topHit Hnsw.topOf s.keeps (some index) text) := by
  obtain ⟨hdescriptions, filled, hbuilt⟩ := hreceived.descriptions
  rw [← hdescriptions] at hcount ⊢
  rw [EmbBlock.descriptions, List.length_map, List.length_range, ← hbuilt.count] at hcount
  unfold Schema.topHit
  rw [h.model]
  cases hexec : emb.exec text with
  | none => exact .unembedded hexec
  | some vec =>
    rw [Option.bind_some, Option.bind_some]
    rcases Hnsw.topOf_top vec hready hcount with ⟨htop, hall⟩ | ⟨result, htop, hbest⟩
    · rw [htop, Option.bind_none]
      by_cases hbest : ∃ d, Best b.descriptions vec d
      · obtain ⟨d, hd⟩ := hbest
        refine .passed hexec hd ?_
        have hlow := hall (d.result vec) ((hbuilt.scored_perm vec).mem_iff.mpr
          (List.mem_map.mpr ⟨d, hd.mem, rfl⟩))
        rw [hbuilt.metric] at hlow
        rw [acceptable, show Binary64.zero.le (d.score vec) = false from hlow, Bool.false_and]
      · exact .nothing hexec fun d hd => hbest ⟨d, hd⟩
    · obtain ⟨d, hd, rfl, hzero⟩ := (hbuilt.top_iff vec result).mp hbest
      have hkeeps : s.keeps (Arith.narrow (d.score vec)) = acceptable m.nodeThreshold vec d := by
        rw [acceptable, hzero, Bool.true_and, Schema.keeps, h.nodeThreshold]
      rw [htop, Option.bind_some]
      change Finds emb m.nodeThreshold b.descriptions text
        (if s.keeps (Arith.narrow (d.score vec)) then some (d.label, Arith.narrow (d.score vec))
          else none)
      rw [hkeeps]
      cases haccept : acceptable m.nodeThreshold vec d with
      | true => exact .found hexec hd haccept
      | false => exact .passed hexec hd haccept

theorem SchemaOf.childHit_finds (hready : s.Searchable)
    (hcount : (describedBy emb (childNodes m.nodes)).length ≤ 1024) (text : CStr) :
    Finds emb m.nodeThreshold (describedBy emb (childNodes m.nodes)) text
      (s.topHit Hnsw.topOf s.keeps s.index.childHnsw text) := by
  rcases h.childIndex with ⟨index, hsome, hreceived⟩ | ⟨hnone, hnil⟩
  · rw [hsome]
    exact h.topHit_finds hreceived (hready.child index hsome) hcount text
  · rw [hnone]
    unfold Schema.topHit
    rw [h.model]
    cases hexec : emb.exec text with
    | none => exact .unembedded hexec
    | some vec =>
      refine .nothing hexec fun d hd => ?_
      have hmem := hd.mem
      rw [describedBy, hnil] at hmem
      cases hmem

/-- The lookups of an opened schema. -/
def SchemaOf.lookups (hready : s.Searchable) (hnodes : (describedBy emb m.nodes).length ≤ 1024)
    (hchildren : (describedBy emb (childNodes m.nodes)).length ≤ 1024) : Lookups emb m where
  nodes := s.topHit Hnsw.topOf s.keeps (some s.index.nodeHnsw)
  children := s.topHit Hnsw.topOf s.keeps s.index.childHnsw
  nodes_finds := h.topHit_finds h.nodeIndex hready.node hnodes
  children_finds := h.childHit_finds hready hchildren

omit h in
/-- The shared part of the visitors, in either index. -/
theorem visitHit_returns {X : Stop Unit → Prop} (hroom : s.Room sys.host ∨ X (.fault .index))
    {hnsw : Option Hnsw.Index} (hready : ∀ index, hnsw = some index → Hnsw.Ready index)
    (hcount : ∀ index, hnsw = some index → index.count ≤ 1024) {chunk : Ngram.Chunk}
    (hlt : chunk.byteStart < chunk.byteEnd) :
    Keeps Quiet X (visitHit sys.host s hnsw chunk) fun r =>
      r = (s.topHit Hnsw.topOf s.keeps hnsw chunk.text).map fun found => (chunk.text, found) := by
  -- the scan of the child index is the general one, of a schema with that index
  have hsearch : ∀ index, hnsw = some index → ∀ vec,
      (Hnsw.search index vec 1 .zero).Returns fun results =>
        results.head? = Hnsw.topOf index vec :=
    fun index hindex vec => Hnsw.search_topOf (hready index hindex) (hcount index hindex)
  exact @visitHitBy_returns _ _ _ { s with index := { s.index with childHnsw := hnsw } } _ _ _
    hsearch hroom chunk hlt

theorem SchemaOf.isChildOf_eq (id parentId : CStr) :
    isChildOf sys.host s id parentId = m.declares parentId id := by
  rw [Bool.eq_iff_iff, h.isChildOf_iff, Manifest.declares, List.any_eq_true]
  constructor
  · rintro ⟨nd, hnd, hparent, c, hc, hid⟩
    exact ⟨c, mem_ownChildren.mpr ⟨nd, hnd, hparent, hc⟩, by rw [hid, beq_self_eq_true]⟩
  · rintro ⟨c, hc, hid⟩
    obtain ⟨nd, hnd, hparent, hc⟩ := mem_ownChildren.mp hc
    exact ⟨nd, hnd, hparent, c, hc, by simpa using hid⟩

variable (hready : s.Searchable) (hnodes : (describedBy emb m.nodes).length ≤ 1024)
  (hchildren : (describedBy emb (childNodes m.nodes)).length ≤ 1024) {X : Stop Unit → Prop}
  (hroom : s.Room sys.host ∨ X (.fault .index))

include hroom

/-- The scan of a span as wide as the span. -/
theorem SchemaOf.scanChildren_means (parentId span : CStr) :
    Keeps Quiet X (scanChildren sys.host s 1
      (Ngram.tokensOf Ngram.optionsDefault.separators span).length parentId span) fun children =>
        children = scanBy ((h.lookups hready hnodes hchildren).under parentId)
          (ownChildren m parentId) 0 span := by
  have hhit : s.childHit sys.host Hnsw.topOf s.keeps parentId =
      (h.lookups hready hnodes hchildren).under parentId := by
    funext text
    unfold Schema.childHit Lookups.under
    simp only [h.isChildOf_eq]
    rfl
  have hwhole : ∀ hit, placedBy hit
      (Ngram.tokensOf Ngram.optionsDefault.separators span).length span = placedBy hit 0 span := by
    intro hit
    unfold placedBy
    rw [Unbounded.windows (.inr (Int.le_refl _)), Unbounded.windows (.inl rfl)]
  rw [scanChildren_search]
  unfold scanChildrenBy scanBy
  refine Keeps.bind (executeBy_returns (fun index hindex vec =>
    Hnsw.search_topOf (hready.child index hindex) (h.childCount hchildren hindex)) hroom _
      parentId span) fun r hitems => ?_
  rw [hhit, hwhole] at hitems
  simp only [hitems]
  refine (allChildEmits_keeps Keeps.alloc_served parentId fun ch hch =>
    ⟨placedBy_emits _ 0 span ch hch, fun _ _ _ he => he⟩).mono fun children hall => ?_
  rw [WithEmits.all hall]
  simp only [h.childEmits_eq]
  rfl

/-- **A call of the visitor** for nodes places the match of its text. -/
theorem SchemaOf.visitTop_returns {chunk : Ngram.Chunk} (hlt : chunk.byteStart < chunk.byteEnd)
    (hsize : chunk.size = (Ngram.tokensOf Ngram.optionsDefault.separators chunk.text).length)
    (ctx : ScanCtx) :
    Keeps Quiet X (visitTop sys.host s chunk ctx) fun r =>
      let placed := (h.lookups hready hnodes hchildren).place chunk.text ctx.items
      r.1 = placed.1 ∧ r.2.items = placed.2 := by
  have halloc : Keeps Quiet X (alloc : Run Unit Bool) fun served => served = false → False :=
    Keeps.alloc_served
  have hcount : ∀ index, some s.index.nodeHnsw = some index → index.count ≤ 1024 := by
    intro index hindex
    cases hindex
    obtain ⟨hdescriptions, filled, hbuilt⟩ := h.nodeIndex.descriptions
    rwa [hbuilt.count, ← List.length_range (n := EmbBlock.count _),
      ← List.length_map (f := fun i => (⟨_, _⟩ : Description)), ← EmbBlock.descriptions,
      hdescriptions]
  unfold visitTop Lookups.place
  refine Keeps.bind (visitHit_returns hroom (fun index hindex => ?_) hcount hlt) fun r hr => ?_
  · cases hindex
    exact hready.node
  change r = ((h.lookups hready hnodes hchildren).nodes chunk.text).map _ at hr
  subst hr
  cases (h.lookups hready hnodes hchildren).nodes chunk.text with
  | none => exact Keeps.pure ⟨rfl, rfl⟩
  | some found =>
    obtain ⟨id, score⟩ := found
    simp only [Option.map_some]
    refine Keeps.bind (strdup_keeps halloc id) fun copy hcopy => ?_
    obtain rfl : copy = some id := hcopy.resolve_right fun h => h.2
    refine Keeps.bind (buildMatchEmits_keeps halloc (fun _ _ _ he => he) chunk.text) fun emits hemits => ?_
    obtain rfl : emits = some _ := hemits.resolve_right fun h => h.2
    refine Keeps.bind (nodeHasChildren_keeps fun _ _ _ he => he) fun scanned hscanned => ?_
    have hpush : ∀ children, children = scanBy ((h.lookups hready hnodes hchildren).under id)
        (ownChildren m id) 0 chunk.text →
          Keeps Quiet X (matchPush ctx
            ⟨id, chunk.text, score, nodeEmits sys.host s id chunk.text, children⟩) fun pushed =>
              ∃ cap, pushed = some ⟨ctx.items ++
                [(h.lookups hready hnodes hchildren).matchOf chunk.text (id, score)], cap⟩ := by
      intro children hscan
      rw [hscan, h.nodeEmits_eq]
      exact (matchPush_keeps halloc ctx _).mono fun pushed hpushed =>
        hpushed.resolve_right fun hfailed => hfailed.2
    split
    · rw [hsize]
      refine Keeps.bind (h.scanChildren_means hready hnodes hchildren hroom id chunk.text)
        fun children hscan => Keeps.bind (hpush children hscan) fun pushed hpushed => ?_
      obtain ⟨cap, rfl⟩ := hpushed
      exact Keeps.pure ⟨rfl, rfl⟩
    · rename_i hskipped
      rw [pure_bind]
      refine Keeps.bind (hpush [] (scanBy_nothing (fun text => ?_) _ _ _).symm)
        fun pushed hpushed => ?_
      · change Option.filter (fun found => m.declares id found.1)
          (s.topHit Hnsw.topOf s.keeps s.index.childHnsw text) = none
        by_cases hhas : scanned = true
        · -- the file has no child index
          have hnone : s.index.childHnsw = none :=
            Option.not_isSome_iff_eq_none.mp fun hsome => hskipped ⟨hhas, hsome⟩
          unfold Schema.topHit
          rw [hnone]
          cases s.emb.exec text <;> rfl
        · refine Option.filter_eq_none_iff.mpr fun found _ hdeclared => hhas ?_
          obtain ⟨c, hc, -⟩ := List.any_eq_true.mp hdeclared
          obtain ⟨nd, hnd, hid, hc⟩ := mem_ownChildren.mp hc
          rw [hscanned, h.hasChildren_iff]
          exact ⟨nd, hnd, hid, List.ne_nil_of_mem hc⟩
      · obtain ⟨cap, rfl⟩ := hpushed
        exact Keeps.pure ⟨rfl, rfl⟩

omit hroom in
theorem SchemaOf.windows_eq (hvalid : m.Valid) (input : CStr) :
    s.windows input = m.windows input := by
  have hmin := hvalid.minNgram
  have hmax := hvalid.maxNgram
  have hbounded : ¬ m.maxNgram.toInt = 0 := by omega
  unfold Schema.windows Manifest.windows
  simp only [h.minNgram, h.maxNgram, if_neg hbounded]
  rfl

/-- **A parse** gives the meaning of the manifest. -/
theorem SchemaOf.parse_returns (hvalid : m.Valid) (input : CStr) :
    Keeps Quiet X (parse sys.host s input) fun r =>
      r.matches_ = (h.lookups hready hnodes hchildren).meaning input ∧
        r.ok = !((h.lookups hready hnodes hchildren).meaning input).isEmpty := by
  have haccept : s.options.Accepted := by
    refine ⟨?_, .inr ?_⟩
    · change 1 ≤ s.minNgram.toInt
      rw [h.minNgram]
      exact hvalid.minNgram
    · change s.minNgram.toInt ≤ s.maxNgram.toInt
      rw [h.minNgram, h.maxNgram]
      exact hvalid.maxNgram
  have hvisit : ∀ w ∈ s.windows input, ∀ (own : ScanCtx) items, own.items = items →
      Keeps Quiet X (visitTop sys.host s
        (Ngram.chunkOf input (Ngram.tokensOf s.options.separators input) w) own) fun r =>
        r.1 = ((h.lookups hready hnodes hchildren).place (textOf input w) items).1 ∧
          r.2.items = ((h.lookups hready hnodes hchildren).place (textOf input w) items).2 := by
    intro w hw own items hown
    subst hown
    rw [s.windows_eq, Ngram.mem_windows haccept.1] at hw
    have hlt := (Ngram.tokensOf_ordered s.options.separators input).window_lt hw.1
      (by omega) hw.2.1
    refine h.visitTop_returns hready hnodes hchildren hroom ?_ ?_ own
    · unfold Ngram.chunkOf
      rwa [List.getD_eq_getElem _ _ (by omega), List.getD_eq_getElem _ _ hw.2.1]
    · exact (textOf_window hw.1 hw.2.1).1.symm
  have hmeaning := (h.lookups hready hnodes hchildren).visits_place input
  rw [← h.windows_eq hvalid, s.windows_eq] at hmeaning
  rw [s.windows_eq] at hvisit
  rw [parse_eq]
  refine Keeps.bind (embBuffer_keeps Keeps.alloc_served False.elim) fun _ _ => ?_
  refine Keeps.bind (Q := fun r => r.2.items = (h.lookups hready hnodes hchildren).meaning input)
    ?_ fun r hr => Keeps.pure ⟨hr, ?_⟩
  · refine (Ngram.execute_leaves (R := fun (own : ScanCtx) items => own.items = items)
      Keeps.alloc_served hvisit haccept rfl).mono fun r hr => ?_
    rcases hr with ⟨calls, items, hvisits, hr, -⟩ | ⟨calls, items, hvisits, hr, -⟩ | ⟨hfailed, -⟩
    · exact hr.trans ((congrArg Ngram.leftBy hvisits).symm.trans hmeaning)
    · exact hr.trans ((congrArg Ngram.leftBy hvisits).symm.trans hmeaning)
    · exact hfailed.elim
  · rw [hr]
    cases (h.lookups hready hnodes hchildren).meaning input <;> rfl

end Schema

/-- **Meaning is preserved**: what is opened from the image of a manifest has one lookup for each
index, and where no allocation fails every parse of it gives the meaning of the manifest under these
lookups; it returns where a vector of the model fits into memory. -/
theorem parse_means {sys : System} {m : Manifest} {s : Schema} (hcompiled : Compiled sys m s)
    (hnodes : (describedBy s.emb m.nodes).length ≤ 1024)
    (hchildren : (describedBy s.emb (childNodes m.nodes)).length ≤ 1024) :
    ∃ l : Lookups s.emb m, ∀ (input : CStr) (e : Env), Quiet e →
      (∀ result e', (parse sys.host s input).exec e = (.ok result, e') →
        result.matches_ = l.meaning input ∧ result.ok = !(l.meaning input).isEmpty) ∧
      (s.Room sys.host → ∃ result e', (parse sys.host s input).exec e = (.ok result, e')) := by
  obtain ⟨hvalid, hready, hs⟩ := hcompiled.schemaOf
  refine ⟨hs.lookups hready hnodes hchildren, fun input e he => ⟨fun result e' hparse => ?_,
    fun hroom => ?_⟩⟩
  · exact ((hs.parse_returns hready hnodes hchildren (X := fun _ => True) (.inr trivial) hvalid
      input).value he hparse).1
  · have hreturns : Returns (parse sys.host s input) _ :=
      hs.parse_returns hready hnodes hchildren (.inl hroom) hvalid input
    obtain ⟨result, e', hparse, -⟩ := hreturns.exec he
    exact ⟨result, e', hparse⟩

end Meaning

/-- A node that emits its text, with a child that emits a constant. -/
def emittingManifest : Manifest := manifestOf
  [{ leaf "P" ["p"] [⟨some (CStr.ofString "k"), some (CStr.ofString "$raw")⟩] with
      children := [leaf "c" ["x"] [⟨some (CStr.ofString "k"), some (CStr.ofString "v")⟩]] }]

theorem parse_means_emitting : ∃ s, @Compiled ieee tiltSystem emittingManifest s ∧
    ∃ (l : @Lookups ieee s.emb emittingManifest) (result : ParseResult) (e : Env),
      (@parse ieee tiltSystem.host s (CStr.ofString "p x")).exec ⟨[], []⟩ = (.ok result, e) ∧
        result.matches_ = @Lookups.meaning ieee _ _ l (CStr.ofString "p x") ∧
          result.matches_.map (fun m => (m.span, m.emits.length, m.children.length)) =
            [(CStr.ofString "p", 1, 1), (CStr.ofString "x", 1, 1)] := by
  let test : Schema → Bool := fun s =>
    ((@parse ieee tiltSystem.host s (CStr.ofString "p x")).value? ⟨[], []⟩).any fun result =>
      decide (result.matches_.map (fun m => (m.span, m.emits.length, m.children.length)) =
        [(CStr.ofString "p", 1, 1), (CStr.ofString "x", 1, 1)])
  obtain ⟨s, hcompiled, hemb, htest⟩ := compiles_runs (m := emittingManifest) (q := test)
    (by decide +kernel)
  obtain ⟨result, e₂, hparse, hshape⟩ := exec_of_value? htest
  obtain ⟨l, hmeans⟩ := @parse_means ieee _ _ _ hcompiled (by rw [hemb]; decide +kernel)
    (by rw [hemb]; decide +kernel)
  refine ⟨s, hcompiled, l, result, e₂, hparse, ?_, of_decide_eq_true hshape⟩
  exact ((hmeans (CStr.ofString "p x") ⟨[], []⟩ rfl).1 result e₂ hparse).1

end Ipa
