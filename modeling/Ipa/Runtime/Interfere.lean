import Ipa.Ngram.Phrases
import Ipa.Runtime.Shared

/-!
# Other nodes interfere

What the scan under a node reports depends on the children of the other nodes: the one index gives
its best description, and where that belongs to another node it hides those of the node itself.
`Offers` says what the lookup of a text can find under a node of an open schema, and `Lookup` says
it in terms of the manifest. The scan is a function of the lookups of the windows that it finds
open. So two manifests that agree on a node and its children are scanned alike where their lookups
agree, and where scans agree so do the lookups of all that they report.
-/

namespace Ipa

open Run

/-! ## Lookups -/

section Lookups

variable [Arith]

/-- What the lookup of a text under a node can find: a best child description of all, where it is
acceptable and has the id of a child of the node. -/
inductive Lookup (emb : Emb) (m : Manifest) (parentId text : CStr) :
    Option (CStr × Binary32) → Prop
  | found {vec : List Binary32} {d : Description} (embedded : emb.exec text = some vec)
      (best : Best (describedBy emb (childNodes m.nodes)) vec d)
      (accepted : acceptable m.nodeThreshold vec d = true)
      (declared : ∃ c ∈ ownChildren m parentId, c.id = some d.label) :
      Lookup emb m parentId text (some (d.label, Arith.narrow (d.score vec)))
  | passed {vec : List Binary32} {d : Description} (embedded : emb.exec text = some vec)
      (best : Best (describedBy emb (childNodes m.nodes)) vec d)
      (dropped : acceptable m.nodeThreshold vec d = true →
        ¬ ∃ c ∈ ownChildren m parentId, c.id = some d.label) : Lookup emb m parentId text none
  | nothing {vec : List Binary32} (embedded : emb.exec text = some vec)
      (nobest : ∀ d, ¬ Best (describedBy emb (childNodes m.nodes)) vec d) :
      Lookup emb m parentId text none
  | unembedded (embedded : emb.exec text = none) : Lookup emb m parentId text none

/-- Whatever a lookup can find in the one manifest and in the other is the same. -/
def SameLookup (emb : Emb) (m m' : Manifest) (parentId text : CStr) : Prop :=
  ∀ found found', Lookup emb m parentId text found → Lookup emb m' parentId text found' →
    found = found'

/-! ## The visitor -/

/-- What the visitor does with what a lookup finds. -/
def placeFound (text : CStr) (found : Option (CStr × Binary32)) (items : List Match) :
    Int × List Match :=
  match found with
  | none => (0, items)
  | some (id, score) => (1, placeMatch ⟨id, text, score, [], []⟩ items)

/-- The results of a search in which no allocation fails. -/
def Searches (index : Hnsw.Index) (vec : List Binary32) (results : List Hnsw.Result) : Prop :=
  ∃ e e', Quiet e ∧ (Hnsw.search index vec 1 .zero).exec e = (.ok results, e')

/-- What the lookup of a text under a node of an open schema can find: the first result of a search
of the child index, where its score is not below the threshold and a row names it under the node. -/
inductive Schema.Offers (host : Host) (s : Schema) (parentId text : CStr) :
    Option (CStr × Binary32) → Prop
  | found {index : Hnsw.Index} {vec : List Binary32} {top : Hnsw.Result} {rest : List Hnsw.Result}
      (indexed : s.index.childHnsw = some index) (embedded : s.emb.exec text = some vec)
      (first : Searches index vec (top :: rest))
      (score : (Arith.narrow top.score).lt s.nodeThreshold = false)
      (named : isChildOf host s top.id parentId = true) :
      s.Offers host parentId text (some (top.id, Arith.narrow top.score))
  | passed {index : Hnsw.Index} {vec : List Binary32} {top : Hnsw.Result} {rest : List Hnsw.Result}
      (indexed : s.index.childHnsw = some index) (embedded : s.emb.exec text = some vec)
      (first : Searches index vec (top :: rest))
      (dropped : (Arith.narrow top.score).lt s.nodeThreshold = false →
        isChildOf host s top.id parentId = false) : s.Offers host parentId text none
  | nothing {index : Hnsw.Index} {vec : List Binary32} (indexed : s.index.childHnsw = some index)
      (embedded : s.emb.exec text = some vec) (search : Searches index vec []) :
      s.Offers host parentId text none
  | unembedded (embedded : s.emb.exec text = none) : s.Offers host parentId text none
  | unindexed (indexed : s.index.childHnsw = none) : s.Offers host parentId text none

/-- Whatever a lookup can find in the one schema and in the other is the same. -/
def SameOffer (host host' : Host) (s s' : Schema) (parentId text : CStr) : Prop :=
  ∀ found found', s.Offers host parentId text found → s'.Offers host' parentId text found' →
    found = found'

variable {host : Host} {s : Schema}

theorem Schema.Searchable.searches (hready : s.Searchable) {index : Hnsw.Index}
    (hindex : s.index.childHnsw = some index) (vec : List Binary32) :
    Keeps Quiet (starved False) (Hnsw.search index vec 1 .zero) (Searches index vec) := by
  have halloc : Keeps Quiet (starved False) (alloc : Run Hnsw.Status Bool) fun served =>
      served = false → False := Keeps.alloc_served
  intro e he
  obtain ⟨hquiet, hfound⟩ := search_fromItems halloc (hready.child index hindex) vec e he
  refine ⟨hquiet, ?_⟩
  rcases hrun : (Hnsw.search index vec 1 .zero).exec e with ⟨stop | results, e'⟩ <;>
    rw [hrun] at hfound
  · exact hfound
  · exact ⟨e, e', he, hrun⟩

variable (host) in
/-- Every lookup finds something or nothing. -/
theorem Schema.Searchable.exists_offers (hready : s.Searchable) (parentId text : CStr) :
    ∃ found, s.Offers host parentId text found := by
  cases hindex : s.index.childHnsw with
  | none => exact ⟨none, .unindexed hindex⟩
  | some index =>
    cases hexec : s.emb.exec text with
    | none => exact ⟨none, .unembedded hexec⟩
    | some vec =>
      obtain ⟨-, hruns⟩ := hready.searches hindex vec ⟨[], []⟩ rfl
      rcases hrun : (Hnsw.search index vec 1 .zero).exec ⟨[], []⟩ with ⟨stop | results, e'⟩ <;>
        rw [hrun] at hruns
      · cases stop with
        | fault f => exact hruns.elim
        | fail err => exact hruns.elim
      cases results with
      | nil => exact ⟨none, .nothing hindex hexec hruns⟩
      | cons top rest =>
        by_cases hkept : (Arith.narrow top.score).lt s.nodeThreshold = false ∧
            isChildOf host s top.id parentId = true
        · exact ⟨_, .found hindex hexec hruns hkept.1 hkept.2⟩
        · refine ⟨none, .passed hindex hexec hruns fun hhigh => ?_⟩
          by_contra hnamed
          exact hkept ⟨hhigh, by simpa using hnamed⟩

/-- A window that hits nothing. -/
theorem offers_of_none {parentId : CStr} {chunk : Ngram.Chunk}
    (hlt : chunk.byteStart < chunk.byteEnd)
    (hhit : Hit s s.index.childHnsw False Searches chunk none) :
    s.Offers host parentId chunk.text none := by
  cases hhit with
  | below hindex hexec hfirst hlow =>
    refine .passed hindex hexec hfirst fun hhigh => ?_
    rw [hlow] at hhigh
    cases hhigh
  | nothing hindex hexec hnone => exact .nothing hindex hexec hnone
  | unembedded hexec => exact .unembedded hexec
  | unindexed hindex => exact .unindexed hindex
  | empty hempty => omega
  | starved hfailed => exact hfailed.elim

/-- **A call of the visitor** under a node places what a lookup of its text finds. -/
theorem offers_of_step {parentId : CStr} {chunk : Ngram.Chunk}
    (hlt : chunk.byteStart < chunk.byteEnd) {ctx : ScanCtx} {r : Int × ScanCtx}
    (hstep : ChildStep host s False Searches parentId chunk ctx r) :
    ∃ found, s.Offers host parentId chunk.text found ∧
      r.1 = (placeFound chunk.text found ctx.items).1 ∧
        r.2.items = (placeFound chunk.text found ctx.items).2 := by
  cases hstep with
  | skipped hhit => exact ⟨none, offers_of_none hlt hhit, rfl, rfl⟩
  | foreign hhit hnamed =>
    cases hhit with
    | above hindex hexec hfirst hhigh =>
      exact ⟨none, .passed hindex hexec hfirst fun _ => hnamed, rfl, rfl⟩
  | found hhit hnamed =>
    cases hhit with
    | above hindex hexec hfirst hhigh =>
      exact ⟨_, .found hindex hexec hfirst hhigh hnamed, rfl, rfl⟩
  | aborted hfailed => exact hfailed.elim

/-! ## The lookups of a manifest -/

variable {sys : System} {emb : Emb} {m : Manifest}

/-- The rows that name a child under a node are those of the children that the node declares. -/
theorem SchemaOf.isChildOf_own (h : SchemaOf sys emb m s) (parentId id : CStr) :
    isChildOf sys.host s id parentId = true ↔ ∃ c ∈ ownChildren m parentId, c.id = some id := by
  rw [h.isChildOf_iff]
  constructor
  · rintro ⟨nd, hnd, hparent, c, hc, hid⟩
    exact ⟨c, mem_ownChildren.mpr ⟨nd, hnd, hparent, hc⟩, hid⟩
  · rintro ⟨c, hc, hid⟩
    obtain ⟨nd, hnd, hparent, hc⟩ := mem_ownChildren.mp hc
    exact ⟨nd, hnd, hparent, c, hc, hid⟩

/-- **A lookup of a compiled schema** with few child descriptions is a lookup of its manifest. -/
theorem SchemaOf.lookup_of_offers (h : SchemaOf sys emb m s) (hready : s.Searchable)
    (hcount : (describedBy emb (childNodes m.nodes)).length ≤ 1024) {parentId text : CStr}
    {found : Option (CStr × Binary32)} (hoffers : s.Offers sys.host parentId text found) :
    Lookup emb m parentId text found := by
  have hmodel := h.model
  subst hmodel
  have hbest : ∀ {index vec results}, s.index.childHnsw = some index →
      Searches index vec results → bestOnly index vec results := by
    rintro index vec results hindex ⟨e, e', he, hrun⟩
    have halloc : Keeps Quiet (starved False) (alloc : Run Hnsw.Status Bool) fun served =>
        served = false → False := Keeps.alloc_served
    exact ((search_bestOnly halloc (hready.child index hindex) (h.childCount hcount hindex)
      vec).value he hrun).1
  -- the first result is that of a best description
  have hfirst : ∀ {index vec top rest}, s.index.childHnsw = some index →
      Searches index vec (top :: rest) → ∃ d, Best (describedBy s.emb (childNodes m.nodes)) vec d ∧
        top = d.result vec ∧ Binary64.zero.le (d.score vec) = true := by
    intro index vec top rest hindex hsearch
    rcases hbest hindex hsearch with ⟨hnil, -⟩ | ⟨result, hresult, htop⟩
    · cases hnil
    cases hresult
    rcases h.childIndex with ⟨hnsw, hsome, hreceived⟩ | ⟨hnone, -⟩
    swap
    · rw [hnone] at hindex
      cases hindex
    rw [hsome] at hindex
    cases hindex
    obtain ⟨hdescriptions, filled, hbuilt⟩ := hreceived.descriptions
    rw [← hdescriptions]
    exact (hbuilt.top_iff vec top).mp htop
  cases hoffers with
  | found hindex hexec hsearch hhigh hnamed =>
    obtain ⟨d, hd, rfl, hzero⟩ := hfirst hindex hsearch
    refine .found hexec hd ?_ ((h.isChildOf_own _ _).mp hnamed)
    rw [h.nodeThreshold] at hhigh
    rw [acceptable, hzero, show (Arith.narrow (d.score _)).lt m.nodeThreshold = false from hhigh]
    rfl
  | passed hindex hexec hsearch hdropped =>
    obtain ⟨d, hd, rfl, -⟩ := hfirst hindex hsearch
    refine .passed hexec hd fun haccept hown => ?_
    rw [acceptable, Bool.and_eq_true, Bool.not_eq_true', ← h.nodeThreshold] at haccept
    have hnamed := hdropped haccept.2
    rw [show isChildOf sys.host s (d.result _).id parentId = true from
      (h.isChildOf_own parentId _).mpr hown] at hnamed
    cases hnamed
  | @nothing index vec hindex hexec hsearch =>
    rcases hbest hindex hsearch with ⟨-, hall⟩ | ⟨result, hresult, -⟩
    swap
    · cases hresult
    rcases h.childIndex with ⟨hnsw, hsome, hreceived⟩ | ⟨hempty, -⟩
    swap
    · rw [hempty] at hindex
      cases hindex
    rw [hsome] at hindex
    cases hindex
    obtain ⟨hdescriptions, filled, hbuilt⟩ := hreceived.descriptions
    by_cases hbest : ∃ d, Best (describedBy s.emb (childNodes m.nodes)) vec d
    · obtain ⟨d, hd⟩ := hbest
      refine .passed hexec hd fun haccept => ?_
      have hmem := hd.mem
      rw [← hdescriptions] at hmem
      have hlow := hall (d.result vec) ((hbuilt.scored_perm vec).mem_iff.mpr
        (List.mem_map.mpr ⟨d, hmem, rfl⟩))
      rw [hbuilt.metric] at hlow
      rw [acceptable, show Binary64.zero.le (d.score vec) = false from hlow,
        Bool.false_and] at haccept
      cases haccept
    · exact .nothing hexec fun d hd => hbest ⟨d, hd⟩
  | unembedded hexec => exact .unembedded hexec
  | unindexed hindex =>
    rcases h.childIndex with ⟨hnsw, hsome, -⟩ | ⟨-, hnil⟩
    · rw [hsome] at hindex
      cases hindex
    cases hexec : s.emb.exec text with
    | none => exact .unembedded hexec
    | some vec =>
      refine .nothing hexec fun d hd => ?_
      have hmem := hd.mem
      rw [describedBy, hnil] at hmem
      cases hmem

end Lookups

/-! ## The scan -/

/-- The windows of a text as a traversal without an upper bound has them. -/
theorem textOf_phrase {span : CStr} {w : Ngram.Span} (h : w ∈ textWindows span) :
    ∃ n, (Ngram.tokensOf Ngram.optionsDefault.separators (textOf span w)).length = n + 1 ∧
      textOf (textOf span w) ⟨0, n⟩ = textOf span w := by
  have hmem := (Ngram.mem_windows (Int.le_refl 1)).mp h
  have hstart : w.start < (Ngram.tokensOf Ngram.optionsDefault.separators span).length := by omega
  have hfirst := (Ngram.tokensOf_ends (List.getElem_mem hstart)).1
  have hlast := (Ngram.tokensOf_ends (List.getElem_mem hmem.2.1)).2
  have hlt := (Ngram.tokensOf_ordered Ngram.optionsDefault.separators span).window_lt
    hmem.1 hstart hmem.2.1
  have htext : textOf span w =
      span.slice (Ngram.tokensOf Ngram.optionsDefault.separators span)[w.start].byteStart
        (Ngram.tokensOf Ngram.optionsDefault.separators span)[w.stop].byteEnd := by
    unfold textOf windowText
    rw [List.getD_eq_getElem _ _ hstart, List.getD_eq_getElem _ _ hmem.2.1]
  obtain ⟨hfirst, hlast⟩ := Ngram.slice_ends hlt hfirst hlast
  rw [← htext] at hfirst hlast
  obtain ⟨n, hlen, hstart, hstop⟩ := Ngram.tokensOf_whole hfirst hlast
  refine ⟨n, hlen, ?_⟩
  change CStr.slice _ _ _ = _
  rw [hstart, hstop]
  apply CStr.ext
  change (List.drop 0 _).take (_ - 0) = _
  exact List.take_length

/-- The text of a window that is not the whole is another text. -/
theorem textOf_ne_whole {text : CStr} {n : Nat}
    (hlen : (Ngram.tokensOf Ngram.optionsDefault.separators text).length = n + 1)
    (hwhole : textOf text ⟨0, n⟩ = text) {w : Ngram.Span}
    (hw : w ∈ Ngram.windows (n + 1) 1 n) : textOf text w ≠ text := by
  intro hsame
  have hmem := (Ngram.mem_windows (Int.le_refl 1)).mp hw
  have hordered := Ngram.tokensOf_ordered Ngram.optionsDefault.separators text
  have hlength : ∀ v : Ngram.Span,
      ∀ (hstart : v.start < (Ngram.tokensOf Ngram.optionsDefault.separators text).length)
        (hstop : v.stop < (Ngram.tokensOf Ngram.optionsDefault.separators text).length),
      (textOf text v).strlen =
        (Ngram.tokensOf Ngram.optionsDefault.separators text)[v.stop].byteEnd -
          (Ngram.tokensOf Ngram.optionsDefault.separators text)[v.start].byteStart := by
    intro v hstart hstop
    have hend := (hordered.bounds _ (List.getElem_mem hstop)).2.2
    unfold textOf windowText
    rw [List.getD_eq_getElem _ _ hstart, List.getD_eq_getElem _ _ hstop]
    change (List.take _ (text.bytes.drop _)).length = _
    rw [List.length_take, List.length_drop]
    exact Nat.min_eq_left (Nat.sub_le_sub_right hend _)
  have hpart := hlength w (by omega) (by omega)
  have hall := hlength ⟨0, n⟩ (by change 0 < _; omega) (by change n < _; omega)
  have hshorter := hordered.window_shorter hmem.1 (show w.stop ≤ n by omega) (by omega)
    (show 0 < w.start ∨ w.stop < n by omega)
  rw [hsame] at hpart
  rw [hwhole] at hall
  simp only at hall
  omega

/-- The windows of a scan under a node. -/
def childWindows (maxTokens : Int) (span : CStr) : List Ngram.Span :=
  let count := (Ngram.tokensOf Ngram.optionsDefault.separators span).length
  Ngram.windows count 1 (Ngram.maxWindow (childOptions maxTokens) count)

/-- The items that a scan collects when the lookups of its windows find these. -/
def placedBy (lookup : CStr → Option (CStr × Binary32)) (maxTokens : Int) (span : CStr) :
    List Match :=
  Ngram.leftBy (Ngram.visits (fun w => placeFound (textOf span w) (lookup (textOf span w)))
    (childWindows maxTokens span) [] [])

/-- The windows that the scan then looks up: those that it has not closed. -/
def openWindows (lookup : CStr → Option (CStr × Binary32)) (maxTokens : Int) (span : CStr) :
    List Ngram.Span :=
  Ngram.calledFor (fun w => placeFound (textOf span w) (lookup (textOf span w)))
    (childWindows maxTokens span) [] []

/-- The child matches of a scan, with the emits that the children declare. -/
def scanBy (lookup : CStr → Option (CStr × Binary32)) (children : List NodeDef) (maxTokens : Int)
    (span : CStr) : List Match :=
  (placedBy lookup maxTokens span).map fun ch =>
    { ch with emits := (keyedEmits children ch.id).map (EmitDef.emitted ch.span) }

/-- A match as it is placed: the text of a window with what its lookup finds, and no emits yet. -/
def PlacedFrom (lookup : CStr → Option (CStr × Binary32)) (span : CStr) (ws : List Ngram.Span)
    (m : Match) : Prop :=
  m.emits = [] ∧ lookup m.span = some (m.id, m.score) ∧ ∃ v ∈ ws, m.span = textOf span v

theorem placeFound_placed {lookup : CStr → Option (CStr × Binary32)} {span : CStr}
    {ws : List Ngram.Span} {w : Ngram.Span} (hw : w ∈ ws) {items : List Match}
    (h : ∀ m ∈ items, PlacedFrom lookup span ws m) :
    ∀ m ∈ (placeFound (textOf span w) (lookup (textOf span w)) items).2,
      PlacedFrom lookup span ws m := by
  intro m hm
  unfold placeFound at hm
  split at hm
  · exact h m hm
  · rename_i id score hfound
    rcases mem_placeMatch hm with rfl | hm
    · exact ⟨rfl, hfound, w, hw, rfl⟩
    · exact h m hm

/-- What a scan collects over some windows is placed from them. -/
theorem visits_placed (lookup : CStr → Option (CStr × Binary32)) (span : CStr)
    (ws : List Ngram.Span) (calls : List Ngram.Call) :
    ∀ m ∈ Ngram.leftBy (Ngram.visits
      (fun w => placeFound (textOf span w) (lookup (textOf span w))) ws calls []),
      PlacedFrom lookup span ws m :=
  Ngram.visits_keeps (P := fun items : List Match => ∀ m ∈ items, PlacedFrom lookup span ws m)
    (fun _ hw _ h => placeFound_placed hw h) (by simp)

theorem placedBy_emits (lookup : CStr → Option (CStr × Binary32)) (maxTokens : Int) (span : CStr) :
    ∀ ch ∈ placedBy lookup maxTokens span, ch.emits = [] :=
  fun ch hch => (visits_placed lookup span _ [] ch hch).1

/-- A scan without an upper bound, or with one that the span does not reach. -/
def Unbounded (maxTokens : Int) (span : CStr) : Prop :=
  maxTokens = 0 ∨ ((Ngram.tokensOf Ngram.optionsDefault.separators span).length : Int) ≤ maxTokens

theorem Unbounded.windows {maxTokens : Int} {span : CStr} (h : Unbounded maxTokens span) :
    childWindows maxTokens span = textWindows span := by
  unfold childWindows textWindows Ngram.maxWindow childOptions
  simp only
  split
  · rfl
  · refine congrArg _ ?_
    unfold Unbounded at h
    omega

section Whole

variable {lookup : CStr → Option (CStr × Binary32)} {text : CStr} {n : Nat} {maxTokens : Int}
  (hlen : (Ngram.tokensOf Ngram.optionsDefault.separators text).length = n + 1)
  (hwhole : textOf text ⟨0, n⟩ = text) (hwide : Unbounded maxTokens text)

include hlen hwhole hwide

/-- What the lookup of the whole text finds is all that a scan of it collects. -/
theorem placedBy_some {id : CStr} {score : Binary32} (hfound : lookup text = some (id, score)) :
    placedBy lookup maxTokens text = [⟨id, text, score, [], []⟩] := by
  have hplace : placeFound (textOf text ⟨0, n⟩) (lookup (textOf text ⟨0, n⟩)) [] =
      (1, [⟨id, text, score, [], []⟩]) := by
    rw [hwhole, hfound]
    rfl
  rw [placedBy, hwide.windows, textWindows, hlen, Ngram.visits_whole (by rw [hplace]), hplace]

/-- Then nothing else is looked up. -/
theorem openWindows_some {id : CStr} {score : Binary32} (hfound : lookup text = some (id, score)) :
    openWindows lookup maxTokens text = [⟨0, n⟩] := by
  have hplace : placeFound (textOf text ⟨0, n⟩) (lookup (textOf text ⟨0, n⟩)) [] =
      (1, [⟨id, text, score, [], []⟩]) := by
    rw [hwhole, hfound]
    rfl
  rw [openWindows, hwide.windows, textWindows, hlen]
  exact Ngram.calledFor_whole (by rw [hplace])

/-- Where it finds nothing, no match has the whole text. -/
theorem placedBy_none (hfound : lookup text = none) :
    ∀ m ∈ placedBy lookup maxTokens text, m.span ≠ text := by
  have hplace : placeFound (textOf text ⟨0, n⟩) (lookup (textOf text ⟨0, n⟩)) [] = (0, []) := by
    rw [hwhole, hfound]
    rfl
  rw [placedBy, hwide.windows, textWindows, hlen, Ngram.visits_shorter hplace]
  intro m hm
  obtain ⟨-, -, v, hv, hspan⟩ := visits_placed lookup text _ _ m hm
  rw [hspan]
  exact textOf_ne_whole hlen hwhole hv

/-- So what a scan of a text collects shows what the lookup of the text finds. -/
theorem lookup_of_placedBy {lookup' : CStr → Option (CStr × Binary32)}
    (h : (placedBy lookup maxTokens text).map (fun m => (m.id, m.span, m.score)) =
      (placedBy lookup' maxTokens text).map fun m => (m.id, m.span, m.score)) :
    lookup text = lookup' text := by
  have hhidden : ∀ {l l' : CStr → Option (CStr × Binary32)} {found : CStr × Binary32},
      l text = none → l' text = some found →
        (placedBy l maxTokens text).map (fun m => (m.id, m.span, m.score)) ≠
          (placedBy l' maxTokens text).map fun m => (m.id, m.span, m.score) := by
    intro l l' found hnone hsome heq
    rw [placedBy_some hlen hwhole hwide hsome] at heq
    have hmem : (found.1, text, found.2) ∈
        (placedBy l maxTokens text).map fun m => (m.id, m.span, m.score) := by
      rw [heq]
      exact List.mem_singleton.mpr rfl
    obtain ⟨ch, hch, heq⟩ := List.mem_map.mp hmem
    exact placedBy_none hlen hwhole hwide hnone ch hch (Prod.mk.inj (Prod.mk.inj heq).2).1
  cases hfound : lookup text with
  | none =>
    cases hfound' : lookup' text with
    | none => rfl
    | some found => exact absurd h (hhidden hfound hfound')
  | some found =>
    cases hfound' : lookup' text with
    | none => exact absurd h.symm (hhidden hfound' hfound)
    | some found' =>
      rw [placedBy_some hlen hwhole hwide hfound, placedBy_some hlen hwhole hwide hfound'] at h
      have hkeys := Prod.mk.inj (List.singleton_inj.mp h)
      exact congrArg some (Prod.ext hkeys.1 (Prod.mk.inj hkeys.2).2)

end Whole

section Scan

variable [Arith] {host : Host} {s : Schema} {parentId : CStr}

/-- **The scan under a node** is a function of the lookups of the windows that it finds open. -/
theorem Schema.Searchable.scanChildren_eq (hready : s.Searchable) {X : Stop Unit → Prop}
    (hroom : s.Room host ∨ X (.fault .index)) {lookup : CStr → Option (CStr × Binary32)}
    {maxTokens : Int} {span : CStr} (hlookup : ∀ w ∈ openWindows lookup maxTokens span, ∀ found,
      s.Offers host parentId (textOf span w) found → found = lookup (textOf span w)) :
    Keeps Quiet X (scanChildren host s 1 maxTokens parentId span) fun children =>
      children = (placedBy lookup maxTokens span).map fun ch =>
        { ch with emits := childEmits host s parentId ch.id ch.span } := by
  have halloc : Keeps Quiet X (alloc : Run Unit Bool) fun served => served = false → False :=
    Keeps.alloc_served
  have hsearch : s.Searched Quiet False fromItems Searches := by
    refine ⟨(hready.searched halloc).node, fun index hindex vec => ?_⟩
    exact hready.searches hindex vec
  unfold scanChildren
  refine Keeps.bind (Q := fun r => r.2.items = placedBy lookup maxTokens span) ?_ ?_
  · have hanswers : ∀ w ∈ openWindows lookup maxTokens span, Ngram.Answers Quiet X
        (fun (own : ScanCtx) items => own.items = items) (visitChild host s parentId)
        (fun w => placeFound (textOf span w) (lookup (textOf span w)))
        (Ngram.chunkOf span (Ngram.tokensOf Ngram.optionsDefault.separators span) w) w := by
      intro w hw own items hown
      subst hown
      have hw' : w ∈ childWindows maxTokens span := Ngram.mem_of_calledFor hw
      have hmem := (Ngram.mem_windows (Int.le_refl 1)).mp hw'
      have hlt := Ngram.chunkOf_lt hmem.1 hmem.2.1
      refine (visitChild_keeps halloc hroom hsearch (fun _ _ _ he => he) own).mono fun r hr => ?_
      obtain ⟨found, hfound, hdecision, hitems⟩ := offers_of_step hlt hr
      rw [hlookup w hw found hfound] at hdecision hitems
      exact ⟨hdecision, hitems⟩
    refine (Ngram.execute_leaves_called halloc (childOptions_accepted maxTokens) (by rfl) hanswers).mono fun r hr => ?_
    rcases hr with ⟨calls, items, hvisits, hr, -⟩ | ⟨calls, items, hvisits, hr, -⟩ | ⟨hfailed, -⟩
    · exact hr.trans (congrArg Ngram.leftBy hvisits).symm
    · exact hr.trans (congrArg Ngram.leftBy hvisits).symm
    · exact hfailed.elim
  · rintro ⟨_, ctx⟩ hctx
    simp only at hctx ⊢
    rw [hctx]
    exact (allChildEmits_keeps halloc parentId fun ch hch =>
      ⟨placedBy_emits lookup maxTokens span ch hch, fun _ _ _ he => he⟩).mono
        fun children hchildren => WithEmits.all hchildren

end Scan

/-! ## Two manifests -/

/-- What a scan under a node reads of a child. -/
def NodeDef.face (nd : NodeDef) : Option CStr × List (Option CStr) × List EmitDef :=
  (nd.id, nd.descriptions, nd.emits)

/-- Two manifests that agree on the threshold and on the children of a node. -/
structure AgreeUnder (m m' : Manifest) (parentId : CStr) : Prop where
  threshold : m'.nodeThreshold = m.nodeThreshold
  children : (ownChildren m' parentId).map NodeDef.face = (ownChildren m parentId).map NodeDef.face

theorem flatMap_of_faces {β : Type} {f : NodeDef → List β}
    (hf : ∀ nd nd' : NodeDef, nd.face = nd'.face → f nd = f nd') : ∀ {nodes nodes' : List NodeDef},
      nodes.map NodeDef.face = nodes'.map NodeDef.face → nodes.flatMap f = nodes'.flatMap f
  | [], [], _ => rfl
  | [], _ :: _, h => by cases h
  | _ :: _, [], h => by cases h
  | nd :: nodes, nd' :: nodes', h => by
    obtain ⟨hface, hrest⟩ := List.cons_eq_cons.mp h
    rw [List.flatMap_cons, List.flatMap_cons, hf nd nd' hface, flatMap_of_faces hf hrest]

theorem AgreeUnder.keyedEmits {m m' : Manifest} {parentId : CStr} (h : AgreeUnder m m' parentId)
    (id : CStr) :
    keyedEmits (ownChildren m' parentId) id = keyedEmits (ownChildren m parentId) id := by
  unfold Ipa.keyedEmits namesakes
  rw [flatMap_filter_nodes, flatMap_filter_nodes]
  refine flatMap_of_faces (fun nd nd' hface => ?_) h.children
  unfold NodeDef.face at hface
  obtain ⟨hid, hrest⟩ := Prod.mk.inj hface
  rw [hid, (Prod.mk.inj hrest).2]

/-- The children of a node are among all. -/
theorem describedBy_ownChildren {emb : Emb} {m : Manifest} {parentId : CStr} {d : Description}
    (h : d ∈ describedBy emb (ownChildren m parentId)) :
    d ∈ describedBy emb (childNodes m.nodes) := by
  obtain ⟨c, hc, hdesc⟩ := mem_describedBy.mp h
  obtain ⟨nd, hnd, -, hchild⟩ := mem_ownChildren.mp hc
  exact mem_describedBy.mpr ⟨c, List.mem_flatMap.mpr ⟨nd, hnd, hchild⟩, hdesc⟩

theorem AgreeUnder.describedBy {m m' : Manifest} {parentId : CStr} (h : AgreeUnder m m' parentId)
    (emb : Emb) :
    describedBy emb (ownChildren m' parentId) = describedBy emb (ownChildren m parentId) := by
  unfold Ipa.describedBy described
  refine congrArg _ (flatMap_of_faces (fun nd nd' hface => ?_) h.children)
  unfold NodeDef.face at hface
  obtain ⟨hid, hrest⟩ := Prod.mk.inj hface
  rw [hid, (Prod.mk.inj hrest).1]

section Alike

variable [Arith]

/-- Every description of a child of another node is worse than one of a child of the node. -/
def Outranked (emb : Emb) (m : Manifest) (parentId : CStr) (vec : List Binary32) : Prop :=
  ∀ d ∈ describedBy emb (childNodes m.nodes), d ∈ describedBy emb (ownChildren m parentId) ∨
    ∃ own ∈ describedBy emb (ownChildren m parentId), (d.score vec).lt (own.score vec) = true

/-- Then the best descriptions of all are those of the node. -/
theorem Outranked.best_iff {emb : Emb} {m : Manifest} {parentId : CStr} {vec : List Binary32}
    (h : Outranked emb m parentId vec) {d : Description} :
    Best (describedBy emb (childNodes m.nodes)) vec d ↔
      Best (describedBy emb (ownChildren m parentId)) vec d := by
  constructor
  · intro hbest
    refine ⟨?_, fun other hother => hbest.best other (describedBy_ownChildren hother)⟩
    rcases h d hbest.mem with hown | ⟨own, hown, hlt⟩
    · exact hown
    · have := hbest.best own (describedBy_ownChildren hown)
      rw [hlt] at this
      cases this
  · intro hbest
    refine ⟨describedBy_ownChildren hbest.mem, fun other hother => ?_⟩
    rcases h other hother with hown | ⟨own, hown, hlt⟩
    · exact hbest.best other hown
    · have hnot := hbest.best own hown
      by_contra hother
      rw [Bool.not_eq_false] at hother
      rw [Binary64.lt_trans hother hlt] at hnot
      cases hnot

/-- Two manifests with the same best descriptions for a vector, and the same children under a node. -/
structure SameBest (emb : Emb) (m m' : Manifest) (parentId : CStr) (vec : List Binary32) : Prop where
  best : ∀ d, Best (describedBy emb (childNodes m.nodes)) vec d ↔
    Best (describedBy emb (childNodes m'.nodes)) vec d
  same : ∀ d d', Best (describedBy emb (childNodes m.nodes)) vec d →
    Best (describedBy emb (childNodes m'.nodes)) vec d' → d.label = d'.label ∧ d.score vec = d'.score vec
  declared : ∀ id, (∃ c ∈ ownChildren m' parentId, c.id = some id) ↔
    ∃ c ∈ ownChildren m parentId, c.id = some id
  threshold : m'.nodeThreshold = m.nodeThreshold

theorem SameBest.symm {emb : Emb} {m m' : Manifest} {parentId : CStr} {vec : List Binary32}
    (h : SameBest emb m m' parentId vec) : SameBest emb m' m parentId vec := by
  refine ⟨fun d => (h.best d).symm, fun d d' hd hd' => ?_, fun id => (h.declared id).symm,
    h.threshold.symm⟩
  obtain ⟨hlabel, hscore⟩ := h.same d' d hd' hd
  exact ⟨hlabel.symm, hscore.symm⟩

/-- What one finds the other finds. -/
theorem SameBest.finds {emb : Emb} {m m' : Manifest} {parentId text : CStr} {vec : List Binary32}
    (h : SameBest emb m m' parentId vec) (hexec : emb.exec text = some vec) {x : CStr × Binary32}
    {found : Option (CStr × Binary32)} (hfound : Lookup emb m parentId text (some x))
    (hfound' : Lookup emb m' parentId text found) : found = some x := by
  obtain ⟨hvec, hd, haccept, hown⟩ := hfound
  rename_i d
  rw [hexec] at hvec
  cases hvec
  cases hfound' with
  | unembedded hnone =>
    rw [hexec] at hnone
    cases hnone
  | nothing hvec' hnobest =>
    rw [hexec] at hvec'
    cases hvec'
    exact absurd ((h.best d).mp hd) (hnobest d)
  | @found _ d' hvec' hd' =>
    rw [hexec] at hvec'
    cases hvec'
    obtain ⟨hlabel, hscore⟩ := h.same d d' hd hd'
    rw [hlabel, hscore]
  | @passed _ d' hvec' hd' hdropped =>
    rw [hexec] at hvec'
    cases hvec'
    obtain ⟨hlabel, hscore⟩ := h.same d d' hd hd'
    refine absurd ?_ (hdropped ?_)
    · rw [h.declared, ← hlabel]
      exact hown
    · rw [acceptable, ← hscore, h.threshold]
      exact haccept

/-- Two manifests that agree on a node, in both of which no other node is as good, have the same
lookups under it. -/
theorem sameLookup_of_outranked {emb : Emb} {m m' : Manifest} {parentId text : CStr}
    {vec : List Binary32} (hexec : emb.exec text = some vec) (hagree : AgreeUnder m m' parentId)
    (h : Outranked emb m parentId vec) (h' : Outranked emb m' parentId vec)
    (huntied : ∀ d d', Best (describedBy emb (ownChildren m parentId)) vec d →
      Best (describedBy emb (ownChildren m parentId)) vec d' → d.result vec = d'.result vec) :
    SameLookup emb m m' parentId text := by
  have hbest : ∀ d, Best (describedBy emb (childNodes m.nodes)) vec d ↔
      Best (describedBy emb (childNodes m'.nodes)) vec d := by
    intro d
    rw [h.best_iff, h'.best_iff, hagree.describedBy]
  have hids := congrArg (List.map Prod.fst) hagree.children
  rw [List.map_map, List.map_map] at hids
  change (ownChildren m' parentId).map (·.id) = (ownChildren m parentId).map (·.id) at hids
  have hsame : SameBest emb m m' parentId vec := by
    refine ⟨hbest, fun d d' hd hd' => ?_, fun id => ?_, hagree.threshold⟩
    · have := huntied d d' (h.best_iff.mp hd) (h.best_iff.mp ((hbest d').mpr hd'))
      exact ⟨congrArg Hnsw.Result.id this, congrArg Hnsw.Result.score this⟩
    · rw [← List.mem_map, ← List.mem_map, hids]
  intro found found' hfound hfound'
  cases found with
  | some x => exact (hsame.finds hexec hfound hfound').symm
  | none =>
    cases found' with
    | none => rfl
    | some x => exact hsame.symm.finds hexec hfound' hfound

/-- A schema that was compiled from a manifest and opened; the header of the image states
everything. -/
def Compiled (sys : System) (m : Manifest) (s : Schema) : Prop :=
  ∃ emb image e e' e₀ e₁, sys.emb = some emb ∧ m.Whole emb ∧
    (serialize sys.host sys.emb m).exec e = (.ok image, e') ∧
      (openSchema sys image).exec e₀ = (.ok s, e₁)

theorem Compiled.schemaOf {sys : System} {m : Manifest} {s : Schema} (h : Compiled sys m s) :
    m.Valid ∧ s.Searchable ∧ SchemaOf sys s.emb m s := by
  obtain ⟨emb, image, _, _, _, _, hemb, hwhole, hbuild, hopen⟩ := h
  obtain ⟨hvalid, hready, hs⟩ := schemaOf_of_whole hbuild hopen hemb hwhole
  obtain rfl := hs.model
  exact ⟨hvalid, hready, hs⟩

variable (host host' : Host) (s s' : Schema) (parentId : CStr) (maxTokens : Int) (span : CStr)

/-- Scans of a span under a node give the same child matches, where no allocation fails. -/
def AlikeUnder : Prop :=
  ∀ children children' e e' e₁ e₁', Quiet e → Quiet e' →
    (scanChildren host s 1 maxTokens parentId span : Run Unit _).exec e = (.ok children, e₁) →
      (scanChildren host' s' 1 maxTokens parentId span : Run Unit _).exec e' =
        (.ok children', e₁') → children = children'

/-- Two schemas offer the same wherever a scan of a span under a node looks. -/
def SameWhereOpen : Prop :=
  ∃ lookup, (∀ text, s.Offers host parentId text (lookup text)) ∧
    ∀ w ∈ openWindows lookup maxTokens span, SameOffer host host' s s' parentId (textOf span w)

/-- No lookup of a scan leaves a tie to the index. -/
def UntiedUnder : Prop :=
  ∀ w ∈ childWindows maxTokens span, SameOffer host host s s parentId (textOf span w)

variable {host host' s s' parentId maxTokens span}

/-- A whole span in which both find the same hides all its windows. -/
theorem SameOffer.whereOpen (h : SameOffer host host' s s' parentId span) (hready : s.Searchable)
    (hready' : s'.Searchable) {w : Ngram.Span} (hw : w ∈ textWindows span)
    (htext : textOf span w = span) (hwide : Unbounded maxTokens span) {found : CStr × Binary32}
    (hfound : s.Offers host parentId span (some found)) :
    SameWhereOpen host host' s s' parentId maxTokens span := by
  choose lookup hlookup using hready.exists_offers host parentId
  obtain ⟨found', hfound'⟩ := hready'.exists_offers host' parentId span
  have hlookups : lookup span = some found :=
    (h _ _ (hlookup span) hfound').trans (h _ _ hfound hfound').symm
  obtain ⟨n, hlen, hwhole⟩ := textOf_phrase hw
  rw [htext] at hlen hwhole
  refine ⟨lookup, hlookup, fun v hv => ?_⟩
  rw [openWindows_some hlen hwhole hwide hlookups] at hv
  rw [List.mem_singleton.mp hv, hwhole]
  exact h

/-- What two scans collect, where it is the same. -/
theorem AlikeUnder.placed (h : AlikeUnder host host' s s' parentId maxTokens span)
    (hready : s.Searchable) (hready' : s'.Searchable) (hroom : s.Room host) (hroom' : s'.Room host')
    {lookup lookup' : CStr → Option (CStr × Binary32)}
    (hlookup : ∀ w ∈ childWindows maxTokens span, ∀ found,
      s.Offers host parentId (textOf span w) found → found = lookup (textOf span w))
    (hlookup' : ∀ w ∈ childWindows maxTokens span, ∀ found,
      s'.Offers host' parentId (textOf span w) found → found = lookup' (textOf span w)) :
    (placedBy lookup maxTokens span).map (fun m => (m.id, m.span, m.score)) =
      (placedBy lookup' maxTokens span).map fun m => (m.id, m.span, m.score) := by
  have hscan := hready.scanChildren_eq (X := fun _ => False) (.inl hroom)
    fun w hw => hlookup w (Ngram.mem_of_calledFor hw)
  have hscan' := hready'.scanChildren_eq (X := fun _ => False) (.inl hroom')
    fun w hw => hlookup' w (Ngram.mem_of_calledFor hw)
  obtain ⟨children, e₁, hrun, -, rfl⟩ := Returns.exec hscan (e := ⟨[], []⟩) rfl
  obtain ⟨children', e₁', hrun', -, rfl⟩ := Returns.exec hscan' (e := ⟨[], []⟩) rfl
  have hequal := congrArg (List.map fun m : Match => (m.id, m.span, m.score))
    (h _ _ ⟨[], []⟩ ⟨[], []⟩ _ _ rfl rfl hrun hrun')
  rwa [List.map_map, List.map_map] at hequal

/-- Scans that agree have lookups that agree, for the whole span and for all that they report. -/
theorem AlikeUnder.offers (h : AlikeUnder host host' s s' parentId maxTokens span)
    (hready : s.Searchable) (hready' : s'.Searchable) (hroom : s.Room host) (hroom' : s'.Room host')
    (hties : UntiedUnder host s parentId maxTokens span)
    (hties' : UntiedUnder host' s' parentId maxTokens span) :
    (Unbounded maxTokens span → ∀ w ∈ textWindows span, textOf span w = span →
      SameOffer host host' s s' parentId span) ∧
    ∀ children e e', Quiet e →
      (scanChildren host s 1 maxTokens parentId span : Run Unit _).exec e = (.ok children, e') →
        ∀ ch ∈ children, SameOffer host host' s s' parentId ch.span := by
  choose lookup hlookup using hready.exists_offers host parentId
  choose lookup' hlookup' using hready'.exists_offers host' parentId
  have hfinds : ∀ w ∈ childWindows maxTokens span, ∀ found,
      s.Offers host parentId (textOf span w) found → found = lookup (textOf span w) :=
    fun w hw found hfound => hties w hw _ _ hfound (hlookup _)
  have hfinds' : ∀ w ∈ childWindows maxTokens span, ∀ found,
      s'.Offers host' parentId (textOf span w) found → found = lookup' (textOf span w) :=
    fun w hw found hfound => hties' w hw _ _ hfound (hlookup' _)
  have hplaced := h.placed hready hready' hroom hroom' hfinds hfinds'
  have hsame : ∀ w ∈ childWindows maxTokens span,
      lookup (textOf span w) = lookup' (textOf span w) →
        SameOffer host host' s s' parentId (textOf span w) := by
    intro w hw heq found found' hfound hfound'
    rw [hfinds w hw _ hfound, hfinds' w hw _ hfound', heq]
  constructor
  · intro hwide w hw htext
    obtain ⟨n, hlen, hwhole⟩ := textOf_phrase hw
    rw [htext] at hlen hwhole
    have heq := lookup_of_placedBy hlen hwhole hwide hplaced
    rw [← hwide.windows] at hw
    rw [← htext] at heq ⊢
    exact hsame w hw heq
  · intro children e e' he hrun ch hch
    have hscan := hready.scanChildren_eq (X := fun _ => True) (.inr trivial)
      fun w hw => hfinds w (Ngram.mem_of_calledFor hw)
    obtain ⟨rfl, -⟩ := hscan.value he hrun
    obtain ⟨m, hm, rfl⟩ := List.mem_map.mp hch
    obtain ⟨-, hfound, w, hw, hspan⟩ := visits_placed lookup span _ [] m hm
    obtain ⟨m', hm', hkey⟩ := List.mem_map.mp (hplaced ▸ List.mem_map_of_mem hm)
    obtain ⟨hid, hspan', hscore⟩ : m'.id = m.id ∧ m'.span = m.span ∧ m'.score = m.score := by
      simpa using hkey
    obtain ⟨-, hfound', -⟩ := visits_placed lookup' span _ [] m' hm'
    rw [hspan', hid, hscore] at hfound'
    change SameOffer host host' s s' parentId m.span
    rw [hspan] at hfound hfound' ⊢
    exact hsame w hw (hfound.trans hfound'.symm)

/-- **Scans under a node agree** where the two indexes offer the same at every window that the scan
finds open; for few child descriptions it is enough that the manifests offer the same. Where ties
are not left to the index, scans agree only where the lookups of the whole span and of all that the
scans report agree. -/
theorem scanChildren_alike {sys sys' : System} {m m' : Manifest}
    (hcompiled : Compiled sys m s) (hcompiled' : Compiled sys' m' s') (hemb : s'.emb = s.emb)
    (hagree : AgreeUnder m m' parentId) :
    (SameWhereOpen sys.host sys'.host s s' parentId maxTokens span →
      AlikeUnder sys.host sys'.host s s' parentId maxTokens span) ∧
    ((describedBy s.emb (childNodes m.nodes)).length ≤ 1024 →
      (describedBy s.emb (childNodes m'.nodes)).length ≤ 1024 →
        ∀ text, SameLookup s.emb m m' parentId text →
          SameOffer sys.host sys'.host s s' parentId text) ∧
    (s.Room sys.host → s'.Room sys'.host → UntiedUnder sys.host s parentId maxTokens span →
      UntiedUnder sys'.host s' parentId maxTokens span →
        AlikeUnder sys.host sys'.host s s' parentId maxTokens span →
          (Unbounded maxTokens span → ∀ w ∈ textWindows span, textOf span w = span →
            SameOffer sys.host sys'.host s s' parentId span) ∧
          ∀ children e e', Quiet e →
            (scanChildren sys.host s 1 maxTokens parentId span : Run Unit _).exec e =
              (.ok children, e') →
                ∀ ch ∈ children, SameOffer sys.host sys'.host s s' parentId ch.span) := by
  obtain ⟨-, hready, hs⟩ := hcompiled.schemaOf
  obtain ⟨-, hready', hs'⟩ := hcompiled'.schemaOf
  rw [hemb] at hs'
  refine ⟨?_, fun hcount hcount' text hsame found found' hfound hfound' => ?_,
    fun hroom hroom' hties hties' halike => halike.offers hready hready' hroom hroom' hties hties'⟩
  · rintro ⟨lookup, hlookup, hopen⟩ children children' e e' e₁ e₁' he he' hscan hscan'
    choose lookup' hlookup' using hready'.exists_offers sys'.host parentId
    have hown := hready.scanChildren_eq (X := fun _ => True) (.inr trivial)
      fun w hw found hfound => (hopen w hw _ _ hfound (hlookup' _)).trans
        (hopen w hw _ _ (hlookup _) (hlookup' _)).symm
    have hown' := hready'.scanChildren_eq (X := fun _ => True) (.inr trivial)
      fun w hw found hfound => (hopen w hw _ _ (hlookup _) hfound).symm
    rw [(hown.value he hscan).1, (hown'.value he' hscan').1]
    simp only [hs.childEmits_eq, hs'.childEmits_eq]
    exact List.map_congr_left fun ch _ => by
      rw [show (namesakes m'.nodes parentId).flatMap (·.children) = ownChildren m' parentId from rfl,
        hagree.keyedEmits]
      rfl
  · exact hsame _ _ (hs.lookup_of_offers hready hcount hfound)
      (hs'.lookup_of_offers hready' hcount' hfound')

end Alike

theorem tilt_lt : (2 : Int) < 2 ^ 31 := by decide

/-- A model of dimension 2 that puts `x` between `p` and `q`, nearer to `p`, and `p q` nearer to
`q`. -/
def tiltEmb : Emb where
  dim := 2
  dim_lt := tilt_lt
  exec text :=
    if text ∈ ["p", "y", "x y", "p q r"].map CStr.ofString then some [⟨0x3F800000⟩, ⟨0⟩]
    else if text = .ofString "x" then some [⟨0x3F800000⟩, ⟨0x3F000000⟩]
    else if text ∈ ["q", "q r"].map CStr.ofString then some [⟨0⟩, ⟨0x3F800000⟩]
    else if text = .ofString "p q" then some [⟨0x3F000000⟩, ⟨0x3F800000⟩]
    else none
  exec_length text v h := by
    split at h
    · cases h
      rfl
    split at h
    · cases h
      rfl
    split at h
    · cases h
      rfl
    split at h
    · cases h
      rfl
    · cases h

def tiltSystem : System := ⟨⟨.w64, .little⟩, some tiltEmb, none, 1, 2⟩

/-- A node `P` with a child of this description, and a node `Q` with these children. -/
def siblingManifest (text : String) (children : List NodeDef) : Manifest :=
  manifestOf [{ leaf "P" ["p"] [] with children := [leaf "c" [text] []] },
    { leaf "Q" ["q"] [] with children }]

/-- A manifest is compiled, and the schema opened from the image passes a test. -/
def compiles (m : Manifest) (q : Schema → Bool) : Bool :=
  decide (imageSize tiltEmb m < 2 ^ 32) &&
    ((serialize tiltSystem.host tiltSystem.emb m).value? ⟨[], []⟩).any fun image =>
      ((@openSchema ieee tiltSystem image).value? ⟨[], []⟩).any q

theorem compiles_runs {m : Manifest} {q : Schema → Bool} (h : compiles m q = true) :
    ∃ s, @Compiled ieee tiltSystem m s ∧ s.emb = tiltEmb ∧ q s = true := by
  rw [compiles, Bool.and_eq_true] at h
  obtain ⟨hsmall, hruns⟩ := h
  obtain ⟨image, e, hbuild, hruns⟩ := exec_of_value? hruns
  obtain ⟨s, e₁, hopen, hq⟩ := exec_of_value? hruns
  obtain ⟨hdr, -, hfrom⟩ := @openSchema_from ieee _ _ _ _ _ hopen
  exact ⟨s, ⟨tiltEmb, image, _, _, _, _, rfl, Manifest.whole_of_size (of_decide_eq_true hsmall),
    hbuild, hopen⟩, (Option.some.inj (@OpenedFrom.model ieee _ _ _ _ hfrom)).symm, hq⟩

/-- Asked for a span, the schema matches `P` there; the scan of the span under `P` gives child
matches that pass a test. -/
def scansUnder (span : CStr) (q : List Match → Bool) (s : Schema) : Bool :=
  ((@parse ieee tiltSystem.host s span).value? ⟨[], []⟩).any
    (fun r : ParseResult => r.matches_.any fun mt => mt.id == CStr.ofString "P" &&
      mt.span == span) &&
    ((@scanChildren ieee Unit tiltSystem.host s 1
      (Ngram.tokensOf Ngram.optionsDefault.separators span).length (CStr.ofString "P") span).value?
        ⟨[], []⟩).any q

/-- The schema matches `P` in a span. -/
def MatchesParent (s : Schema) (span : CStr) : Prop :=
  ∃ result e mt, (@parse ieee tiltSystem.host s span).exec ⟨[], []⟩ = (.ok result, e) ∧
    mt ∈ result.matches_ ∧ mt.id = CStr.ofString "P" ∧ mt.span = span

theorem scansUnder_of {span : CStr} {q : List Match → Bool} {s : Schema}
    (h : scansUnder span q s = true) : MatchesParent s span ∧
      ∃ found e, (@scanChildren ieee Unit tiltSystem.host s 1
        (Ngram.tokensOf Ngram.optionsDefault.separators span).length (CStr.ofString "P") span).exec
          ⟨[], []⟩ = (.ok found, e) ∧ q found = true := by
  rw [scansUnder, Bool.and_eq_true] at h
  obtain ⟨hparse, hscan⟩ := h
  obtain ⟨result, e₂, hparse, hmatch⟩ := exec_of_value? hparse
  obtain ⟨mt, hmt, hmatch⟩ := List.any_eq_true.mp hmatch
  rw [Bool.and_eq_true, beq_iff_eq, beq_iff_eq] at hmatch
  exact ⟨⟨result, e₂, mt, hparse, hmt, hmatch⟩, exec_of_value? hscan⟩

theorem scansUnder_runs (m : Manifest) (span : CStr) {q : List Match → Bool}
    (h : compiles m (scansUnder span q) = true) :
    ∃ s, @Compiled ieee tiltSystem m s ∧ s.emb = tiltEmb ∧ MatchesParent s span ∧
      ∃ found e, (@scanChildren ieee Unit tiltSystem.host s 1
        (Ngram.tokensOf Ngram.optionsDefault.separators span).length (CStr.ofString "P") span).exec
          ⟨[], []⟩ = (.ok found, e) ∧ q found = true := by
  obtain ⟨s, hcompiled, hemb, hruns⟩ := compiles_runs h
  exact ⟨s, hcompiled, hemb, (scansUnder_of hruns).1, (scansUnder_of hruns).2⟩

/-- The whole span hits the child of `P` in both; what the word `x` alone would hit in the second
is not asked. -/
theorem scanChildren_alike_sibling : ∃ s s' found found' e e',
    @Compiled ieee tiltSystem (siblingManifest "x y" []) s ∧
      @Compiled ieee tiltSystem (siblingManifest "x y" [leaf "k" ["x"] []]) s' ∧
        MatchesParent s (CStr.ofString "x y") ∧ MatchesParent s' (CStr.ofString "x y") ∧
        (@scanChildren ieee Unit tiltSystem.host s 1 2 (CStr.ofString "P")
          (CStr.ofString "x y")).exec ⟨[], []⟩ = (.ok found, e) ∧
          (@scanChildren ieee Unit tiltSystem.host s' 1 2 (CStr.ofString "P")
            (CStr.ofString "x y")).exec ⟨[], []⟩ = (.ok found', e') ∧
            found ≠ [] ∧ found = found' := by
  obtain ⟨s, hcompiled, hemb, hparse, found, e, hscan, hsome⟩ :=
    scansUnder_runs (siblingManifest "x y" []) (CStr.ofString "x y")
      (q := fun found => !found.isEmpty) (by decide +kernel)
  obtain ⟨s', hcompiled', hemb', hparse', found', e', hscan', -⟩ := scansUnder_runs
    (siblingManifest "x y" [leaf "k" ["x"] []]) (CStr.ofString "x y") (q := fun _ => true)
      (by decide +kernel)
  refine ⟨s, s', found, found', e, e', hcompiled, hcompiled', hparse, hparse', hscan, hscan',
    by simpa using hsome, ?_⟩
  have hagree : AgreeUnder (siblingManifest "x y" []) (siblingManifest "x y" [leaf "k" ["x"] []])
    (CStr.ofString "P") := ⟨rfl, rfl⟩
  obtain ⟨halike, hoffers, -⟩ := @scanChildren_alike ieee s s' (CStr.ofString "P") 2
    (CStr.ofString "x y") _ _ _ _ hcompiled hcompiled' (hemb'.trans hemb.symm) hagree
  obtain ⟨-, hready, hs⟩ := @Compiled.schemaOf ieee _ _ _ hcompiled
  have hcount : (describedBy s.emb (childNodes (siblingManifest "x y" []).nodes)).length ≤ 1024 := by
    rw [hemb]
    decide +kernel
  have hvec : tiltEmb.exec (CStr.ofString "x y") = some [⟨0x3F800000⟩, ⟨0⟩] := by decide +kernel
  have hone : ∀ d ∈ describedBy tiltEmb (ownChildren (siblingManifest "x y" []) (CStr.ofString "P")),
      d = ⟨CStr.ofString "c", [⟨0x3F800000⟩, ⟨0⟩]⟩ := by decide +kernel
  have hsame : @SameLookup ieee s.emb (siblingManifest "x y" [])
      (siblingManifest "x y" [leaf "k" ["x"] []]) (CStr.ofString "P") (CStr.ofString "x y") := by
    rw [hemb]
    refine @sameLookup_of_outranked ieee _ _ _ _ _ _ hvec hagree ?_ ?_ fun d d' hd hd' => ?_
    · unfold Outranked
      decide +kernel
    · unfold Outranked
      decide +kernel
    · rw [hone d (@Best.mem ieee _ _ _ hd), hone d' (@Best.mem ieee _ _ _ hd')]
  have hfinds : ∃ found, @Lookup ieee s.emb (siblingManifest "x y" [leaf "k" ["x"] []])
      (CStr.ofString "P") (CStr.ofString "x y") (some found) := by
    rw [hemb]
    exact ⟨_, @Lookup.found ieee _ _ _ _ _ ⟨CStr.ofString "c", [⟨0x3F800000⟩, ⟨0⟩]⟩ hvec
      (@Best.mk ieee _ _ _ (by decide +kernel) (by decide +kernel)) (by decide +kernel)
        (by decide +kernel)⟩
  obtain ⟨place, hfinds⟩ := hfinds
  obtain ⟨offered, hoffered⟩ := @Schema.Searchable.exists_offers ieee tiltSystem.host _ hready
    (CStr.ofString "P") (CStr.ofString "x y")
  obtain rfl : offered = some place :=
    hsame _ _ (@SchemaOf.lookup_of_offers ieee _ _ _ _ hs hready hcount _ _ _ hoffered) hfinds
  have hoffer := hoffers hcount (by rw [hemb]; decide +kernel) _ hsame
  obtain ⟨-, hready', -⟩ := @Compiled.schemaOf ieee _ _ _ hcompiled'
  exact halike (@SameOffer.whereOpen ieee _ _ _ _ _ 2 _ hoffer hready hready' ⟨0, 1⟩ (by decide)
    (by decide +kernel) (.inr (by decide +kernel)) _ hoffered) _ _ ⟨[], []⟩ ⟨[], []⟩ _ _ rfl rfl
      hscan hscan'

/-- The child of another node hides a child that matches without it. -/
theorem scanChildren_hidden : ∃ s s',
    @Compiled ieee tiltSystem (siblingManifest "x" []) s ∧
      @Compiled ieee tiltSystem (siblingManifest "x" [leaf "k" ["y"] []]) s' ∧ s'.emb = s.emb ∧
      (siblingManifest "x" []).nodes.map (fun nd => (nd.id, nd.descriptions)) =
        (siblingManifest "x" [leaf "k" ["y"] []]).nodes.map (fun nd => (nd.id, nd.descriptions)) ∧
      AgreeUnder (siblingManifest "x" []) (siblingManifest "x" [leaf "k" ["y"] []])
        (CStr.ofString "P") ∧
      MatchesParent s (CStr.ofString "p") ∧ MatchesParent s' (CStr.ofString "p") ∧
      ¬ @AlikeUnder ieee tiltSystem.host tiltSystem.host s s' (CStr.ofString "P") 1
        (CStr.ofString "p") := by
  obtain ⟨s, hcompiled, hemb, hparse, found, e, hscan, hsome⟩ := scansUnder_runs
    (siblingManifest "x" []) (CStr.ofString "p") (q := fun found => !found.isEmpty)
      (by decide +kernel)
  obtain ⟨s', hcompiled', hemb', hparse', found', e', hscan', hnone⟩ := scansUnder_runs
    (siblingManifest "x" [leaf "k" ["y"] []]) (CStr.ofString "p") (q := List.isEmpty)
      (by decide +kernel)
  refine ⟨s, s', hcompiled, hcompiled', hemb'.trans hemb.symm, rfl, ⟨rfl, rfl⟩, hparse, hparse',
    fun halike => ?_⟩
  have hequal := halike _ _ ⟨[], []⟩ ⟨[], []⟩ _ _ rfl rfl hscan hscan'
  rw [hequal, hnone] at hsome
  cases hsome

end Ipa
