import Ipa.Runtime.Reference
import Ipa.Runtime.Faithful
import Ipa.Runtime.Lookups

/-!
# The child index is shared

The descriptions of the children of all nodes share one index, and an entry carries the id of the
child alone: the parent that the compiler looks up for each entry is not written. A lookup under a
node takes the best description of all, and then keeps it if the node declares a child of that id.
So a child match is one of the node's own descriptions only where the best description of all, when
it has the id of one of the node's children, scores as one of the node's own does.
-/

namespace Ipa

open Run

/-! ## Descriptions of a manifest -/

/-- The descriptions of some nodes, with the vectors that the compiler writes. -/
def describedBy (emb : Emb) (nodes : List NodeDef) : List Description :=
  (described emb nodes).filterMap fun x => x.1.bind fun id => x.2.map fun vec => ⟨id, vec⟩

/-- The children that the nodes of an id declare. -/
def ownChildren (m : Manifest) (parentId : CStr) : List NodeDef :=
  (namesakes m.nodes parentId).flatMap (·.children)

theorem mem_described {emb : Emb} {nodes : List NodeDef}
    {x : Option CStr × Option (List Binary32)} : x ∈ described emb nodes ↔
      ∃ nd ∈ nodes, ∃ text ∈ nd.descriptions, (nd.id, text.bind emb.exec) = x := by
  simp only [described, List.mem_flatMap, List.mem_map]

theorem mem_describedBy {emb : Emb} {nodes : List NodeDef} {d : Description} :
    d ∈ describedBy emb nodes ↔ ∃ nd ∈ nodes, nd.id = some d.label ∧
      ∃ text, some text ∈ nd.descriptions ∧ emb.exec text = some d.vector := by
  obtain ⟨label, vector⟩ := d
  constructor
  · intro h
    obtain ⟨⟨id, vec⟩, hx, hd⟩ := List.mem_filterMap.mp h
    obtain ⟨nd, hnd, text, htext, hsame⟩ := mem_described.mp hx
    obtain ⟨id', rfl, hvec⟩ := Option.bind_eq_some_iff.mp hd
    obtain ⟨vec', rfl, heq⟩ := Option.map_eq_some_iff.mp hvec
    cases heq
    obtain ⟨hid, hexec⟩ := Prod.mk.inj hsame
    obtain ⟨text', rfl, hexec⟩ := Option.bind_eq_some_iff.mp hexec
    exact ⟨nd, hnd, hid, text', htext, hexec⟩
  · rintro ⟨nd, hnd, hid, text, htext, hexec⟩
    refine List.mem_filterMap.mpr ⟨(some label, some vector), ?_, rfl⟩
    refine mem_described.mpr ⟨nd, hnd, some text, htext, ?_⟩
    rw [hid, Option.bind_some, hexec]

theorem mem_ownChildren {m : Manifest} {parentId : CStr} {c : NodeDef} :
    c ∈ ownChildren m parentId ↔ ∃ nd ∈ m.nodes, nd.id = some parentId ∧ c ∈ nd.children := by
  simp only [ownChildren, namesakes, List.mem_flatMap, List.mem_filter, beq_iff_eq]
  exact exists_congr fun nd => and_assoc

/-- The block of the children of a compiled schema is the children of the manifest. -/
theorem EmbBlock.Received.descriptions [Arith] {b : EmbBlock} {efSearch : Option Int}
    {seed : UInt64} {hnsw : Hnsw.Index} {emb : Emb} {nodes : List NodeDef}
    (h : b.Received efSearch seed hnsw (described emb nodes)) :
    b.descriptions = describedBy emb nodes ∧ ∃ filled, b.BuiltInto efSearch seed hnsw filled := by
  obtain ⟨filled, hbuilt, hentries⟩ := h
  refine ⟨?_, filled, hbuilt⟩
  rw [hbuilt.fills.items, List.map_map] at hentries
  rw [describedBy, ← hentries, List.filterMap_map]
  exact (List.filterMap_eq_map (f := fun i => (⟨b.label i, b.vector i⟩ : Description))).symm ▸ rfl

/-! ## Child matches -/

section Justified

variable [Arith]

/-- A child match that the declarations under its parent justify. -/
structure Justified (emb : Emb) (m : Manifest) (parentId : CStr) (ch : Match) : Prop where
  declared : ∃ c ∈ ownChildren m parentId, c.id = some ch.id ∧
    ∃ text, some text ∈ c.descriptions ∧ ∃ vector vec, emb.exec text = some vector ∧
      emb.exec ch.span = some vec ∧
        ch.score = Arith.narrow (Description.score ⟨ch.id, vector⟩ vec)
  above : m.nodeThreshold.le ch.score = true

/-- A description that a lookup takes when it is the best: its score is not negative, and as a
float not below the threshold. -/
def acceptable (threshold : Binary32) (vec : List Binary32) (d : Description) : Bool :=
  Binary64.zero.le (d.score vec) && !(Arith.narrow (d.score vec)).lt threshold

/-- A best child description that a lookup under `parentId` keeps has an equal among the
descriptions of the children of `parentId`. -/
def OwnBest (emb : Emb) (m : Manifest) (parentId : CStr) (vec : List Binary32) : Prop :=
  ∀ d, Best (describedBy emb (childNodes m.nodes)) vec d →
    acceptable m.nodeThreshold vec d = true → (∃ c ∈ ownChildren m parentId, c.id = some d.label) →
      ∃ own ∈ describedBy emb (ownChildren m parentId), own.label = d.label ∧
        Arith.narrow (own.score vec) = Arith.narrow (d.score vec)

/-- A child id that only one node id declares is found under that one. -/
theorem ownBest_of_unshared {emb : Emb} {m : Manifest}
    (h : ∀ nd ∈ m.nodes, ∀ c ∈ nd.children, ∀ nd' ∈ m.nodes, ∀ c' ∈ nd'.children,
      c.id = c'.id → nd.id = nd'.id) (parentId : CStr) (vec : List Binary32) :
    OwnBest emb m parentId vec := by
  rintro d hd - ⟨c, hc, hid⟩
  obtain ⟨c', hc', hid', hdesc⟩ := mem_describedBy.mp hd.mem
  obtain ⟨nd', hnd', hchild'⟩ := List.mem_flatMap.mp hc'
  obtain ⟨nd, hnd, hparent, hchild⟩ := mem_ownChildren.mp hc
  have hsame := h nd hnd c hchild nd' hnd' c' hchild' (hid.trans hid'.symm)
  refine ⟨d, mem_describedBy.mpr ⟨c', ?_, hid', hdesc⟩, rfl, rfl⟩
  exact mem_ownChildren.mpr ⟨nd', hnd', hsame.symm.trans hparent, hchild'⟩

variable {sys : System} {emb : Emb} {m : Manifest} {s : Schema}

/-- What a lookup under a node hits, in terms of the manifest. -/
theorem SchemaOf.best_of_hits (h : SchemaOf sys emb m s) {ch : Match}
    (hhit : s.Hits s.index.childHnsw bestOnly ch) :
    ∃ vec d, emb.exec ch.span = some vec ∧ Best (describedBy emb (childNodes m.nodes)) vec d ∧
      acceptable m.nodeThreshold vec d = true ∧ ch.id = d.label ∧
        ch.score = Arith.narrow (d.score vec) := by
  obtain ⟨index, vec, top, rest, hindex, hexec, hfirst, hid, hscore, hlt⟩ := hhit
  rcases hfirst with ⟨hnil, -⟩ | ⟨result, hresult, htop⟩
  · cases hnil
  cases hresult
  rcases h.childIndex with ⟨hnsw, hsome, hreceived⟩ | ⟨hnone, -⟩
  swap
  · rw [hnone] at hindex
    cases hindex
  rw [hsome] at hindex
  cases hindex
  obtain ⟨hdescriptions, filled, hbuilt⟩ := hreceived.descriptions
  obtain ⟨d, hd, rfl, hzero⟩ := (hbuilt.top_iff vec top).mp htop
  rw [hdescriptions] at hd
  rw [h.model] at hexec
  have hhigh : (Arith.narrow (d.score vec)).lt m.nodeThreshold = false := by
    rw [hscore, h.nodeThreshold] at hlt
    exact hlt
  refine ⟨vec, d, hexec, hd, ?_, hid, hscore⟩
  rw [acceptable, hzero, hhigh]
  rfl

/-- **A child match is justified** where the lookups under its parent are. -/
theorem SchemaOf.justified (h : SchemaOf sys emb m s) (hround : RoundsNumbers)
    (hthreshold : m.nodeThreshold.isNaN = false) {parentId span : CStr} {ch : Match}
    (hmatch : ChildMatch sys.host s bestOnly parentId span ch)
    (hown : ∀ vec, emb.exec ch.span = some vec → OwnBest emb m parentId vec) :
    Justified emb m parentId ch := by
  obtain ⟨vec, d, hexec, hd, haccept, hid, hscore⟩ := h.best_of_hits hmatch.hit
  obtain ⟨nd, hnd, hparent, c, hc, hcid⟩ := (h.isChildOf_iff ch.id parentId).mp hmatch.named
  have hdeclared : c ∈ ownChildren m parentId := mem_ownChildren.mpr ⟨nd, hnd, hparent, hc⟩
  obtain ⟨own, hownMem, hlabel, hsame⟩ := hown vec hexec d hd haccept ⟨c, hdeclared, hid ▸ hcid⟩
  obtain ⟨c', hc', hid', text, htext, hvector⟩ := mem_describedBy.mp hownMem
  rw [acceptable, Bool.and_eq_true, Bool.not_eq_true'] at haccept
  obtain ⟨hzero, hhigh⟩ := haccept
  have hnumber : (Arith.narrow (d.score vec)).isNaN = false :=
    hround _ (Binary64.numbers_of_le hzero).2
  refine ⟨⟨c', hc', ?_, text, htext, own.vector, vec, hvector, hexec, ?_⟩, ?_⟩
  · rw [hid', hlabel, hid]
  · rw [hscore, ← hsame]
    rfl
  · rw [hscore]
    exact (Binary32.not_lt hnumber hthreshold).mp hhigh

/-- The child index has the size of the descriptions. -/
theorem SchemaOf.childCount (h : SchemaOf sys emb m s)
    (hcount : (describedBy emb (childNodes m.nodes)).length ≤ 1024) {index : Hnsw.Index}
    (hindex : s.index.childHnsw = some index) : index.count ≤ 1024 := by
  rcases h.childIndex with ⟨hnsw, hsome, hreceived⟩ | ⟨hnone, -⟩
  · rw [hsome] at hindex
    cases hindex
    obtain ⟨hdescriptions, filled, hbuilt⟩ := hreceived.descriptions
    rw [← hdescriptions, EmbBlock.descriptions, List.length_map, List.length_range] at hcount
    rw [hbuilt.count]
    exact hcount
  · rw [hnone] at hindex
    cases hindex

/-- **Child matches**: in every parse in which the best description of each lookup made under a
match, if the node of the match declares a child of its id, scores as one of the node's own does,
the score of every child match is that of a description declared under its parent, and reaches the
threshold. -/
theorem child_matches_justified {image : List UInt8} {e e' e₀ e₁ : Env} (hemb : sys.emb = some emb)
    (hwhole : m.Whole emb) (hbuild : (serialize sys.host sys.emb m).exec e = (.ok image, e'))
    (hopen : (openSchema sys image).exec e₀ = (.ok s, e₁))
    (hcount : (describedBy emb (childNodes m.nodes)).length ≤ 1024) (hround : RoundsNumbers)
    (hthreshold : m.nodeThreshold.isNaN = false) {input : CStr} {e₂ : Env}
    (hown : ∀ parentId text, LookedUp sys.host s input e₂ parentId text →
      ∀ vec, emb.exec text = some vec → OwnBest emb m parentId vec) {result : ParseResult} {e₃ : Env}
    (hparse : (parse sys.host s input).exec e₂ = (.ok result, e₃)) :
    ∀ mt ∈ result.matches_, ∀ ch ∈ mt.children, Justified emb m mt.id ch := by
  obtain ⟨-, hready, hs⟩ := schemaOf_of_whole hbuild hopen hemb hwhole
  have halloc : Keeps (fun _ => True) (fun _ : Stop Unit => True) alloc fun served =>
      served = false → True :=
    (Keeps.trivially alloc).mono fun _ _ _ => trivial
  have hsearch : s.Searched (fun _ => True) True fromItems bestOnly := by
    refine ⟨(hready.searched halloc).node, fun index hindex vec => ?_⟩
    exact search_bestOnly halloc (hready.child index hindex) (hs.childCount hcount hindex) vec
  intro mt hmt ch hch
  obtain ⟨hmatch, -⟩ := ((parse_keeps halloc (.inr trivial) hsearch (fun _ => trivial)
    input fun _ _ _ _ => trivial).value trivial hparse).1 mt hmt
  exact hs.justified hround hthreshold (hmatch.children ch hch)
    (hown mt.id ch.span (parse_lookedUp hparse mt hmt ch hch))

end Justified

theorem child_matches_justified_family : ∃ image e s e₁ result e₂ mt ch,
    (serialize unitSystem.host unitSystem.emb familyManifest).exec ⟨[], []⟩ = (.ok image, e) ∧
      (@openSchema ieee unitSystem image).exec ⟨[], []⟩ = (.ok s, e₁) ∧
        (@parse ieee unitSystem.host s (CStr.ofString "d")).exec ⟨[], []⟩ = (.ok result, e₂) ∧
          mt ∈ result.matches_ ∧ ch ∈ mt.children ∧
            @Justified ieee unitEmb familyManifest mt.id ch := by
  obtain ⟨image, e, hbuild, hruns⟩ := exec_of_value?
    (x := serialize unitSystem.host unitSystem.emb familyManifest) (e := ⟨[], []⟩)
    (q := fun image => matchesNode image fun mt => !mt.children.isEmpty) (by decide +kernel)
  obtain ⟨s, e₁, result, e₂, mt, hopen, hparse, hmt, -, hchildren⟩ := matchesNode_runs hruns
  have hne : mt.children ≠ [] := by
    intro hnil
    rw [hnil] at hchildren
    cases hchildren
  obtain ⟨ch, hch⟩ := List.exists_mem_of_ne_nil _ hne
  refine ⟨image, e, s, e₁, result, e₂, mt, ch, hbuild, hopen, hparse, hmt, hch, ?_⟩
  have hunshared : ∀ parentId vec, @OwnBest ieee unitEmb familyManifest parentId vec :=
    @ownBest_of_unshared ieee _ _ (by decide)
  exact @child_matches_justified ieee unitSystem unitEmb _ _ _ _ _ _ _ rfl familyManifest_whole
    hbuild hopen (by decide +kernel) ieee_roundsNumbers (by decide +kernel) _ _
    (fun parentId _ _ vec _ => hunshared parentId vec) _ _ hparse mt hmt ch hch

/-- A model of dimension 2 that tells `p` and `y` from `x` and `q`. -/
def planeEmb : Emb where
  dim := 2
  dim_lt := by decide
  exec text :=
    if text = .ofString "p" ∨ text = .ofString "y" then some [⟨0x3F800000⟩, ⟨0⟩]
    else if text = .ofString "x" ∨ text = .ofString "q" then some [⟨0⟩, ⟨0x3F800000⟩]
    else none
  exec_length text v h := by
    split at h
    · cases h
      rfl
    split at h
    · cases h
      rfl
    · cases h

def planeSystem : System := ⟨⟨.w64, .little⟩, some planeEmb, none, 1, 2⟩

/-- Two nodes with a child `c` each; the one under `P` is far from `p`. -/
def strayManifest : Manifest :=
  manifestOf [{ leaf "P" ["p"] [] with children := [leaf "c" ["x"] []] },
    { leaf "Q" ["q"] [] with children := [leaf "c" ["y"] []] }]

/-- The description of the other node's child gives a child match. -/
theorem parse_strays : ∃ image e s e₁ result e₂ mt ch,
    (serialize planeSystem.host planeSystem.emb strayManifest).exec ⟨[], []⟩ = (.ok image, e) ∧
      image.length < 2 ^ 32 ∧
      (@openSchema ieee planeSystem image).exec ⟨[], []⟩ = (.ok s, e₁) ∧
        (describedBy planeEmb (childNodes strayManifest.nodes)).length ≤ 1024 ∧
        (@parse ieee planeSystem.host s (CStr.ofString "p")).exec ⟨[], []⟩ = (.ok result, e₂) ∧
          mt ∈ result.matches_ ∧ ch ∈ mt.children ∧
            ¬ @Justified ieee planeEmb strayManifest mt.id ch := by
  obtain ⟨image, e, hbuild, hruns⟩ := exec_of_value?
    (x := serialize planeSystem.host planeSystem.emb strayManifest) (e := ⟨[], []⟩)
    (q := fun image => decide (image.length < 2 ^ 32) &&
      ((@openSchema ieee planeSystem image).value? ⟨[], []⟩).any fun s : Schema =>
        ((@parse ieee planeSystem.host s (CStr.ofString "p")).value? ⟨[], []⟩).any
          fun r : ParseResult => r.matches_.any fun mt => mt.id == CStr.ofString "P" &&
            mt.children.any fun ch => ch.span == CStr.ofString "p" &&
              ch.score == ⟨0x3F800000⟩) (by decide +kernel)
  rw [Bool.and_eq_true] at hruns
  obtain ⟨hsmall, hruns⟩ := hruns
  obtain ⟨s, e₁, hopen, hruns⟩ := exec_of_value? hruns
  obtain ⟨result, e₂, hparse, hmatch⟩ := exec_of_value? hruns
  obtain ⟨mt, hmt, hmatch⟩ := List.any_eq_true.mp hmatch
  rw [Bool.and_eq_true, beq_iff_eq] at hmatch
  obtain ⟨hid, hchild⟩ := hmatch
  obtain ⟨ch, hch, hchild⟩ := List.any_eq_true.mp hchild
  rw [Bool.and_eq_true, beq_iff_eq, beq_iff_eq] at hchild
  obtain ⟨hspan, hscore⟩ := hchild
  refine ⟨image, e, s, e₁, result, e₂, mt, ch, hbuild, of_decide_eq_true hsmall, hopen,
    by decide +kernel, hparse, hmt, hch, ?_⟩
  rintro ⟨⟨c, hc, -, text, htext, vector, vec, hvector, hvec, heq⟩, -⟩
  -- the only description under `P` is `x`, whose score is zero
  rw [hid] at hc
  have hown : c = leaf "c" ["x"] [] := List.mem_singleton.mp hc
  rw [hown] at htext
  have htext : text = .ofString "x" := Option.some.inj (List.mem_singleton.mp htext)
  rw [htext] at hvector
  rw [hspan] at hvec
  cases hvector
  cases hvec
  rw [hscore] at heq
  have hzero : @Arith.narrow ieee (@Description.score ieee ⟨.empty, [⟨0⟩, ⟨0x3F800000⟩]⟩
      [⟨0x3F800000⟩, ⟨0⟩]) = ⟨0⟩ := by decide +kernel
  have hone : (⟨0x3F800000⟩ : Binary32) = ⟨0⟩ := heq.trans hzero
  cases hone

end Ipa
