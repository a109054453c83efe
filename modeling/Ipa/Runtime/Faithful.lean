import Ipa.Runtime.Tables
import Mathlib.Data.List.Flatten

/-!
# Emits as declared

A match carries the emits of its id, not of the node whose description matched: the pairs with a
key of all the nodes that share the id. They are those of the node exactly when no other node of
the id has such a pair and no key of the node is empty.
-/

namespace Ipa

open Run

/-- The emits that a node declares, for a span. -/
def NodeDef.declared (nd : NodeDef) (span : CStr) : List Emit :=
  nd.emits.map (EmitDef.emitted span)

theorem keyed_of_mem {nodes : List NodeDef} {id : CStr} {emit : EmitDef}
    (h : emit ∈ keyedEmits nodes id) : emit.keyed = true := by
  obtain ⟨nd, -, hemit⟩ := List.mem_flatMap.mp h
  exact (List.mem_filter.mp hemit).2

/-- The pairs of a node that have a key are among those of its id, in their order. -/
theorem keyed_sublist {nodes : List NodeDef} {nd : NodeDef} {id : CStr} (hnd : nd ∈ nodes)
    (hid : nd.id = some id) : (nd.emits.filter EmitDef.keyed).Sublist (keyedEmits nodes id) := by
  have hmem : nd ∈ namesakes nodes id := List.mem_filter.mpr ⟨hnd, by simp [hid]⟩
  have hsub := (List.singleton_sublist.mpr hmem).flatMap fun nd => nd.emits.filter EmitDef.keyed
  rwa [List.flatMap_singleton] at hsub

/-- Resolving the values hides no difference: a pair more or less shows in the keys. -/
theorem map_emitted_inj {nodes : List NodeDef} {nd : NodeDef} {id : CStr} (hnd : nd ∈ nodes)
    (hid : nd.id = some id) (span : CStr) :
    (keyedEmits nodes id).map (EmitDef.emitted span) = nd.declared span ↔
      keyedEmits nodes id = nd.emits := by
  constructor
  · intro heq
    have hkeys : (keyedEmits nodes id).map (·.key) = nd.emits.map (·.key) := by
      have := congrArg (List.map Emit.key) heq
      rwa [NodeDef.declared, List.map_map, List.map_map] at this
    have hkeyed : ∀ emit ∈ nd.emits, emit.keyed = true := by
      intro emit hemit
      have hmem : emit.key ∈ (keyedEmits nodes id).map (·.key) := by
        rw [hkeys]
        exact List.mem_map.mpr ⟨emit, hemit, rfl⟩
      obtain ⟨other, hother, hsame⟩ := List.mem_map.mp hmem
      have := keyed_of_mem hother
      rwa [EmitDef.keyed, hsame] at this
    have hsub := keyed_sublist hnd hid
    rw [List.filter_eq_self.mpr hkeyed] at hsub
    have hlen := congrArg List.length hkeys
    rw [List.length_map, List.length_map] at hlen
    exact (hsub.eq_of_length hlen.symm).symm
  · intro heq
    rw [heq]
    rfl

section Faithful

variable [Arith]

/-- The id of a match is that of a node of the manifest. -/
theorem NodesOf.node_of_item {sys : System} {emb : Emb} {m : Manifest} {s : Schema}
    (h : NodesOf sys emb m s) {item : Hnsw.Item} (hitem : item ∈ s.index.nodeHnsw.items) :
    ∃ nd ∈ m.nodes, nd.id = some item.id := by
  obtain ⟨filled, hbuilt, hentries⟩ := h.nodeIndex
  have hbare := hbuilt.rebuilt.items.mem_iff.mp (List.mem_map.mpr ⟨item, hitem, rfl⟩)
  obtain ⟨source, hsource, hsame⟩ := List.mem_map.mp hbare
  have hid : source.id = item.id := by
    have := congrArg Hnsw.Item.id hsame
    exact this
  have hmem : (some source.id, some source.values) ∈ described emb m.nodes := by
    rw [← hentries]
    exact List.mem_map.mpr ⟨source, hsource, rfl⟩
  obtain ⟨nd, hnd, hdesc⟩ := List.mem_flatMap.mp hmem
  obtain ⟨description, -, heq⟩ := List.mem_map.mp hdesc
  exact ⟨nd, hnd, by rw [← hid]; exact congrArg Prod.fst heq⟩

/-- **Emits as declared**: a match has the id of a node, and its emits are those that a node of
the id declares exactly when the pairs with a key of all nodes of the id are the pairs of that
node. -/
theorem match_emits_iff {sys : System} {emb : Emb} {m : Manifest} {image : List UInt8}
    {s : Schema} {e e' e₀ e₁ : Env} (hemb : sys.emb = some emb) (hwhole : m.NodesWhole emb)
    (hbuild : (serialize sys.host sys.emb m).exec e = (.ok image, e'))
    (hopen : (openSchema sys image).exec e₀ = (.ok s, e₁))
    {input : CStr} {result : ParseResult} {e₂ e₃ : Env}
    (hparse : (parse sys.host s input).exec e₂ = (.ok result, e₃)) :
    ∀ mt ∈ result.matches_, (∃ nd ∈ m.nodes, nd.id = some mt.id) ∧
      ∀ nd ∈ m.nodes, nd.id = some mt.id →
        (mt.emits = nd.declared mt.span ↔ keyedEmits m.nodes mt.id = nd.emits) := by
  obtain ⟨hready, hs⟩ := nodesOf_of_whole hbuild hopen hemb hwhole
  have halloc : Keeps (fun _ => True) (fun _ : Stop Unit => True) alloc fun served =>
      served = false → True :=
    (Keeps.trivially alloc).mono fun _ _ _ => trivial
  have hmatches := ((parse_keeps halloc (.inr trivial) (hready.searched halloc)
    (fun _ => trivial) input fun _ _ _ _ => trivial).value trivial hparse).1
  intro mt hmt
  obtain ⟨⟨⟨index, vec, top, rest, hindex, -, hfirst, htop, -⟩, hemits, -⟩, -⟩ := hmatches mt hmt
  cases hindex
  obtain ⟨item, hitem, hid⟩ := hfirst top List.mem_cons_self
  rw [← htop] at hid
  refine ⟨?_, fun nd hnd hsame => ?_⟩
  · rw [← hid]
    exact hs.node_of_item hitem
  · rw [hemits, hs.nodeEmits_eq]
    exact map_emitted_inj hnd hsame mt.span

end Faithful

/-- A node with one pair, of this key. -/
def pairManifest (key : String) : Manifest :=
  manifestOf [leaf "n" ["d"] [⟨some (.ofString key), some (.ofString "$raw")⟩]]

/-- An image, opened and asked for the text `d`, gives a match of the node `n`. -/
def matchesNode (image : List UInt8) (q : Match → Bool) : Bool :=
  ((@openSchema ieee unitSystem image).value? ⟨[], []⟩).any fun s : Schema =>
    ((@parse ieee unitSystem.host s (CStr.ofString "d")).value? ⟨[], []⟩).any fun r : ParseResult =>
      r.matches_.any fun mt => mt.id == CStr.ofString "n" && q mt

theorem matchesNode_runs {image : List UInt8} {q : Match → Bool} (h : matchesNode image q = true) :
    ∃ s e₁ result e₂ mt,
      (@openSchema ieee unitSystem image).exec ⟨[], []⟩ = (.ok s, e₁) ∧
        (@parse ieee unitSystem.host s (CStr.ofString "d")).exec ⟨[], []⟩ = (.ok result, e₂) ∧
          mt ∈ result.matches_ ∧ mt.id = CStr.ofString "n" ∧ q mt = true := by
  obtain ⟨s, e₁, hopen, hparse⟩ := exec_of_value? h
  obtain ⟨result, e₂, hparse, hmatch⟩ := exec_of_value? hparse
  obtain ⟨mt, hmt, hq⟩ := List.any_eq_true.mp hmatch
  rw [Bool.and_eq_true, beq_iff_eq] at hq
  exact ⟨s, e₁, result, e₂, mt, hopen, hparse, hmt, hq⟩

theorem match_emits_iff_pair : ∃ image e s e₁ result e₂ mt,
    (serialize unitSystem.host unitSystem.emb (pairManifest "k")).exec ⟨[], []⟩ = (.ok image, e) ∧
      (@openSchema ieee unitSystem image).exec ⟨[], []⟩ = (.ok s, e₁) ∧
        (@parse ieee unitSystem.host s (CStr.ofString "d")).exec ⟨[], []⟩ = (.ok result, e₂) ∧
          mt ∈ result.matches_ ∧ ∀ nd ∈ (pairManifest "k").nodes,
            mt.emits = nd.declared mt.span := by
  obtain ⟨image, e, hbuild, hruns⟩ := exec_of_value?
    (x := serialize unitSystem.host unitSystem.emb (pairManifest "k")) (e := ⟨[], []⟩)
    (q := fun image => matchesNode image fun _ => true) (by decide +kernel)
  obtain ⟨s, e₁, result, e₂, mt, hopen, hparse, hmt, hid, -⟩ := matchesNode_runs hruns
  refine ⟨image, e, s, e₁, result, e₂, mt, hbuild, hopen, hparse, hmt, fun nd hnd => ?_⟩
  have hnode : nd = leaf "n" ["d"] [⟨some (.ofString "k"), some (.ofString "$raw")⟩] :=
    List.mem_singleton.mp hnd
  have hwhole : (pairManifest "k").Whole unitEmb := Manifest.whole_of_size (by decide +kernel)
  refine ((@match_emits_iff ieee unitSystem _ _ _ _ _ _ _ _ rfl hwhole.toNodesWhole hbuild hopen _ _
    _ _ hparse mt hmt).2 nd hnd ?_).mpr ?_
  · rw [hnode, hid]
    rfl
  · rw [hnode, hid]
    decide

/-- The pair with an empty key is not emitted. -/
theorem parse_drops_emit : ∃ image e s e₁ result e₂ mt,
    (serialize unitSystem.host unitSystem.emb (pairManifest "")).exec ⟨[], []⟩ = (.ok image, e) ∧
      (@openSchema ieee unitSystem image).exec ⟨[], []⟩ = (.ok s, e₁) ∧
        (@parse ieee unitSystem.host s (CStr.ofString "d")).exec ⟨[], []⟩ = (.ok result, e₂) ∧
          mt ∈ result.matches_ ∧ ∀ nd ∈ (pairManifest "").nodes,
            nd.id = some mt.id ∧ mt.emits ≠ nd.declared mt.span := by
  obtain ⟨image, e, hbuild, hruns⟩ := exec_of_value?
    (x := serialize unitSystem.host unitSystem.emb (pairManifest "")) (e := ⟨[], []⟩)
    (q := fun image => matchesNode image fun mt => mt.emits.isEmpty) (by decide +kernel)
  obtain ⟨s, e₁, result, e₂, mt, hopen, hparse, hmt, hid, hnone⟩ := matchesNode_runs hruns
  refine ⟨image, e, s, e₁, result, e₂, mt, hbuild, hopen, hparse, hmt, fun nd hnd => ?_⟩
  have hnode : nd = leaf "n" ["d"] [⟨some (.ofString ""), some (.ofString "$raw")⟩] :=
    List.mem_singleton.mp hnd
  refine ⟨by rw [hnode, hid]; rfl, fun heq => ?_⟩
  rw [List.isEmpty_iff.mp hnone, hnode] at heq
  exact absurd (congrArg List.length heq) (by simp [NodeDef.declared, leaf])

end Ipa
