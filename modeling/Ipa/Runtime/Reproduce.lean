import Ipa.Runtime.Shared

/-!
# Reproducibility of a parse

The seeds of a process decide the order in which an index holds the descriptions of the file, and
with it which of several best descriptions a search returns. Where the best descriptions of every
text that a parse can look up have one label and one score, the seeds decide nothing: two schemas
opened from one file under different seeds give one and the same run. Otherwise they can decide
which node is matched.
-/

namespace Ipa

open Run

/-- The descriptions in the child block of a file. -/
def childDescriptions (host : Host) (file : List UInt8) : List Description :=
  match checkHeader host (mapping host file) with
  | .error _ => []
  | .ok hdr => (hdr.childBlock host (mapping host file)).descriptions

/-- A schema over other indexes. -/
def Schema.reindex (s : Schema) (nodeHnsw : Hnsw.Index) (childHnsw : Option Hnsw.Index) : Schema :=
  { s with index := { s.index with nodeHnsw, childHnsw } }

section Untied

variable [Arith]

/-- All best descriptions of a vector that are not below zero have one label and one score. -/
def Decided (ds : List Description) (vec : List Binary32) : Prop :=
  ∀ d, Best ds vec d → Binary64.zero.le (d.score vec) = true →
    ∀ d', Best ds vec d' → Binary64.zero.le (d'.score vec) = true → d.result vec = d'.result vec

/-- No tie among the descriptions that a parse of the input can look up: for the windows of the
input, and for the windows of their texts. -/
structure Untied (s : Schema) (nodes children : List Description) (input : CStr) : Prop where
  node : ∀ w ∈ s.windows input, ∀ vec,
    s.emb.exec (windowText input (Ngram.tokensOf s.options.separators input) w) = some vec →
      Decided nodes vec
  child : ∀ w ∈ s.windows input,
    let text := windowText input (Ngram.tokensOf s.options.separators input) w
    ∀ v ∈ textWindows text, ∀ vec, s.emb.exec (textOf text v) = some vec → Decided children vec

instance (ds : List Description) (vec : List Binary32) : Decidable (Decided ds vec) :=
  decidable_of_iff (∀ d ∈ ds, (∀ other ∈ ds, (d.score vec).lt (other.score vec) = false) →
    Binary64.zero.le (d.score vec) = true → ∀ d' ∈ ds,
      (∀ other ∈ ds, (d'.score vec).lt (other.score vec) = false) →
        Binary64.zero.le (d'.score vec) = true → d.result vec = d'.result vec)
    ⟨fun h d hd hzero d' hd' => h d hd.mem hd.best hzero d' hd'.mem hd'.best,
      fun h d hd hbest hzero d' hd' hbest' => h d ⟨hd, hbest⟩ hzero d' ⟨hd', hbest'⟩⟩

instance (s : Schema) (nodes children : List Description) (input : CStr) :
    Decidable (Untied s nodes children input) :=
  decidable_of_iff (∀ w ∈ s.windows input,
    let text := windowText input (Ngram.tokensOf s.options.separators input) w
    (∀ vec ∈ s.emb.exec text, Decided nodes vec) ∧
      ∀ v ∈ textWindows text, ∀ vec ∈ s.emb.exec (textOf text v), Decided children vec)
    ⟨fun h => ⟨fun w hw => (h w hw).1, fun w hw => (h w hw).2⟩,
      fun h w hw => ⟨h.node w hw, h.child w hw⟩⟩

/-! ## One search under two seeds -/

variable {b : EmbBlock} {ef : Option Int} {seed seed' : UInt64}
  {hnsw hnsw' filled filled' : Hnsw.Index} {vec : List Binary32}

/-- **The search** does not depend on the seed where no tie is left to it. -/
theorem EmbBlock.BuiltInto.search_eq (h : b.BuiltInto ef seed hnsw filled)
    (h' : b.BuiltInto ef seed' hnsw' filled') (hcount : b.count ≤ 1024)
    (hdecided : Decided b.descriptions vec) :
    Hnsw.search hnsw vec 1 .zero = Hnsw.search hnsw' vec 1 .zero := by
  have hcount₁ : hnsw.count ≤ 1024 := h.count ▸ hcount
  have hcount₂ : hnsw'.count ≤ 1024 := h'.count ▸ hcount
  rw [Hnsw.search_eq h.rebuilt.ready (.inr hcount₁), Hnsw.search_eq h'.rebuilt.ready (.inr hcount₂), h.count,
    h'.count]
  have hperm := (h.scored_perm vec).trans (h'.scored_perm vec).symm
  have hmeets : Hnsw.meets hnsw.metric .zero = Hnsw.meets hnsw'.metric .zero := by
    rw [h.metric, h'.metric]
  split
  · rfl
  refine bind_congr fun _ => congrArg pure ?_
  rcases Hnsw.ranking_first hnsw vec .zero with ⟨hnil, hnone⟩ | ⟨top, hone, htop⟩
  · rcases Hnsw.ranking_first hnsw' vec .zero with ⟨hnil', -⟩ | ⟨top', -, htop'⟩
    · rw [hnil, hnil']
    · have hlow := hnone top' (hperm.mem_iff.mpr htop'.mem)
      rw [hmeets, htop'.meets] at hlow
      cases hlow
  · rcases Hnsw.ranking_first hnsw' vec .zero with ⟨-, hnone'⟩ | ⟨top', hone', htop'⟩
    · have hlow := hnone' top (hperm.mem_iff.mp htop.mem)
      rw [← hmeets, htop.meets] at hlow
      cases hlow
    · obtain ⟨d, hd, rfl, hzero⟩ := (h.top_iff vec top).mp htop
      obtain ⟨d', hd', rfl, hzero'⟩ := (h'.top_iff vec top').mp htop'
      rw [hone, hone', hdecided d hd hzero d' hd' hzero']

end Untied

section Visitors

variable [Arith] {ε : Type} {host : Host} {s : Schema} {nodeHnsw : Hnsw.Index}
  {childHnsw : Option Hnsw.Index}

/-- Searches that agree on the vector of the window make the visitors agree up to there. -/
theorem visitHit_congr {hnsw hnsw' : Option Hnsw.Index} {chunk : Ngram.Chunk}
    (hsome : hnsw.isSome = hnsw'.isSome)
    (h : ∀ index index', hnsw = some index → hnsw' = some index' → ∀ vec,
      s.emb.exec chunk.text = some vec →
        Hnsw.search index vec 1 .zero = Hnsw.search index' vec 1 .zero) :
    (visitHit host s hnsw chunk : Run ε _) = visitHit host s hnsw' chunk := by
  unfold visitHit
  split
  · rfl
  refine bind_congr fun served => ?_
  split
  swap
  · rfl
  change (embExec s.emb (some chunk.text) _ >>= _) = (embExec s.emb (some chunk.text) _ >>= _)
  unfold embExec
  simp only
  cases hexec : s.emb.exec chunk.text with
  | none => rfl
  | some vec =>
    simp only
    split
    · rfl
    rw [pure_bind, pure_bind]
    cases hnsw with
    | none =>
      cases hnsw' with
      | none => rfl
      | some index' => cases hsome
    | some index =>
      cases hnsw' with
      | none => cases hsome
      | some index' => simp only [h index index' rfl rfl vec hexec]

theorem visitChild_reindex {parentId : CStr} {chunk : Ngram.Chunk}
    (h : (visitHit host s s.index.childHnsw chunk : Run ε _) = visitHit host s childHnsw chunk)
    (ctx : ScanCtx) : (visitChild host s parentId chunk ctx : Run ε _) =
      visitChild host (s.reindex nodeHnsw childHnsw) parentId chunk ctx := by
  unfold visitChild
  rw [h]
  rfl

omit [Arith] in
theorem fillChildEmits_reindex (parentId id span : CStr) : ∀ (rows : List Nat) (emits : List Emit),
    (fillChildEmits host s parentId id span rows emits : Run ε _) =
      fillChildEmits host (s.reindex nodeHnsw childHnsw) parentId id span rows emits
  | [], _ => rfl
  | i :: rest, emits => by
    unfold fillChildEmits
    refine bind_congr fun carries => ?_
    split
    · exact bind_congr fun emit => fillChildEmits_reindex parentId id span rest _
    · exact fillChildEmits_reindex parentId id span rest emits

omit [Arith] in
theorem fillNodeEmits_reindex (nodeId span : CStr) : ∀ (rows : List Nat) (emits : List Emit),
    (fillNodeEmits host s nodeId span rows emits : Run ε _) =
      fillNodeEmits host (s.reindex nodeHnsw childHnsw) nodeId span rows emits
  | [], _ => rfl
  | i :: rest, emits => by
    unfold fillNodeEmits
    refine bind_congr fun carries => ?_
    split
    · refine bind_congr fun emit => ?_
      split
      · rfl
      · exact fillNodeEmits_reindex nodeId span rest _
    · exact fillNodeEmits_reindex nodeId span rest emits

/-- The scan under a node. -/
theorem scanChildren_reindex {maxNgram : Int} {parentId span : CStr}
    (h : let tokens := Ngram.tokensOf s.options.separators span
      ∀ v ∈ textWindows span,
        (visitHit host s s.index.childHnsw (Ngram.chunkOf span tokens v) : Run ε _) =
          visitHit host s childHnsw (Ngram.chunkOf span tokens v)) :
    (scanChildren host s 1 maxNgram parentId span : Run ε _) =
      scanChildren host (s.reindex nodeHnsw childHnsw) 1 maxNgram parentId span := by
  have hemits : (withChildEmits host s parentId : Match → Run ε Match) =
      withChildEmits host (s.reindex nodeHnsw childHnsw) parentId := by
    funext ch
    unfold withChildEmits
    simp only [@fillChildEmits_reindex ε host s nodeHnsw childHnsw]
    rfl
  unfold scanChildren
  simp only [hemits]
  refine congrArg (· >>= _) (Ngram.execute_congr ?_ _)
  intro tokens v hv ctx
  exact visitChild_reindex (h v (mem_textWindows hv)) ctx

theorem visitTop_reindex (hready : s.Searchable) {chunk : Ngram.Chunk}
    (hnode : (visitHit host s (some s.index.nodeHnsw) chunk : Run ε _) =
      visitHit host s (some nodeHnsw) chunk)
    (hchild : let tokens := Ngram.tokensOf s.options.separators chunk.text
      ∀ v ∈ textWindows chunk.text,
        (visitHit host s s.index.childHnsw (Ngram.chunkOf chunk.text tokens v) : Run ε _) =
          visitHit host s childHnsw (Ngram.chunkOf chunk.text tokens v))
    (hsome : s.index.childHnsw.isSome = childHnsw.isSome) (ctx : ScanCtx) :
    (visitTop host s chunk ctx : Run ε _) =
      visitTop host (s.reindex nodeHnsw childHnsw) chunk ctx := by
  have hall : Keeps (fun _ => True) (fun _ => True) (alloc : Run ε Bool) fun served =>
      served = false → True := (Keeps.trivially alloc).mono fun _ _ _ => trivial
  have hhit : Keeps (fun _ => True) (fun _ => True)
      (visitHit host s (some s.index.nodeHnsw) chunk : Run ε _) _ :=
    visitHit_keeps hall (.inr trivial) (hready.searched hall).node chunk
  have hemits : ∀ id, (buildMatchEmits host s id chunk.text : Run ε _) =
      buildMatchEmits host (s.reindex nodeHnsw childHnsw) id chunk.text := by
    intro id
    unfold buildMatchEmits
    simp only [@fillNodeEmits_reindex ε host s nodeHnsw childHnsw]
    rfl
  have hscan : ∀ size id, (scanChildren host s 1 size id chunk.text : Run ε _) =
      scanChildren host (s.reindex nodeHnsw childHnsw) 1 size id chunk.text :=
    fun _ _ => scanChildren_reindex hchild
  unfold visitTop
  change _ = (visitHit host s (some nodeHnsw) chunk >>= _)
  rw [← hnode]
  refine bind_congr_of_keeps hhit fun hit hhit => ?_
  cases hit with
  | none => rfl
  | some found =>
    obtain ⟨span, id, score⟩ := found
    have hspan := hhit.text
    subst hspan
    simp only [hemits, hscan, hsome]
    rfl

end Visitors

/-! ## Two processes -/

section Processes

variable [Arith] {sys : System} {file : List UInt8} {s s' : Schema} {nodeSeed childSeed : UInt64}

/-- Two schemas opened from one file differ in their indexes alone. -/
theorem OpenedFrom.reindexed {mem : List UInt8} {hdr : FileHdr}
    (h : OpenedFrom sys mem hdr s)
    (h' : OpenedFrom { sys with nodeSeed, childSeed } mem hdr s') :
    s' = s.reindex s'.index.nodeHnsw s'.index.childHnsw := by
  have hemb : s'.emb = s.emb := Option.some.inj (h'.model.symm.trans h.model)
  have hnodeMeta : s'.index.nodeMeta = s.index.nodeMeta := by
    by_cases hpos : 0 < hdr.nodeMetaCount
    · rw [h'.nodeMeta hpos, h.nodeMeta hpos]
    · rw [h'.noNodeMeta hpos, h.noNodeMeta hpos]
  have hchildMeta : s'.index.childMeta = s.index.childMeta := by
    by_cases hpos : 0 < hdr.childMetaCount
    · rw [h'.childMeta hpos, h.childMeta hpos]
    · rw [h'.noChildMeta hpos, h.noChildMeta hpos]
  have hmem := h'.mapped.trans h.mapped.symm
  have hthreshold := h'.nodeThreshold.trans h.nodeThreshold.symm
  have hmin := h'.minNgram.trans h.minNgram.symm
  have hmax := h'.maxNgram.trans h.maxNgram.symm
  have hstrtab := h'.strtab.trans h.strtab.symm
  have hnodeCount := h'.nodeMetaCount.trans h.nodeMetaCount.symm
  have hchildCount := h'.childMetaCount.trans h.childMetaCount.symm
  obtain ⟨mem', emb', threshold', min', max', strtab',
    ⟨nodeHnsw, childHnsw, nodeMeta, nodeMetaCount, childMeta, childMetaCount⟩⟩ := s'
  simp only at hemb hnodeMeta hchildMeta hmem hthreshold hmin hmax hstrtab hnodeCount hchildCount
  subst hemb hnodeMeta hchildMeta hmem hthreshold hmin hmax hstrtab hnodeCount hchildCount
  rfl

end Processes

/-- An image opens under two pairs of seeds, its indexes are small but not trivial, and for an
input they are left no tie. -/
def opensUntied (sys sys' : System) (image : List UInt8) (input : CStr) : Bool :=
  let nodes := nodeDescriptions sys.host image
  let children := childDescriptions sys.host image
  decide (2 ≤ nodes.length ∧ nodes.length ≤ 1024) &&
    (decide (2 ≤ children.length ∧ children.length ≤ 1024) &&
      (((@openSchema ieee sys' image).value? ⟨[], []⟩).isSome &&
        ((@openSchema ieee sys image).value? ⟨[], []⟩).any fun s : Schema =>
          @decide (@Untied ieee s nodes children input) (@instDecidableUntied ieee ..)))

/-- Two nodes with one description. -/
def twinManifest : Manifest := manifestOf [leaf "a" ["d"] [], leaf "b" ["d"] []]

/-- An image, opened under a seed and asked for the text `d`, gives these ids. -/
def matchesIds (image : List UInt8) (nodeSeed : UInt64) (ids : List CStr) : Bool :=
  ((@openSchema ieee { unitSystem with nodeSeed } image).value? ⟨[], []⟩).any fun s : Schema =>
    ((@parse ieee unitSystem.host s (CStr.ofString "d")).value? ⟨[], []⟩).any fun r : ParseResult =>
      r.matches_.map (·.id) == ids

end Ipa
