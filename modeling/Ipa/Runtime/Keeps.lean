import Ipa.Runtime.Hits

/-!
# A parse, call by call of its visitors

`TopStep` and `ChildStep` say what one call of a visitor can do to the matches. Both visitors keep
an invariant that allocations and the texts of the rows keep, and abort the traversal only when an
allocation failed. From the steps follows what every match of a parse is: a hit of its text, with
the emits that the table gives its node, and child matches that a row names under it.
-/

namespace Ipa

open Run

/-- The options of the scan for nodes. -/
def Schema.options (s : Schema) : Ngram.Options :=
  { Ngram.optionsDefault with minTokens := s.minNgram.toInt, maxTokens := s.maxNgram.toInt }

/-! ## Windows -/

/-- The text of a window: from the start of its first token to the end of its last. -/
def windowText (input : CStr) (tokens : List Ngram.Token) (w : Ngram.Span) : CStr :=
  input.slice (tokens.getD w.start default).byteStart (tokens.getD w.stop default).byteEnd

/-- The windows of an input that a parse can look up, by descending size and ascending start. -/
def Schema.windows (s : Schema) (input : CStr) : List Ngram.Span :=
  let count := (Ngram.tokensOf s.options.separators input).length
  Ngram.windows count s.minNgram.toInt
    (if s.maxNgram.toInt = 0 then count else min s.maxNgram.toInt.toNat count)

/-- They are the windows of the traversal. -/
theorem Schema.windows_eq (s : Schema) (input : CStr) :
    s.windows input =
      Ngram.windows (Ngram.tokensOf s.options.separators input).length s.options.minTokens
        (Ngram.maxWindow s.options (Ngram.tokensOf s.options.separators input).length) := by
  unfold Schema.windows Ngram.maxWindow
  change Ngram.windows _ s.minNgram.toInt _ = Ngram.windows _ s.minNgram.toInt
    (if s.maxNgram.toInt = 0 ∨ _ < s.maxNgram.toInt then _ else s.maxNgram.toInt.toNat)
  by_cases hzero : s.maxNgram.toInt = 0
  · rw [if_pos hzero, if_pos (.inl hzero)]
  rw [if_neg hzero]
  split
  · rw [Nat.min_eq_right (by omega)]
  · rw [Nat.min_eq_left (by omega)]

/-- All windows of a text. -/
def textWindows (text : CStr) : List Ngram.Span :=
  let count := (Ngram.tokensOf Ngram.optionsDefault.separators text).length
  Ngram.windows count 1 count

/-- A traversal of one bound or another goes through windows of the text. -/
theorem mem_textWindows {text : CStr} {maxTokens : Int} {w : Ngram.Span}
    (h : let count := (Ngram.tokensOf Ngram.optionsDefault.separators text).length
      w ∈ Ngram.windows count 1 (Ngram.maxWindow { Ngram.optionsDefault with
        minTokens := 1, maxTokens } count)) : w ∈ textWindows text := by
  unfold textWindows
  simp only at h ⊢
  have hmax := Ngram.maxWindow_le { Ngram.optionsDefault with minTokens := 1, maxTokens }
    (Ngram.tokensOf Ngram.optionsDefault.separators text).length
  rw [Ngram.mem_windows (Int.le_refl 1)] at h ⊢
  exact ⟨h.1, h.2.1, h.2.2.1.trans_le hmax, h.2.2.2⟩

/-- The text of a window of a text. -/
def textOf (text : CStr) (w : Ngram.Span) : CStr :=
  windowText text (Ngram.tokensOf Ngram.optionsDefault.separators text) w

/-! ## Matches -/

/-- The matches with one more, which takes the place of an older one of its id. -/
def placeMatch (m : Match) (items : List Match) : List Match :=
  (replaceMatch m items).getD (items ++ [m])

theorem mem_replaceMatch {m : Match} : ∀ {items items' : List Match},
    replaceMatch m items = some items' → ∀ x ∈ items', x = m ∨ x ∈ items
  | [], _, hreplace => by cases hreplace
  | old :: rest, items', hreplace => by
    unfold replaceMatch at hreplace
    intro x hx
    split at hreplace
    · cases hreplace
      split at hx
      · exact (List.mem_cons.mp hx).imp_right (List.mem_cons_of_mem old)
      · exact .inr hx
    · obtain ⟨items'', hreplace', rfl⟩ := Option.map_eq_some_iff.mp hreplace
      rcases List.mem_cons.mp hx with rfl | hx
      · exact .inr List.mem_cons_self
      · exact (mem_replaceMatch hreplace' x hx).imp_right (List.mem_cons_of_mem old)

theorem mem_placeMatch {m x : Match} {items : List Match} (h : x ∈ placeMatch m items) :
    x = m ∨ x ∈ items := by
  unfold placeMatch at h
  cases hreplace : replaceMatch m items with
  | some items' =>
    rw [hreplace] at h
    exact mem_replaceMatch hreplace x h
  | none =>
    rw [hreplace] at h
    exact (List.mem_append.mp h).symm.imp_left List.mem_singleton.mp

section Matches

variable [Arith] (host : Host) (s : Schema)
  (nodeFound childFound : Hnsw.Index → List Binary32 → List Hnsw.Result → Prop)

/-- A match is what its text hits in an index. -/
def Schema.Hits (hnsw : Option Hnsw.Index)
    (found : Hnsw.Index → List Binary32 → List Hnsw.Result → Prop) (m : Match) : Prop :=
  ∃ index vec top rest, hnsw = some index ∧ s.emb.exec m.span = some vec ∧
    found index vec (top :: rest) ∧ m.id = top.id ∧ m.score = Arith.narrow top.score ∧
      m.score.lt s.nodeThreshold = false

/-- A search of an index for a text finds the description `id` first, with a score that is not below
the threshold. -/
def Schema.Finds (hnsw : Option Hnsw.Index)
    (found : Hnsw.Index → List Binary32 → List Hnsw.Result → Prop) (text id : CStr) : Prop :=
  ∃ index vec top rest, hnsw = some index ∧ s.emb.exec text = some vec ∧
    found index vec (top :: rest) ∧ id = top.id ∧
      (Arith.narrow top.score).lt s.nodeThreshold = false

/-- A match in the span of a match of the node `parentId`. -/
structure ChildMatch (parentId span : CStr) (m : Match) : Prop where
  hit : s.Hits s.index.childHnsw childFound m
  named : isChildOf host s m.id parentId = true
  window : ∃ w ∈ textWindows span, m.span = textOf span w

/-- A match as the visitor for nodes makes it. -/
structure NodeMatch (m : Match) : Prop where
  hit : s.Hits (some s.index.nodeHnsw) nodeFound m
  emits : m.emits = nodeEmits host s m.id m.span
  children : ∀ ch ∈ m.children, ChildMatch host s childFound m.id m.span ch

/-- What the lookup of a text under a node reads of the rows: those up to the one that names what it
finds under the node, and where there is one, the emits of what it finds. -/
def LookupReads (parentId text : CStr) (a : Access) : Prop :=
  ∃ id, s.Finds s.index.childHnsw childFound text id ∧ (ChildReads host s parentId id a ∨
    isChildOf host s id parentId = true ∧ ChildEmitReads host s parentId id a)

/-- What the scan of a span under a node reads of the rows. -/
def ScanReads (parentId span : CStr) (a : Access) : Prop :=
  ∃ w ∈ textWindows span, LookupReads host s childFound parentId (textOf span w) a

/-- What the lookup of a text among the nodes reads of the rows: those of the node that it finds, and
what the scan under it reads when that has children. -/
def MatchReads (text : CStr) (a : Access) : Prop :=
  ∃ id, s.Finds (some s.index.nodeHnsw) nodeFound text id ∧ (NodeReads host s id a ∨
    hasChildren host s id = true ∧ ScanReads host s childFound id text a)

/-- What a parse reads of the rows; with bounds that are refused it reads nothing. -/
def Schema.Reads (input : CStr) (a : Access) : Prop :=
  s.options.Accepted ∧ ∃ w ∈ s.windows input, MatchReads host s nodeFound childFound
    (windowText input (Ngram.tokensOf s.options.separators input) w) a

variable {host s nodeFound childFound} {failed : Prop} {chunk : Ngram.Chunk}

theorem Schema.Hits.finds {hnsw : Option Hnsw.Index}
    {found : Hnsw.Index → List Binary32 → List Hnsw.Result → Prop} {m : Match}
    (h : s.Hits hnsw found m) : s.Finds hnsw found m.span m.id := by
  obtain ⟨index, vec, top, rest, hindex, hexec, hfirst, hid, hscore, hhigh⟩ := h
  exact ⟨index, vec, top, rest, hindex, hexec, hfirst, hid, hscore ▸ hhigh⟩

theorem Hit.text {hnsw : Option Hnsw.Index}
    {found : Hnsw.Index → List Binary32 → List Hnsw.Result → Prop} {text id : CStr}
    {score : Binary32} (h : Hit s hnsw failed found chunk (some (text, id, score))) :
    text = chunk.text := by
  cases h
  rfl

theorem Hit.hits {hnsw : Option Hnsw.Index}
    {found : Hnsw.Index → List Binary32 → List Hnsw.Result → Prop} {text id : CStr}
    {score : Binary32} (h : Hit s hnsw failed found chunk (some (text, id, score)))
    (emits : List Emit) (children : List Match) :
    s.Hits hnsw found ⟨id, text, score, emits, children⟩ := by
  cases h with
  | above hindexed hembedded hfirst hscore =>
    exact ⟨_, _, _, _, hindexed, hembedded, hfirst, rfl, rfl, hscore⟩

end Matches

/-! ## Steps -/

section Steps

variable [Arith] (host : Host) (s : Schema) (failed : Prop)
  (nodeFound childFound : Hnsw.Index → List Binary32 → List Hnsw.Result → Prop)

/-- What a call of the visitor for the children of a node does. -/
inductive ChildStep (parentId : CStr) (chunk : Ngram.Chunk) (ctx : ScanCtx) : Int × ScanCtx → Prop
  | skipped (hit : Hit s s.index.childHnsw failed childFound chunk none) :
      ChildStep parentId chunk ctx (0, ctx)
  | foreign {text id : CStr} {score : Binary32}
      (hit : Hit s s.index.childHnsw failed childFound chunk (some (text, id, score)))
      (named : isChildOf host s id parentId = false) : ChildStep parentId chunk ctx (0, ctx)
  | found {id : CStr} {score : Binary32} {cap : Nat}
      (hit : Hit s s.index.childHnsw failed childFound chunk (some (chunk.text, id, score)))
      (named : isChildOf host s id parentId = true) :
      ChildStep parentId chunk ctx
        (1, ⟨placeMatch ⟨id, chunk.text, score, [], []⟩ ctx.items, cap⟩)
  | aborted (alloc : failed) : ChildStep parentId chunk ctx (-1, ctx)

/-- What a call of the visitor for nodes does. -/
inductive TopStep (chunk : Ngram.Chunk) (ctx : ScanCtx) : Int × ScanCtx → Prop
  | skipped (hit : Hit s (some s.index.nodeHnsw) failed nodeFound chunk none) :
      TopStep chunk ctx (0, ctx)
  | found {m : Match} {cap : Nat} (text : m.span = chunk.text)
      (isMatch : NodeMatch host s nodeFound childFound m) :
      TopStep chunk ctx (1, ⟨ctx.items ++ [m], cap⟩)
  | aborted (alloc : failed) : TopStep chunk ctx (-1, ctx)

end Steps

section Visitors

variable [Arith] {ε : Type} {host : Host} {s : Schema} {I : Env → Prop} {X : Stop ε → Prop}
  {failed : Prop} {nodeFound childFound : Hnsw.Index → List Binary32 → List Hnsw.Result → Prop}

variable (I s failed nodeFound childFound) in
/-- What the searches of the two indexes return. -/
structure Schema.Searched : Prop where
  node : ∀ index, some s.index.nodeHnsw = some index → ∀ vec,
    Keeps I (starved failed) (Hnsw.search index vec 1 .zero) (nodeFound index vec)
  child : ∀ index, s.index.childHnsw = some index → ∀ vec,
    Keeps I (starved failed) (Hnsw.search index vec 1 .zero) (childFound index vec)

variable (halloc : Keeps I X (alloc : Run ε Bool) fun served => served = false → failed)

include halloc

/-- The searches of a schema, whatever the size of its indexes. -/
theorem Schema.Searchable.searched (hready : s.Searchable) :
    s.Searched I failed fromItems fromItems where
  node := by
    intro _ hindex vec
    cases hindex
    exact search_fromItems halloc hready.node vec
  child index hindex vec := search_fromItems halloc (hready.child index hindex) vec

omit [Arith] in
theorem matchPush_keeps (ctx : ScanCtx) (m : Match) :
    Keeps I X (matchPush ctx m) fun r =>
      (∃ cap, r = some ⟨ctx.items ++ [m], cap⟩) ∨ (r = none ∧ failed) := by
  unfold matchPush
  split
  · refine Keeps.bind halloc fun served hserved => ?_
    cases served with
    | true => exact Keeps.pure (.inl ⟨_, rfl⟩)
    | false => exact Keeps.pure (.inr ⟨rfl, hserved rfl⟩)
  · exact Keeps.pure (.inl ⟨_, rfl⟩)

variable (hroom : s.Room host ∨ X (.fault .index))
  (hsearch : s.Searched I failed nodeFound childFound)

include hroom hsearch

/-- The visitor for the children of a node. -/
theorem visitChild_keeps {parentId : CStr} {chunk : Ngram.Chunk}
    (hreads : ∀ a, LookupReads host s childFound parentId chunk.text a → Admits I a)
    (ctx : ScanCtx) :
    Keeps I X (visitChild host s parentId chunk ctx)
      (ChildStep host s failed childFound parentId chunk ctx) := by
  unfold visitChild
  refine Keeps.bind (visitHit_keeps halloc hroom hsearch.child chunk) fun hit hhit => ?_
  split
  · exact Keeps.pure (.skipped hhit)
  rename_i span id score
  have hspan := hhit.text
  subst hspan
  refine Keeps.bind (childNamed_keeps fun a ha =>
    hreads a ⟨id, (hhit.hits [] []).finds, .inl ha⟩) fun named hnamed => ?_
  subst hnamed
  split
  swap
  · rename_i hforeign
    exact Keeps.pure (.foreign hhit (by simpa using hforeign))
  rename_i hnamed
  refine Keeps.bind (strdup_keeps halloc id) fun copy hcopy => ?_
  rcases hcopy with rfl | ⟨rfl, hfailed⟩
  swap
  · exact Keeps.pure (.skipped (.starved hfailed))
  simp only
  cases hreplace : replaceMatch ⟨id, chunk.text, score, [], []⟩ ctx.items with
  | some items =>
    have hitems : items = placeMatch ⟨id, chunk.text, score, [], []⟩ ctx.items := by
      rw [placeMatch, hreplace]
      rfl
    rw [hitems]
    exact Keeps.pure (.found hhit hnamed)
  | none =>
    refine Keeps.bind (matchPush_keeps halloc ctx _) fun pushed hpushed => ?_
    have hitems : ctx.items ++ [⟨id, chunk.text, score, [], []⟩] =
        placeMatch ⟨id, chunk.text, score, [], []⟩ ctx.items := by
      rw [placeMatch, hreplace]
      rfl
    rcases hpushed with ⟨cap, rfl⟩ | ⟨rfl, hfailed⟩
    · rw [hitems]
      exact Keeps.pure (.found hhit hnamed)
    · exact Keeps.pure (.aborted hfailed)

/-- The child matches before they get their emits. -/
theorem scanChild_keeps {parentId span : CStr}
    (hreads : ∀ a, ScanReads host s childFound parentId span a → Admits I a) (maxTokens : Int) :
    Keeps I X (Ngram.execute span (some { Ngram.optionsDefault with minTokens := 1, maxTokens })
      (visitChild host s parentId) ⟨[], 0⟩) fun r =>
        ∀ m ∈ r.2.items, m.emits = [] ∧ ChildMatch host s childFound parentId span m := by
  have hnil : ∀ m ∈ (⟨[], 0⟩ : ScanCtx).items,
      m.emits = [] ∧ ChildMatch host s childFound parentId span m := by simp
  refine Keeps.mono (Ngram.execute_keeps (P := fun ctx : ScanCtx => ∀ m ∈ ctx.items,
    m.emits = [] ∧ ChildMatch host s childFound parentId span m) halloc ?_ hnil) fun _ h => h.1
  intro tokens w hw ctx hctx
  refine (visitChild_keeps halloc hroom hsearch (fun a ha => hreads a ⟨w, mem_textWindows hw, ha⟩)
    ctx).mono fun r hr => ?_
  cases hr with
  | skipped _ => exact ⟨hctx, fun hneg => absurd hneg (Int.lt_irrefl 0)⟩
  | foreign _ _ => exact ⟨hctx, fun hneg => absurd hneg (Int.lt_irrefl 0)⟩
  | found hhit hnamed =>
    refine ⟨fun m hm => ?_, fun hneg => absurd hneg (Int.not_lt.mpr Int.one_nonneg)⟩
    rcases mem_placeMatch hm with rfl | hm
    · exact ⟨rfl, hhit.hits [] [], hnamed, w, mem_textWindows hw, rfl⟩
    · exact hctx m hm
  | aborted hfailed => exact ⟨hctx, fun _ => hfailed⟩

/-- **The matches under a node**. -/
theorem scanChildren_keeps {parentId span : CStr}
    (hreads : ∀ a, ScanReads host s childFound parentId span a → Admits I a) (maxNgram : Int) :
    Keeps I X (scanChildren host s 1 maxNgram parentId span) fun children =>
      ∀ ch ∈ children, ChildMatch host s childFound parentId span ch := by
  unfold scanChildren
  refine Keeps.bind (scanChild_keeps halloc hroom hsearch hreads maxNgram)
    fun ⟨_, ctx⟩ hctx => ?_
  refine (allChildEmits_keeps halloc parentId fun m hm => ⟨(hctx m hm).1, fun a ha => ?_⟩).mono
    fun children hchildren ch hch => ?_
  · obtain ⟨-, hhit, hnamed, w, hw, hspan⟩ := hctx m hm
    exact hreads a ⟨w, hw, m.id, hspan ▸ hhit.finds, .inr ⟨hnamed, ha⟩⟩
  obtain ⟨m, hm, emits, rfl, -⟩ := WithEmits.of_mem hchildren hch
  exact ⟨(hctx m hm).2.hit, (hctx m hm).2.named, (hctx m hm).2.window⟩

/-- The visitor for nodes. -/
theorem visitTop_keeps {chunk : Ngram.Chunk}
    (hreads : ∀ a, MatchReads host s nodeFound childFound chunk.text a → Admits I a)
    (ctx : ScanCtx) :
    Keeps I X (visitTop host s chunk ctx)
      (TopStep host s failed nodeFound childFound chunk ctx) := by
  unfold visitTop
  refine Keeps.bind (visitHit_keeps halloc hroom hsearch.node chunk) fun hit hhit => ?_
  split
  · exact Keeps.pure (.skipped hhit)
  rename_i span id score
  have hspan := hhit.text
  subst hspan
  have hfinds := (hhit.hits [] []).finds
  have hnode : ∀ a, NodeReads host s id a → Admits I a :=
    fun a ha => hreads a ⟨id, hfinds, .inl ha⟩
  refine Keeps.bind (strdup_keeps halloc id) fun copy hcopy => ?_
  rcases hcopy with rfl | ⟨rfl, hfailed⟩
  swap
  · exact Keeps.pure (.skipped (.starved hfailed))
  simp only
  refine Keeps.bind (buildMatchEmits_keeps halloc hnode _) fun emits hemits => ?_
  rcases hemits with rfl | ⟨rfl, hfailed⟩
  swap
  · exact Keeps.pure (.skipped (.starved hfailed))
  simp only
  refine Keeps.bind (nodeHasChildren_keeps hnode) fun scanned hscanned => ?_
  have hfound : ∀ children, (∀ ch ∈ children, ChildMatch host s childFound id chunk.text ch) →
      ∀ cap, TopStep host s failed nodeFound childFound chunk ctx
        (1, ⟨ctx.items ++ [⟨id, chunk.text, score, nodeEmits host s id chunk.text, children⟩],
          cap⟩) :=
    fun children hchildren cap => .found rfl ⟨hhit.hits _ _, rfl, hchildren⟩
  split
  · rename_i hparent
    refine Keeps.bind (scanChildren_keeps halloc hroom hsearch (fun a ha =>
      hreads a ⟨id, hfinds, .inr ⟨hscanned ▸ hparent.1, ha⟩⟩) _) fun children hchildren => ?_
    refine Keeps.bind (matchPush_keeps halloc ctx _) fun pushed hpushed => ?_
    rcases hpushed with ⟨cap, rfl⟩ | ⟨rfl, hfailed⟩
    · exact Keeps.pure (hfound children hchildren cap)
    · exact Keeps.pure (.aborted hfailed)
  · rw [pure_bind]
    refine Keeps.bind (matchPush_keeps halloc ctx _) fun pushed hpushed => ?_
    rcases hpushed with ⟨cap, rfl⟩ | ⟨rfl, hfailed⟩
    · exact Keeps.pure (hfound [] (fun ch hch => by cases hch) cap)
    · exact Keeps.pure (.aborted hfailed)

end Visitors

/-! ## The parse -/

section Parse

variable [Arith] (host : Host) (s : Schema)

/-- The traversal of a parse, with what it returns. -/
def scanNodes (input : CStr) : Run Unit (Int × ScanCtx) :=
  Ngram.execute input (some s.options) (visitTop host s) ⟨[], 0⟩

theorem parse_eq (input : CStr) : parse host s input = (do
    embBuffer
    let r ← scanNodes host s input
    pure ⟨decide (0 < r.2.items.length), r.2.items⟩) := rfl

omit [Arith] in
theorem embBuffer_quiet {ε : Type} {e : Env} (he : Quiet e) :
    (embBuffer : Run ε Unit).exec e = (.ok (), e) := by
  unfold embBuffer
  rw [exec_bind, exec_alloc_quiet he]
  rfl

variable {host s}

/-- The traversal refuses its bounds before it does anything. -/
theorem scanNodes_refused {input : CStr} (h : ¬ s.options.Accepted) :
    scanNodes host s input = pure (-1, ⟨[], 0⟩) := by
  unfold scanNodes Ngram.execute
  rw [Option.getD_some, if_pos]
  unfold Ngram.Options.Accepted at h
  omega

variable {I : Env → Prop} {X : Stop Unit → Prop} {failed : Prop}
  {nodeFound childFound : Hnsw.Index → List Binary32 → List Hnsw.Result → Prop}
  (halloc : Keeps I X (alloc : Run Unit Bool) fun served => served = false → failed)
  (hroom : s.Room host ∨ X (.fault .index))
  (hsearch : s.Searched I failed nodeFound childFound)

omit [Arith] in
include halloc in
theorem embBuffer_keeps (hfail : failed → X (.fault .unset)) :
    Keeps I X (embBuffer : Run Unit Unit) fun _ => True := by
  unfold embBuffer
  refine Keeps.bind halloc fun served hserved => ?_
  cases served with
  | true => exact Keeps.pure trivial
  | false => exact Keeps.fault (hfail (hserved rfl))

include halloc hroom hsearch

theorem scanNodes_keeps (input : CStr)
    (hreads : ∀ a, s.Reads host nodeFound childFound input a → Admits I a) :
    Keeps I X (scanNodes host s input) fun r =>
      (∀ m ∈ r.2.items, NodeMatch host s nodeFound childFound m ∧ ∃ w ∈ s.windows input,
        m.span = windowText input (Ngram.tokensOf s.options.separators input) w) ∧
        (r.1 < 0 → failed ∨ ¬ s.options.Accepted) := by
  have hnil : ∀ m ∈ (⟨[], 0⟩ : ScanCtx).items, NodeMatch host s nodeFound childFound m ∧
      ∃ w ∈ s.windows input,
        m.span = windowText input (Ngram.tokensOf s.options.separators input) w := by simp
  by_cases haccept : s.options.Accepted
  swap
  · rw [scanNodes_refused haccept]
    exact Keeps.pure ⟨hnil, fun _ => .inr haccept⟩
  refine Ngram.execute_keeps (P := fun ctx : ScanCtx => ∀ m ∈ ctx.items,
    NodeMatch host s nodeFound childFound m ∧ ∃ w ∈ s.windows input,
      m.span = windowText input (Ngram.tokensOf s.options.separators input) w) halloc ?_ hnil
  intro tokens w hw ctx hctx
  rw [← s.windows_eq] at hw
  have hmatch : ∀ a, MatchReads host s nodeFound childFound (Ngram.chunkOf input tokens w).text a →
      Admits I a := fun a ha => hreads a ⟨haccept, w, hw, ha⟩
  refine (visitTop_keeps halloc hroom hsearch hmatch ctx).mono fun r hr => ?_
  cases hr with
  | skipped _ => exact ⟨hctx, fun hneg => absurd hneg (Int.lt_irrefl 0)⟩
  | found htext hmatch =>
    refine ⟨fun m hm => ?_, fun hneg => absurd hneg (Int.not_lt.mpr Int.one_nonneg)⟩
    rcases List.mem_append.mp hm with hm | hm
    · exact hctx m hm
    · rw [List.mem_singleton.mp hm]
      exact ⟨hmatch, w, hw, htext⟩
  | aborted hfailed => exact ⟨hctx, fun _ => hfailed⟩

/-- **A parse** keeps what allocations and the texts of the rows keep. -/
theorem parse_keeps (hfail : failed → X (.fault .unset)) (input : CStr)
    (hreads : ∀ a, s.Reads host nodeFound childFound input a → Admits I a) :
    Keeps I X (parse host s input) fun r =>
      ∀ m ∈ r.matches_, NodeMatch host s nodeFound childFound m ∧ ∃ w ∈ s.windows input,
        m.span = windowText input (Ngram.tokensOf s.options.separators input) w := by
  rw [parse_eq]
  exact Keeps.bind (embBuffer_keeps halloc hfail) fun _ _ =>
    Keeps.bind (scanNodes_keeps halloc hroom hsearch input hreads) fun r hr => Keeps.pure hr.1

end Parse

end Ipa
