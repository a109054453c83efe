import Ipa.Ngram.Greedy
import Ipa.Runtime.Best
import Ipa.Runtime.Keeps
import Ipa.Schema.Accepted

/-!
# The matches of a parse

`accepted` is the greedy choice over the windows of an input in which a window is accepted for the
best score of its text over all node descriptions of the file. Where no allocation fails, the
matches of a parse are one for each accepted window, in order: its text, the best score as a float
and the label of a description that has it. Which of several best descriptions gives the label is
not said, since the order of the index depends on the process.
-/

namespace Ipa

open Run

/-! ## The reference -/

/-- The descriptions in the node block of a file. -/
def nodeDescriptions (host : Host) (file : List UInt8) : List Description :=
  match checkHeader host (mapping host file) with
  | .error _ => []
  | .ok hdr => (hdr.nodeBlock host (mapping host file)).descriptions

section Reference

variable [Arith] (s : Schema) (ds : List Description) (input : CStr)

/-- The best score of a text is not negative, and as a float it reaches the threshold. -/
def accepts (text : CStr) : Bool :=
  match s.emb.exec text with
  | none => false
  | some vec =>
    match bestScore (ds.map fun d => d.score vec) with
    | none => false
    | some best => Binary64.zero.le best && s.nodeThreshold.le (Arith.narrow best)

/-- Is the text of a window accepted? -/
def acceptsWindow (w : Ngram.Span) : Bool :=
  accepts s ds (windowText input (Ngram.tokensOf s.options.separators input) w)

/-- The accepted windows. -/
def accepted : List Ngram.Span := Ngram.greedy (acceptsWindow s ds input) (s.windows input) []

/-- The match of an accepted window. -/
structure MatchOf (w : Ngram.Span) (m : Match) : Prop where
  span : m.span = windowText input (Ngram.tokensOf s.options.separators input) w
  best : ∃ vec d, s.emb.exec m.span = some vec ∧ Best ds vec d ∧ m.id = d.label ∧
    m.score = Arith.narrow (d.score vec)

/-- No score that the parse compares is a NaN, nor is the threshold. -/
structure Ordinary : Prop where
  threshold : s.nodeThreshold.isNaN = false
  scores : ∀ w ∈ s.windows input, ∀ vec,
    s.emb.exec (windowText input (Ngram.tokensOf s.options.separators input) w) = some vec →
      ∀ d ∈ ds, (d.score vec).isNaN = false ∧ (Arith.narrow (d.score vec)).isNaN = false

instance : Decidable (Ordinary s ds input) :=
  decidable_of_iff (s.nodeThreshold.isNaN = false ∧ ∀ w ∈ s.windows input,
    (s.emb.exec (windowText input (Ngram.tokensOf s.options.separators input) w)).all fun vec =>
      ds.all fun d => !(d.score vec).isNaN && !(Arith.narrow (d.score vec)).isNaN) <| by
    constructor
    · rintro ⟨hthreshold, hscores⟩
      refine ⟨hthreshold, fun w hw vec hvec d hd => ?_⟩
      have h := hscores w hw
      rw [hvec] at h
      simpa using List.all_eq_true.mp h d hd
    · rintro ⟨hthreshold, hscores⟩
      refine ⟨hthreshold, fun w hw => ?_⟩
      cases hvec : s.emb.exec (windowText input (Ngram.tokensOf s.options.separators input) w) with
      | none => rfl
      | some vec => exact List.all_eq_true.mpr fun d hd => by simpa using hscores w hw vec hvec d hd

end Reference

/-! ## The visitor decides as the reference does -/

section Decides

variable [Arith] {s : Schema} {ds : List Description} {vec : List Binary32}

/-- Any best description tells whether the text is accepted. -/
theorem accepts_eq (hzeros : ZerosRoundAlike) {text : CStr} (hexec : s.emb.exec text = some vec)
    (hthreshold : s.nodeThreshold.isNaN = false)
    (hnan : ∀ d ∈ ds, (d.score vec).isNaN = false ∧ (Arith.narrow (d.score vec)).isNaN = false)
    {d : Description} (hd : Best ds vec d) :
    accepts s ds text = (Binary64.zero.le (d.score vec) &&
      !(Arith.narrow (d.score vec)).lt s.nodeThreshold) := by
  have hscores : ∀ d ∈ ds, (d.score vec).isNaN = false := fun d hd => (hnan d hd).1
  rcases bestScore_eq hscores with ⟨rfl, -⟩ | ⟨best, hbest, hscore⟩
  · cases hd.mem
  have hle := hbest.le hd hscores
  have hge := hd.le hbest hscores
  unfold accepts
  simp only [hexec, hscore]
  rw [← narrow_lt_congr hzeros hle hge s.nodeThreshold]
  have hnarrow : s.nodeThreshold.le (Arith.narrow (best.score vec)) =
      !(Arith.narrow (best.score vec)).lt s.nodeThreshold := by
    have hiff := Binary32.not_lt (hnan best hbest.mem).2 hthreshold
    rw [Bool.eq_iff_iff, ← hiff, Bool.not_eq_true']
  have hzero : Binary64.zero.le (best.score vec) = Binary64.zero.le (d.score vec) := by
    rw [Bool.eq_iff_iff]
    exact ⟨fun h => Binary64.le_trans h hle, fun h => Binary64.le_trans h hge⟩
  rw [hnarrow, hzero]

/-- Nothing is accepted where no score reaches zero. -/
theorem accepts_nothing {text : CStr} (hexec : s.emb.exec text = some vec)
    (hnan : ∀ d ∈ ds, (d.score vec).isNaN = false)
    (hlow : ∀ d ∈ ds, Binary64.zero.le (d.score vec) = false) : accepts s ds text = false := by
  unfold accepts
  simp only [hexec]
  rcases bestScore_eq hnan with ⟨-, hnone⟩ | ⟨best, hbest, hscore⟩
  · rw [hnone]
  · simp only [hscore, hlow best hbest.mem, Bool.false_and]

end Decides

section Parse

variable [Arith] {host : Host} {s : Schema} {b : EmbBlock} {efSearch : Option Int} {seed : UInt64}
  {filled : Hnsw.Index} (hbuilt : b.BuiltInto efSearch seed s.index.nodeHnsw filled)
  (hcount : b.count ≤ 1024) (hready : s.Searchable) (hzeros : ZerosRoundAlike) {input : CStr}
  (hordinary : Ordinary s b.descriptions input) {X : Stop Unit → Prop}
  (hroom : s.Room host ∨ X (.fault .index))

include hbuilt hzeros hordinary in
/-- A window that hits a best description is accepted. -/
theorem acceptsWindow_of_hits {w : Ngram.Span} (hw : w ∈ s.windows input) {m : Match}
    (hspan : m.span = windowText input (Ngram.tokensOf s.options.separators input) w)
    (h : s.Hits (some s.index.nodeHnsw) bestOnly m) :
    acceptsWindow s b.descriptions input w = true ∧ MatchOf s b.descriptions input w m := by
  obtain ⟨index, vec, top, rest, hindex, hexec, hfirst, hid, hscore, hlt⟩ := h
  cases hindex
  rcases hfirst with ⟨hnil, -⟩ | ⟨result, hresult, htop⟩
  · cases hnil
  cases hresult
  obtain ⟨d, hd, rfl, hzero⟩ := (hbuilt.top_iff vec top).mp htop
  refine ⟨?_, hspan, vec, d, hexec, hd, hid, hscore⟩
  rw [hspan] at hexec
  have hhigh : (Arith.narrow (d.score vec)).lt s.nodeThreshold = false := by
    rw [hscore] at hlt
    exact hlt
  rw [acceptsWindow, accepts_eq hzeros hexec hordinary.threshold
    (hordinary.scores w hw vec hexec) hd, hzero, hhigh]
  rfl

include hbuilt hzeros hordinary in
/-- A window that hits nothing is not accepted. -/
theorem acceptsWindow_of_none {w : Ngram.Span} (hw : w ∈ s.windows input)
    {chunk : Ngram.Chunk} (hlt : chunk.byteStart < chunk.byteEnd)
    (htext : chunk.text = windowText input (Ngram.tokensOf s.options.separators input) w)
    (h : Hit s (some s.index.nodeHnsw) False bestOnly chunk none) :
    acceptsWindow s b.descriptions input w = false := by
  unfold acceptsWindow
  rw [← htext]
  have hscores := hordinary.scores w hw
  rw [← htext] at hscores
  cases h with
  | @below index vec top rest hindex hexec hfirst hlow =>
    cases hindex
    rcases hfirst with ⟨hnil, -⟩ | ⟨result, hresult, htop⟩
    · cases hnil
    cases hresult
    obtain ⟨d, hd, rfl, hzero⟩ := (hbuilt.top_iff vec top).mp htop
    have hlow : (Arith.narrow (d.score vec)).lt s.nodeThreshold = true := hlow
    rw [accepts_eq hzeros hexec hordinary.threshold (hscores vec hexec) hd, hlow]
    exact Bool.and_false _
  | @nothing index vec hindex hexec hnone =>
    cases hindex
    rcases hnone with ⟨-, hall⟩ | ⟨result, hresult, -⟩
    swap
    · cases hresult
    refine accepts_nothing hexec (fun d hd => (hscores vec hexec d hd).1) fun d hd => ?_
    rw [hbuilt.metric] at hall
    exact hall (d.result vec) ((hbuilt.scored_perm vec).mem_iff.mpr
      (List.mem_map.mpr ⟨d, hd, rfl⟩))
  | unembedded hexec =>
    unfold accepts
    rw [hexec]
  | unindexed hindex => cases hindex
  | empty hempty => omega
  | starved hfailed => exact hfailed.elim

include hbuilt hcount hready hzeros hordinary hroom in
/-- **The matches of a parse**, in order, are those of the reference. -/
theorem parse_matches_keeps (haccept : s.options.Accepted) :
    Keeps Quiet X (parse host s input) fun result =>
      List.Forall₂ (MatchOf s b.descriptions input) (accepted s b.descriptions input)
        result.matches_ := by
  have halloc : Keeps Quiet X (alloc : Run Unit Bool) fun served => served = false → False :=
    Keeps.alloc_served
  have hcount' : s.index.nodeHnsw.count ≤ 1024 := by
    rw [hbuilt.count]
    exact hcount
  have hsearch : s.Searched Quiet False bestOnly fromItems := by
    refine ⟨?_, (hready.searched halloc).child⟩
    intro _ hindex vec
    cases hindex
    exact search_bestOnly halloc hready.node hcount' vec
  have hwindows := s.windows_eq input
  have hvisit : ∀ w ∈ s.windows input, ∀ (own : ScanCtx) taken,
      List.Forall₂ (MatchOf s b.descriptions input) taken own.items →
        Keeps Quiet X (visitTop host s
          (Ngram.chunkOf input (Ngram.tokensOf s.options.separators input) w) own) fun r =>
          r.1 = (Ngram.deciding (acceptsWindow s b.descriptions input) w taken).1 ∧
            List.Forall₂ (MatchOf s b.descriptions input)
              (Ngram.deciding (acceptsWindow s b.descriptions input) w taken).2 r.2.items := by
    intro w hw own taken hown
    have hmem := hw
    rw [hwindows, Ngram.mem_windows haccept.1] at hmem
    refine (visitTop_keeps halloc hroom hsearch (fun _ _ _ he => he) own).mono fun r hr => ?_
    unfold Ngram.deciding
    cases hr with
    | skipped hhit =>
      have hlt := (Ngram.tokensOf_ordered s.options.separators input).window_lt hmem.1
        (by omega) hmem.2.1
      rw [acceptsWindow_of_none hbuilt hzeros hordinary hw ?_ rfl hhit]
      · exact ⟨rfl, hown⟩
      · unfold Ngram.chunkOf
        rwa [List.getD_eq_getElem _ _ (by omega), List.getD_eq_getElem _ _ hmem.2.1]
    | found hspan hmatch =>
      obtain ⟨haccepts, hof⟩ := acceptsWindow_of_hits hbuilt hzeros hordinary hw hspan hmatch.hit
      rw [if_pos haccepts]
      exact ⟨rfl, List.rel_append hown (.cons hof .nil)⟩
    | aborted hfailed => exact hfailed.elim
  rw [hwindows] at hvisit
  rw [parse_eq]
  refine Keeps.bind (embBuffer_keeps Keeps.alloc_served False.elim) fun _ _ => ?_
  have hstart : List.Forall₂ (MatchOf s b.descriptions input) [] (⟨[], 0⟩ : ScanCtx).items := .nil
  refine Keeps.bind (Ngram.execute_leaves halloc hvisit haccept hstart) fun r hr => Keeps.pure ?_
  obtain ⟨calls', hvisits⟩ := Ngram.visits_deciding (acceptsWindow s b.descriptions input)
    (s.windows input) []
  rw [hwindows] at hvisits
  unfold accepted
  rw [hwindows]
  rcases hr with ⟨calls, taken, hok, hitems, -⟩ | ⟨calls, taken, herror, -⟩ | ⟨hfailed, -⟩
  · rw [show Ngram.closedBy [] = [] from rfl] at hvisits
    rw [hvisits] at hok
    cases hok
    exact hitems
  · rw [show Ngram.closedBy [] = [] from rfl] at hvisits
    rw [hvisits] at herror
    cases herror
  · exact hfailed.elim

end Parse

/-- **The matches of a parse** of an opened schema with at most 1024 node descriptions, where no
allocation fails: one for each accepted window, in order. The parse returns where a vector of the
model fits into memory, and no accepted window contains another. -/
theorem parse_matches [Arith] {sys : System} {file : List UInt8} {s : Schema} {e₀ e₁ : Env}
    (hopen : (openSchema sys file).exec e₀ = (.ok s, e₁))
    (hcount : (nodeDescriptions sys.host file).length ≤ 1024) (hmin : 1 ≤ s.minNgram.toInt)
    (hmax : s.maxNgram.toInt = 0 ∨ s.minNgram.toInt ≤ s.maxNgram.toInt) (hzeros : ZerosRoundAlike)
    {input : CStr} (hordinary : Ordinary s (nodeDescriptions sys.host file) input) {e : Env}
    (he : Quiet e) :
    let ds := nodeDescriptions sys.host file
    (∀ result e', (parse sys.host s input).exec e = (.ok result, e') →
      List.Forall₂ (MatchOf s ds input) (accepted s ds input) result.matches_) ∧
    (s.Room sys.host → ∃ result e', (parse sys.host s input).exec e = (.ok result, e')) ∧
    (accepted s ds input).Pairwise Ngram.Span.Apart := by
  intro ds
  obtain ⟨hdr, hcheck, hfrom⟩ := openSchema_from hopen
  have hds : ds = (hdr.nodeBlock sys.host (mapping sys.host file)).descriptions := by
    unfold ds nodeDescriptions
    rw [hcheck]
  change ds.length ≤ 1024 at hcount
  change Ordinary s ds input at hordinary
  obtain ⟨filled, hbuilt⟩ := hfrom.nodeIndex
  have haccept : s.options.Accepted := ⟨hmin, hmax.imp_left Int.le_of_eq⟩
  have hblock : (hdr.nodeBlock sys.host (mapping sys.host file)).count ≤ 1024 := by
    rw [hds, EmbBlock.descriptions, List.length_map, List.length_range] at hcount
    exact hcount
  rw [hds] at hordinary ⊢
  refine ⟨fun result e' hparse => ?_, fun hroom => ?_, ?_⟩
  · exact ((parse_matches_keeps hbuilt hblock hfrom.searchable hzeros hordinary
      (X := fun _ => True) (.inr trivial) haccept).value he hparse).1
  · have hreturns : Returns (parse sys.host s input) _ :=
      parse_matches_keeps hbuilt hblock hfrom.searchable hzeros hordinary (.inl hroom) haccept
    obtain ⟨result, e', hparse, -⟩ := hreturns.exec he
    exact ⟨result, e', hparse⟩
  · unfold accepted
    rw [s.windows_eq]
    exact Ngram.greedy_apart _ _ [] (Ngram.windows_descend hmin _) (fun a ha => by cases ha) .nil

/-- The conditions of `parse_matches` on a schema and an input, with the accepted windows. -/
def greedyCase (host : Host) (file : List UInt8) (input : CStr) (taken : List Ngram.Span)
    (s : Schema) : Bool :=
  let ds := nodeDescriptions host file
  decide (ds.length ≤ 1024 ∧ 1 ≤ s.minNgram.toInt ∧ s.minNgram.toInt ≤ s.maxNgram.toInt ∧
    @Ordinary ieee s ds input ∧ s.emb.dim.toNat * 4 < host.sizeMod ∧
      @accepted ieee s ds input = taken)

theorem parse_matches_family : ∃ image e s e₁ result e₂,
    (serialize unitSystem.host unitSystem.emb familyManifest).exec ⟨[], []⟩ = (.ok image, e) ∧
      (@openSchema ieee unitSystem image).exec ⟨[], []⟩ = (.ok s, e₁) ∧
        (@parse ieee unitSystem.host s (CStr.ofString "d e")).exec ⟨[], []⟩ = (.ok result, e₂) ∧
          List.Forall₂ (@MatchOf ieee s (nodeDescriptions unitSystem.host image)
            (CStr.ofString "d e")) [⟨0, 1⟩] result.matches_ := by
  obtain ⟨image, e, hbuild, hcase⟩ := exec_of_value?
    (x := serialize unitSystem.host unitSystem.emb familyManifest) (e := ⟨[], []⟩)
    (q := fun image => ((@openSchema ieee unitSystem image).value? ⟨[], []⟩).any
      (greedyCase unitSystem.host image (CStr.ofString "d e") [⟨0, 1⟩])) (by decide +kernel)
  obtain ⟨s, e₁, hopen, hcase⟩ := exec_of_value? hcase
  obtain ⟨hcount, hmin, hmax, hordinary, hroom, htaken⟩ := of_decide_eq_true hcase
  obtain ⟨hvalue, hreturns, -⟩ := @parse_matches ieee unitSystem image s _ _ hopen hcount hmin
    (.inr hmax) ieee_zerosRoundAlike _ hordinary ⟨[], []⟩ rfl
  obtain ⟨result, e₂, hparse⟩ := hreturns hroom
  have hmatches := hvalue result e₂ hparse
  rw [htaken] at hmatches
  exact ⟨image, e, s, e₁, result, e₂, hbuild, hopen, hparse, hmatches⟩

end Ipa
