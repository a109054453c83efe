import Ipa.Runtime.Interfere
import Mathlib.Data.List.Induction

/-!
# What a scan under a node selects

The scan of a span under a node goes through the windows of the span, which are windows of the
input, from the whole down. It accepts a window where the first result of a search has a row under
the node and a score not below the threshold, and keeps for each id the first best of the accepted
windows. That holds whatever the model computes and whatever answers the search.
-/

namespace Ipa

open Run

/-! ## Windows of a window -/

/-- The text of a window is cut into the tokens of the window; its windows are windows of the
input, and so are their texts. -/
theorem textOf_window {input : CStr} {w : Ngram.Span} (hw : w.start ≤ w.stop)
    (hstop : w.stop < (Ngram.tokensOf Ngram.optionsDefault.separators input).length) :
    (Ngram.tokensOf Ngram.optionsDefault.separators (textOf input w)).length =
        w.stop - w.start + 1 ∧
      ∀ v : Ngram.Span, v.start ≤ v.stop → v.stop ≤ w.stop - w.start →
        textOf (textOf input w) v = textOf input ⟨w.start + v.start, w.start + v.stop⟩ := by
  have hretokenised := Ngram.tokensOf_window hw hstop
  have hlt := (Ngram.tokensOf_ordered Ngram.optionsDefault.separators input).window_lt hw
    (by omega) hstop
  have htext : textOf input w = input.slice
      (Ngram.tokensOf Ngram.optionsDefault.separators input)[w.start].byteStart
      (Ngram.tokensOf Ngram.optionsDefault.separators input)[w.stop].byteEnd := by
    unfold textOf windowText
    rw [List.getD_eq_getElem _ _ (by omega), List.getD_eq_getElem _ _ hstop]
  rw [← htext] at hretokenised
  generalize (Ngram.tokensOf Ngram.optionsDefault.separators input)[w.start].byteStart = p
    at hretokenised hlt htext
  generalize (Ngram.tokensOf Ngram.optionsDefault.separators input)[w.stop].byteEnd = q
    at hlt htext
  have hlen : (Ngram.tokensOf Ngram.optionsDefault.separators (textOf input w)).length =
      w.stop - w.start + 1 := by
    have := congrArg List.length hretokenised
    rw [List.length_map, List.length_take, List.length_drop] at this
    omega
  refine ⟨hlen, fun v hv hvstop => ?_⟩
  have htoken : ∀ k, (hk : k ≤ w.stop - w.start) →
      ((Ngram.tokensOf Ngram.optionsDefault.separators (textOf input w)).getD k default).shift p =
        (Ngram.tokensOf Ngram.optionsDefault.separators input).getD (w.start + k) default := by
    intro k hk
    have hat := congrArg (fun tokens => tokens[k]?) hretokenised
    rw [List.getElem?_map, List.getElem?_take_of_lt (by omega), List.getElem?_drop,
      List.getElem?_eq_getElem (by omega), List.getElem?_eq_getElem (by omega)] at hat
    rw [List.getD_eq_getElem _ _ (by omega), List.getD_eq_getElem _ _ (by omega)]
    exact Option.some.inj hat
  have hend : ((Ngram.tokensOf Ngram.optionsDefault.separators (textOf input w)).getD v.stop
      default).byteEnd ≤ q - p := by
    rw [List.getD_eq_getElem _ _ (by omega)]
    refine ((Ngram.tokensOf_ordered Ngram.optionsDefault.separators (textOf input w)).bounds _
      (List.getElem_mem (by omega))).2.2.trans ?_
    rw [htext]
    exact List.length_take_le _ _
  have hfirst := congrArg Ngram.Token.byteStart (htoken v.start (by omega))
  have hlast := congrArg Ngram.Token.byteEnd (htoken v.stop hvstop)
  change _ + p = _ at hfirst hlast
  change (textOf input w).slice _ _ = input.slice _ _
  rw [← hfirst, ← hlast, Nat.add_comm _ p, Nat.add_comm _ p, ← CStr.slice_slice input (j := q)
    (by omega), ← htext]

/-! ## The visitors, over any search -/

section Search

variable [Arith] {ε : Type} (host : Host) (s : Schema)
  (search : Hnsw.Index → List Binary32 → Run Hnsw.Status (List Hnsw.Result))

/-- The part that both visitors share. -/
def visitHitBy (hnsw : Option Hnsw.Index) (chunk : Ngram.Chunk) :
    Run ε (Option (CStr × CStr × Binary32)) := do
  if chunk.byteEnd ≤ chunk.byteStart then pure none
  else if ← alloc then
    let span := chunk.input.slice chunk.byteStart chunk.byteEnd
    match ← embExec s.emb (some span) (host.size (s.emb.dim.toNat * 4) / 4) with
    | none => pure none
    | some vec =>
      match hnsw with
      | none => pure none
      | some hnsw =>
        match ← catching (search hnsw vec) with
        | .error _ => pure none
        | .ok [] => pure none
        | .ok (hr :: _) =>
          let score := Arith.narrow hr.score
          if score.lt s.nodeThreshold then pure none else pure (some (span, hr.id, score))
  else pure none

/-- The visitor of the scan for the children of `parentId`. -/
def visitChildBy (parentId : CStr) : Ngram.Visit ε ScanCtx := fun chunk ctx => do
  match ← visitHitBy host s search s.index.childHnsw chunk with
  | none => pure (0, ctx)
  | some (span, id, score) =>
    if ← anyRow (childRowOf host s id parentId) (List.range s.index.childMetaCount) then
      match ← strdup id with
      | none => pure (0, ctx)
      | some id =>
        let m : Match := ⟨id, span, score, [], []⟩
        match replaceMatch m ctx.items with
        | some items => pure (1, { ctx with items })
        | none =>
          match ← matchPush ctx m with
          | none => pure (-1, ctx)
          | some ctx => pure (1, ctx)
    else pure (0, ctx)

/-- The child matches in a span. -/
def scanChildrenBy (minNgram maxNgram : Int) (parentId span : CStr) : Run ε (List Match) := do
  let opts := { Ngram.optionsDefault with minTokens := minNgram, maxTokens := maxNgram }
  let (_, ctx) ← Ngram.execute span (some opts) (visitChildBy host s search parentId) ⟨[], 0⟩
  ctx.items.mapM (withChildEmits host s parentId)

/-- The scan of the code, with its search. -/
theorem scanChildren_search (minNgram maxNgram : Int) (parentId span : CStr) :
    (scanChildren host s minNgram maxNgram parentId span : Run ε _) =
      scanChildrenBy host s (fun hnsw vec => Hnsw.search hnsw vec 1 .zero) minNgram maxNgram
        parentId span := rfl

end Search

/-! ## Lookups -/

section Answers

variable [Arith] (host : Host) (s : Schema) (top1 : Hnsw.Index → List Binary32 → Option Hnsw.Result)

/-- The first result for a text, where its score is one to keep. -/
def Schema.topHit (keeps : Binary32 → Bool) (hnsw : Option Hnsw.Index) (text : CStr) :
    Option (CStr × Binary32) :=
  (s.emb.exec text).bind fun vec => hnsw.bind fun index => (top1 index vec).bind fun top =>
    if keeps (Arith.narrow top.score) then some (top.id, Arith.narrow top.score) else none

/-- The first result of the child index for a text, where its score is one to keep and a row names
it under the node. -/
def Schema.childHit (keeps : Binary32 → Bool) (parentId text : CStr) : Option (CStr × Binary32) :=
  (s.topHit top1 keeps s.index.childHnsw text).filter fun found => isChildOf host s found.1 parentId

/-- The windows of a span that a scan accepts, in the order of its visits. -/
def acceptedWindows (hit : CStr → Option (CStr × Binary32)) (span : CStr) : List Ngram.Span :=
  Ngram.greedy (fun w => (hit (textOf span w)).isSome) (textWindows span) []

end Answers

/-- The matches that a scan keeps of the windows it accepted: one for each id, in the order of the
ids, with the text and the score of the first best window of its id. -/
structure Selected (hit : CStr → Option (CStr × Binary32)) (span : CStr)
    (accepted : List Ngram.Span) (items : List Match) : Prop where
  ids : items.map (·.id) =
    (accepted.filterMap fun w => (hit (textOf span w)).map Prod.fst).eraseDups
  best : ∀ m ∈ items, ∃ before w after, accepted = before ++ w :: after ∧
    m.span = textOf span w ∧ hit (textOf span w) = some (m.id, m.score) ∧
      (∀ v ∈ accepted, ∀ score, hit (textOf span v) = some (m.id, score) →
        m.score.lt score = false) ∧
      ∀ v ∈ before, ∀ score, hit (textOf span v) = some (m.id, score) → m.score.le score = false

/-- The matches are those selected of the windows that are accepted under a node. -/
def Schema.Selects [Arith] (host : Host) (s : Schema)
    (top1 : Hnsw.Index → List Binary32 → Option Hnsw.Result) (keeps : Binary32 → Bool)
    (parentId span : CStr) (items : List Match) : Prop :=
  let hit := s.childHit host top1 keeps parentId
  Selected hit span (acceptedWindows hit span) items

/-! ## Placing -/

theorem replaceMatch_none {m : Match} : ∀ {items : List Match}, replaceMatch m items = none →
    m.id ∉ items.map (·.id)
  | [], _ => by simp
  | old :: rest, h => by
    unfold replaceMatch at h
    split at h
    · cases h
    · rename_i hother
      rw [Option.map_eq_none_iff] at h
      rw [List.map_cons, List.mem_cons, not_or]
      exact ⟨fun heq => hother heq.symm, replaceMatch_none h⟩

/-- An entry of the id of the new match is kept, or gives way to it where it is worse. -/
theorem replaceMatch_some {m : Match} : ∀ {items items' : List Match},
    replaceMatch m items = some items' → ∃ front old back, items = front ++ old :: back ∧
      old.id = m.id ∧ items' = front ++ (if old.score.lt m.score then m else old) :: back
  | [], _, h => by cases h
  | old :: rest, items', h => by
    unfold replaceMatch at h
    split at h
    · rename_i hsame
      cases h
      refine ⟨[], old, rest, rfl, hsame, ?_⟩
      split
      · rfl
      · rfl
    · obtain ⟨items'', hrest, rfl⟩ := Option.map_eq_some_iff.mp h
      obtain ⟨front, old', back, rfl, hsame, rfl⟩ := replaceMatch_some hrest
      exact ⟨old :: front, old', back, rfl, hsame, rfl⟩

theorem eraseDups_concat (ids : List CStr) (id : CStr) :
    (ids ++ [id]).eraseDups = if id ∈ ids then ids.eraseDups else ids.eraseDups ++ [id] := by
  rw [List.eraseDups_append, List.removeAll, List.filter_cons]
  by_cases hmem : id ∈ ids
  · rw [if_pos hmem, if_neg (by simpa using hmem), List.filter_nil, List.eraseDups_nil,
      List.append_nil]
  · rw [if_neg hmem, if_pos (by simpa using hmem), List.filter_nil]
    rfl

theorem nodup_eraseDups (ids : List CStr) : ids.eraseDups.Nodup := by
  induction ids using List.reverseRecOn with
  | nil => exact List.nodup_nil
  | append_singleton ids id ih =>
    rw [eraseDups_concat]
    split
    · exact ih
    · rename_i hnew
      refine List.nodup_append.mpr ⟨ih, List.nodup_singleton id, ?_⟩
      intro a ha b hb heq
      rw [List.mem_singleton.mp hb] at heq
      exact hnew (List.mem_eraseDups.mp (heq ▸ ha))

theorem Selected.nil {hit : CStr → Option (CStr × Binary32)} {span : CStr} :
    Selected hit span [] [] :=
  ⟨rfl, fun m hm => by cases hm⟩

/-- The match is of the first of the windows that are best for its id. -/
def BestOf (hit : CStr → Option (CStr × Binary32)) (span : CStr) (accepted : List Ngram.Span)
    (m : Match) : Prop :=
  ∃ before w after, accepted = before ++ w :: after ∧
    m.span = textOf span w ∧ hit (textOf span w) = some (m.id, m.score) ∧
      (∀ v ∈ accepted, ∀ score, hit (textOf span v) = some (m.id, score) →
        m.score.lt score = false) ∧
      ∀ v ∈ before, ∀ score, hit (textOf span v) = some (m.id, score) → m.score.le score = false

section Place

variable {hit : CStr → Option (CStr × Binary32)} {span : CStr} {accepted : List Ngram.Span}
  {w : Ngram.Span} {id : CStr} {score : Binary32} (hw : hit (textOf span w) = some (id, score))

include hw

/-- A match of another id stays the best, and so does one that the new window does not beat. -/
theorem BestOf.kept {m : Match} (h : BestOf hit span accepted m)
    (hbeaten : m.id = id → m.score.lt score = false) : BestOf hit span (accepted ++ [w]) m := by
  obtain ⟨before, v, after, hsplit, hspan, hv, hbest, hfirst⟩ := h
  refine ⟨before, v, after ++ [w], by rw [hsplit]; simp, hspan, hv, fun u hu score' hscore => ?_,
    hfirst⟩
  rcases List.mem_append.mp hu with hu | hu
  · exact hbest u hu score' hscore
  · rw [List.mem_singleton.mp hu, hw] at hscore
    cases hscore
    exact hbeaten rfl

/-- The new window is the best where no older one of its id is as good. -/
theorem BestOf.placed (hbetter : ∀ u ∈ accepted, ∀ score', hit (textOf span u) = some (id, score') →
      score.le score' = false) :
    BestOf hit span (accepted ++ [w]) ⟨id, textOf span w, score, [], []⟩ := by
  refine ⟨accepted, w, [], rfl, rfl, hw, fun u hu score' hscore => ?_, hbetter⟩
  rcases List.mem_append.mp hu with hu | hu
  · have hnot := hbetter u hu score' hscore
    by_contra hlt
    rw [Bool.not_eq_false] at hlt
    rw [Binary32.le_of_lt hlt] at hnot
    cases hnot
  · rw [List.mem_singleton.mp hu, hw] at hscore
    cases hscore
    exact Binary32.lt_irrefl score

/-- A window that is accepted takes the place of the worse entry of its id, or a new one. -/
theorem Selected.place {items : List Match} (h : Selected hit span accepted items) :
    Selected hit span (accepted ++ [w]) (placeMatch ⟨id, textOf span w, score, [], []⟩ items) := by
  have hids : ((accepted ++ [w]).filterMap fun w => (hit (textOf span w)).map Prod.fst).eraseDups =
      if id ∈ items.map (·.id) then items.map (·.id) else items.map (·.id) ++ [id] := by
    rw [List.filterMap_append, List.filterMap_cons, hw, Option.map_some, List.filterMap_nil,
      eraseDups_concat, ← h.ids]
    refine if_congr ?_ rfl rfl
    rw [h.ids, List.mem_eraseDups]
  have hnodup : (items.map (·.id)).Nodup := by
    rw [h.ids]
    exact nodup_eraseDups _
  unfold placeMatch
  cases hreplace : replaceMatch ⟨id, textOf span w, score, [], []⟩ items with
  | none =>
    have hnew := replaceMatch_none hreplace
    refine ⟨?_, fun m hm => ?_⟩
    · rw [hids, if_neg hnew, Option.getD_none, List.map_append]
      rfl
    · rcases List.mem_append.mp hm with hm | hm
      · refine BestOf.kept hw (h.best m hm) fun heq => absurd ?_ hnew
        exact List.mem_map.mpr ⟨m, hm, heq⟩
      · rw [List.mem_singleton.mp hm]
        refine BestOf.placed hw fun u hu score' hscore => absurd ?_ hnew
        change id ∈ _
        rw [h.ids, List.mem_eraseDups]
        exact List.mem_filterMap.mpr ⟨u, hu, by rw [hscore]; rfl⟩
  | some items' =>
    obtain ⟨front, old, back, rfl, hsame, rfl⟩ := replaceMatch_some hreplace
    have hold : old ∈ front ++ old :: back := List.mem_append_right front List.mem_cons_self
    change old.id = id at hsame
    refine ⟨?_, fun m hm => ?_⟩
    · rw [hids, if_pos (List.mem_map.mpr ⟨old, hold, hsame⟩), Option.getD_some, List.map_append,
        List.map_append, List.map_cons, List.map_cons]
      split
      · rw [hsame]
      · rfl
    · have hothers : ∀ m ∈ front ++ back, m ∈ front ++ old :: back ∧ m.id ≠ id := by
        intro m hm
        rw [List.map_append, List.map_cons, hsame] at hnodup
        obtain ⟨hnotin, -⟩ := List.nodup_cons.mp (List.nodup_middle.mp hnodup)
        rw [← List.map_append] at hnotin
        refine ⟨?_, fun heq => hnotin (heq ▸ List.mem_map_of_mem hm)⟩
        rcases List.mem_append.mp hm with hm | hm
        · exact List.mem_append_left _ hm
        · exact List.mem_append_right _ (List.mem_cons_of_mem old hm)
      have hcases : m ∈ front ++ back ∨
          m = if old.score.lt score then ⟨id, textOf span w, score, [], []⟩ else old := by
        rcases List.mem_append.mp hm with hm | hm
        · exact .inl (List.mem_append_left back hm)
        · exact (List.mem_cons.mp hm).symm.imp_left (List.mem_append_right front)
      rcases hcases with hm | hm
      · exact BestOf.kept hw (h.best m (hothers m hm).1) fun heq => absurd heq (hothers m hm).2
      by_cases hbeaten : old.score.lt score = true
      · rw [hm, if_pos hbeaten]
        refine BestOf.placed hw fun u hu score' hscore => ?_
        -- the old entry was as good as every older window of the id
        obtain ⟨-, -, -, -, -, -, hbest, -⟩ := h.best old hold
        have hnot := hbest u hu score' (hsame.symm ▸ hscore)
        by_contra hle
        rw [Bool.not_eq_false] at hle
        rw [Binary32.lt_of_lt_of_le hbeaten hle] at hnot
        cases hnot
      · rw [hm, if_neg hbeaten]
        exact BestOf.kept hw (h.best old hold) fun _ => by simpa using hbeaten

end Place

/-- Emits that come later change nothing. -/
theorem Selected.congr {hit : CStr → Option (CStr × Binary32)} {span : CStr}
    {accepted : List Ngram.Span} {items items' : List Match} (h : Selected hit span accepted items)
    (hsame : items'.map (fun m => (m.id, m.span, m.score)) =
      items.map fun m => (m.id, m.span, m.score)) : Selected hit span accepted items' := by
  refine ⟨?_, fun m hm => ?_⟩
  · have := congrArg (List.map Prod.fst) hsame
    rw [List.map_map, List.map_map] at this
    exact this.trans h.ids
  · have hmem : (m.id, m.span, m.score) ∈ items.map fun m => (m.id, m.span, m.score) := by
      rw [← hsame]
      exact List.mem_map.mpr ⟨m, hm, rfl⟩
    obtain ⟨m', hm', heq⟩ := List.mem_map.mp hmem
    have hbest := h.best m' hm'
    obtain ⟨hid, heq⟩ := Prod.mk.inj heq
    obtain ⟨hspan, hscore⟩ := Prod.mk.inj heq
    rwa [hid, hspan, hscore] at hbest

/-! ## The scan -/

section Scan

variable [Arith] {ε : Type} {host : Host} {s : Schema}
  {search : Hnsw.Index → List Binary32 → Run Hnsw.Status (List Hnsw.Result)}
  {top1 : Hnsw.Index → List Binary32 → Option Hnsw.Result} {X : Stop ε → Prop}
  (hsearch : ∀ index, s.index.childHnsw = some index → ∀ vec,
    Returns (search index vec) fun results => results.head? = top1 index vec)
  (hroom : s.Room host ∨ X (.fault .index))

/-- A score that the code does not drop. -/
def Schema.keeps (s : Schema) (score : Binary32) : Bool := !score.lt s.nodeThreshold

include hsearch hroom

theorem visitHitBy_returns (chunk : Ngram.Chunk) (hlt : chunk.byteStart < chunk.byteEnd) :
    Keeps Quiet X (visitHitBy host s search s.index.childHnsw chunk) fun r =>
      r = (s.topHit top1 s.keeps s.index.childHnsw chunk.text).map fun found =>
        (chunk.text, found) := by
  unfold visitHitBy Schema.topHit
  rw [if_neg (by omega)]
  refine Keeps.bind Keeps.alloc_served fun served hserved => ?_
  obtain rfl : served = true := by simpa using hserved
  rw [if_pos rfl]
  refine Keeps.bind (embeds_keeps hroom chunk.text) fun vec hexec => ?_
  rw [← hexec]
  cases vec with
  | none => exact Keeps.pure rfl
  | some vec =>
    cases hindex : s.index.childHnsw with
    | none => exact Keeps.pure rfl
    | some index =>
      have hfound : Keeps Quiet (fun _ => False) (search index vec) _ := hsearch index hindex vec
      refine Keeps.bind (Keeps.catching hfound fun _ h => h.elim) fun results hresults => ?_
      cases results with
      | error err => exact (hresults.2 err rfl).elim
      | ok results =>
        have htop := hresults.1 results rfl
        cases results with
        | nil =>
          simp only [List.head?_nil] at htop
          refine Keeps.pure ?_
          simp [← htop]
        | cons hr rest =>
          simp only [List.head?_cons] at htop
          simp only [Option.bind_some, ← htop]
          split
          · rename_i hlow
            rw [if_neg (by simp [Schema.keeps, hlow])]
            exact Keeps.pure rfl
          · rename_i hhigh
            rw [if_pos (by simpa [Schema.keeps] using hhigh)]
            exact Keeps.pure rfl

/-- A call of the visitor places what the window hits. -/
theorem visitChildBy_returns (parentId : CStr) (chunk : Ngram.Chunk)
    (hlt : chunk.byteStart < chunk.byteEnd) (ctx : ScanCtx) :
    Keeps Quiet X (visitChildBy host s search parentId chunk ctx) fun r =>
      let placed := placeFound chunk.text (s.childHit host top1 s.keeps parentId chunk.text) ctx.items
      r.1 = placed.1 ∧ r.2.items = placed.2 := by
  have halloc : Keeps Quiet X (alloc : Run ε Bool) fun served => served = false → False :=
    Keeps.alloc_served
  unfold visitChildBy Schema.childHit
  refine Keeps.bind (visitHitBy_returns hsearch hroom chunk hlt) fun r hr => ?_
  subst hr
  cases s.topHit top1 s.keeps s.index.childHnsw chunk.text with
  | none => exact Keeps.pure ⟨rfl, rfl⟩
  | some found =>
    obtain ⟨id, score⟩ := found
    simp only [Option.map_some]
    refine Keeps.bind (childNamed_keeps fun _ _ _ he => he) fun named hnamed => ?_
    subst hnamed
    rw [Option.filter_some]
    by_cases hnamed : isChildOf host s id parentId = true
    swap
    · rw [if_neg hnamed, if_neg hnamed]
      exact Keeps.pure ⟨rfl, rfl⟩
    rw [if_pos hnamed, if_pos hnamed]
    refine Keeps.bind (strdup_keeps halloc id) fun copy hcopy => ?_
    obtain rfl : copy = some id := hcopy.resolve_right fun h => h.2
    simp only [placeFound, placeMatch]
    cases hreplace : replaceMatch ⟨id, chunk.text, score, [], []⟩ ctx.items with
    | some items => exact Keeps.pure ⟨rfl, rfl⟩
    | none =>
      refine Keeps.bind (matchPush_keeps halloc ctx _) fun pushed hpushed => ?_
      rcases hpushed with ⟨cap, rfl⟩ | ⟨-, hfailed⟩
      · exact Keeps.pure ⟨rfl, rfl⟩
      · exact hfailed.elim

/-- The items of the scan, before they get their emits. -/
theorem executeBy_returns (maxTokens : Int) (parentId span : CStr) :
    Keeps Quiet X (Ngram.execute span (some (childOptions maxTokens))
      (visitChildBy host s search parentId) ⟨[], 0⟩) fun r =>
        r.2.items = placedBy (s.childHit host top1 s.keeps parentId) maxTokens span := by
  refine (@Ngram.execute_leaves _ _ _ _ _ _ _ _ Keeps.alloc_served _
    (fun w => placeFound (textOf span w) (s.childHit host top1 s.keeps parentId (textOf span w)))
    (fun own items => own.items = items) ?_ (childOptions_accepted maxTokens) _ _ rfl).mono fun r hr => ?_
  · intro tokens w hw own items hown
    subst hown
    have hmem := (Ngram.mem_windows (Int.le_refl 1)).mp hw
    exact visitChildBy_returns hsearch hroom parentId _ (Ngram.chunkOf_lt hmem.1 hmem.2.1) own
  · rcases hr with ⟨calls, items, hvisits, hr, -⟩ | ⟨calls, items, hvisits, hr, -⟩ | ⟨hfailed, -⟩
    · exact hr.trans (congrArg Ngram.leftBy hvisits).symm
    · exact hr.trans (congrArg Ngram.leftBy hvisits).symm
    · exact hfailed.elim

omit [Arith] hsearch hroom in
/-- What the visitor places of the windows it accepts. -/
theorem placedBy_selected (hit : CStr → Option (CStr × Binary32)) (span : CStr) :
    Selected hit span (acceptedWindows hit span)
      (placedBy hit (Ngram.tokensOf Ngram.optionsDefault.separators span).length span) := by
  unfold placedBy acceptedWindows
  rw [Unbounded.windows (.inr (Int.le_refl _))]
  refine @Ngram.visits_greedy _ _ _ (Selected hit span) _ [] _ (fun w _ taken items h => ?_)
    Selected.nil
  unfold placeFound
  cases hfound : hit (textOf span w) with
  | none => exact ⟨rfl, h⟩
  | some found => exact ⟨rfl, h.place hfound⟩

/-- **The scan of a span** as wide as the span selects the first best of the accepted windows. -/
theorem scanChildrenBy_selects (parentId span : CStr) :
    Keeps Quiet X (scanChildrenBy host s search 1
      (Ngram.tokensOf Ngram.optionsDefault.separators span).length parentId span)
      (s.Selects host top1 s.keeps parentId span) := by
  unfold scanChildrenBy
  refine Keeps.bind (executeBy_returns hsearch hroom _ parentId span) fun ⟨_, ctx⟩ hctx => ?_
  have hselected := placedBy_selected (s.childHit host top1 s.keeps parentId) span
  have hnone := placedBy_emits (s.childHit host top1 s.keeps parentId)
    (Ngram.tokensOf Ngram.optionsDefault.separators span).length span
  simp only at hctx ⊢
  rw [← hctx] at hselected hnone
  exact (allChildEmits_keeps Keeps.alloc_served parentId fun ch hch =>
    ⟨hnone ch hch, fun _ _ _ he => he⟩).mono fun children hchildren =>
      hselected.congr (WithEmits.faces hchildren)

omit hsearch hroom in
/-- Between numbers, a score that is not below the threshold reaches it. -/
theorem Schema.childHit_reaches (hthreshold : s.nodeThreshold.isNaN = false)
    (hscores : ∀ index, s.index.childHnsw = some index → ∀ vec top, top1 index vec = some top →
      (Arith.narrow top.score).isNaN = false) (parentId : CStr) :
    s.childHit host top1 s.keeps parentId = s.childHit host top1 s.nodeThreshold.le parentId := by
  funext text
  unfold Schema.childHit Schema.topHit
  refine congrArg _ (Option.bind_congr fun vec _ => Option.bind_congr fun index hindex =>
    Option.bind_congr fun top htop => ?_)
  have hnumber := hscores index hindex vec top htop
  have hkeeps : s.keeps (Arith.narrow top.score) = s.nodeThreshold.le (Arith.narrow top.score) := by
    rw [Bool.eq_iff_iff, Schema.keeps, Bool.not_eq_true']
    exact Binary32.not_lt hnumber hthreshold
  rw [hkeeps]

end Scan

section Selects

variable [Arith] {ε : Type} {host : Host} {s : Schema}
  {search : Hnsw.Index → List Binary32 → Run Hnsw.Status (List Hnsw.Result)}
  {top1 : Hnsw.Index → List Binary32 → Option Hnsw.Result}

/-- **The scan under a node**: the span of a window of the input is cut into the tokens of the
window, so the scan goes through the windows of the input within it, from the whole down; where no
allocation fails it selects, of the windows it accepts, the first best for each id. -/
theorem scanChildren_selects (hsearch : ∀ index, s.index.childHnsw = some index → ∀ vec,
      Returns (search index vec) fun results => results.head? = top1 index vec)
    (hthreshold : s.nodeThreshold.isNaN = false)
    (hscores : ∀ index, s.index.childHnsw = some index → ∀ vec top, top1 index vec = some top →
      (Arith.narrow top.score).isNaN = false)
    (input : CStr) {w : Ngram.Span} (hw : w.start ≤ w.stop)
    (hstop : w.stop < (Ngram.tokensOf s.options.separators input).length) (parentId : CStr) :
    let tokens := Ngram.tokensOf s.options.separators input
    let chunk := Ngram.chunkOf input tokens w
    (Ngram.tokensOf Ngram.optionsDefault.separators chunk.text).map
        (Ngram.Token.shift chunk.byteStart) = (tokens.drop w.start).take chunk.size ∧
      textWindows chunk.text =
        ⟨0, chunk.size - 1⟩ :: Ngram.windows chunk.size 1 (chunk.size - 1) ∧
      (∀ v ∈ textWindows chunk.text, w.Contains ⟨w.start + v.start, w.start + v.stop⟩ ∧
        textOf chunk.text v =
          (Ngram.chunkOf input tokens ⟨w.start + v.start, w.start + v.stop⟩).text) ∧
      Keeps Quiet (fun stop : Stop ε => stop = .fault .index ∧ ¬ s.Room host)
        (scanChildrenBy host s search 1 chunk.size parentId chunk.text)
        (s.Selects host top1 s.nodeThreshold.le parentId chunk.text) := by
  intro tokens chunk
  change w.stop < tokens.length at hstop
  have hstart : w.start < tokens.length := hw.trans_lt hstop
  have hretokenised := Ngram.tokensOf_window hw hstop
  have hchunk : chunk.byteStart = tokens[w.start].byteStart := by
    change (tokens.getD w.start default).byteStart = _
    rw [List.getD_eq_getElem _ _ hstart]
  have htext : chunk.text = input.slice tokens[w.start].byteStart tokens[w.stop].byteEnd := by
    change input.slice (tokens.getD w.start default).byteStart
      (tokens.getD w.stop default).byteEnd = _
    rw [List.getD_eq_getElem _ _ hstart, List.getD_eq_getElem _ _ hstop]
  have hsize : chunk.size = w.stop - w.start + 1 := rfl
  obtain ⟨hcount, hwithin⟩ := textOf_window hw hstop
  change (Ngram.tokensOf _ chunk.text).length = _ at hcount
  have hwindows : textWindows chunk.text =
      ⟨0, chunk.size - 1⟩ :: Ngram.windows chunk.size 1 (chunk.size - 1) := by
    rw [textWindows, hcount, hsize]
    exact Ngram.windows_whole _
  refine ⟨?_, hwindows, fun v hv => ?_, ?_⟩
  · rw [htext, hchunk]
    exact hretokenised
  · have hv := (Ngram.mem_windows (Int.le_refl 1)).mp hv
    rw [hcount] at hv
    have hle : v.stop ≤ w.stop - w.start := by omega
    refine ⟨⟨?_, ?_⟩, hwithin v hv.1 hle⟩
    · exact Nat.le_add_right _ _
    · change w.start + v.stop ≤ w.stop
      omega
  · have hroom : s.Room host ∨ (Stop.fault Fault.index : Stop ε) = .fault .index ∧
        ¬ s.Room host := by
      by_cases h : s.Room host
      · exact .inl h
      · exact .inr ⟨rfl, h⟩
    unfold Schema.Selects
    rw [hsize, ← hcount, ← Schema.childHit_reaches hthreshold hscores]
    exact scanChildrenBy_selects hsearch (X := fun stop => stop = .fault .index ∧ ¬ s.Room host)
      hroom parentId chunk.text

end Selects

/-- The search of a compiled schema with few child descriptions. -/
theorem Compiled.search_topOf [Arith] {sys : System} {m : Manifest} {s : Schema}
    (h : Compiled sys m s) (hcount : (describedBy s.emb (childNodes m.nodes)).length ≤ 1024)
    {index : Hnsw.Index} (hindex : s.index.childHnsw = some index) (vec : List Binary32) :
    Returns (Hnsw.search index vec 1 .zero) fun results =>
      results.head? = Hnsw.topOf index vec := by
  obtain ⟨-, hready, hs⟩ := h.schemaOf
  exact Hnsw.search_topOf (hready.child index hindex) (hs.childCount hcount hindex)

/-- Its scores are numbers: none is below zero. -/
theorem Compiled.topOf_number [Arith] {sys : System} {m : Manifest} {s : Schema}
    (h : Compiled sys m s) (hcount : (describedBy s.emb (childNodes m.nodes)).length ≤ 1024)
    (hround : RoundsNumbers) {index : Hnsw.Index} (hindex : s.index.childHnsw = some index)
    {vec : List Binary32} {top : Hnsw.Result} (htop : Hnsw.topOf index vec = some top) :
    (Arith.narrow top.score).isNaN = false := by
  obtain ⟨-, hready, hs⟩ := h.schemaOf
  rcases Hnsw.topOf_top vec (hready.child index hindex) (hs.childCount hcount hindex) with
    ⟨hnone, -⟩ | ⟨result, hresult, hbest⟩
  · rw [hnone] at htop
    cases htop
  rw [hresult] at htop
  cases htop
  exact hround _ (Hnsw.meets_number hbest.meets)

/-- The whole of `p q r` hits nothing under `P`. Then `p q` is accepted, and closes its words, and
`q r` overlaps it and takes its place. -/
theorem scanChildren_selects_overlap : ∃ s children e,
    @Compiled ieee tiltSystem (siblingManifest "q" []) s ∧ MatchesParent s (CStr.ofString "p q r") ∧
      (@scanChildren ieee Unit tiltSystem.host s 1 3 (CStr.ofString "P")
        (CStr.ofString "p q r")).exec ⟨[], []⟩ = (.ok children, e) ∧
      children.map (·.span) = [CStr.ofString "q r"] ∧
      acceptedWindows (@Schema.childHit ieee tiltSystem.host s (@Hnsw.topOf ieee) s.nodeThreshold.le
        (CStr.ofString "P")) (CStr.ofString "p q r") = [⟨0, 1⟩, ⟨1, 2⟩] ∧
      @Schema.Selects ieee tiltSystem.host s (@Hnsw.topOf ieee) s.nodeThreshold.le
        (CStr.ofString "P") (CStr.ofString "p q r") children := by
  let accepts : Schema → Bool := fun s =>
    decide (acceptedWindows (@Schema.childHit ieee tiltSystem.host s (@Hnsw.topOf ieee)
      s.nodeThreshold.le (CStr.ofString "P")) (CStr.ofString "p q r") = [⟨0, 1⟩, ⟨1, 2⟩]) &&
        !s.nodeThreshold.isNaN
  obtain ⟨s, hcompiled, hemb, htest⟩ := compiles_runs (m := siblingManifest "q" [])
    (q := fun s => scansUnder (CStr.ofString "p q r")
      (fun found => decide (found.map (·.span) = [CStr.ofString "q r"])) s && accepts s)
        (by decide +kernel)
  obtain ⟨hruns, htest⟩ := (Bool.and_eq_true _ _).mp htest
  obtain ⟨haccepted, hthreshold⟩ := (Bool.and_eq_true _ _).mp htest
  obtain ⟨hmatches, hfound⟩ := scansUnder_of hruns
  obtain ⟨children, e, hscan, hspans⟩ := hfound
  refine ⟨s, children, e, hcompiled, hmatches, hscan, of_decide_eq_true hspans,
    of_decide_eq_true haccepted, ?_⟩
  have hcount : (describedBy s.emb (childNodes (siblingManifest "q" []).nodes)).length ≤ 1024 := by
    rw [hemb]
    decide +kernel
  have hlen : 3 < (Ngram.tokensOf s.options.separators (CStr.ofString "z p q r")).length := by
    change 3 < (Ngram.tokensOf Ngram.optionsDefault.separators (CStr.ofString "z p q r")).length
    decide +kernel
  obtain ⟨-, -, -, hselects⟩ := @scanChildren_selects ieee Unit tiltSystem.host s _ _
    (fun index hindex vec => @Compiled.search_topOf ieee _ _ _ hcompiled hcount _ hindex vec)
    (by simpa using hthreshold)
    (fun index hindex vec top => @Compiled.topOf_number ieee _ _ _ hcompiled hcount
      ieee_roundsNumbers _ hindex _ _)
    (CStr.ofString "z p q r") ⟨1, 3⟩ (by decide) hlen (CStr.ofString "P")
  have hseparators : s.options.separators = Ngram.optionsDefault.separators := rfl
  have htext : (Ngram.chunkOf (CStr.ofString "z p q r") (Ngram.tokensOf
      Ngram.optionsDefault.separators (CStr.ofString "z p q r")) ⟨1, 3⟩).text =
        CStr.ofString "p q r" := by decide +kernel
  rw [hseparators, htext] at hselects
  rw [@scanChildren_search ieee] at hscan
  exact (hselects.value (e := ⟨[], []⟩) rfl hscan).1

/-- Where an allocation fails, a child is not reported whose score reaches the threshold. -/
theorem scanChildren_unselected : ∃ s children e,
    @Compiled ieee tiltSystem (siblingManifest "x" []) s ∧ s.nodeThreshold.isNaN = false ∧
      (∀ index, s.index.childHnsw = some index → ∀ vec,
        Returns (@Hnsw.search ieee index vec 1 .zero) fun results =>
          results.head? = @Hnsw.topOf ieee index vec) ∧
      (@scanChildren ieee Unit tiltSystem.host s 1 1 (CStr.ofString "P")
        (CStr.ofString "p")).exec ⟨[false], []⟩ = (.ok children, e) ∧
      ¬ @Schema.Selects ieee tiltSystem.host s (@Hnsw.topOf ieee) s.nodeThreshold.le
        (CStr.ofString "P") (CStr.ofString "p") children := by
  let test : Schema → Bool := fun s =>
    let hit := @Schema.childHit ieee tiltSystem.host s (@Hnsw.topOf ieee) s.nodeThreshold.le
      (CStr.ofString "P")
    ((@scanChildren ieee Unit tiltSystem.host s 1 1 (CStr.ofString "P")
      (CStr.ofString "p")).value? ⟨[false], []⟩).any List.isEmpty &&
        !((acceptedWindows hit (CStr.ofString "p")).filterMap fun w =>
          (hit (textOf (CStr.ofString "p") w)).map Prod.fst).eraseDups.isEmpty &&
          !s.nodeThreshold.isNaN
  obtain ⟨s, hcompiled, hemb, htest⟩ := compiles_runs (m := siblingManifest "x" []) (q := test)
    (by decide +kernel)
  obtain ⟨htest, hthreshold⟩ := (Bool.and_eq_true _ _).mp htest
  obtain ⟨hempty, hids⟩ := (Bool.and_eq_true _ _).mp htest
  obtain ⟨children, e, hscan, hnil⟩ := exec_of_value? hempty
  refine ⟨s, children, e, hcompiled, by simpa using hthreshold, fun index hindex vec =>
    @Compiled.search_topOf ieee _ _ _ hcompiled (by rw [hemb]; decide +kernel) _ hindex vec, hscan,
    fun hselects => ?_⟩
  rw [← Selected.ids hselects, List.isEmpty_iff.mp hnil] at hids
  cases hids

end Ipa
