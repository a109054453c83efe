import Ipa.Hnsw.Level
import Ipa.Hnsw.Reach

/-!
# What a search answers

The results of a search stand for different items, each with its own score, best first. The scan
of a small index answers with the best of all the items that meet the threshold, the search of the
graph with items that the entry point reaches.
-/

namespace Ipa.Hnsw

open Run Relation

section Arithmetic

variable [Arith]

/-- The metric between a query and an item. -/
def metricValue (metric : Metric) (query : List Binary32) (item : Item) : Binary64 :=
  dist metric query (vectorNorm query) item.values (vectorNorm item.values)

/-- Each item carries the norm of its vector. -/
def Normed (hnsw : Index) : Prop := ∀ item ∈ hnsw.items, item.norm = vectorNorm item.values

/-! ## The norms -/

theorem Rebuilt.normed {hnsw hnsw' : Index} (h : Rebuilt hnsw hnsw') (hnormed : Normed hnsw) :
    Normed hnsw' := by
  intro item hitem
  have hbare := h.items.mem_iff.mp (List.mem_map_of_mem hitem)
  obtain ⟨old, hold, heq⟩ := List.mem_map.mp hbare
  have hnorm : old.bare.norm = item.bare.norm := congrArg Item.norm heq
  have hvalues : old.bare.values = item.bare.values := congrArg Item.values heq
  change old.norm = item.norm at hnorm
  change old.values = item.values at hvalues
  rw [← hnorm, ← hvalues]
  exact hnormed old hold

omit [Arith] in
theorem Resized.items {host : Host} {capacity : Nat} {hnsw hnsw' : Index}
    (h : Resized host capacity hnsw hnsw') : hnsw'.items ⊆ hnsw.items := by
  cases h with
  | enough _ => exact fun _ h => h
  | moved _ => exact List.take_subset _ _

omit [Arith] in
theorem Widened.items {host : Host} {hnsw hnsw' : Index} (h : Widened host hnsw hnsw') :
    hnsw'.items ⊆ hnsw.items := by
  obtain ⟨capacity, h⟩ := h.resized
  exact h.items

omit [Arith] in
theorem Index.push_items {hnsw : Index} {item new : Item} (h : item ∈ (hnsw.push new).items) :
    item ∈ hnsw.items ∨ item = new := by
  unfold Index.push at h
  split at h
  · exact (List.mem_append.mp h).imp_right List.mem_singleton.mp
  · exact .inl h

theorem call_normed (host : Host) {hnsw : Index} (h : Normed hnsw) (op : Op) :
    Keeps (fun _ => True) (fun _ => True) (call host hnsw op) fun r => Normed r.2 := by
  cases op with
  | build =>
    refine (settle_keeps (Y := fun _ => True) (build_keeps hnsw (.inr trivial))
      fun _ _ => trivial).mono ?_
    rintro ⟨status, hnsw'⟩ (⟨-, hbuilt⟩ | ⟨status, heq⟩)
    · exact hbuilt.normed h
    · cases heq
      exact h
  | reserve capacity =>
    refine (call_left (.reserve capacity) (.inr trivial)).mono ?_
    rintro ⟨status, hnsw'⟩ hleft
    cases hleft with
    | refused op status => exact h
    | reserved hsize => exact fun item hitem => h item (hsize.items hitem)
  | add id values =>
    refine (call_left (.add id values) (.inr trivial)).mono ?_
    rintro ⟨status, hnsw'⟩ hleft
    cases hleft with
    | refused op status => exact h
    | widened id values status hid hsize => exact fun item hitem => h item (hsize.items hitem)
    | added id values hid hsize room =>
      intro item hitem
      rcases Index.push_items hitem with hitem | rfl
      · exact h item (hsize.items hitem)
      · rfl

theorem reachable_normed {host : Host} {dimension : Nat} {metric : Metric} {s : Life}
    (h : (life host dimension metric).Reachable s) : Normed s.index := by
  refine h.invariant (fun s => Normed s.index) (fun s hs item hitem => ?_)
    fun s op s' hs _ hstep => ?_
  · rw [(life_start hs).2.1] at hitem
    cases hitem
  · obtain ⟨e, e', hrun⟩ := hstep
    have hlive : Keeps (fun _ => True) (fun _ => True) (liveOn host s op) fun s' =>
        Normed s'.index :=
      Keeps.bind (call_normed host hs op) fun r hr => Keeps.pure hr
    exact (hlive.value trivial hrun).1

/-! ## Answers -/

variable {hnsw : Index} {query : List Binary32}

/-- The results stand for the items at the positions `picked`, best first. -/
structure Answers (hnsw : Index) (query : List Binary32) (limit : Nat) (threshold : Binary64)
    (picked : List Nat) (results : List Result) : Prop where
  items : List.Forall₂ (fun i r => ∃ item, hnsw.items[i]? = some item ∧
    r = ⟨item.id, metricValue hnsw.metric query item⟩) picked results
  distinct : picked.Nodup
  few : results.length ≤ limit
  sorted : results.Pairwise fun a b => scoreBetter hnsw.metric b.score a.score = false
  meets : ∀ r ∈ results, meets hnsw.metric threshold r = true

omit [Arith] in
theorem scoreBetter_eq_scoreWorse (metric : Metric) (a b : Binary64) :
    scoreBetter metric a b = scoreWorse metric b a := by
  cases metric <;> rfl

/-- A score array of different items, each with its own score. -/
structure Scored (hnsw : Index) (query : List Binary32) (l : List NodeScore) : Prop where
  distinct : (l.map (·.idx)).Nodup
  score : ∀ r ∈ l, r.idx < hnsw.items.length ∧ r.score = scoreAt hnsw query (vectorNorm query) r.idx

theorem Scored.perm {l l' : List NodeScore} (h : Scored hnsw query l) (hperm : l'.Perm l) :
    Scored hnsw query l' :=
  ⟨(hperm.map _).nodup_iff.mpr h.distinct, fun r hr => h.score r (hperm.mem_iff.mp hr)⟩

theorem Scored.result {l : List NodeScore} (h : Scored hnsw query l) (hnormed : Normed hnsw)
    {r : NodeScore} (hr : r ∈ l) : ∃ item, hnsw.items[r.idx]? = some item ∧
      resultOf hnsw r = ⟨item.id, metricValue hnsw.metric query item⟩ := by
  obtain ⟨hlt, hscore⟩ := h.score r hr
  have hitem : hnsw.items[r.idx]? = some hnsw.items[r.idx] := List.getElem?_eq_getElem hlt
  refine ⟨_, hitem, ?_⟩
  have hnorm := hnormed _ (List.getElem_mem hlt)
  rw [resultOf, hscore, scoreAt, hitem]
  simp only [Option.map_some, Option.getD_some, itemScore, metricValue, hnorm]

/-- The entries that meet the threshold, as many as fit. -/
def selected (hnsw : Index) (limit : Nat) (threshold : Binary64) (l : List NodeScore) :
    List NodeScore :=
  (l.filter fun r => meets hnsw.metric threshold (resultOf hnsw r)).take limit

omit [Arith] in
theorem map_selected (limit : Nat) (threshold : Binary64) (l : List NodeScore) :
    (selected hnsw limit threshold l).map (resultOf hnsw) =
      ((l.map (resultOf hnsw)).filter (meets hnsw.metric threshold)).take limit := by
  rw [selected, List.map_take, List.filter_map]
  rfl

theorem Scored.answers {l : List NodeScore} (h : Scored hnsw query l) (hnormed : Normed hnsw)
    (hsorted : l.Pairwise fun a b => scoreWorse hnsw.metric a.score b.score = false) (limit : Nat)
    (threshold : Binary64) :
    Answers hnsw query limit threshold ((selected hnsw limit threshold l).map (·.idx))
      ((selected hnsw limit threshold l).map (resultOf hnsw)) := by
  have hsub : (selected hnsw limit threshold l).Sublist l :=
    (List.take_sublist _ _).trans List.filter_sublist
  refine ⟨?_, (hsub.map _).nodup h.distinct, ?_, ?_, fun r hr => ?_⟩
  · rw [List.forall₂_map_left_iff, List.forall₂_map_right_iff]
    refine List.forall₂_same.mpr fun r hr => ?_
    exact h.result hnormed (hsub.subset hr)
  · rw [List.length_map]
    exact List.length_take_le _ _
  · rw [List.pairwise_map]
    refine (hsorted.sublist hsub).imp fun {a b} hab => ?_
    rw [scoreBetter_eq_scoreWorse]
    exact hab
  · obtain ⟨x, hx, rfl⟩ := List.mem_map.mp hr
    exact (List.mem_filter.mp (List.mem_of_mem_take hx)).2

/-! ## The scan -/

/-- The answers of a scan: as many as fit, and nothing better is left out. -/
structure BestAnswers (hnsw : Index) (query : List Binary32) (limit : Nat) (threshold : Binary64)
    (picked : List Nat) (results : List Result) : Prop extends
    Answers hnsw query limit threshold picked results where
  length : results.length = min limit (hnsw.items.countP fun item =>
    Hnsw.meets hnsw.metric threshold ⟨item.id, metricValue hnsw.metric query item⟩)
  rest : ∀ i item, hnsw.items[i]? = some item → i ∉ picked →
    Hnsw.meets hnsw.metric threshold ⟨item.id, metricValue hnsw.metric query item⟩ = true →
      ∀ r ∈ results, scoreBetter hnsw.metric (metricValue hnsw.metric query item) r.score = false

/-- The score array of the scan, by descending rank. -/
def rankAll (hnsw : Index) (query : List Binary32) : List NodeScore :=
  Exchange.sort (fun a b => scoreWorse hnsw.metric a.score b.score)
    (scoreAll hnsw query (vectorNorm query))

theorem rankAll_perm (hnsw : Index) (query : List Binary32) :
    (rankAll hnsw query).Perm (scoreAll hnsw query (vectorNorm query)) :=
  Exchange.sort_perm _ _

omit [Arith] in
theorem ranked_pairwise (metric : Metric) (l : List NodeScore) :
    (Exchange.sort (fun a b : NodeScore => scoreWorse metric a.score b.score) l).Pairwise
      fun a b => scoreWorse metric a.score b.score = false := by
  have hasymm : ∀ a b : NodeScore, scoreWorse metric a.score b.score = true →
      scoreWorse metric b.score a.score = false := fun _ _ => scoreWorse_asymm metric
  have htrans : ∀ a b c : NodeScore, scoreWorse metric a.score b.score = true →
      scoreWorse metric b.score c.score = true → scoreWorse metric a.score c.score = true :=
    fun _ _ _ => scoreWorse_trans metric
  exact Exchange.sort_pairwise hasymm htrans l

theorem map_rankAll : (rankAll hnsw query).map (resultOf hnsw) = ranking hnsw query := by
  rw [ranking, ← map_scoreAll, Exchange.sort_map]
  rfl

theorem map_idx_scoreAll : (scoreAll hnsw query (vectorNorm query)).map (·.idx) =
    List.range hnsw.items.length := by
  apply List.ext_getElem
  · simp [scoreAll, hnsw.length_le_count]
  · intro i h _
    simp [scoreAll]

theorem scored_scoreAll : Scored hnsw query (scoreAll hnsw query (vectorNorm query)) := by
  refine ⟨?_, fun r hr => ⟨mem_scoreAll hr, ?_⟩⟩
  · rw [map_idx_scoreAll]
    exact List.nodup_range
  · obtain ⟨i, hi, rfl⟩ := List.getElem_of_mem hr
    have hlt : i < hnsw.items.length := by simpa [scoreAll, Index.count] using hi
    simp [scoreAll, scoreAt, List.getElem?_eq_getElem hlt, itemScore]

/-- **The scan** answers with the best of the items that meet the threshold. -/
theorem rankAll_best (hnormed : Normed hnsw) (limit : Nat) (threshold : Binary64) :
    BestAnswers hnsw query limit threshold
      ((selected hnsw limit threshold (rankAll hnsw query)).map (·.idx))
      ((selected hnsw limit threshold (rankAll hnsw query)).map (resultOf hnsw)) := by
  have hscored := scored_scoreAll.perm (rankAll_perm hnsw query)
  have hsorted : (rankAll hnsw query).Pairwise _ := ranked_pairwise hnsw.metric _
  refine ⟨hscored.answers hnormed hsorted limit threshold, ?_, fun i item hitem hout hmeets r hr => ?_⟩
  · have hitems : (scored hnsw query).countP (meets hnsw.metric threshold) =
        hnsw.items.countP fun item =>
          meets hnsw.metric threshold ⟨item.id, metricValue hnsw.metric query item⟩ := by
      rw [scored, List.countP_map]
      refine List.countP_congr fun item hitem => ?_
      simp only [Function.comp_apply, itemScore, metricValue, hnormed item hitem]
    rw [List.length_map, selected, List.length_take, ← List.countP_eq_length_filter,
      (rankAll_perm hnsw query).countP_eq, ← hitems, ← map_scoreAll, List.countP_map]
    rfl
  · obtain ⟨hlt, -⟩ := List.getElem?_eq_some_iff.mp hitem
    have hin : i ∈ (rankAll hnsw query).map (·.idx) := by
      rw [((rankAll_perm hnsw query).map _).mem_iff, map_idx_scoreAll]
      exact List.mem_range.mpr hlt
    obtain ⟨x, hx, rfl⟩ := List.mem_map.mp hin
    obtain ⟨item', hitem', hresult⟩ := hscored.result hnormed hx
    rw [hitem] at hitem'
    cases hitem'
    obtain ⟨y, hy, rfl⟩ := List.mem_map.mp hr
    have hworse := Exchange.take_of_pairwise (hsorted.sublist List.filter_sublist)
      (List.mem_filter.mpr ⟨hx, by rw [hresult]; exact hmeets⟩)
      (fun hkept => hout (List.mem_map_of_mem hkept)) hy
    have hscore : x.score = metricValue hnsw.metric query item := congrArg Result.score hresult
    rw [scoreBetter_eq_scoreWorse, ← hscore]
    exact hworse

/-- A built index, as `build` leaves it: its array holds all its items, and with items there is an
entry point. -/
structure Built (hnsw : Index) : Prop where
  whole : hnsw.lost = 0
  entry : hnsw.count ≠ 0 → hnsw.entryPointSet = true

/-- What a build leaves is built. -/
theorem built_of_build {hnsw' : Index} {e e' : Env} (h : (build hnsw).exec e = (.ok hnsw', e')) :
    Built hnsw' := by
  have hserves : Serves (fun _ => True) (fun _ => True) Status.enomem :=
    serves_of_fail (fun _ _ h => h) trivial
  obtain ⟨-, hbuilt⟩ := ((build_spec (I := fun _ => True) (X := fun _ => True) hnsw
    (.inr trivial)).value trivial h).1
  split at hbuilt
  · rename_i hzero
    rw [hbuilt]
    unfold Index.count at hzero
    exact ⟨by omega, fun hcount => absurd (show hnsw.count = 0 from hzero) hcount⟩
  · rename_i hcount
    obtain ⟨hset, hsound⟩ := hbuilt.sound hcount
    exact ⟨hsound.whole, fun _ => hset⟩

theorem reachable_ready {host : Host} {dimension : Nat} {metric : Metric} {s : Life}
    (h : (life host dimension metric).Reachable s) (hbuilt : Built s.index) : Ready s.index := by
  by_cases hzero : s.index.count = 0
  · have hnil : s.index.items = [] :=
      List.length_eq_zero_iff.mp (Nat.le_zero.mp (hzero ▸ s.index.length_le_count))
    refine ⟨hbuilt.whole, fun idx level list hlist => ?_, fun hpos => absurd hzero (by omega)⟩
    rw [hnil] at hlist
    cases hlist
  · exact (reachable_graphKept h hbuilt.whole (hbuilt.entry hzero)).2.ready (hbuilt.entry hzero)

/-- **A search** of a built index of at most 1024 items, under any allocator. -/
theorem search_answers {host : Host} {dimension : Nat} {metric : Metric} {s : Life}
    (h : (life host dimension metric).Reachable s) (hbuilt : Built s.index)
    (hcount : s.index.count ≤ 1024)
    (query : List Binary32) (limit : Nat) (threshold : Binary64) (e : Env) :
    (∃ picked results e', (search s.index query limit threshold).exec e = (.ok results, e') ∧
      BestAnswers s.index query limit threshold picked results) ∨
    (false ∈ e.allocs ∧
      ∃ e', (search s.index query limit threshold).exec e = (.error (.fail .enomem), e')) := by
  have hready := reachable_ready h hbuilt
  have hkeeps := @search_keeps _ s.index query (Within e.allocs) (FailsWithin e.allocs .enomem) _
    hready hcount limit threshold
  rcases hkeeps.returns_or_fails with ⟨results, e', hrun, rfl⟩ | hfails
  · have hbest := @rankAll_best _ s.index query (reachable_normed h) limit threshold
    rw [map_selected, map_rankAll] at hbest
    exact .inl ⟨_, _, e', hrun, hbest⟩
  · exact .inr hfails

/-! ## The search of the graph -/

variable {I : Env → Prop} {X : Stop Status → Prop} [Serves I X Status.enomem]

omit [Serves I X Status.enomem] in
/-- The results popped are those of the heap, with their scores. -/
theorem popResults_perm {queryNorm : Binary64} : ∀ (n : Nat) {heap : Heap}, heap.size = n →
    (∀ x ∈ heap.data, Placed hnsw.items x.idx 0) →
      Keeps I X (popResults hnsw query queryNorm n heap) fun results =>
        (results.map (·.idx)).Perm (heap.data.map (·.idx)) ∧
          ∀ r ∈ results, r.score = scoreAt hnsw query queryNorm r.idx
  | 0, heap, hsize, _ => by
    refine Keeps.pure ⟨?_, fun r hr => by cases hr⟩
    rw [List.length_eq_zero_iff.mp hsize]
  | n + 1, heap, hsize, hplaced => by
    unfold popResults
    have hpop : Popped heap (heapPop heap) := heapPop_popped (by omega)
    have hpopsize := hpop.size
    rcases hheap : heapPop heap with ⟨top, rest⟩
    rw [hheap] at hpop hpopsize
    simp only at hpopsize ⊢
    have htop := hplaced top (hpop.data.mem_iff.mpr List.mem_cons_self)
    rw [distTo_scoreAt hnsw query queryNorm htop, pure_bind]
    refine Keeps.bind (popResults_perm n (by omega) fun x hx => hplaced x
      (hpop.data.mem_iff.mpr (List.mem_cons_of_mem _ hx))) ?_
    rintro results ⟨hperm, hscore⟩
    refine Keeps.pure ⟨?_, fun r hr => ?_⟩
    · rw [List.map_cons]
      exact (hperm.cons top.idx).trans (hpop.data.map _).symm
    · rcases List.mem_cons.mp hr with rfl | hr
      · rfl
      · exact hscore r hr

theorem scoreAt_metricValue (hnormed : Normed hnsw) {idx : Nat} {item : Item}
    (hitem : hnsw.items[idx]? = some item) :
    scoreAt hnsw query (vectorNorm query) idx = metricValue hnsw.metric query item := by
  rw [scoreAt, hitem, Option.map_some, Option.getD_some, itemScore, metricValue,
    hnormed item (List.mem_of_getElem? hitem)]

omit [Arith] in
/-- The budget of a search is at least 64. -/
theorem searchBudget_ge (hnsw : Index) (limit : Nat) : 64 ≤ searchBudget hnsw limit := by
  unfold searchBudget
  simp only
  split <;> omega

/-- The part of `search` from the entry point to the score array. -/
def searchGraph (hnsw : Index) (query : List Binary32) (ef : Nat) : Run Status (List NodeScore) := do
  let s ← distTo hnsw query (vectorNorm query) hnsw.entryPointIdx
  let d ← descend hnsw query (vectorNorm query) 0 hnsw.maxLevel.toNat
    ⟨hnsw.entryPointIdx, s, true⟩
  let topK ← heapCreate ef hnsw.metric true
  let topK ← searchLevel hnsw query (vectorNorm query) d.idx 0 ef topK
  allocOr .enomem
  popResults hnsw query (vectorNorm query) topK.size topK

theorem searchGraph_keeps (hready : Ready hnsw) (hcount : 0 < hnsw.count) (hnormed : Normed hnsw)
    (hnumbers : ∀ item ∈ hnsw.items, (metricValue hnsw.metric query item).isNaN = false)
    {ef : Nat} (hef : 1 ≤ ef) :
    Keeps I X (searchGraph hnsw query ef) fun l =>
      (Scored hnsw query l ∧ l.length ≤ ef) ∧
        ∀ r ∈ l, ReflTransGen (Edge hnsw.items) hnsw.entryPointIdx r.idx := by
  obtain ⟨-, top, hmax, hentry⟩ := hready.entry hcount
  obtain ⟨entry, hentry?⟩ := hentry.getElem?
  have hclosed : Closed hnsw.items (ReflTransGen (Edge hnsw.items) hnsw.entryPointIdx) :=
    fun idx level list hidx hlist e he => hidx.tail ⟨level, list, hlist, he⟩
  unfold searchGraph
  rw [distTo_eq hentry?, pure_bind, hmax]
  refine Keeps.bind (descend_inside hready.linked hclosed 0 _
    ⟨(Nat.zero_add _).symm ▸ hentry, entry, hentry?, rfl⟩ .refl) ?_
  rintro d ⟨hd, hreached⟩
  unfold heapCreate
  simp only [bind_assoc, pure_bind]
  refine Keeps.bind Keeps.allocOr fun _ _ => Keeps.bind Keeps.allocOr fun _ _ => ?_
  have hinside := hready.linked.reachedAt hd.placed
  have hscores : ∀ v, ReachedAt hnsw.items 0 d.idx v →
      (scoreAt hnsw query (vectorNorm query) v).isNaN = false := by
    intro v hv
    obtain ⟨item, hitem⟩ := (hinside.placed v hv).getElem?
    rw [scoreAt_metricValue hnormed hitem]
    exact hnumbers item (List.mem_of_getElem? hitem)
  refine Keeps.bind (searchLevel_examined hready.linked hd.placed hef hscores rfl rfl rfl) ?_
  rintro topK ⟨examined, hbest⟩
  have hin : ∀ v ∈ topK.data.map (·.idx), ReachedAt hnsw.items 0 d.idx v := by
    intro v hv
    obtain ⟨x, hx, rfl⟩ := List.mem_map.mp hv
    exact hbest.reached _ (hbest.exact x hx).1
  refine Keeps.bind Keeps.allocOr fun _ _ => ?_
  refine (popResults_perm _ rfl fun x hx =>
    hinside.placed _ (hin _ (List.mem_map_of_mem hx))).mono ?_
  rintro l ⟨hperm, hscore⟩
  have hlin : ∀ r ∈ l, ReachedAt hnsw.items 0 d.idx r.idx :=
    fun r hr => hin _ (hperm.mem_iff.mp (List.mem_map_of_mem hr))
  refine ⟨⟨⟨hperm.nodup_iff.mpr hbest.distinct, fun r hr => ⟨?_, hscore r hr⟩⟩, ?_⟩, fun r hr => ?_⟩
  · exact (hinside.placed _ (hlin r hr)).lt
  · have hlen : l.length = topK.size := by simpa [Heap.size] using hperm.length_eq
    have hsize := hbest.size
    omega
  · exact hreached.trans (ReflTransGen.mono (fun _ _ => BaseEdge.edge) _ _ (hlin r hr))

theorem searchGraph_answers (hready : Ready hnsw) (hnormed : Normed hnsw)
    (hnumbers : ∀ item ∈ hnsw.items, (metricValue hnsw.metric query item).isNaN = false)
    {limit : Nat} (hlarge : 1024 < hnsw.count) (hbudget : searchBudget hnsw limit < hnsw.count)
    (threshold : Binary64) :
    Keeps I X (search hnsw query limit threshold) fun results =>
      (results.length : Int) ≤ searchBudget hnsw limit ∧
      ∃ picked, Answers hnsw query limit threshold picked results ∧
        ∀ i ∈ picked, ReflTransGen (Edge hnsw.items) hnsw.entryPointIdx i := by
  have hef := searchBudget_ge hnsw limit
  unfold search
  split
  · exact Keeps.pure ⟨by simp; omega, [], ⟨.nil, List.nodup_nil, Nat.zero_le _, .nil,
      fun r hr => by cases hr⟩, fun i hi => by cases hi⟩
  obtain ⟨hset, -⟩ := hready.entry (by omega)
  rw [if_neg (by simp [hset])]
  extract_lets ef queryNorm select
  have hselect : ∀ l : List NodeScore, (Scored hnsw query l ∧ l.length ≤ ef) ∧
      (∀ r ∈ l, ReflTransGen (Edge hnsw.items) hnsw.entryPointIdx r.idx) →
      Keeps I X (select l) fun results => (results.length : Int) ≤ searchBudget hnsw limit ∧
        ∃ picked, Answers hnsw query limit threshold picked results ∧
          ∀ i ∈ picked, ReflTransGen (Edge hnsw.items) hnsw.entryPointIdx i := by
    rintro l ⟨⟨hscored, hlen⟩, hreached⟩
    have hperm := Exchange.sort_perm (fun a b => scoreWorse hnsw.metric a.score b.score) l
    have hranked := hscored.perm hperm
    have hanswers := hranked.answers hnormed (ranked_pairwise hnsw.metric l) limit threshold
    simp only [select]
    rw [selectResults_eq threshold _ _ fun r hr => (hranked.score r hr).1, ← map_selected]
    have hsub : (selected hnsw limit threshold (Exchange.sort
        (fun a b => scoreWorse hnsw.metric a.score b.score) l)).Sublist _ :=
      (List.take_sublist _ _).trans List.filter_sublist
    refine Keeps.pure ⟨?_, _, hanswers, fun i hi => ?_⟩
    · have := hsub.length_le
      rw [hperm.length_eq] at this
      rw [List.length_map]
      omega
    · obtain ⟨r, hr, rfl⟩ := List.mem_map.mp hi
      exact hreached r (hperm.mem_iff.mp (hsub.subset hr))
  rw [if_neg (by omega)]
  have hef' : 1 ≤ ef := by omega
  have hgraph := Keeps.bind (searchGraph_keeps (I := I) (X := X) hready (by omega) hnormed hnumbers
    hef') hselect
  simp only [searchGraph, bind_assoc] at hgraph
  exact hgraph

omit [Serves I X Status.enomem] in
/-- **A search** of the graph of a sound index, under any allocator. -/
theorem search_graph_answers (hset : hnsw.entryPointSet = true) (hsound : GraphSound hnsw)
    (hnormed : Normed hnsw) (query : List Binary32)
    (hnumbers : ∀ item ∈ hnsw.items, (metricValue hnsw.metric query item).isNaN = false)
    (limit : Nat) (hlarge : 1024 < hnsw.count) (hbudget : searchBudget hnsw limit < hnsw.count)
    (threshold : Binary64) (e : Env) :
    (∃ picked results e', (search hnsw query limit threshold).exec e = (.ok results, e') ∧
      Answers hnsw query limit threshold picked results ∧
        ∀ i ∈ picked, ReflTransGen (Edge hnsw.items) hnsw.entryPointIdx i) ∨
    (false ∈ e.allocs ∧
      ∃ e', (search hnsw query limit threshold).exec e = (.error (.fail .enomem), e')) := by
  have hkeeps := searchGraph_answers (I := Within e.allocs) (X := FailsWithin e.allocs .enomem)
    (hsound.ready hset) hnormed hnumbers hlarge hbudget threshold
  rcases hkeeps.returns_or_fails with ⟨results, e', hrun, -, picked, hanswers, hreached⟩ | hfails
  · exact .inl ⟨picked, results, e', hrun, hanswers, hreached⟩
  · exact .inr hfails

end Arithmetic

theorem search_answers_two : ∃ (s : Life) (picked : List Nat) (results : List Result) (e' : Env),
    (@life ieee ⟨.w64, .little⟩ 1 .cosine).Reachable s ∧
    (@search ieee s.index [⟨0x3F800000⟩] 5 .zero).exec ⟨[], []⟩ = (.ok results, e') ∧
    @BestAnswers ieee s.index [⟨0x3F800000⟩] 5 .zero picked results := by
  obtain ⟨s, e', hrun, hq⟩ := exec_of_value?
    (x := @liveThrough ieee ⟨.w64, .little⟩ 1 .cosine 1 anyCall twoBuilt) (e := ⟨[], []⟩)
    (q := fun s => decide (s.index.entryPointSet = true ∧ s.index.lost = 0 ∧ s.index.count = 2))
    (by decide +kernel)
  obtain ⟨hset, hlost, hcount⟩ := of_decide_eq_true hq
  have hreached := (@liveThrough_reached ieee _ _ _ _ _ _ s _ _ hrun).reachable
  rcases @search_answers ieee _ _ _ s hreached ⟨hlost, fun _ => hset⟩ (by omega) [⟨0x3F800000⟩] 5 .zero
    ⟨[], []⟩ with ⟨picked, results, e'', hsearch, hbest⟩ | ⟨hfalse, -⟩
  · exact ⟨s, picked, results, e'', hreached, hsearch, hbest⟩
  · cases hfalse

/-! ## Many items that are alike -/

/-- An opened index with room for `n` items, and `k` copies of one item. -/
def copies (n k : Nat) : Index :=
  { opened with
    slots := n, capacity := n
    items := List.replicate k (@freshItem ieee (CStr.ofString "a") [⟨0x3F800000⟩]) }

theorem copies_succ (n k : Nat) : copies n (k + 1) = { copies n k with
    items := (copies n k).items ++ [@freshItem ieee (CStr.ofString "a") [⟨0x3F800000⟩]] } := by
  simp only [copies, List.replicate_succ']

theorem add_copies {n k : Nat} (h : k < n) : (@call ieee ⟨.w64, .little⟩ (copies n k)
    (.add (CStr.ofString "a") [⟨0x3F800000⟩])).exec ⟨[], []⟩ =
      (.ok (none, copies n (k + 1)), ⟨[], []⟩) := by
  have hcount : (copies n k).count = k := List.length_replicate
  have hgrow : growFor ⟨.w64, .little⟩ (copies n k) = pure (copies n k) := by
    unfold growFor
    rw [if_neg (by rw [hcount]; exact Nat.ne_of_lt h)]
  have happend : (@appendItem ieee ⟨.w64, .little⟩ (copies n k) (CStr.ofString "a")
      [⟨0x3F800000⟩]).exec ⟨[], []⟩ = (.ok (copies n (k + 1)), ⟨[], []⟩) := by
    have hbytes : ¬ Host.size ⟨.w64, .little⟩ ((copies n k).dimension * 4) <
        (copies n k).dimension * 4 := show ¬ Host.size ⟨.w64, .little⟩ (1 * 4) < 1 * 4 by decide
    have hroom : ¬ (copies n k).slots ≤ (copies n k).count := by
      rw [hcount]
      exact Nat.not_le.mpr h
    unfold appendItem
    rw [if_neg hbytes, if_neg hroom, copies_succ]
    rfl
  have hid : (CStr.ofString "a").bytes.isEmpty = false := by decide
  simp only [call, hid, Bool.false_eq_true, ite_false, settle, hgrow, exec_bind, exec_catching,
    exec_pure, happend]

theorem reserve_copies {n : Nat} (h : n * 40 < 2 ^ 64) :
    (reserve ⟨.w64, .little⟩ opened n).exec ⟨[], []⟩ = (.ok (copies n 0), ⟨[], []⟩) := by
  unfold reserve reserveLocked
  split
  · rename_i hzero
    have hzero : n = 0 := Nat.le_zero.mp hzero
    subst hzero
    rfl
  · have hslots : slotsFor ⟨.w64, .little⟩ n = n := by
      have hbytes : n * itemSize ⟨.w64, .little⟩ < Host.sizeMod ⟨.w64, .little⟩ := h
      unfold slotsFor
      rw [Host.size_of_lt hbytes]
      exact Nat.mul_div_cancel n (by decide)
    rw [if_neg fun hzero => hzero.2 rfl, hslots, Index.cut_of_le (Nat.zero_le n)]
    rfl

/-- A built index of copies of one item. -/
theorem reachable_copies {n : Nat} (h : n * 40 < 2 ^ 64) : ∃ s : Life,
    (@life ieee ⟨.w64, .little⟩ 1 .cosine).Reachable s ∧ s.index.count = n ∧
      Built s.index ∧ s.index.metric = .cosine ∧
        s.index.efSearch = 64 ∧ ∀ item ∈ s.index.items, item.values = [⟨0x3F800000⟩] := by
  have hadded : ∀ k, k ≤ n → ∃ stale,
      (@life ieee ⟨.w64, .little⟩ 1 .cosine).Reachable ⟨copies n k, stale⟩ := by
    intro k hk
    induction k with
    | zero =>
      have hstart : (@life ieee ⟨.w64, .little⟩ 1 .cosine).Reachable ⟨opened, false⟩ :=
        .start ⟨rfl, none, 1, ⟨[], []⟩, _, rfl⟩
      refine ⟨false, hstart.step (a := .reserve n) trivial ⟨⟨[], []⟩, ⟨[], []⟩, ?_⟩⟩
      simp only [liveOn, call, settle, exec_bind, exec_catching, reserve_copies h, exec_pure]
      rfl
    | succ k ih =>
      obtain ⟨stale, hreached⟩ := ih (Nat.le_of_succ_le hk)
      refine ⟨true, hreached.step (a := .add (CStr.ofString "a") [⟨0x3F800000⟩]) trivial
        ⟨⟨[], []⟩, ⟨[], []⟩, ?_⟩⟩
      unfold liveOn
      rw [exec_bind, add_copies hk]
      rfl
  obtain ⟨stale, hreached⟩ := hadded n (Nat.le_refl n)
  obtain ⟨hnsw, e', hrun, -, hbuilt⟩ := Returns.exec (e := ⟨[], []⟩)
    (@build_keeps ieee Quiet (fun _ => False) _ (copies n n) (.inl rfl)) rfl
  have hcount : hnsw.count = n := hbuilt.count.trans List.length_replicate
  have hstep : (@life ieee ⟨.w64, .little⟩ 1 .cosine).Reachable ⟨hnsw, false⟩ := by
    refine hreached.step (a := .build) trivial ⟨⟨[], []⟩, e', ?_⟩
    simp only [liveOn, call, settle, exec_bind, exec_catching, hrun, exec_pure]
    rfl
  refine ⟨⟨hnsw, false⟩, hstep, hcount, @built_of_build ieee _ _ _ _ hrun, hbuilt.metric,
    hbuilt.efSearch, ?_⟩
  · intro item hitem
    obtain ⟨old, hold, heq⟩ := List.mem_map.mp (hbuilt.items.mem_iff.mp (List.mem_map_of_mem hitem))
    have hvalues : old.bare.values = item.bare.values := congrArg Item.values heq
    change old.values = item.values at hvalues
    rw [← hvalues, List.eq_of_mem_replicate hold]
    rfl

theorem metricValue_copy {item : Item} (h : item.values = [⟨0x3F800000⟩]) :
    @metricValue ieee .cosine [⟨0x3F800000⟩] item = ⟨0x3FF0000000000000⟩ := by
  unfold metricValue
  rw [h]
  decide +kernel

theorem search_graph_answers_copies : ∃ (s : Life) (picked : List Nat) (results : List Result)
    (e' : Env), s.index.count = 1025 ∧
    (@search ieee s.index [⟨0x3F800000⟩] 10 .zero).exec ⟨[], []⟩ = (.ok results, e') ∧
    @Answers ieee s.index [⟨0x3F800000⟩] 10 .zero picked results := by
  obtain ⟨s, hreached, hcount, hbuilt, hmetric, hef, hvalues⟩ :=
    reachable_copies (n := 1025) (by omega)
  have hset := hbuilt.entry (by omega)
  have hsound := (@reachable_graphKept ieee _ _ _ s hreached hbuilt.whole hset).2
  have hbudget : searchBudget s.index 10 < s.index.count := by
    rw [searchBudget, hef, hcount]
    decide
  rcases @search_graph_answers ieee s.index hset hsound (@reachable_normed ieee _ _ _ s hreached)
    [⟨0x3F800000⟩] (fun item hitem => by rw [hmetric, metricValue_copy (hvalues item hitem)]; decide)
    10 (by omega) hbudget .zero ⟨[], []⟩ with
    ⟨picked, results, e', hsearch, hanswers, -⟩ | ⟨hfalse, -⟩
  · exact ⟨s, picked, results, e', hcount, hsearch, hanswers⟩
  · cases hfalse

end Ipa.Hnsw
