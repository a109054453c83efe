import Ipa.Hnsw.Build

/-!
# The search is exact on small indexes

An index of at most 1024 items is scanned in full: the search returns the first `limit` of the
items that meet the threshold, in the order of their scores. With a limit of one that is an item
with the best score of all, or nothing when no score meets the threshold.
-/

namespace Ipa.Hnsw

open Run

/-- The comparison with the threshold. -/
def meets (metric : Metric) (threshold : Binary64) (result : Result) : Bool :=
  match metric with
  | .l2 => result.score.le threshold
  | _ => threshold.le result.score

theorem scoreWorse_asymm (metric : Metric) {a b : Binary64} (h : scoreWorse metric a b = true) :
    scoreWorse metric b a = false := by
  cases metric <;> exact Binary64.lt_asymm h

theorem scoreWorse_trans (metric : Metric) {a b c : Binary64} (hab : scoreWorse metric a b = true)
    (hbc : scoreWorse metric b c = true) : scoreWorse metric a c = true := by
  cases metric
  · exact Binary64.lt_trans hab hbc
  · exact Binary64.lt_trans hab hbc
  · exact Binary64.lt_trans hbc hab

/-- What is better than a score that meets the threshold meets it. -/
theorem meets_of_scoreWorse {metric : Metric} {threshold : Binary64} {a b : Result}
    (ha : meets metric threshold a = true) (hab : scoreWorse metric a.score b.score = true) :
    meets metric threshold b = true := by
  cases metric
  · exact Binary64.le_trans ha (Binary64.le_of_lt hab)
  · exact Binary64.le_trans ha (Binary64.le_of_lt hab)
  · exact Binary64.le_trans (Binary64.le_of_lt hab) ha

/-- A score that meets a threshold is a number. -/
theorem meets_number {metric : Metric} {threshold : Binary64} {result : Result}
    (h : meets metric threshold result = true) : result.score.isNaN = false := by
  unfold meets at h
  split at h
  · exact (Binary64.numbers_of_le h).1
  · exact (Binary64.numbers_of_le h).2

section Arithmetic

variable [Arith] {hnsw : Index} {query : List Binary32}
variable {I : Env → Prop} {X : Stop Status → Prop} [Serves I X Status.enomem]

/-- The items as results, in their order. -/
def scored (hnsw : Index) (query : List Binary32) : List Result :=
  hnsw.items.map fun item => ⟨item.id, itemScore hnsw.metric query (vectorNorm query) item⟩

/-- The items as results, by descending rank. -/
def ranking (hnsw : Index) (query : List Binary32) : List Result :=
  Exchange.sort (fun a b => scoreWorse hnsw.metric a.score b.score) (scored hnsw query)

/-- The result that an entry of the score array stands for. -/
def resultOf (hnsw : Index) (r : NodeScore) : Result :=
  ⟨(hnsw.items[r.idx]?.map (·.id)).getD CStr.empty, r.score⟩

omit [Arith] in
theorem selectResults_eq (threshold : Binary64) : ∀ (l : List NodeScore) (left : Nat),
    (∀ r ∈ l, r.idx < hnsw.items.length) →
      selectResults hnsw threshold l left =
        pure (((l.map (resultOf hnsw)).filter (meets hnsw.metric threshold)).take left)
  | [], _, _ => by simp [selectResults]
  | _ :: _, 0, _ => by simp [selectResults]
  | r :: rest, left + 1, h => by
    have hr := h r List.mem_cons_self
    have hrest := fun x hx => h x (List.mem_cons_of_mem _ hx)
    have hitem : hnsw.items[r.idx]? = some hnsw.items[r.idx] := List.getElem?_eq_getElem hr
    have hresult : resultOf hnsw r = ⟨hnsw.items[r.idx].id, r.score⟩ := by
      rw [resultOf, hitem]
      rfl
    rw [selectResults, itemAt_eq hitem, pure_bind, List.map_cons, List.filter_cons]
    simp only [selectResults_eq threshold rest left hrest,
      selectResults_eq threshold rest (left + 1) hrest, hresult]
    change (if meets hnsw.metric threshold ⟨hnsw.items[r.idx].id, r.score⟩ = true then _ else _) = _
    by_cases hmeets : meets hnsw.metric threshold ⟨hnsw.items[r.idx].id, r.score⟩ = true
    · rw [if_pos hmeets, if_pos hmeets]
      rfl
    · rw [if_neg hmeets, if_neg hmeets]

omit [Arith] in
theorem selectResults_meets (threshold : Binary64) : ∀ (l : List NodeScore) (left : Nat),
    Keeps (fun _ => True) (fun _ => True) (selectResults hnsw threshold l left)
      fun results => ∀ r ∈ results, meets hnsw.metric threshold r = true
  | [], _ => Keeps.pure fun r hr => by cases hr
  | _ :: _, 0 => Keeps.pure fun r hr => by cases hr
  | r :: rest, left + 1 => by
    rw [selectResults]
    refine Keeps.bind (Keeps.trivially _) fun item _ => ?_
    change Keeps _ _ (if meets hnsw.metric threshold ⟨item.id, r.score⟩ = true then _ else _) _
    split
    · rename_i hmet
      refine Keeps.bind (selectResults_meets threshold rest left) fun results hresults => ?_
      refine Keeps.pure fun r' hr' => ?_
      rcases List.mem_cons.mp hr' with rfl | hr'
      · exact hmet
      · exact hresults r' hr'
    · exact selectResults_meets threshold rest (left + 1)

omit [Serves I X Status.enomem] in
/-- What a search of any index finds meets the threshold. -/
theorem search_meets (limit : Nat) (threshold : Binary64) :
    Keeps (fun _ => True) (fun _ => True) (search hnsw query limit threshold)
      fun results => ∀ r ∈ results, meets hnsw.metric threshold r = true := by
  unfold search
  split
  · exact Keeps.pure fun r hr => by cases hr
  split
  · exact Keeps.fail trivial
  extract_lets ef queryNorm select
  have hselect : ∀ results, Keeps (fun _ => True) (fun _ => True) (select results)
      fun results => ∀ r ∈ results, meets hnsw.metric threshold r = true :=
    fun results => selectResults_meets threshold _ _
  split
  · refine Keeps.bind (Keeps.trivially _) fun _ _ => ?_
    split <;> exact Keeps.bind (Keeps.trivially _) fun results _ => hselect results
  · refine Keeps.bind (Keeps.trivially _) fun s _ => ?_
    refine Keeps.bind (Keeps.trivially _) fun d _ => ?_
    refine Keeps.bind (Keeps.trivially _) fun topK _ => ?_
    refine Keeps.bind (Keeps.trivially _) fun topK _ => ?_
    refine Keeps.bind (Keeps.trivially _) fun _ _ => ?_
    exact Keeps.bind (Keeps.trivially _) fun results _ => hselect results

theorem map_scoreAll :
    (scoreAll hnsw query (vectorNorm query)).map (resultOf hnsw) = scored hnsw query := by
  unfold scoreAll scored
  apply List.ext_getElem
  · simp [Index.count]
  · intro i h _
    have hi : i < hnsw.items.length := by simpa [Index.count] using h
    simp [resultOf, List.getElem?_eq_getElem hi, itemScore]

theorem mem_scoreAll {queryNorm : Binary64} {r : NodeScore}
    (h : r ∈ scoreAll hnsw query queryNorm) : r.idx < hnsw.items.length := by
  obtain ⟨i, hi, rfl⟩ := List.getElem_of_mem h
  simp only [scoreAll, List.length_zipWith, List.length_range, Index.count] at hi
  simpa [scoreAll] using hi

omit [Serves I X Status.enomem] in
/-- **The search** of an index that is scanned, as one allocation and a value. -/
theorem search_eq (hready : Ready hnsw) {limit : Nat}
    (hscan : hnsw.count ≤ (searchBudget hnsw limit).toNat ∨ hnsw.count ≤ 1024)
    (threshold : Binary64) : search hnsw query limit threshold =
      (if limit = 0 ∨ hnsw.count = 0 then pure []
      else (do
        allocOr .enomem
        pure (((ranking hnsw query).filter (meets hnsw.metric threshold)).take limit))) := by
  unfold search
  split
  · rfl
  · rename_i h
    simp only [not_or] at h
    obtain ⟨hset, -⟩ := hready.entry (by omega)
    simp only [hset, Bool.not_true, Bool.false_eq_true, ite_false, hscan, ite_true]
    refine bind_congr fun _ => ?_
    rw [if_neg (not_not_intro hready.whole), pure_bind, selectResults_eq]
    · rw [ranking, ← map_scoreAll, Exchange.sort_map]
      rfl
    · intro r hr
      exact mem_scoreAll ((Exchange.sort_perm _ _).mem_iff.mp hr)

theorem search_scan_keeps (hready : Ready hnsw) {limit : Nat}
    (hscan : hnsw.count ≤ (searchBudget hnsw limit).toNat ∨ hnsw.count ≤ 1024)
    (threshold : Binary64) :
    Keeps I X (search hnsw query limit threshold) fun results =>
      results = ((ranking hnsw query).filter (meets hnsw.metric threshold)).take limit := by
  rw [search_eq hready hscan]
  split
  · rename_i h
    refine Keeps.pure ?_
    rcases h with h | h
    · rw [h, List.take_zero]
    · have hnil : hnsw.items = [] := List.length_eq_zero_iff.mp (Nat.add_eq_zero_iff.mp h).1
      simp [ranking, scored, hnil, Exchange.sort, Exchange.sortLoop]
  · exact Keeps.bind Keeps.allocOr fun _ _ => Keeps.pure rfl

theorem search_keeps (hready : Ready hnsw) (hcount : hnsw.count ≤ 1024) (limit : Nat)
    (threshold : Binary64) :
    Keeps I X (search hnsw query limit threshold) fun results =>
      results = ((ranking hnsw query).filter (meets hnsw.metric threshold)).take limit :=
  search_scan_keeps hready (.inr hcount) threshold

/-- The best result that meets the threshold. -/
structure Top (hnsw : Index) (query : List Binary32) (threshold : Binary64) (result : Result) :
    Prop where
  mem : result ∈ scored hnsw query
  meets : meets hnsw.metric threshold result = true
  best : ∀ other ∈ scored hnsw query, scoreWorse hnsw.metric result.score other.score = false

/-- The first of the ranking that meets the threshold: none when nothing meets it, else a best
item. -/
theorem ranking_first (hnsw : Index) (query : List Binary32) (threshold : Binary64) :
    let results := ((ranking hnsw query).filter (meets hnsw.metric threshold)).take 1
    (results = [] ∧ ∀ result ∈ scored hnsw query, meets hnsw.metric threshold result = false) ∨
      ∃ result, results = [result] ∧ Top hnsw query threshold result := by
  intro results
  have hperm := Exchange.sort_perm (fun a b : Result => scoreWorse hnsw.metric a.score b.score)
    (scored hnsw query)
  have hasymm : ∀ a b : Result, scoreWorse hnsw.metric a.score b.score = true →
      scoreWorse hnsw.metric b.score a.score = false := fun _ _ => scoreWorse_asymm _
  have hsorted := Exchange.sort_pairwise hasymm (fun _ _ _ => scoreWorse_trans _)
    (scored hnsw query)
  change ((ranking hnsw query).Pairwise _) at hsorted
  change ((ranking hnsw query).Perm _) at hperm
  cases hfilter : (ranking hnsw query).filter (meets hnsw.metric threshold) with
  | nil =>
    refine .inl ⟨by simp only [results, hfilter, List.take_nil], fun result hmem => ?_⟩
    have := List.filter_eq_nil_iff.mp hfilter result (hperm.mem_iff.mpr hmem)
    simpa using this
  | cons result rest =>
    refine .inr ⟨result, by simp only [results, hfilter, List.take_succ_cons, List.take_zero], ?_⟩
    obtain ⟨l₁, l₂, hsplit, hbefore, hmeets, -⟩ := List.filter_eq_cons_iff.mp hfilter
    rw [hsplit] at hsorted hperm
    refine ⟨hperm.mem_iff.mp (by simp), hmeets, fun other hother => ?_⟩
    rcases List.mem_append.mp (hperm.mem_iff.mpr hother) with hmem | hmem
    · -- what comes before the first that meets the threshold does not meet it
      cases hworse : scoreWorse hnsw.metric result.score other.score with
      | false => rfl
      | true => exact absurd (meets_of_scoreWorse hmeets hworse) (hbefore other hmem)
    · have htail := (List.pairwise_append.mp hsorted).2.1
      rcases List.mem_cons.mp hmem with rfl | hmem
      · cases hworse : scoreWorse hnsw.metric other.score other.score with
        | false => rfl
        | true => exact (scoreWorse_asymm _ hworse).symm.trans hworse |>.symm
      · exact List.rel_of_pairwise_cons htail hmem

/-- With a limit of one: nothing when nothing meets the threshold, else a best item. -/
theorem search_one (hready : Ready hnsw) (hcount : hnsw.count ≤ 1024) (threshold : Binary64) :
    Keeps I X (search hnsw query 1 threshold) fun results =>
      (results = [] ∧ ∀ result ∈ scored hnsw query, meets hnsw.metric threshold result = false) ∨
        ∃ result, results = [result] ∧ Top hnsw query threshold result := by
  refine (search_keeps hready hcount 1 threshold).mono fun results hresults => ?_
  rw [hresults]
  exact ranking_first hnsw query threshold

/-- The first result of the search of the code. -/
def topOf (hnsw : Index) (query : List Binary32) : Option Result :=
  ((search hnsw query 1 .zero).value? ⟨[], []⟩).bind List.head?

omit [Serves I X Status.enomem] in
theorem topOf_eq (hready : Ready hnsw) (hcount : hnsw.count ≤ 1024) : topOf hnsw query =
    (((ranking hnsw query).filter (meets hnsw.metric .zero)).take 1).head? := by
  obtain ⟨results, e', hrun, -, hresults⟩ := Returns.exec (e := ⟨[], []⟩)
    (search_keeps (I := Quiet) (X := fun _ => False) hready hcount 1 .zero) rfl
  rw [topOf, value?_eq_some.mpr ⟨e', hrun⟩, Option.bind_some, hresults]

omit [Serves I X Status.enomem] in
theorem search_topOf (hready : Ready hnsw) (hcount : hnsw.count ≤ 1024) :
    Returns (search hnsw query 1 .zero) fun results => results.head? = topOf hnsw query := by
  rw [topOf_eq hready hcount]
  exact (search_keeps hready hcount 1 .zero).mono fun results h => by rw [h]

variable (query) in
omit [Serves I X Status.enomem] in
/-- It is a best item, or no item meets the threshold. -/
theorem topOf_top (hready : Ready hnsw) (hcount : hnsw.count ≤ 1024) :
    (topOf hnsw query = none ∧
      ∀ result ∈ scored hnsw query, meets hnsw.metric .zero result = false) ∨
        ∃ result, topOf hnsw query = some result ∧ Top hnsw query .zero result := by
  rw [topOf_eq hready hcount]
  rcases ranking_first hnsw query .zero with ⟨hnil, hall⟩ | ⟨result, hresult, htop⟩
  · rw [hnil]
    exact .inl ⟨rfl, hall⟩
  · rw [hresult]
    exact .inr ⟨result, rfl, htop⟩

/-! ## The search of any index -/

omit [Serves I X Status.enomem] in
theorem popResults_keeps {queryNorm : Binary64} : ∀ (n : Nat) {heap : Heap},
    (∀ x ∈ heap.data, Placed hnsw.items x.idx 0) → n ≤ heap.size →
      Keeps I X (popResults hnsw query queryNorm n heap) fun results =>
        ∀ r ∈ results, r.idx < hnsw.items.length
  | 0, _, _, _ => Keeps.pure fun r h => by cases h
  | n + 1, heap, hheap, hn => by
    unfold popResults
    obtain ⟨htop, hsize, hrest⟩ := heapPop_all (P := fun x => Placed hnsw.items x.idx 0)
      (by omega) hheap
    rcases hpop : heapPop heap with ⟨top, heap'⟩
    rw [hpop] at htop hsize hrest
    simp only at htop hsize hrest ⊢
    refine Keeps.bind (distTo_keeps htop) fun s _ => ?_
    refine Keeps.bind (popResults_keeps n hrest (by omega)) fun rest hrest => Keeps.pure ?_
    intro r hr
    rcases List.mem_cons.mp hr with rfl | hr
    · exact htop.lt
    · exact hrest r hr

/-- **A search** runs in bounds, and what it finds are items of the index. -/
theorem search_mem_keeps (hready : Ready hnsw) (limit : Nat) (threshold : Binary64) :
    Keeps I X (search hnsw query limit threshold) fun results =>
      ∀ r ∈ results, ∃ item ∈ hnsw.items, item.id = r.id := by
  unfold search
  split
  · exact Keeps.pure fun r h => by cases h
  rename_i h
  simp only [not_or] at h
  obtain ⟨hset, top, hmax, hentry⟩ := hready.entry (by omega)
  rw [if_neg (by simp [hset])]
  extract_lets ef queryNorm select
  have hselect : ∀ results : List NodeScore, (∀ r ∈ results, r.idx < hnsw.items.length) →
      Keeps I X (select results) fun results =>
        ∀ r ∈ results, ∃ item ∈ hnsw.items, item.id = r.id := by
    intro results hresults
    have hsorted : ∀ r ∈ Exchange.sort
        (fun a b => scoreWorse hnsw.metric a.score b.score) results, r.idx < hnsw.items.length :=
      fun r hr => hresults r ((Exchange.sort_perm _ _).mem_iff.mp hr)
    simp only [select]
    rw [selectResults_eq threshold _ _ hsorted]
    refine Keeps.pure fun r hr => ?_
    obtain ⟨x, hx, rfl⟩ := List.mem_map.mp (List.mem_of_mem_filter (List.mem_of_mem_take hr))
    refine ⟨hnsw.items.get ⟨x.idx, hsorted x hx⟩, List.get_mem _ _, ?_⟩
    rw [resultOf, List.getElem?_eq_getElem (hsorted x hx)]
    rfl
  split
  · refine Keeps.bind Keeps.allocOr fun _ _ => ?_
    rw [if_neg (not_not_intro hready.whole), pure_bind]
    exact hselect _ fun r hr => mem_scoreAll hr
  · obtain ⟨entry, hentry?⟩ := hentry.getElem?
    rw [distTo_eq hentry?, pure_bind, hmax]
    refine Keeps.bind (descend_keeps hready.linked 0 _
      ⟨(Nat.zero_add _).symm ▸ hentry, entry, hentry?, rfl⟩) fun d hd => ?_
    unfold heapCreate
    simp only [bind_assoc, pure_bind]
    refine Keeps.bind Keeps.allocOr fun _ _ => Keeps.bind Keeps.allocOr fun _ _ => ?_
    refine Keeps.bind (searchLevel_keeps hready.linked hd.placed rfl) fun topK htopK => ?_
    refine Keeps.bind Keeps.allocOr fun _ _ => ?_
    exact Keeps.bind (popResults_keeps _ htopK (Nat.le_refl _)) fun results hresults =>
      hselect results hresults

end Arithmetic

end Ipa.Hnsw
