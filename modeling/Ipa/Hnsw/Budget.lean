import Ipa.Hnsw.Answers

/-!
# The budget of a search

`ef` is an `int` that takes the value of the `size_t` limit. A limit from 2^31 on is truncated, and
an index of more than 1024 items is then searched along its graph, although every item was asked
for: at most `ef` results come back.
-/

namespace Ipa.Hnsw

open Run Relation

section Arithmetic

variable [Arith] {hnsw : Index} {query : List Binary32}

/-- The results stand for items, among them every item that meets the threshold. -/
structure Covers (hnsw : Index) (query : List Binary32) (threshold : Binary64) (picked : List Nat)
    (results : List Result) : Prop where
  items : List.Forall₂ (fun i r => ∃ item, hnsw.items[i]? = some item ∧
    r = ⟨item.id, metricValue hnsw.metric query item⟩) picked results
  all : ∀ i item, hnsw.items[i]? = some item →
    meets hnsw.metric threshold ⟨item.id, metricValue hnsw.metric query item⟩ = true → i ∈ picked

/-- A search returns every item that meets the threshold, unless an allocation fails. -/
def Complete (hnsw : Index) (query : List Binary32) (limit : Nat) (threshold : Binary64) : Prop :=
  ∀ e : Env, (∃ picked results e', (search hnsw query limit threshold).exec e = (.ok results, e') ∧
      Covers hnsw query threshold picked results) ∨
    (false ∈ e.allocs ∧
      ∃ e', (search hnsw query limit threshold).exec e = (.error (.fail .enomem), e'))

/-- The index is small, or the budget that the limit leaves is not. -/
def BudgetFits (hnsw : Index) (limit : Nat) : Prop :=
  hnsw.count ≤ 1024 ∨ (limit : Int) ≤ hnsw.efSearch ∨ (hnsw.count : Int) ≤ Int.bmod limit (2 ^ 32)

omit [Arith] in
/-- The index is scanned exactly where the budget fits. -/
theorem scan_iff {limit : Nat} (hlimit : hnsw.count ≤ limit) :
    (hnsw.count ≤ (searchBudget hnsw limit).toNat ∨ hnsw.count ≤ 1024) ↔ BudgetFits hnsw limit := by
  have hscan : ∀ ef : Int, (hnsw.count ≤ (if ef < 64 then (64 : Int) else ef).toNat ∨
      hnsw.count ≤ 1024) ↔ (hnsw.count ≤ 1024 ∨ (hnsw.count : Int) ≤ ef) := by
    intro ef
    split <;> omega
  unfold searchBudget BudgetFits
  generalize Int.bmod (limit : Int) (2 ^ 32) = narrow
  simp only [hscan]
  by_cases hef : hnsw.efSearch < limit
  · rw [if_pos hef]
    omega
  · rw [if_neg hef]
    omega

/-- A scan with room for every item keeps all that meet the threshold. -/
theorem rankAll_covers (hnormed : Normed hnsw) {limit : Nat} (hlimit : hnsw.count ≤ limit)
    (threshold : Binary64) :
    Covers hnsw query threshold ((selected hnsw limit threshold (rankAll hnsw query)).map (·.idx))
      ((selected hnsw limit threshold (rankAll hnsw query)).map (resultOf hnsw)) := by
  have hbest := @rankAll_best _ hnsw query hnormed limit threshold
  refine ⟨hbest.items, fun i item hitem hmeets => ?_⟩
  have hscored := scored_scoreAll.perm (rankAll_perm hnsw query)
  have hlen : (rankAll hnsw query).length ≤ hnsw.count := by
    rw [(rankAll_perm hnsw query).length_eq, ← List.length_map, map_idx_scoreAll, List.length_range]
    exact hnsw.length_le_count
  have hall : selected hnsw limit threshold (rankAll hnsw query) =
      (rankAll hnsw query).filter fun r => meets hnsw.metric threshold (resultOf hnsw r) := by
    have := List.length_filter_le (fun r => meets hnsw.metric threshold (resultOf hnsw r))
      (rankAll hnsw query)
    exact List.take_of_length_le (by omega)
  have hin : i ∈ (rankAll hnsw query).map (·.idx) := by
    rw [((rankAll_perm hnsw query).map _).mem_iff, map_idx_scoreAll]
    exact List.mem_range.mpr (List.getElem?_eq_some_iff.mp hitem).1
  obtain ⟨x, hx, rfl⟩ := List.mem_map.mp hin
  obtain ⟨item', hitem', hresult⟩ := hscored.result hnormed hx
  rw [hitem] at hitem'
  cases hitem'
  rw [hall]
  exact List.mem_map_of_mem (List.mem_filter.mpr ⟨hx, by rw [hresult]; exact hmeets⟩)

theorem complete_of_fits (hready : Ready hnsw) (hnormed : Normed hnsw) {limit : Nat}
    (hlimit : hnsw.count ≤ limit) (hfits : BudgetFits hnsw limit) (threshold : Binary64) :
    Complete hnsw query limit threshold := by
  intro e
  have hkeeps := @search_scan_keeps _ hnsw query (Within e.allocs) (FailsWithin e.allocs .enomem) _
    hready _ ((scan_iff hlimit).mpr hfits) threshold
  rcases hkeeps.returns_or_fails with ⟨results, e', hrun, rfl⟩ | hfails
  · have hcovers := @rankAll_covers _ hnsw query hnormed _ hlimit threshold
    rw [map_selected, map_rankAll] at hcovers
    exact .inl ⟨_, _, e', hrun, hcovers⟩
  · exact .inr hfails

/-- The threshold that every score meets. -/
def widest (metric : Metric) : Binary64 :=
  match metric with
  | .l2 => .inf
  | _ => .negInf

omit [Arith] in
theorem meets_widest (metric : Metric) (id : CStr) {score : Binary64} (h : score.isNaN = false) :
    meets metric (widest metric) ⟨id, score⟩ = true := by
  obtain ⟨hneg, hinf⟩ := Binary64.between_infs h
  cases metric
  · exact hneg
  · exact hneg
  · exact hinf

/-- Along the graph a search returns fewer results than there are items. -/
theorem searchGraph_misses (hready : Ready hnsw) (hnormed : Normed hnsw)
    (hnumbers : ∀ item ∈ hnsw.items, (metricValue hnsw.metric query item).isNaN = false)
    {limit : Nat} (hlimit : hnsw.count ≤ limit) (hfits : ¬ BudgetFits hnsw limit) :
    Returns (search hnsw query limit (widest hnsw.metric)) fun results =>
      ¬ ∃ picked, Covers hnsw query (widest hnsw.metric) picked results := by
  rw [← scan_iff hlimit, not_or, Nat.not_le, Nat.not_le] at hfits
  refine (searchGraph_answers hready hnormed hnumbers hfits.2 (by omega) _).mono ?_
  rintro results ⟨hlen, -⟩ ⟨picked, hcovers⟩
  -- every item meets the threshold, so there are as many results as items
  have hsub : List.range hnsw.items.length ⊆ picked := by
    intro i hi
    have hitem := List.getElem?_eq_getElem (List.mem_range.mp hi : i < hnsw.items.length)
    exact hcovers.all i _ hitem
      (meets_widest hnsw.metric _ (hnumbers _ (List.mem_of_getElem? hitem)))
  have hcount := List.nodup_range.length_le_of_subset hsub
  have hwhole : hnsw.count = hnsw.items.length := by
    rw [Index.count, hready.whole, Nat.add_zero]
  rw [List.length_range, hcovers.items.length_eq, ← hwhole] at hcount
  omega

theorem fits_of_complete (hready : Ready hnsw) (hnormed : Normed hnsw)
    (hnumbers : ∀ item ∈ hnsw.items, (metricValue hnsw.metric query item).isNaN = false)
    {limit : Nat} (hlimit : hnsw.count ≤ limit)
    (hcomplete : Complete hnsw query limit (widest hnsw.metric)) : BudgetFits hnsw limit := by
  by_contra hfits
  obtain ⟨results, e', hrun, -, hmisses⟩ := Returns.exec (e := ⟨[], []⟩)
    (searchGraph_misses hready hnormed hnumbers hlimit hfits) rfl
  rcases hcomplete ⟨[], []⟩ with ⟨picked, results', e'', hrun', hcovers⟩ | ⟨hfalse, -⟩
  · rw [hrun] at hrun'
    cases hrun'
    exact hmisses ⟨picked, hcovers⟩
  · cases hfalse

/-- **The search is complete** for every threshold exactly where the budget fits: then for every
query, and else for none whose scores are numbers. -/
theorem search_complete_iff {host : Host} {dimension : Nat} {metric : Metric} {s : Life}
    (h : (life host dimension metric).Reachable s) (hbuilt : Built s.index) {limit : Nat}
    (hlimit : s.index.count ≤ limit) (query : List Binary32) :
    (BudgetFits s.index limit → ∀ threshold, Complete s.index query limit threshold) ∧
      ((∀ item ∈ s.index.items, (metricValue s.index.metric query item).isNaN = false) →
        (∀ threshold, Complete s.index query limit threshold) → BudgetFits s.index limit) := by
  have hready := reachable_ready h hbuilt
  have hnormed := reachable_normed h
  refine ⟨fun hfits threshold => complete_of_fits hready hnormed hlimit hfits threshold, ?_⟩
  intro hnumbers hcomplete
  exact fits_of_complete hready hnormed hnumbers hlimit (hcomplete _)

end Arithmetic

theorem search_complete_iff_two : ∃ s : Life, (@life ieee ⟨.w64, .little⟩ 1 .cosine).Reachable s ∧
    s.index.count = 2 ∧ ∀ threshold, @Complete ieee s.index [⟨0x3F800000⟩] 2 threshold := by
  obtain ⟨s, hreached, hcount, hbuilt, -⟩ := reachable_copies (n := 2) (by omega)
  have hiff := @search_complete_iff ieee _ _ _ s hreached hbuilt 2 (by omega) [⟨0x3F800000⟩]
  exact ⟨s, hreached, hcount, hiff.1 (.inl (by omega))⟩

/-- With a limit of 2^32 a search of 1025 items that all meet the threshold misses some. -/
theorem search_truncates_limit : ∃ s : Life, (@life ieee ⟨.w64, .little⟩ 1 .cosine).Reachable s ∧
    s.index.count = 1025 ∧ s.index.entryPointSet = true ∧ s.index.count ≤ 2 ^ 32 ∧
      ∃ results e', (@search ieee s.index [⟨0x3F800000⟩] (2 ^ 32) .negInf).exec ⟨[], []⟩ =
        (.ok results, e') ∧ ¬ ∃ picked, @Covers ieee s.index [⟨0x3F800000⟩] .negInf picked results := by
  obtain ⟨s, hreached, hcount, hbuilt, hmetric, hef, hvalues⟩ :=
    reachable_copies (n := 1025) (by omega)
  refine ⟨s, hreached, hcount, hbuilt.entry (by omega), by omega, ?_⟩
  have hready := @reachable_ready ieee _ _ _ s hreached hbuilt
  have hfits : ¬ BudgetFits s.index (2 ^ 32) := by
    unfold BudgetFits
    rw [hcount, hef]
    decide
  obtain ⟨results, e', hrun, -, hmisses⟩ := Returns.exec (e := ⟨[], []⟩)
    (@searchGraph_misses ieee s.index [⟨0x3F800000⟩] hready (@reachable_normed ieee _ _ _ s hreached)
      (fun item hitem => by rw [hmetric, metricValue_copy (hvalues item hitem)]; decide)
      (2 ^ 32) (by omega) hfits) rfl
  rw [hmetric] at hrun hmisses
  exact ⟨results, e', hrun, hmisses⟩

end Ipa.Hnsw
