import Ipa.Hnsw.Index

/-!
# The graph of the index

`Placed items idx level` says that item `idx` has a neighbour list at `level`. The graph is
`Linked` when the edges of a list lead to items placed at its level; every read of the level search
is then in bounds, it has no fault, and what it returns is placed.

The level search ends because each candidate in its heap was marked as visited before.
-/

namespace Ipa.Hnsw

open Run

/-- `items[idx].neighbors[level]`, where there is one. -/
def listAt (items : List Item) (idx level : Nat) : Option NeighborList :=
  (items[idx]?.bind (·.neighbors)).bind (·[level]?)

def Placed (items : List Item) (idx level : Nat) : Prop :=
  ∃ list, listAt items idx level = some list

/-- Edges lead to items placed at their level. -/
def Linked (items : List Item) : Prop :=
  ∀ idx level list, listAt items idx level = some list → ∀ e ∈ list.edges, Placed items e level

theorem listAt_eq_some {items : List Item} {idx level : Nat} {list : NeighborList} :
    listAt items idx level = some list ↔
      ∃ item lists, items[idx]? = some item ∧ item.neighbors = some lists ∧
        lists[level]? = some list := by
  simp only [listAt, Option.bind_eq_some_iff]
  constructor
  · rintro ⟨lists, ⟨item, hitem, hlists⟩, hlist⟩
    exact ⟨item, lists, hitem, hlists, hlist⟩
  · rintro ⟨item, lists, hitem, hlists, hlist⟩
    exact ⟨lists, ⟨item, hitem, hlists⟩, hlist⟩

theorem Placed.getElem? {items : List Item} {idx level : Nat} (h : Placed items idx level) :
    ∃ item, items[idx]? = some item := by
  obtain ⟨list, hlist⟩ := h
  obtain ⟨item, _, hitem, _⟩ := listAt_eq_some.mp hlist
  exact ⟨item, hitem⟩

theorem Placed.lt {items : List Item} {idx level : Nat} (h : Placed items idx level) :
    idx < items.length := by
  obtain ⟨item, hitem⟩ := h.getElem?
  exact (List.getElem?_eq_some_iff.mp hitem).1

theorem Placed.lt_count {hnsw : Index} {idx level : Nat} (h : Placed hnsw.items idx level) :
    idx < hnsw.count :=
  Nat.lt_of_lt_of_le h.lt hnsw.length_le_count

/-- An item has lists from its level down. -/
theorem Placed.mono {items : List Item} {idx level low : Nat} (h : Placed items idx level)
    (hle : low ≤ level) : Placed items idx low := by
  obtain ⟨list, hlist⟩ := h
  obtain ⟨item, lists, hitem, hlists, hat⟩ := listAt_eq_some.mp hlist
  have hlt := (List.getElem?_eq_some_iff.mp hat).1
  exact ⟨lists[low], listAt_eq_some.mpr
    ⟨item, lists, hitem, hlists, List.getElem?_eq_getElem (by omega)⟩⟩

theorem itemAt_eq {items : List Item} {idx : Nat} {item : Item} (h : items[idx]? = some item) :
    itemAt items idx = pure item := by
  rw [itemAt, h]

theorem itemAt_eq_fault {items : List Item} {idx : Nat} (h : items[idx]? = none) :
    itemAt items idx = fault .index := by
  rw [itemAt, h]

theorem neighborsAt_eq {items : List Item} {idx level : Nat} {list : NeighborList}
    (h : listAt items idx level = some list) : neighborsAt items idx level = pure list := by
  obtain ⟨item, lists, hitem, hlists, hat⟩ := listAt_eq_some.mp h
  simp only [neighborsAt, itemAt_eq hitem, pure_bind, hlists, hat]

theorem neighborsAt_eq_fault {items : List Item} {idx level : Nat}
    (h : listAt items idx level = none) : neighborsAt items idx level = fault .index := by
  unfold neighborsAt itemAt
  unfold listAt at h
  cases hitem : items[idx]? with
  | none => rfl
  | some item =>
    rw [hitem, Option.bind_some] at h
    rw [pure_bind]
    cases hlists : item.neighbors with
    | none => rfl
    | some lists =>
      rw [hlists, Option.bind_some] at h
      simp only [h]

section Arithmetic

variable [Arith] {hnsw : Index} {query : List Binary32} {queryNorm : Binary64}
variable {I : Env → Prop} {X : Stop Status → Prop}

/-- The score of an item for a query. -/
def itemScore (metric : Metric) (query : List Binary32) (queryNorm : Binary64) (item : Item) :
    Binary64 :=
  dist metric query queryNorm item.values item.norm

theorem distTo_eq {idx : Nat} {item : Item} (h : hnsw.items[idx]? = some item) :
    distTo hnsw query queryNorm idx = pure (itemScore hnsw.metric query queryNorm item) := by
  rw [distTo, itemAt_eq h, pure_bind]
  rfl

theorem distTo_keeps {idx level : Nat} (h : Placed hnsw.items idx level) :
    Keeps I X (distTo hnsw query queryNorm idx) fun _ => True := by
  obtain ⟨item, hitem⟩ := h.getElem?
  rw [distTo_eq hitem]
  exact Keeps.pure trivial

variable {ok : Nat → Prop}

/-! ## The level search -/

variable [Serves I X Status.enomem]

/-- Edges of one level lead from nodes in `ok` to nodes in `ok`, which are placed there. -/
structure Inside (items : List Item) (level : Nat) (ok : Nat → Prop) : Prop where
  placed : ∀ idx, ok idx → Placed items idx level
  closed : ∀ idx list, ok idx → listAt items idx level = some list → ∀ e ∈ list.edges, ok e

omit [Arith] in
theorem Linked.inside (h : Linked hnsw.items) (level : Nat) :
    Inside hnsw.items level (Placed hnsw.items · level) :=
  ⟨fun _ hp => hp, fun idx list _ hlist => h idx level list hlist⟩

/-- What the loop of the level search keeps: what its heaps hold are nodes in `ok`. -/
structure Searching (hnsw : Index) (ok : Nat → Prop) (st : LevelSearch) : Prop where
  candidates : ∀ x ∈ st.candidates.data, ok x.idx
  results : ∀ x ∈ st.results.data, ok x.idx
  visited : st.visited.length = hnsw.count

/-- The candidates in the heap and those that may still enter it: the bound of the loop. -/
def LevelSearch.pending (st : LevelSearch) : Nat := st.candidates.size + st.visited.count false

/-- The results do not run out. -/
def LevelSearch.Fed (ef : Nat) (st : LevelSearch) : Prop := 0 < ef → 0 < st.results.size

variable {level : Nat} (hinside : Inside hnsw.items level ok)

include hinside

theorem visitNeighbor_keeps {ef : Nat} {st : LevelSearch} (hst : Searching hnsw ok st)
    (hfed : st.Fed ef) {v : Nat} (hv : ok v) :
    Keeps I X (visitNeighbor hnsw query queryNorm ef st v) fun st' =>
      Searching hnsw ok st' ∧ st'.Fed ef ∧ st'.pending ≤ st.pending := by
  unfold visitNeighbor
  have hlt : v < st.visited.length := hst.visited ▸ (hinside.placed v hv).lt_count
  rw [List.getElem?_eq_getElem hlt]
  cases hmark : st.visited[v] with
  | true => exact Keeps.pure ⟨hst, hfed, Nat.le_refl _⟩
  | false =>
    have hcount : (st.visited.set v true).count false + 1 = st.visited.count false := by
      have hpos : 0 < st.visited.count false := List.count_pos_iff.mpr (hmark ▸ List.getElem_mem hlt)
      rw [List.count_set hlt, hmark]
      simp
      omega
    refine Keeps.bind (distTo_keeps (hinside.placed v hv)) fun s _ => ?_
    split
    · refine Keeps.bind (heapPush_keeps (P := fun x => ok x.idx) hst.candidates hv) ?_
      rintro candidates ⟨hsize, hcandidates⟩
      refine Keeps.bind (heapPush_keeps (P := fun x => ok x.idx) hst.results hv) ?_
      rintro results ⟨hrsize, hresults⟩
      have hpop := heapPop_all (by omega) hresults
      refine Keeps.pure ⟨⟨hcandidates, ?_, by simpa using hst.visited⟩, fun hef => ?_, ?_⟩
      · split
        · exact hpop.2.2
        · exact hresults
      · show 0 < Heap.size (if ef < results.size then (heapPop results).2 else results)
        split
        · omega
        · omega
      · simp only [LevelSearch.pending, hsize]
        omega
    · refine Keeps.pure ⟨⟨hst.candidates, hst.results, by simpa using hst.visited⟩, hfed, ?_⟩
      simp only [LevelSearch.pending]
      omega

theorem searchLoop_keeps {ef : Nat} :
    ∀ (fuel : Nat) {st : LevelSearch}, Searching hnsw ok st → st.Fed ef → st.pending < fuel →
      Keeps I X (searchLoop hnsw query queryNorm level ef fuel st) fun heap =>
        (∀ x ∈ heap.data, ok x.idx) ∧ (0 < ef → 0 < heap.size)
  | 0, _, _, _, hfuel => absurd hfuel (Nat.not_lt_zero _)
  | fuel + 1, st, hst, hfed, hfuel => by
    unfold searchLoop
    split
    · exact Keeps.pure ⟨hst.results, hfed⟩
    · rename_i hsize
      obtain ⟨hc, hpop, hrest⟩ := heapPop_all (P := fun x => ok x.idx)
        (by omega : 0 < st.candidates.size) hst.candidates
      rcases hheap : heapPop st.candidates with ⟨c, candidates⟩
      rw [hheap] at hc hpop hrest
      simp only at hc hpop hrest ⊢
      split
      · exact Keeps.pure ⟨hst.results, hfed⟩
      · obtain ⟨list, hlist⟩ := hinside.placed _ hc
        rw [neighborsAt_eq hlist, pure_bind]
        have hpending : (LevelSearch.mk candidates st.results st.visited).pending < fuel := by
          simp only [LevelSearch.pending] at hfuel ⊢
          omega
        refine Keeps.bind (Keeps.foldlM (fun _ st' => Searching hnsw ok st' ∧ st'.Fed ef ∧
          st'.pending ≤ (LevelSearch.mk candidates st.results st.visited).pending)
          ⟨⟨hrest, hst.results, hst.visited⟩, hfed, Nat.le_refl _⟩ ?_) ?_
        · rintro _ v st' hv ⟨hst', hfed', hle⟩
          exact (visitNeighbor_keeps hinside hst' hfed' (hinside.closed _ _ hc hlist v hv)).mono
            fun st'' h => ⟨h.1, h.2.1, Nat.le_trans h.2.2 hle⟩
        · rintro st' ⟨hst', hfed', hle⟩
          exact searchLoop_keeps fuel hst' hfed' (by omega)

theorem searchLevel_inside {entryIdx ef : Nat} (hentry : ok entryIdx) {results : Heap}
    (hresults : results.data = []) :
    Keeps I X (searchLevel hnsw query queryNorm entryIdx level ef results) fun heap =>
      (∀ x ∈ heap.data, ok x.idx) ∧ (0 < ef → 0 < heap.size) := by
  have hplaced := hinside.placed _ hentry
  unfold searchLevel heapCreate
  simp only [bind_assoc, pure_bind]
  refine Keeps.bind Keeps.allocOr fun _ _ => Keeps.bind Keeps.allocOr fun _ _ =>
    Keeps.bind Keeps.allocOr fun _ _ => Keeps.bind (distTo_keeps hplaced) fun s _ => ?_
  refine Keeps.bind (heapPush_keeps (P := fun x => ok x.idx) (by simp) hentry) ?_
  rintro candidates ⟨hsize, hcandidates⟩
  refine Keeps.bind (heapPush_keeps (P := fun x => ok x.idx) (by simp [hresults]) hentry) ?_
  rintro results' ⟨hrsize, hresults'⟩
  refine searchLoop_keeps hinside _ ⟨hcandidates, hresults', by simp⟩ (fun _ => ?_) ?_
  · show 0 < results'.size
    omega
  have hlt : entryIdx < (List.replicate hnsw.count false).length := by
    rw [List.length_replicate]
    exact hplaced.lt_count
  have hpos : 0 < hnsw.count := Nat.lt_of_le_of_lt (Nat.zero_le _) hplaced.lt_count
  simp only [LevelSearch.pending, hsize, List.count_set hlt]
  simp [Heap.size]
  omega

omit hinside

theorem searchLevel_keeps (hlinked : Linked hnsw.items) {entryIdx ef : Nat}
    (hentry : Placed hnsw.items entryIdx level) {results : Heap} (hresults : results.data = []) :
    Keeps I X (searchLevel hnsw query queryNorm entryIdx level ef results) fun heap =>
      ∀ x ∈ heap.data, Placed hnsw.items x.idx level :=
  (searchLevel_inside (hlinked.inside level) hentry hresults).mono fun _ h => h.1

end Arithmetic

end Ipa.Hnsw
