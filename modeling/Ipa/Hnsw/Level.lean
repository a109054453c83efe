import Ipa.Hnsw.Calls
import Ipa.Hnsw.HeapOrder
import Mathlib.Data.List.Perm.Subperm
import Mathlib.Logic.Relation

/-!
# What the level search examines

The search of a level computes the score of a node when it marks it as visited: it examines it.
`Trace` carries the nodes examined beside the state of the search; without them it is the search
of the code. The results are the best of the examined nodes, as many as `ef` admits, and where
`ef` admits all that the entry reaches, they are those.
-/

namespace Ipa.Hnsw

open Run Relation

/-! ## The trace -/

/-- The state of a level search and the nodes examined so far, in their order. -/
structure Trace where
  st : LevelSearch
  examined : List Nat

section Traced

variable [Arith] (hnsw : Index) (query : List Binary32) (queryNorm : Binary64)

/-- One neighbour: it is examined when its mark is not set. -/
def visitTraced (ef : Nat) (t : Trace) (v : Nat) : Run Status Trace := do
  let st ← visitNeighbor hnsw query queryNorm ef t.st v
  pure ⟨st, if t.st.visited[v]? = some false then t.examined ++ [v] else t.examined⟩

def loopTraced (level ef : Nat) : Nat → Trace → Run Status Trace
  | 0, _ => fault .fuel
  | fuel + 1, t =>
    if t.st.candidates.size = 0 then pure t
    else do
      let (c, candidates) := heapPop t.st.candidates
      let t := { t with st := { t.st with candidates } }
      if ef ≤ t.st.results.size ∧ scoreWorse hnsw.metric c.score (t.st.results.at_ 0).score then
        pure t
      else
        let list ← neighborsAt hnsw.items c.idx level
        let t ← list.edges.foldlM (visitTraced hnsw query queryNorm ef) t
        loopTraced level ef fuel t

def searchTraced (entryIdx level ef : Nat) (results : Heap) : Run Status Trace := do
  let candidates ← heapCreate (ef * 2) hnsw.metric false
  allocOr .enomem
  let s ← distTo hnsw query queryNorm entryIdx
  let candidates ← heapPush candidates entryIdx s
  let results ← heapPush results entryIdx s
  loopTraced hnsw query queryNorm level ef (hnsw.count + 1)
    ⟨⟨candidates, results, (List.replicate hnsw.count false).set entryIdx true⟩, [entryIdx]⟩

theorem foldlM_visitTraced (ef : Nat) : ∀ (edges : List Nat) (t : Trace),
    (do let t ← edges.foldlM (visitTraced hnsw query queryNorm ef) t; pure t.st) =
      edges.foldlM (visitNeighbor hnsw query queryNorm ef) t.st
  | [], t => by simp
  | v :: edges, t => by
    simp only [List.foldlM_cons, bind_assoc, visitTraced, pure_bind]
    exact bind_congr fun st => foldlM_visitTraced ef edges ⟨st, _⟩

theorem loopTraced_results (level ef : Nat) : ∀ (fuel : Nat) (t : Trace),
    (do let t ← loopTraced hnsw query queryNorm level ef fuel t; pure t.st.results) =
      searchLoop hnsw query queryNorm level ef fuel t.st
  | 0, _ => rfl
  | fuel + 1, t => by
    unfold loopTraced searchLoop
    split
    · rfl
    simp only
    split
    · rfl
    rw [bind_assoc]
    refine bind_congr fun list => ?_
    rw [← foldlM_visitTraced hnsw query queryNorm ef list.edges
      ⟨{ t.st with candidates := (heapPop t.st.candidates).2 }, t.examined⟩]
    rw [bind_assoc, bind_assoc]
    refine bind_congr fun t => ?_
    rw [pure_bind]
    exact loopTraced_results level ef fuel t

/-- Without the trace this is the search of the code. -/
theorem searchTraced_results (entryIdx level ef : Nat) (results : Heap) :
    (do let t ← searchTraced hnsw query queryNorm entryIdx level ef results; pure t.st.results) =
      searchLevel hnsw query queryNorm entryIdx level ef results := by
  unfold searchTraced searchLevel
  simp only [bind_assoc, loopTraced_results]

end Traced

/-! ## The results -/

/-- The heap of results holds the best of the examined nodes, as many as `ef` admits. -/
structure Kept (metric : Metric) (score : Nat → Binary64) (ef : Nat) (examined : List Nat)
    (results : Heap) : Prop where
  found : ∀ x ∈ results.data, x.idx ∈ examined ∧ x.score = score x.idx
  distinct : (results.data.map (·.idx)).Nodup
  size : results.size = min ef examined.length
  best : ∀ v ∈ examined, v ∉ results.data.map (·.idx) → ∀ x ∈ results.data,
    goodness metric (score v) ≤ goodness metric x.score
  valid : results.Valid
  metric : results.metric = metric
  worstFirst : results.worstFirst = true

/-- Distinct members as many as the list are all of them. -/
theorem mem_of_nodup_subset {l l' : List Nat} (hnodup : l.Nodup) (hsub : ∀ v ∈ l, v ∈ l')
    (hlen : l'.length ≤ l.length) : ∀ v ∈ l', v ∈ l :=
  fun _ hv => ((hnodup.subperm hsub).perm_of_length_le hlen).mem_iff.mpr hv

theorem Heap.root_mem {heap : Heap} (hsize : 0 < heap.size) : heap.at_ 0 ∈ heap.data := by
  unfold Heap.at_
  rw [List.getD_eq_getElem _ _ hsize]
  exact List.getElem_mem _

section Kept

variable {metric : Metric} {score : Nat → Binary64} {ef : Nat} {examined : List Nat}
  {results : Heap} (h : Kept metric score ef examined results)

include h

theorem Kept.mem {v : Nat} (hv : v ∈ results.data.map (·.idx)) : v ∈ examined := by
  obtain ⟨x, hx, rfl⟩ := List.mem_map.mp hv
  exact (h.found x hx).1

/-- While `ef` admits more, the results are all that was examined. -/
theorem Kept.all (hlen : examined.length ≤ ef) :
    ∀ v ∈ examined, v ∈ results.data.map (·.idx) := by
  refine mem_of_nodup_subset h.distinct (fun v hv => h.mem hv) ?_
  rw [List.length_map]
  change _ ≤ results.size
  rw [h.size, Nat.min_eq_right hlen]

/-- The root is a worst result. -/
theorem Kept.root_le {x : NodeScore} (hx : x ∈ results.data) :
    goodness metric (results.at_ 0).score ≤ goodness metric x.score := by
  have hpos : 0 < results.data.length := List.length_pos_of_mem hx
  have hroot := h.valid.root hx
  rw [h.metric, h.worstFirst] at hroot
  by_contra hlt
  have hprior := (heapHasPriority_iff metric (h.valid.numbers x hx)
    (getD_number h.valid.numbers hpos) true).mpr (Int.not_le.mp hlt)
  change heapHasPriority metric x.score (results.at_ 0).score true = true at hprior
  rw [hroot] at hprior
  cases hprior

variable {v : Nat} (hv : v ∉ examined) (hnumber : (score v).isNaN = false)

include hnumber in
/-- A node that is no better than the worst of the results, when these are complete. -/
theorem Kept.skip (hef : 0 < ef) (hfull : ef ≤ results.size)
    (hworse : scoreBetter metric (score v) (results.at_ 0).score = false) :
    Kept metric score ef (examined ++ [v]) results := by
  have hsize := h.size
  refine ⟨fun x hx => ?_, h.distinct, ?_, fun u hu hnot x hx => ?_, h.valid, h.metric, h.worstFirst⟩
  · exact ⟨List.mem_append_left _ (h.found x hx).1, (h.found x hx).2⟩
  · rw [List.length_append, List.length_singleton]
    omega
  · rcases List.mem_append.mp hu with hu | hu
    · exact h.best u hu hnot x hx
    · rw [List.mem_singleton.mp hu]
      refine Int.le_trans ?_ (h.root_le hx)
      by_contra hlt
      have hroot := h.valid.numbers _ (Heap.root_mem (by omega))
      rw [(scoreBetter_iff metric hnumber hroot).mpr (Int.not_le.mp hlt)] at hworse
      cases hworse

include hv hnumber in
/-- A node that is pushed, with room for one more. -/
theorem Kept.grow {n : Nat} (hsize : results.size + 1 = min n (examined.length + 1))
    (hbest : ∀ u ∈ examined, u ∉ results.data.map (·.idx) →
      goodness metric (score u) ≤ goodness metric (score v))
    {pushed : Heap} (hpushed : Pushed results ⟨v, score v⟩ pushed) :
    Kept metric score n (examined ++ [v]) pushed := by
  have hmem : ∀ x ∈ pushed.data, x = ⟨v, score v⟩ ∨ x ∈ results.data :=
    fun x hx => List.mem_cons.mp (hpushed.data.mem_iff.mp hx)
  refine ⟨fun x hx => ?_, ?_, ?_, fun u hu hnot x hx => ?_, hpushed.valid h.valid hnumber,
    hpushed.metric.trans h.metric, hpushed.worstFirst.trans h.worstFirst⟩
  · rcases hmem x hx with rfl | hx
    · exact ⟨List.mem_append_right _ (List.mem_singleton.mpr rfl), rfl⟩
    · exact ⟨List.mem_append_left _ (h.found x hx).1, (h.found x hx).2⟩
  · refine (hpushed.data.map _).nodup_iff.mpr ?_
    rw [List.map_cons, List.nodup_cons]
    exact ⟨fun hin => hv (h.mem hin), h.distinct⟩
  · rw [hpushed.size, List.length_append, List.length_singleton, hsize]
  · -- a node that is left out was left out before
    rw [(hpushed.data.map _).mem_iff, List.map_cons, List.mem_cons, not_or] at hnot
    rcases List.mem_append.mp hu with hu | hu
    · rcases hmem x hx with rfl | hx
      · exact hbest u hu hnot.2
      · exact h.best u hu hnot.2 x hx
    · exact absurd (List.mem_singleton.mp hu) hnot.1

omit h in
/-- The worst result gives way. -/
theorem Kept.pop (h : Kept metric score (ef + 1) examined results) (hfull : ef < results.size) :
    Kept metric score ef examined (heapPop results).2 := by
  have hsize := h.size
  have hpop : Popped results (heapPop results) := heapPop_popped (by omega)
  have hpopsize := hpop.size
  have hrest : ∀ x ∈ (heapPop results).2.data, x ∈ results.data :=
    fun x hx => hpop.data.mem_iff.mpr (List.mem_cons_of_mem _ hx)
  have hsplit := (hpop.data.map (·.idx)).nodup_iff.mp h.distinct
  rw [List.map_cons, List.nodup_cons] at hsplit
  refine ⟨fun x hx => h.found x (hrest x hx), hsplit.2, by omega, fun u hu hnot x hx => ?_,
    hpop.valid h.valid, hpop.metric.trans h.metric, hpop.worstFirst.trans h.worstFirst⟩
  by_cases hgone : u = (heapPop results).1.idx
  · -- the one that gave way is no better than those that stay
    have htop : (heapPop results).1 ∈ results.data := hpop.data.mem_iff.mpr List.mem_cons_self
    rw [hgone, ← (h.found _ htop).2, hpop.top]
    exact h.root_le (hrest x hx)
  · refine h.best u hu ?_ x (hrest x hx)
    rw [(hpop.data.map _).mem_iff, List.map_cons, List.mem_cons, not_or]
    exact ⟨hgone, hnot⟩

include hv hnumber in
/-- A node that is pushed, and the worst result that gives way to it. -/
theorem Kept.push (hef : 0 < ef)
    (hbetter : results.size < ef ∨ scoreBetter metric (score v) (results.at_ 0).score = true)
    {pushed : Heap} (hpushed : Pushed results ⟨v, score v⟩ pushed) :
    Kept metric score ef (examined ++ [v])
      (if ef < pushed.size then (heapPop pushed).2 else pushed) := by
  have hsize := h.size
  have hpsize := hpushed.size
  split
  · rename_i hover
    refine (h.grow hv hnumber (by omega) (fun u hu hnot => ?_) hpushed).pop hover
    have hbetter := hbetter.resolve_left (by omega)
    have hroot := Heap.root_mem (show 0 < results.size by omega)
    rw [scoreBetter_iff metric hnumber (h.valid.numbers _ hroot)] at hbetter
    exact (h.best u hu hnot _ hroot).trans (Int.le_of_lt hbetter)
  · rename_i hroom
    refine h.grow hv hnumber (by omega) (fun u hu hnot => ?_) hpushed
    exact absurd (h.all (by omega) u hu) hnot

end Kept

/-! ## One level of the graph -/

/-- An edge of one level. -/
def LevelEdge (items : List Item) (level a b : Nat) : Prop :=
  ∃ list, listAt items a level = some list ∧ b ∈ list.edges

/-- The nodes that the entry reaches along the edges of one level. -/
def ReachedAt (items : List Item) (level entryIdx : Nat) : Nat → Prop :=
  ReflTransGen (LevelEdge items level) entryIdx

theorem Linked.reachedAt {items : List Item} (h : Linked items) {level entryIdx : Nat}
    (hentry : Placed items entryIdx level) :
    Inside items level (ReachedAt items level entryIdx) := by
  refine ⟨fun idx hidx => ?_, fun idx list hidx hlist e he => hidx.tail ⟨list, hlist, he⟩⟩
  induction hidx with
  | refl => exact hentry
  | tail _ hedge _ =>
    obtain ⟨list, hlist, he⟩ := hedge
    exact h _ _ list hlist _ he

section Arithmetic

variable [Arith] (hnsw : Index) (query : List Binary32) (queryNorm : Binary64)

/-! ## The examined nodes -/

/-- `v` waits among the candidates. -/
def LevelSearch.Queued (st : LevelSearch) (v : Nat) : Prop := v ∈ st.candidates.data.map (·.idx)

/-- What the loop keeps: the marks are the examined nodes, all of them in `ok`. -/
structure Examining (ok : Nat → Prop) (ef : Nat) (t : Trace) : Prop where
  inside : ∀ v ∈ t.examined, ok v
  once : t.examined.Nodup
  marks : ∀ v, ok v → t.st.visited[v]? = some (decide (v ∈ t.examined))
  queued : ∀ v, t.st.Queued v → v ∈ t.examined
  kept : Kept hnsw.metric (scoreAt hnsw query queryNorm) ef t.examined t.st.results

/-- The candidates, and the nodes that may still become one: the bound of the loop. -/
def Trace.pending (count : Nat) (t : Trace) : Nat :=
  t.st.candidates.size + (count - t.examined.length)

/-- What the visit of neighbours adds. Until `ef` nodes are examined, a new one is a candidate. -/
structure Widens (ef count : Nat) (t t' : Trace) : Prop where
  older : t.examined <+: t'.examined
  waits : ∀ v, t.st.Queued v → t'.st.Queued v
  fresh : t'.examined.length ≤ ef → ∀ v ∈ t'.examined, v ∈ t.examined ∨ t'.st.Queued v
  pending : t'.pending count ≤ t.pending count

omit [Arith] in
theorem Widens.refl (ef count : Nat) (t : Trace) : Widens ef count t t :=
  ⟨List.prefix_refl _, fun _ h => h, fun _ _ h => .inl h, Nat.le_refl _⟩

omit [Arith] in
theorem Widens.trans {ef count : Nat} {t t' t'' : Trace} (h : Widens ef count t t')
    (h' : Widens ef count t' t'') : Widens ef count t t'' := by
  refine ⟨h.older.trans h'.older, fun v hv => h'.waits v (h.waits v hv), fun hlen v hv => ?_,
    Nat.le_trans h'.pending h.pending⟩
  rcases h'.fresh hlen v hv with hv | hv
  · exact (h.fresh (Nat.le_trans h'.older.length_le hlen) v hv).imp_right (h'.waits v)
  · exact .inr hv

variable {hnsw query queryNorm}
variable {ok : Nat → Prop} {level ef : Nat} (hinside : Inside hnsw.items level ok)

include hinside

/-- No more nodes are examined than there are items. -/
theorem Examining.length_le {t : Trace} (h : Examining hnsw query queryNorm ok ef t) :
    t.examined.length ≤ hnsw.count := by
  have hsub : t.examined ⊆ List.range hnsw.count := fun v hv =>
    List.mem_range.mpr (hinside.placed v (h.inside v hv)).lt_count
  have := h.once.length_le_of_subset hsub
  rwa [List.length_range] at this

variable {I : Env → Prop} {X : Stop Status → Prop} [Serves I X Status.enomem]
  (hnumbers : ∀ v, ok v → (scoreAt hnsw query queryNorm v).isNaN = false) (hef : 0 < ef)

include hnumbers hef

/-- **One neighbour**: examined before, or examined now. -/
theorem visitTraced_keeps {t : Trace} (ht : Examining hnsw query queryNorm ok ef t) {v : Nat}
    (hv : ok v) : Keeps I X (visitTraced hnsw query queryNorm ef t v) fun t' =>
      (Examining hnsw query queryNorm ok ef t' ∧ Widens ef hnsw.count t t') ∧ v ∈ t'.examined := by
  have hmark := ht.marks v hv
  unfold visitTraced visitNeighbor
  by_cases hmem : v ∈ t.examined
  · rw [hmark, decide_eq_true hmem]
    simp only [pure_bind]
    rw [if_neg (by decide)]
    exact Keeps.pure ⟨⟨ht, Widens.refl ef _ t⟩, hmem⟩
  · rw [hmark, decide_eq_false hmem]
    simp only [ite_true, distTo_scoreAt hnsw query queryNorm (hinside.placed v hv), pure_bind]
    have hroom : t.examined.length + 1 ≤ hnsw.count := by
      have hsub : (v :: t.examined) ⊆ List.range hnsw.count := by
        intro u hu
        refine List.mem_range.mpr (hinside.placed u ?_).lt_count
        rcases List.mem_cons.mp hu with rfl | hu
        · exact hv
        · exact ht.inside u hu
      have := (List.nodup_cons.mpr ⟨hmem, ht.once⟩).length_le_of_subset hsub
      rwa [List.length_range] at this
    have hinside' : ∀ u ∈ t.examined ++ [v], ok u := by
      intro u hu
      rcases List.mem_append.mp hu with hu | hu
      · exact ht.inside u hu
      · rwa [List.mem_singleton.mp hu]
    have honce : (t.examined ++ [v]).Nodup :=
      (List.perm_append_singleton v t.examined).nodup_iff.mpr
        (List.nodup_cons.mpr ⟨hmem, ht.once⟩)
    have hmarks : ∀ u, ok u →
        (t.st.visited.set v true)[u]? = some (decide (u ∈ t.examined ++ [v])) := by
      intro u hu
      obtain ⟨hlt, -⟩ := List.getElem?_eq_some_iff.mp hmark
      by_cases huv : u = v
      · rw [huv, List.getElem?_set_self hlt]
        simp
      · rw [List.getElem?_set_ne (Ne.symm huv), ht.marks u hu]
        simp [huv]
    have hlen : (t.examined ++ [v]).length = t.examined.length + 1 := by simp
    split
    · rename_i hbetter
      rw [bind_assoc]
      refine Keeps.bind (heapPush_pushed _ _ _) fun candidates hcandidates => ?_
      rw [bind_assoc]
      refine Keeps.bind (heapPush_pushed _ _ _) fun results hresults => ?_
      rw [pure_bind]
      have hqueue : ∀ u, u ∈ candidates.data.map (·.idx) ↔ u = v ∨ t.st.Queued u := by
        intro u
        rw [(hcandidates.data.map _).mem_iff, List.map_cons, List.mem_cons]
        rfl
      refine Keeps.pure ⟨⟨⟨hinside', honce, hmarks, fun u hu => ?_,
        ht.kept.push hmem (hnumbers v hv) hef hbetter hresults⟩, ?_⟩, ?_⟩
      · rcases (hqueue u).mp hu with rfl | hu
        · exact List.mem_append_right _ (List.mem_singleton.mpr rfl)
        · exact List.mem_append_left _ (ht.queued u hu)
      · refine ⟨List.prefix_append _ _, fun u hu => (hqueue u).mpr (.inr hu), fun _ u hu => ?_, ?_⟩
        · rcases List.mem_append.mp hu with hu | hu
          · exact .inl hu
          · exact .inr ((hqueue u).mpr (.inl (List.mem_singleton.mp hu)))
        · simp only [Trace.pending, hcandidates.size, hlen]
          omega
      · exact List.mem_append_right _ (List.mem_singleton.mpr rfl)
    · rename_i hbetter
      rw [not_or, Nat.not_lt, Bool.not_eq_true] at hbetter
      have hsize := ht.kept.size
      rw [pure_bind]
      refine Keeps.pure ⟨⟨⟨hinside', honce, hmarks, fun u hu => ?_,
        ht.kept.skip (hnumbers v hv) hef hbetter.1 hbetter.2⟩, ?_⟩, ?_⟩
      · exact List.mem_append_left _ (ht.queued u hu)
      · refine ⟨List.prefix_append _ _, fun u hu => hu, fun hle => ?_, ?_⟩
        · rw [hlen] at hle
          omega
        · simp only [Trace.pending, hlen]
          omega
      · exact List.mem_append_right _ (List.mem_singleton.mpr rfl)

omit hinside hnumbers hef

/-- The neighbours of the examined nodes are examined, but for those of the candidates. -/
def Covered (items : List Item) (level ef : Nat) (t : Trace) : Prop :=
  t.examined.length ≤ ef → ∀ v ∈ t.examined, t.st.Queued v ∨
    ∀ b, LevelEdge items level v b → b ∈ t.examined

/-- The search has gone as far as it may: `ef` nodes are examined, or all that they lead to. -/
def Exhausted (items : List Item) (level ef : Nat) (examined : List Nat) : Prop :=
  ef ≤ examined.length ∨ ∀ v ∈ examined, ∀ b, LevelEdge items level v b → b ∈ examined

include hinside hnumbers hef

/-- **The loop** runs until the search is exhausted. -/
theorem loopTraced_keeps : ∀ (fuel : Nat) {t : Trace}, Examining hnsw query queryNorm ok ef t →
    Covered hnsw.items level ef t → t.pending hnsw.count < fuel →
      Keeps I X (loopTraced hnsw query queryNorm level ef fuel t) fun t' =>
        (Examining hnsw query queryNorm ok ef t' ∧ t.examined <+: t'.examined) ∧
          Exhausted hnsw.items level ef t'.examined
  | 0, _, _, _, hfuel => absurd hfuel (Nat.not_lt_zero _)
  | fuel + 1, t, ht, hcovered, hfuel => by
    unfold loopTraced
    split
    · rename_i hempty
      refine Keeps.pure ⟨⟨ht, List.prefix_refl _⟩, ?_⟩
      rcases Nat.lt_or_ge ef t.examined.length with hlen | hlen
      · exact .inl (Nat.le_of_lt hlen)
      refine .inr fun v hv => (hcovered hlen v hv).resolve_left fun hqueued => ?_
      unfold LevelSearch.Queued at hqueued
      rw [List.length_eq_zero_iff.mp hempty] at hqueued
      cases hqueued
    · rename_i hsize
      have hpop : Popped t.st.candidates (heapPop t.st.candidates) :=
        heapPop_popped (Nat.pos_of_ne_zero hsize)
      have hpopsize := hpop.size
      rcases hheap : heapPop t.st.candidates with ⟨c, candidates⟩
      rw [hheap] at hpop hpopsize
      simp only at hpopsize ⊢
      have hqueue : ∀ v, t.st.Queued v ↔ v = c.idx ∨ v ∈ candidates.data.map (·.idx) := by
        intro v
        unfold LevelSearch.Queued
        rw [(hpop.data.map _).mem_iff, List.map_cons, List.mem_cons]
      have ht₀ : Examining hnsw query queryNorm ok ef ⟨{ t.st with candidates }, t.examined⟩ :=
        ⟨ht.inside, ht.once, ht.marks, fun v hv => ht.queued v ((hqueue v).mpr (.inr hv)), ht.kept⟩
      split
      · rename_i hstop
        refine Keeps.pure ⟨⟨ht₀, List.prefix_refl _⟩, .inl ?_⟩
        have hfull := ht.kept.size
        have hef' : ef ≤ t.st.results.size := hstop.1
        change ef ≤ t.examined.length
        omega
      · have hc : ok c.idx := ht.inside _ (ht.queued _ ((hqueue _).mpr (.inl rfl)))
        obtain ⟨list, hlist⟩ := hinside.placed _ hc
        rw [neighborsAt_eq hlist, pure_bind]
        refine Keeps.bind (Keeps.foldlM (fun done t' => (Examining hnsw query queryNorm ok ef t' ∧
          Widens ef hnsw.count ⟨{ t.st with candidates }, t.examined⟩ t') ∧
            ∀ v ∈ done, v ∈ t'.examined) ⟨⟨ht₀, Widens.refl _ _ _⟩, by simp⟩ ?_) ?_
        · rintro done v t' hv ⟨⟨ht', hwidens⟩, hdone⟩
          refine (visitTraced_keeps hinside hnumbers hef ht'
            (hinside.closed _ _ hc hlist v hv)).mono ?_
          rintro t'' ⟨⟨ht'', hwidens'⟩, hv''⟩
          refine ⟨⟨ht'', hwidens.trans hwidens'⟩, fun u hu => ?_⟩
          rcases List.mem_append.mp hu with hu | hu
          · exact hwidens'.older.subset (hdone u hu)
          · rwa [List.mem_singleton.mp hu]
        · rintro t' ⟨⟨ht', hwidens⟩, hdone⟩
          have hpending := hwidens.pending
          refine (loopTraced_keeps fuel ht' (fun hlen v hv => ?_) ?_).mono ?_
          · rcases hwidens.fresh hlen v hv with hold | hnew
            · have hlen₀ := Nat.le_trans hwidens.older.length_le hlen
              rcases hcovered hlen₀ v hold with hqueued | hedges
              · -- the candidate in hand gave way to its neighbours
                rcases (hqueue v).mp hqueued with rfl | hrest
                · refine .inr fun b hb => ?_
                  obtain ⟨list', hlist', hb⟩ := hb
                  rw [hlist] at hlist'
                  cases hlist'
                  exact hdone b hb
                · exact .inl (hwidens.waits v hrest)
              · exact .inr fun b hb => hwidens.older.subset (hedges b hb)
            · exact .inl hnew
          · simp only [Trace.pending] at hpending hfuel ⊢
            omega
          · rintro t'' ⟨⟨ht'', holder⟩, hexhausted⟩
            exact ⟨⟨ht'', hwidens.older.trans holder⟩, hexhausted⟩

omit [Arith] hinside hnumbers hef in
theorem kept_nil {metric : Metric} {score : Nat → Binary64} {heap : Heap} (hdata : heap.data = [])
    (hmetric : heap.metric = metric) (hworst : heap.worstFirst = true) :
    Kept metric score ef [] heap := by
  have hsize : heap.size = 0 := by
    rw [Heap.size, hdata]
    rfl
  refine ⟨?_, ?_, ?_, ?_, ⟨?_, ?_⟩, hmetric, hworst⟩
  · rw [hdata]
    exact fun x hx => by cases hx
  · rw [hdata]
    exact List.nodup_nil
  · rw [hsize, List.length_nil, Nat.min_zero]
  · exact fun v hv => by cases hv
  · rw [hdata]
    exact fun x hx => by cases hx
  · rw [hsize]
    exact fun j _ hj => absurd hj (Nat.not_lt_zero j)

/-- **The search of a level** examines nodes in `ok` until it is exhausted. -/
theorem searchTraced_keeps {entryIdx : Nat} (hentry : ok entryIdx) {results : Heap}
    (hdata : results.data = []) (hmetric : results.metric = hnsw.metric)
    (hworst : results.worstFirst = true) :
    Keeps I X (searchTraced hnsw query queryNorm entryIdx level ef results) fun t =>
      (Examining hnsw query queryNorm ok ef t ∧ entryIdx ∈ t.examined) ∧
        Exhausted hnsw.items level ef t.examined := by
  have hplaced := hinside.placed _ hentry
  unfold searchTraced heapCreate
  simp only [bind_assoc, pure_bind]
  refine Keeps.bind Keeps.allocOr fun _ _ => Keeps.bind Keeps.allocOr fun _ _ =>
    Keeps.bind Keeps.allocOr fun _ _ => ?_
  rw [distTo_scoreAt hnsw query queryNorm hplaced, pure_bind]
  refine Keeps.bind (heapPush_pushed _ _ _) fun candidates hcandidates => ?_
  refine Keeps.bind (heapPush_pushed _ _ _) fun results' hresults => ?_
  have hqueue : ∀ v, v ∈ candidates.data.map (·.idx) ↔ v = entryIdx := by
    intro v
    rw [(hcandidates.data.map _).mem_iff]
    simp
  have hnone : Kept hnsw.metric (scoreAt hnsw query queryNorm) ef [] results :=
    kept_nil hdata hmetric hworst
  have hkept := hnone.push (v := entryIdx) (by simp)
    (hnumbers _ hentry) hef (.inl (by rw [Heap.size, hdata]; exact hef)) hresults
  have hsize : results'.size = 1 := by
    rw [hresults.size, Heap.size, hdata]
    rfl
  rw [if_neg (by omega)] at hkept
  refine (loopTraced_keeps hinside hnumbers hef (hnsw.count + 1)
    ⟨fun v hv => ?_, by simp, fun v hv => ?_, fun v hv => ?_, hkept⟩ (fun _ v hv => ?_) ?_).mono ?_
  · rwa [List.mem_singleton.mp hv]
  · have hlt : v < hnsw.count := (hinside.placed v hv).lt_count
    by_cases heq : v = entryIdx
    · subst heq
      rw [List.getElem?_set_self (by rw [List.length_replicate]; exact hlt)]
      simp
    · rw [List.getElem?_set_ne (Ne.symm heq), List.getElem?_replicate, if_pos hlt]
      simp [heq]
  · exact List.mem_singleton.mpr ((hqueue v).mp hv)
  · exact .inl ((hqueue v).mpr (List.mem_singleton.mp hv))
  · have hpos : 0 < hnsw.count := Nat.lt_of_le_of_lt (Nat.zero_le _) hplaced.lt_count
    have hone : candidates.size = 1 := hcandidates.size
    simp only [Trace.pending, hone, List.length_singleton]
    omega
  · rintro t ⟨⟨ht, holder⟩, hexhausted⟩
    exact ⟨⟨ht, holder.subset (List.mem_singleton.mpr rfl)⟩, hexhausted⟩

omit hinside hnumbers hef

/-! ## The best of the examined nodes -/

/-- What a search of a level leaves in its heap, beside the nodes it examined. -/
structure BestExamined (hnsw : Index) (query : List Binary32) (queryNorm : Binary64)
    (entryIdx level ef : Nat) (examined : List Nat) (results : Heap) : Prop where
  reached : ∀ v ∈ examined, ReachedAt hnsw.items level entryIdx v
  once : examined.Nodup
  distinct : (results.data.map (·.idx)).Nodup
  exact : ∀ x ∈ results.data, x.idx ∈ examined ∧ x.score = scoreAt hnsw query queryNorm x.idx
  size : results.size = min ef examined.length
  best : ∀ v ∈ examined, v ∉ results.data.map (·.idx) → ∀ x ∈ results.data,
    scoreBetter hnsw.metric (scoreAt hnsw query queryNorm v) x.score = false
  all : ∀ nodes : List Nat, nodes.length ≤ ef →
    (∀ v, ReachedAt hnsw.items level entryIdx v → v ∈ nodes) →
      ∀ v, v ∈ results.data.map (·.idx) ↔ ReachedAt hnsw.items level entryIdx v

theorem Examining.best {entryIdx : Nat} {t : Trace}
    (ht : Examining hnsw query queryNorm (ReachedAt hnsw.items level entryIdx) ef t)
    (hentry : entryIdx ∈ t.examined) (hexhausted : Exhausted hnsw.items level ef t.examined)
    (hnumbers : ∀ v, ReachedAt hnsw.items level entryIdx v →
      (scoreAt hnsw query queryNorm v).isNaN = false) :
    BestExamined hnsw query queryNorm entryIdx level ef t.examined t.st.results := by
  refine ⟨ht.inside, ht.once, ht.kept.distinct, ht.kept.found, ht.kept.size,
    fun v hv hnot x hx => ?_, fun nodes hlen hnodes v => ⟨fun hv => ht.inside v (ht.kept.mem hv), ?_⟩⟩
  · have hle := ht.kept.best v hv hnot x hx
    by_contra hbetter
    rw [Bool.not_eq_false, scoreBetter_iff hnsw.metric (hnumbers v (ht.inside v hv))
      (ht.kept.valid.numbers x hx)] at hbetter
    omega
  · intro hv
    have hsub : t.examined ⊆ nodes := fun u hu => hnodes u (ht.inside u hu)
    have hfew : t.examined.length ≤ ef := (ht.once.length_le_of_subset hsub).trans hlen
    refine ht.kept.all hfew v ?_
    rcases hexhausted with hmany | hclosed
    · exact mem_of_nodup_subset ht.once (fun u hu => hsub hu) (hlen.trans hmany) v (hnodes v hv)
    · induction hv with
      | refl => exact hentry
      | tail _ hedge ih => exact hclosed _ ih _ hedge

theorem searchLevel_examined (hlinked : Linked hnsw.items) {entryIdx : Nat}
    (hentry : Placed hnsw.items entryIdx level) (hef : 1 ≤ ef)
    (hnumbers : ∀ v, ReachedAt hnsw.items level entryIdx v →
      (scoreAt hnsw query queryNorm v).isNaN = false)
    {results : Heap} (hdata : results.data = []) (hmetric : results.metric = hnsw.metric)
    (hworst : results.worstFirst = true) :
    Keeps I X (searchLevel hnsw query queryNorm entryIdx level ef results) fun heap =>
      ∃ examined, BestExamined hnsw query queryNorm entryIdx level ef examined heap := by
  rw [← searchTraced_results]
  refine Keeps.bind (searchTraced_keeps (hlinked.reachedAt hentry) hnumbers hef .refl hdata hmetric
    hworst) ?_
  rintro t ⟨⟨ht, hin⟩, hexhausted⟩
  exact Keeps.pure ⟨t.examined, ht.best hin hexhausted hnumbers⟩

omit [Serves I X Status.enomem] in
/-- **The search of a level** ends, under any allocator: it leaves the best of the nodes it
examined, each of them examined once, or reports an allocation that failed. -/
theorem searchLevel_best (hlinked : Linked hnsw.items) {entryIdx : Nat}
    (hentry : Placed hnsw.items entryIdx level) (hef : 1 ≤ ef)
    (hnumbers : ∀ v, ReachedAt hnsw.items level entryIdx v →
      (scoreAt hnsw query queryNorm v).isNaN = false)
    {results : Heap} (hdata : results.data = []) (hmetric : results.metric = hnsw.metric)
    (hworst : results.worstFirst = true) (e : Env) :
    (∃ t e', (searchTraced hnsw query queryNorm entryIdx level ef results).exec e = (.ok t, e') ∧
      (searchLevel hnsw query queryNorm entryIdx level ef results).exec e =
        (.ok t.st.results, e') ∧
      BestExamined hnsw query queryNorm entryIdx level ef t.examined t.st.results) ∨
    (false ∈ e.allocs ∧ ∃ e', (searchLevel hnsw query queryNorm entryIdx level ef results).exec e =
      (.error (.fail .enomem), e')) := by
  have hkeeps := searchTraced_keeps (I := Within e.allocs) (X := FailsWithin e.allocs .enomem)
    (hlinked.reachedAt hentry) hnumbers hef .refl hdata hmetric hworst
  rw [← searchTraced_results, exec_bind]
  rcases hkeeps.returns_or_fails with ⟨t, e', hrun, ⟨ht, hin⟩, hexhausted⟩ | ⟨hfalse, e', hrun⟩
  · rw [hrun]
    exact .inl ⟨t, e', rfl, rfl, ht.best hin hexhausted hnumbers⟩
  · rw [hrun]
    exact .inr ⟨hfalse, e', rfl⟩

end Arithmetic

/-- The index of two items, from its entry point. -/
theorem searchLevel_best_two : ∃ (s : Life) (e' : Env) (t : Trace),
    (@life ieee ⟨.w64, .little⟩ 1 .cosine).Reachable s ∧
    (@searchLevel ieee s.index [⟨0x3F800000⟩] ⟨0x3FF0000000000000⟩ s.index.entryPointIdx 0 1
      ⟨[], 1, .cosine, true⟩).exec ⟨[], []⟩ = (.ok t.st.results, e') ∧
    @BestExamined ieee s.index [⟨0x3F800000⟩] ⟨0x3FF0000000000000⟩ s.index.entryPointIdx 0 1
      t.examined t.st.results := by
  obtain ⟨s, e', hrun, hq⟩ := exec_of_value?
    (x := @liveThrough ieee ⟨.w64, .little⟩ 1 .cosine 1 (sparing ⟨.w64, .little⟩) twoBuilt)
    (e := ⟨[], []⟩)
    (q := fun s => s.index.entryPointSet && decide (s.index.count = 2 ∧
      s.index.metric = .cosine ∧ ∀ v ∈ List.range 2, (@scoreAt ieee s.index [⟨0x3F800000⟩]
        ⟨0x3FF0000000000000⟩ v).isNaN = false))
    (by decide +kernel)
  simp only [Bool.and_eq_true, decide_eq_true_eq, List.mem_range] at hq
  obtain ⟨hset, hcount, hmetric, hnumbers⟩ := hq
  have hsparing := @liveThrough_sparing ieee ⟨.w64, .little⟩ 1 .cosine 1 twoBuilt s _ _ hrun
  have hready := ((@Sparing.kept ieee _ _ _ s hsparing) hset).2.ready hset
  obtain ⟨-, top, -, hentry⟩ := hready.entry (by omega)
  have hplaced := hentry.mono (Nat.zero_le top)
  have hbest := @searchLevel_best ieee s.index [⟨0x3F800000⟩] ⟨0x3FF0000000000000⟩ 0 1 hready.linked
    s.index.entryPointIdx hplaced (Nat.le_refl 1)
    (fun v hv => hnumbers v (hcount ▸ ((hready.linked.reachedAt hplaced).placed v hv).lt_count))
    ⟨[], 1, .cosine, true⟩ rfl hmetric.symm rfl ⟨[], []⟩
  rcases hbest with ⟨t, e'', -, hsearch, hbest⟩ | ⟨hfalse, -⟩
  · exact ⟨s, e'', t, hsparing.reachable, hsearch, hbest⟩
  · cases hfalse

end Ipa.Hnsw
