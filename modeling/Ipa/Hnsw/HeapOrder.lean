import Ipa.Hnsw.Heap
import Ipa.Lib.HeapOrder
import Mathlib.Data.List.Perm.Basic
import Mathlib.Data.Int.ConditionallyCompleteOrder

/-!
# The heap keeps its elements and its order

A push adds one element and a pop takes the root away, whatever the scores are. Where no score is
a NaN the scores are totally ordered by `goodness`, and the array stays a heap: its root is an
element that no other has priority over.
-/

namespace Ipa.Hnsw

open Run

/-! ## The order of the scores -/

/-- The place of a score among the others, the best one last. -/
def goodness (metric : Metric) (s : Binary64) : Int :=
  match metric with
  | .l2 => -s.key
  | _ => s.key

section Order

variable (metric : Metric) {a b : Binary64} (ha : a.isNaN = false) (hb : b.isNaN = false)

include ha hb

theorem lt_iff_key : a.lt b = true ↔ a.key < b.key := by
  simp [Binary64.lt, ha, hb]

theorem scoreBetter_iff : scoreBetter metric a b = true ↔ goodness metric b < goodness metric a := by
  cases metric
  · exact lt_iff_key hb ha
  · exact lt_iff_key hb ha
  · rw [goodness, goodness, Int.neg_lt_neg_iff]
    exact lt_iff_key ha hb

theorem scoreWorse_iff : scoreWorse metric a b = true ↔ goodness metric a < goodness metric b := by
  cases metric
  · exact lt_iff_key ha hb
  · exact lt_iff_key ha hb
  · rw [goodness, goodness, Int.neg_lt_neg_iff]
    exact lt_iff_key hb ha

/-- The place of a score in a heap: the one with priority over all others first. -/
def heapRank (metric : Metric) (worstFirst : Bool) (s : Binary64) : Int :=
  if worstFirst then goodness metric s else -goodness metric s

theorem heapHasPriority_iff (worstFirst : Bool) : heapHasPriority metric a b worstFirst = true ↔
    heapRank metric worstFirst a < heapRank metric worstFirst b := by
  cases worstFirst with
  | true => exact scoreWorse_iff metric ha hb
  | false =>
    change scoreBetter metric a b = true ↔ -goodness metric a < -goodness metric b
    rw [Int.neg_lt_neg_iff]
    exact scoreBetter_iff metric ha hb

end Order

/-! ## The elements -/

section Elements

variable (metric : Metric) (worstFirst : Bool)

theorem length_siftUp (score : Binary64) : ∀ (fuel : Nat) (data : List NodeScore) (i : Nat),
    (siftUp metric worstFirst score fuel data i).1.length = data.length
  | 0, _, _ => rfl
  | fuel + 1, data, i => by
    unfold siftUp
    split
    · simp only
      split
      · rw [length_siftUp score fuel, List.length_set]
      · rfl
    · rfl

/-- Moving the hole exchanges the element with another. -/
theorem set_getD_set_perm {data : List NodeScore} {i p : Nat} (hi : i < data.length)
    (hp : p < data.length) (hne : i ≠ p) (x : NodeScore) :
    ((data.set i (data.getD p default)).set p x).Perm (data.set i x) := by
  have h := @List.set_set_perm _ (data.set i x) i p
    (by rw [List.length_set]; exact hi) (by rw [List.length_set]; exact hp)
  rw [List.getElem_set_self, List.getElem_set_ne hne, List.set_set] at h
  rwa [List.getD_eq_getElem _ _ hp]

theorem siftUp_perm (score : Binary64) (x : NodeScore) :
    ∀ (fuel : Nat) (data : List NodeScore) (i : Nat), i < data.length →
      ((siftUp metric worstFirst score fuel data i).1.set
        (siftUp metric worstFirst score fuel data i).2 x).Perm (data.set i x)
  | 0, _, _, _ => .refl _
  | fuel + 1, data, i, hi => by
    unfold siftUp
    split
    · rename_i hpos
      simp only
      split
      · refine (siftUp_perm score x fuel _ _ (by rw [List.length_set]; omega)).trans ?_
        exact set_getD_set_perm hi (by omega) (by omega) x
      · exact .refl _
    · exact .refl _

theorem priorChild_cases (data : List NodeScore) (i : Nat) :
    priorChild metric worstFirst data i = i * 2 + 1 ∨
      (priorChild metric worstFirst data i = i * 2 + 2 ∧ i * 2 + 2 < data.length) := by
  unfold priorChild
  simp only
  split
  · rename_i h
    exact .inr ⟨rfl, h.1⟩
  · exact .inl rfl

theorem siftDown_perm (last : NodeScore) :
    ∀ (fuel : Nat) (data : List NodeScore) (i : Nat), (i < data.length ∨ data = []) →
      ((siftDown metric worstFirst last fuel data i).1.set
        (siftDown metric worstFirst last fuel data i).2 last).Perm (data.set i last)
  | 0, _, _, _ => .refl _
  | fuel + 1, data, i, hi => by
    unfold siftDown
    split
    · rename_i hchild
      have hlt : i < data.length := by omega
      have hc := priorChild_cases metric worstFirst data i
      simp only
      split
      · refine (siftDown_perm last fuel _ _ (.inl (by rw [List.length_set]; omega))).trans ?_
        exact set_getD_set_perm hlt (by omega) (by omega) last
      · exact .refl _
    · exact .refl _

end Elements

/-! ## The order -/

/-- The ranks of the places of an array. -/
def ranksOf (metric : Metric) (worstFirst : Bool) (data : List NodeScore) (j : Nat) : Int :=
  heapRank metric worstFirst (data.getD j default).score

section Sifts

variable (metric : Metric) (worstFirst : Bool)

theorem ranksOf_set {data : List NodeScore} {i : Nat} (hi : i < data.length) (x : NodeScore)
    (j : Nat) : ranksOf metric worstFirst (data.set i x) j =
      if j = i then heapRank metric worstFirst x.score else ranksOf metric worstFirst data j := by
  unfold ranksOf
  by_cases hj : j = i
  · rw [if_pos hj, hj, List.getD_eq_getElem _ _ (by rw [List.length_set]; exact hi),
      List.getElem_set_self]
  · rw [if_neg hj, List.getD_eq_getElem?_getD, List.getElem?_set_ne (Ne.symm hj),
      ← List.getD_eq_getElem?_getD]

/-- The ranks after the hole has moved from `i` to `p`. -/
theorem ranksOf_move {data : List NodeScore} {i p : Nat} (hi : i < data.length)
    (hp : p < data.length) (hne : i ≠ p) (x : NodeScore) :
    ranksOf metric worstFirst ((data.set i (data.getD p default)).set p x) =
      HeapOrder.swapped (ranksOf metric worstFirst (data.set i x)) i p := by
  funext j
  unfold HeapOrder.swapped
  rw [ranksOf_set _ _ (by rw [List.length_set]; exact hp), ranksOf_set _ _ hi, ranksOf_set _ _ hi,
    ranksOf_set _ _ hi, ranksOf_set _ _ hi, if_neg (Ne.symm hne), if_pos rfl]
  by_cases hji : j = i
  · rw [if_neg (by omega), if_pos hji, if_pos hji]
    rfl
  · rw [if_neg hji, if_neg hji, if_neg hji]

theorem getD_number {data : List NodeScore} (h : ∀ y ∈ data, y.score.isNaN = false) {j : Nat}
    (hj : j < data.length) : (data.getD j default).score.isNaN = false := by
  rw [List.getD_eq_getElem _ _ hj]
  exact h _ (List.getElem_mem hj)

theorem set_number {data : List NodeScore} (h : ∀ y ∈ data, y.score.isNaN = false) {x : NodeScore}
    (hx : x.score.isNaN = false) (i : Nat) : ∀ y ∈ data.set i x, y.score.isNaN = false := by
  intro y hy
  rcases List.mem_or_eq_of_mem_set hy with hy | rfl
  · exact h y hy
  · exact hx

theorem siftUp_heaped {x : NodeScore} (hx : x.score.isNaN = false) :
    ∀ (fuel : Nat) (data : List NodeScore) (i : Nat), i < data.length → i ≤ fuel →
      (∀ y ∈ data, y.score.isNaN = false) →
      HeapOrder.Rising data.length (ranksOf metric worstFirst (data.set i x)) i →
        HeapOrder.Heaped data.length (ranksOf metric worstFirst
          ((siftUp metric worstFirst x.score fuel data i).1.set
            (siftUp metric worstFirst x.score fuel data i).2 x))
  | 0, data, i, _, hfuel, _, h => h.done fun hpos => absurd hpos (by omega)
  | fuel + 1, data, i, hi, hfuel, hdata, h => by
    have hparent : 0 < i → ranksOf metric worstFirst (data.set i x) ((i - 1) / 2) =
        ranksOf metric worstFirst data ((i - 1) / 2) := by
      intro hpos
      rw [ranksOf_set _ _ hi, if_neg (by omega)]
    have hown : ranksOf metric worstFirst (data.set i x) i =
        heapRank metric worstFirst x.score := by
      rw [ranksOf_set _ _ hi, if_pos rfl]
    unfold siftUp
    split
    · rename_i hpos
      have hp : (i - 1) / 2 < data.length := by omega
      have hprior := heapHasPriority_iff metric hx (getD_number hdata hp) worstFirst
      simp only
      split
      · rename_i hlt
        have hstep := h.step hpos hi (by
          rw [hown, hparent hpos]
          exact hprior.mp hlt)
        rw [← ranksOf_move _ _ hi hp (by omega) x] at hstep
        have hrest := siftUp_heaped hx fuel (data.set i (data.getD ((i - 1) / 2) default))
          ((i - 1) / 2) (by rw [List.length_set]; exact hp) (by omega)
          (set_number hdata (getD_number hdata hp) i)
        rw [List.length_set] at hrest
        exact hrest hstep
      · rename_i hlt
        refine h.done fun _ => ?_
        rw [hown, hparent hpos]
        exact Int.not_lt.mp fun h => hlt (hprior.mpr h)
    · rename_i hpos
      exact h.done fun h => absurd h hpos

/-- The child that the hole moves to ranks before no other child. -/
theorem priorChild_least {data : List NodeScore} (hdata : ∀ y ∈ data, y.score.isNaN = false)
    {i : Nat} (hi : i * 2 + 1 < data.length) : ∀ j, 0 < j → j < data.length → (j - 1) / 2 = i →
      ranksOf metric worstFirst data (priorChild metric worstFirst data i) ≤
        ranksOf metric worstFirst data j := by
  intro j hpos hj hparent
  have hcases : j = i * 2 + 1 ∨ j = i * 2 + 2 := by omega
  unfold priorChild
  simp only
  split
  · rename_i h
    obtain ⟨hlt, hprior⟩ := h
    have hless := (heapHasPriority_iff metric (getD_number hdata hlt) (getD_number hdata hi)
      worstFirst).mp hprior
    rcases hcases with rfl | rfl
    · exact Int.le_of_lt hless
    · exact Int.le_refl _
  · rename_i h
    rcases hcases with rfl | rfl
    · exact Int.le_refl _
    · refine Int.not_lt.mp fun hless => h ⟨hj, ?_⟩
      exact (heapHasPriority_iff metric (getD_number hdata hj) (getD_number hdata hi) worstFirst).mpr hless

theorem siftDown_heaped {last : NodeScore} (hlast : last.score.isNaN = false) :
    ∀ (fuel : Nat) (data : List NodeScore) (i : Nat), i < data.length → data.length ≤ i + fuel →
      (∀ y ∈ data, y.score.isNaN = false) →
      HeapOrder.Sinking data.length (ranksOf metric worstFirst (data.set i last)) i →
        HeapOrder.Heaped data.length (ranksOf metric worstFirst
          ((siftDown metric worstFirst last fuel data i).1.set
            (siftDown metric worstFirst last fuel data i).2 last))
  | 0, data, i, hi, hfuel, _, _ => absurd hi (by omega)
  | fuel + 1, data, i, hi, hfuel, hdata, h => by
    have hothers : ∀ j, j ≠ i → ranksOf metric worstFirst (data.set i last) j =
        ranksOf metric worstFirst data j := by
      intro j hj
      rw [ranksOf_set _ _ hi, if_neg hj]
    have hown : ranksOf metric worstFirst (data.set i last) i =
        heapRank metric worstFirst last.score := by
      rw [ranksOf_set _ _ hi, if_pos rfl]
    unfold siftDown
    split
    · rename_i hchild
      have hc := priorChild_cases metric worstFirst data i
      have hleast := priorChild_least metric worstFirst hdata hchild
      simp only
      generalize priorChild metric worstFirst data i = c at hc hleast ⊢
      have hclt : c < data.length := by omega
      have hprior := heapHasPriority_iff metric (getD_number hdata hclt) hlast
        worstFirst
      split
      · rename_i hlt
        have hstep := h.step (c := c) (by omega) hclt (by omega) (by
          rw [hown, hothers c (by omega)]
          exact hprior.mp hlt) (by
          intro j hpos hj hparent
          rw [hothers c (by omega), hothers j (by omega)]
          exact hleast j hpos hj hparent)
        rw [← ranksOf_move _ _ hi hclt (by omega) last] at hstep
        have hrest := siftDown_heaped hlast fuel (data.set i (data.getD c default)) c
          (by rw [List.length_set]; exact hclt) (by rw [List.length_set]; omega)
          (set_number hdata (getD_number hdata hclt) i)
        rw [List.length_set] at hrest
        exact hrest hstep
      · rename_i hlt
        refine h.done fun j hpos hj hparent => ?_
        rw [hown, hothers j (by omega)]
        exact (Int.not_lt.mp fun h => hlt (hprior.mpr h)).trans (hleast j hpos hj hparent)
    · rename_i hchild
      exact h.done fun j hpos hj hparent => absurd hj (by omega)

end Sifts

/-! ## Push and pop -/

/-- A heap without NaNs, in order. -/
structure Heap.Valid (heap : Heap) : Prop where
  numbers : ∀ x ∈ heap.data, x.score.isNaN = false
  heaped : HeapOrder.Heaped heap.size (ranksOf heap.metric heap.worstFirst heap.data)

/-- No element has priority over the root. -/
theorem Heap.Valid.root {heap : Heap} (h : heap.Valid) {x : NodeScore} (hx : x ∈ heap.data) :
    heapHasPriority heap.metric x.score (heap.at_ 0).score heap.worstFirst = false := by
  obtain ⟨j, hj, rfl⟩ := List.getElem_of_mem hx
  have hle := h.heaped.root_le j hj
  have hprior := heapHasPriority_iff heap.metric (getD_number h.numbers hj)
    (getD_number h.numbers (j := 0) (by omega)) heap.worstFirst
  rw [← List.getD_eq_getElem _ default hj]
  by_contra hnot
  rw [Bool.not_eq_false] at hnot
  exact absurd hle (Int.not_le.mpr (hprior.mp hnot))

/-- What a push leaves. -/
structure Pushed (heap : Heap) (x : NodeScore) (heap' : Heap) : Prop where
  data : heap'.data.Perm (x :: heap.data)
  metric : heap'.metric = heap.metric
  worstFirst : heap'.worstFirst = heap.worstFirst
  valid : heap.Valid → x.score.isNaN = false → heap'.Valid

theorem Pushed.size {heap heap' : Heap} {x : NodeScore} (h : Pushed heap x heap') :
    heap'.size = heap.size + 1 :=
  h.data.length_eq

/-- **A push** adds its element. -/
theorem heapPush_pushed {I : Env → Prop} {X : Stop Status → Prop} [Serves I X Status.enomem]
    (heap : Heap) (idx : Nat) (score : Binary64) :
    Keeps I X (heapPush heap idx score) (Pushed heap ⟨idx, score⟩) := by
  unfold heapPush
  extract_lets push
  have hpush : ∀ heap', heap'.data = heap.data → heap'.metric = heap.metric →
      heap'.worstFirst = heap.worstFirst →
        Keeps I X (push heap') (Pushed heap ⟨idx, score⟩) := by
    rintro ⟨data, capacity, metric, worstFirst⟩ rfl rfl rfl
    refine Keeps.pure ?_
    have hlen : heap.data.length < (heap.data ++ [(⟨idx, score⟩ : NodeScore)]).length := by simp
    have hset : (heap.data ++ [(⟨idx, score⟩ : NodeScore)]).set heap.data.length ⟨idx, score⟩ =
        heap.data ++ [⟨idx, score⟩] := by
      rw [List.set_append_right _ _ (Nat.le_refl _), Nat.sub_self]
      rfl
    have hperm := siftUp_perm heap.metric heap.worstFirst score
      ⟨idx, score⟩ heap.data.length (heap.data ++ [⟨idx, score⟩]) heap.data.length hlen
    rw [hset] at hperm
    have hsum := hperm.trans List.perm_append_comm
    refine ⟨hsum, rfl, rfl, fun hvalid hx => ⟨?_, ?_⟩⟩
    · intro y hy
      rcases List.mem_cons.mp (hsum.mem_iff.mp hy) with rfl | hy
      · exact hx
      · exact hvalid.numbers y hy
    · have hnumbers : ∀ y ∈ heap.data ++ [(⟨idx, score⟩ : NodeScore)], y.score.isNaN = false := by
        intro y hy
        rcases List.mem_append.mp hy with hy | hy
        · exact hvalid.numbers y hy
        · rw [List.mem_singleton.mp hy]
          exact hx
      have hheaped := siftUp_heaped heap.metric heap.worstFirst
        (x := ⟨idx, score⟩) hx heap.data.length _ heap.data.length hlen (Nat.le_refl _) hnumbers
      rw [hset] at hheaped
      have hlength : (heap.data ++ [(⟨idx, score⟩ : NodeScore)]).length = heap.size + 1 := by
        rw [List.length_append]
        rfl
      have hat : ∀ j, j < heap.size → ranksOf heap.metric heap.worstFirst
          (heap.data ++ [⟨idx, score⟩]) j = ranksOf heap.metric heap.worstFirst heap.data j := by
        intro j hj
        unfold ranksOf
        rw [List.getD_append _ _ _ _ hj]
      have hrising : HeapOrder.Rising (heap.data ++ [(⟨idx, score⟩ : NodeScore)]).length
          (ranksOf heap.metric heap.worstFirst (heap.data ++ [⟨idx, score⟩])) heap.data.length := by
        rw [hlength]
        refine ⟨fun j hpos hj hne => ?_, fun _ j hpos hj hparent => ?_⟩
        · change j ≠ heap.size at hne
          rw [hat _ (by omega), hat j (by omega)]
          exact hvalid.heaped j hpos (by omega)
        · change (j - 1) / 2 = heap.size at hparent
          omega
      change HeapOrder.Heaped (List.length _) _
      rw [List.length_set, length_siftUp]
      exact hheaped hrising
  split
  · exact Keeps.bind Keeps.allocOr fun _ _ => by rw [pure_bind]; exact hpush _ rfl rfl rfl
  · rw [pure_bind]
    exact hpush _ rfl rfl rfl

/-- What a pop leaves. -/
structure Popped (heap : Heap) (r : NodeScore × Heap) : Prop where
  top : r.1 = heap.at_ 0
  data : heap.data.Perm (r.1 :: r.2.data)
  metric : r.2.metric = heap.metric
  worstFirst : r.2.worstFirst = heap.worstFirst
  valid : heap.Valid → r.2.Valid

theorem Popped.size {heap : Heap} {r : NodeScore × Heap} (h : Popped heap r) :
    heap.size = r.2.size + 1 :=
  h.data.length_eq

/-- The root, and the last element in its place. -/
theorem perm_root_last {data : List NodeScore} (h : 0 < data.length) :
    data.Perm (data.getD 0 default ::
      data.dropLast.set 0 (data.getD (data.length - 1) default)) := by
  rcases data with _ | ⟨top, rest⟩
  · cases h
  rcases List.eq_nil_or_concat rest with rfl | ⟨init, last, rfl⟩
  · exact .refl _
  · rw [List.concat_eq_append]
    have hlast : (top :: (init ++ [last])).getD ((top :: (init ++ [last])).length - 1) default =
        last := by
      rw [List.getD_eq_getElem _ _ (by simp)]
      simp
    rw [hlast, List.dropLast_cons_of_ne_nil (by simp), List.dropLast_concat]
    exact List.perm_append_comm.cons top

/-- **A pop** takes the root away. -/
theorem heapPop_popped {heap : Heap} (hsize : 0 < heap.size) : Popped heap (heapPop heap) := by
  obtain ⟨data, capacity, metric, worstFirst⟩ := heap
  change 0 < data.length at hsize
  unfold heapPop
  simp only [Heap.at_, Heap.size]
  have hall := perm_root_last hsize
  have hlast : data.getD (data.length - 1) default ∈ data := by
    rw [List.getD_eq_getElem _ _ (by omega)]
    exact List.getElem_mem _
  generalize data.getD (data.length - 1) default = last at hall hlast ⊢
  have hempty : 0 < data.dropLast.length ∨ data.dropLast = [] := by
    rcases Nat.eq_zero_or_pos data.dropLast.length with h | h
    · exact .inr (List.length_eq_zero_iff.mp h)
    · exact .inl h
  have hperm := siftDown_perm metric worstFirst last data.length data.dropLast 0 hempty
  refine ⟨rfl, hall.trans (hperm.symm.cons _), rfl, rfl, fun hvalid => ?_⟩
  have hnumbers : ∀ x ∈ data, x.score.isNaN = false := hvalid.numbers
  refine ⟨fun x hx => hnumbers x (hall.mem_iff.mpr
    (List.mem_cons_of_mem _ (hperm.mem_iff.mp hx))), ?_⟩
  have hlen := hperm.length_eq
  rw [@List.length_set _ data.dropLast] at hlen
  change HeapOrder.Heaped (List.length _) (ranksOf metric worstFirst _)
  rw [hlen]
  rcases hempty with hpos | hnil
  swap
  · rw [hnil]
    exact fun j _ hj => absurd hj (Nat.not_lt_zero j)
  refine siftDown_heaped metric worstFirst (hnumbers last hlast) data.length data.dropLast 0 hpos
    (by rw [List.length_dropLast]; omega) (fun x hx => hnumbers x (List.dropLast_subset data hx))
    ⟨fun j hjpos hj hparent => ?_, fun h => absurd h (Nat.lt_irrefl 0)⟩
  have hat : ∀ k, k ≠ 0 → k < data.dropLast.length →
      ranksOf metric worstFirst (data.dropLast.set 0 last) k = ranksOf metric worstFirst data k := by
    intro k hk hlt
    rw [ranksOf_set _ _ hpos, if_neg hk]
    have hlt' : k < data.length := by
      rw [List.length_dropLast] at hlt
      omega
    unfold ranksOf
    rw [List.getD_eq_getElem _ _ hlt, List.getElem_dropLast, List.getD_eq_getElem _ _ hlt']
  rw [hat _ hparent (by omega), hat j (by omega) hj]
  rw [List.length_dropLast] at hj
  exact hvalid.heaped j hjpos (by change j < data.length; omega)

end Ipa.Hnsw
