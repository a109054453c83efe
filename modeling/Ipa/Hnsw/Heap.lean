import Ipa.Lib.Run
import Ipa.Lib.Binary
import Mathlib.Data.List.GetD

/-!
# The priority heap of `libhnsw.c`

An array heap of node scores, with the best or the worst score in front. Both sifts carry a hole
and write the element into it at the end; their fuel is the size of the heap.
-/

namespace Ipa.Hnsw

open Run

/-- The codes that report a failure. -/
inductive Status
  | einval
  | enomem
  | estate
deriving DecidableEq, Repr

inductive Metric
  | cosine
  | innerProduct
  | l2
deriving DecidableEq, Repr

structure NodeScore where
  idx : Nat
  score : Binary64
deriving DecidableEq, Repr, Inhabited

structure Heap where
  data : List NodeScore
  capacity : Nat
  metric : Metric
  worstFirst : Bool

def scoreBetter (metric : Metric) (a b : Binary64) : Bool :=
  match metric with
  | .l2 => a.lt b
  | _ => b.lt a

def scoreWorse (metric : Metric) (a b : Binary64) : Bool :=
  match metric with
  | .l2 => b.lt a
  | _ => a.lt b

def heapHasPriority (metric : Metric) (s1 s2 : Binary64) (worstFirst : Bool) : Bool :=
  if worstFirst then scoreWorse metric s1 s2 else scoreBetter metric s1 s2

namespace Heap

def size (heap : Heap) : Nat := heap.data.length

/-- `heap->data[i]`. -/
def at_ (heap : Heap) (i : Nat) : NodeScore := heap.data.getD i default

end Heap

def heapCreate (capacity : Nat) (metric : Metric) (worstFirst : Bool) : Run Status Heap := do
  allocOr .enomem
  allocOr .enomem
  pure ⟨[], capacity, metric, worstFirst⟩

/-- The hole at `i` moves up past the parents that `score` has priority over. -/
def siftUp (metric : Metric) (worstFirst : Bool) (score : Binary64) :
    Nat → List NodeScore → Nat → List NodeScore × Nat
  | 0, data, i => (data, i)
  | fuel + 1, data, i =>
    if 0 < i then
      let p := (i - 1) / 2
      if heapHasPriority metric score (data.getD p default).score worstFirst then
        siftUp metric worstFirst score fuel (data.set i (data.getD p default)) p
      else (data, i)
    else (data, i)

def heapPush (heap : Heap) (idx : Nat) (score : Binary64) : Run Status Heap := do
  let heap ←
    if heap.size = heap.capacity then do
      allocOr .enomem
      pure { heap with capacity := heap.capacity * 2 }
    else pure heap
  -- the slot that `size++` opens holds nothing yet
  let (data, i) := siftUp heap.metric heap.worstFirst score heap.size
    (heap.data ++ [⟨idx, score⟩]) heap.size
  pure { heap with data := data.set i ⟨idx, score⟩ }

/-- The child of `i` that has priority over the other. -/
def priorChild (metric : Metric) (worstFirst : Bool) (data : List NodeScore) (i : Nat) : Nat :=
  let c := i * 2 + 1
  if c + 1 < data.length ∧ heapHasPriority metric (data.getD (c + 1) default).score
      (data.getD c default).score worstFirst then c + 1
  else c

/-- The hole at `i` moves down while a child has priority over `last`. -/
def siftDown (metric : Metric) (worstFirst : Bool) (last : NodeScore) :
    Nat → List NodeScore → Nat → List NodeScore × Nat
  | 0, data, i => (data, i)
  | fuel + 1, data, i =>
    if i * 2 + 1 < data.length then
      let c := priorChild metric worstFirst data i
      if heapHasPriority metric (data.getD c default).score last.score worstFirst then
        siftDown metric worstFirst last fuel (data.set i (data.getD c default)) c
      else (data, i)
    else (data, i)

/-- The root, and the heap without it. -/
def heapPop (heap : Heap) : NodeScore × Heap :=
  let top := heap.at_ 0
  let last := heap.at_ (heap.size - 1)
  let (data, i) := siftDown heap.metric heap.worstFirst last heap.size heap.data.dropLast 0
  (top, { heap with data := data.set i last })

/-! ## What the heap holds -/

section Members

variable {P : NodeScore → Prop} {metric : Metric} {worstFirst : Bool}

/-- `Q` of all the elements of `data`, of its length, and of the position of the hole. -/
def Sifted (P : NodeScore → Prop) (n : Nat) (r : List NodeScore × Nat) : Prop :=
  r.1.length = n ∧ (r.2 < n ∨ n = 0) ∧ ∀ x ∈ r.1, P x

theorem mem_set_getD {data : List NodeScore} (h : ∀ x ∈ data, P x) {i j : Nat}
    (hj : j < data.length) : ∀ x ∈ data.set i (data.getD j default), P x := by
  intro x hx
  rcases List.mem_or_eq_of_mem_set hx with hx | rfl
  · exact h x hx
  · rw [List.getD_eq_getElem _ _ hj]
    exact h _ (List.getElem_mem hj)

theorem siftUp_sifted (score : Binary64) : ∀ (fuel : Nat) (data : List NodeScore) (i : Nat),
    i < data.length → (∀ x ∈ data, P x) →
      Sifted P data.length (siftUp metric worstFirst score fuel data i)
  | 0, _, _, hi, h => ⟨rfl, .inl hi, h⟩
  | fuel + 1, data, i, hi, h => by
    unfold siftUp
    split
    · simp only
      split
      · have := siftUp_sifted score fuel (data.set i (data.getD ((i - 1) / 2) default))
          ((i - 1) / 2) (by rw [List.length_set]; omega) (mem_set_getD h (by omega))
        rwa [List.length_set] at this
      · exact ⟨rfl, .inl hi, h⟩
    · exact ⟨rfl, .inl hi, h⟩

theorem siftDown_sifted (last : NodeScore) : ∀ (fuel : Nat) (data : List NodeScore) (i : Nat),
    (i < data.length ∨ data.length = 0) → (∀ x ∈ data, P x) →
      Sifted P data.length (siftDown metric worstFirst last fuel data i)
  | 0, _, _, hi, h => ⟨rfl, hi, h⟩
  | fuel + 1, data, i, hi, h => by
    unfold siftDown
    split
    · have hlt : priorChild metric worstFirst data i < data.length := by
        unfold priorChild
        simp only
        split <;> omega
      simp only
      split
      · have := siftDown_sifted last fuel _ (priorChild metric worstFirst data i)
          (by rw [List.length_set]; exact .inl hlt) (mem_set_getD h hlt (i := i))
        rwa [List.length_set] at this
      · exact ⟨rfl, hi, h⟩
    · exact ⟨rfl, hi, h⟩

variable {I : Env → Prop} {X : Stop Status → Prop} [Serves I X Status.enomem]

theorem heapPush_keeps {heap : Heap} {idx : Nat} {score : Binary64} (h : ∀ x ∈ heap.data, P x)
    (hnew : P ⟨idx, score⟩) :
    Keeps I X (heapPush heap idx score) fun heap' =>
      heap'.size = heap.size + 1 ∧ ∀ x ∈ heap'.data, P x := by
  unfold heapPush
  extract_lets push
  have hpush : ∀ heap', heap'.data = heap.data → Keeps I X (push heap') fun heap' =>
      heap'.size = heap.size + 1 ∧ ∀ x ∈ heap'.data, P x := by
    rintro ⟨data, capacity, metric, worstFirst⟩ rfl
    refine Keeps.pure ?_
    have hall : ∀ x ∈ heap.data ++ [⟨idx, score⟩], P x := by
      intro x hx
      rcases List.mem_append.mp hx with hx | hx
      · exact h x hx
      · rwa [List.mem_singleton.mp hx]
    obtain ⟨hlen, -, hP⟩ := @siftUp_sifted P metric worstFirst score heap.data.length
      (heap.data ++ [⟨idx, score⟩]) heap.data.length (by simp) hall
    refine ⟨?_, fun x hx => ?_⟩
    · simpa [Heap.size] using hlen
    · rcases List.mem_or_eq_of_mem_set hx with hx | rfl
      · exact hP x hx
      · exact hnew
  split
  · exact Keeps.bind Keeps.allocOr fun _ _ => by rw [pure_bind]; exact hpush _ rfl
  · rw [pure_bind]
    exact hpush _ rfl

theorem heapPop_all {heap : Heap} (hsize : 0 < heap.size) (h : ∀ x ∈ heap.data, P x) :
    P (heapPop heap).1 ∧ (heapPop heap).2.size + 1 = heap.size ∧
      ∀ x ∈ (heapPop heap).2.data, P x := by
  unfold heapPop
  have hat : ∀ i, i < heap.size → P (heap.at_ i) := by
    intro i hi
    unfold Heap.at_
    rw [List.getD_eq_getElem _ _ hi]
    exact h _ (List.getElem_mem hi)
  obtain ⟨hlen, -, hP⟩ := @siftDown_sifted P heap.metric heap.worstFirst
    (heap.at_ (heap.size - 1)) heap.size heap.data.dropLast 0 (by omega)
    (fun x hx => h x ((List.dropLast_sublist _).subset hx))
  refine ⟨hat 0 hsize, ?_, fun x hx => ?_⟩
  · unfold Heap.size at *
    rw [List.length_dropLast] at hlen
    simp only [List.length_set]
    omega
  · rcases List.mem_or_eq_of_mem_set hx with hx | rfl
    · exact hP x hx
    · exact hat _ (by omega)

end Members

end Ipa.Hnsw
