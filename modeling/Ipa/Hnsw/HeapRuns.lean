import Ipa.Hnsw.HeapOrder
import Ipa.Lib.Machine

/-!
# A heap in use

`heapCalls` is the machine of the pushes and pops on one heap, in any order, with the allocator
failing where it may. What was pushed is what was popped and what the heap holds, and a pop returns
an element that none of those held has priority over, as long as no NaN is pushed.
-/

namespace Ipa.Hnsw

open Run

inductive HeapCall
  | push (idx : Nat) (score : Binary64)
  | pop
deriving DecidableEq, Repr

/-- A heap, with what its calls have pushed and popped. -/
structure HeapUse where
  env : Env
  heap : Heap
  pushed : List NodeScore
  popped : List NodeScore

/-- A push that is refused leaves the heap as it is, and only a heap that is not empty is popped. -/
inductive HeapStep (s : HeapUse) : HeapCall → HeapUse → Prop
  | pushed {idx : Nat} {score : Binary64} {heap : Heap} {env : Env}
      (run : (heapPush s.heap idx score).exec s.env = (.ok heap, env)) :
    HeapStep s (.push idx score) ⟨env, heap, ⟨idx, score⟩ :: s.pushed, s.popped⟩
  | refused {idx : Nat} {score : Binary64} {stop : Stop Status} {env : Env}
      (run : (heapPush s.heap idx score).exec s.env = (.error stop, env)) :
    HeapStep s (.push idx score) { s with env := env }
  | popped (size : 0 < s.heap.size) :
    HeapStep s .pop ⟨s.env, (heapPop s.heap).2, s.pushed, (heapPop s.heap).1 :: s.popped⟩

/-- The calls on a heap that `kc_hnsw_heap_create` made with room for an element. -/
def heapCalls (metric : Metric) (worstFirst : Bool) : Machine HeapUse HeapCall where
  Start s := ∃ capacity env, 0 < capacity ∧
    (heapCreate capacity metric worstFirst).exec env = (.ok s.heap, s.env) ∧
      s.pushed = [] ∧ s.popped = []
  Step := HeapStep

/-- A call that pushes no NaN. -/
def HeapCall.Number : HeapCall → Prop
  | .push _ score => score.isNaN = false
  | .pop => True

/-- The pops that empty a heap. -/
def heapDrain : Nat → Heap → List NodeScore
  | 0, _ => []
  | n + 1, heap => (heapPop heap).1 :: heapDrain n (heapPop heap).2

/-! ## What every run keeps -/

/-- Nothing is lost and nothing made up, and the heap is one. -/
structure HeapUse.Sound (metric : Metric) (worstFirst : Bool) (s : HeapUse) : Prop where
  held : s.pushed.Perm (s.popped ++ s.heap.data)
  metric : s.heap.metric = metric
  worstFirst : s.heap.worstFirst = worstFirst
  valid : s.heap.Valid

section Runs

variable {metric : Metric} {worstFirst : Bool} {s s' : HeapUse}

theorem heapCreate_empty {capacity : Nat} {env env' : Env} {heap : Heap}
    (h : (heapCreate capacity metric worstFirst).exec env = (.ok heap, env')) :
    heap = ⟨[], capacity, metric, worstFirst⟩ := by
  have hkeep : Keeps (fun _ => True) (fun _ => True) (heapCreate capacity metric worstFirst)
      (· = ⟨[], capacity, metric, worstFirst⟩) := by
    unfold heapCreate
    exact Keeps.bind Keeps.allocOr fun _ _ => Keeps.bind Keeps.allocOr fun _ _ => Keeps.pure rfl
  exact (hkeep.value trivial h).1

theorem heapCalls_start (h : (heapCalls metric worstFirst).Start s) :
    s.Sound metric worstFirst := by
  obtain ⟨capacity, env, -, hcreate, hpushed, hpopped⟩ := h
  have hheap := heapCreate_empty hcreate
  refine ⟨?_, by rw [hheap], by rw [hheap], ?_, ?_⟩
  · rw [hpushed, hpopped, hheap]
    exact .refl _
  · intro x hx
    rw [hheap] at hx
    cases hx
  · intro j hpos hj
    rw [hheap] at hj
    exact absurd hj (Nat.not_lt_zero j)

theorem heapCalls_step {call : HeapCall} (h : s.Sound metric worstFirst) (hnumber : call.Number)
    (hstep : HeapStep s call s') : s'.Sound metric worstFirst := by
  cases hstep with
  | @pushed idx score heap env run =>
    have hkeep := heapPush_pushed (I := fun _ => True) (X := fun _ => True) s.heap idx score
    obtain ⟨hpush, -⟩ := hkeep.value trivial run
    refine ⟨?_, hpush.metric.trans h.metric, hpush.worstFirst.trans h.worstFirst,
      hpush.valid h.valid hnumber⟩
    calc List.Perm (⟨idx, score⟩ :: s.pushed) (⟨idx, score⟩ :: (s.popped ++ s.heap.data)) :=
          h.held.cons _
      List.Perm _ (s.popped ++ ⟨idx, score⟩ :: s.heap.data) := List.perm_middle.symm
      List.Perm _ (s.popped ++ heap.data) := hpush.data.symm.append_left _
  | refused run => exact ⟨h.held, h.metric, h.worstFirst, h.valid⟩
  | popped size =>
    have hpop := heapPop_popped size
    refine ⟨?_, hpop.metric.trans h.metric, hpop.worstFirst.trans h.worstFirst,
      hpop.valid h.valid⟩
    have hmove : (s.popped ++ s.heap.data).Perm (s.popped ++
        ((heapPop s.heap).1 :: (heapPop s.heap).2.data)) := hpop.data.append_left _
    exact h.held.trans (hmove.trans List.perm_middle)

theorem heapCalls_sound (h : (heapCalls metric worstFirst).Reached (fun _ call => call.Number) s) :
    s.Sound metric worstFirst := by
  apply h.invariant
  · intro s hstart
    exact heapCalls_start hstart
  · intro s call s' hsound hnumber hstep
    exact heapCalls_step hsound hnumber hstep

end Runs

/-! ## Draining -/

/-- Draining yields what the heap holds, in the order of priority. -/
theorem heapDrain_spec (n : Nat) (heap : Heap) (hvalid : heap.Valid) (hsize : heap.size = n) :
    (heapDrain n heap).Perm heap.data ∧ (heapDrain n heap).Pairwise fun a b =>
      heapHasPriority heap.metric b.score a.score heap.worstFirst = false := by
  induction n generalizing heap with
  | zero =>
    have hnil : heap.data = [] := List.length_eq_zero_iff.mp hsize
    rw [heapDrain, hnil]
    exact ⟨.refl _, List.Pairwise.nil⟩
  | succ n ih =>
    have hpop : Popped heap (heapPop heap) := heapPop_popped (by omega)
    obtain ⟨hperm, horder⟩ := ih (heapPop heap).2 (hpop.valid hvalid) (by
      have := hpop.size
      omega)
    rw [hpop.metric, hpop.worstFirst] at horder
    rw [heapDrain]
    refine ⟨(hperm.cons _).trans hpop.data.symm, List.pairwise_cons.mpr ⟨fun x hx => ?_, horder⟩⟩
    have hmem : x ∈ heap.data :=
      hpop.data.mem_iff.mpr (List.mem_cons_of_mem _ (hperm.mem_iff.mp hx))
    rw [hpop.top]
    exact hvalid.root hmem

/-- **A heap in use**: after any pushes and pops it holds what was pushed and not popped; a pop
returns an element of it that no other has priority over, and draining it yields the elements in
the order of priority. -/
theorem reached_heap {metric : Metric} {worstFirst : Bool} {s : HeapUse}
    (h : (heapCalls metric worstFirst).Reached (fun _ call => call.Number) s) :
    s.pushed.Perm (s.popped ++ s.heap.data) ∧
      (0 < s.heap.size → (heapPop s.heap).1 ∈ s.heap.data ∧ ∀ x ∈ s.heap.data,
        heapHasPriority metric x.score (heapPop s.heap).1.score worstFirst = false) ∧
      (heapDrain s.heap.size s.heap).Perm s.heap.data ∧
        (heapDrain s.heap.size s.heap).Pairwise fun a b =>
          heapHasPriority metric b.score a.score worstFirst = false := by
  have hsound := heapCalls_sound h
  obtain ⟨hperm, horder⟩ := heapDrain_spec s.heap.size s.heap hsound.valid rfl
  rw [hsound.metric, hsound.worstFirst] at horder
  refine ⟨hsound.held, fun hsize => ?_, hperm, horder⟩
  have hpop := heapPop_popped hsize
  refine ⟨hpop.data.mem_iff.mpr List.mem_cons_self, fun x hx => ?_⟩
  have hroot := hsound.valid.root hx
  rw [hsound.metric, hsound.worstFirst] at hroot
  rw [hpop.top]
  exact hroot

/-- The element pushed last is nearer than the one before. -/
def twoPushed : HeapUse :=
  ⟨⟨[], []⟩, ⟨[⟨1, ⟨0x3FF0000000000000⟩⟩, ⟨0, ⟨0x4000000000000000⟩⟩], 2, .l2, false⟩,
    [⟨1, ⟨0x3FF0000000000000⟩⟩, ⟨0, ⟨0x4000000000000000⟩⟩], []⟩

theorem twoPushed_reached :
    (heapCalls .l2 false).Reached (fun _ call => call.Number) twoPushed := by
  have hstart : (heapCalls .l2 false).Start ⟨⟨[], []⟩, ⟨[], 2, .l2, false⟩, [], []⟩ :=
    ⟨2, ⟨[], []⟩, by decide, rfl, rfl, rfl⟩
  have hfirst : HeapStep ⟨⟨[], []⟩, ⟨[], 2, .l2, false⟩, [], []⟩ (.push 0 ⟨0x4000000000000000⟩)
      ⟨⟨[], []⟩, ⟨[⟨0, ⟨0x4000000000000000⟩⟩], 2, .l2, false⟩, [⟨0, ⟨0x4000000000000000⟩⟩], []⟩ :=
    .pushed rfl
  have hsecond : HeapStep
      ⟨⟨[], []⟩, ⟨[⟨0, ⟨0x4000000000000000⟩⟩], 2, .l2, false⟩, [⟨0, ⟨0x4000000000000000⟩⟩], []⟩
      (.push 1 ⟨0x3FF0000000000000⟩) twoPushed := .pushed rfl
  exact .step (.step (.start hstart) (by exact rfl) hfirst) (by exact rfl) hsecond

theorem reached_heap_two :
    (heapPop twoPushed.heap).1 = ⟨1, ⟨0x3FF0000000000000⟩⟩ ∧
      (heapDrain twoPushed.heap.size twoPushed.heap).Perm twoPushed.heap.data :=
  ⟨by decide, (reached_heap twoPushed_reached).2.2.1⟩

end Ipa.Hnsw
