import Ipa.Lib.Blocks
import Ipa.Hnsw.Atomic

/-!
# What the index owns

Between two calls every allocated block is the items array of the index, or an identifier, a vector
or a neighbour array of exactly one of its items; while a build runs, its copy shares the
identifiers and the vectors and owns neighbour arrays of its own.
-/

namespace Ipa.Hnsw

open Cmd (Leaves)

/-! ## The blocks of a memory -/

namespace Memory

/-- The addresses of each kind of block, each once. -/
structure Blocks (m : Memory) (texts vectors arrays lists : List Nat) : Prop where
  texts : Live m.texts m.next texts
  vectors : Live m.vectors m.next vectors
  arrays : Live m.arrays m.next arrays
  lists : Live m.lists m.next lists

/-- A neighbour array has one list for each level of its item. -/
def Sized (m : Memory) (cells : List Cell) : Prop :=
  ∀ cell ∈ cells, ∀ r, cell.neighbors = some r → ∀ lists, m.lists r = some lists →
    (lists.length : Int) = cell.level + 1

section Blocks

variable {m : Memory} {texts vectors arrays lists : List Nat} {cells : List Cell}

theorem Blocks.newText (h : m.Blocks texts vectors arrays lists) (id : CStr) :
    Blocks { m with texts := Function.update m.texts m.next (some id), next := m.next + 1 }
      (texts ++ [m.next]) vectors arrays lists :=
  ⟨h.texts.alloc id, h.vectors.mono (Nat.le_succ _), h.arrays.mono (Nat.le_succ _),
    h.lists.mono (Nat.le_succ _)⟩

theorem Blocks.newVector (h : m.Blocks texts vectors arrays lists) (values : List Binary32) :
    Blocks { m with vectors := Function.update m.vectors m.next (some values), next := m.next + 1 }
      texts (vectors ++ [m.next]) arrays lists :=
  ⟨h.texts.mono (Nat.le_succ _), h.vectors.alloc values, h.arrays.mono (Nat.le_succ _),
    h.lists.mono (Nat.le_succ _)⟩

theorem Blocks.newArray (h : m.Blocks texts vectors arrays lists) (array : ItemArray) :
    Blocks { m with arrays := Function.update m.arrays m.next (some array), next := m.next + 1 }
      texts vectors (arrays ++ [m.next]) lists :=
  ⟨h.texts.mono (Nat.le_succ _), h.vectors.mono (Nat.le_succ _), h.arrays.alloc array,
    h.lists.mono (Nat.le_succ _)⟩

/-- A neighbour array of another length belongs to no cell. -/
theorem Sized.update (h : m.Sized cells) {r n : Nat} {new : List NeighborList}
    (hnew : ∀ cell ∈ cells, cell.neighbors = some r → (new.length : Int) = cell.level + 1) :
    Sized { m with lists := Function.update m.lists r (some new), next := n } cells := by
  intro cell hcell r' hr' lists hlists
  change Function.update m.lists r (some new) r' = some lists at hlists
  by_cases heq : r' = r
  · subst heq
    rw [Function.update_self, Option.some.injEq] at hlists
    subst hlists
    exact hnew cell hcell hr'
  · rw [Function.update_of_ne heq] at hlists
    exact h cell hcell r' hr' lists hlists

end Blocks

end Memory

/-- The blocks are those of the index of the caller, and every item counted is written. -/
def Owned (w : World) : Prop :=
  ∃ array, w.memory.arrayOf w.hnsw = some array ∧ w.hnsw.count = array.cells.length ∧
    w.memory.Blocks (array.cells.map Cell.id) (array.cells.map Cell.values) w.hnsw.items.toList
      (array.cells.filterMap Cell.neighbors) ∧
    w.memory.Sized array.cells

/-! ## Commands on blocks -/

section Known

variable {α : Type} {w₀ : World} {P F : World → Prop}

theorem need_leaves {o : Option α} :
    Leaves P (need o : Cmd World Status α) (fun a w => o = some a ∧ P w) F := by
  cases o with
  | none => exact Leaves.fault
  | some a => exact Leaves.pure fun w hw => ⟨rfl, hw⟩

theorem arrayAt_leaves {q : Nat} :
    Leaves P (arrayAt q) (fun array w => w.memory.arrays q = some array ∧ P w) F := by
  unfold arrayAt
  refine Leaves.get.bind fun w => need_leaves.mono (fun _ h => h) (fun array w' h => ?_) fun _ h => h
  obtain ⟨harray, rfl, hP⟩ := h
  exact ⟨harray, hP⟩

theorem listsAt_leaves {r : Nat} :
    Leaves P (listsAt r) (fun lists w => w.memory.lists r = some lists ∧ P w) F := by
  unfold listsAt
  refine Leaves.get.bind fun w => need_leaves.mono (fun _ h => h) (fun lists w' h => ?_) fun _ h => h
  obtain ⟨hlists, rfl, hP⟩ := h
  exact ⟨hlists, hP⟩

theorem load_leaves {h : Handle} : Leaves P (load h) (fun _ w => P w) F := by
  unfold load
  refine Leaves.get.bind fun w => need_leaves.mono (fun _ h => h) (fun _ w' h => ?_) fun _ h => h
  exact h.2.2

theorem freeArray_leaves {p : Nat} {Q : World → Prop}
    (h : ∀ w, P w → (w.memory.arrays p).isSome = true →
      Q (w.store fun m => { m with arrays := Function.update m.arrays p none })) :
    Leaves P (freeArray p) (fun _ => Q) F := by
  unfold freeArray
  refine arrayAt_leaves.bind fun array => (store_does _ fun w hw => h w hw.2 ?_).leaves
  rw [hw.1]
  rfl

theorem freeLists_leaves {r : Nat} {Q : World → Prop}
    (h : ∀ w, P w → (w.memory.lists r).isSome = true →
      Q (w.store fun m => { m with lists := Function.update m.lists r none })) :
    Leaves P (freeLists r) (fun _ => Q) F := by
  unfold freeLists
  refine listsAt_leaves.bind fun lists => (store_does _ fun w hw => h w hw.2 ?_).leaves
  rw [hw.1]
  rfl

theorem writeLists_leaves {r : Nat} {new : List NeighborList} {Q : World → Prop}
    (h : ∀ w old, P w → w.memory.lists r = some old →
      Q (w.store fun m => { m with lists := Function.update m.lists r (some new) })) :
    Leaves P (writeLists r new) (fun _ => Q) F := by
  unfold writeLists
  exact listsAt_leaves.bind fun old => (store_does _ fun w hw => h w old hw.2 hw.1).leaves

theorem writeArray_leaves {q : Nat} {new : ItemArray} {Q : World → Prop}
    (h : ∀ w, P w → Q (w.store fun m => { m with arrays := Function.update m.arrays q (some new) })) :
    Leaves P (writeArray q new) (fun _ => Q) F := by
  unfold writeArray
  exact arrayAt_leaves.bind fun old => (store_does _ fun w hw => h w hw.2).leaves

end Known

/-! ## Reserving and adding -/

section Calls

variable [Arith] {host : Host}

omit [Arith] in
/-- A reservation that leaves the items their places. -/
theorem reserveIn_leaves (capacity : Nat) :
    Leaves (fun w => Owned w ∧ (w.hnsw.capacity < capacity → w.hnsw.count ≤ slotsFor host capacity))
      (reserveIn host capacity) (fun _ => Owned) Owned := by
  refine Leaves.from fun w h => ?_
  obtain ⟨hold, hroom⟩ := h
  obtain ⟨array, harray, hcount, hblocks, hsized⟩ := hold
  unfold reserveIn
  refine get_does.leaves.known ?_
  split
  · refine Leaves.pure ?_
    rintro _ rfl
    exact ⟨array, harray, hcount, hblocks, hsized⟩
  split
  · exact Leaves.fault
  rename_i hmore _
  refine (Leaves.lift ?_).bind fun _ => ?_
  · rintro _ rfl
    exact ⟨array, harray, hcount, hblocks, hsized⟩
  refine (need_does harray).leaves.known ?_
  have hcells : array.cells.take (slotsFor host capacity) = array.cells :=
    List.take_of_length_le (hcount ▸ hroom (by omega))
  dsimp only
  rw [hcells]
  refine (newArray_does _).leaves.known ?_
  have hnew := hblocks.newArray ⟨array.cells, slotsFor host capacity⟩
  rcases hp : w.hnsw.items with _ | p
  · rw [hp] at hnew
    refine (setHandle_does _ ?_).leaves
    rintro _ rfl
    exact ⟨_, Function.update_self .., hcount, hnew, hsized⟩
  · rw [hp] at hnew
    have hlt : p < w.memory.next := hblocks.arrays.below p (by rw [hp]; exact List.mem_singleton_self p)
    refine (freeArray_leaves (Q := (· = _)) fun w₁ hw₁ _ => by rw [hw₁]).bind fun _ =>
      (setHandle_does _ ?_).leaves
    rintro _ rfl
    refine ⟨⟨array.cells, slotsFor host capacity⟩, ?_, hcount,
      ⟨hnew.texts, hnew.vectors, hnew.arrays.free, hnew.lists⟩, hsized⟩
    change Function.update (Function.update w.memory.arrays w.memory.next _) p none _ = _
    rw [Function.update_of_ne (by omega), Function.update_self]

omit [Arith] in
theorem growIn_leaves : Leaves
    (fun w => Owned w ∧ (w.hnsw.count = w.hnsw.capacity →
      w.hnsw.capacity < nextCapacity host w.hnsw.capacity →
        w.hnsw.count ≤ slotsFor host (nextCapacity host w.hnsw.capacity)))
    (growIn host) (fun _ => Owned) Owned := by
  unfold growIn
  refine Leaves.get.bind fun w => ?_
  split
  · rename_i hfull
    refine (reserveIn_leaves _).mono (fun _ h => ?_) (fun _ _ h => h) fun _ h => h
    obtain ⟨rfl, hold, hroom⟩ := h
    exact ⟨hold, hroom hfull⟩
  · exact Leaves.pure fun _ h => h.2.1

theorem appendIn_leaves (id : CStr) (values : List Binary32) :
    Leaves Owned (appendIn host id values) (fun _ => Owned) Owned := by
  refine Leaves.from fun w h => ?_
  have hold := h
  obtain ⟨array, harray, hcount, hblocks, hsized⟩ := h
  unfold appendIn
  refine (Leaves.lift ?_).bind fun _ => ?_
  · rintro _ rfl
    exact hold
  refine (newText_does id).leaves.known ?_
  refine ((Leaves.lift fun _ h => h).onFail (store_does _ ?_).leaves fun _ h => h).bind fun _ => ?_
  · -- the identifier is given up again
    rintro _ rfl
    exact ⟨array, harray, hcount, ⟨(hblocks.newText id).texts.free_last, (hblocks.newText id).vectors,
      (hblocks.newText id).arrays, (hblocks.newText id).lists⟩, hsized⟩
  refine Leaves.known (v := w.store fun m =>
    { m with texts := Function.update m.texts m.next (some id), next := m.next + 1 })
      (Leaves.get.mono (fun _ h => h) (fun a m ha => ⟨ha.1.trans ha.2, ha.2⟩) fun _ h => h) ?_
  split
  · exact Leaves.fault
  refine (newVector_does values).leaves.known (need_leaves.bind fun q => ?_)
  refine Leaves.from fun w' hw' => ?_
  obtain ⟨hq, rfl⟩ := hw'
  change w.hnsw.items = some q at hq
  have harrayAt : w.memory.arrays q = some array := by
    unfold Memory.arrayOf at harray
    rwa [hq] at harray
  refine (@arrayAt_does _ _ array ?_).leaves.known ?_
  · rintro _ rfl
    exact harrayAt
  split
  · exact Leaves.fault
  change Leaves _ (if array.cells.length < w.hnsw.count then _ else _) _ _
  rw [if_neg (by omega)]
  refine (writeArray_leaves (Q := (· = _)) fun w₁ hw₁ => by rw [hw₁]).bind fun _ =>
    (setHandle_does _ ?_).leaves
  rintro _ rfl
  have hnew := (hblocks.newText id).newVector values
  have hmem : q ∈ w.hnsw.items.toList := by
    rw [hq]
    exact List.mem_singleton_self q
  refine ⟨{ array with cells := array.cells ++ [⟨w.memory.next, w.memory.next + 1,
    vectorNorm values, -1, none⟩] }, ?_, ?_, ⟨?_, ?_, hnew.arrays.write hmem _, ?_⟩, ?_⟩
  · unfold Memory.arrayOf
    simp only [World.store, hq, Function.update_self]
  · rw [List.length_append, List.length_singleton, ← hcount]
    rfl
  · rw [List.map_append]
    exact hnew.texts
  · rw [List.map_append]
    exact hnew.vectors
  · rw [List.filterMap_append, List.filterMap_cons_none rfl, List.filterMap_nil, List.append_nil]
    exact hnew.lists
  · intro cell hcell r hr lists hlists
    rcases List.mem_append.mp hcell with hcell | hcell
    · exact hsized cell hcell r hr lists hlists
    · rw [List.mem_singleton] at hcell
      subst hcell
      cases hr

theorem addIn_leaves (id : CStr) (values : List Binary32) : Leaves
    (fun w => Owned w ∧ (id.bytes ≠ [] → w.hnsw.count = w.hnsw.capacity →
      w.hnsw.capacity < nextCapacity host w.hnsw.capacity →
        w.hnsw.count ≤ slotsFor host (nextCapacity host w.hnsw.capacity)))
    (addIn host id values) (fun _ => Owned) Owned := by
  unfold addIn
  split
  · exact (Leaves.lift fun _ h => h.1).mono (fun _ h => h) (fun _ _ h => h.1) fun _ h => h
  · rename_i hid
    have hne : id.bytes ≠ [] := fun h => hid (List.isEmpty_iff.mpr h)
    exact (growIn_leaves.mono (fun _ h => ⟨h.1, h.2 hne⟩) (fun _ _ h => h) fun _ h => h).bind
      fun _ => appendIn_leaves id values

end Calls

/-! ## The copy -/

theorem shuffleOf_perm {α : Type} : ∀ (left i : Nat) (xs : List α) (state : UInt64),
    (shuffleOf left i xs state).1.Perm xs
  | 0, _, _, _ => .refl _
  | left + 1, i, xs, state => by
    unfold shuffleOf
    generalize rand64 state = drawn
    obtain ⟨r, state⟩ := drawn
    simp only
    split
    · rename_i a b ha hb
      obtain ⟨hi, rfl⟩ := List.getElem?_eq_some_iff.mp ha
      obtain ⟨hj, rfl⟩ := List.getElem?_eq_some_iff.mp hb
      exact (shuffleOf_perm left (i + 1) _ _).trans (List.set_set_perm hi hj)
    · exact shuffleOf_perm left (i + 1) xs state

theorem map_set_same {α : Type} {f : Cell → α} {cells : List Cell} {i : Nat} {old c : Cell}
    (hold : cells[i]? = some old) (hsame : f c = f old) :
    (cells.set i c).map f = cells.map f := by
  obtain ⟨hi, rfl⟩ := List.getElem?_eq_some_iff.mp hold
  rw [List.map_set, hsame, ← List.getElem_map f (h := by simpa using hi), List.set_getElem_self]

/-- A cell gets its neighbour array. -/
theorem neighbors_set_perm : ∀ {cells : List Cell} {i r : Nat} {old new : Cell},
    cells[i]? = some old → old.neighbors = none → new.neighbors = some r →
      ((cells.set i new).filterMap Cell.neighbors).Perm (cells.filterMap Cell.neighbors ++ [r])
  | [], _, _, _, _, hold, _, _ => by cases hold
  | cell :: cells, 0, r, old, new, hold, hnone, hr => by
    cases hold
    rw [List.set_cons_zero, List.filterMap_cons_some hr, List.filterMap_cons_none hnone]
    exact (List.perm_append_singleton r _).symm
  | cell :: cells, i + 1, r, old, new, hold, hnone, hr => by
    have ih := neighbors_set_perm (i := i) hold hnone hr
    rw [List.set_cons_succ]
    cases hcell : cell.neighbors with
    | none =>
      rw [List.filterMap_cons_none hcell, List.filterMap_cons_none hcell]
      exact ih
    | some r' =>
      rw [List.filterMap_cons_some hcell, List.filterMap_cons_some hcell]
      exact ih.cons r'

/-- While a build runs: the items of the caller at `p`, and the copy at `q` with its cells from `n`
on still without neighbour array. -/
structure Working (w₀ : World) (p q n : Nat) (live : ItemArray) (cells : List Cell) (w : World) :
    Prop where
  hnsw : w.hnsw = w₀.hnsw
  given : w.memory.arrays p = some live
  copy : w.memory.arrays q = some ⟨cells, w₀.hnsw.count⟩
  blocks : w.memory.Blocks (live.cells.map Cell.id) (live.cells.map Cell.values) [p, q]
    (live.cells.filterMap Cell.neighbors ++ cells.filterMap Cell.neighbors)
  ids : (cells.map Cell.id).Perm (live.cells.map Cell.id)
  values : (cells.map Cell.values).Perm (live.cells.map Cell.values)
  sizedLive : w.memory.Sized live.cells
  sized : w.memory.Sized cells
  fresh : Fresh n cells

/-- The rest of a build keeps the cells, and the lengths of the neighbour arrays. -/
def Rewrites (P : World → Prop) : Prop :=
  ∀ w r old new, P w → w.memory.lists r = some old → new.length = old.length →
    P (w.store fun m => { m with lists := Function.update m.lists r (some new) })

section Copy

variable {w₀ w : World} {p q n : Nat} {live : ItemArray} {cells : List Cell} {tmp : Handle}
  {P F : World → Prop}

theorem Working.ne (h : Working w₀ p q n live cells w) : p ≠ q := by
  have hnodup := h.blocks.arrays.nodup
  simpa using hnodup

theorem Working.rewrites : Rewrites (Working w₀ p q n live cells) := by
  intro w r old new h hold hlength
  have hsized : ∀ {cells : List Cell}, w.memory.Sized cells → ∀ cell ∈ cells,
      cell.neighbors = some r → (new.length : Int) = cell.level + 1 :=
    fun hsized cell hcell hr => hlength ▸ hsized cell hcell r hr old hold
  exact ⟨h.hnsw, h.given, h.copy, ⟨h.blocks.texts, h.blocks.vectors, h.blocks.arrays,
    h.blocks.lists.write (h.blocks.lists.mem hold) new⟩, h.ids, h.values,
    h.sizedLive.update (hsized h.sizedLive), h.sized.update (hsized h.sized), h.fresh⟩

/-! ## Edges -/

variable [Arith]

theorem addEdgeIn_leaves (hP : Rewrites P) (srcIdx dstIdx level : Nat) :
    Leaves P (addEdgeIn tmp srcIdx dstIdx level) (fun _ => P) P := by
  have hrun : ∀ {α : Type} (x : Run Status α), Leaves P (Cmd.lift x) (fun _ => P) P :=
    fun x => Leaves.lift fun _ h => h
  unfold addEdgeIn
  refine load_leaves.bind fun hnsw => (hrun _).bind fun src => ?_
  refine Leaves.bind (Q := fun _ => P) ?_ fun r => ?_
  · unfold neighborsPtr
    refine need_leaves.bind fun q => arrayAt_leaves.bind fun array => need_leaves.bind fun cell => ?_
    exact need_leaves.mono (fun _ h => h) (fun _ _ h => h.2.2.2.2) fun _ h => h
  refine listsAt_leaves.bind fun lists => ?_
  refine need_leaves.bind fun list => ?_
  -- the array has as many lists as were read from it
  refine Leaves.mono (P := fun w => P w ∧ ∃ old, w.memory.lists r = some old ∧
      old.length = lists.length) ?_ (fun w h => ⟨h.2.2, lists, h.2.1, rfl⟩) (fun _ _ h => h)
    fun _ h => h
  have hwrite : ∀ list', Leaves (fun w => P w ∧ ∃ old, w.memory.lists r = some old ∧
      old.length = lists.length) (writeLists r (lists.set level list')) (fun _ w => P w ∧
        ∃ old, w.memory.lists r = some old ∧ old.length = lists.length) P := by
    intro list'
    refine writeLists_leaves fun w old h hold => ⟨hP w r old _ h.1 hold ?_, _,
      Function.update_self .., List.length_set⟩
    obtain ⟨old', hold', hlength⟩ := h.2
    rw [hold] at hold'
    cases hold'
    rw [List.length_set, hlength]
  split
  · exact Leaves.pure fun w h => h.1
  refine (Leaves.lift fun w h => h.1).bind fun capacity => (hwrite _).bind fun _ => ?_
  generalize (if level = 0 then hnsw.m * 2 else hnsw.m) = mMax
  dsimp only
  split
  · refine (Leaves.lift fun w h => h.1).bind fun worst => ?_
    split
    · exact (hwrite _).mono (fun _ h => h) (fun _ _ h => h.1) fun _ h => h
    · exact Leaves.pure fun w h => h.1
  · exact Leaves.pure fun w h => h.1

theorem connectIn_leaves (hP : Rewrites P) (i level : Nat) : ∀ (sorted : List NodeScore)
    (connected currIdx : Nat),
    Leaves P (connectIn tmp i level sorted connected currIdx) (fun _ => P) P
  | [], _, _ => Leaves.pure fun _ h => h
  | best :: rest, connected, currIdx => by
    unfold connectIn
    split
    · refine (addEdgeIn_leaves hP i best.idx level).bind fun _ => ?_
      refine (addEdgeIn_leaves hP best.idx i level).bind fun _ => ?_
      exact connectIn_leaves hP i level rest _ _
    · exact Leaves.pure fun _ h => h

theorem connectLevelsIn_leaves (hP : Rewrites P) (i : Nat) (item : Item) : ∀ (levels currIdx : Nat),
    Leaves P (connectLevelsIn tmp i item levels currIdx) (fun _ => P) P
  | 0, _ => Leaves.pure fun _ h => h
  | level + 1, currIdx => by
    unfold connectLevelsIn
    refine load_leaves.bind fun hnsw => ?_
    refine (Leaves.lift fun _ h => h).bind fun heap => (Leaves.lift fun _ h => h).bind fun found => ?_
    refine (Leaves.lift fun _ h => h).bind fun _ => (connectIn_leaves hP i level _ 0 currIdx).bind ?_
    exact fun curr => connectLevelsIn_leaves hP i item level curr

/-! ## One insertion -/

omit [Arith] in
theorem writeCell_leaves {w₁ : World} {array : ItemArray} {i : Nat} {f : Cell → Cell}
    {Q : World → Prop} (htmp : tmp.items = some q) (harray : w₁.memory.arrays q = some array)
    (hQ : ∀ cell, array.cells[i]? = some cell → Q (w₁.store fun m => { m with
      arrays := Function.update m.arrays q
        (some { array with cells := array.cells.set i (f cell) }) })) :
    Leaves (· = w₁) (writeCell tmp i f) (fun _ => Q) F := by
  have hknown : ∀ w, w = w₁ → w.memory.arrays q = some array := by
    rintro _ rfl
    exact harray
  cases hcell : array.cells[i]? with
  | some cell =>
    refine (writeCell_does htmp hknown hcell ?_).leaves
    rintro _ rfl
    exact hQ cell hcell
  | none =>
    unfold writeCell
    refine (need_does htmp).leaves.known ((arrayAt_does hknown).leaves.known ?_)
    rw [hcell]
    exact Leaves.fault

omit [Arith] in
/-- The next cell of the copy is replaced, with the neighbour arrays that it now leads to. -/
theorem Working.replaced (h : Working w₀ p q n live cells w) {cell c : Cell}
    (hcell : cells[n]? = some cell) (hid : c.id = cell.id) (hvalues : c.values = cell.values)
    {lists : Nat → Option (List NeighborList)} {next k : Nat} (hle : w.memory.next ≤ next)
    (hlists : Live lists next
      (live.cells.filterMap Cell.neighbors ++ (cells.set n c).filterMap Cell.neighbors))
    (hsizedLive : Memory.Sized { w.memory with lists } live.cells)
    (hsized : Memory.Sized { w.memory with lists } (cells.set n c))
    (hfresh : Fresh k (cells.set n c)) :
    Working w₀ p q k live (cells.set n c) (w.store fun m => { m with
      arrays := Function.update m.arrays q (some ⟨cells.set n c, w₀.hnsw.count⟩), lists, next }) := by
  refine ⟨h.hnsw, (Function.update_of_ne h.ne ..).trans h.given, Function.update_self .., ⟨?_, ?_, ?_,
    hlists⟩, ?_, ?_, hsizedLive, hsized, hfresh⟩
  · exact h.blocks.texts.mono hle
  · exact h.blocks.vectors.mono hle
  · exact (h.blocks.arrays.write (List.mem_cons_of_mem _ (List.mem_singleton_self q)) _).mono hle
  · rw [map_set_same hcell hid]
    exact h.ids
  · rw [map_set_same hcell hvalues]
    exact h.values

omit [Arith] in
/-- The level of the next cell is written. -/
theorem Working.withLevel (h : Working w₀ p q n live cells w) {cell : Cell}
    (hcell : cells[n]? = some cell) (level : Int) :
    Working w₀ p q n live (cells.set n { cell with level }) (w.store fun m => { m with
      arrays := Function.update m.arrays q
        (some ⟨cells.set n { cell with level }, w₀.hnsw.count⟩) }) := by
  have hnone := h.fresh n cell (Nat.le_refl n) hcell
  have hneighbors : (cells.set n { cell with level }).filterMap Cell.neighbors =
      cells.filterMap Cell.neighbors := by
    have hmap := congrArg (List.filterMap id)
      (map_set_same (f := Cell.neighbors) (c := { cell with level }) hcell rfl)
    rw [List.filterMap_map, List.filterMap_map] at hmap
    exact hmap
  refine h.replaced (c := { cell with level }) hcell rfl rfl (Nat.le_refl _) ?_ h.sizedLive ?_ ?_
  · rw [hneighbors]
    exact h.blocks.lists
  · intro c hc r hr
    rcases List.mem_or_eq_of_mem_set hc with hc | rfl
    · exact h.sized c hc r hr
    · rw [show cell.neighbors = some r from hr] at hnone
      cases hnone
  · intro j c hj hc
    rw [List.getElem?_set] at hc
    split at hc
    · split at hc
      · cases hc
        exact hnone
      · cases hc
    · exact h.fresh j c hj hc

omit [Arith] in
/-- The next cell gets a new neighbour array. -/
theorem Working.attached (h : Working w₀ p q n live cells w) {cell : Cell}
    (hcell : cells[n]? = some cell) {lists : List NeighborList}
    (hlength : (lists.length : Int) = cell.level + 1) :
    Working w₀ p q (n + 1) live (cells.set n { cell with neighbors := some w.memory.next })
      (w.store fun m => { m with
        arrays := Function.update m.arrays q
          (some ⟨cells.set n { cell with neighbors := some m.next }, w₀.hnsw.count⟩)
        lists := Function.update m.lists m.next (some lists), next := m.next + 1 }) := by
  have hnone := h.fresh n cell (Nat.le_refl n) hcell
  have hnew : ∀ c ∈ live.cells ++ cells, c.neighbors ≠ some w.memory.next := by
    intro c hc hr
    have hmem : w.memory.next ∈ live.cells.filterMap Cell.neighbors ++
        cells.filterMap Cell.neighbors := by
      rw [← List.filterMap_append]
      exact List.mem_filterMap.mpr ⟨c, hc, hr⟩
    have hlt := h.blocks.lists.below _ hmem
    omega
  refine h.replaced (c := { cell with neighbors := some w.memory.next }) hcell rfl rfl
    (Nat.le_succ _) ?_ ?_ ?_ (h.fresh.set _)
  · refine (h.blocks.lists.alloc lists).perm ?_
    rw [List.append_assoc]
    exact (neighbors_set_perm hcell hnone rfl).symm.append_left _
  · exact h.sizedLive.update fun c hc hr => absurd hr (hnew c (List.mem_append_left _ hc))
  · intro c hc r hr old hold
    rcases List.mem_or_eq_of_mem_set hc with hc | rfl
    · exact (h.sized.update (n := w.memory.next) fun c hc hr =>
        absurd hr (hnew c (List.mem_append_right _ hc))) c hc r hr old hold
    · cases hr
      change Function.update w.memory.lists w.memory.next _ _ = some old at hold
      rw [Function.update_self, Option.some.injEq] at hold
      rw [← hold]
      exact hlength

/-- The copy before item `n` is inserted. -/
def Building (w₀ : World) (p q n : Nat) (live : ItemArray) (tmp : Handle) (w : World) : Prop :=
  tmp.items = some q ∧ ∃ cells, Working w₀ p q n live cells w

/-- The memory that a failed build leaves to its cleanup. -/
def Broken (w₀ : World) (p q : Nat) (live : ItemArray) (w : World) : Prop :=
  ∃ n cells, Working w₀ p q n live cells w

theorem insertItemIn_leaves : Leaves (Building w₀ p q n live tmp) (insertItemIn tmp n)
    (fun tmp => Building w₀ p q (n + 1) live tmp) (Broken w₀ p q live) := by
  refine Leaves.from fun w h => ?_
  obtain ⟨htmp, cells, h⟩ := h
  unfold insertItemIn
  generalize randomLevel tmp.rngState = drawn
  obtain ⟨level, rngState⟩ := drawn
  have hitems : Handle.items { tmp with rngState } = some q := htmp
  dsimp only
  refine Leaves.bind (Q := fun _ w => ∃ cells cell, Working w₀ p q n live cells w ∧
    cells[n]? = some cell ∧ cell.level = (level : Int)) ?_ fun _ => ?_
  · refine writeCell_leaves hitems h.copy fun cell hcell => ?_
    obtain ⟨hlt, -⟩ := List.getElem?_eq_some_iff.mp hcell
    exact ⟨_, _, h.withLevel hcell level, List.getElem?_set_self hlt, rfl⟩
  refine (Leaves.lift ?_).bind fun _ => ?_
  · rintro w' ⟨cells', cell, hworking, -⟩
    exact ⟨n, cells', hworking⟩
  refine Leaves.from fun w' h' => ?_
  obtain ⟨cells', cell, hworking, hcell, hlevel⟩ := h'
  refine Leaves.bind (Q := fun r w'' => r = w'.memory.next ∧ w'' = w'.store fun m => { m with
    lists := Function.update m.lists m.next (some (List.replicate (level + 1) ⟨[], 0⟩))
    next := m.next + 1 }) ?_ fun r => ?_
  · refine (newLists_does _).leaves.mono (fun _ h => h) ?_ fun _ h => h
    rintro r _ ⟨_, rfl, rfl, rfl⟩
    exact ⟨rfl, rfl⟩
  refine Leaves.from fun w'' h'' => ?_
  obtain ⟨rfl, rfl⟩ := h''
  refine Leaves.bind (Q := fun _ => Building w₀ p q (n + 1) live { tmp with rngState }) ?_ fun _ => ?_
  · refine writeCell_leaves hitems hworking.copy fun cell' hcell' => ?_
    rw [hcell] at hcell'
    cases hcell'
    refine ⟨htmp, _, hworking.attached hcell ?_⟩
    rw [List.length_replicate, hlevel]
    rfl
  have hbroken : ∀ w, Building w₀ p q (n + 1) live { tmp with rngState } w → Broken w₀ p q live w :=
    fun w h => ⟨n + 1, h.2⟩
  split
  · exact Leaves.pure fun _ h => h
  refine load_leaves.bind fun hnsw => (Leaves.lift hbroken).bind fun item => ?_
  refine (Leaves.lift hbroken).bind fun s => (Leaves.lift hbroken).bind fun d => ?_
  refine Leaves.bind (Q := fun _ => Building w₀ p q (n + 1) live { tmp with rngState }) ?_ fun _ => ?_
  · refine Leaves.mono (connectLevelsIn_leaves (P := Building w₀ p q (n + 1) live
      { tmp with rngState }) ?_ n item _ _) (fun _ h => h) (fun _ _ h => h) hbroken
    rintro w r old new ⟨hitems, cells, hw⟩ hold hlength
    exact ⟨hitems, cells, Working.rewrites w r old new hw hold hlength⟩
  split
  · exact Leaves.pure fun _ h => h
  · exact Leaves.pure fun _ h => h

/-! ## Giving items up -/

omit [Arith] in
/-- Of the neighbour arrays of `w₁` those of the list are left; nothing else changed. -/
def Trimmed (w₁ : World) (owned : List Nat) (w : World) : Prop :=
  ∃ lists, w = w₁.store (fun m => { m with lists }) ∧ Live lists w₁.memory.next owned ∧
    ∀ r old, lists r = some old → w₁.memory.lists r = some old

omit [Arith] in
theorem freeNeighbors_leaves {w₁ : World} {rest : List Nat} : ∀ cells : List Cell,
    Leaves (Trimmed w₁ (cells.filterMap Cell.neighbors ++ rest)) (freeNeighbors cells)
      (fun _ => Trimmed w₁ rest) F
  | [] => Leaves.pure fun _ h => h
  | cell :: cells => by
    unfold freeNeighbors
    cases hr : cell.neighbors with
    | none =>
      rw [List.filterMap_cons_none hr]
      exact freeNeighbors_leaves cells
    | some r =>
      rw [List.filterMap_cons_some hr, List.cons_append]
      refine (freeLists_leaves fun w h _ => ?_).bind fun _ => freeNeighbors_leaves cells
      obtain ⟨lists, rfl, hlists, hkept⟩ := h
      refine ⟨Function.update lists r none, rfl, hlists.free, fun r' old hold => ?_⟩
      by_cases heq : r' = r
      · subst heq
        rw [Function.update_self] at hold
        cases hold
      · rw [Function.update_of_ne heq] at hold
        exact hkept r' old hold

omit [Arith] in
/-- An items array is given up, with the neighbour arrays of its cells. -/
theorem freeItems_leaves {w₁ : World} {array : ItemArray} {rest : List Nat}
    (harray : w₁.memory.arrays q = some array)
    (hlists : Live w₁.memory.lists w₁.memory.next
      (array.cells.filterMap Cell.neighbors ++ rest)) :
    Leaves (· = w₁) (freeItems q) (fun _ w => ∃ lists, w = w₁.store (fun m => { m with
      arrays := Function.update m.arrays q none, lists }) ∧ Live lists w₁.memory.next rest ∧
        ∀ r old, lists r = some old → w₁.memory.lists r = some old) F := by
  unfold freeItems
  refine (@arrayAt_does _ _ array ?_).leaves.known ?_
  · rintro _ rfl
    exact harray
  refine Leaves.bind (Q := fun _ => Trimmed w₁ rest) ?_ fun _ => freeArray_leaves fun w h _ => ?_
  · refine (freeNeighbors_leaves array.cells).mono (fun w h => ?_) (fun _ _ h => h) fun _ h => h
    subst h
    exact ⟨w.memory.lists, rfl, hlists, fun _ _ h => h⟩
  · obtain ⟨lists, rfl, h⟩ := h
    exact ⟨lists, rfl, h⟩

omit [Arith] in
theorem Memory.Sized.trimmed {m m' : Memory} (h : m.Sized cells)
    (hkept : ∀ r old, m'.lists r = some old → m.lists r = some old) : m'.Sized cells :=
  fun cell hcell r hr lists hlists => h cell hcell r hr lists (hkept r lists hlists)

omit [Arith] in
/-- The cleanup leaves the index of the caller. -/
theorem Broken.cleanup (hp : w₀.hnsw.items = some p) (hcount : w₀.hnsw.count = live.cells.length) :
    Leaves (Broken w₀ p q live) (freeItems q) (fun _ => Owned) F := by
  refine Leaves.from fun w h => ?_
  obtain ⟨n, cells, h⟩ := h
  refine (freeItems_leaves h.copy (h.blocks.lists.perm List.perm_append_comm)).mono (fun _ h => h)
    (fun _ w' hw' => ?_) fun _ h => h
  obtain ⟨lists, rfl, hlists, hkept⟩ := hw'
  refine ⟨live, ?_, ?_, ⟨?_, ?_, ?_, hlists⟩, h.sizedLive.trimmed hkept⟩
  · unfold Memory.arrayOf
    simp only [World.store, h.hnsw, hp, Function.update_of_ne h.ne, h.given]
  · exact (congrArg Handle.count h.hnsw).trans hcount
  · exact h.blocks.texts
  · exact h.blocks.vectors
  · simp only [World.store, h.hnsw, hp, Option.toList_some]
    exact (h.blocks.arrays.perm (List.Perm.swap q p [])).free

omit [Arith] in
/-- The copy takes the place of the items of the caller. -/
theorem Building.commit {f : Handle → Handle} (hf : ∀ h, (f h).items = some q ∧ (f h).count = h.count)
    (hcount : w₀.hnsw.count = live.cells.length) :
    Leaves (Building w₀ p q n live tmp) (do freeItems p; setHandle f) (fun _ => Owned) F := by
  refine Leaves.from fun w h => ?_
  obtain ⟨-, cells, h⟩ := h
  refine (freeItems_leaves h.given h.blocks.lists).bind fun _ => (setHandle_does _ ?_).leaves
  rintro w' ⟨lists, rfl, hlists, hkept⟩
  have hlength : cells.length = live.cells.length := by simpa using h.ids.length_eq
  refine ⟨⟨cells, w₀.hnsw.count⟩, ?_, ?_, ⟨?_, ?_, ?_, hlists⟩, h.sized.trimmed hkept⟩
  · unfold Memory.arrayOf
    simp only [World.store, hf, Function.update_of_ne h.ne.symm, h.copy]
  · change (f w.hnsw).count = cells.length
    rw [(hf _).2, h.hnsw, hcount, hlength]
  · exact h.blocks.texts.perm h.ids.symm
  · exact h.blocks.vectors.perm h.values.symm
  · simp only [World.store, hf, Option.toList_some]
    exact h.blocks.arrays.free

theorem buildIn_leaves : Leaves Owned buildIn (fun _ => Owned) Owned := by
  refine Leaves.from fun w h => ?_
  have hold := h
  obtain ⟨live, hlive, hcount, hblocks, hsized⟩ := h
  unfold buildIn
  refine get_does.leaves.known ?_
  split
  · refine Leaves.pure ?_
    rintro _ rfl
    exact hold
  refine (Leaves.lift ?_).bind fun _ => ?_
  · rintro _ rfl
    exact hold
  refine need_leaves.bind fun p => Leaves.from fun w' hw' => ?_
  obtain ⟨hp, rfl⟩ := hw'
  have harray : w'.memory.arrays p = some live := by
    unfold Memory.arrayOf at hlive
    rwa [hp] at hlive
  refine (@arrayAt_does _ _ live ?_).leaves.known ?_
  · rintro _ rfl
    exact harray
  rw [if_neg (by omega)]
  have hperm := shuffleOf_perm w'.hnsw.count 0 (live.cells.map Cell.bare) w'.hnsw.rngState
  generalize shuffleOf w'.hnsw.count 0 (live.cells.map Cell.bare) w'.hnsw.rngState = shuffled
    at hperm ⊢
  obtain ⟨cells, rngState⟩ := shuffled
  dsimp only at hperm ⊢
  have hbare : ∀ cell ∈ cells, cell.neighbors = none := by
    intro cell hcell
    obtain ⟨old, -, rfl⟩ := List.mem_map.mp (hperm.mem_iff.mp hcell)
    rfl
  refine (newArray_does _).leaves.known ?_
  rw [hp, Option.toList_some] at hblocks
  have hworking : Working w' p w'.memory.next 0 live cells (w'.store fun m => { m with
      arrays := Function.update m.arrays m.next (some ⟨cells, w'.hnsw.count⟩)
      next := m.next + 1 }) := by
    have hnew := hblocks.newArray ⟨cells, w'.hnsw.count⟩
    have hlt := hblocks.arrays.below p (List.mem_singleton_self p)
    have hnone : cells.filterMap Cell.neighbors = [] :=
      List.filterMap_eq_nil_iff.mpr hbare
    refine ⟨rfl, ?_, Function.update_self .., ⟨hnew.texts, hnew.vectors, hnew.arrays, ?_⟩, ?_, ?_,
      hsized, ?_, fun j cell _ hcell => hbare cell (List.mem_of_getElem? hcell)⟩
    · exact (Function.update_of_ne (by omega) ..).trans harray
    · rw [hnone, List.append_nil]
      exact hnew.lists
    · have hids := hperm.map Cell.id
      rwa [List.map_map] at hids
    · have hvalues := hperm.map Cell.values
      rwa [List.map_map] at hvalues
    · intro cell hcell r hr
      rw [hbare cell hcell] at hr
      cases hr
  refine Leaves.bind (Q := fun tmp => Building w' p w'.memory.next w'.hnsw.count live tmp) ?_
    fun tmp => Building.commit (fun _ => ⟨rfl, rfl⟩) hcount
  refine Leaves.onFail (F := Broken w' p w'.memory.next live) ?_ (Broken.cleanup hp hcount) fun _ h => h
  refine Leaves.mono (Leaves.foldlM_range
    (fun i tmp => Building w' p w'.memory.next i live tmp) _ (fun i _ tmp => insertItemIn_leaves) _)
    (fun w h => ?_) (fun _ _ h => h) fun _ h => h
  subst h
  exact ⟨rfl, cells, hworking⟩

/-- A call that leaves the items their places. -/
theorem callIn_leaves {host : Host} {hnsw : Index} {op : Op} (hspares : Spares host hnsw op) :
    Leaves (fun w => Owned w ∧ Holds w hnsw) (callIn host op) (fun _ => Owned) Owned := by
  have hfield : ∀ w, Holds w hnsw → w.hnsw.capacity = hnsw.capacity := fun w hw => by
    obtain ⟨array, -, -, hfield⟩ := hw.array
    exact (congrArg Index.capacity hfield).symm
  cases op with
  | reserve capacity =>
    refine (reserveIn_leaves capacity).mono (fun w h => ⟨h.1, fun hlt => ?_⟩) (fun _ _ h => h)
      fun _ h => h
    rw [hfield w h.2] at hlt
    rw [h.2.count]
    exact (hspares.resolve_left (by omega)).1
  | add id values =>
    refine (addIn_leaves id values).mono (fun w h => ⟨h.1, fun hid hfull hlt => ?_⟩)
      (fun _ _ h => h) fun _ h => h
    rw [h.2.count, hfield w h.2] at hfull
    rw [hfield w h.2] at hlt ⊢
    have hplace := (hspares.resolve_left hid).2
    rw [HasPlace, if_pos ⟨hfull, hlt⟩] at hplace
    rw [h.2.count]
    exact Nat.le_of_lt hplace.1
  | build => exact buildIn_leaves.mono (fun _ h => h.1) (fun _ _ h => h) fun _ h => h

/-- **Every life in memory** whose calls leave the items their places owns its blocks. -/
theorem reached_owned {host : Host} {dimension : Nat} {metric : Metric} {w : World}
    (h : (lifeIn host dimension metric).Reached (SparesIn host) w) : Owned w := by
  refine (h.invariant (fun w => Owned w ∧ ∃ s : Life, Holds w s.index) (fun w hw => ?_)
    fun w op w' hw hspares hstep => ?_).1
  · refine ⟨?_, (Holds.start hw).imp fun _ h => h.2⟩
    obtain ⟨env, seed, e, e', hopen⟩ := hw
    unfold openIn at hopen
    obtain ⟨hnsw, e₁, -, hopen⟩ := Run.exec_bind_ok hopen
    cases hopen
    exact ⟨⟨[], 0⟩, rfl, rfl, ⟨.empty, .empty, .empty, .empty⟩, fun cell hcell => by cases hcell⟩
  · obtain ⟨howned, s, hw⟩ := hw
    obtain ⟨e, r, e', hrun⟩ := hstep
    obtain ⟨s', -, hholds⟩ := hw.step hrun
    refine ⟨?_, s', hholds⟩
    have hcall := callIn_leaves (hspares.spares hw)
    unfold liveIn at hrun
    have hattempt : Leaves (fun w => Owned w ∧ Holds w s.index)
        (Cmd.attempt (callIn host op) : Cmd World Status _) (fun _ => Owned) fun _ => False :=
      Leaves.attempt hcall
    exact hattempt.ok ⟨howned, hw⟩ hrun

end Copy

end Ipa.Hnsw
