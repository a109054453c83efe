import Ipa.Hnsw.Memory

/-!
# The copy that the build works on

While the build runs, its copy of the items lies in blocks that were not allocated before: nothing
that the live index leads to is written or freed. On the copy every part of the build does in
memory what it does on values, and where an allocation fails the cleanup gives up the copy and
nothing else.
-/

namespace Ipa.Hnsw

open Run

/-! ## Reading -/

/-- No two cells share a neighbour array. -/
def Distinct (cells : List Cell) : Prop :=
  cells.Pairwise fun a b => ∀ r, a.neighbors = some r → b.neighbors ≠ some r

namespace Memory

variable {m m' : Memory}

theorem readItems_cons {cell : Cell} {cells : List Cell} {items : List Item} :
    m.readItems (cell :: cells) = some items ↔
      ∃ item rest, m.readItem cell = some item ∧ m.readItems cells = some rest ∧
        items = item :: rest := by
  rw [readItems]
  constructor
  · intro h
    split at h
    · rename_i item rest hitem hrest
      cases h
      exact ⟨item, rest, hitem, hrest, rfl⟩
    · cases h
  · rintro ⟨item, rest, hitem, hrest, rfl⟩
    simp only [hitem, hrest]

theorem readItem_eq_some {cell : Cell} {item : Item} : m.readItem cell = some item ↔
    m.texts cell.id = some item.id ∧ m.vectors cell.values = some item.values ∧
      m.neighborsOf cell = some item.neighbors ∧ cell.norm = item.norm ∧
        cell.level = item.level := by
  unfold readItem
  constructor
  · intro h
    split at h
    · rename_i id values neighbors hid hvalues hneighbors
      cases h
      exact ⟨hid, hvalues, hneighbors, rfl, rfl⟩
    · cases h
  · rintro ⟨hid, hvalues, hneighbors, hnorm, hlevel⟩
    rw [hid, hvalues, hneighbors]
    simp only [hnorm, hlevel]

/-- A cell with a neighbour array leads to the lists of its item. -/
theorem readItem_lists {cell : Cell} {item : Item} (h : m.readItem cell = some item)
    {lists : List NeighborList} (hlists : item.neighbors = some lists) :
    ∃ r, cell.neighbors = some r ∧ m.lists r = some lists := by
  unfold readItem at h
  split at h
  · rename_i id values neighbors hid hvalues hneighbors
    cases h
    change neighbors = some lists at hlists
    rw [hlists] at hneighbors
    unfold neighborsOf at hneighbors
    split at hneighbors
    · cases hneighbors
    · rename_i r hr
      obtain ⟨lists', hlists', heq⟩ := Option.map_eq_some_iff.mp hneighbors
      cases heq
      exact ⟨r, hr, hlists'⟩
  · cases h

/-- A cell without neighbour array leads to an item without lists. -/
theorem readItem_null {cell : Cell} {item : Item} (h : m.readItem cell = some item)
    (hlists : item.neighbors = none) : cell.neighbors = none := by
  rcases hr : cell.neighbors with _ | r
  · rfl
  · obtain ⟨-, -, hneighbors, -⟩ := readItem_eq_some.mp h
    unfold neighborsOf at hneighbors
    rw [hr, hlists] at hneighbors
    obtain ⟨lists, -, heq⟩ := Option.map_eq_some_iff.mp hneighbors
    cases heq

theorem length_readItems : ∀ {cells : List Cell} {items : List Item},
    m.readItems cells = some items → items.length = cells.length
  | [], _, h => by
    cases h
    rfl
  | cell :: cells, items, h => by
    obtain ⟨item, rest, -, hrest, rfl⟩ := readItems_cons.mp h
    rw [List.length_cons, List.length_cons, length_readItems hrest]

theorem readItems_getElem? : ∀ {cells : List Cell} {items : List Item} {i : Nat} {item : Item},
    m.readItems cells = some items → items[i]? = some item →
      ∃ cell, cells[i]? = some cell ∧ m.readItem cell = some item
  | [], _, i, _, h, hitem => by
    cases h
    cases hitem
  | cell :: cells, items, i, item, h, hitem => by
    obtain ⟨first, rest, hfirst, hrest, rfl⟩ := readItems_cons.mp h
    cases i with
    | zero =>
      cases hitem
      exact ⟨cell, rfl, hfirst⟩
    | succ i => exact readItems_getElem? (i := i) hrest hitem

theorem readItems_congr : ∀ {cells : List Cell},
    (∀ cell ∈ cells, m'.readItem cell = m.readItem cell) → m'.readItems cells = m.readItems cells
  | [], _ => rfl
  | cell :: cells, h => by
    rw [readItems, readItems, h cell List.mem_cons_self,
      readItems_congr fun c hc => h c (List.mem_cons_of_mem _ hc)]

/-- One cell is written. -/
theorem readItems_set : ∀ {cells : List Cell} {items : List Item} {i : Nat} {cell : Cell}
    {item : Item}, m.readItems cells = some items → m.readItem cell = some item →
      m.readItems (cells.set i cell) = some (items.set i item)
  | [], _, _, _, _, h, _ => by
    cases h
    rfl
  | first :: cells, items, i, cell, item, h, hitem => by
    obtain ⟨firstItem, rest, hfirst, hrest, rfl⟩ := readItems_cons.mp h
    cases i with
    | zero => exact readItems_cons.mpr ⟨item, rest, hitem, hrest, rfl⟩
    | succ i =>
      exact readItems_cons.mpr ⟨firstItem, rest.set i item, hfirst, readItems_set hrest hitem, rfl⟩

/-- A neighbour array that the cell does not lead to is no part of its item. -/
theorem readItem_update_ne {cell : Cell} {r : Nat} (h : cell.neighbors ≠ some r)
    (lists : Option (List NeighborList)) (next : Nat) :
    readItem { m with lists := Function.update m.lists r lists, next } cell = m.readItem cell := by
  have hneighbors : neighborsOf { m with lists := Function.update m.lists r lists, next } cell =
      m.neighborsOf cell := by
    unfold neighborsOf
    split
    · rfl
    · rename_i r' hr'
      have hne : r' ≠ r := fun heq => h (heq ▸ hr')
      simp only [Function.update_of_ne hne]
  unfold readItem
  rw [hneighbors]

/-- A neighbour array is written. -/
theorem readItems_update : ∀ {cells : List Cell} {items : List Item} {i r : Nat} {cell : Cell}
    {item : Item} (lists : List NeighborList), m.readItems cells = some items → Distinct cells →
      cells[i]? = some cell → cell.neighbors = some r → items[i]? = some item →
        readItems { m with lists := Function.update m.lists r (some lists) } cells =
          some (items.set i { item with neighbors := some lists })
  | [], _, _, _, _, _, _, _, _, hcell, _, _ => by cases hcell
  | first :: cells, items, i, r, cell, item, lists, h, hdistinct, hcell, hr, hitem => by
    obtain ⟨firstItem, rest, hfirst, hrest, rfl⟩ := readItems_cons.mp h
    obtain ⟨hhead, htail⟩ := List.pairwise_cons.mp hdistinct
    cases i with
    | zero =>
      cases hcell
      cases hitem
      refine readItems_cons.mpr ⟨_, rest, ?_, ?_, rfl⟩
      · obtain ⟨hid, hvalues, -, hnorm, hlevel⟩ := readItem_eq_some.mp hfirst
        refine readItem_eq_some.mpr ⟨hid, hvalues, ?_, hnorm, hlevel⟩
        simp only [neighborsOf, hr, Function.update_self, Option.map_some]
      · rw [readItems_congr fun c hc => readItem_update_ne (hhead c hc r hr) _ _]
        exact hrest
    | succ i =>
      have hmem : cell ∈ cells := List.mem_of_getElem? hcell
      refine readItems_cons.mpr ⟨firstItem, _, ?_,
        readItems_update lists hrest htail hcell hr hitem, rfl⟩
      rw [readItem_update_ne fun heq => hhead cell hmem r heq hr]
      exact hfirst

end Memory

/-! ## What reads an index does not look at its slots -/

section Slots

variable [Arith] (hnsw : Index) (query : List Binary32) (queryNorm : Binary64) (n : Nat)

theorem worstEdge_slots (src : Item) : ∀ (edges : List Nat) (i : Nat)
    (worst : Option (Nat × Binary64)),
    worstEdge { hnsw with slots := n } src edges i worst = worstEdge hnsw src edges i worst
  | [], _, _ => rfl
  | target :: rest, i, worst => by
    unfold worstEdge
    refine bind_congr fun s => ?_
    cases worst with
    | none => exact worstEdge_slots src rest _ _
    | some w => simp only [worstEdge_slots src rest]

theorem descendLevel_slots (level : Nat) : ∀ (fuel : Nat) (d : Descent),
    descendLevel { hnsw with slots := n } query queryNorm level fuel d =
      descendLevel hnsw query queryNorm level fuel d
  | 0, _ => rfl
  | fuel + 1, d => by
    unfold descendLevel
    refine bind_congr fun list => bind_congr fun d' => ?_
    rw [descendLevel_slots level fuel d']

theorem descend_slots (low : Nat) : ∀ (steps : Nat) (d : Descent),
    descend { hnsw with slots := n } query queryNorm low steps d =
      descend hnsw query queryNorm low steps d
  | 0, _ => rfl
  | steps + 1, d => by
    unfold descend
    rw [descendLevel_slots]
    exact bind_congr fun d' => descend_slots low steps d'

theorem searchLoop_slots (level ef : Nat) : ∀ (fuel : Nat) (st : LevelSearch),
    searchLoop { hnsw with slots := n } query queryNorm level ef fuel st =
      searchLoop hnsw query queryNorm level ef fuel st
  | 0, _ => rfl
  | fuel + 1, st => by
    unfold searchLoop
    split
    · rfl
    simp only
    split
    · rfl
    refine bind_congr fun list => bind_congr fun st' => ?_
    exact searchLoop_slots level ef fuel st'

theorem searchLevel_slots (entryIdx level ef : Nat) (results : Heap) :
    searchLevel { hnsw with slots := n } query queryNorm entryIdx level ef results =
      searchLevel hnsw query queryNorm entryIdx level ef results := by
  unfold searchLevel
  simp only [searchLoop_slots]
  rfl

end Slots

/-! ## The copy -/

/-- Nothing of the memory changed but the copy at `q` and the neighbour arrays of its cells. -/
structure Copying (w₀ : World) (q : Nat) (cells : List Cell) (w : World) : Prop where
  hnsw : w.hnsw = w₀.hnsw
  texts : w.memory.texts = w₀.memory.texts
  vectors : w.memory.vectors = w₀.memory.vectors
  arrays : w.memory.arrays =
    Function.update w₀.memory.arrays q (some ⟨cells, w₀.hnsw.count⟩)
  old : ∀ r, r < w₀.memory.next → w.memory.lists r = w₀.memory.lists r
  new : ∀ r, w₀.memory.next ≤ r →
    ((w.memory.lists r).isSome = true ↔ ∃ cell ∈ cells, cell.neighbors = some r)
  above : ∀ cell ∈ cells, ∀ r, cell.neighbors = some r → w₀.memory.next ≤ r ∧ r < w.memory.next
  distinct : Distinct cells
  place : w₀.memory.next ≤ q ∧ q < w.memory.next

/-- The handle `tmp` of the copy leads to the index on values, its slots apart. -/
structure Copied (w₀ : World) (q : Nat) (cells : List Cell) (tmp : Handle) (hnsw : Index)
    (w : World) : Prop where
  copying : Copying w₀ q cells w
  items : tmp.items = some q
  read : w.memory.readIndex tmp = some { hnsw with slots := w₀.hnsw.count }

/-- The memory that a failure leaves: there is a copy. -/
def HasCopy (w₀ : World) (q : Nat) (w : World) : Prop := ∃ cells, Copying w₀ q cells w

section Copy

variable {w₀ : World} {q : Nat} {cells : List Cell} {tmp : Handle} {hnsw : Index} {w : World}

theorem Copying.array (h : Copying w₀ q cells w) :
    w.memory.arrays q = some ⟨cells, w₀.hnsw.count⟩ := by
  rw [h.arrays, Function.update_self]

/-- Reading through a handle is reading the cells. -/
theorem Copying.readIndex (h : Copying w₀ q cells w) (hitems : tmp.items = some q) :
    w.memory.readIndex tmp = (w.memory.readItems cells).map fun items => {
      dimension := tmp.dimension, metric := tmp.metric, items, lost := tmp.count - items.length
      slots := w₀.hnsw.count, capacity := tmp.capacity, maxLevel := tmp.maxLevel, entryPointIdx := tmp.entryPointIdx
      entryPointSet := tmp.entryPointSet, m := tmp.m, efConstruction := tmp.efConstruction
      efSearch := tmp.efSearch, rngState := tmp.rngState } := by
  unfold Memory.readIndex Memory.arrayOf
  simp only [hitems, h.array]

theorem Copied.readItems (h : Copied w₀ q cells tmp hnsw w) :
    w.memory.readItems cells = some hnsw.items := by
  have hread := h.read
  rw [h.copying.readIndex h.items] at hread
  obtain ⟨items, hitems, heq⟩ := Option.map_eq_some_iff.mp hread
  have hsame : items = hnsw.items := congrArg Index.items heq
  rw [hitems, hsame]

/-- The fields of the handle are those of the index. -/
theorem Copied.field (h : Copied w₀ q cells tmp hnsw w) : hnsw = {
    dimension := tmp.dimension, metric := tmp.metric, items := hnsw.items
    lost := tmp.count - hnsw.items.length, slots := hnsw.slots, capacity := tmp.capacity, maxLevel := tmp.maxLevel, entryPointIdx := tmp.entryPointIdx
    entryPointSet := tmp.entryPointSet, m := tmp.m, efConstruction := tmp.efConstruction
    efSearch := tmp.efSearch, rngState := tmp.rngState } := by
  have hread := h.read
  rw [h.copying.readIndex h.items, h.readItems, Option.map_some, Option.some.injEq] at hread
  cases hnsw
  simp only [Index.mk.injEq] at hread ⊢
  tauto

theorem Copied.maxLevel (h : Copied w₀ q cells tmp hnsw w) : hnsw.maxLevel = tmp.maxLevel :=
  congrArg Index.maxLevel h.field

/-- Another handle of the copy. -/
theorem Copied.handle (h : Copied w₀ q cells tmp hnsw w) {tmp' : Handle} {hnsw' : Index}
    (hitems : tmp'.items = some q) (hfield : hnsw' = {
      dimension := tmp'.dimension, metric := tmp'.metric, items := hnsw.items
      lost := tmp'.count - hnsw.items.length, slots := hnsw'.slots, capacity := tmp'.capacity, maxLevel := tmp'.maxLevel, entryPointIdx := tmp'.entryPointIdx
      entryPointSet := tmp'.entryPointSet, m := tmp'.m, efConstruction := tmp'.efConstruction
      efSearch := tmp'.efSearch, rngState := tmp'.rngState }) :
    Copied w₀ q cells tmp' hnsw' w := by
  refine ⟨h.copying, hitems, ?_⟩
  rw [h.copying.readIndex hitems, h.readItems, hfield]
  rfl

theorem Copied.withState (h : Copied w₀ q cells tmp hnsw w) (rngState : UInt64) :
    Copied w₀ q cells { tmp with rngState } { hnsw with rngState } w :=
  h.handle h.items (congrArg (fun x : Index => { x with rngState }) h.field)

theorem Copied.withEntry (h : Copied w₀ q cells tmp hnsw w) (entryPointIdx : Nat) (maxLevel : Int)
    (entryPointSet : Bool) :
    Copied w₀ q cells { tmp with entryPointIdx, maxLevel, entryPointSet }
      { hnsw with entryPointIdx, maxLevel, entryPointSet } w :=
  h.handle h.items
    (congrArg (fun x : Index => { x with entryPointIdx, maxLevel, entryPointSet }) h.field)

theorem Copied.withTop (h : Copied w₀ q cells tmp hnsw w) (entryPointIdx : Nat) (maxLevel : Int) :
    Copied w₀ q cells { tmp with entryPointIdx, maxLevel } { hnsw with entryPointIdx, maxLevel } w :=
  h.handle h.items (congrArg (fun x : Index => { x with entryPointIdx, maxLevel }) h.field)

/-- The items changed in the memory as on values. -/
theorem Copied.rewrite (h : Copied w₀ q cells tmp hnsw w) {cells' : List Cell} {w' : World}
    {items' : List Item} (hcopying : Copying w₀ q cells' w')
    (hread : w'.memory.readItems cells' = some items')
    (hlength : items'.length = hnsw.items.length) :
    Copied w₀ q cells' tmp { hnsw with items := items' } w' := by
  refine ⟨hcopying, h.items, ?_⟩
  have hold := h.read
  rw [h.copying.readIndex h.items, h.readItems, Option.map_some, Option.some.injEq] at hold
  rw [hcopying.readIndex h.items, hread, Option.map_some, Option.some.injEq, hlength]
  cases hnsw
  simp only [Index.mk.injEq] at hold ⊢
  tauto

end Copy

/-! ## Commands on the copy -/

section Commands

open Cmd (Does Faults)

variable {P : World → Prop}

theorem need_does {α : Type} {o : Option α} {a : α} (h : o = some a) :
    Does P (need o) fun b w => b = a ∧ P w := by
  rw [h]
  exact Does.pure fun w hw => ⟨rfl, hw⟩

theorem load_does {h : Handle} {hnsw : Index}
    (hread : ∀ w, P w → w.memory.readIndex h = some hnsw) :
    Does P (load h) fun a w => a = hnsw ∧ P w := by
  intro w e hw
  refine ⟨hnsw, w, ?_, rfl, hw⟩
  unfold load
  rw [Cmd.exec_bind, Cmd.exec_get]
  simp only [hread w hw]
  rfl

theorem arrayAt_does {q : Nat} {array : ItemArray}
    (h : ∀ w, P w → w.memory.arrays q = some array) :
    Does P (arrayAt q) fun a w => a = array ∧ P w := by
  intro w e hw
  refine ⟨array, w, ?_, rfl, hw⟩
  unfold arrayAt
  rw [Cmd.exec_bind, Cmd.exec_get]
  simp only [h w hw]
  rfl

theorem listsAt_does {r : Nat} {lists : World → List NeighborList}
    (h : ∀ w, P w → w.memory.lists r = some (lists w)) :
    Does P (listsAt r) fun a w => a = lists w ∧ P w := by
  intro w e hw
  refine ⟨lists w, w, ?_, rfl, hw⟩
  unfold listsAt
  rw [Cmd.exec_bind, Cmd.exec_get]
  simp only [h w hw]
  rfl

/-- The world after a change of its memory. -/
def World.store (w : World) (f : Memory → Memory) : World := { w with memory := f w.memory }

theorem store_does (f : Memory → Memory) {Q : World → Prop}
    (h : ∀ w, P w → Q (w.store f)) : Does P (store f) fun _ w => Q w :=
  fun w _ hw => ⟨(), w.store f, rfl, h w hw⟩

theorem setHandle_does (f : Handle → Handle) {Q : World → Prop}
    (h : ∀ w, P w → Q { w with hnsw := f w.hnsw }) : Does P (setHandle f) fun _ w => Q w :=
  fun w _ hw => ⟨(), { w with hnsw := f w.hnsw }, rfl, h w hw⟩

theorem writeCell_does {tmp : Handle} {i q : Nat} {array : ItemArray} {cell : Cell}
    {f : Cell → Cell} {Q : World → Prop} (htmp : tmp.items = some q)
    (harray : ∀ w, P w → w.memory.arrays q = some array) (hcell : array.cells[i]? = some cell)
    (h : ∀ w, P w → Q (w.store fun m => { m with
      arrays := Function.update m.arrays q
        (some { array with cells := array.cells.set i (f cell) }) })) :
    Does P (writeCell tmp i f) fun _ w => Q w := by
  intro w e hw
  refine ⟨(), _, ?_, h w hw⟩
  unfold writeCell writeArray arrayAt
  simp only [Cmd.exec_bind, Cmd.exec_get, htmp, need, Cmd.exec_pure, harray w hw, hcell]
  rfl

theorem newLists_does (lists : List NeighborList) :
    Does P (newLists lists) fun r w' => ∃ w, P w ∧ r = w.memory.next ∧ w' = w.store fun m =>
      { m with lists := Function.update m.lists m.next (some lists), next := m.next + 1 } :=
  fun w _ hw => ⟨w.memory.next, _, rfl, w, hw, rfl, rfl⟩

theorem writeLists_does {r : Nat} {lists : List NeighborList} {Q : World → Prop}
    (hold : ∀ w, P w → (w.memory.lists r).isSome = true)
    (h : ∀ w, P w → Q (w.store fun m =>
      { m with lists := Function.update m.lists r (some lists) })) :
    Does P (writeLists r lists) fun _ w => Q w := by
  refine (@listsAt_does _ _ (fun w => (w.memory.lists r).getD []) fun w hw => ?_).bind
    fun _ => store_does _ fun w hw => h w hw.2
  obtain ⟨old, hold⟩ := Option.isSome_iff_exists.mp (hold w hw)
  rw [hold]
  rfl

theorem freeLists_does {r : Nat} {Q : World → Prop}
    (hold : ∀ w, P w → (w.memory.lists r).isSome = true)
    (h : ∀ w, P w → Q (w.store fun m => { m with lists := Function.update m.lists r none })) :
    Does P (freeLists r) fun _ w => Q w := by
  refine (@listsAt_does _ _ (fun w => (w.memory.lists r).getD []) fun w hw => ?_).bind
    fun _ => store_does _ fun w hw => h w hw.2
  obtain ⟨old, hold⟩ := Option.isSome_iff_exists.mp (hold w hw)
  rw [hold]
  rfl

variable {w₀ : World} {q : Nat} {cells : List Cell} {tmp : Handle} {hnsw : Index}

theorem Copied.load : Does (Copied w₀ q cells tmp hnsw) (load tmp) fun a w =>
    a = { hnsw with slots := w₀.hnsw.count } ∧ Copied w₀ q cells tmp hnsw w :=
  load_does fun _ hw => hw.read

theorem Copied.neighborsPtr {idx r : Nat} {cell : Cell} (hcell : cells[idx]? = some cell)
    (hr : cell.neighbors = some r) : Does (Copied w₀ q cells tmp hnsw) (neighborsPtr tmp idx)
      fun a w => a = r ∧ Copied w₀ q cells tmp hnsw w := by
  intro w e hw
  refine ⟨r, w, ?_, rfl, hw⟩
  unfold Hnsw.neighborsPtr arrayAt
  simp only [Cmd.exec_bind, Cmd.exec_get, hw.items, need, Cmd.exec_pure, hw.copying.array, hcell, hr]

theorem Copied.neighborsPtr_faults {idx : Nat} {cell : Cell} (hcell : cells[idx]? = some cell)
    (hnull : cell.neighbors = none) :
    Faults (Copied w₀ q cells tmp hnsw) (Hnsw.neighborsPtr tmp idx) .index := by
  intro w e hw
  refine ⟨w, ?_⟩
  unfold Hnsw.neighborsPtr arrayAt
  simp only [Cmd.exec_bind, Cmd.exec_get, hw.items, need, Cmd.exec_pure, hw.copying.array, hcell,
    hnull]
  rfl

/-- A neighbour array of the copy is written. -/
theorem Copied.writeLists {idx r : Nat} {cell : Cell} {item : Item} (lists : List NeighborList)
    (hcell : cells[idx]? = some cell) (hr : cell.neighbors = some r)
    (hitem : hnsw.items[idx]? = some item) :
    Does (Copied w₀ q cells tmp hnsw) (Hnsw.writeLists r lists) fun _ w =>
      Copied w₀ q cells tmp
        { hnsw with items := hnsw.items.set idx { item with neighbors := some lists } } w := by
  have hmem := List.mem_of_getElem? hcell
  refine writeLists_does (fun w hw => ?_) fun w hw => ?_
  · exact (hw.copying.new r (hw.copying.above cell hmem r hr).1).mpr ⟨cell, hmem, hr⟩
  · obtain ⟨hhnsw, htexts, hvectors, harrays, hold, hnew, habove, hdistinct, hplace⟩ := hw.copying
    have hbase := (habove cell hmem r hr).1
    refine hw.rewrite ⟨hhnsw, htexts, hvectors, harrays, fun r' hr' => ?_, fun r' hr' => ?_, habove,
      hdistinct, hplace⟩ ?_ List.length_set
    · change Function.update w.memory.lists r _ r' = _
      rw [Function.update_of_ne (by omega)]
      exact hold r' hr'
    · change (Function.update w.memory.lists r _ r').isSome = true ↔ _
      by_cases heq : r' = r
      · subst heq
        rw [Function.update_self]
        exact ⟨fun _ => ⟨cell, hmem, hr⟩, fun _ => rfl⟩
      · rw [Function.update_of_ne heq]
        exact hnew r' hr'
    · exact Memory.readItems_update lists hw.readItems hdistinct hcell hr hitem

/-! ## The cells -/

theorem distinct_set {cells : List Cell} (h : Distinct cells) {i : Nat} {cell : Cell}
    (hnew : ∀ r, cell.neighbors = some r → ∀ other ∈ cells, other.neighbors ≠ some r) :
    Distinct (cells.set i cell) := by
  unfold Distinct at *
  rw [List.pairwise_iff_getElem] at h ⊢
  intro a b ha hb hab r hr
  rw [List.length_set] at ha hb
  rw [List.getElem_set] at hr ⊢
  split at hr
  · rw [if_neg (by omega)]
    exact hnew r hr _ (List.getElem_mem hb)
  · split
    · intro hcell
      exact hnew r hcell _ (List.getElem_mem ha) hr
    · exact h a b ha hb hab r hr

/-- A cell of the copy is written: it has no neighbour array, or one that no other cell has. -/
theorem Copying.write {w : World} (h : Copying w₀ q cells w) {i : Nat} {cell : Cell}
    (hi : ∃ old, cells[i]? = some old ∧ old.neighbors = none) {w' : World}
    (hhnsw : w'.hnsw = w.hnsw) (htexts : w'.memory.texts = w.memory.texts)
    (hvectors : w'.memory.vectors = w.memory.vectors)
    (harrays : w'.memory.arrays =
      Function.update w.memory.arrays q (some ⟨cells.set i cell, w₀.hnsw.count⟩))
    (hlists : ∀ r, (w'.memory.lists r).isSome = true ↔
      (w.memory.lists r).isSome = true ∨ cell.neighbors = some r)
    (hold : ∀ r, r < w₀.memory.next → w'.memory.lists r = w.memory.lists r)
    (hnext : w.memory.next ≤ w'.memory.next)
    (hplace : ∀ r, cell.neighbors = some r → w.memory.next ≤ r ∧ r < w'.memory.next) :
    Copying w₀ q (cells.set i cell) w' := by
  obtain ⟨old, hcell, hnone⟩ := hi
  obtain ⟨hlt, -⟩ := List.getElem?_eq_some_iff.mp hcell
  have hmem : ∀ r, (∃ c ∈ cells.set i cell, c.neighbors = some r) ↔
      (∃ c ∈ cells, c.neighbors = some r) ∨ cell.neighbors = some r := by
    intro r
    constructor
    · rintro ⟨c, hc, hr⟩
      rcases List.mem_or_eq_of_mem_set hc with hc | rfl
      · exact .inl ⟨c, hc, hr⟩
      · exact .inr hr
    · rintro (⟨c, hc, hr⟩ | hr)
      · obtain ⟨j, hj, rfl⟩ := List.getElem_of_mem hc
        have hji : i ≠ j := by
          rintro rfl
          rw [List.getElem?_eq_getElem hj] at hcell
          cases hcell
          rw [hnone] at hr
          cases hr
        refine ⟨_, List.mem_of_getElem? (i := j) ?_, hr⟩
        rw [List.getElem?_set_ne hji, List.getElem?_eq_getElem hj]
      · exact ⟨cell, List.mem_set hlt cell, hr⟩
  refine ⟨hhnsw.trans h.hnsw, htexts.trans h.texts, hvectors.trans h.vectors, ?_,
    fun r hr => (hold r hr).trans (h.old r hr), fun r hr => ?_, fun c hc r hr => ?_, ?_, ?_⟩
  · rw [harrays, h.arrays, Function.update_idem]
  · rw [hlists, h.new r hr, hmem]
  · rcases List.mem_or_eq_of_mem_set hc with hc | rfl
    · have := h.above c hc r hr
      omega
    · have := hplace r hr
      have := h.place
      omega
  · refine distinct_set h.distinct fun r hr other hother heq => ?_
    have := h.above other hother r heq
    have := hplace r hr
    omega
  · have := h.place
    omega

/-- The level of a cell without neighbour array is written. -/
theorem Copied.writeLevel {i : Nat} {cell : Cell} {item : Item} (level : Int)
    (htmp : tmp.items = some q) (hcell : cells[i]? = some cell) (hnone : cell.neighbors = none)
    (hitem : hnsw.items[i]? = some item) :
    Does (Copied w₀ q cells tmp hnsw) (writeCell tmp i fun cell => { cell with level }) fun _ w =>
      Copied w₀ q (cells.set i { cell with level }) tmp
        { hnsw with items := hnsw.items.set i { item with level } } w := by
  refine writeCell_does htmp (fun w hw => hw.copying.array) hcell fun w hw => ?_
  refine hw.rewrite (hw.copying.write ⟨cell, hcell, hnone⟩ rfl rfl rfl rfl (fun r => ?_)
    (fun r _ => rfl) (Nat.le_refl _) fun r hr => ?_) ?_ List.length_set
  · change _ ↔ _ ∨ cell.neighbors = some r
    rw [hnone]
    exact ⟨.inl, fun h => h.resolve_right fun h => by cases h⟩
  · change cell.neighbors = some r at hr
    rw [hnone] at hr
    cases hr
  · refine Memory.readItems_set (Eq.trans (Memory.readItems_congr fun c _ => ?_) hw.readItems) ?_
    · rfl
    obtain ⟨cell', hcell', hread⟩ := Memory.readItems_getElem? hw.readItems hitem
    rw [hcell] at hcell'
    cases hcell'
    obtain ⟨hid, hvalues, hneighbors, hnorm, -⟩ := Memory.readItem_eq_some.mp hread
    exact Memory.readItem_eq_some.mpr ⟨hid, hvalues, hneighbors, hnorm, rfl⟩

/-- A new neighbour array is written into a cell that has none. -/
theorem Copied.attach {i r : Nat} {cell : Cell} {item : Item} (lists : List NeighborList)
    (htmp : tmp.items = some q) (hcell : cells[i]? = some cell) (hnone : cell.neighbors = none)
    (hitem : hnsw.items[i]? = some item) :
    Does (fun w' => ∃ w, Copied w₀ q cells tmp hnsw w ∧ r = w.memory.next ∧
        w' = w.store fun m => { m with
          lists := Function.update m.lists m.next (some lists), next := m.next + 1 })
      (writeCell tmp i fun cell => { cell with neighbors := some r }) fun _ w =>
      Copied w₀ q (cells.set i { cell with neighbors := some r }) tmp
        { hnsw with items := hnsw.items.set i { item with neighbors := some lists } } w := by
  refine @writeCell_does _ tmp i q ⟨cells, w₀.hnsw.count⟩ cell _ _ htmp ?_ hcell ?_
  · rintro w' ⟨w, hw, -, rfl⟩
    exact hw.copying.array
  rintro w' ⟨w, hw, rfl, rfl⟩
  have hplace := hw.copying.place
  have hbelow : ∀ c ∈ cells, c.neighbors ≠ some w.memory.next := by
    intro c hc heq
    have := hw.copying.above c hc _ heq
    omega
  refine hw.rewrite (hw.copying.write ⟨cell, hcell, hnone⟩ rfl rfl rfl rfl (fun r => ?_)
    (fun r hr => ?_) (Nat.le_succ _) fun r hr => ?_) ?_ List.length_set
  · change (Function.update w.memory.lists w.memory.next (some lists) r).isSome = true ↔
      _ ∨ some w.memory.next = some r
    by_cases heq : r = w.memory.next
    · subst heq
      rw [Function.update_self]
      exact ⟨fun _ => .inr rfl, fun _ => rfl⟩
    · rw [Function.update_of_ne heq]
      exact ⟨.inl, fun h => h.resolve_right fun h => heq (Option.some.inj h).symm⟩
  · exact Function.update_of_ne (by omega) _ _
  · cases hr
    exact ⟨Nat.le_refl _, Nat.lt_succ_self _⟩
  · refine Memory.readItems_set (Eq.trans (Memory.readItems_congr fun c hc => ?_) hw.readItems) ?_
    · exact Memory.readItem_update_ne (m := { w.memory with
        arrays := Function.update w.memory.arrays q _ }) (hbelow c hc) _ _
    obtain ⟨cell', hcell', hread⟩ := Memory.readItems_getElem? hw.readItems hitem
    rw [hcell] at hcell'
    cases hcell'
    obtain ⟨hid, hvalues, -, hnorm, hlevel⟩ := Memory.readItem_eq_some.mp hread
    refine Memory.readItem_eq_some.mpr ⟨hid, hvalues, ?_, hnorm, hlevel⟩
    change (Function.update w.memory.lists w.memory.next (some lists) w.memory.next).map some = _
    rw [Function.update_self]
    rfl

/-! ## The edges -/

open Cmd (Simulates)

theorem Copied.cell {w : World} (h : Copied w₀ q cells tmp hnsw w) {idx : Nat} {item : Item}
    (hitem : hnsw.items[idx]? = some item) :
    ∃ cell, cells[idx]? = some cell ∧ w.memory.readItem cell = some item :=
  Memory.readItems_getElem? h.readItems hitem

/-- The lists of an item, in memory. -/
theorem Copied.lists {idx r : Nat} {cell : Cell} {item : Item} {lists : List NeighborList}
    (hcell : cells[idx]? = some cell) (hr : cell.neighbors = some r)
    (hitem : hnsw.items[idx]? = some item) (hlists : item.neighbors = some lists) {w : World}
    (h : Copied w₀ q cells tmp hnsw w) : w.memory.lists r = some lists := by
  obtain ⟨cell', hcell', hread⟩ := h.cell hitem
  rw [hcell] at hcell'
  cases hcell'
  obtain ⟨r', hr', hat⟩ := Memory.readItem_lists hread hlists
  rw [hr] at hr'
  cases hr'
  exact hat

variable [Arith]

/-- Without the list of the level there is nothing to write to. -/
theorem addEdgeIn_faults {w : World} (hw : Copied w₀ q cells tmp hnsw w) {src dst level : Nat}
    {item : Item} (hitem : hnsw.items[src]? = some item)
    (hlist : listAt hnsw.items src level = none) :
    Faults (Copied w₀ q cells tmp hnsw) (addEdgeIn tmp src dst level) .index := by
  obtain ⟨cell, hcell, hread⟩ := hw.cell hitem
  unfold addEdgeIn
  refine Copied.load.faults_known ?_
  change Faults _ (Cmd.lift (itemAt hnsw.items src) >>= _) _
  rw [itemAt_eq hitem]
  refine Does.lift_pure.faults_known ?_
  rcases hlists : item.neighbors with _ | lists
  · exact (Copied.neighborsPtr_faults hcell (Memory.readItem_null hread hlists)).bind
  · obtain ⟨r, hr, -⟩ := Memory.readItem_lists hread hlists
    refine (Copied.neighborsPtr hcell hr).faults_known ?_
    refine (listsAt_does fun w hw => Copied.lists hcell hr hitem hlists hw).faults_known ?_
    have hnone : lists[level]? = none := by
      unfold listAt at hlist
      rw [hitem, Option.bind_some, hlists, Option.bind_some] at hlist
      exact hlist
    rw [hnone]
    exact Faults.fault.bind

theorem addEdgeIn_simulates (src dst level : Nat) :
    Simulates (Copied w₀ q cells tmp hnsw) (addEdgeIn tmp src dst level)
      (addEdge hnsw src dst level) (fun _ hnsw' w => Copied w₀ q cells tmp hnsw' w)
      (HasCopy w₀ q) := by
  intro w e hw
  rcases hitem : hnsw.items[src]? with _ | item
  · refine (?_ : Simulates (Copied w₀ q cells tmp hnsw) _ _ _ _) w e hw
    unfold addEdge
    rw [itemAt_eq_fault hitem, fault_bind]
    refine Faults.simulates (Copied.load.faults_known ?_)
    change Faults _ (Cmd.lift (itemAt hnsw.items src) >>= _) _
    rw [itemAt_eq_fault hitem]
    exact Faults.fault.bind
  rcases hlist : listAt hnsw.items src level with _ | list
  · refine (?_ : Simulates (Copied w₀ q cells tmp hnsw) _ _ _ _) w e hw
    unfold addEdge
    rw [itemAt_eq hitem, pure_bind, neighborsAt_eq_fault hlist, fault_bind]
    exact (addEdgeIn_faults hw hitem hlist).simulates
  unfold addEdge
  rw [itemAt_eq hitem, pure_bind, neighborsAt_eq hlist, pure_bind]
  obtain ⟨item', lists, hitem', hlists, hat⟩ := listAt_eq_some.mp hlist
  rw [hitem] at hitem'
  cases hitem'
  obtain ⟨cell, hcell, hread⟩ := hw.cell hitem
  obtain ⟨r, hr, -⟩ := Memory.readItem_lists hread hlists
  refine (?_ : Simulates (Copied w₀ q cells tmp hnsw) _ _ _ _) w e hw
  clear hw hread
  unfold addEdgeIn
  refine Copied.load.known ?_
  change Simulates _ (Cmd.lift (itemAt hnsw.items src) >>= _) _ _ _
  rw [itemAt_eq hitem]
  refine Does.lift_pure.known ?_
  refine (Copied.neighborsPtr hcell hr).known ?_
  refine (listsAt_does fun w hw => Copied.lists hcell hr hitem hlists hw).known ?_
  refine (need_does hat).known ?_
  by_cases hthere : list.edges.contains dst = true
  · rw [if_pos hthere, if_pos hthere]
    exact Simulates.pure fun w hw => hw
  rw [if_neg hthere, if_neg hthere]
  extract_lets edges mMax mMax' grow
  have hgrow : (if list.edges.length = list.capacity then do
        allocOr Status.enomem
        pure (if list.capacity = 0 then 4 else list.capacity * 2) >>= grow
      else pure list.capacity >>= grow) =
      (if list.edges.length = list.capacity then do
        allocOr Status.enomem
        pure (if list.capacity = 0 then 4 else list.capacity * 2)
      else pure list.capacity) >>= grow := by
    split
    · rw [bind_assoc]
    · rfl
  rw [hgrow]
  refine (Simulates.lift fun w hw => ⟨cells, hw.copying⟩).bind fun capacity' capacity => ?_
  refine Simulates.of_and fun heq => ?_
  subst heq
  refine (Copied.writeLists _ hcell hr hitem).simulates fun _ => ?_
  simp only [grow, hlists, Option.getD_some]
  change Simulates _ (if mMax' < edges.length then _ else _) _ _ _
  split
  · rw [worstEdge_slots]
    refine (Simulates.lift fun w hw => ⟨cells, hw.copying⟩).bind fun worst' worst => ?_
    refine Simulates.of_and fun heq => ?_
    subst heq
    rcases worst' with _ | ⟨i, s⟩
    · exact Simulates.pure fun w hw => hw
    · -- the list is written a second time, without its worst edge
      have hlt := (List.getElem?_eq_some_iff.mp hitem).1
      have hwrite := @Copied.writeLists w₀ q cells tmp
        { hnsw with
          items := hnsw.items.set src
            { item with neighbors := some (lists.set level ⟨edges, capacity'⟩) } } src r cell _
        (lists.set level ⟨dropEdge edges i, capacity'⟩) hcell hr (List.getElem?_set_self hlt)
      simp only [List.set_set] at hwrite
      exact hwrite.last
  · exact Simulates.pure fun w hw => hw

theorem connectIn_simulates (i level : Nat) : ∀ (sorted : List NodeScore) (connected currIdx : Nat)
    {hnsw : Index}, Simulates (Copied w₀ q cells tmp hnsw)
      (connectIn tmp i level sorted connected currIdx) (connect i level sorted connected currIdx hnsw)
      (fun curr r w => curr = r.1 ∧ Copied w₀ q cells tmp r.2 w) (HasCopy w₀ q)
  | [], _, _, _ => Simulates.pure fun w hw => ⟨rfl, hw⟩
  | best :: rest, connected, currIdx, hnsw => by
    intro w e hw
    have hm : tmp.m = hnsw.m := (congrArg Index.m hw.field).symm
    refine (?_ : Simulates (Copied w₀ q cells tmp hnsw) _ _ _ _) w e hw
    clear hw
    unfold connectIn connect
    rw [hm]
    split
    · refine (addEdgeIn_simulates i best.idx level).bind fun _ h₁ => ?_
      refine (addEdgeIn_simulates best.idx i level).bind fun _ h₂ => ?_
      exact connectIn_simulates i level rest _ _
    · exact Simulates.pure fun w hw => ⟨rfl, hw⟩

theorem connectLevelsIn_simulates (i : Nat) (item : Item) : ∀ (levels currIdx : Nat) {hnsw : Index},
    Simulates (Copied w₀ q cells tmp hnsw) (connectLevelsIn tmp i item levels currIdx)
      (connectLevels i item levels currIdx hnsw) (fun _ hnsw' w => Copied w₀ q cells tmp hnsw' w)
      (HasCopy w₀ q)
  | 0, _, _ => Simulates.pure fun w hw => hw
  | level + 1, currIdx, hnsw => by
    have hfails : ∀ w, Copied w₀ q cells tmp hnsw w → HasCopy w₀ q w := fun w hw => ⟨cells, hw.copying⟩
    unfold connectLevelsIn connectLevels
    refine Copied.load.known ?_
    refine (Simulates.lift hfails).bind fun heap' heap => ?_
    refine Simulates.of_and fun heq => ?_
    subst heq
    simp only [searchLevel_slots]
    refine (Simulates.lift hfails).bind fun found' found => ?_
    refine Simulates.of_and fun heq => ?_
    subst heq
    refine (Simulates.lift hfails).bind fun _ _ => ?_
    refine Simulates.of_and fun _ => ?_
    refine (connectIn_simulates i level _ 0 currIdx).bind fun curr r => ?_
    refine Simulates.of_and fun heq => ?_
    subst heq
    exact connectLevelsIn_simulates i item level r.1

/-! ## One insertion -/

/-- The cells from `n` on have no neighbour array yet. -/
def Fresh (n : Nat) (cells : List Cell) : Prop :=
  ∀ j cell, n ≤ j → cells[j]? = some cell → cell.neighbors = none

omit [Arith] in
theorem Fresh.set {n : Nat} {cells : List Cell} (h : Fresh n cells) (cell : Cell) :
    Fresh (n + 1) (cells.set n cell) := by
  intro j c hj hc
  rw [List.getElem?_set_ne (by omega)] at hc
  exact h j c (by omega) hc

/-- The copy before item `n` is inserted. -/
def Inserting (w₀ : World) (q n : Nat) (tmp : Handle) (hnsw : Index) (w : World) : Prop :=
  ∃ cells, Copied w₀ q cells tmp hnsw w ∧ Fresh n cells

theorem insertItem_eq_fault {i : Nat} (h : hnsw.items[i]? = none) :
    insertItem hnsw i = fault .index := by
  unfold insertItem
  generalize randomLevel hnsw.rngState = drawn
  obtain ⟨level, rngState⟩ := drawn
  simp only [itemAt_eq_fault h]
  exact fault_bind _ _

/-- There is no cell to write to. -/
theorem insertItemIn_faults {i : Nat} (h : hnsw.items[i]? = none) :
    Faults (Copied w₀ q cells tmp hnsw) (insertItemIn tmp i) .index := by
  unfold insertItemIn
  generalize randomLevel tmp.rngState = drawn
  refine Faults.bind fun w e hw => ⟨w, ?_⟩
  have hnone : cells[i]? = none := by
    rw [List.getElem?_eq_none_iff] at h ⊢
    rwa [Memory.length_readItems hw.readItems] at h
  unfold writeCell arrayAt
  simp only [Cmd.exec_bind, Cmd.exec_get, hw.items, need, Cmd.exec_pure, hw.copying.array, hnone]
  rfl

theorem insertItemIn_simulates (i : Nat) :
    Simulates (Inserting w₀ q i tmp hnsw) (insertItemIn tmp i) (insertItem hnsw i)
      (fun tmp' hnsw' w => Inserting w₀ q (i + 1) tmp' hnsw' w) (HasCopy w₀ q) := by
  rintro w e ⟨cells, hw, hfresh⟩
  rcases hitem : hnsw.items[i]? with _ | item
  · refine (?_ : Simulates (Copied w₀ q cells tmp hnsw) _ _ _ _) w e hw
    rw [insertItem_eq_fault hitem]
    exact (insertItemIn_faults hitem).simulates
  obtain ⟨cell, hcell, -⟩ := hw.cell hitem
  have hnone := hfresh i cell (Nat.le_refl i) hcell
  have htmp := hw.items
  have hfield := hw.field
  have hmaxLevel := hw.maxLevel
  refine (?_ : Simulates (Copied w₀ q cells tmp hnsw) _ _ _ _) w e hw
  clear hw
  unfold insertItemIn insertItem
  rw [show tmp.rngState = hnsw.rngState from (congrArg Index.rngState hfield).symm]
  generalize randomLevel hnsw.rngState = drawn
  obtain ⟨level, rngState⟩ := drawn
  simp only [itemAt_eq hitem, pure_bind]
  have hdrawn : ∀ w, Copied w₀ q cells tmp hnsw w →
      Copied w₀ q cells { tmp with rngState } { hnsw with rngState } w :=
    fun w hw => hw.withState rngState
  refine Simulates.mono ?_ hdrawn (fun _ _ _ h => h)
  have hlevel : Does (Copied w₀ q cells { tmp with rngState } { hnsw with rngState }) _ _ :=
    Copied.writeLevel (level : Int) htmp hcell hnone hitem
  refine hlevel.simulates fun _ => ?_
  refine (Simulates.lift fun w hw => ⟨_, hw.copying⟩).bind fun _ _ => ?_
  refine Simulates.of_and fun _ => ?_
  refine (newLists_does _).simulates fun r => ?_
  have hlt := (List.getElem?_eq_some_iff.mp hcell).1
  have hltItem := (List.getElem?_eq_some_iff.mp hitem).1
  have hattach := @Copied.attach w₀ q (cells.set i { cell with level := (level : Int) })
    { tmp with rngState }
    { hnsw with items := hnsw.items.set i { item with level := (level : Int) }, rngState } i r _ _
    (List.replicate (level + 1) ⟨[], 0⟩) htmp (List.getElem?_set_self hlt) hnone
    (List.getElem?_set_self hltItem)
  refine hattach.simulates fun _ => ?_
  simp only [List.set_set]
  have hfresh' := hfresh.set { cell with level := (level : Int), neighbors := some r }
  generalize cells.set i { cell with level := (level : Int), neighbors := some r } = cells' at hfresh' ⊢
  have hset : tmp.entryPointSet = hnsw.entryPointSet := (congrArg Index.entryPointSet hfield).symm
  have hentry : tmp.entryPointIdx = hnsw.entryPointIdx := (congrArg Index.entryPointIdx hfield).symm
  have hmax : tmp.maxLevel = hnsw.maxLevel := hmaxLevel.symm
  rw [hset, hentry, hmax]
  split
  · exact Simulates.pure fun w hw => ⟨cells', hw.withEntry i level true, hfresh'⟩
  refine Copied.load.known ?_
  have hat : (hnsw.items.set i { item with
      level := (level : Int), neighbors := some (List.replicate (level + 1) ⟨[], 0⟩) })[i]? = _ :=
    List.getElem?_set_self hltItem
  rw [itemAt_eq hat]
  refine Does.lift_pure.known ?_
  refine (Simulates.lift fun w hw => ⟨_, hw.copying⟩).bind fun s' s => ?_
  refine Simulates.of_and fun heq => ?_
  subst heq
  rw [descend_slots]
  refine (Simulates.lift fun w hw => ⟨_, hw.copying⟩).bind fun d' d => ?_
  refine Simulates.of_and fun heq => ?_
  subst heq
  refine (connectLevelsIn_simulates i _ _ _).bind fun _ wired => ?_
  intro w e hw
  have hwired : wired.maxLevel = hnsw.maxLevel := hw.maxLevel
  refine (?_ : Simulates (Copied w₀ q cells' _ wired) _ _ _ _) w e hw
  rw [hwired]
  split
  · exact Simulates.pure fun w hw => ⟨cells', hw.withTop i level, hfresh'⟩
  · exact Simulates.pure fun w hw => ⟨cells', hw, hfresh'⟩

/-! ## Giving blocks up -/

omit [Arith] in
/-- The neighbour arrays of the cells are gone, and nothing else changed. -/
structure Freed (cells : List Cell) (w w' : World) : Prop where
  hnsw : w'.hnsw = w.hnsw
  texts : w'.memory.texts = w.memory.texts
  vectors : w'.memory.vectors = w.memory.vectors
  arrays : w'.memory.arrays = w.memory.arrays
  next : w'.memory.next = w.memory.next
  gone : ∀ cell ∈ cells, ∀ r, cell.neighbors = some r → w'.memory.lists r = none
  kept : ∀ r, (∀ cell ∈ cells, cell.neighbors ≠ some r) → w'.memory.lists r = w.memory.lists r

omit [Arith] in
theorem freeNeighbors_does : ∀ {cells : List Cell} {w : World}, Distinct cells →
    (∀ cell ∈ cells, ∀ r, cell.neighbors = some r → (w.memory.lists r).isSome = true) →
      Does (· = w) (freeNeighbors cells) fun _ w' => Freed cells w w'
  | [], w, _, _ => by
    refine Does.pure ?_
    rintro _ rfl
    exact ⟨rfl, rfl, rfl, rfl, rfl, fun _ h => absurd h List.not_mem_nil, fun _ _ => rfl⟩
  | cell :: cells, w, hdistinct, hlive => by
    obtain ⟨hhead, htail⟩ := List.pairwise_cons.mp hdistinct
    have hlive' := fun c hc => hlive c (List.mem_cons_of_mem _ hc)
    unfold freeNeighbors
    rcases hr : cell.neighbors with _ | r
    · intro w' e hw'
      obtain ⟨_, w'', hrun, hfreed⟩ := freeNeighbors_does htail hlive' w' e hw'
      refine ⟨_, w'', hrun, hfreed.hnsw, hfreed.texts, hfreed.vectors, hfreed.arrays, hfreed.next,
        fun c hc r' hr' => ?_, fun r' hnot => hfreed.kept r' fun c hc =>
          hnot c (List.mem_cons_of_mem _ hc)⟩
      rcases List.mem_cons.mp hc with rfl | hc
      · rw [hr] at hr'
        cases hr'
      · exact hfreed.gone c hc r' hr'
    · refine Does.bind (freeLists_does (Q := (· = w.store fun m =>
        { m with lists := Function.update m.lists r none })) ?_ ?_) fun _ => ?_
      · rintro _ rfl
        exact hlive cell List.mem_cons_self r hr
      · rintro _ rfl
        rfl
      have hlive'' : ∀ c ∈ cells, ∀ r', c.neighbors = some r' → ((w.store fun m =>
          { m with lists := Function.update m.lists r none }).memory.lists r').isSome = true := by
        intro c hc r' hr'
        have hne : r' ≠ r := fun heq => hhead c hc r hr (heq ▸ hr')
        change (Function.update w.memory.lists r none r').isSome = true
        rw [Function.update_of_ne hne]
        exact hlive' c hc r' hr'
      intro w' e hw'
      obtain ⟨_, w'', hrun, hfreed⟩ := freeNeighbors_does htail hlive'' w' e hw'
      refine ⟨_, w'', hrun, hfreed.hnsw, hfreed.texts, hfreed.vectors, hfreed.arrays, hfreed.next,
        fun c hc r' hr' => ?_, fun r' hnot => ?_⟩
      · rcases List.mem_cons.mp hc with rfl | hc
        · rw [hr] at hr'
          cases hr'
          refine (hfreed.kept r fun c hc => hhead c hc r hr).trans ?_
          exact Function.update_self ..
        · exact hfreed.gone c hc r' hr'
      · refine (hfreed.kept r' fun c hc => hnot c (List.mem_cons_of_mem _ hc)).trans ?_
        refine Function.update_of_ne (fun heq => ?_) _ _
        rw [heq] at hnot
        exact hnot cell List.mem_cons_self hr

/-- The blocks and the index are what they were. -/
structure Restored (w₀ w : World) : Prop where
  hnsw : w.hnsw = w₀.hnsw
  texts : w.memory.texts = w₀.memory.texts
  vectors : w.memory.vectors = w₀.memory.vectors
  arrays : w.memory.arrays = w₀.memory.arrays
  lists : w.memory.lists = w₀.memory.lists
  next : w₀.memory.next ≤ w.memory.next

/-- No block lies at `next` or above. -/
structure Bounded (m : Memory) : Prop where
  texts : ∀ r, m.next ≤ r → m.texts r = none
  vectors : ∀ r, m.next ≤ r → m.vectors r = none
  arrays : ∀ r, m.next ≤ r → m.arrays r = none
  lists : ∀ r, m.next ≤ r → m.lists r = none

omit [Arith] in
theorem freeItems_does {q : Nat} {array : ItemArray} {w : World}
    (harray : w.memory.arrays q = some array) (hdistinct : Distinct array.cells)
    (hlive : ∀ cell ∈ array.cells, ∀ r, cell.neighbors = some r →
      (w.memory.lists r).isSome = true) :
    Does (· = w) (freeItems q) fun _ w' => ∃ w₁, Freed array.cells w w₁ ∧ w' = w₁.store fun m =>
      { m with arrays := Function.update m.arrays q none } := by
  unfold freeItems
  refine (@arrayAt_does _ _ array ?_).bind fun a => ?_
  · rintro _ rfl
    exact harray
  rintro w' e ⟨rfl, rfl⟩
  refine ((freeNeighbors_does hdistinct hlive).bind fun _ => ?_) w' e rfl
  unfold freeArray
  refine (@arrayAt_does _ _ a ?_).bind fun _ => store_does _ ?_
  · intro w₁ hfreed
    rw [hfreed.arrays]
    exact harray
  · rintro w₁ ⟨-, hfreed⟩
    exact ⟨w₁, hfreed, rfl⟩

omit [Arith] in
/-- **The cleanup** gives up the copy and nothing else. -/
theorem HasCopy.cleanup (hbounded : Bounded w₀.memory) :
    Does (HasCopy w₀ q) (freeItems q) fun _ w => Restored w₀ w := by
  rintro w e ⟨cells, h⟩
  have hlive : ∀ cell ∈ cells, ∀ r, cell.neighbors = some r → (w.memory.lists r).isSome = true :=
    fun cell hcell r hr => (h.new r (h.above cell hcell r hr).1).mpr ⟨cell, hcell, hr⟩
  obtain ⟨_, w', hrun, w₁, hfreed, rfl⟩ := freeItems_does h.array h.distinct hlive w e rfl
  refine ⟨_, _, hrun, hfreed.hnsw.trans h.hnsw, hfreed.texts.trans h.texts,
    hfreed.vectors.trans h.vectors, ?_, ?_, ?_⟩
  · change Function.update w₁.memory.arrays q none = _
    rw [hfreed.arrays, h.arrays, Function.update_idem, ← hbounded.arrays q h.place.1,
      Function.update_eq_self]
  · change w₁.memory.lists = _
    funext r
    by_cases hcell : ∃ cell ∈ cells, cell.neighbors = some r
    · obtain ⟨cell, hcell, hr⟩ := hcell
      rw [hfreed.gone cell hcell r hr, hbounded.lists r (h.above cell hcell r hr).1]
    · rw [hfreed.kept r fun cell hc hr => hcell ⟨cell, hc, hr⟩]
      by_cases hr : r < w₀.memory.next
      · exact h.old r hr
      · rw [hbounded.lists r (by omega), ← Option.not_isSome_iff_eq_none]
        exact fun hsome => hcell ((h.new r (by omega)).mp hsome)
  · change _ ≤ w₁.memory.next
    have := h.place
    have := hfreed.next
    omega

end Commands

end Ipa.Hnsw
