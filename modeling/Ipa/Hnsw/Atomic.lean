import Ipa.Hnsw.Copy

/-!
# The build in memory is atomic

`Holds w hnsw` says that the memory of `w` leads to the index `hnsw`. The calls in memory do what
the calls on values do, so every life in memory is a life on values. A build that fails leaves
every block and the index as they were; a build that succeeds leaves the index of `build`.
-/

namespace Ipa.Hnsw

open Run
open Cmd (Does Faults Simulates)

/-! ## The shuffle -/

theorem shuffleOf_mem {α : Type} : ∀ (left i : Nat) (xs : List α) (state : UInt64),
    ∀ x ∈ (shuffleOf left i xs state).1, x ∈ xs
  | 0, _, _, _, _, h => h
  | left + 1, i, xs, state, x, h => by
    unfold shuffleOf at h
    generalize rand64 state = drawn at h
    obtain ⟨r, state⟩ := drawn
    simp only at h
    split at h
    · rename_i a b ha hb
      rcases List.mem_or_eq_of_mem_set (shuffleOf_mem left _ _ _ x h) with h | rfl
      · rcases List.mem_or_eq_of_mem_set h with h | rfl
        · exact h
        · exact List.mem_of_getElem? hb
      · exact List.mem_of_getElem? ha
    · exact shuffleOf_mem left _ _ _ x h

namespace Memory

variable {m m' : Memory}

theorem getElem?_readItems {cells : List Cell} {items : List Item} (h : m.readItems cells = some items)
    {i : Nat} {cell : Cell} (hcell : cells[i]? = some cell) :
    ∃ item, items[i]? = some item ∧ m.readItem cell = some item := by
  have hlt := (List.getElem?_eq_some_iff.mp hcell).1
  rw [← length_readItems h] at hlt
  obtain ⟨cell', hcell', hread⟩ := readItems_getElem? h (List.getElem?_eq_getElem hlt)
  rw [hcell] at hcell'
  cases hcell'
  exact ⟨_, List.getElem?_eq_getElem hlt, hread⟩

/-- The same swaps on the cells and on what they lead to. -/
theorem readItems_shuffleOf : ∀ (left i : Nat) {cells : List Cell} {items : List Item}
    (state : UInt64), m.readItems cells = some items →
      m.readItems (shuffleOf left i cells state).1 = some (shuffle left i items state).1 ∧
        (shuffleOf left i cells state).2 = (shuffle left i items state).2
  | 0, _, _, _, _, h => ⟨h, rfl⟩
  | left + 1, i, cells, items, state, h => by
    unfold shuffleOf shuffle
    rw [length_readItems h]
    generalize rand64 state = drawn
    obtain ⟨x, state⟩ := drawn
    simp only
    generalize i + x.toNat % (cells.length - i) = j
    have hnone : ∀ k : Nat, cells[k]? = none → items[k]? = none := by
      intro k hk
      rw [List.getElem?_eq_none_iff] at hk ⊢
      rwa [length_readItems h]
    rcases hi : cells[i]? with _ | a
    · rw [hnone i hi]
      exact readItems_shuffleOf left (i + 1) state h
    obtain ⟨itemA, hitemA, hreadA⟩ := getElem?_readItems h hi
    rcases hj : cells[j]? with _ | b
    · rw [hnone j hj, hitemA]
      exact readItems_shuffleOf left (i + 1) state h
    obtain ⟨itemB, hitemB, hreadB⟩ := getElem?_readItems h hj
    rw [hitemA, hitemB]
    exact readItems_shuffleOf left (i + 1) state (readItems_set (readItems_set h hreadB) hreadA)

theorem readItem_bare {cell : Cell} {item : Item} (h : m.readItem cell = some item) :
    m.readItem cell.bare = some item.bare := by
  obtain ⟨hid, hvalues, -, hnorm, -⟩ := readItem_eq_some.mp h
  exact readItem_eq_some.mpr ⟨hid, hvalues, rfl, hnorm, rfl⟩

theorem readItems_bare : ∀ {cells : List Cell} {items : List Item}, m.readItems cells = some items →
    m.readItems (cells.map Cell.bare) = some (items.map Item.bare)
  | [], _, h => by
    cases h
    rfl
  | cell :: cells, items, h => by
    obtain ⟨item, rest, hitem, hrest, rfl⟩ := readItems_cons.mp h
    exact readItems_cons.mpr ⟨_, _, readItem_bare hitem, readItems_bare hrest, rfl⟩

theorem readItems_append : ∀ {cells : List Cell} {items : List Item} {cell : Cell} {item : Item},
    m.readItems cells = some items → m.readItem cell = some item →
      m.readItems (cells ++ [cell]) = some (items ++ [item])
  | [], _, _, _, h, hitem => by
    cases h
    exact readItems_cons.mpr ⟨_, _, hitem, rfl, rfl⟩
  | first :: cells, items, cell, item, h, hitem => by
    obtain ⟨firstItem, rest, hfirst, hrest, rfl⟩ := readItems_cons.mp h
    exact readItems_cons.mpr ⟨_, _, hfirst, readItems_append hrest hitem, rfl⟩

/-- Where the blocks of the cells are kept, the items are. -/
theorem readItems_kept {cells : List Cell} {items : List Item} (h : m.readItems cells = some items)
    (htexts : ∀ p id, m.texts p = some id → m'.texts p = some id)
    (hvectors : ∀ p values, m.vectors p = some values → m'.vectors p = some values)
    (hlists : ∀ cell ∈ cells, ∀ r lists, cell.neighbors = some r → m.lists r = some lists →
      m'.lists r = some lists) : m'.readItems cells = some items := by
  induction cells generalizing items with
  | nil => exact h
  | cons cell cells ih =>
    obtain ⟨item, rest, hitem, hrest, rfl⟩ := readItems_cons.mp h
    refine readItems_cons.mpr ⟨item, rest, ?_,
      ih hrest fun c hc => hlists c (List.mem_cons_of_mem _ hc), rfl⟩
    obtain ⟨hid, hvalues, hneighbors, hnorm, hlevel⟩ := readItem_eq_some.mp hitem
    refine readItem_eq_some.mpr ⟨htexts _ _ hid, hvectors _ _ hvalues, ?_, hnorm, hlevel⟩
    unfold neighborsOf at hneighbors ⊢
    rcases hr : cell.neighbors with _ | r
    · rw [hr] at hneighbors
      exact hneighbors
    · rw [hr] at hneighbors
      obtain ⟨lists, hat, heq⟩ := Option.map_eq_some_iff.mp hneighbors
      change (m'.lists r).map some = _
      rw [hlists cell List.mem_cons_self r lists hr hat, ← heq]
      rfl

/-- The neighbour arrays of items that can be read are allocated. -/
theorem readItems_take : ∀ {cells : List Cell} {items : List Item} (n : Nat),
    m.readItems cells = some items → m.readItems (cells.take n) = some (items.take n)
  | [], _, n, h => by
    cases h
    rw [List.take_nil, List.take_nil]
    rfl
  | _ :: _, _, 0, _ => rfl
  | _ :: _, _, n + 1, h => by
    obtain ⟨item, rest, hitem, hrest, rfl⟩ := readItems_cons.mp h
    exact readItems_cons.mpr ⟨item, _, hitem, readItems_take n hrest, rfl⟩

theorem lists_of_readItems {cells : List Cell} {items : List Item}
    (h : m.readItems cells = some items) {cell : Cell} (hcell : cell ∈ cells) {r : Nat}
    (hr : cell.neighbors = some r) : (m.lists r).isSome = true := by
  obtain ⟨i, hi, rfl⟩ := List.getElem_of_mem hcell
  obtain ⟨item, -, hread⟩ := getElem?_readItems h (List.getElem?_eq_getElem hi)
  obtain ⟨-, -, hneighbors, -⟩ := readItem_eq_some.mp hread
  unfold neighborsOf at hneighbors
  rw [hr] at hneighbors
  obtain ⟨lists, hlists, -⟩ := Option.map_eq_some_iff.mp hneighbors
  rw [hlists]
  rfl

end Memory

/-! ## What a memory holds -/

/-- Between two calls the index of the caller leads to `hnsw`. -/
structure Holds (w : World) (hnsw : Index) : Prop where
  read : w.memory.readIndex w.hnsw = some hnsw
  count : w.hnsw.count = hnsw.count
  distinct : ∀ array, w.memory.arrayOf w.hnsw = some array → Distinct array.cells
  bounded : Bounded w.memory

section Holding

variable {w w₀ : World} {hnsw : Index}

/-- The array of the index, its items and the fields of its handle. -/
theorem Holds.array (h : Holds w hnsw) : ∃ array, w.memory.arrayOf w.hnsw = some array ∧
    w.memory.readItems array.cells = some hnsw.items ∧ hnsw = {
      dimension := w.hnsw.dimension, metric := w.hnsw.metric, items := hnsw.items
      lost := w.hnsw.count - hnsw.items.length, slots := array.slots, capacity := w.hnsw.capacity, maxLevel := w.hnsw.maxLevel
      entryPointIdx := w.hnsw.entryPointIdx, entryPointSet := w.hnsw.entryPointSet, m := w.hnsw.m
      efConstruction := w.hnsw.efConstruction, efSearch := w.hnsw.efSearch
      rngState := w.hnsw.rngState } := by
  have hread := h.read
  unfold Memory.readIndex at hread
  split at hread
  · cases hread
  · rename_i array harray
    obtain ⟨items, hitems, rfl⟩ := Option.map_eq_some_iff.mp hread
    exact ⟨array, harray, hitems, rfl⟩

/-- An index with items has an array. -/
theorem Holds.live (h : Holds w hnsw) (hsome : hnsw.items ≠ []) : ∃ p array,
    w.hnsw.items = some p ∧ w.memory.arrays p = some array ∧
      w.memory.readItems array.cells = some hnsw.items := by
  obtain ⟨array, harray, hitems, -⟩ := h.array
  unfold Memory.arrayOf at harray
  split at harray
  · cases harray
    exact absurd (List.length_eq_zero_iff.mp (Memory.length_readItems hitems)) hsome
  · rename_i p hp
    exact ⟨p, array, hp, harray, hitems⟩

/-- The cells of lost items are not written. -/
theorem lost_iff {array : ItemArray} (hitems : w.memory.readItems array.cells = some hnsw.items) :
    array.cells.length < hnsw.count ↔ hnsw.lost ≠ 0 := by
  rw [← Memory.length_readItems hitems, Index.count]
  omega

theorem Holds.bounded_lists (h : Holds w hnsw) {array : ItemArray}
    (harray : w.memory.arrayOf w.hnsw = some array) {cell : Cell} (hcell : cell ∈ array.cells)
    {r : Nat} (hr : cell.neighbors = some r) : r < w.memory.next := by
  obtain ⟨array', harray', hitems, -⟩ := h.array
  rw [harray] at harray'
  cases harray'
  have hsome := Memory.lists_of_readItems hitems hcell hr
  by_contra hle
  rw [h.bounded.lists r (by omega)] at hsome
  cases hsome

theorem Restored.refl (w : World) : Restored w w := ⟨rfl, rfl, rfl, rfl, rfl, Nat.le_refl _⟩

theorem Restored.readIndex (h : Restored w₀ w) (handle : Handle) :
    w.memory.readIndex handle = w₀.memory.readIndex handle := by
  have harray : w.memory.arrayOf handle = w₀.memory.arrayOf handle := by
    unfold Memory.arrayOf
    rw [h.arrays]
  have hitem : ∀ cell, w.memory.readItem cell = w₀.memory.readItem cell := by
    intro cell
    unfold Memory.readItem Memory.neighborsOf
    rw [h.texts, h.vectors, h.lists]
  unfold Memory.readIndex
  rw [harray]
  split
  · rfl
  · rw [Memory.readItems_congr fun cell _ => hitem cell]

theorem Restored.holds (h : Restored w₀ w) (hw : Holds w₀ hnsw) : Holds w hnsw := by
  have hnext := h.next
  refine ⟨?_, ?_, fun array harray => hw.distinct array ?_, ?_⟩
  · rw [h.readIndex, h.hnsw]
    exact hw.read
  · rw [h.hnsw]
    exact hw.count
  · unfold Memory.arrayOf at harray ⊢
    rwa [h.arrays, h.hnsw] at harray
  · refine ⟨fun r hr => ?_, fun r hr => ?_, fun r hr => ?_, fun r hr => ?_⟩
    · rw [h.texts]
      exact hw.bounded.texts r (by omega)
    · rw [h.vectors]
      exact hw.bounded.vectors r (by omega)
    · rw [h.arrays]
      exact hw.bounded.arrays r (by omega)
    · rw [h.lists]
      exact hw.bounded.lists r (by omega)

/-- A memory holds what its array leads to. -/
theorem Holds.intro {array : ItemArray} {items : List Item}
    (harray : w.memory.arrayOf w.hnsw = some array)
    (hitems : w.memory.readItems array.cells = some items) (hcount : items.length ≤ w.hnsw.count)
    (hdistinct : Distinct array.cells) (hbounded : Bounded w.memory) : Holds w {
      dimension := w.hnsw.dimension, metric := w.hnsw.metric, items
      lost := w.hnsw.count - items.length, slots := array.slots
      capacity := w.hnsw.capacity, maxLevel := w.hnsw.maxLevel
      entryPointIdx := w.hnsw.entryPointIdx, entryPointSet := w.hnsw.entryPointSet, m := w.hnsw.m
      efConstruction := w.hnsw.efConstruction, efSearch := w.hnsw.efSearch
      rngState := w.hnsw.rngState } := by
  refine ⟨?_, (Nat.add_sub_cancel' hcount).symm, fun array' harray' => ?_, hbounded⟩
  · unfold Memory.readIndex
    rw [harray]
    change (w.memory.readItems array.cells).map _ = _
    rw [hitems]
    rfl
  · rw [harray] at harray'
    cases harray'
    exact hdistinct

end Holding

/-! ## Commands on the index of the caller -/

section Known

variable {w₀ : World}

theorem get_does : Does (· = w₀) (Cmd.get : Cmd World Status World) fun a w => a = w₀ ∧ w = w₀ := by
  rintro w e rfl
  exact ⟨w, w, rfl, rfl, rfl⟩

theorem newArray_does (array : ItemArray) : Does (· = w₀) (newArray array) fun q w =>
    q = w₀.memory.next ∧ w = w₀.store fun m =>
      { m with arrays := Function.update m.arrays m.next (some array), next := m.next + 1 } := by
  rintro w e rfl
  exact ⟨w.memory.next, _, rfl, rfl, rfl⟩

theorem newText_does (id : CStr) : Does (· = w₀) (newText id) fun p w =>
    p = w₀.memory.next ∧ w = w₀.store fun m =>
      { m with texts := Function.update m.texts m.next (some id), next := m.next + 1 } := by
  rintro w e rfl
  exact ⟨w.memory.next, _, rfl, rfl, rfl⟩

theorem newVector_does (values : List Binary32) : Does (· = w₀) (newVector values) fun v w =>
    v = w₀.memory.next ∧ w = w₀.store fun m =>
      { m with vectors := Function.update m.vectors m.next (some values), next := m.next + 1 } := by
  rintro w e rfl
  exact ⟨w.memory.next, _, rfl, rfl, rfl⟩

theorem freeArray_does {p : Nat} (h : (w₀.memory.arrays p).isSome = true) :
    Does (· = w₀) (freeArray p) fun _ w => w = w₀.store fun m =>
      { m with arrays := Function.update m.arrays p none } := by
  obtain ⟨array, harray⟩ := Option.isSome_iff_exists.mp h
  unfold freeArray
  refine (@arrayAt_does _ _ array ?_).bind fun _ => store_does _ ?_
  · rintro w rfl
    exact harray
  · rintro w ⟨-, rfl⟩
    rfl

theorem writeArray_does {p : Nat} {array : ItemArray} (h : (w₀.memory.arrays p).isSome = true) :
    Does (· = w₀) (writeArray p array) fun _ w => w = w₀.store fun m =>
      { m with arrays := Function.update m.arrays p (some array) } := by
  obtain ⟨old, hold⟩ := Option.isSome_iff_exists.mp h
  unfold writeArray
  refine (@arrayAt_does _ _ old ?_).bind fun _ => store_does _ ?_
  · rintro w rfl
    exact hold
  · rintro w ⟨-, rfl⟩
    rfl

end Known

/-! ## Reserving -/

section Reserving

variable [Arith] {host : Host} {w₀ : World} {hnsw : Index}

omit [Arith] in
/-- The array of the index gives way to another one with the cells that it has room for. -/
theorem Holds.moved (h : Holds w₀ hnsw) {array : ItemArray}
    (harray : w₀.memory.arrayOf w₀.hnsw = some array) (slots capacity : Nat)
    {arrays : Nat → Option ItemArray}
    (hnew : arrays w₀.memory.next = some ⟨array.cells.take slots, slots⟩)
    (hrest : ∀ r, w₀.memory.next + 1 ≤ r → arrays r = none) :
    Holds ⟨{ w₀.memory with arrays, next := w₀.memory.next + 1 },
      { w₀.hnsw with items := some w₀.memory.next, capacity }⟩
      { hnsw.cut slots with capacity } := by
  obtain ⟨array', harray', hitems, hfield⟩ := h.array
  rw [harray] at harray'
  cases harray'
  have hbounded : Bounded { w₀.memory with arrays, next := w₀.memory.next + 1 } :=
    ⟨fun r hr => h.bounded.texts r (Nat.le_of_succ_le hr),
      fun r hr => h.bounded.vectors r (Nat.le_of_succ_le hr), hrest,
      fun r hr => h.bounded.lists r (Nat.le_of_succ_le hr)⟩
  have hcount := h.count
  have hlost : w₀.hnsw.count - (hnsw.items.take slots).length =
      hnsw.lost + (hnsw.items.length - slots) := by
    unfold Index.count at hcount
    rw [List.length_take]
    omega
  have hholds := @Holds.intro ⟨{ w₀.memory with arrays, next := w₀.memory.next + 1 },
    { w₀.hnsw with items := some w₀.memory.next, capacity }⟩ ⟨array.cells.take slots, slots⟩
    (hnsw.items.take slots) hnew
    (Memory.readItems_kept (Memory.readItems_take slots hitems) (fun _ _ h => h) (fun _ _ h => h)
      fun _ _ _ _ _ h => h)
    ((List.length_take_le' _ _).trans (hnsw.length_le_count.trans (Nat.le_of_eq hcount.symm)))
    ((h.distinct array harray).sublist (List.take_sublist _ _)) hbounded
  simp only [hlost] at hholds
  unfold Index.cut
  rw [hfield] at hholds ⊢
  exact hholds

omit [Arith] in
theorem reserveIn_simulates (h : Holds w₀ hnsw) (capacity : Nat) :
    Simulates (· = w₀) (reserveIn host capacity) (reserveLocked host hnsw capacity)
      (fun _ hnsw' w => Holds w hnsw') (Restored w₀) := by
  obtain ⟨array, harray, hitems, hfield⟩ := h.array
  have hcapacity : w₀.hnsw.capacity = hnsw.capacity := (congrArg Index.capacity hfield).symm
  unfold reserveIn reserveLocked
  refine get_does.known ?_
  rw [hcapacity]
  split
  · refine Simulates.pure ?_
    rintro w rfl
    exact h
  split
  · exact Faults.fault.simulates
  refine (Simulates.lift ?_).bind fun _ _ => Simulates.of_and fun _ => ?_
  · rintro w rfl
    exact .refl w
  refine (need_does harray).known ?_
  refine (newArray_does _).simulates fun q => ?_
  refine Simulates.of_and fun hq => ?_
  subst hq
  rcases hp : w₀.hnsw.items with _ | p
  · refine (setHandle_does _ ?_).last
    rintro w rfl
    refine h.moved harray _ _ (Function.update_self ..) fun r hr => ?_
    change Function.update w₀.memory.arrays w₀.memory.next _ r = none
    rw [Function.update_of_ne (by omega)]
    exact h.bounded.arrays r (by omega)
  · have harrayAt : w₀.memory.arrays p = some array := by
      unfold Memory.arrayOf at harray
      rwa [hp] at harray
    have hlt : p < w₀.memory.next := by
      by_contra hle
      rw [h.bounded.arrays p (by omega)] at harrayAt
      cases harrayAt
    refine (freeArray_does ?_).simulates fun _ => (setHandle_does _ ?_).last
    · change (Function.update w₀.memory.arrays w₀.memory.next _ p).isSome = true
      rw [Function.update_of_ne (by omega), harrayAt]
      rfl
    · rintro w rfl
      refine h.moved harray _ _ ?_ fun r hr => ?_
      · change Function.update (Function.update w₀.memory.arrays w₀.memory.next _) p none _ = _
        rw [Function.update_of_ne (by omega), Function.update_self]
      · change Function.update (Function.update w₀.memory.arrays w₀.memory.next _) p none r = none
        rw [Function.update_of_ne (by omega), Function.update_of_ne (by omega)]
        exact h.bounded.arrays r (by omega)

/-! ## Adding -/

omit [Arith] in
theorem growIn_simulates (h : Holds w₀ hnsw) : Simulates (· = w₀) (growIn host) (growFor host hnsw)
    (fun _ hnsw' w => Holds w hnsw') (Restored w₀) := by
  obtain ⟨array, -, -, hfield⟩ := h.array
  have hcapacity : w₀.hnsw.capacity = hnsw.capacity := (congrArg Index.capacity hfield).symm
  unfold growIn growFor
  refine get_does.known ?_
  rw [hcapacity, h.count]
  split
  · exact reserveIn_simulates h _
  · refine Simulates.pure ?_
    rintro w rfl
    exact h

omit [Arith] in
/-- The text that is given up again was not there before. -/
theorem Holds.freeText (h : Holds w₀ hnsw) (id : CStr) :
    Does (· = w₀.store fun m =>
        { m with texts := Function.update m.texts m.next (some id), next := m.next + 1 })
      (freeText w₀.memory.next) fun _ w => Restored w₀ w := by
  refine store_does _ ?_
  rintro w rfl
  refine ⟨rfl, ?_, rfl, rfl, rfl, Nat.le_succ _⟩
  change Function.update (Function.update w₀.memory.texts w₀.memory.next _) w₀.memory.next none = _
  rw [Function.update_idem, ← h.bounded.texts _ (Nat.le_refl _), Function.update_eq_self]

/-- The array with one more cell, whose identifier and vector come next. -/
def ItemArray.push (array : ItemArray) (next : Nat) (values : List Binary32) : ItemArray :=
  { array with cells := array.cells ++ [⟨next, next + 1, vectorNorm values, -1, none⟩] }

/-- The memory with the copies of an identifier and a vector. -/
def Memory.withCopies (m : Memory) (id : CStr) (values : List Binary32) : Memory := { m with
  texts := Function.update m.texts m.next (some id)
  vectors := Function.update m.vectors (m.next + 1) (some values)
  next := m.next + 2 }

/-- The memory with one more item in the array at `q`. -/
def Memory.withItem (m : Memory) (q : Nat) (array : ItemArray) (id : CStr)
    (values : List Binary32) : Memory := { m.withCopies id values with
  arrays := Function.update m.arrays q (some (array.push m.next values)) }

omit [Arith] in
theorem Memory.readItems_withCopies {m : Memory} (hbounded : Bounded m) {cells : List Cell}
    {items : List Item} (hitems : m.readItems cells = some items) (id : CStr)
    (values : List Binary32) : (m.withCopies id values).readItems cells = some items := by
  refine Memory.readItems_kept hitems (fun p id' hp => ?_) (fun p values' hp => ?_)
    fun _ _ _ _ _ h => h
  · have hne : p ≠ m.next := by
      rintro rfl
      rw [hbounded.texts _ (Nat.le_refl _)] at hp
      cases hp
    exact (Function.update_of_ne hne _ _).trans hp
  · have hne : p ≠ m.next + 1 := by
      rintro rfl
      rw [hbounded.vectors _ (Nat.le_succ _)] at hp
      cases hp
    exact (Function.update_of_ne hne _ _).trans hp

theorem Memory.readItems_withItem {m : Memory} (hbounded : Bounded m) {array : ItemArray}
    {items : List Item} (hitems : m.readItems array.cells = some items) (q : Nat) (id : CStr)
    (values : List Binary32) : (m.withItem q array id values).readItems
      (array.push m.next values).cells = some (items ++ [freshItem id values]) :=
  Memory.readItems_append (Memory.readItems_kept
      (Memory.readItems_withCopies hbounded hitems id values) (fun _ _ h => h) (fun _ _ h => h)
      fun _ _ _ _ _ h => h)
    (Memory.readItem_eq_some.mpr ⟨Function.update_self .., Function.update_self .., rfl, rfl, rfl⟩)

omit [Arith] in
theorem Bounded.withCopies {m : Memory} (h : Bounded m) (id : CStr) (values : List Binary32) :
    Bounded (m.withCopies id values) := by
  refine ⟨fun r hr => ?_, fun r hr => ?_, fun r hr => ?_, fun r hr => ?_⟩ <;>
    change m.next + 2 ≤ r at hr
  · exact (Function.update_of_ne (by omega) _ _).trans (h.texts r (by omega))
  · exact (Function.update_of_ne (by omega) _ _).trans (h.vectors r (by omega))
  · exact h.arrays r (by omega)
  · exact h.lists r (by omega)

theorem Bounded.withItem {m : Memory} (h : Bounded m) {q : Nat} (hq : q < m.next)
    (array : ItemArray) (id : CStr) (values : List Binary32) :
    Bounded (m.withItem q array id values) := by
  obtain ⟨htexts, hvectors, harrays, hlists⟩ := h.withCopies id values
  refine ⟨htexts, hvectors, fun r hr => ?_, hlists⟩
  change m.next + 2 ≤ r at hr
  exact (Function.update_of_ne (by omega) _ _).trans (harrays r hr)

/-- The handle behind an addition. -/
def Handle.counted (h : Handle) : Handle :=
  { h with count := h.count + 1, entryPointSet := false, maxLevel := -1 }

/-- One more item. -/
theorem Holds.appended (h : Holds w₀ hnsw) (hlost : hnsw.lost = 0) {q : Nat} {array : ItemArray}
    (hq : w₀.hnsw.items = some q) (harray : w₀.memory.arrays q = some array) (id : CStr)
    (values : List Binary32) : Holds ⟨w₀.memory.withItem q array id values, w₀.hnsw.counted⟩
      { hnsw.push (freshItem id values) with entryPointSet := false, maxLevel := -1 } := by
  obtain ⟨array', harray', hitems, hfield⟩ := h.array
  have harrayOf : w₀.memory.arrayOf w₀.hnsw = some array := by
    unfold Memory.arrayOf
    rw [hq]
    exact harray
  rw [harrayOf] at harray'
  cases harray'
  have hlt : q < w₀.memory.next := by
    by_contra hle
    rw [h.bounded.arrays q (by omega)] at harray
    cases harray
  have hdistinct : Distinct (array.push w₀.memory.next values).cells := by
    refine List.pairwise_append.mpr ⟨h.distinct array harrayOf, List.pairwise_singleton _ _, ?_⟩
    intro a _ b hb r _ hr
    rw [List.mem_singleton.mp hb] at hr
    cases hr
  have harrayOf' : (w₀.memory.withItem q array id values).arrayOf w₀.hnsw.counted =
      some (array.push w₀.memory.next values) := by
    unfold Memory.arrayOf Handle.counted
    simp only [hq]
    exact Function.update_self ..
  have hcount : (hnsw.items ++ [freshItem id values]).length = w₀.hnsw.counted.count := by
    rw [List.length_append, List.length_singleton, Handle.counted, h.count, Index.count, hlost]
  have hsum : w₀.hnsw.counted.count - (hnsw.items ++ [freshItem id values]).length =
      w₀.hnsw.count - hnsw.items.length := by
    rw [hcount, Nat.sub_self, h.count, Index.count, hlost, Nat.add_zero, Nat.sub_self]
  have hholds := Holds.intro (w := ⟨w₀.memory.withItem q array id values, w₀.hnsw.counted⟩)
    harrayOf' (Memory.readItems_withItem h.bounded hitems q id values) (Nat.le_of_eq hcount)
    hdistinct (h.bounded.withItem hlt array id values)
  simp only [hsum] at hholds
  rw [Index.push_of_whole hlost, hfield]
  exact hholds

/-- Behind lost items the new one is only counted. -/
theorem Holds.counted (h : Holds w₀ hnsw) (hlost : hnsw.lost ≠ 0) (id : CStr)
    (values : List Binary32) : Holds ⟨w₀.memory.withCopies id values, w₀.hnsw.counted⟩
      { hnsw.push (freshItem id values) with entryPointSet := false, maxLevel := -1 } := by
  obtain ⟨array, harray, hitems, hfield⟩ := h.array
  have hcount := h.count
  have hsum : w₀.hnsw.counted.count - hnsw.items.length =
      w₀.hnsw.count - hnsw.items.length + 1 := by
    change w₀.hnsw.count + 1 - _ = _
    rw [hcount, Index.count]
    omega
  have hholds := Holds.intro (w := ⟨w₀.memory.withCopies id values, w₀.hnsw.counted⟩) harray
    (Memory.readItems_withCopies h.bounded hitems id values) (by
      rw [Handle.counted, hcount]
      exact Nat.le_succ_of_le hnsw.length_le_count)
    (h.distinct array harray) (h.bounded.withCopies id values)
  simp only [hsum] at hholds
  rw [Index.push, if_neg hlost, hfield]
  exact hholds

theorem appendIn_simulates (h : Holds w₀ hnsw) (id : CStr) (values : List Binary32) :
    Simulates (· = w₀) (appendIn host id values) (appendItem host hnsw id values)
      (fun _ hnsw' w => Holds w hnsw') (Restored w₀) := by
  obtain ⟨array, harray, hitems, hfield⟩ := h.array
  have hdimension : w₀.hnsw.dimension = hnsw.dimension := (congrArg Index.dimension hfield).symm
  have hslots : hnsw.slots = array.slots := congrArg Index.slots hfield
  unfold appendIn appendItem
  refine (Simulates.lift ?_).bind fun _ _ => Simulates.of_and fun _ => ?_
  · rintro w rfl
    exact .refl w
  refine (newText_does id).simulates fun p => Simulates.of_and fun hp => ?_
  subst hp
  refine ((Simulates.lift fun _ hw => hw).onFail (h.freeText id)).bind fun _ _ =>
    Simulates.of_and fun _ => ?_
  refine get_does.known ?_
  change Simulates _ (if host.size (w₀.hnsw.dimension * 4) < w₀.hnsw.dimension * 4 then _ else _)
    _ _ _
  rw [hdimension]
  split
  · exact Faults.fault.simulates
  refine (newVector_does values).simulates fun v => Simulates.of_and fun hv => ?_
  subst hv
  change Simulates _ (need w₀.hnsw.items >>= _) _ _ _
  rcases hq : w₀.hnsw.items with _ | q
  · unfold Memory.arrayOf at harray
    rw [hq] at harray
    cases harray
    change hnsw.slots = 0 at hslots
    rw [if_pos (by omega)]
    exact Faults.fault.bind.simulates
  have harrayAt : w₀.memory.arrays q = some array := by
    unfold Memory.arrayOf at harray
    rwa [hq] at harray
  refine (need_does rfl).known ?_
  refine (@arrayAt_does _ _ array ?_).known ?_
  · rintro w rfl
    exact harrayAt
  change Simulates _ (if array.slots ≤ w₀.hnsw.count then _ else _) _ _ _
  rw [h.count]
  by_cases hroom : hnsw.slots ≤ hnsw.count
  · rw [if_pos hroom, if_pos (hslots ▸ hroom)]
    exact Faults.fault.simulates
  rw [if_neg hroom, if_neg (hslots ▸ hroom)]
  change Simulates _ (if array.cells.length < w₀.hnsw.count then _ else _) _ _ _
  rw [h.count]
  by_cases hlost : hnsw.lost = 0
  · rw [if_neg fun hlt => (lost_iff hitems).mp hlt hlost]
    refine (writeArray_does ?_).simulates fun _ => (setHandle_does _ ?_).last
    · change (w₀.memory.arrays q).isSome = true
      rw [harrayAt]
      rfl
    · rintro w rfl
      exact h.appended hlost hq harrayAt id values
  · rw [if_pos ((lost_iff hitems).mpr hlost)]
    refine (setHandle_does _ ?_).last
    rintro w rfl
    exact h.counted hlost id values

/-! ## The build -/

omit [Arith] in
/-- A new array of cells without neighbour arrays is a copy. -/
theorem Holds.copied (h : Holds w₀ hnsw) {cells : List Cell} {items : List Item}
    (hread : w₀.memory.readItems cells = some items) (hlength : items.length = hnsw.items.length)
    (hnone : ∀ cell ∈ cells, cell.neighbors = none) (rngState : UInt64) : Inserting w₀ w₀.memory.next 0
      { w₀.hnsw with
        items := some w₀.memory.next, maxLevel := -1, entryPointSet := false, rngState }
      { hnsw with items, maxLevel := -1, entryPointSet := false, rngState }
      (w₀.store fun m => { m with
        arrays := Function.update m.arrays m.next (some ⟨cells, w₀.hnsw.count⟩)
        next := m.next + 1 }) := by
  obtain ⟨array, -, -, hfield⟩ := h.array
  have hcopying : Copying w₀ w₀.memory.next cells (w₀.store fun m => { m with
      arrays := Function.update m.arrays m.next (some ⟨cells, w₀.hnsw.count⟩)
      next := m.next + 1 }) := by
    refine ⟨rfl, rfl, rfl, rfl, fun _ _ => rfl, fun r hr => ?_, fun cell hcell r hr => ?_, ?_,
      Nat.le_refl _, Nat.lt_succ_self _⟩
    · change (w₀.memory.lists r).isSome = true ↔ _
      rw [h.bounded.lists r hr]
      constructor
      · intro hsome
        cases hsome
      · rintro ⟨cell, hcell, hr⟩
        rw [hnone cell hcell] at hr
        cases hr
    · rw [hnone cell hcell] at hr
      cases hr
    · refine List.pairwise_of_forall_mem_list fun a ha b _ r hr => ?_
      rw [hnone a ha] at hr
      cases hr
  refine ⟨cells, ⟨hcopying, rfl, ?_⟩, fun j cell _ hcell => hnone cell (List.mem_of_getElem? hcell)⟩
  have hread' : (w₀.store fun m => { m with
      arrays := Function.update m.arrays m.next (some ⟨cells, w₀.hnsw.count⟩)
      next := m.next + 1 }).memory.readItems cells = some items :=
    Memory.readItems_kept hread (fun _ _ h => h) (fun _ _ h => h) fun _ _ _ _ _ h => h
  rw [hcopying.readIndex rfl, hread', Option.map_some, hlength, hfield]

omit [Arith] in
/-- The live array is given up for the copy. -/
theorem Holds.committed (h : Holds w₀ hnsw) {p q : Nat} {live : ItemArray}
    (hp : w₀.hnsw.items = some p) (harray : w₀.memory.arrays p = some live) {cells : List Cell}
    {tmp : Handle} {hnswTmp : Index} {w : World} (hw : Copied w₀ q cells tmp hnswTmp w)
    (hlost : hnsw.lost = 0) (hcount : hnswTmp.items.length = hnsw.count) {w₁ : World} (hfreed : Freed live.cells w w₁) :
    Holds ⟨{ w₁.memory with arrays := Function.update w₁.memory.arrays p none },
      { w₁.hnsw with
        items := some q, maxLevel := tmp.maxLevel, entryPointIdx := tmp.entryPointIdx
        entryPointSet := tmp.entryPointSet, rngState := tmp.rngState }⟩
      { hnsw with
        items := hnswTmp.items, slots := hnsw.count, maxLevel := hnswTmp.maxLevel
        entryPointIdx := hnswTmp.entryPointIdx, entryPointSet := hnswTmp.entryPointSet
        rngState := hnswTmp.rngState } := by
  have hplace := hw.copying.place
  have hnext := hfreed.next
  have hlive : w₀.memory.arrayOf w₀.hnsw = some live := by
    unfold Memory.arrayOf
    rw [hp]
    exact harray
  have hne : q ≠ p := by
    rintro rfl
    rw [h.bounded.arrays q hplace.1] at harray
    cases harray
  have harrayOf : Memory.arrayOf { w₁.memory with arrays := Function.update w₁.memory.arrays p none }
      { w₁.hnsw with
        items := some q, maxLevel := tmp.maxLevel, entryPointIdx := tmp.entryPointIdx
        entryPointSet := tmp.entryPointSet, rngState := tmp.rngState } =
      some ⟨cells, w₀.hnsw.count⟩ := by
    refine (Function.update_of_ne hne _ _).trans ?_
    rw [hfreed.arrays]
    exact hw.copying.array
  have hread : Memory.readItems
      { w₁.memory with arrays := Function.update w₁.memory.arrays p none } cells =
        some hnswTmp.items := by
    refine Memory.readItems_kept hw.readItems (fun t id ht => ?_) (fun v values hv => ?_) ?_
    · change w₁.memory.texts t = _
      rw [hfreed.texts, ht]
    · change w₁.memory.vectors v = _
      rw [hfreed.vectors, hv]
    · intro cell hcell r lists hr hlists
      refine (hfreed.kept r fun other hother heq => ?_).trans hlists
      have := h.bounded_lists hlive hother heq
      have := hw.copying.above cell hcell r hr
      omega
  have hbounded : Bounded { w₁.memory with arrays := Function.update w₁.memory.arrays p none } := by
    refine ⟨fun r hr => ?_, fun r hr => ?_, fun r hr => ?_, fun r hr => ?_⟩ <;>
      change w₁.memory.next ≤ r at hr
    · change w₁.memory.texts r = none
      rw [hfreed.texts, hw.copying.texts]
      exact h.bounded.texts r (by omega)
    · change w₁.memory.vectors r = none
      rw [hfreed.vectors, hw.copying.vectors]
      exact h.bounded.vectors r (by omega)
    · change Function.update w₁.memory.arrays p none r = none
      by_cases heq : r = p
      · rw [heq, Function.update_self]
      · rw [Function.update_of_ne heq, hfreed.arrays, hw.copying.arrays,
          Function.update_of_ne (by omega)]
        exact h.bounded.arrays r (by omega)
    · change w₁.memory.lists r = none
      by_cases hcell : ∃ cell ∈ live.cells, cell.neighbors = some r
      · obtain ⟨cell, hcell, heq⟩ := hcell
        exact hfreed.gone cell hcell r heq
      · rw [hfreed.kept r fun cell hc heq => hcell ⟨cell, hc, heq⟩, ← Option.not_isSome_iff_eq_none,
          hw.copying.new r (by omega)]
        rintro ⟨cell, hcell', heq⟩
        have := hw.copying.above cell hcell' r heq
        omega
  have hsame : hnswTmp.items.length = w₀.hnsw.count := by rw [hcount, h.count]
  have hholds := Holds.intro (w := ⟨_, _⟩) harrayOf hread (by
    change _ ≤ w₁.hnsw.count
    rw [hfreed.hnsw, hw.copying.hnsw, hsame]) hw.copying.distinct hbounded
  obtain ⟨array, -, -, hfield⟩ := h.array
  have hold : w₀.hnsw.count - hnsw.items.length = w₀.hnsw.count - hnswTmp.items.length := by
    rw [hsame, h.count, Index.count, hlost, Nat.add_zero, Nat.sub_self]
  rw [hfreed.hnsw, hw.copying.hnsw] at hholds ⊢
  rw [hold] at hfield
  rw [← h.count, hw.field, hfield]
  exact hholds

theorem buildIn_simulates (h : Holds w₀ hnsw) : Simulates (· = w₀) buildIn (build hnsw)
    (fun _ hnsw' w => hnsw'.count = hnsw.count → Holds w hnsw') (Restored w₀) := by
  unfold buildIn build
  refine get_does.known ?_
  rw [h.count]
  split
  · refine Simulates.pure ?_
    rintro w rfl _
    exact h
  rename_i hcount
  obtain ⟨array, harrayOf, hitems, hfield⟩ := h.array
  have hrng : w₀.hnsw.rngState = hnsw.rngState := (congrArg Index.rngState hfield).symm
  refine (Simulates.lift ?_).bind fun _ _ => Simulates.of_and fun _ => ?_
  · rintro w rfl
    exact .refl w
  by_cases hlost : hnsw.lost = 0
  swap
  · rw [if_pos hlost]
    unfold Memory.arrayOf at harrayOf
    rcases hp : w₀.hnsw.items with _ | p
    · exact Faults.fault.bind.simulates
    · refine (need_does rfl).known ((@arrayAt_does _ _ array ?_).known ?_)
      · rintro w rfl
        rwa [hp] at harrayOf
      · rw [if_pos ((lost_iff hitems).mpr hlost)]
        exact Faults.fault.simulates
  have hwhole : hnsw.count = hnsw.items.length := by rw [Index.count, hlost, Nat.add_zero]
  obtain ⟨p, live, hp, harray, hitems⟩ := h.live fun hnil => hcount (by rw [hwhole, hnil]; rfl)
  rw [if_neg (not_not_intro hlost)]
  refine (need_does hp).known ?_
  refine (@arrayAt_does _ _ live ?_).known ?_
  · rintro w rfl
    exact harray
  rw [if_neg fun hlt => (lost_iff hitems).mp hlt hlost, hrng]
  have hlength : (shuffle hnsw.count 0 (hnsw.items.map Item.bare) hnsw.rngState).1.length =
      hnsw.items.length := by
    rw [(shuffle_perm ..).length_eq, List.length_map]
  obtain ⟨hread, hstate⟩ := Memory.readItems_shuffleOf hnsw.count 0 hnsw.rngState
    (Memory.readItems_bare hitems)
  have hnone : ∀ cell ∈ (shuffleOf hnsw.count 0 (live.cells.map Cell.bare) hnsw.rngState).1,
      cell.neighbors = none := by
    intro cell hcell
    obtain ⟨old, -, rfl⟩ := List.mem_map.mp (shuffleOf_mem _ _ _ _ cell hcell)
    rfl
  generalize shuffleOf hnsw.count 0 (live.cells.map Cell.bare) hnsw.rngState = shuffledIn
    at hread hstate hnone ⊢
  generalize shuffle hnsw.count 0 (hnsw.items.map Item.bare) hnsw.rngState = shuffled
    at hread hstate hlength ⊢
  obtain ⟨cells, state⟩ := shuffledIn
  obtain ⟨items, rngState⟩ := shuffled
  simp only at hread hstate hnone hlength ⊢
  subst hstate
  rw [← h.count]
  refine (newArray_does _).simulates fun q => Simulates.of_and fun hq => ?_
  subst hq
  have hcopied := h.copied hread hlength hnone state
  refine (Simulates.mono (Simulates.foldlM_range (Inserting w₀ w₀.memory.next) _
    (fun i _ _ _ => insertItemIn_simulates i) _ _) ?_ fun _ _ _ h => h).onFail
      (HasCopy.cleanup h.bounded) |>.bind fun tmp hnswTmp => ?_
  · rintro w rfl
    exact hcopied
  refine Does.last ?_
  rintro w e ⟨copy, hw, -⟩
  have hlive : w₀.memory.arrayOf w₀.hnsw = some live := by
    unfold Memory.arrayOf
    rw [hp]
    exact harray
  have hplive : p < w₀.memory.next := by
    by_contra hle
    rw [h.bounded.arrays p (by omega)] at harray
    cases harray
  have hold : w.memory.arrays p = some live := by
    rw [hw.copying.arrays, Function.update_of_ne (by omega)]
    exact harray
  have hlists : ∀ cell ∈ live.cells, ∀ r, cell.neighbors = some r →
      (w.memory.lists r).isSome = true := by
    intro cell hcell r hr
    rw [hw.copying.old r (h.bounded_lists hlive hcell hr)]
    exact Memory.lists_of_readItems hitems hcell hr
  refine ((freeItems_does hold (h.distinct live hlive) hlists).bind fun _ =>
    setHandle_does _ ?_) w e rfl
  rintro _ ⟨w₁, hfreed, rfl⟩ hcount'
  have hlength' : hnswTmp.items.length = hnsw.count := by
    rw [← h.count, ← hcount', Index.count, hlost, Nat.add_zero]
  rw [h.count]
  exact h.committed hp harray hw hlost hlength' hfreed

end Reserving

/-! ## A life in memory is a life on values -/

/-- What a call returned, `none` for success. -/
def statusIn : Except Status Unit → Option Status
  | .ok _ => none
  | .error status => some status

section Lives

variable [Arith] {host : Host} {w₀ : World} {hnsw : Index}

omit [Arith] in
theorem settle_simulates {c : Cmd World Status Unit} {x : Run Status Index}
    (h : Simulates (· = w₀) c x (fun _ hnsw' w => Holds w hnsw') (Restored w₀))
    (hold : Holds w₀ hnsw) : Simulates (· = w₀) (Cmd.attempt c : Cmd World Status _) (settle x hnsw)
      (fun r s w => statusIn r = s.1 ∧ Holds w s.2) fun _ => False := by
  rw [← bind_pure (Cmd.attempt c)]
  refine h.attempt.bind fun r r' => ?_
  rcases r with err | ⟨⟩ <;> rcases r' with err' | hnsw'
  · refine Simulates.pure ?_
    rintro w ⟨rfl, hw⟩
    exact ⟨rfl, hw.holds hold⟩
  · exact fun _ _ hw => hw.elim
  · exact fun _ _ hw => hw.elim
  · exact Simulates.pure fun w hw => ⟨rfl, hw⟩

/-- **A call in memory** returns what the call on values returns, and holds what that leaves. -/
theorem liveIn_simulates (h : Holds w₀ hnsw) (op : Op) :
    Simulates (· = w₀) (liveIn host op) (call host hnsw op)
      (fun r s w => statusIn r = s.1 ∧ Holds w s.2) fun _ => False := by
  cases op with
  | reserve capacity => exact settle_simulates (reserveIn_simulates h capacity) h
  | add id values =>
    unfold liveIn callIn addIn call
    by_cases hid : id.bytes.isEmpty = true
    · simp only [hid, if_true]
      refine Does.last ?_
      rintro w e rfl
      exact ⟨.error .einval, w, rfl, rfl, h⟩
    simp only [hid, if_false, Bool.false_eq_true, Cmd.attempt_bind]
    refine (settle_simulates (growIn_simulates h) h).bind fun r s => Simulates.of_and fun hr => ?_
    obtain ⟨status, hnsw'⟩ := s
    simp only at hr
    subst hr
    rcases r with err | ⟨⟩
    · exact Simulates.pure fun w hw => ⟨rfl, hw⟩
    · intro w e hw
      exact settle_simulates (appendIn_simulates hw id values) hw w e rfl
  | build =>
    refine settle_simulates (((buildIn_simulates h).keeps
      (build_keeps hnsw (.inr trivial))).mono (fun _ hw => hw) ?_) h
    rintro _ hnsw' w ⟨hrebuilt, hholds⟩
    exact hholds hrebuilt.count

theorem Holds.start {dimension : Nat} {metric : Metric} {w : World}
    (h : (lifeIn host dimension metric).Start w) :
    ∃ s, (life host dimension metric).Start s ∧ Holds w s.index := by
  obtain ⟨env, seed, e, e', hopen⟩ := h
  have hempty : Keeps (fun _ => True) (fun _ => True) (hnswOpen dimension metric env seed)
      fun hnsw => hnsw.items = [] ∧ hnsw.lost = 0 ∧ hnsw.slots = 0 := by
    unfold hnswOpen
    split
    · exact Keeps.fail trivial
    · exact Keeps.bind Keeps.allocOr fun _ _ => Keeps.pure ⟨rfl, rfl, rfl⟩
  unfold openIn at hopen
  rw [exec_bind] at hopen
  rcases hrun : (hnswOpen dimension metric env seed).exec e with ⟨stop | hnsw, e₁⟩
  · rw [hrun] at hopen
    cases hopen
  rw [hrun] at hopen
  cases hopen
  obtain ⟨hitems, hlost, hslots⟩ := (hempty.value trivial hrun).1
  refine ⟨⟨hnsw, false⟩, ⟨rfl, env, seed, e, _, hrun⟩, ?_, ?_, fun array harray => ?_, ?_⟩
  · cases hnsw
    cases hitems
    cases hlost
    cases hslots
    rfl
  · change 0 = hnsw.items.length + hnsw.lost
    rw [hitems, hlost]
    rfl
  · cases harray
    exact .nil
  · exact ⟨fun _ _ => rfl, fun _ _ => rfl, fun _ _ => rfl, fun _ _ => rfl⟩

/-- A step in memory is a step on values. -/
theorem Holds.step {s : Life} {w w' : World} (hw : Holds w s.index) {op : Op} {e e' : Env}
    {r : Except Status Unit} (hrun : (liveIn host op).exec w e = (.ok r, w', e')) :
    ∃ s', (liveOn host s op).exec e = (.ok s', e') ∧ Holds w' s'.index := by
  have hcall := @liveIn_simulates _ host _ _ hw op w e rfl
  rcases hexec : (call host s.index op).exec e with ⟨(f | err) | ⟨status, hnsw'⟩, e₁⟩ <;>
    rw [hexec] at hcall
  · obtain ⟨w₁, hfault⟩ := hcall
    rw [hrun] at hfault
    cases hfault
  · obtain ⟨w₁, -, hfalse⟩ := hcall
    exact hfalse.elim
  · obtain ⟨r', w₁, hexecIn, -, hholds⟩ := hcall
    rw [hrun] at hexecIn
    cases hexecIn
    refine ⟨⟨hnsw', staleAfter s.stale op status⟩, ?_, hholds⟩
    unfold liveOn
    rw [exec_bind, hexec]
    rfl

/-- The calls that leave the items of an index in memory their places. -/
def SparesIn (host : Host) (w : World) (op : Op) : Prop :=
  ∀ hnsw, w.memory.readIndex w.hnsw = some hnsw → Spares host hnsw op

omit [Arith] in
theorem SparesIn.spares {op : Op} (h : SparesIn host w₀ op) (hw : Holds w₀ hnsw) :
    Spares host hnsw op := h hnsw hw.read

/-- **Every life in memory** whose calls leave the items their places holds an index that such a
life on values reaches. -/
theorem lifeIn_refines {dimension : Nat} {metric : Metric} {w : World}
    (h : (lifeIn host dimension metric).Reached (SparesIn host) w) :
    ∃ s, Sparing host dimension metric s ∧ Holds w s.index := by
  refine h.invariant (fun w => ∃ s, Sparing host dimension metric s ∧ Holds w s.index)
    (fun w hw => ?_) fun w op w' hw hspares hstep => ?_
  · obtain ⟨s, hs, hholds⟩ := Holds.start hw
    exact ⟨s, .start hs, hholds⟩
  · obtain ⟨s, hs, hw⟩ := hw
    obtain ⟨e, r, e', hrun⟩ := hstep
    obtain ⟨s', hlive, hholds⟩ := hw.step hrun
    exact ⟨s', .step hs (hspares.spares hw) ⟨e, e', hlive⟩, hholds⟩

/-! ## The build is atomic -/

/-- What an item carries besides its place in the graph. -/
def Item.carried (item : Item) : CStr × List Binary32 × Binary64 :=
  (item.id, item.values, item.norm)

omit [Arith] in
theorem Rebuilt.carried {hnsw' : Index} (h : Rebuilt hnsw hnsw') :
    (hnsw'.items.map Item.carried).Perm (hnsw.items.map Item.carried) := by
  have hperm := h.items.map Item.carried
  rw [List.map_map, List.map_map] at hperm
  exact hperm

/-- **The build is atomic** where all calls left the items their places. It returns, and the index
has the same items in some order, or an allocation failed, and every block and the index are what
they were. -/
theorem buildIn_atomic {dimension : Nat} {metric : Metric} {w : World}
    (h : (lifeIn host dimension metric).Reached (SparesIn host) w) (e : Env) :
    ∃ hnsw, w.memory.readIndex w.hnsw = some hnsw ∧
      ((∃ hnsw' w' e', buildIn.exec w e = (.ok (), w', e') ∧
          (build hnsw).exec e = (.ok hnsw', e') ∧ w'.memory.readIndex w'.hnsw = some hnsw' ∧
          (hnsw'.items.map Item.carried).Perm (hnsw.items.map Item.carried)) ∨
        (false ∈ e.allocs ∧ ∃ w' e', buildIn.exec w e = (.error (.fail .enomem), w', e') ∧
          Restored w w' ∧ w'.memory.readIndex w'.hnsw = some hnsw ∧
          ∀ query limit threshold e, ((searchIn query limit threshold).exec w' e).1 =
            ((searchIn query limit threshold).exec w e).1)) := by
  obtain ⟨⟨hnsw, stale⟩, hs, hw⟩ := lifeIn_refines h
  have hlost : hnsw.lost = 0 := hs.intact.whole
  change Holds w hnsw at hw
  refine ⟨hnsw, hw.read, ?_⟩
  have hsim := buildIn_simulates hw w e rfl
  have hbuild : Keeps (Within e.allocs) (FailsWithin e.allocs .enomem) (build hnsw) (Rebuilt hnsw) :=
    build_keeps hnsw (.inl hlost)
  rcases hbuild.returns_or_fails with ⟨hnsw', e', hrun, hrebuilt⟩ | ⟨hfalse, e', hrun⟩ <;>
    rw [hrun] at hsim
  · obtain ⟨⟨⟩, w', hexec, hholds⟩ := hsim
    exact .inl ⟨hnsw', w', e', hexec, hrun, (hholds hrebuilt.count).read, hrebuilt.carried⟩
  · obtain ⟨w', hexec, hrestored⟩ := hsim
    have hread := (hrestored.holds hw).read
    refine .inr ⟨hfalse, w', e', hexec, hrestored, hread, fun query limit threshold e => ?_⟩
    unfold searchIn load
    simp only [Cmd.exec_bind, Cmd.exec_get, hread, hw.read]
    rfl

/-- Calls that are allowed, one after the other, for evaluation. -/
def liveInThrough (host : Host) (ok : World → Op → Bool) : List Op → Cmd World Status Unit
  | [] => pure ()
  | op :: ops => do
    let w ← Cmd.get
    if ok w op then do
      let _ ← liveIn host op
      liveInThrough host ok ops
    else Cmd.fault .index

theorem liveInThrough_reached {dimension : Nat} {metric : Metric} {ok : World → Op → Bool} :
    ∀ {ops : List Op} {w w' : World} {e e' : Env},
      (lifeIn host dimension metric).Reached (fun w op => ok w op = true) w →
        (liveInThrough host ok ops).exec w e = (.ok (), w', e') →
          (lifeIn host dimension metric).Reached (fun w op => ok w op = true) w'
  | [], _, _, _, _, hw, h => by
    cases h
    exact hw
  | op :: ops, w, w', e, e', hw, h => by
    unfold liveInThrough at h
    rw [Cmd.exec_bind, Cmd.exec_get] at h
    by_cases hok : ok w op = true
    · simp only [if_pos hok, Cmd.exec_bind] at h
      rcases hrun : (liveIn host op).exec w e with ⟨stop | r, w₁, e₁⟩ <;> rw [hrun] at h
      · cases h
      · exact liveInThrough_reached (.step hw hok ⟨e, r, e₁, hrun⟩) h
    · simp only [if_neg hok] at h
      cases h

/-- Does a call leave the items in memory their places? -/
def sparingIn (host : Host) (w : World) (op : Op) : Bool :=
  match w.memory.readIndex w.hnsw with
  | some hnsw => decide (Spares host hnsw op)
  | none => true

omit [Arith] in
theorem sparesIn_of_sparingIn {w : World} {op : Op} (h : sparingIn host w op = true) :
    SparesIn host w op := by
  intro hnsw hread
  unfold sparingIn at h
  rw [hread] at h
  exact of_decide_eq_true h

end Lives

/-- The index `opened`, in memory. -/
def openedIn : World := ⟨⟨fun _ => none, fun _ => none, fun _ => none, fun _ => none, 0⟩, {
  dimension := 1, metric := .cosine, items := none, count := 0, capacity := 0, maxLevel := -1
  entryPointIdx := 0, entryPointSet := false, m := 16, efConstruction := 64, efSearch := 64
  rngState := 1 }⟩

theorem openedIn_start : (@lifeIn ieee ⟨.w64, .little⟩ 1 .cosine).Start openedIn :=
  ⟨none, 1, ⟨[], []⟩, _, rfl⟩

/-- Did the command stop so? For evaluation. -/
def stopped (stop : Stop Status) (r : Except (Stop Status) Unit × World × Env) : Bool :=
  match r.1 with
  | .error other => decide (other = stop)
  | .ok _ => false

theorem stopped_eq_true {stop : Stop Status} {r : Except (Stop Status) Unit × World × Env} :
    stopped stop r = true ↔ r.1 = .error stop := by
  unfold stopped
  rcases r.1 with other | ⟨⟩ <;> simp

/-- Two items are built, and built again until the last allocation fails. -/
theorem buildIn_atomic_two : ∃ w,
    (@lifeIn ieee ⟨.w64, .little⟩ 1 .cosine).Reached (SparesIn ⟨.w64, .little⟩) w ∧
    w.hnsw.count = 2 ∧ w.hnsw.entryPointSet = true ∧
      ∃ hnsw w' e', w.memory.readIndex w.hnsw = some hnsw ∧
        (@buildIn ieee).exec w ⟨List.replicate 10 true ++ [false], []⟩ =
          (.error (.fail .enomem), w', e') ∧ w'.memory.readIndex w'.hnsw = some hnsw := by
  have heval : (let r := (@liveInThrough ieee ⟨.w64, .little⟩ (sparingIn ⟨.w64, .little⟩)
        twoBuilt).exec openedIn ⟨[], []⟩
      r.1.isOk && r.2.1.hnsw.count == 2 && r.2.1.hnsw.entryPointSet &&
        stopped (.fail .enomem) ((@buildIn ieee).exec r.2.1 ⟨List.replicate 10 true ++ [false], []⟩)) = true := by
    decide +kernel
  rcases hrun : (@liveInThrough ieee ⟨.w64, .little⟩ (sparingIn ⟨.w64, .little⟩) twoBuilt).exec
    openedIn ⟨[], []⟩ with ⟨stop | ⟨⟩, w, e'⟩ <;> rw [hrun] at heval
  · cases heval
  simp only [Bool.and_eq_true, beq_iff_eq] at heval
  obtain ⟨⟨⟨-, hcount⟩, hset⟩, hstarved⟩ := heval
  have hreached := (@liveInThrough_reached ieee ⟨.w64, .little⟩ 1 .cosine _ _ _ _ _ _
    (.start openedIn_start) hrun).mono fun w op => sparesIn_of_sparingIn
  obtain ⟨hnsw, hread, hdone⟩ :=
    @buildIn_atomic ieee ⟨.w64, .little⟩ 1 .cosine w hreached ⟨List.replicate 10 true ++ [false], []⟩
  refine ⟨w, hreached, hcount, hset, ?_⟩
  rcases hdone with ⟨hnsw', w', e'', hexec, -⟩ | ⟨-, w', e'', hexec, -, hread', -⟩
  · rw [stopped_eq_true, hexec] at hstarved
    cases hstarved
  · exact ⟨hnsw, w', e'', hread, hexec, hread'⟩

/-- A build behind a reservation whose byte count wraps copies two items out of a block of one. -/
theorem build_overruns_wrapped : ∃ w, (@lifeIn ieee ⟨.w64, .little⟩ 1 .cosine).Reachable w ∧
    w.hnsw.count = 2 ∧ (∃ array, w.memory.arrayOf w.hnsw = some array ∧ array.slots = 1) ∧
      ∃ w' e', (@buildIn ieee).exec w ⟨[], []⟩ = (.error (.fault .index), w', e') := by
  have heval : (let r := (@liveInThrough ieee ⟨.w64, .little⟩ (fun _ _ => true)
        (twoBuilt ++ [.reserve (2 ^ 61 + 1)])).exec openedIn ⟨[], []⟩
      r.1.isOk && r.2.1.hnsw.count == 2 &&
        (r.2.1.memory.arrayOf r.2.1.hnsw).any (fun array => array.slots == 1) &&
          stopped (.fault .index) ((@buildIn ieee).exec r.2.1 ⟨[], []⟩)) = true := by
    decide +kernel
  rcases hrun : (@liveInThrough ieee ⟨.w64, .little⟩ (fun _ _ => true)
    (twoBuilt ++ [.reserve (2 ^ 61 + 1)])).exec openedIn ⟨[], []⟩
    with ⟨stop | ⟨⟩, w, e'⟩ <;> rw [hrun] at heval
  · cases heval
  simp only [Bool.and_eq_true, beq_iff_eq] at heval
  obtain ⟨⟨⟨-, hcount⟩, hslots⟩, hoverran⟩ := heval
  obtain ⟨array, harray, hone⟩ := (Option.any_eq_true ..).mp hslots
  have hreached := (@liveInThrough_reached ieee ⟨.w64, .little⟩ 1 .cosine _ _ _ _ _ _
    (.start openedIn_start) hrun).reachable
  refine ⟨w, hreached, hcount, ⟨array, harray, beq_iff_eq.mp hone⟩, ?_⟩
  rw [stopped_eq_true] at hoverran
  rcases hexec : (@buildIn ieee).exec w ⟨[], []⟩ with ⟨r, w', e''⟩
  rw [hexec] at hoverran
  obtain rfl : r = _ := hoverran
  exact ⟨w', e'', rfl⟩

end Ipa.Hnsw
