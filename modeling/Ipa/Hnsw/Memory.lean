import Ipa.Lib.Command
import Ipa.Hnsw.Calls
import Mathlib.Logic.Function.Basic

/-!
# The index in memory

The calls of the index over blocks and pointers, as `libhnsw.c` makes them. A block is found under
its address while it is allocated; an access to any other address is a fault. The build works on a
copy of the items array that shares the identifiers and the vectors with the array of the live
index, and has neighbour arrays of its own; an edge array belongs to its list, and is kept in it.
-/

namespace Ipa.Hnsw

open Run

/-- `kc_hnsw_item_t`. -/
structure Cell where
  id : Nat
  values : Nat
  norm : Binary64
  level : Int
  neighbors : Option Nat

/-- An items array: what is written in it from its start, and how many items it holds. -/
structure ItemArray where
  cells : List Cell
  slots : Nat

/-- The allocated blocks. No block lies at `next` or above. -/
structure Memory where
  texts : Nat → Option CStr
  vectors : Nat → Option (List Binary32)
  arrays : Nat → Option ItemArray
  lists : Nat → Option (List NeighborList)
  next : Nat

/-- `struct kc_hnsw`. -/
structure Handle where
  dimension : Nat
  metric : Metric
  items : Option Nat
  count : Nat
  capacity : Nat
  maxLevel : Int
  entryPointIdx : Nat
  entryPointSet : Bool
  m : Nat
  efConstruction : Nat
  efSearch : Int
  rngState : UInt64

/-- The memory, and the index of the caller. -/
structure World where
  memory : Memory
  hnsw : Handle

/-! ## Reading -/

namespace Memory

variable (m : Memory)

/-- The neighbour array of a cell: `none` at its end is `NULL`. -/
def neighborsOf (cell : Cell) : Option (Option (List NeighborList)) :=
  match cell.neighbors with
  | none => some none
  | some r => (m.lists r).map some

def readItem (cell : Cell) : Option Item :=
  match m.texts cell.id, m.vectors cell.values, m.neighborsOf cell with
  | some id, some values, some neighbors => some ⟨id, values, cell.norm, cell.level, neighbors⟩
  | _, _, _ => none

def readItems : List Cell → Option (List Item)
  | [] => some []
  | cell :: cells =>
    match m.readItem cell, readItems cells with
    | some item, some items => some (item :: items)
    | _, _ => none

/-- The items array of a handle; `NULL` holds nothing. -/
def arrayOf (h : Handle) : Option ItemArray :=
  match h.items with
  | none => some ⟨[], 0⟩
  | some q => m.arrays q

/-- What a handle leads to. Items that are counted and not written are lost. -/
def readIndex (h : Handle) : Option Index :=
  match m.arrayOf h with
  | none => none
  | some array => (m.readItems array.cells).map fun items => {
      dimension := h.dimension, metric := h.metric, items, lost := h.count - items.length
      slots := array.slots
      capacity := h.capacity, maxLevel := h.maxLevel, entryPointIdx := h.entryPointIdx
      entryPointSet := h.entryPointSet, m := h.m, efConstruction := h.efConstruction
      efSearch := h.efSearch, rngState := h.rngState }

end Memory

/-! ## Commands on blocks -/

/-- A value that must be there. -/
def need {α : Type} : Option α → Cmd World Status α
  | some a => pure a
  | none => Cmd.fault .index

/-- Change the memory. -/
def store (f : Memory → Memory) : Cmd World Status Unit := do
  let w ← Cmd.get
  Cmd.put { w with memory := f w.memory }

/-- Change the index of the caller. -/
def setHandle (f : Handle → Handle) : Cmd World Status Unit := do
  let w ← Cmd.get
  Cmd.put { w with hnsw := f w.hnsw }

/-- The index that a handle leads to, for the parts that only read it. -/
def load (h : Handle) : Cmd World Status Index := do
  let w ← Cmd.get
  need (w.memory.readIndex h)

def arrayAt (q : Nat) : Cmd World Status ItemArray := do
  let w ← Cmd.get
  need (w.memory.arrays q)

def listsAt (r : Nat) : Cmd World Status (List NeighborList) := do
  let w ← Cmd.get
  need (w.memory.lists r)

def newText (id : CStr) : Cmd World Status Nat := do
  let w ← Cmd.get
  store fun m => { m with texts := Function.update m.texts m.next (some id), next := m.next + 1 }
  pure w.memory.next

def newVector (values : List Binary32) : Cmd World Status Nat := do
  let w ← Cmd.get
  store fun m =>
    { m with vectors := Function.update m.vectors m.next (some values), next := m.next + 1 }
  pure w.memory.next

def newArray (array : ItemArray) : Cmd World Status Nat := do
  let w ← Cmd.get
  store fun m => { m with arrays := Function.update m.arrays m.next (some array), next := m.next + 1 }
  pure w.memory.next

def newLists (lists : List NeighborList) : Cmd World Status Nat := do
  let w ← Cmd.get
  store fun m => { m with lists := Function.update m.lists m.next (some lists), next := m.next + 1 }
  pure w.memory.next

def writeArray (q : Nat) (array : ItemArray) : Cmd World Status Unit := do
  let _ ← arrayAt q
  store fun m => { m with arrays := Function.update m.arrays q (some array) }

def writeLists (r : Nat) (lists : List NeighborList) : Cmd World Status Unit := do
  let _ ← listsAt r
  store fun m => { m with lists := Function.update m.lists r (some lists) }

def freeText (p : Nat) : Cmd World Status Unit :=
  store fun m => { m with texts := Function.update m.texts p none }

def freeArray (q : Nat) : Cmd World Status Unit := do
  let _ ← arrayAt q
  store fun m => { m with arrays := Function.update m.arrays q none }

def freeLists (r : Nat) : Cmd World Status Unit := do
  let _ ← listsAt r
  store fun m => { m with lists := Function.update m.lists r none }

/-- The neighbour arrays of the cells that have one. -/
def freeNeighbors : List Cell → Cmd World Status Unit
  | [] => pure ()
  | cell :: cells => do
    match cell.neighbors with
    | some r => freeLists r
    | none => pure ()
    freeNeighbors cells

/-- Both loops over an items array that is given up, with its own block. -/
def freeItems (q : Nat) : Cmd World Status Unit := do
  let array ← arrayAt q
  freeNeighbors array.cells
  freeArray q

/-! ## Reserving and adding -/

section Calls

variable [Arith] (host : Host)

def reserveIn (capacity : Nat) : Cmd World Status Unit := do
  let w ← Cmd.get
  if capacity ≤ w.hnsw.capacity then pure ()
  else if host.size (capacity * itemSize host) = 0 ∧ w.hnsw.capacity ≠ 0 then Cmd.fault .index
  else do
    Cmd.lift (allocOr .enomem)
    -- `realloc` moves the cells that the new block has room for
    let old ← need (w.memory.arrayOf w.hnsw)
    let slots := slotsFor host capacity
    let q ← newArray ⟨old.cells.take slots, slots⟩
    match w.hnsw.items with
    | some p => freeArray p
    | none => pure ()
    setHandle fun h => { h with items := some q, capacity }

/-- Room for one more item. -/
def growIn : Cmd World Status Unit := do
  let w ← Cmd.get
  if w.hnsw.count = w.hnsw.capacity then
    reserveIn host (nextCapacity host w.hnsw.capacity)
  else pure ()

/-- The copies of the identifier and the vector, and the new item. -/
def appendIn (id : CStr) (values : List Binary32) : Cmd World Status Unit := do
  Cmd.lift (allocOr .enomem)
  let p ← newText id
  (Cmd.lift (allocOr .enomem)).onFail (freeText p)
  let w ← Cmd.get
  if host.size (w.hnsw.dimension * 4) < w.hnsw.dimension * 4 then Cmd.fault .index
  else do
    let v ← newVector values
    let q ← need w.hnsw.items
    let array ← arrayAt q
    if array.slots ≤ w.hnsw.count then Cmd.fault .index
    else do
      -- behind cells that are not written no reader gets to it
      if array.cells.length < w.hnsw.count then pure ()
      else writeArray q { array with cells := array.cells ++ [⟨p, v, vectorNorm values, -1, none⟩] }
      setHandle fun h =>
        { h with count := h.count + 1, entryPointSet := false, maxLevel := -1 }

def addIn (id : CStr) (values : List Binary32) : Cmd World Status Unit := do
  if id.bytes.isEmpty then Cmd.lift (fail .einval)
  else do
    growIn host
    appendIn host id values

/-! ## The build -/

/-- The swaps of `shuffle` on any array. -/
def shuffleOf {α : Type} : Nat → Nat → List α → UInt64 → List α × UInt64
  | 0, _, items, state => (items, state)
  | left + 1, i, items, state =>
    let (x, state) := rand64 state
    let j := i + x.toNat % (items.length - i)
    match items[i]?, items[j]? with
    | some a, some b => shuffleOf left (i + 1) ((items.set i b).set j a) state
    | _, _ => shuffleOf left (i + 1) items state

/-- One field of a cell of the copy. -/
def writeCell (tmp : Handle) (i : Nat) (f : Cell → Cell) : Cmd World Status Unit := do
  let q ← need tmp.items
  let array ← arrayAt q
  let cell ← need array.cells[i]?
  writeArray q { array with cells := array.cells.set i (f cell) }

/-- The address of `items[idx].neighbors`. -/
def neighborsPtr (tmp : Handle) (idx : Nat) : Cmd World Status Nat := do
  let q ← need tmp.items
  let array ← arrayAt q
  let cell ← need array.cells[idx]?
  need cell.neighbors

def addEdgeIn (tmp : Handle) (srcIdx dstIdx level : Nat) : Cmd World Status Unit := do
  let hnsw ← load tmp
  let src ← Cmd.lift (itemAt hnsw.items srcIdx)
  let r ← neighborsPtr tmp srcIdx
  let lists ← listsAt r
  let list ← need lists[level]?
  if list.edges.contains dstIdx then pure ()
  else do
    let capacity ← Cmd.lift (
      if list.edges.length = list.capacity then do
        allocOr .enomem
        pure (if list.capacity = 0 then 4 else list.capacity * 2)
      else pure list.capacity)
    let edges := list.edges ++ [dstIdx]
    writeLists r (lists.set level ⟨edges, capacity⟩)
    let mMax := if level = 0 then hnsw.m * 2 else hnsw.m
    if mMax < edges.length then do
      match ← Cmd.lift (worstEdge hnsw src edges 0 none) with
      | some (i, _) => writeLists r (lists.set level ⟨dropEdge edges i, capacity⟩)
      | none => pure ()
    else pure ()

def connectIn (tmp : Handle) (i level : Nat) : List NodeScore → Nat → Nat → Cmd World Status Nat
  | [], _, currIdx => pure currIdx
  | best :: rest, connected, currIdx =>
    if connected < tmp.m then do
      addEdgeIn tmp i best.idx level
      addEdgeIn tmp best.idx i level
      connectIn tmp i level rest (connected + 1) (if connected = 0 then best.idx else currIdx)
    else pure currIdx

def connectLevelsIn (tmp : Handle) (i : Nat) (item : Item) : Nat → Nat → Cmd World Status Unit
  | 0, _ => pure ()
  | level + 1, currIdx => do
    let hnsw ← load tmp
    let candidates ← Cmd.lift (heapCreate hnsw.efConstruction hnsw.metric true)
    let candidates ← Cmd.lift
      (searchLevel hnsw item.values item.norm currIdx level hnsw.efConstruction candidates)
    Cmd.lift (allocOr .enomem)
    let sorted := Exchange.sort (fun a b => scoreWorse hnsw.metric a.score b.score) candidates.data
    let currIdx ← connectIn tmp i level sorted 0 currIdx
    connectLevelsIn tmp i item level currIdx

def insertItemIn (tmp : Handle) (i : Nat) : Cmd World Status Handle := do
  let drawn := randomLevel tmp.rngState
  let level := drawn.1
  let tmp := { tmp with rngState := drawn.2 }
  writeCell tmp i fun cell => { cell with level := (level : Int) }
  Cmd.lift (allocOr .enomem)
  let r ← newLists (List.replicate (level + 1) ⟨[], 0⟩)
  writeCell tmp i fun cell => { cell with neighbors := some r }
  if !tmp.entryPointSet then
    pure { tmp with entryPointIdx := i, maxLevel := level, entryPointSet := true }
  else do
    let hnsw ← load tmp
    let item ← Cmd.lift (itemAt hnsw.items i)
    let currIdx := tmp.entryPointIdx
    let s ← Cmd.lift (distTo hnsw item.values item.norm currIdx)
    let d ← Cmd.lift (descend hnsw item.values item.norm level (tmp.maxLevel - level).toNat
      ⟨currIdx, s, true⟩)
    let top := if (level : Int) < tmp.maxLevel then (level : Int) else tmp.maxLevel
    connectLevelsIn tmp i item (top + 1).toNat d.idx
    if tmp.maxLevel < level then pure { tmp with maxLevel := level, entryPointIdx := i }
    else pure tmp

/-- The copy without edges. -/
def Cell.bare (cell : Cell) : Cell := { cell with neighbors := none, level := -1 }

def buildIn : Cmd World Status Unit := do
  let w ← Cmd.get
  if w.hnsw.count = 0 then pure ()
  else do
    Cmd.lift (allocOr .enomem)
    let p ← need w.hnsw.items
    let live ← arrayAt p
    -- all the items counted are copied
    if live.cells.length < w.hnsw.count then Cmd.fault .index
    else do
      let shuffled := shuffleOf w.hnsw.count 0 (live.cells.map Cell.bare) w.hnsw.rngState
      let q ← newArray ⟨shuffled.1, w.hnsw.count⟩
      let tmp := { w.hnsw with
        items := some q, maxLevel := -1, entryPointSet := false, rngState := shuffled.2 }
      let tmp ← ((List.range w.hnsw.count).foldlM insertItemIn tmp).onFail (freeItems q)
      freeItems p
      setHandle fun h => { h with
        items := some q, maxLevel := tmp.maxLevel, entryPointIdx := tmp.entryPointIdx
        entryPointSet := tmp.entryPointSet, rngState := tmp.rngState }

/-- A search of the index. -/
def searchIn (query : List Binary32) (limit : Nat) (threshold : Binary64) :
    Cmd World Status (List Result) := do
  let w ← Cmd.get
  let hnsw ← load w.hnsw
  Cmd.lift (search hnsw query limit threshold)

/-! ## The life of an index in memory -/

/-- `calloc` leaves no array. -/
def openIn (dimension : Nat) (metric : Metric) (env : Option Int) (seed : UInt64) :
    Run Status World := do
  let hnsw ← hnswOpen dimension metric env seed
  pure ⟨⟨fun _ => none, fun _ => none, fun _ => none, fun _ => none, 0⟩, {
    dimension := hnsw.dimension, metric := hnsw.metric, items := none, count := 0
    capacity := hnsw.capacity, maxLevel := hnsw.maxLevel, entryPointIdx := hnsw.entryPointIdx
    entryPointSet := hnsw.entryPointSet, m := hnsw.m, efConstruction := hnsw.efConstruction
    efSearch := hnsw.efSearch, rngState := hnsw.rngState }⟩

def callIn : Op → Cmd World Status Unit
  | .reserve capacity => reserveIn host capacity
  | .add id values => addIn host id values
  | .build => buildIn

/-- One call, whatever it returns. -/
def liveIn (op : Op) : Cmd World Status (Except Status Unit) := Cmd.attempt (callIn host op)

/-- `life`, in memory; a call that faults is no step. -/
def lifeIn (dimension : Nat) (metric : Metric) : Machine World Op where
  Start w := ∃ env seed e e', (openIn dimension metric env seed).exec e = (.ok w, e')
  Step w op w' := ∃ e r e', (liveIn host op).exec w e = (.ok r, w', e')

end Calls

end Ipa.Hnsw
