import Ipa.Hnsw.Heap
import Ipa.Lib.CStr
import Ipa.Lib.Host
import Ipa.Lib.Exchange

/-!
# The vector index (`libhnsw.c`)

The items array with its capacity, the graph build and the search. `slots` is the number of
items that the allocation behind `items` really holds. A reservation whose byte count wraps moves
the items to a smaller block: what does not fit is `lost`, and still counted. Reading a lost item,
or an item, a neighbour list or a visited mark outside its array, is a fault. The
`while (changed)` descents and the candidate loop take a fuel of one more than the number of items.
-/

namespace Ipa.Hnsw

open Run

structure NeighborList where
  edges : List Nat
  capacity : Nat
deriving DecidableEq, Repr

structure Item where
  id : CStr
  values : List Binary32
  norm : Binary64
  level : Int
  neighbors : Option (List NeighborList)
deriving DecidableEq

/-- An item outside the graph. -/
def Item.bare (item : Item) : Item := { item with neighbors := none, level := -1 }

structure Index where
  dimension : Nat
  metric : Metric
  items : List Item
  lost : Nat
  slots : Nat
  capacity : Nat
  maxLevel : Int
  entryPointIdx : Nat
  entryPointSet : Bool
  m : Nat
  efConstruction : Nat
  efSearch : Int
  rngState : UInt64

namespace Index

/-- The items in the block, and those that a smaller block had no room for. -/
def count (hnsw : Index) : Nat := hnsw.items.length + hnsw.lost

theorem length_le_count (hnsw : Index) : hnsw.items.length ≤ hnsw.count := Nat.le_add_right ..

end Index

/-- `sizeof(kc_hnsw_item_t)`. -/
def itemSize (host : Host) : Nat :=
  match host.width with
  | .w32 => 24
  | .w64 => 40

/-! ## Opening, reserving, adding -/

/-- `seed` is the time xored with the address of the index, `env` the value of `HNSW_EF_SEARCH`
as `atoi` reads it. -/
def hnswOpen (dimension : Nat) (metric : Metric) (env : Option Int) (seed : UInt64) :
    Run Status Index := do
  if dimension = 0 then fail .einval
  else
    allocOr .enomem
    pure {
      dimension, metric
      items := [], lost := 0, slots := 0, capacity := 0
      maxLevel := -1, entryPointIdx := 0, entryPointSet := false
      m := 16, efConstruction := 64
      efSearch := match env with
        | some ef => if 0 < ef then ef else 64
        | none => 64
      rngState := if seed = 0 then 1 else seed }

/-- The items that fit into a block for `capacity` of them: the byte count wraps. -/
def slotsFor (host : Host) (capacity : Nat) : Nat :=
  host.size (capacity * itemSize host) / itemSize host

/-- What a block of `slots` items keeps of the items. -/
def Index.cut (hnsw : Index) (slots : Nat) : Index :=
  { hnsw with items := hnsw.items.take slots, lost := hnsw.lost + (hnsw.items.length - slots), slots }

@[simp] theorem Index.cut_count (hnsw : Index) (slots : Nat) : (hnsw.cut slots).count = hnsw.count := by
  change (hnsw.items.take slots).length + (hnsw.lost + (hnsw.items.length - slots)) =
    hnsw.items.length + hnsw.lost
  rw [List.length_take]
  omega

theorem Index.cut_of_le {hnsw : Index} {slots : Nat} (h : hnsw.items.length ≤ slots) :
    hnsw.cut slots = { hnsw with slots } := by
  unfold Index.cut
  rw [List.take_of_length_le h, Nat.sub_eq_zero_of_le h, Nat.add_zero]

/-- One item more. Behind lost ones no reader gets to it. -/
def Index.push (hnsw : Index) (item : Item) : Index :=
  if hnsw.lost = 0 then { hnsw with items := hnsw.items ++ [item] }
  else { hnsw with lost := hnsw.lost + 1 }

@[simp] theorem Index.push_count (hnsw : Index) (item : Item) :
    (hnsw.push item).count = hnsw.count + 1 := by
  unfold Index.push
  split
  · rename_i hlost
    simp only [Index.count, List.length_append, List.length_singleton, hlost]
  · exact (Nat.add_assoc ..).symm

theorem Index.push_of_whole {hnsw : Index} (h : hnsw.lost = 0) (item : Item) :
    hnsw.push item = { hnsw with items := hnsw.items ++ [item] } := if_pos h

def reserveLocked (host : Host) (hnsw : Index) (capacity : Nat) : Run Status Index :=
  if capacity ≤ hnsw.capacity then pure hnsw
  else if host.size (capacity * itemSize host) = 0 ∧ hnsw.capacity ≠ 0 then
    -- a block resized to no bytes is given up, and `items` still points to it
    fault .index
  else do
    allocOr .enomem
    -- the recorded capacity does not wrap
    pure { hnsw.cut (slotsFor host capacity) with capacity }

def reserve (host : Host) (hnsw : Index) (capacity : Nat) : Run Status Index :=
  reserveLocked host hnsw capacity

/-- The capacity that a full array is given. -/
def nextCapacity (host : Host) (capacity : Nat) : Nat :=
  if capacity = 0 then 8 else host.size (capacity * 2)

/-- Room for one more item. -/
def growFor (host : Host) (hnsw : Index) : Run Status Index :=
  if hnsw.count = hnsw.capacity then reserveLocked host hnsw (nextCapacity host hnsw.capacity) else pure hnsw

section Arithmetic

variable [Arith]

def vectorNorm (values : List Binary32) : Binary64 :=
  Arith.sqrt (values.foldl (fun sum x => Arith.add sum (Arith.mul (Arith.widen x) (Arith.widen x)))
    .zero)

def innerProduct (left right : List Binary32) : Binary64 :=
  (left.zip right).foldl
    (fun sum xy => Arith.add sum (Arith.mul (Arith.widen xy.1) (Arith.widen xy.2))) .zero

/-- The double 2.0. -/
def two : Binary64 := ⟨0x4000000000000000⟩

/-- `n == 0.0`. -/
def isZero (n : Binary64) : Bool := n.le .zero && Binary64.zero.le n

def dist (metric : Metric) (v1 : List Binary32) (n1 : Binary64) (v2 : List Binary32)
    (n2 : Binary64) : Binary64 :=
  let ip := innerProduct v1 v2
  match metric with
  | .innerProduct => ip
  | .cosine => if isZero n1 || isZero n2 then .zero else Arith.div ip (Arith.mul n1 n2)
  | .l2 =>
    Arith.sub (Arith.add (Arith.mul n1 n1) (Arith.mul n2 n2)) (Arith.mul two ip)

/-- The copies of the identifier and of the vector, and the new item behind the others. -/
def appendItem (host : Host) (hnsw : Index) (id : CStr) (values : List Binary32) :
    Run Status Index := do
  allocOr .enomem
  allocOr .enomem
  if host.size (hnsw.dimension * 4) < hnsw.dimension * 4 then fault .index
  else if hnsw.slots ≤ hnsw.count then fault .index
  else
    let item := ⟨id, values, vectorNorm values, -1, none⟩
    pure { hnsw.push item with entryPointSet := false, maxLevel := -1 }

def add (host : Host) (hnsw : Index) (id : CStr) (values : List Binary32) : Run Status Index := do
  if id.bytes.isEmpty then fail .einval
  else
    let hnsw ← growFor host hnsw
    appendItem host hnsw id values

/-! ## Random levels -/

/-- Xorshift64*: the value and the next state. -/
def rand64 (x : UInt64) : UInt64 × UInt64 :=
  let x := x ^^^ (x >>> 12)
  let x := x ^^^ (x <<< 25)
  let x := x ^^^ (x >>> 27)
  (x * 0x2545F4914F6CDD1D, x)

/-- The numerator of the random double over 2^53. -/
def randDouble (state : UInt64) : Nat × UInt64 :=
  let (x, state) := rand64 state
  ((x &&& 0x1FFFFFFFFFFFFF).toNat, state)

/-- `r < 0.1` for `r = k / 2^53`: the double 0.1 is 3602879701896397 / 2^55. -/
def belowTenth (k : Nat) : Bool := decide (4 * k < 3602879701896397)

/-- `left` more draws may raise the level. -/
def levelLoop : Nat → Nat → Nat → UInt64 → Nat × UInt64
  | 0, level, _, state => (level, state)
  | left + 1, level, r, state =>
    if belowTenth r then
      let (r, state) := randDouble state
      levelLoop left (level + 1) r state
    else (level, state)

def randomLevel (state : UInt64) : Nat × UInt64 :=
  let (r, state) := randDouble state
  levelLoop 16 0 r state

/-! ## The graph -/

def itemAt (items : List Item) (idx : Nat) : Run Status Item :=
  match items[idx]? with
  | some item => pure item
  | none => fault .index

/-- `items[idx].neighbors[level]`. -/
def neighborsAt (items : List Item) (idx level : Nat) : Run Status NeighborList := do
  let item ← itemAt items idx
  match item.neighbors with
  | none => fault .index
  | some lists =>
    match lists[level]? with
    | none => fault .index
    | some list => pure list

/-- The score of item `idx` for a query. -/
def distTo (hnsw : Index) (query : List Binary32) (queryNorm : Binary64) (idx : Nat) :
    Run Status Binary64 := do
  let item ← itemAt hnsw.items idx
  pure (dist hnsw.metric query queryNorm item.values item.norm)

/-- The index of the worst edge, and its score, among those seen so far. -/
def worstEdge (hnsw : Index) (src : Item) : List Nat → Nat → Option (Nat × Binary64) →
    Run Status (Option (Nat × Binary64))
  | [], _, worst => pure worst
  | target :: rest, i, worst => do
    let s ← distTo hnsw src.values src.norm target
    match worst with
    | none => worstEdge hnsw src rest (i + 1) (some (i, s))
    | some (w, worstScore) =>
      if scoreWorse hnsw.metric s worstScore then worstEdge hnsw src rest (i + 1) (some (i, s))
      else worstEdge hnsw src rest (i + 1) (some (w, worstScore))

/-- Drop the edge at `i` by moving the last one into its place. -/
def dropEdge (edges : List Nat) (i : Nat) : List Nat :=
  (edges.set i (edges.getLastD 0)).dropLast

def addEdge (hnsw : Index) (srcIdx dstIdx level : Nat) : Run Status Index := do
  let src ← itemAt hnsw.items srcIdx
  let list ← neighborsAt hnsw.items srcIdx level
  if list.edges.contains dstIdx then pure hnsw
  else
    let capacity ←
      if list.edges.length = list.capacity then do
        allocOr .enomem
        pure (if list.capacity = 0 then 4 else list.capacity * 2)
      else pure list.capacity
    let edges := list.edges ++ [dstIdx]
    let mMax := if level = 0 then hnsw.m * 2 else hnsw.m
    let edges ←
      if mMax < edges.length then do
        match ← worstEdge hnsw src edges 0 none with
        | some (i, _) => pure (dropEdge edges i)
        | none => pure edges
      else pure edges
    let lists := (src.neighbors.getD []).set level ⟨edges, capacity⟩
    pure { hnsw with items := hnsw.items.set srcIdx { src with neighbors := some lists } }

/-- A node, its score, and whether the pass moved. -/
structure Descent where
  idx : Nat
  score : Binary64
  changed : Bool

/-- One pass over a neighbour list. -/
def descendPass (hnsw : Index) (query : List Binary32) (queryNorm : Binary64) (edges : List Nat)
    (d : Descent) : Run Status Descent :=
  edges.foldlM (fun d neighbor => do
    let s ← distTo hnsw query queryNorm neighbor
    if scoreBetter hnsw.metric s d.score then pure ⟨neighbor, s, true⟩ else pure d) d

/-- Passes at one level until one changes nothing. -/
def descendLevel (hnsw : Index) (query : List Binary32) (queryNorm : Binary64) (level : Nat) :
    Nat → Descent → Run Status Descent
  | 0, _ => fault .fuel
  | fuel + 1, d => do
    let list ← neighborsAt hnsw.items d.idx level
    let d ← descendPass hnsw query queryNorm list.edges { d with changed := false }
    if d.changed then descendLevel hnsw query queryNorm level fuel d else pure d

/-- The levels from `low + steps` down to above `low`. -/
def descend (hnsw : Index) (query : List Binary32) (queryNorm : Binary64) (low : Nat) :
    Nat → Descent → Run Status Descent
  | 0, d => pure d
  | steps + 1, d => do
    let d ← descendLevel hnsw query queryNorm (low + steps + 1) (hnsw.count + 1) d
    descend hnsw query queryNorm low steps d

structure LevelSearch where
  candidates : Heap
  results : Heap
  visited : List Bool

/-- One neighbour of the candidate in hand. -/
def visitNeighbor (hnsw : Index) (query : List Binary32) (queryNorm : Binary64) (ef : Nat)
    (st : LevelSearch) (v : Nat) : Run Status LevelSearch :=
  match st.visited[v]? with
  | none => fault .index
  | some true => pure st
  | some false => do
    let st := { st with visited := st.visited.set v true }
    let s ← distTo hnsw query queryNorm v
    if st.results.size < ef ∨ scoreBetter hnsw.metric s (st.results.at_ 0).score then
      let candidates ← heapPush st.candidates v s
      let results ← heapPush st.results v s
      let results := if ef < results.size then (heapPop results).2 else results
      pure { st with candidates, results }
    else pure st

def searchLoop (hnsw : Index) (query : List Binary32) (queryNorm : Binary64) (level ef : Nat) :
    Nat → LevelSearch → Run Status Heap
  | 0, _ => fault .fuel
  | fuel + 1, st =>
    if st.candidates.size = 0 then pure st.results
    else do
      let (c, candidates) := heapPop st.candidates
      let st := { st with candidates }
      if ef ≤ st.results.size ∧ scoreWorse hnsw.metric c.score (st.results.at_ 0).score then
        pure st.results
      else
        let list ← neighborsAt hnsw.items c.idx level
        let st ← list.edges.foldlM (visitNeighbor hnsw query queryNorm ef) st
        searchLoop hnsw query queryNorm level ef fuel st

def searchLevel (hnsw : Index) (query : List Binary32) (queryNorm : Binary64)
    (entryIdx level ef : Nat) (results : Heap) : Run Status Heap := do
  let candidates ← heapCreate (ef * 2) hnsw.metric false
  allocOr .enomem
  let s ← distTo hnsw query queryNorm entryIdx
  let candidates ← heapPush candidates entryIdx s
  let results ← heapPush results entryIdx s
  searchLoop hnsw query queryNorm level ef (hnsw.count + 1)
    ⟨candidates, results, (List.replicate hnsw.count false).set entryIdx true⟩

/-! ## The build -/

/-- The shuffle: `left` more positions, from `i` on. -/
def shuffle : Nat → Nat → List Item → UInt64 → List Item × UInt64
  | 0, _, items, state => (items, state)
  | left + 1, i, items, state =>
    let (x, state) := rand64 state
    let j := i + x.toNat % (items.length - i)
    match items[i]?, items[j]? with
    | some a, some b => shuffle left (i + 1) ((items.set i b).set j a) state
    | _, _ => shuffle left (i + 1) items state

/-- Edges from item `i` to the best candidates and back; the first of them is the next entry. -/
def connect (i level : Nat) : List NodeScore → Nat → Nat → Index → Run Status (Nat × Index)
  | [], _, currIdx, hnsw => pure (currIdx, hnsw)
  | best :: rest, connected, currIdx, hnsw =>
    if connected < hnsw.m then do
      let hnsw ← addEdge hnsw i best.idx level
      let hnsw ← addEdge hnsw best.idx i level
      connect i level rest (connected + 1) (if connected = 0 then best.idx else currIdx) hnsw
    else pure (currIdx, hnsw)

/-- The levels below `levels`, from the top one down. -/
def connectLevels (i : Nat) (item : Item) : Nat → Nat → Index → Run Status Index
  | 0, _, hnsw => pure hnsw
  | level + 1, currIdx, hnsw => do
    let candidates ← heapCreate hnsw.efConstruction hnsw.metric true
    let candidates ← searchLevel hnsw item.values item.norm currIdx level hnsw.efConstruction
      candidates
    allocOr .enomem
    let sorted := Exchange.sort (fun a b => scoreWorse hnsw.metric a.score b.score) candidates.data
    let (currIdx, hnsw) ← connect i level sorted 0 currIdx hnsw
    connectLevels i item level currIdx hnsw

/-- The insertion of item `i` into the graph of the items before it. -/
def insertItem (hnsw : Index) (i : Nat) : Run Status Index := do
  let drawn := randomLevel hnsw.rngState
  let level := drawn.1
  let item ← itemAt hnsw.items i
  allocOr .enomem
  let item := { item with
    level := (level : Int), neighbors := some (List.replicate (level + 1) ⟨[], 0⟩) }
  let hnsw := { hnsw with items := hnsw.items.set i item, rngState := drawn.2 }
  if !hnsw.entryPointSet then
    pure { hnsw with entryPointIdx := i, maxLevel := level, entryPointSet := true }
  else
    let currIdx := hnsw.entryPointIdx
    let s ← distTo hnsw item.values item.norm currIdx
    let d ← descend hnsw item.values item.norm level (hnsw.maxLevel - level).toNat
      ⟨currIdx, s, true⟩
    let top := if (level : Int) < hnsw.maxLevel then (level : Int) else hnsw.maxLevel
    let hnsw ← connectLevels i item (top + 1).toNat d.idx hnsw
    if hnsw.maxLevel < level then pure { hnsw with maxLevel := level, entryPointIdx := i }
    else pure hnsw

def build (hnsw : Index) : Run Status Index :=
  if hnsw.count = 0 then pure hnsw
  else do
    allocOr .enomem
    -- all the items counted are copied
    if hnsw.lost ≠ 0 then fault .index
    else
      let shuffled := shuffle hnsw.count 0 (hnsw.items.map Item.bare) hnsw.rngState
      let tmp := { hnsw with
        items := shuffled.1, maxLevel := -1, entryPointSet := false, rngState := shuffled.2 }
      let tmp ← (List.range hnsw.count).foldlM insertItem tmp
      pure { hnsw with
        items := tmp.items, slots := hnsw.count, maxLevel := tmp.maxLevel
        entryPointIdx := tmp.entryPointIdx, entryPointSet := tmp.entryPointSet
        rngState := tmp.rngState }

/-! ## The search -/

structure Result where
  id : CStr
  score : Binary64
deriving DecidableEq

/-- The scores of all the items, in order. -/
def scoreAll (hnsw : Index) (query : List Binary32) (queryNorm : Binary64) : List NodeScore :=
  (List.range hnsw.count).zipWith
    (fun i item => ⟨i, dist hnsw.metric query queryNorm item.values item.norm⟩) hnsw.items

/-- Pop `n` results and recompute their scores. -/
def popResults (hnsw : Index) (query : List Binary32) (queryNorm : Binary64) :
    Nat → Heap → Run Status (List NodeScore)
  | 0, _ => pure []
  | n + 1, heap => do
    let (top, heap) := heapPop heap
    let s ← distTo hnsw query queryNorm top.idx
    let rest ← popResults hnsw query queryNorm n heap
    pure (⟨top.idx, s⟩ :: rest)

/-- The results that meet the threshold, at most `left` of them. -/
def selectResults (hnsw : Index) (threshold : Binary64) : List NodeScore → Nat →
    Run Status (List Result)
  | [], _ => pure []
  | _, 0 => pure []
  | r :: rest, left + 1 => do
    let item ← itemAt hnsw.items r.idx
    let met := match hnsw.metric with
      | .l2 => r.score.le threshold
      | _ => threshold.le r.score
    if met then do
      let results ← selectResults hnsw threshold rest left
      pure (⟨item.id, r.score⟩ :: results)
    else selectResults hnsw threshold rest (left + 1)

/-- The search budget: `int ef` from the index and `size_t limit`. -/
def searchBudget (hnsw : Index) (limit : Nat) : Int :=
  let ef := if hnsw.efSearch < limit then Int.bmod limit (2 ^ 32) else hnsw.efSearch
  if ef < 64 then 64 else ef

def search (hnsw : Index) (query : List Binary32) (limit : Nat) (threshold : Binary64) :
    Run Status (List Result) := do
  if limit = 0 ∨ hnsw.count = 0 then pure []
  else if !hnsw.entryPointSet then fail .estate
  else
    let ef := (searchBudget hnsw limit).toNat
    let queryNorm := vectorNorm query
    let results ←
      if hnsw.count ≤ ef ∨ hnsw.count ≤ 1024 then do
        allocOr .enomem
        if hnsw.lost ≠ 0 then fault .index
        else pure (scoreAll hnsw query queryNorm)
      else do
        let currIdx := hnsw.entryPointIdx
        let s ← distTo hnsw query queryNorm currIdx
        let d ← descend hnsw query queryNorm 0 hnsw.maxLevel.toNat ⟨currIdx, s, true⟩
        let topK ← heapCreate ef hnsw.metric true
        let topK ← searchLevel hnsw query queryNorm d.idx 0 ef topK
        allocOr .enomem
        popResults hnsw query queryNorm topK.size topK
    let results := Exchange.sort (fun a b => scoreWorse hnsw.metric a.score b.score) results
    selectResults hnsw threshold results limit

end Arithmetic

end Ipa.Hnsw
