import Ipa.Hnsw.Graph
import Mathlib.Data.List.Nodup

/-!
# Adding an edge

`addEdge` appends a target to one neighbour list, and drops one of its edges when the list is
then too long. `EdgeAdded` says what it leaves: that list extended, every other list as it was,
and nothing else of the index changed. What the build keeps follows from it.
-/

namespace Ipa.Hnsw

open Run

/-- The items `items'` are `items` with other edges. -/
structure Rewired (items items' : List Item) : Prop where
  bare : items'.map Item.bare = items.map Item.bare
  placed : ∀ idx level, Placed items' idx level ↔ Placed items idx level

theorem Rewired.refl (items : List Item) : Rewired items items := ⟨rfl, fun _ _ => Iff.rfl⟩

theorem Rewired.trans {a b c : List Item} (hab : Rewired a b) (hbc : Rewired b c) :
    Rewired a c :=
  ⟨hbc.bare.trans hab.bare, fun idx level => (hbc.placed idx level).trans (hab.placed idx level)⟩

theorem map_bare_set {items : List Item} {i : Nat} {item item' : Item}
    (hitem : items[i]? = some item) (hbare : item'.bare = item.bare) :
    (items.set i item').map Item.bare = items.map Item.bare := by
  obtain ⟨hlt, rfl⟩ := List.getElem?_eq_some_iff.mp hitem
  rw [List.map_set, hbare]
  apply List.ext_getElem
  · simp
  · intro k hk _
    rw [List.getElem_set]
    split
    · subst_vars
      simp
    · rfl

/-- The list that replaces one neighbour list, and all the others. -/
theorem listAt_set_list {items : List Item} {src level : Nat} {item : Item}
    {lists : List NeighborList} (hitem : items[src]? = some item)
    (hlists : item.neighbors = some lists) (hlevel : level < lists.length) (new : NeighborList)
    (idx l : Nat) :
    listAt (items.set src { item with neighbors := some (lists.set level new) }) idx l =
      if idx = src ∧ l = level then some new else listAt items idx l := by
  have hsrc := (List.getElem?_eq_some_iff.mp hitem).1
  unfold listAt
  by_cases hidx : idx = src
  · subst hidx
    rw [List.getElem?_set_self hsrc, hitem, Option.bind_some, Option.bind_some, Option.bind_some,
      hlists, Option.bind_some]
    by_cases hl : l = level
    · subst hl
      rw [List.getElem?_set_self hlevel, if_pos ⟨rfl, rfl⟩]
    · rw [List.getElem?_set_ne (Ne.symm hl), if_neg (fun h => hl h.2)]
  · rw [List.getElem?_set_ne (Ne.symm hidx), if_neg (fun h => hidx h.1)]

theorem mem_dropEdge {edges : List Nat} {i e : Nat} (h : e ∈ dropEdge edges i) : e ∈ edges := by
  rcases List.mem_or_eq_of_mem_set ((List.dropLast_sublist _).subset h) with h | rfl
  · exact h
  · cases edges with
    | nil => simp [dropEdge] at h
    | cons a l =>
      rw [List.getLastD_cons, ← List.getLast_eq_getLastD (List.cons_ne_nil a l)]
      exact List.getLast_mem _

/-- The bound on the edges of a list at a level. -/
def maxEdges (hnsw : Index) (level : Nat) : Nat := if level = 0 then hnsw.m * 2 else hnsw.m

/-- What a list becomes when `dst` is added to it. -/
inductive Extended (bound dst : Nat) (old : List Nat) : List Nat → Prop
  | there (h : dst ∈ old) : Extended bound dst old old
  | appended (h : dst ∉ old) (hlen : old.length < bound) : Extended bound dst old (old ++ [dst])
  | pruned (h : dst ∉ old) (hlen : bound ≤ old.length) (i : Nat) :
    Extended bound dst old (dropEdge (old ++ [dst]) i)

namespace Extended

variable {bound dst : Nat} {old new : List Nat}

theorem mem_or (h : Extended bound dst old new) {e : Nat} (he : e ∈ new) : e ∈ old ∨ e = dst := by
  cases h with
  | there h => exact .inl he
  | appended h hlen => simpa using he
  | pruned h hlen i => simpa using mem_dropEdge he

theorem length_le (h : Extended bound dst old new) (hold : old.length ≤ bound) :
    new.length ≤ bound := by
  cases h with
  | there h => exact hold
  | appended h hlen =>
    rw [List.length_append, List.length_singleton]
    exact hlen
  | pruned h hlen i =>
    unfold dropEdge
    rw [List.length_dropLast, List.length_set, List.length_append, List.length_singleton]
    omega

/-- A list that is dropped from is full, and stays so. -/
theorem le_length (h : Extended bound dst old new) (hold : bound ≤ old.length) :
    bound ≤ new.length := by
  cases h with
  | there h => exact hold
  | appended h hlen => omega
  | pruned h hlen i =>
    unfold dropEdge
    rw [List.length_dropLast, List.length_set, List.length_append, List.length_singleton]
    omega

theorem nodup (h : Extended bound dst old new) (hold : old.Nodup) : new.Nodup := by
  have happ : dst ∉ old → (old ++ [dst]).Nodup := fun hdst => by
    rw [List.nodup_append]
    exact ⟨hold, List.nodup_singleton dst, fun a ha b hb => by
      rw [List.mem_singleton.mp hb]
      exact fun heq => hdst (heq ▸ ha)⟩
  cases h with
  | there h => exact hold
  | appended h hlen => exact happ h
  | pruned h hlen i =>
    unfold dropEdge
    rw [List.getLastD_concat]
    by_cases hi : i < old.length
    · rw [List.set_append_left i dst hi, List.dropLast_concat]
      exact List.Nodup.set hold h
    · rw [List.set_append_right i dst (by omega)]
      have hset : [dst].set (i - old.length) dst = [dst] := by
        cases i - old.length with
        | zero => rfl
        | succ k => rfl
      rw [hset, List.dropLast_concat]
      exact hold

end Extended

/-- What `addEdge` leaves. -/
structure EdgeAdded (hnsw : Index) (src dst level : Nat) (hnsw' : Index) : Prop where
  rest : hnsw' = { hnsw with items := hnsw'.items }
  rewired : Rewired hnsw.items hnsw'.items
  levels : hnsw'.items.map (·.level) = hnsw.items.map (·.level)
  list : ∃ old new, listAt hnsw.items src level = some old ∧
    listAt hnsw'.items src level = some new ∧
      Extended (maxEdges hnsw level) dst old.edges new.edges
  others : ∀ idx l, ¬ (idx = src ∧ l = level) →
    listAt hnsw'.items idx l = listAt hnsw.items idx l

/-- An edge afterwards was there before, or is the one added. -/
theorem EdgeAdded.edge {hnsw hnsw' : Index} {src dst level : Nat}
    (h : EdgeAdded hnsw src dst level hnsw') {idx l : Nat} {list : NeighborList}
    (hlist : listAt hnsw'.items idx l = some list) {e : Nat} (he : e ∈ list.edges) :
    (∃ old, listAt hnsw.items idx l = some old ∧ e ∈ old.edges) ∨
      (idx = src ∧ l = level ∧ e = dst) := by
  by_cases hat : idx = src ∧ l = level
  · obtain ⟨rfl, rfl⟩ := hat
    obtain ⟨old, new, hold, hnew, hext⟩ := h.list
    rw [hnew] at hlist
    cases hlist
    exact (hext.mem_or he).imp (fun h => ⟨old, hold, h⟩) fun h => ⟨rfl, rfl, h⟩
  · rw [h.others idx l hat] at hlist
    exact .inl ⟨list, hlist, he⟩

theorem edgeAdded_set {hnsw : Index} {src dst level : Nat} {item : Item}
    {lists : List NeighborList} {old new : NeighborList} (hitem : hnsw.items[src]? = some item)
    (hlists : item.neighbors = some lists) (hold : lists[level]? = some old)
    (hext : Extended (maxEdges hnsw level) dst old.edges new.edges) :
    EdgeAdded hnsw src dst level { hnsw with
      items := hnsw.items.set src { item with neighbors := some (lists.set level new) } } := by
  have hlevel := (List.getElem?_eq_some_iff.mp hold).1
  have hat := listAt_set_list hitem hlists hlevel new
  have hlistAt : listAt hnsw.items src level = some old :=
    listAt_eq_some.mpr ⟨item, lists, hitem, hlists, hold⟩
  refine ⟨rfl, ⟨map_bare_set hitem rfl, fun idx l => ?_⟩, ?_,
    ⟨old, new, hlistAt, by rw [hat, if_pos ⟨rfl, rfl⟩], hext⟩,
    fun idx l hne => by rw [hat, if_neg hne]⟩
  · unfold Placed
    rw [hat]
    split
    · rename_i h
      obtain ⟨rfl, rfl⟩ := h
      exact ⟨fun _ => ⟨old, hlistAt⟩, fun _ => ⟨new, rfl⟩⟩
    · exact Iff.rfl
  · obtain ⟨hlt, rfl⟩ := List.getElem?_eq_some_iff.mp hitem
    rw [List.map_set]
    apply List.ext_getElem
    · simp
    · intro k hk _
      rw [List.getElem_set]
      split
      · subst_vars
        simp
      · rfl

section Arithmetic

variable [Arith] {hnsw : Index}
variable {I : Env → Prop} {X : Stop Status → Prop}

/-- The worst edge is found when there is one. -/
theorem worstEdge_keeps (src : Item) : ∀ (edges : List Nat) (i : Nat)
    (worst : Option (Nat × Binary64)), (∀ e ∈ edges, ∃ level, Placed hnsw.items e level) →
      Keeps I X (worstEdge hnsw src edges i worst) fun r =>
        edges ≠ [] ∨ worst.isSome → r.isSome
  | [], _, _, _ => Keeps.pure fun h => h.elim (fun h => absurd rfl h) id
  | target :: rest, i, worst, h => by
    unfold worstEdge
    obtain ⟨level, htarget⟩ := h target List.mem_cons_self
    have hrest : ∀ e ∈ rest, ∃ level, Placed hnsw.items e level :=
      fun e he => h e (List.mem_cons_of_mem _ he)
    have hnext : ∀ w, Keeps I X (worstEdge hnsw src rest (i + 1) (some w)) fun r =>
        target :: rest ≠ [] ∨ worst.isSome → r.isSome :=
      fun w => (worstEdge_keeps src rest (i + 1) (some w) hrest).mono fun r hr _ => hr (.inr rfl)
    refine Keeps.bind (distTo_keeps htarget) fun s _ => ?_
    rcases worst with - | ⟨w, worstScore⟩
    · exact hnext _
    · simp only
      split
      · exact hnext _
      · exact hnext _

variable [Serves I X Status.enomem]

/-- **An edge added.** -/
theorem addEdge_spec (hlinked : Linked hnsw.items) {src dst level : Nat}
    (hsrc : Placed hnsw.items src level) (hdst : Placed hnsw.items dst level) :
    Keeps I X (addEdge hnsw src dst level) (EdgeAdded hnsw src dst level) := by
  obtain ⟨list, hlist⟩ := hsrc
  obtain ⟨item, lists, hitem, hlists, hat⟩ := listAt_eq_some.mp hlist
  have hedges : ∀ e ∈ list.edges ++ [dst], Placed hnsw.items e level := by
    intro e he
    rcases List.mem_append.mp he with he | he
    · exact hlinked _ _ _ hlist e he
    · rwa [List.mem_singleton.mp he]
  unfold addEdge
  rw [itemAt_eq hitem, pure_bind, neighborsAt_eq hlist, pure_bind]
  split
  · rename_i hthere
    exact Keeps.pure ⟨rfl, .refl _, rfl,
      ⟨list, list, hlist, hlist, .there (by simpa using hthere)⟩, fun _ _ _ => rfl⟩
  rename_i hnew
  have hdst : dst ∉ list.edges := by simpa using hnew
  extract_lets edges mMax grow
  have hwrite : ∀ (capacity : Nat) (es : List Nat),
      Extended (maxEdges hnsw level) dst list.edges es →
      let lists := (item.neighbors.getD []).set level ⟨es, capacity⟩
      EdgeAdded hnsw src dst level { hnsw with
        items := hnsw.items.set src { item with neighbors := some lists } } := by
    intro capacity es hext
    rw [hlists, Option.getD_some]
    exact edgeAdded_set hitem hlists hat hext
  have hlen : edges.length = list.edges.length + 1 := by
    show (list.edges ++ [dst]).length = _
    rw [List.length_append, List.length_singleton]
  have hgrow : ∀ capacity, Keeps I X (grow capacity) (EdgeAdded hnsw src dst level) := by
    intro capacity
    simp only [grow]
    split
    · rename_i hfull
      change maxEdges hnsw level < edges.length at hfull
      refine Keeps.bind (worstEdge_keeps item _ 0 none fun e he => ⟨level, hedges e he⟩) ?_
      rintro (- | ⟨i, -⟩) hworst
      · have hsome := hworst (.inl (List.ne_nil_of_length_pos (by omega)))
        cases hsome
      · exact Keeps.pure (hwrite _ _ (.pruned hdst (by omega) i))
    · rename_i hroom
      change ¬ maxEdges hnsw level < edges.length at hroom
      exact Keeps.pure (hwrite _ _ (.appended hdst (by omega)))
  split
  · exact Keeps.bind Keeps.allocOr fun _ _ => by rw [pure_bind]; exact hgrow _
  · rw [pure_bind]
    exact hgrow _

end Arithmetic

end Ipa.Hnsw
