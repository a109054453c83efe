import Ipa.Hnsw.Owned

/-!
# Closing an index

`kc_hnsw_close`, and what it leaves of an index after any calls: no block. A block that is not
allocated cannot be freed, so each is freed once.
-/

namespace Ipa.Hnsw

open Cmd (Does)

/-- `free` of an identifier. -/
def releaseText (p : Nat) : Cmd World Status Unit := do
  let w ← Cmd.get
  let _ ← need (w.memory.texts p)
  freeText p

/-- `free` of a vector. -/
def releaseVector (v : Nat) : Cmd World Status Unit := do
  let w ← Cmd.get
  let _ ← need (w.memory.vectors v)
  store fun m => { m with vectors := Function.update m.vectors v none }

/-- `free` of the edge array of one list. -/
def neighborListFree (r level : Nat) : Cmd World Status Unit := do
  let lists ← listsAt r
  let _ ← need lists[level]?
  writeLists r (lists.set level ⟨[], 0⟩)

/-- What an item leads to is freed. It returns the lists whose edge arrays were not, and are lost
with the neighbour array. -/
def closeItem (cell : Cell) : Cmd World Status (List NeighborList) := do
  releaseText cell.id
  releaseVector cell.values
  match cell.neighbors with
  | some r => do
    (List.range (cell.level + 1).toNat).foldlM (fun _ level => neighborListFree r level) ()
    let lists ← listsAt r
    freeLists r
    pure (lists.filter fun list => list.capacity ≠ 0)
  | none => pure []

/-- The calls that close an index; the handle itself is no block of the memory. -/
def closeIn : Cmd World Status (List NeighborList) := do
  let w ← Cmd.get
  let lost ← (List.range w.hnsw.count).foldlM (fun lost i => do
    let q ← need w.hnsw.items
    let array ← arrayAt q
    let cell ← need array.cells[i]?
    let more ← closeItem cell
    pure (lost ++ more)) []
  match w.hnsw.items with
  | some q => freeArray q
  | none => pure ()
  pure lost

/-- No block is allocated. -/
def Memory.Empty (m : Memory) : Prop :=
  (∀ p, m.texts p = none) ∧ (∀ p, m.vectors p = none) ∧ (∀ p, m.arrays p = none) ∧
    ∀ p, m.lists p = none

/-! ## One item -/

section Item

variable {w₀ : World} {P : World → Prop}

theorem releaseText_does {p : Nat} {Q : World → Prop}
    (hlive : ∀ w, P w → (w.memory.texts p).isSome = true)
    (h : ∀ w, P w → Q (w.store fun m => { m with texts := Function.update m.texts p none })) :
    Does P (releaseText p) fun _ => Q := by
  intro w e hw
  obtain ⟨text, htext⟩ := Option.isSome_iff_exists.mp (hlive w hw)
  refine ⟨(), _, ?_, h w hw⟩
  unfold releaseText
  simp only [Cmd.exec_bind, Cmd.exec_get, htext, need, Cmd.exec_pure]
  rfl

theorem releaseVector_does {v : Nat} {Q : World → Prop}
    (hlive : ∀ w, P w → (w.memory.vectors v).isSome = true)
    (h : ∀ w, P w → Q (w.store fun m => { m with vectors := Function.update m.vectors v none })) :
    Does P (releaseVector v) fun _ => Q := by
  intro w e hw
  obtain ⟨values, hvalues⟩ := Option.isSome_iff_exists.mp (hlive w hw)
  refine ⟨(), _, ?_, h w hw⟩
  unfold releaseVector
  simp only [Cmd.exec_bind, Cmd.exec_get, hvalues, need, Cmd.exec_pure]
  rfl

/-- The array `r` of `n` lists, whose first ones have no edge array any more; nothing else
changed. -/
def Emptying (w₁ : World) (r n level : Nat) (w : World) : Prop :=
  ∃ lists : List NeighborList, lists.length = n ∧
    (∀ j list, j < level → lists[j]? = some list → list.capacity = 0) ∧
    w = w₁.store fun m => { m with lists := Function.update m.lists r (some lists) }

theorem Emptying.read {w₁ w : World} {r n level : Nat} (h : Emptying w₁ r n level w) :
    ∃ lists : List NeighborList, w.memory.lists r = some lists ∧ lists.length = n ∧
      ∀ j list, j < level → lists[j]? = some list → list.capacity = 0 := by
  obtain ⟨lists, hlength, hempty, rfl⟩ := h
  exact ⟨lists, Function.update_self .., hlength, hempty⟩

theorem neighborListFree_does {w₁ : World} {r n level : Nat} (hlevel : level < n) :
    Does (Emptying w₁ r n level) (neighborListFree r level) fun _ =>
      Emptying w₁ r n (level + 1) := by
  rintro w e ⟨lists, hlength, hempty, rfl⟩
  obtain ⟨list, hlist⟩ : ∃ list, lists[level]? = some list :=
    ⟨_, List.getElem?_eq_getElem (hlength ▸ hlevel)⟩
  refine ⟨(), _, ?_, lists.set level ⟨[], 0⟩, ?_, fun j list' hj hlist' => ?_, rfl⟩
  · unfold neighborListFree writeLists listsAt
    simp only [Cmd.exec_bind, Cmd.exec_get, World.store, Function.update_self, need, Cmd.exec_pure,
      hlist, store, Cmd.exec_put, Function.update_idem]
  · rw [List.length_set, hlength]
  · by_cases heq : level = j
    · subst heq
      rw [List.getElem?_set_self (hlength ▸ hlevel)] at hlist'
      cases hlist'
      rfl
    · rw [List.getElem?_set_ne heq] at hlist'
      exact hempty j list' (by omega) hlist'

/-- The blocks of the cells are left. -/
structure Remaining (w₀ : World) (cells : List Cell) (w : World) : Prop where
  hnsw : w.hnsw = w₀.hnsw
  arrays : w.memory.arrays = w₀.memory.arrays
  texts : Live w.memory.texts w.memory.next (cells.map Cell.id)
  vectors : Live w.memory.vectors w.memory.next (cells.map Cell.values)
  lists : Live w.memory.lists w.memory.next (cells.filterMap Cell.neighbors)
  sized : w.memory.Sized cells

/-- The neighbour array of an item is freed behind its edge arrays. -/
theorem freeLevels_does {w₁ : World} {r n : Nat} {lists : List NeighborList}
    (hlists : w₁.memory.lists r = some lists) (hlength : lists.length = n) :
    Does (· = w₁) (do
      (List.range n).foldlM (fun _ level => neighborListFree r level) ()
      let lists ← listsAt r
      freeLists r
      pure (lists.filter fun list => list.capacity ≠ 0)) fun lost w => lost = [] ∧
        w = w₁.store fun m => { m with lists := Function.update m.lists r none } := by
  refine Does.bind (Q := fun _ => Emptying w₁ r n n) ?_ fun _ => ?_
  · rintro w e rfl
    have hstart : Emptying w r n 0 w := by
      refine ⟨lists, hlength, fun j _ hj => absurd hj (Nat.not_lt_zero j), ?_⟩
      rw [← hlists, World.store, Function.update_eq_self]
    exact Does.foldlM_range (fun level _ => Emptying w r n level) n
      (fun level hlevel _ => neighborListFree_does hlevel) () w e hstart
  · rintro w e h
    obtain ⟨lists', hlength', hempty, rfl⟩ := h
    have hnone : lists'.filter (fun list => list.capacity ≠ 0) = [] := by
      refine List.filter_eq_nil_iff.mpr fun list hlist => ?_
      obtain ⟨j, hj, rfl⟩ := List.getElem_of_mem hlist
      simp [hempty j _ (hlength' ▸ hj) (List.getElem?_eq_getElem hj)]
    refine ⟨[], _, ?_, rfl, rfl⟩
    unfold freeLists listsAt
    simp only [Cmd.exec_bind, Cmd.exec_get, World.store, Function.update_self, need, Cmd.exec_pure,
      store, Cmd.exec_put, Function.update_idem, hnone]

/-- An item is freed. -/
theorem closeItem_does {cell : Cell} {cells : List Cell} :
    Does (Remaining w₀ (cell :: cells)) (closeItem cell) fun lost w =>
      lost = [] ∧ Remaining w₀ cells w := by
  rintro w e ⟨hhnsw, harrays, htexts, hvectors, hlists, hsized⟩
  rw [List.map_cons] at htexts hvectors
  have hsized' : w.memory.Sized cells := fun c hc => hsized c (List.mem_cons_of_mem _ hc)
  let w₁ := w.store fun m => { m with texts := Function.update m.texts cell.id none }
  let w₂ := w₁.store fun m => { m with vectors := Function.update m.vectors cell.values none }
  have hids : Does (· = w) (releaseText cell.id) fun _ => (· = w₁) := by
    refine releaseText_does ?_ ?_
    · rintro _ rfl
      exact (htexts.isSome _).mpr List.mem_cons_self
    · rintro _ rfl
      rfl
  have hvalues : Does (· = w₁) (releaseVector cell.values) fun _ => (· = w₂) := by
    refine releaseVector_does ?_ ?_
    · rintro _ rfl
      exact (hvectors.isSome _).mpr List.mem_cons_self
    · rintro _ rfl
      rfl
  unfold closeItem
  refine (hids.bind fun _ => hvalues.bind fun _ => ?_) w e rfl
  cases hr : cell.neighbors with
  | none =>
    rw [List.filterMap_cons_none hr] at hlists
    refine Does.pure ?_
    rintro _ rfl
    exact ⟨rfl, hhnsw, harrays, htexts.free, hvectors.free, hlists, hsized'⟩
  | some r =>
    rw [List.filterMap_cons_some hr] at hlists
    obtain ⟨lists, hold⟩ := hlists.exists_block List.mem_cons_self
    have hlength : lists.length = (cell.level + 1).toNat := by
      have := hsized cell List.mem_cons_self r hr lists hold
      omega
    intro w' e' hw'
    obtain ⟨lost, w'', hrun, rfl, rfl⟩ := @freeLevels_does w₂ r _ lists hold hlength w' e' hw'
    refine ⟨_, _, hrun, rfl, hhnsw, harrays, htexts.free, hvectors.free, hlists.free, ?_⟩
    refine hsized'.trimmed fun r' old hold' => ?_
    change Function.update w.memory.lists r none r' = some old at hold'
    by_cases heq : r' = r
    · subst heq
      rw [Function.update_self] at hold'
      cases hold'
    · rwa [Function.update_of_ne heq] at hold'

end Item

/-! ## A whole life -/

section Lives

variable [Arith] {host : Host} {dimension : Nat} {metric : Metric} {w : World}

/-- **Closing frees every block once.** After any calls that left the items their places, served or
not, whatever they returned, the calls that close the index never fault, lose no edge array, and
leave no block. -/
theorem closeIn_frees (h : (lifeIn host dimension metric).Reached (SparesIn host) w) (e : Env) :
    ∃ w', closeIn.exec w e = (.ok [], w', e) ∧ w'.memory.Empty := by
  obtain ⟨array, harray, hcount, hblocks, hsized⟩ := reached_owned h
  -- before cell `i` is freed, it and those behind it are left
  have hloop := @Does.foldlM_range World Status (List NeighborList) (fun lost i => do
      let q ← need w.hnsw.items
      let array ← arrayAt q
      let cell ← need array.cells[i]?
      let more ← closeItem cell
      pure (lost ++ more))
    (fun i lost w' => lost = [] ∧ Remaining w (array.cells.drop i) w') w.hnsw.count ?_ []
  · obtain ⟨lost, w', hrun, rfl, hleft⟩ := hloop w e ⟨rfl, rfl, rfl, hblocks.texts, hblocks.vectors,
      hblocks.lists, hsized⟩
    rw [hcount, List.drop_length] at hleft
    have hempty : ∀ arrays, (∀ q, arrays q = none) →
        Memory.Empty { w'.memory with arrays } :=
      fun arrays harrays => ⟨hleft.texts.eq_none, hleft.vectors.eq_none, harrays, hleft.lists.eq_none⟩
    unfold closeIn
    simp only [Cmd.exec_bind, Cmd.exec_get] at hrun ⊢
    rw [hrun]
    cases hq : w.hnsw.items with
    | none =>
      have harrays := hblocks.arrays
      rw [hq, Option.toList_none] at harrays
      refine ⟨w', rfl, hempty w'.memory.arrays ?_⟩
      rw [hleft.arrays]
      exact harrays.eq_none
    | some q =>
      have harrays := hblocks.arrays
      rw [hq, Option.toList_some] at harrays
      obtain ⟨old, hold⟩ := harrays.exists_block (List.mem_singleton_self q)
      refine ⟨w'.store fun m => { m with arrays := Function.update m.arrays q none }, ?_,
        hempty _ ?_⟩
      · unfold freeArray arrayAt
        simp only [Cmd.exec_bind, Cmd.exec_get, hleft.arrays, hold, need, Cmd.exec_pure]
        rfl
      · rw [hleft.arrays]
        exact harrays.free.eq_none
  · rintro i hi lost w' e' ⟨rfl, hleft⟩
    have hcell : i < array.cells.length := hcount ▸ hi
    obtain ⟨q, hq, hat⟩ : ∃ q, w.hnsw.items = some q ∧ w.memory.arrays q = some array := by
      unfold Memory.arrayOf at harray
      split at harray
      · cases harray
        exact absurd hcell (Nat.not_lt_zero i)
      · exact ⟨_, ‹_›, harray⟩
    rw [List.drop_eq_getElem_cons hcell] at hleft
    obtain ⟨more, w'', hrun, rfl, hleft'⟩ := closeItem_does w' e' hleft
    refine ⟨[], w'', ?_, rfl, hleft'⟩
    unfold arrayAt
    simp only [Cmd.exec_bind, Cmd.exec_get, hq, need, Cmd.exec_pure, hleft.arrays, hat,
      List.getElem?_eq_getElem hcell, hrun]
    rfl

end Lives

/-- Two items are built, and the index is closed. -/
theorem closeIn_frees_built : ∃ w,
    (@lifeIn ieee ⟨.w64, .little⟩ 1 .cosine).Reached (SparesIn ⟨.w64, .little⟩) w ∧
    w.hnsw.count = 2 ∧ w.hnsw.entryPointSet = true ∧
      ∃ w', closeIn.exec w ⟨[], []⟩ = (.ok [], w', ⟨[], []⟩) ∧ w'.memory.Empty := by
  have heval : (let r := (@liveInThrough ieee ⟨.w64, .little⟩ (sparingIn ⟨.w64, .little⟩)
        twoBuilt).exec openedIn ⟨[], []⟩
      r.1.isOk && r.2.1.hnsw.count == 2 && r.2.1.hnsw.entryPointSet) = true := by
    decide +kernel
  rcases hrun : (@liveInThrough ieee ⟨.w64, .little⟩ (sparingIn ⟨.w64, .little⟩) twoBuilt).exec
    openedIn ⟨[], []⟩ with ⟨stop | ⟨⟩, w, e'⟩ <;> rw [hrun] at heval
  · cases heval
  simp only [Bool.and_eq_true, beq_iff_eq] at heval
  obtain ⟨⟨-, hcount⟩, hset⟩ := heval
  have hreached := (@liveInThrough_reached ieee ⟨.w64, .little⟩ 1 .cosine _ _ _ _ _ _
    (.start openedIn_start) hrun).mono fun w op => sparesIn_of_sparingIn
  exact ⟨w, hreached, hcount, hset, @closeIn_frees ieee ⟨.w64, .little⟩ 1 .cosine w hreached _⟩

end Ipa.Hnsw
