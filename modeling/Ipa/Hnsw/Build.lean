import Ipa.Hnsw.Descent
import Ipa.Hnsw.Edges

/-!
# The build of the index

The build shuffles the items and inserts them one after the other. `Inserted` says what one
insertion does, edge by edge. The build has no fault, and when it returns its items are those it
was given up to their order and their edges, its graph is linked and its entry point is placed at
the highest level.
-/

namespace Ipa.Hnsw

open Run

/-- What one insertion of edges does to the index. -/
def Relinks (hnsw hnsw' : Index) : Prop :=
  ∃ items, hnsw' = { hnsw with items := items } ∧ Rewired hnsw.items items ∧ Linked items

theorem Relinks.trans {a b c : Index} (hab : Relinks a b) (hbc : Relinks b c) : Relinks a c := by
  obtain ⟨items, rfl, hrewired, _⟩ := hab
  obtain ⟨items', rfl, hrewired', hlinked'⟩ := hbc
  exact ⟨items', rfl, hrewired.trans hrewired', hlinked'⟩

theorem Relinks.placed {a b : Index} (h : Relinks a b) (idx level : Nat) :
    Placed b.items idx level ↔ Placed a.items idx level := by
  obtain ⟨items, rfl, hrewired, _⟩ := h
  exact hrewired.placed idx level

theorem Relinks.linked {a b : Index} (h : Relinks a b) : Linked b.items := by
  obtain ⟨items, rfl, _, hlinked⟩ := h
  exact hlinked

theorem EdgeAdded.relinks {hnsw hnsw' : Index} {src dst level : Nat}
    (h : EdgeAdded hnsw src dst level hnsw') (hlinked : Linked hnsw.items)
    (hdst : Placed hnsw.items dst level) : Relinks hnsw hnsw' := by
  refine ⟨hnsw'.items, h.rest, h.rewired, fun idx l list hlist e he => ?_⟩
  rw [h.rewired.placed]
  rcases h.edge hlist he with ⟨old, hold, he⟩ | ⟨rfl, rfl, rfl⟩
  · exact hlinked idx l old hold e he
  · exact hdst

/-- Edges from `i` to each of `best` and back, at one level. -/
inductive Links (i level : Nat) : List Nat → Index → Index → Prop
  | nil {hnsw : Index} : Links i level [] hnsw hnsw
  | cons {b : Nat} {best : List Nat} {hnsw h₁ h₂ hnsw' : Index}
    (out : EdgeAdded hnsw i b level h₁) (back : EdgeAdded h₁ b i level h₂)
    (more : Links i level best h₂ hnsw') : Links i level (b :: best) hnsw hnsw'

namespace Links

variable {i level : Nat} {best : List Nat} {hnsw hnsw' : Index}

theorem relinks (h : Links i level best hnsw hnsw') (hlinked : Linked hnsw.items)
    (hi : Placed hnsw.items i level) (hbest : ∀ b ∈ best, Placed hnsw.items b level) :
    Relinks hnsw hnsw' := by
  induction h with
  | nil => exact ⟨_, rfl, .refl _, hlinked⟩
  | @cons b best hnsw h₁ h₂ hnsw' out back more ih =>
    have hout := out.relinks hlinked (hbest b List.mem_cons_self)
    have h := hout.trans (back.relinks hout.linked ((hout.placed i level).mpr hi))
    exact h.trans (ih h.linked ((h.placed i level).mpr hi) fun b hb =>
      (h.placed b level).mpr (hbest b (List.mem_cons_of_mem _ hb)))

theorem others (h : Links i level best hnsw hnsw') {l : Nat} (hl : l ≠ level) (idx : Nat) :
    listAt hnsw'.items idx l = listAt hnsw.items idx l := by
  induction h with
  | nil => rfl
  | cons out back more ih =>
    rw [ih, back.others idx l fun h => hl h.2, out.others idx l fun h => hl h.2]

theorem levels (h : Links i level best hnsw hnsw') :
    hnsw'.items.map (·.level) = hnsw.items.map (·.level) := by
  induction h with
  | nil => rfl
  | cons out back more ih => rw [ih, back.levels, out.levels]

end Links

/-- Item `i` linked to items placed before it, at the levels below `levels` from the top one
down. -/
inductive Connected (i : Nat) : Nat → Index → Index → Prop
  | done {hnsw : Index} : Connected i 0 hnsw hnsw
  | level {level : Nat} {best : List Nat} {hnsw h₁ hnsw' : Index}
    (links : Links i level best hnsw h₁)
    (old : ∀ b ∈ best, b ≠ i ∧ Placed hnsw.items b level)
    (found : 0 < hnsw.m → 0 < hnsw.efConstruction → best ≠ [])
    (rest : Connected i level h₁ hnsw') : Connected i (level + 1) hnsw hnsw'

theorem Connected.relinks {i levels : Nat} {hnsw hnsw' : Index}
    (h : Connected i levels hnsw hnsw') (hlinked : Linked hnsw.items)
    (hi : ∀ l, l < levels → Placed hnsw.items i l) : Relinks hnsw hnsw' := by
  induction h with
  | done => exact ⟨_, rfl, .refl _, hlinked⟩
  | @level level best hnsw h₁ hnsw' links old found rest ih =>
    have h := links.relinks hlinked (hi level (Nat.lt_succ_self _)) fun b hb => (old b hb).2
    exact h.trans (ih h.linked fun l hl => (h.placed i l).mpr (hi l (by omega)))

theorem Connected.levels {i levels : Nat} {hnsw hnsw' : Index}
    (h : Connected i levels hnsw hnsw') :
    hnsw'.items.map (·.level) = hnsw.items.map (·.level) := by
  induction h with
  | done => rfl
  | level links old found rest ih => rw [ih, links.levels]

/-- Item `n` with the empty lists of its level. -/
def seat (hnsw : Index) (n level : Nat) (item : Item) (rngState : UInt64) : Index :=
  { hnsw with
    items := hnsw.items.set n
      { item with level := (level : Int), neighbors := some (List.replicate (level + 1) ⟨[], 0⟩) }
    rngState }

/-- What the insertion of item `n` does. -/
inductive Inserted (n : Nat) (hnsw : Index) : Index → Prop
  | first {item : Item} {level : Nat} {rngState : UInt64} (hitem : hnsw.items[n]? = some item)
    (hset : hnsw.entryPointSet = false) :
    Inserted n hnsw { seat hnsw n level item rngState with
      entryPointIdx := n, maxLevel := level, entryPointSet := true }
  | linked {item : Item} {level top : Nat} {rngState : UInt64} {hnsw' : Index}
    (hitem : hnsw.items[n]? = some item) (hset : hnsw.entryPointSet = true)
    (hmax : hnsw.maxLevel = top)
    (connected : Connected n (min level top + 1) (seat hnsw n level item rngState) hnsw') :
    Inserted n hnsw
      (if top < level then { hnsw' with maxLevel := level, entryPointIdx := n } else hnsw')

section Arithmetic

variable [Arith] {hnsw : Index}
variable {I : Env → Prop} {X : Stop Status → Prop}

/-- The descent to a new item's level stops there, or does not start. -/
theorem descend_to_keeps (hlinked : Linked hnsw.items) {ok : Nat → Prop}
    (hclosed : Closed hnsw.items ok) {query : List Binary32} {queryNorm : Binary64}
    {level top : Nat} {d : Descent} (hd : OnPath hnsw query queryNorm top d) (hok : ok d.idx) :
    Keeps I X (descend hnsw query queryNorm level ((top : Int) - level).toNat d) fun d' =>
      Placed hnsw.items d'.idx (min level top) ∧ ok d'.idx := by
  by_cases hle : level ≤ top
  · rw [Nat.min_eq_left hle]
    refine (descend_inside hlinked hclosed level _ ?_ hok).mono fun d hd => ⟨hd.1.placed, hd.2⟩
    rwa [show level + ((top : Int) - level).toNat = top by omega]
  · rw [show ((top : Int) - level).toNat = 0 by omega, Nat.min_eq_right (by omega)]
    exact Keeps.pure ⟨hd.placed, hok⟩

variable [Serves I X Status.enomem]

theorem connect_keeps {i level : Nat} : ∀ (sorted : List NodeScore) (connected currIdx : Nat)
    {hnsw : Index}, Linked hnsw.items → Placed hnsw.items i level →
      (∀ x ∈ sorted, Placed hnsw.items x.idx level) →
      Keeps I X (connect i level sorted connected currIdx hnsw) fun r =>
        ∃ best, Links i level best hnsw r.2 ∧ (∀ b ∈ best, ∃ x ∈ sorted, x.idx = b) ∧
          (sorted ≠ [] → connected < hnsw.m → best ≠ []) ∧ (r.1 = currIdx ∨ r.1 ∈ best)
  | [], _, _, _, _, _, _ =>
    Keeps.pure ⟨[], .nil, by simp, fun h => absurd rfl h, .inl rfl⟩
  | x :: rest, connected, currIdx, hnsw, hlinked, hi, hsorted => by
    unfold connect
    have hx := hsorted x List.mem_cons_self
    split
    · refine Keeps.bind (addEdge_spec hlinked hi hx) fun h₁ hout => ?_
      have hr₁ := hout.relinks hlinked hx
      refine Keeps.bind (addEdge_spec hr₁.linked ((hr₁.placed _ _).mpr hx)
        ((hr₁.placed _ _).mpr hi)) fun h₂ hback => ?_
      have hr := hr₁.trans (hback.relinks hr₁.linked ((hr₁.placed _ _).mpr hi))
      refine (connect_keeps rest (connected + 1) (if connected = 0 then x.idx else currIdx)
        hr.linked ((hr.placed _ _).mpr hi)
        (fun y hy => (hr.placed _ _).mpr (hsorted y (List.mem_cons_of_mem _ hy)))).mono ?_
      rintro r ⟨best, hlinks, hbest, -, hcurr⟩
      refine ⟨x.idx :: best, .cons hout hback hlinks, ?_, fun _ _ => List.cons_ne_nil _ _, ?_⟩
      · intro b hb
        rcases List.mem_cons.mp hb with rfl | hb
        · exact ⟨x, List.mem_cons_self, rfl⟩
        · obtain ⟨y, hy, rfl⟩ := hbest b hb
          exact ⟨y, List.mem_cons_of_mem _ hy, rfl⟩
      · rcases hcurr with hcurr | hcurr
        · split at hcurr
          · exact .inr (hcurr ▸ List.mem_cons_self)
          · exact .inl hcurr
        · exact .inr (List.mem_cons_of_mem _ hcurr)
    · rename_i hfull
      exact Keeps.pure ⟨[], .nil, by simp, fun _ h => absurd h hfull, .inl rfl⟩

theorem connectLevels_keeps {i : Nat} (item : Item) : ∀ (levels currIdx : Nat) {hnsw : Index},
    Linked hnsw.items → (∀ l, l < levels → Placed hnsw.items i l) →
      (∀ l, l < levels → Placed hnsw.items currIdx l) → currIdx ≠ i →
      (∀ l, l < levels → ∀ idx list, listAt hnsw.items idx l = some list → i ∉ list.edges) →
      Keeps I X (connectLevels i item levels currIdx hnsw) (Connected i levels hnsw)
  | 0, _, _, _, _, _, _, _ => Keeps.pure .done
  | level + 1, currIdx, hnsw, hlinked, hi, hcurr, hne, hunlinked => by
    unfold connectLevels heapCreate
    have hlt := Nat.lt_succ_self level
    have hinside : Inside hnsw.items level fun idx => idx ≠ i ∧ Placed hnsw.items idx level := by
      refine ⟨fun _ h => h.2, fun idx list _ hlist e he => ⟨?_, hlinked _ _ _ hlist e he⟩⟩
      rintro rfl
      exact hunlinked level hlt idx list hlist he
    simp only [bind_assoc, pure_bind]
    refine Keeps.bind Keeps.allocOr fun _ _ => Keeps.bind Keeps.allocOr fun _ _ => ?_
    refine Keeps.bind (searchLevel_inside hinside ⟨hne, hcurr level hlt⟩ rfl)
      fun candidates ⟨hcandidates, hfed⟩ => Keeps.bind Keeps.allocOr fun _ _ => ?_
    have hperm := Exchange.sort_perm (fun a b : NodeScore =>
      scoreWorse hnsw.metric a.score b.score) candidates.data
    refine Keeps.bind (connect_keeps _ 0 currIdx hlinked (hi level hlt)
      fun x hx => (hcandidates x (hperm.mem_iff.mp hx)).2) ?_
    rintro ⟨next, hnsw'⟩ ⟨best, hlinks, hbest, hfound, hnext⟩
    have hold : ∀ b ∈ best, b ≠ i ∧ Placed hnsw.items b level := by
      intro b hb
      obtain ⟨x, hx, rfl⟩ := hbest b hb
      exact hcandidates x (hperm.mem_iff.mp hx)
    have h := hlinks.relinks hlinked (hi level hlt) fun b hb => (hold b hb).2
    have hnext : next ≠ i ∧ Placed hnsw.items next level := by
      rcases hnext with rfl | hnext
      · exact ⟨hne, hcurr level hlt⟩
      · exact hold next hnext
    refine (connectLevels_keeps item level next h.linked
      (fun l hl => (h.placed _ _).mpr (hi l (by omega)))
      (fun l hl => (h.placed _ _).mpr (hnext.2.mono (by omega))) hnext.1
      fun l hl idx list hlist => ?_).mono fun _ h' => .level hlinks hold ?_ h'
    · rw [hlinks.others (Nat.ne_of_lt hl)] at hlist
      exact hunlinked l (by omega) idx list hlist
    · intro hm hef
      refine hfound (fun hnil => ?_) hm
      have := hperm.length_eq
      rw [hnil] at this
      exact absurd (hfed hef) (by simp [Heap.size, ← this])

/-- The index after the insertion of the first `n` items of `base`. -/
structure Growing (base : List Item) (n : Nat) (hnsw : Index) : Prop where
  bare : hnsw.items.map Item.bare = base
  linked : Linked hnsw.items
  fresh : ∀ j, n ≤ j → ∀ level, ¬ Placed hnsw.items j level
  entry : hnsw.entryPointSet = true →
    ∃ top : Nat, hnsw.maxLevel = top ∧ Placed hnsw.items hnsw.entryPointIdx top
  started : 0 < n → hnsw.entryPointSet = true

omit [Arith] in
/-- The lists a new item gets. -/
theorem listAt_set_fresh {items : List Item} {i : Nat} (hi : i < items.length) (item : Item)
    (level idx l : Nat) :
    listAt (items.set i
        { item with level := (level : Int), neighbors := some (List.replicate (level + 1) ⟨[], 0⟩) })
      idx l =
      if idx = i then (if l ≤ level then some ⟨[], 0⟩ else none) else listAt items idx l := by
  unfold listAt
  by_cases hidx : idx = i
  · subst hidx
    rw [List.getElem?_set_self hi, if_pos rfl]
    simp only [Option.bind_some, List.getElem?_replicate]
    split
    · rw [if_pos (by omega)]
    · rw [if_neg (by omega)]
  · rw [List.getElem?_set_ne (Ne.symm hidx), if_neg hidx]

/-- Item `n` has just received its empty lists, up to `level`. -/
structure Seated (base : List Item) (n level : Nat) (items items' : List Item) : Prop where
  bare : items'.map Item.bare = base
  linked : Linked items'
  fresh : ∀ j, n + 1 ≤ j → ∀ l, ¬ Placed items' j l
  kept : ∀ idx l, Placed items idx l → Placed items' idx l
  new : ∀ l, l ≤ level → Placed items' n l
  unlinked : ∀ idx l list, listAt items' idx l = some list → n ∉ list.edges

omit [Arith] in
theorem Growing.seated {base : List Item} {n : Nat} (h : Growing base n hnsw) {item : Item}
    (hitem : hnsw.items[n]? = some item) (level : Nat) :
    Seated base n level hnsw.items (hnsw.items.set n
      { item with level := (level : Int), neighbors := some (List.replicate (level + 1) ⟨[], 0⟩) })
      := by
  have hlt := (List.getElem?_eq_some_iff.mp hitem).1
  have hat := listAt_set_fresh hlt item level
  have hbare := map_bare_set hitem (show ({ item with
    level := (level : Int), neighbors := some (List.replicate (level + 1) ⟨[], 0⟩) } : Item).bare =
      item.bare from rfl)
  rw [h.bare] at hbare
  generalize hnsw.items.set n _ = items at hat hbare ⊢
  have hkept : ∀ idx l, Placed hnsw.items idx l → Placed items idx l := by
    intro idx l hp
    have hne : idx ≠ n := fun heq => h.fresh n (Nat.le_refl _) l (heq ▸ hp)
    unfold Placed
    rw [hat, if_neg hne]
    exact hp
  refine ⟨hbare, ?_, ?_, hkept, ?_, ?_⟩
  · intro idx l list hlist e he
    rw [hat] at hlist
    split at hlist
    · split at hlist
      · cases hlist
        cases he
      · cases hlist
    · exact hkept e l (h.linked idx l list hlist e he)
  · intro j hj l hp
    unfold Placed at hp
    rw [hat, if_neg (by omega)] at hp
    exact h.fresh j (by omega) l hp
  · intro l hl
    unfold Placed
    rw [hat, if_pos rfl, if_pos hl]
    exact ⟨_, rfl⟩
  · intro idx l list hlist he
    rw [hat] at hlist
    split at hlist
    · split at hlist
      · cases hlist
        cases he
      · cases hlist
    · exact h.fresh n (Nat.le_refl _) l (h.linked idx l list hlist n he)

/-- **One insertion.** -/
theorem insertItem_keeps {base : List Item} {n : Nat} (hn : n < base.length)
    (h : Growing base n hnsw) :
    Keeps I X (insertItem hnsw n) fun hnsw' => Growing base (n + 1) hnsw' ∧ Inserted n hnsw hnsw' := by
  obtain ⟨item, hitem⟩ : ∃ item, hnsw.items[n]? = some item := by
    rw [← h.bare, List.length_map] at hn
    exact ⟨_, List.getElem?_eq_getElem hn⟩
  unfold insertItem
  generalize randomLevel hnsw.rngState = drawn
  obtain ⟨level, rngState⟩ := drawn
  simp only [itemAt_eq hitem, pure_bind]
  refine Keeps.bind Keeps.allocOr fun _ _ => ?_
  have hseated := h.seated hitem level
  split
  · rename_i hset
    simp only [Bool.not_eq_true'] at hset
    exact Keeps.pure ⟨⟨hseated.bare, hseated.linked, hseated.fresh,
      fun _ => ⟨level, rfl, hseated.new level (Nat.le_refl _)⟩, fun _ => rfl⟩, .first hitem hset⟩
  · rename_i hset
    simp only [Bool.not_eq_true', Bool.not_eq_false] at hset
    obtain ⟨top, hmax, hentry⟩ := h.entry hset
    have hne : hnsw.entryPointIdx ≠ n := fun heq => h.fresh n (Nat.le_refl _) top (heq ▸ hentry)
    have hentry := hseated.kept _ _ hentry
    obtain ⟨entry, hentry?⟩ := hentry.getElem?
    rw [distTo_eq hentry?, pure_bind, hmax]
    refine Keeps.bind (descend_to_keeps hseated.linked
      (show Closed _ (· ≠ n) from fun idx l list _ hlist e he heq =>
        hseated.unlinked idx l list hlist (heq ▸ he))
      ⟨hentry, entry, hentry?, rfl⟩ hne) fun d ⟨hd, hdne⟩ => ?_
    have hlevels : ((if (level : Int) < top then (level : Int) else top) + 1).toNat =
        min level top + 1 := by
      split <;> omega
    rw [hlevels]
    refine Keeps.bind (connectLevels_keeps _ _ _ hseated.linked
      (fun l hl => hseated.new l (by omega)) (fun l hl => hd.mono (by omega)) hdne
      fun l _ idx list hlist => hseated.unlinked idx l list hlist) ?_
    rintro hnsw' hconnected
    have hseat : Connected n (min level top + 1) (seat hnsw n level item rngState) hnsw' := by
      unfold seat
      rw [hmax]
      exact hconnected
    have hinserted := Inserted.linked hitem hset hmax hseat
    obtain ⟨items', rfl, hrewired, hlinked'⟩ :=
      hconnected.relinks hseated.linked fun l hl => hseated.new l (by omega)
    have hbare := hrewired.bare.trans hseated.bare
    have hfresh' : ∀ j, n + 1 ≤ j → ∀ l, ¬ Placed items' j l :=
      fun j hj l hp => hseated.fresh j hj l ((hrewired.placed j l).mp hp)
    simp only [Int.ofNat_lt]
    split
    · rename_i hlt
      rw [if_pos hlt] at hinserted
      exact Keeps.pure ⟨⟨hbare, hlinked', hfresh', fun _ =>
        ⟨level, rfl, (hrewired.placed _ _).mpr (hseated.new level (Nat.le_refl _))⟩, fun _ => hset⟩,
        hinserted⟩
    · rename_i hlt
      rw [if_neg hlt] at hinserted
      exact Keeps.pure ⟨⟨hbare, hlinked', hfresh', fun _ =>
        ⟨top, rfl, (hrewired.placed _ _).mpr hentry⟩, fun _ => hset⟩, hinserted⟩

omit [Arith] in
theorem shuffle_perm : ∀ (left i : Nat) (items : List Item) (state : UInt64),
    (shuffle left i items state).1.Perm items
  | 0, _, _, _ => .refl _
  | left + 1, i, items, state => by
    unfold shuffle
    rcases rand64 state with ⟨x, state⟩
    simp only
    generalize i + x.toNat % (items.length - i) = j
    split
    · rename_i a b ha hb
      obtain ⟨hi, rfl⟩ := List.getElem?_eq_some_iff.mp ha
      obtain ⟨hj, rfl⟩ := List.getElem?_eq_some_iff.mp hb
      exact (shuffle_perm left (i + 1) _ _).trans (List.set_set_perm hi hj)
    · exact shuffle_perm left (i + 1) items state

/-- An index on which the searches run: no item is lost, the graph is linked, the entry point is at
the top. -/
structure Ready (hnsw : Index) : Prop where
  whole : hnsw.lost = 0
  linked : Linked hnsw.items
  entry : 0 < hnsw.count → hnsw.entryPointSet = true ∧
    ∃ top : Nat, hnsw.maxLevel = top ∧ Placed hnsw.items hnsw.entryPointIdx top

/-- What the build changes: the order of the items and what belongs to the graph. -/
structure Rebuilt (hnsw hnsw' : Index) : Prop where
  whole : hnsw.lost = 0
  ready : Ready hnsw'
  items : (hnsw'.items.map Item.bare).Perm (hnsw.items.map Item.bare)
  dimension : hnsw'.dimension = hnsw.dimension
  metric : hnsw'.metric = hnsw.metric
  efSearch : hnsw'.efSearch = hnsw.efSearch

omit [Arith] in
theorem Rebuilt.count {hnsw hnsw' : Index} (h : Rebuilt hnsw hnsw') : hnsw'.count = hnsw.count := by
  have hlength := h.items.length_eq
  rw [List.length_map, List.length_map] at hlength
  rw [Index.count, Index.count, h.ready.whole, h.whole, hlength]

/-- The insertions of the first `n` items, from `start` on. -/
inductive Grown (start : Index) : Nat → Index → Prop
  | zero : Grown start 0 start
  | insert {n : Nat} {hnsw hnsw' : Index} (grown : Grown start n hnsw)
    (one : Inserted n hnsw hnsw') : Grown start (n + 1) hnsw'

/-- The items in their new order, without any edge. -/
structure Unwired (hnsw start : Index) : Prop where
  whole : start.lost = 0 ∧ hnsw.lost = 0
  count : start.count = hnsw.count
  bare : ∀ item ∈ start.items, item.bare = item
  m : start.m = hnsw.m
  efConstruction : start.efConstruction = hnsw.efConstruction
  entryPointSet : start.entryPointSet = false

omit [Arith] in
theorem Unwired.not_placed {hnsw start : Index} (h : Unwired hnsw start) (j level : Nat) :
    ¬ Placed start.items j level := by
  rintro ⟨list, hlist⟩
  obtain ⟨item, lists, hitem, hlists, _⟩ := listAt_eq_some.mp hlist
  rw [← h.bare item (List.mem_of_getElem? hitem)] at hlists
  cases hlists

/-- The new index is what the insertions of all items left. -/
def Assembled (hnsw hnsw' : Index) : Prop :=
  ∃ start tmp, Unwired hnsw start ∧ Grown start hnsw.count tmp ∧
    hnsw' = { hnsw with
      items := tmp.items, slots := hnsw.count, maxLevel := tmp.maxLevel
      entryPointIdx := tmp.entryPointIdx, entryPointSet := tmp.entryPointSet
      rngState := tmp.rngState }

/-- **The build** of an index that has lost no item runs in bounds, only reorders the items and
inserts them one by one. -/
theorem build_spec (hnsw : Index) (hlost : hnsw.lost = 0 ∨ X (.fault .index)) :
    Keeps I X (build hnsw) fun hnsw' =>
      Rebuilt hnsw hnsw' ∧ if hnsw.count = 0 then hnsw' = hnsw else Assembled hnsw hnsw' := by
  unfold build
  split
  · rename_i hzero
    obtain ⟨hnone, hwhole⟩ := Nat.add_eq_zero_iff.mp hzero
    have hnil : hnsw.items = [] := List.length_eq_zero_iff.mp hnone
    refine Keeps.pure ⟨⟨hwhole, ⟨hwhole, ?_, fun h => absurd hzero (by omega)⟩, .refl _, rfl, rfl,
      rfl⟩, rfl⟩
    intro idx level list hlist
    rw [hnil] at hlist
    cases hlist
  · rename_i hpos
    refine Keeps.bind Keeps.allocOr fun _ _ => ?_
    split
    · rename_i hgone
      exact Keeps.fault (hlost.resolve_left hgone)
    rename_i hwhole
    rw [Decidable.not_not] at hwhole
    have hperm := shuffle_perm hnsw.count 0 (hnsw.items.map Item.bare) hnsw.rngState
    generalize shuffle hnsw.count 0 (hnsw.items.map Item.bare) hnsw.rngState = shuffled at hperm ⊢
    obtain ⟨base, rngState⟩ := shuffled
    simp only at hperm ⊢
    have hbase : ∀ item ∈ base, item.bare = item := by
      intro item hitem
      obtain ⟨item', _, rfl⟩ := List.mem_map.mp (hperm.mem_iff.mp hitem)
      rfl
    have hlen : base.length = hnsw.count := by
      rw [hperm.length_eq, List.length_map, Index.count, hwhole, Nat.add_zero]
    have hbare : base.map Item.bare = base := by
      conv_rhs => rw [← List.map_id base]
      exact List.map_congr_left hbase
    obtain ⟨start, hstart⟩ : ∃ start : Index, start = { hnsw with
        items := base, maxLevel := -1, entryPointSet := false, rngState } := ⟨_, rfl⟩
    have hunwired : Unwired hnsw start := by
      rw [hstart]
      refine ⟨⟨hwhole, hwhole⟩, ?_, hbase, rfl, rfl, rfl⟩
      change base.length + hnsw.lost = hnsw.count
      rw [hwhole, hlen, Nat.add_zero]
    have hitems : start.items = base := by rw [hstart]
    have hnone := hunwired.not_placed
    rw [hitems] at hnone
    rw [← hstart]
    refine Keeps.bind (Keeps.foldlM_range (fun n hnsw => Growing base n hnsw ∧ Grown start n hnsw)
      ⟨?_, .zero⟩ ?_) fun tmp hleft => ?_
    · rw [hstart]
      exact ⟨hbare, fun idx level list hlist => absurd ⟨list, hlist⟩ (hnone _ _),
        fun j _ => hnone j, fun h => (by cases h), fun h => absurd h (Nat.lt_irrefl _)⟩
    · rintro i hnsw' hi ⟨hdone, hgrown⟩
      exact (insertItem_keeps (by omega) hdone).mono fun _ h => ⟨h.1, .insert hgrown h.2⟩
    · obtain ⟨hgrowing, hgrown⟩ := hleft
      refine Keeps.pure ⟨⟨hwhole, ⟨hwhole, hgrowing.linked, fun _ => ?_⟩, ?_, rfl, rfl, rfl⟩, start,
        tmp, hunwired, hgrown, rfl⟩
      · have hset := hgrowing.started (by omega)
        exact ⟨hset, hgrowing.entry hset⟩
      · show (tmp.items.map Item.bare).Perm _
        rw [hgrowing.bare]
        exact hperm

theorem build_keeps (hnsw : Index) (hlost : hnsw.lost = 0 ∨ X (.fault .index)) :
    Keeps I X (build hnsw) (Rebuilt hnsw) :=
  (build_spec hnsw hlost).mono fun _ h => h.1

end Arithmetic

end Ipa.Hnsw
