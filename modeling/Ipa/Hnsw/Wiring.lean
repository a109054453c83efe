import Ipa.Hnsw.Build

/-!
# The invariant of the graph

`Wired n hnsw` is what holds after the insertion of `n` items: the lists of an item go up to its
level, edges lead to other items that have a list at their level, no list repeats a target or
passes its bound, and the entry point is at the top. One added edge keeps the lists tidy, and one
insertion adds edges and an item without any.
-/

namespace Ipa.Hnsw

open Run

def levelAt (items : List Item) (idx : Nat) : Option Int := items[idx]?.map (·.level)

/-- A list without loops, repetitions or edges beyond its bound. -/
structure ListTidy (bound idx : Nat) (edges : List Nat) : Prop where
  loop : idx ∉ edges
  nodup : edges.Nodup
  degree : edges.length ≤ bound

def Tidy (hnsw : Index) : Prop :=
  ∀ idx level list, listAt hnsw.items idx level = some list →
    ListTidy (maxEdges hnsw level) idx list.edges

theorem levelAt_of_levels {items items' : List Item}
    (h : items'.map (·.level) = items.map (·.level)) (idx : Nat) :
    levelAt items' idx = levelAt items idx := by
  unfold levelAt
  rw [← List.getElem?_map, ← List.getElem?_map, h]

/-! ## Added edges -/

/-- The size of the index and its parameters stay. -/
structure SameFrame (hnsw hnsw' : Index) : Prop where
  length : hnsw'.items.length = hnsw.items.length
  lost : hnsw'.lost = hnsw.lost
  m : hnsw'.m = hnsw.m
  efConstruction : hnsw'.efConstruction = hnsw.efConstruction

theorem SameFrame.count {hnsw hnsw' : Index} (h : SameFrame hnsw hnsw') :
    hnsw'.count = hnsw.count := by
  rw [Index.count, Index.count, h.length, h.lost]

theorem SameFrame.trans {a b c : Index} (hab : SameFrame a b) (hbc : SameFrame b c) :
    SameFrame a c :=
  ⟨hbc.length.trans hab.length, hbc.lost.trans hab.lost, hbc.m.trans hab.m,
    hbc.efConstruction.trans hab.efConstruction⟩

theorem EdgeAdded.frame {hnsw hnsw' : Index} {src dst level : Nat}
    (h : EdgeAdded hnsw src dst level hnsw') : SameFrame hnsw hnsw' := by
  refine ⟨?_, by rw [h.rest], by rw [h.rest], by rw [h.rest]⟩
  have := congrArg List.length h.levels
  rwa [List.length_map, List.length_map] at this

theorem Links.frame {i level : Nat} {best : List Nat} {hnsw hnsw' : Index}
    (h : Links i level best hnsw hnsw') : SameFrame hnsw hnsw' := by
  induction h with
  | nil => exact ⟨rfl, rfl, rfl, rfl⟩
  | cons out back more ih => exact (out.frame.trans back.frame).trans ih

theorem Connected.frame {i levels : Nat} {hnsw hnsw' : Index} (h : Connected i levels hnsw hnsw') :
    SameFrame hnsw hnsw' := by
  induction h with
  | done => exact ⟨rfl, rfl, rfl, rfl⟩
  | level links old found rest ih => exact links.frame.trans ih

theorem frame_seat (hnsw : Index) (n level : Nat) (item : Item) (rngState : UInt64) :
    SameFrame hnsw (seat hnsw n level item rngState) :=
  ⟨List.length_set, rfl, rfl, rfl⟩

theorem Inserted.frame {n : Nat} {hnsw hnsw' : Index} (h : Inserted n hnsw hnsw') :
    SameFrame hnsw hnsw' := by
  cases h with
  | @first item level rngState hitem hset =>
    exact ⟨(frame_seat hnsw n level item rngState).length, rfl, rfl, rfl⟩
  | @linked item level top rngState wired hitem hset hmax hc =>
    obtain ⟨hlength, hlost, hm, hef⟩ := (frame_seat hnsw n level item rngState).trans hc.frame
    split <;> exact ⟨hlength, hlost, hm, hef⟩

theorem Grown.frame {start hnsw : Index} {n : Nat} (h : Grown start n hnsw) :
    SameFrame start hnsw := by
  induction h with
  | zero => exact ⟨rfl, rfl, rfl, rfl⟩
  | insert grown one ih => exact ih.trans one.frame

theorem EdgeAdded.tidy {hnsw hnsw' : Index} {src dst level : Nat}
    (h : EdgeAdded hnsw src dst level hnsw') (hne : src ≠ dst) (ht : Tidy hnsw) : Tidy hnsw' := by
  intro idx l list hlist
  have hbound : maxEdges hnsw' l = maxEdges hnsw l := by
    unfold maxEdges
    rw [h.frame.m]
  rw [hbound]
  by_cases hat : idx = src ∧ l = level
  · obtain ⟨rfl, rfl⟩ := hat
    obtain ⟨old, new, hold, hnew, hext⟩ := h.list
    rw [hnew] at hlist
    cases hlist
    obtain ⟨hloop, hnodup, hdegree⟩ := ht idx l old hold
    exact ⟨fun he => (hext.mem_or he).elim hloop hne, hext.nodup hnodup, hext.length_le hdegree⟩
  · rw [h.others idx l hat] at hlist
    exact ht idx l list hlist

theorem Links.tidy {i level : Nat} {best : List Nat} {hnsw hnsw' : Index}
    (h : Links i level best hnsw hnsw') (hbest : ∀ b ∈ best, b ≠ i) (ht : Tidy hnsw) :
    Tidy hnsw' := by
  induction h with
  | nil => exact ht
  | cons out back more ih =>
    have hne := hbest _ List.mem_cons_self
    exact ih (fun b hb => hbest b (List.mem_cons_of_mem _ hb))
      (back.tidy hne (out.tidy (Ne.symm hne) ht))

theorem Connected.tidy {i levels : Nat} {hnsw hnsw' : Index} (h : Connected i levels hnsw hnsw')
    (ht : Tidy hnsw) : Tidy hnsw' := by
  induction h with
  | done => exact ht
  | level links old found rest ih => exact ih (links.tidy (fun b hb => (old b hb).1) ht)

/-! ## Insertions -/

/-- The index after `n` insertions. -/
structure Wired (n : Nat) (hnsw : Index) : Prop where
  leveled : ∀ i, i < n → ∃ top : Nat, levelAt hnsw.items i = some (top : Int) ∧
    (top : Int) ≤ hnsw.maxLevel ∧ ∀ l, Placed hnsw.items i l ↔ l ≤ top
  fresh : ∀ j, n ≤ j → ∀ l, ¬ Placed hnsw.items j l
  linked : Linked hnsw.items
  tidy : Tidy hnsw
  entry : hnsw.entryPointSet = true →
    hnsw.entryPointIdx < n ∧ levelAt hnsw.items hnsw.entryPointIdx = some hnsw.maxLevel
  started : 0 < n → hnsw.entryPointSet = true

section Seat

variable {hnsw : Index} {n : Nat} {item : Item} (hitem : hnsw.items[n]? = some item) (level : Nat)
  (rngState : UInt64)

include hitem

theorem listAt_seat (idx l : Nat) : listAt (seat hnsw n level item rngState).items idx l =
    if idx = n then (if l ≤ level then some ⟨[], 0⟩ else none) else listAt hnsw.items idx l :=
  listAt_set_fresh (List.getElem?_eq_some_iff.mp hitem).1 item level idx l

theorem levelAt_seat (idx : Nat) : levelAt (seat hnsw n level item rngState).items idx =
    if idx = n then some (level : Int) else levelAt hnsw.items idx := by
  have hlt := (List.getElem?_eq_some_iff.mp hitem).1
  unfold levelAt seat
  simp only
  by_cases hidx : idx = n
  · subst hidx
    rw [List.getElem?_set_self hlt, if_pos rfl]
    rfl
  · rw [List.getElem?_set_ne (Ne.symm hidx), if_neg hidx]

theorem placed_seat (idx l : Nat) : Placed (seat hnsw n level item rngState).items idx l ↔
    if idx = n then l ≤ level else Placed hnsw.items idx l := by
  unfold Placed
  rw [listAt_seat hitem level rngState]
  by_cases hidx : idx = n
  · rw [if_pos hidx, if_pos hidx]
    by_cases hl : l ≤ level
    · simp [hl]
    · simp [hl]
  · rw [if_neg hidx, if_neg hidx]

/-- What is seated: the lists of item `n` are new, and nothing leads to it. -/
theorem Wired.seated (h : Wired n hnsw) :
    Linked (seat hnsw n level item rngState).items ∧ Tidy (seat hnsw n level item rngState) := by
  refine ⟨fun idx l list hlist e he => ?_, fun idx l list hlist => ?_⟩
  · rw [placed_seat hitem level rngState]
    rw [listAt_seat hitem level rngState] at hlist
    split at hlist
    · split at hlist
      · cases hlist
        cases he
      · cases hlist
    · have hp := h.linked idx l list hlist e he
      have hne : e ≠ n := fun heq => h.fresh n (Nat.le_refl _) l (heq ▸ hp)
      rw [if_neg hne]
      exact hp
  · rw [listAt_seat hitem level rngState] at hlist
    split at hlist
    · split at hlist
      · cases hlist
        exact ⟨by simp, List.nodup_nil, Nat.zero_le _⟩
      · cases hlist
    · exact h.tidy idx l list hlist

end Seat

/-- **One insertion** keeps the graph. -/
theorem Wired.insert {n : Nat} {hnsw hnsw' : Index} (h : Wired n hnsw)
    (hins : Inserted n hnsw hnsw') : Wired (n + 1) hnsw' := by
  cases hins with
  | @first item level rngState hitem hset =>
    obtain ⟨hlinked, htidy⟩ := h.seated hitem level rngState
    have hn : n = 0 := by
      by_contra hpos
      rw [h.started (by omega)] at hset
      cases hset
    refine ⟨fun i hi => ⟨level, ?_, Int.le_refl _, fun l => ?_⟩, fun j hj l hp => ?_, hlinked,
      htidy, fun _ => ⟨Nat.lt_succ_self n, ?_⟩, fun _ => rfl⟩
    · exact (levelAt_seat hitem level rngState i).trans (if_pos (by omega))
    · refine (placed_seat hitem level rngState i l).trans ?_
      rw [if_pos (by omega)]
    · have := (placed_seat hitem level rngState j l).mp hp
      rw [if_neg (by omega)] at this
      exact h.fresh j (by omega) l this
    · exact (levelAt_seat hitem level rngState n).trans (if_pos rfl)
  | @linked item level top rngState wired hitem hset hmax hc =>
    obtain ⟨hlinked, htidy⟩ := h.seated hitem level rngState
    have hnew : ∀ l, l < min level top + 1 →
        Placed (seat hnsw n level item rngState).items n l := by
      intro l hl
      rw [placed_seat hitem level rngState, if_pos rfl]
      omega
    have hrelinks := hc.relinks hlinked hnew
    have hlevels : ∀ i, levelAt wired.items i =
        if i = n then some (level : Int) else levelAt hnsw.items i := fun i =>
      (levelAt_of_levels hc.levels i).trans (levelAt_seat hitem level rngState i)
    have hplaced : ∀ i l, Placed wired.items i l ↔
        if i = n then l ≤ level else Placed hnsw.items i l := fun i l =>
      (hrelinks.placed i l).trans (placed_seat hitem level rngState i l)
    obtain ⟨hentry, htop⟩ := h.entry hset
    have hwired := hc.tidy htidy
    have hbelow : ∀ i, i < n + 1 → ∀ max : Int, (level : Int) ≤ max → (top : Int) ≤ max →
        ∃ top : Nat, levelAt wired.items i = some (top : Int) ∧ (top : Int) ≤ max ∧
          ∀ l, Placed wired.items i l ↔ l ≤ top := by
      intro i hi max hlevel hmax'
      by_cases hin : i = n
      · refine ⟨level, by rw [hlevels, if_pos hin], hlevel, fun l => ?_⟩
        rw [hplaced, if_pos hin]
      · obtain ⟨top', hat, hle, hiff⟩ := h.leveled i (by omega)
        refine ⟨top', by rw [hlevels, if_neg hin, hat], by omega, fun l => ?_⟩
        rw [hplaced, if_neg hin]
        exact hiff l
    have hfresh : ∀ j, n + 1 ≤ j → ∀ l, ¬ Placed wired.items j l := by
      intro j hj l hp
      rw [hplaced, if_neg (by omega)] at hp
      exact h.fresh j (by omega) l hp
    obtain ⟨items', rfl, -, hlinked'⟩ := hrelinks
    split
    · rename_i hlt
      exact ⟨fun i hi => hbelow i hi level (Int.le_refl _) (by omega), hfresh, hlinked', hwired,
        fun _ => ⟨Nat.lt_succ_self n, by
          show levelAt items' n = _
          rw [hlevels, if_pos rfl]⟩, fun _ => hset⟩
    · rename_i hle
      refine ⟨fun i hi => hbelow i hi hnsw.maxLevel (by omega) (by omega), hfresh, hlinked', hwired,
        fun _ => ⟨Nat.lt_succ_of_lt hentry, ?_⟩, fun _ => hset⟩
      show levelAt items' hnsw.entryPointIdx = _
      rw [hlevels, if_neg (Nat.ne_of_lt hentry), htop]
      rfl

theorem Unwired.wired {hnsw start : Index} (h : Unwired hnsw start) : Wired 0 start := by
  have hnone := h.not_placed
  refine ⟨fun i hi => absurd hi (Nat.not_lt_zero i), fun j _ => hnone j,
    fun idx level list hlist => absurd ⟨list, hlist⟩ (hnone idx level),
    fun idx level list hlist => absurd ⟨list, hlist⟩ (hnone idx level), fun hset => ?_,
    fun h => absurd h (Nat.lt_irrefl 0)⟩
  rw [h.entryPointSet] at hset
  cases hset

theorem Grown.wired {start : Index} {n : Nat} {hnsw : Index} (h : Grown start n hnsw)
    (hstart : Wired 0 start) : Wired n hnsw := by
  induction h with
  | zero => exact hstart
  | insert grown one ih => exact ih.insert one

/-! ## A built index -/

/-- The graph of an index whose entry point is set. -/
structure GraphSound (hnsw : Index) : Prop where
  lists : ∀ i, i < hnsw.count → ∃ top : Nat, levelAt hnsw.items i = some (top : Int) ∧
    ∀ l, (∃ list, listAt hnsw.items i l = some list) ↔ l ≤ top
  entry : hnsw.entryPointIdx < hnsw.count ∧
    levelAt hnsw.items hnsw.entryPointIdx = some hnsw.maxLevel
  top : ∀ i level, levelAt hnsw.items i = some level → level ≤ hnsw.maxLevel
  edges : ∀ i l list, listAt hnsw.items i l = some list → ∀ e ∈ list.edges,
    e < hnsw.count ∧ e ≠ i ∧ ∃ level, levelAt hnsw.items e = some level ∧ (l : Int) ≤ level
  nodup : ∀ i l list, listAt hnsw.items i l = some list → list.edges.Nodup
  degree : ∀ i l list, listAt hnsw.items i l = some list →
    list.edges.length ≤ if l = 0 then 2 * hnsw.m else hnsw.m

theorem levelAt_lt {items : List Item} {i : Nat} {level : Int}
    (h : levelAt items i = some level) : i < items.length := by
  obtain ⟨item, hitem, -⟩ := Option.map_eq_some_iff.mp h
  exact (List.getElem?_eq_some_iff.mp hitem).1

theorem Wired.sound {hnsw : Index} (h : Wired hnsw.count hnsw)
    (hset : hnsw.entryPointSet = true) : GraphSound hnsw := by
  refine ⟨fun i hi => ?_, h.entry hset, fun i level hlevel => ?_, fun i l list hlist e he => ?_,
    fun i l list hlist => (h.tidy i l list hlist).nodup, fun i l list hlist => ?_⟩
  · obtain ⟨top, hat, -, hiff⟩ := h.leveled i hi
    exact ⟨top, hat, hiff⟩
  · obtain ⟨top, hat, hle, -⟩ := h.leveled i
      (Nat.lt_of_lt_of_le (levelAt_lt hlevel) hnsw.length_le_count)
    rw [hlevel] at hat
    cases hat
    exact hle
  · have hplaced := h.linked i l list hlist e he
    obtain ⟨top, hat, -, hiff⟩ := h.leveled e hplaced.lt_count
    refine ⟨hplaced.lt_count, fun heq => (h.tidy i l list hlist).loop (heq ▸ he), top, hat, ?_⟩
    have := (hiff l).mp hplaced
    omega
  · have := (h.tidy i l list hlist).degree
    unfold maxEdges at this
    rwa [Nat.mul_comm] at this

/-- No insertion loses an item. -/
theorem Grown.length {hnsw start tmp : Index} {n : Nat} (h : Grown start n tmp)
    (hunwired : Unwired hnsw start) : tmp.items.length = hnsw.count := by
  rw [← hunwired.count, Index.count, hunwired.whole.1, Nat.add_zero, h.frame.length]

theorem Assembled.count {hnsw hnsw' : Index} (h : Assembled hnsw hnsw') :
    hnsw'.count = hnsw.count := by
  obtain ⟨start, tmp, hunwired, hgrown, rfl⟩ := h
  change tmp.items.length + hnsw.lost = hnsw.count
  rw [hunwired.whole.2, Nat.add_zero, hgrown.length hunwired]

theorem Assembled.sound {hnsw hnsw' : Index} (h : Assembled hnsw hnsw') (hcount : hnsw.count ≠ 0) :
    hnsw'.entryPointSet = true ∧ GraphSound hnsw' := by
  have hsame := h.count
  obtain ⟨start, tmp, hunwired, hgrown, rfl⟩ := h
  have hwired := hgrown.wired hunwired.wired
  have hframe := hgrown.frame
  have hset := hwired.started (by omega)
  refine ⟨hset, Wired.sound ?_ hset⟩
  have hm : hnsw.m = tmp.m := (hframe.m.trans hunwired.m).symm
  rw [hsame]
  refine ⟨hwired.leveled, hwired.fresh, hwired.linked, fun idx l list hlist => ?_, hwired.entry,
    hwired.started⟩
  have := hwired.tidy idx l list hlist
  unfold maxEdges at this ⊢
  rwa [← hm] at this

end Ipa.Hnsw
