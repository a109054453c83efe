import Ipa.Hnsw.Graph
import Ipa.Lib.Climb
import Ipa.Lib.Ieee

/-!
# The descents

The loop of the code at one level is a greedy climb in the graph of that level. `levelBy` is that
loop with any scores in place of the computed ones and any comparison in place of the metric's; in a
linked graph, and where the comparison is a strict order, it ends at a node of the level that is
better than the start or is the start, and no neighbour of it is better. The descents of the search
and of the build are this loop with the scores of the query.
-/

namespace Ipa.Hnsw

open Run

theorem scoreBetter_irrefl (metric : Metric) (a : Binary64) : scoreBetter metric a a = false := by
  cases metric <;> exact Binary64.lt_irrefl a

theorem scoreBetter_trans {metric : Metric} {a b c : Binary64}
    (hab : scoreBetter metric a b = true) (hbc : scoreBetter metric b c = true) :
    scoreBetter metric a c = true := by
  cases metric
  · exact Binary64.lt_trans hbc hab
  · exact Binary64.lt_trans hbc hab
  · exact Binary64.lt_trans hab hbc

theorem scoreBetter_strict (metric : Metric) : Climb.Strict (scoreBetter metric) :=
  ⟨scoreBetter_irrefl metric, fun _ _ _ => scoreBetter_trans⟩

/-! ## Any scores -/

section Scores

variable (better : Binary64 → Binary64 → Bool) (score : Nat → Binary64) (items : List Item)

/-- `descendPass` with the scores `score`. -/
def passBy (edges : List Nat) (d : Descent) : Run Status Descent :=
  edges.foldlM (fun d neighbor => do
    let _ ← itemAt items neighbor
    if better (score neighbor) d.score then pure ⟨neighbor, score neighbor, true⟩ else pure d) d

/-- `descendLevel` with the scores `score`. -/
def levelBy (level : Nat) : Nat → Descent → Run Status Descent
  | 0, _ => fault .fuel
  | fuel + 1, d => do
    let list ← neighborsAt items d.idx level
    let d ← passBy better score items list.edges { d with changed := false }
    if d.changed then levelBy level fuel d else pure d

/-- The targets of the edges of a node. -/
def targets (level idx : Nat) : List Nat := ((listAt items idx level).map (·.edges)).getD []

variable {better items} (h : Climb.Strict better)

include h

/-- A pass of the code is a pass of the climb; it has changed something when it ends better. -/
theorem passBy_eq {edges : List Nat} (hedges : ∀ e ∈ edges, e < items.length) (x : Nat)
    (changed : Bool) : passBy better score items edges ⟨x, score x, changed⟩ =
      pure ⟨Climb.pass better score x edges, score (Climb.pass better score x edges),
        changed || better (score (Climb.pass better score x edges)) (score x)⟩ := by
  induction edges generalizing x changed with
  | nil =>
    change pure _ = pure _
    rw [show Climb.pass better score x [] = x from rfl, h.irrefl, Bool.or_false]
  | cons n rest ih =>
    have hrest := fun e he => hedges e (List.mem_cons_of_mem _ he)
    have hitem := List.getElem?_eq_getElem (hedges n List.mem_cons_self)
    unfold passBy at ih ⊢
    rw [List.foldlM_cons, itemAt_eq hitem, pure_bind, Climb.pass_cons]
    by_cases hbetter : better (score n) (score x) = true
    · rw [if_pos hbetter, if_pos hbetter, pure_bind, ih hrest n true]
      have hmoved : better (score (Climb.pass better score n rest)) (score x) = true := by
        rcases Climb.pass_moves score h n rest with hstay | ⟨-, hmove⟩
        · rw [hstay]
          exact hbetter
        · exact h.trans _ _ _ hmove hbetter
      rw [hmoved, Bool.true_or, Bool.or_true]
    · rw [if_neg hbetter, if_neg hbetter, pure_bind, ih hrest x changed]

/-- The loop of the code is the climb. -/
theorem levelBy_eq (hlinked : Linked items) {level : Nat} (fuel : Nat) {x : Nat}
    (hx : Placed items x level) (changed : Bool) :
    levelBy better score items level fuel ⟨x, score x, changed⟩ =
      match Climb.climb better score (targets items level) fuel x with
      | some best => pure ⟨best, score best, false⟩
      | none => fault .fuel := by
  induction fuel generalizing x changed with
  | zero => rfl
  | succ fuel ih =>
    obtain ⟨list, hlist⟩ := hx
    have hedges : ∀ e ∈ list.edges, Placed items e level := hlinked _ _ _ hlist
    have htargets : targets items level x = list.edges := by
      rw [targets, hlist]
      rfl
    rw [levelBy, neighborsAt_eq hlist, pure_bind,
      passBy_eq score h (fun e he => (hedges e he).lt), pure_bind, Climb.climb, htargets,
      Bool.false_or]
    cases hend : better (score (Climb.pass better score x list.edges)) (score x) with
    | true =>
      have hmem : Climb.pass better score x list.edges ∈ list.edges := by
        rcases Climb.pass_moves score h x list.edges with hstay | ⟨hmem, -⟩
        · rw [hstay, h.irrefl] at hend
          cases hend
        · exact hmem
      rw [if_pos rfl, if_pos rfl]
      exact ih (hedges _ hmem) true
    | false =>
      rw [if_neg Bool.false_ne_true, if_neg Bool.false_ne_true,
        (Climb.pass_stays score h hend).1]

/-- The loop ends after at most as many passes as there are items, and one. -/
theorem levelBy_ends (hlinked : Linked items) {ok : Nat → Prop} {level : Nat}
    (hclosed : ∀ x list, ok x → listAt items x level = some list → ∀ e ∈ list.edges, ok e)
    {x : Nat} (hx : Placed items x level) (hok : ok x) : ∃ best,
      (∀ fuel changed, items.length < fuel →
        levelBy better score items level fuel ⟨x, score x, changed⟩ =
          pure ⟨best, score best, false⟩) ∧
      Placed items best level ∧ ok best ∧
      Climb.Summit better score (targets items level) x best := by
  have hnext : ∀ x, Placed items x level ∧ ok x → ∀ y ∈ targets items level x,
      Placed items y level ∧ ok y := by
    rintro x ⟨⟨list, hlist⟩, hok⟩ y hy
    rw [targets, hlist, Option.map_some, Option.getD_some] at hy
    exact ⟨hlinked _ _ _ hlist y hy, hclosed x list hok hlist y hy⟩
  have hnodes : ∀ x, Placed items x level ∧ ok x → x ∈ List.range items.length :=
    fun x hx => List.mem_range.mpr hx.1.lt
  obtain ⟨best, hclimb, ⟨hplaced, hbest⟩, hsummit⟩ :=
    Climb.climb_ends score h hnext hnodes ⟨hx, hok⟩
  refine ⟨best, fun fuel changed hfuel => ?_, hplaced, hbest, hsummit⟩
  have hrank := Climb.rank_le better score (List.range items.length) (score x)
  rw [List.length_range] at hrank
  rw [levelBy_eq score h hlinked fuel hx, hclimb fuel (by omega)]

end Scores

section Arithmetic

variable [Arith]

section Score

variable (hnsw : Index) (query : List Binary32) (queryNorm : Binary64)

/-- The score of the item at an index. -/
def scoreAt (idx : Nat) : Binary64 :=
  (hnsw.items[idx]?.map (itemScore hnsw.metric query queryNorm)).getD .zero

theorem distTo_scoreAt {idx level : Nat} (h : Placed hnsw.items idx level) :
    distTo hnsw query queryNorm idx = pure (scoreAt hnsw query queryNorm idx) := by
  obtain ⟨item, hitem⟩ := h.getElem?
  rw [distTo_eq hitem, scoreAt, hitem]
  rfl

/-- The score of an item that is there. -/
theorem distTo_bind {α : Type} (idx : Nat) (f : Binary64 → Run Status α) :
    (do let s ← distTo hnsw query queryNorm idx; f s) =
      (do let _ ← itemAt hnsw.items idx; f (scoreAt hnsw query queryNorm idx)) := by
  unfold distTo
  rw [bind_assoc]
  cases hitem : hnsw.items[idx]? with
  | none => rw [itemAt_eq_fault hitem, fault_bind, fault_bind]
  | some item =>
    rw [itemAt_eq hitem, pure_bind, pure_bind, pure_bind, scoreAt, hitem]
    rfl

theorem descendPass_eq (edges : List Nat) (d : Descent) : descendPass hnsw query queryNorm edges d =
    passBy (scoreBetter hnsw.metric) (scoreAt hnsw query queryNorm) hnsw.items edges d := by
  unfold descendPass passBy
  congr 1
  funext d neighbor
  exact distTo_bind hnsw query queryNorm neighbor _

/-- The descent of the code at one level is the loop with the scores of the query. -/
theorem descendLevel_eq (level : Nat) : ∀ (fuel : Nat) (d : Descent),
    descendLevel hnsw query queryNorm level fuel d =
      levelBy (scoreBetter hnsw.metric) (scoreAt hnsw query queryNorm) hnsw.items level fuel d
  | 0, _ => rfl
  | fuel + 1, d => by
    unfold descendLevel levelBy
    refine bind_congr fun list => ?_
    rw [descendPass_eq]
    refine bind_congr fun d => ?_
    rw [descendLevel_eq level fuel d]

end Score

variable {hnsw : Index} {query : List Binary32} {queryNorm : Binary64}
variable {I : Env → Prop} {X : Stop Status → Prop}

/-! ## The levels -/

/-- A node of the descent, placed at the level and carrying its own score. -/
structure OnPath (hnsw : Index) (query : List Binary32) (queryNorm : Binary64) (level : Nat)
    (d : Descent) : Prop where
  placed : Placed hnsw.items d.idx level
  scored : ∃ item, hnsw.items[d.idx]? = some item ∧
    d.score = itemScore hnsw.metric query queryNorm item

theorem OnPath.mono {level low : Nat} {d : Descent} (h : OnPath hnsw query queryNorm level d)
    (hle : low ≤ level) : OnPath hnsw query queryNorm low d :=
  ⟨h.placed.mono hle, h.scored⟩

/-- Edges of all levels lead from nodes in `ok` to nodes in `ok`. -/
def Closed (items : List Item) (ok : Nat → Prop) : Prop :=
  ∀ idx level list, ok idx → listAt items idx level = some list → ∀ e ∈ list.edges, ok e

variable {ok : Nat → Prop}

theorem OnPath.score_eq {level : Nat} {d : Descent} (h : OnPath hnsw query queryNorm level d) :
    d.score = scoreAt hnsw query queryNorm d.idx := by
  obtain ⟨item, hitem, hscore⟩ := h.scored
  rw [hscore, scoreAt, hitem]
  rfl

theorem onPath_of_placed {level idx : Nat} (h : Placed hnsw.items idx level) (changed : Bool) :
    OnPath hnsw query queryNorm level ⟨idx, scoreAt hnsw query queryNorm idx, changed⟩ := by
  obtain ⟨item, hitem⟩ := h.getElem?
  refine ⟨h, item, hitem, ?_⟩
  rw [scoreAt, hitem]
  rfl

theorem descendLevel_keeps (hlinked : Linked hnsw.items) (hclosed : Closed hnsw.items ok)
    {level fuel : Nat} {d : Descent} (hd : OnPath hnsw query queryNorm level d) (hok : ok d.idx)
    (hfuel : hnsw.count < fuel) :
    Keeps I X (descendLevel hnsw query queryNorm level fuel d) fun d' =>
      OnPath hnsw query queryNorm level d' ∧ ok d'.idx := by
  obtain ⟨best, hends, hplaced, hbest, -⟩ := levelBy_ends (scoreAt hnsw query queryNorm)
    (scoreBetter_strict hnsw.metric) hlinked (fun x list => hclosed x level list) hd.placed hok
  have hrun := hends fuel d.changed (Nat.lt_of_le_of_lt hnsw.length_le_count hfuel)
  rw [← hd.score_eq, ← descendLevel_eq] at hrun
  rw [hrun]
  exact Keeps.pure ⟨onPath_of_placed hplaced false, hbest⟩

theorem descend_inside (hlinked : Linked hnsw.items) (hclosed : Closed hnsw.items ok) (low : Nat) :
    ∀ (steps : Nat) {d : Descent}, OnPath hnsw query queryNorm (low + steps) d → ok d.idx →
      Keeps I X (descend hnsw query queryNorm low steps d) fun d' =>
        OnPath hnsw query queryNorm low d' ∧ ok d'.idx
  | 0, _, hd, hok => Keeps.pure ⟨hd, hok⟩
  | steps + 1, d, hd, hok => by
    unfold descend
    refine Keeps.bind (descendLevel_keeps hlinked hclosed hd hok (Nat.lt_succ_self _))
      fun d' hd' => ?_
    exact descend_inside hlinked hclosed low steps (hd'.1.mono (by omega)) hd'.2

theorem descend_keeps (hlinked : Linked hnsw.items) (low steps : Nat) {d : Descent}
    (hd : OnPath hnsw query queryNorm (low + steps) d) :
    Keeps I X (descend hnsw query queryNorm low steps d) fun d' =>
      OnPath hnsw query queryNorm low d' :=
  (descend_inside hlinked (show Closed hnsw.items fun _ => True from fun _ _ _ _ _ _ _ => trivial)
    low steps hd trivial).mono fun _ h => h.1

/-- Where a descent at a level ends: at a node of the level, the start or a better one, that no
neighbour at the level is better than. -/
structure Descended (better : Binary64 → Binary64 → Bool) (score : Nat → Binary64)
    (items : List Item) (level start best : Nat) : Prop where
  placed : Placed items best level
  rises : best = start ∨ better (score best) (score start) = true
  optimal : ∀ list, listAt items best level = some list →
    ∀ e ∈ list.edges, better (score e) (score best) = false

omit [Arith] in
theorem levelBy_descended {better : Binary64 → Binary64 → Bool} (score : Nat → Binary64)
    (h : Climb.Strict better) {items : List Item} (hlinked : Linked items) {level start : Nat}
    (hstart : Placed items start level) : ∃ best,
      (∀ fuel, items.length < fuel →
        levelBy better score items level fuel ⟨start, score start, true⟩ =
          pure ⟨best, score best, false⟩) ∧
      Descended better score items level start best := by
  have hclosed : ∀ (x : Nat) (list : NeighborList), True → listAt items x level = some list →
      ∀ e ∈ list.edges, True := fun _ _ _ _ _ _ => trivial
  obtain ⟨best, hends, hplaced, -, hrises, hoptimal⟩ :=
    levelBy_ends score h hlinked hclosed hstart trivial
  refine ⟨best, fun fuel hfuel => hends fuel true hfuel, hplaced, hrises, fun list hlist e he => ?_⟩
  apply hoptimal
  rw [targets, hlist]
  exact he

/-- **The descent at one level**, in a graph whose edges lead to nodes of their level: with any scores
and any strict order, and so with the scores of a query and the order of the metric, the loop ends by
itself, with no fault, at a local optimum. -/
theorem descent_ends (hlinked : Linked hnsw.items) {level start : Nat}
    (hstart : Placed hnsw.items start level) :
    (∀ (better : Binary64 → Binary64 → Bool) (score : Nat → Binary64), Climb.Strict better →
      ∃ best, (∀ fuel, hnsw.count < fuel →
        levelBy better score hnsw.items level fuel ⟨start, score start, true⟩ =
          pure ⟨best, score best, false⟩) ∧
        Descended better score hnsw.items level start best) ∧
    ∀ (query : List Binary32) (queryNorm : Binary64),
      ∃ best, (∀ fuel, hnsw.count < fuel →
        descendLevel hnsw query queryNorm level fuel
          ⟨start, scoreAt hnsw query queryNorm start, true⟩ =
          pure ⟨best, scoreAt hnsw query queryNorm best, false⟩) ∧
        Descended (scoreBetter hnsw.metric) (scoreAt hnsw query queryNorm) hnsw.items level start
          best := by
  refine ⟨fun better score h => ?_, fun query queryNorm => ?_⟩
  · obtain ⟨best, hends, hdescended⟩ := levelBy_descended score h hlinked hstart
    exact ⟨best, fun fuel hfuel => hends fuel (Nat.lt_of_le_of_lt hnsw.length_le_count hfuel),
      hdescended⟩
  obtain ⟨best, hends, hdescended⟩ := levelBy_descended (scoreAt hnsw query queryNorm)
    (scoreBetter_strict hnsw.metric) hlinked hstart
  refine ⟨best, fun fuel hfuel => ?_, hdescended⟩
  rw [descendLevel_eq]
  exact hends fuel (Nat.lt_of_le_of_lt hnsw.length_le_count hfuel)

end Arithmetic

/-- Two items, linked at two levels. -/
def pairIndex : Index where
  dimension := 1
  metric := .l2
  items := [⟨⟨ascii "a", by decide⟩, [⟨0x40000000⟩], ⟨0x4000000000000000⟩, 1,
      some [⟨[1], 4⟩, ⟨[1], 4⟩]⟩,
    ⟨⟨ascii "b", by decide⟩, [⟨0x3F800000⟩], ⟨0x3FF0000000000000⟩, 1, some [⟨[0], 4⟩, ⟨[0], 4⟩]⟩]
  lost := 0
  slots := 8
  capacity := 8
  maxLevel := 1
  entryPointIdx := 0
  entryPointSet := true
  m := 16
  efConstruction := 64
  efSearch := 64
  rngState := 1

theorem pairIndex_linked : Linked pairIndex.items := by
  have hplaced : ∀ idx < 2, ∀ level < 2, (listAt pairIndex.items idx level).isSome = true := by
    decide
  have hedges : ∀ idx < 2, ∀ level < 2,
      ((listAt pairIndex.items idx level).all fun list => list.edges.all (· < 2)) = true := by
    decide
  intro idx level list hlist e he
  have hidx : idx < 2 := Placed.lt ⟨list, hlist⟩
  have hlevel : level < 2 := by
    obtain ⟨item, lists, hitem, hlists, hat⟩ := listAt_eq_some.mp hlist
    have hlength : ∀ item ∈ pairIndex.items,
        (item.neighbors.all fun lists => lists.length == 2) = true := by decide
    have hitems := hlength item (List.mem_of_getElem? hitem)
    rw [hlists, Option.all_some, beq_iff_eq] at hitems
    exact hitems ▸ (List.getElem?_eq_some_iff.mp hat).1
  have hlt := hedges idx hidx level hlevel
  rw [hlist, Option.all_some, List.all_eq_true] at hlt
  exact Option.isSome_iff_exists.mp (hplaced e (of_decide_eq_true (hlt e he)) level hlevel)

/-- From the first item, for a query at the place of the second. -/
theorem descent_ends_pair : ∃ best,
    @descendLevel ieee pairIndex [⟨0x3F800000⟩] ⟨0x3FF0000000000000⟩ 1 3
      ⟨0, @scoreAt ieee pairIndex [⟨0x3F800000⟩] ⟨0x3FF0000000000000⟩ 0, true⟩ =
      pure ⟨best, @scoreAt ieee pairIndex [⟨0x3F800000⟩] ⟨0x3FF0000000000000⟩ best, false⟩ ∧
    Descended (scoreBetter .l2) (@scoreAt ieee pairIndex [⟨0x3F800000⟩] ⟨0x3FF0000000000000⟩)
      pairIndex.items 1 0 best := by
  obtain ⟨best, hends, hdescended⟩ := (@descent_ends ieee pairIndex pairIndex_linked 1 0
    ⟨_, rfl⟩).2 [⟨0x3F800000⟩] ⟨0x3FF0000000000000⟩
  exact ⟨best, hends 3 (by decide), hdescended⟩

end Ipa.Hnsw
