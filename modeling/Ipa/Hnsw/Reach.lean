import Ipa.Hnsw.Calls
import Mathlib.Logic.Relation

/-!
# Which items the graph reaches

An item is linked both ways to items inserted before it, so all items are connected until a list
overflows and one of its edges is dropped, in one direction only. At level 0 that takes a list of
`2M` other items, so `2M + 2` items in all.
-/

namespace Ipa.Hnsw

open Run Relation

/-- An edge of any level. -/
def Edge (items : List Item) (a b : Nat) : Prop :=
  ∃ level list, listAt items a level = some list ∧ b ∈ list.edges

/-- An edge of level 0. -/
def BaseEdge (items : List Item) (a b : Nat) : Prop :=
  ∃ list, listAt items a 0 = some list ∧ b ∈ list.edges

theorem BaseEdge.edge {items : List Item} {a b : Nat} (h : BaseEdge items a b) : Edge items a b :=
  ⟨0, h⟩

/-- A list of level 0 has reached its bound, among at least two items more than that. -/
structure Crowded (hnsw : Index) : Prop where
  full : ∃ idx list, listAt hnsw.items idx 0 = some list ∧ hnsw.m * 2 ≤ list.edges.length
  count : hnsw.m * 2 + 2 ≤ hnsw.count

theorem Crowded.added {hnsw hnsw' : Index} {src dst level : Nat} (hc : Crowded hnsw)
    (h : EdgeAdded hnsw src dst level hnsw') : Crowded hnsw' := by
  obtain ⟨idx, list, hlist, hfull⟩ := hc.full
  have hframe := h.frame
  refine ⟨?_, by rw [hframe.m, hframe.count]; exact hc.count⟩
  rw [hframe.m]
  by_cases hat : idx = src ∧ 0 = level
  · obtain ⟨rfl, rfl⟩ := hat
    obtain ⟨old, new, hold, hnew, hext⟩ := h.list
    rw [hlist] at hold
    cases hold
    exact ⟨idx, new, hnew, hext.le_length hfull⟩
  · exact ⟨idx, list, by rw [h.others idx 0 hat]; exact hlist, hfull⟩

/-- A list of other items is shorter than the index by the item itself and the target. -/
theorem length_add_two_le {edges : List Nat} {src dst count : Nat} (hnodup : edges.Nodup)
    (hlt : ∀ e ∈ edges, e < count) (hsrc : src ∉ edges) (hdst : dst ∉ edges) (hne : src ≠ dst)
    (hs : src < count) (hd : dst < count) : edges.length + 2 ≤ count := by
  have hall : (src :: dst :: edges).Nodup := by
    rw [List.nodup_cons, List.nodup_cons]
    refine ⟨fun h => ?_, hdst, hnodup⟩
    rcases List.mem_cons.mp h with h | h
    · exact hne h
    · exact hsrc h
  have hsub : (src :: dst :: edges) ⊆ List.range count := by
    intro e he
    rw [List.mem_range]
    rcases List.mem_cons.mp he with rfl | he
    · exact hs
    rcases List.mem_cons.mp he with rfl | he
    · exact hd
    · exact hlt e he
  have := hall.length_le_of_subset hsub
  rwa [List.length_range] at this

/-- The edge is there and no other is lost, or a list is full. -/
theorem EdgeAdded.base {hnsw hnsw' : Index} {src dst : Nat}
    (h : EdgeAdded hnsw src dst 0 hnsw') (hlinked : Linked hnsw.items) (htidy : Tidy hnsw)
    (hne : src ≠ dst) (hdst : Placed hnsw.items dst 0) :
    Crowded hnsw' ∨
      (BaseEdge hnsw'.items src dst ∧
        ∀ a b, BaseEdge hnsw.items a b → BaseEdge hnsw'.items a b) := by
  obtain ⟨old, new, hold, hnew, hext⟩ := h.list
  obtain ⟨hloop, hnodup, -⟩ := htidy src 0 old hold
  have hkeep : (∀ e ∈ old.edges, e ∈ new.edges) →
      ∀ a b, BaseEdge hnsw.items a b → BaseEdge hnsw'.items a b := by
    rintro hsub a b ⟨list, hlist, hb⟩
    by_cases hat : a = src ∧ 0 = 0
    · obtain ⟨rfl, -⟩ := hat
      rw [hold] at hlist
      cases hlist
      exact ⟨new, hnew, hsub b hb⟩
    · exact ⟨list, by rw [h.others a 0 hat]; exact hlist, hb⟩
  have hframe := h.frame
  rcases old with ⟨oldEdges, oldCap⟩
  rcases new with ⟨newEdges, newCap⟩
  simp only at hext hloop hnodup hkeep
  cases hext with
  | there hmem => exact .inr ⟨⟨_, hnew, hmem⟩, hkeep fun e he => he⟩
  | appended hnot hlen => exact .inr ⟨⟨_, hnew, by simp⟩, hkeep fun e he => by simp [he]⟩
  | pruned hnot hlen i =>
    have hlt : ∀ e ∈ oldEdges, e < hnsw.count := fun e he => (hlinked src 0 _ hold e he).lt_count
    have hsrc : src < hnsw.count := Placed.lt_count ⟨_, hold⟩
    have := length_add_two_le hnodup hlt hloop hnot hne hsrc hdst.lt_count
    change hnsw.m * 2 ≤ oldEdges.length at hlen
    refine .inl ⟨⟨src, _, hnew, ?_⟩, ?_⟩
    · rw [hframe.m]
      exact (Extended.pruned hnot hlen i).le_length hlen
    · rw [hframe.m, hframe.count]
      omega

/-- The links of an item at level 0: it is tied to one of them both ways. -/
theorem Links.base {i : Nat} {best : List Nat} {hnsw hnsw' : Index}
    (h : Links i 0 best hnsw hnsw') (hlinked : Linked hnsw.items) (htidy : Tidy hnsw)
    (hi : Placed hnsw.items i 0) (hbest : ∀ b ∈ best, b ≠ i ∧ Placed hnsw.items b 0) :
    (Crowded hnsw → Crowded hnsw') ∧
      (Crowded hnsw' ∨ ((∀ a b, BaseEdge hnsw.items a b → BaseEdge hnsw'.items a b) ∧
        ∀ b ∈ best, BaseEdge hnsw'.items i b ∧ BaseEdge hnsw'.items b i)) := by
  induction h with
  | nil => exact ⟨id, .inr ⟨fun _ _ h => h, by simp⟩⟩
  | @cons b best hnsw h₁ h₂ hnsw' out back more ih =>
    obtain ⟨hne, hb⟩ := hbest b List.mem_cons_self
    have hr₁ := out.relinks hlinked hb
    have ht₁ := out.tidy (Ne.symm hne) htidy
    have hi₁ := (hr₁.placed i 0).mpr hi
    have hr₂ := hr₁.trans (back.relinks hr₁.linked hi₁)
    obtain ⟨hkeep, hrest⟩ := ih hr₂.linked (back.tidy hne ht₁) ((hr₂.placed i 0).mpr hi)
      fun c hc => ⟨(hbest c (List.mem_cons_of_mem _ hc)).1,
        (hr₂.placed c 0).mpr (hbest c (List.mem_cons_of_mem _ hc)).2⟩
    refine ⟨fun hc => hkeep ((hc.added out).added back), ?_⟩
    rcases out.base hlinked htidy (Ne.symm hne) hb with hc | ⟨hout, hmono₁⟩
    · exact .inl (hkeep (hc.added back))
    rcases back.base hr₁.linked ht₁ hne hi₁ with hc | ⟨hback, hmono₂⟩
    · exact .inl (hkeep hc)
    rcases hrest with hc | ⟨hmono, hties⟩
    · exact .inl hc
    refine .inr ⟨fun a c h => hmono a c (hmono₂ a c (hmono₁ a c h)), fun c hc => ?_⟩
    rcases List.mem_cons.mp hc with rfl | hc
    · exact ⟨hmono _ _ (hmono₂ _ _ hout), hmono _ _ hback⟩
    · exact hties c hc

theorem baseEdge_congr {items items' : List Item}
    (h : ∀ idx, listAt items' idx 0 = listAt items idx 0) (a b : Nat) :
    BaseEdge items' a b ↔ BaseEdge items a b := by
  unfold BaseEdge
  rw [h]

theorem Crowded.congr {hnsw hnsw' : Index} (hc : Crowded hnsw)
    (h : ∀ idx, listAt hnsw'.items idx 0 = listAt hnsw.items idx 0)
    (hframe : SameFrame hnsw hnsw') : Crowded hnsw' := by
  obtain ⟨idx, list, hlist, hfull⟩ := hc.full
  exact ⟨⟨idx, list, (h idx).trans hlist, by rw [hframe.m]; exact hfull⟩,
    by rw [hframe.m, hframe.count]; exact hc.count⟩

/-- An item connected down to level 0 is tied to an item before it. -/
theorem Connected.base {i levels : Nat} {hnsw hnsw' : Index} (h : Connected i levels hnsw hnsw')
    (hlevels : 0 < levels) (hm : 0 < hnsw.m) (hef : 0 < hnsw.efConstruction)
    (hlinked : Linked hnsw.items) (htidy : Tidy hnsw)
    (hi : ∀ l, l < levels → Placed hnsw.items i l) :
    (Crowded hnsw → Crowded hnsw') ∧
      (Crowded hnsw' ∨ ((∀ a b, BaseEdge hnsw.items a b → BaseEdge hnsw'.items a b) ∧
        ∃ b, b ≠ i ∧ Placed hnsw.items b 0 ∧ BaseEdge hnsw'.items i b ∧
          BaseEdge hnsw'.items b i)) := by
  induction h with
  | done => omega
  | @level level best hnsw h₁ hnsw' links old found rest ih =>
    have hframe := links.frame
    have hrelinks := links.relinks hlinked (hi level (Nat.lt_succ_self _)) fun b hb => (old b hb).2
    rcases Nat.eq_zero_or_pos level with rfl | hpos
    · cases rest with
      | done =>
        obtain ⟨hkeep, hbase⟩ := links.base hlinked htidy (hi 0 hlevels) old
        refine ⟨hkeep, hbase.imp_right fun ⟨hmono, hties⟩ => ⟨hmono, ?_⟩⟩
        obtain ⟨b, hb⟩ := List.exists_mem_of_ne_nil best (found hm hef)
        exact ⟨b, (old b hb).1, (old b hb).2, hties b hb⟩
    · have hothers := links.others (Nat.ne_of_lt hpos)
      obtain ⟨hkeep, hbase⟩ := ih hpos (by rw [hframe.m]; exact hm)
        (by rw [hframe.efConstruction]; exact hef) hrelinks.linked
        (links.tidy (fun b hb => (old b hb).1) htidy)
        fun l hl => (hrelinks.placed i l).mpr (hi l (by omega))
      refine ⟨fun hc => hkeep (hc.congr hothers hframe), hbase.imp_right ?_⟩
      rintro ⟨hmono, b, hb, hplaced, hties⟩
      exact ⟨fun a c h => hmono a c ((baseEdge_congr hothers a c).mpr h), b, hb,
        (hrelinks.placed b 0).mp hplaced, hties⟩

/-! ## The build -/

/-- The items inserted so far are connected at level 0, or a list is full. -/
def Joined (n : Nat) (hnsw : Index) : Prop :=
  Crowded hnsw ∨ ∀ i j, i < n → j < n → ReflTransGen (BaseEdge hnsw.items) i j

theorem Joined.congr {n : Nat} {hnsw hnsw' : Index} (h : Joined n hnsw)
    (hitems : hnsw'.items = hnsw.items) (hlost : hnsw'.lost = hnsw.lost) (hm : hnsw'.m = hnsw.m) :
    Joined n hnsw' := by
  rcases h with ⟨hfull, hcount⟩ | h
  · refine .inl ⟨?_, ?_⟩
    · rw [hitems, hm]
      exact hfull
    · rw [hm, Index.count, hitems, hlost]
      exact hcount
  · refine .inr ?_
    rw [hitems]
    exact h

theorem Joined.insert {n : Nat} {hnsw hnsw' : Index} (h : Joined n hnsw) (hw : Wired n hnsw)
    (hm : 0 < hnsw.m) (hef : 0 < hnsw.efConstruction) (hins : Inserted n hnsw hnsw') :
    Joined (n + 1) hnsw' := by
  cases hins with
  | @first item level rngState hitem hset =>
    have hn : n = 0 := by
      by_contra hpos
      rw [hw.started (by omega)] at hset
      cases hset
    refine .inr fun i j hi hj => ?_
    rw [show i = j by omega]
  | @linked item level top rngState wired hitem hset hmax hc =>
    obtain ⟨hlinked, htidy⟩ := hw.seated hitem level rngState
    have hplaced := placed_seat hitem level rngState
    have hseat : ∀ a b, BaseEdge hnsw.items a b →
        BaseEdge (seat hnsw n level item rngState).items a b := by
      rintro a b ⟨list, hlist, hb⟩
      have hne : a ≠ n := fun heq => hw.fresh n (Nat.le_refl _) 0 ⟨list, heq ▸ hlist⟩
      exact ⟨list, by rw [listAt_seat hitem level rngState, if_neg hne]; exact hlist, hb⟩
    have hcrowded : Crowded hnsw → Crowded (seat hnsw n level item rngState) := by
      rintro ⟨⟨idx, list, hlist, hfull⟩, hcount⟩
      have hne : idx ≠ n := fun heq => hw.fresh n (Nat.le_refl _) 0 ⟨list, heq ▸ hlist⟩
      refine ⟨⟨idx, list, ?_, hfull⟩, ?_⟩
      · rw [listAt_seat hitem level rngState, if_neg hne]
        exact hlist
      · rw [(frame_seat hnsw n level item rngState).count]
        exact hcount
    obtain ⟨hkeep, hbase⟩ := hc.base (Nat.succ_pos _) hm hef hlinked htidy fun l hl => by
      rw [hplaced, if_pos rfl]
      omega
    have hjoined : Joined (n + 1) wired := by
      rcases h with hcr | hconn
      · exact .inl (hkeep (hcrowded hcr))
      rcases hbase with hcr | ⟨hmono, b, hne, hb, hout, hback⟩
      · exact .inl hcr
      have hbn : b < n := by
        rw [hplaced, if_neg hne] at hb
        by_contra hle
        exact hw.fresh b (by omega) 0 hb
      have hold : ∀ i j, i < n → j < n → ReflTransGen (BaseEdge wired.items) i j :=
        fun i j hi hj => ReflTransGen.mono (fun a c hac => hmono a c (hseat a c hac)) _ _
          (hconn i j hi hj)
      refine .inr fun i j hi hj => ?_
      rcases Nat.lt_succ_iff_lt_or_eq.mp hi with hi | rfl
      · rcases Nat.lt_succ_iff_lt_or_eq.mp hj with hj | rfl
        · exact hold i j hi hj
        · exact (hold i b hi hbn).tail hback
      · rcases Nat.lt_succ_iff_lt_or_eq.mp hj with hj | rfl
        · exact ReflTransGen.head hout (hold b j hbn hj)
        · exact .refl
    split
    · exact hjoined.congr rfl rfl rfl
    · exact hjoined

theorem Grown.joined {start hnsw : Index} {n : Nat} (h : Grown start n hnsw)
    (hstart : Wired 0 start) (hm : 0 < start.m) (hef : 0 < start.efConstruction) :
    Joined n hnsw := by
  induction h with
  | zero => exact .inr fun i j hi => absurd hi (Nat.not_lt_zero i)
  | insert grown one ih =>
    have hframe := grown.frame
    exact ih.insert (grown.wired hstart) (by rw [hframe.m]; exact hm)
      (by rw [hframe.efConstruction]; exact hef) one

theorem Assembled.joined {hnsw hnsw' : Index} (h : Assembled hnsw hnsw') (hm : 0 < hnsw.m)
    (hef : 0 < hnsw.efConstruction) : hnsw'.m = hnsw.m ∧ Joined hnsw'.count hnsw' := by
  obtain ⟨start, tmp, hunwired, hgrown, rfl⟩ := h
  have hframe := hgrown.frame
  have hjoined := hgrown.joined hunwired.wired (by rw [hunwired.m]; exact hm)
    (by rw [hunwired.efConstruction]; exact hef)
  refine ⟨rfl, ?_⟩
  have hlost : hnsw.lost = tmp.lost := by rw [hframe.lost, hunwired.whole.1, hunwired.whole.2]
  change Joined (tmp.items.length + hnsw.lost) _
  rw [hlost]
  change Joined tmp.count _
  rw [hframe.count, hunwired.count]
  exact hjoined.congr rfl rfl (hframe.m.trans hunwired.m).symm

section Life

variable [Arith]

theorem Left.params {host : Host} {hnsw hnsw' : Index} {op : Op} {status : Option Status}
    (h : Left host hnsw op status hnsw') :
    hnsw'.m = hnsw.m ∧ hnsw'.efConstruction = hnsw.efConstruction := by
  have hresized : ∀ {capacity : Nat} {hnsw' : Index}, Resized host capacity hnsw hnsw' →
      hnsw'.m = hnsw.m ∧ hnsw'.efConstruction = hnsw.efConstruction := by
    intro capacity hnsw' h
    cases h <;> exact ⟨rfl, rfl⟩
  have hwidened : ∀ grown : Index, Widened host hnsw grown →
      grown.m = hnsw.m ∧ grown.efConstruction = hnsw.efConstruction := by
    intro grown h
    unfold Widened at h
    split at h
    · exact hresized h
    · rw [h]
      exact ⟨rfl, rfl⟩
  cases h with
  | refused op status => exact ⟨rfl, rfl⟩
  | reserved hsize => exact hresized hsize
  | widened id values status hid hsize => exact hwidened _ hsize
  | @added id values grown hid hsize room =>
    obtain ⟨hm, hef⟩ := hwidened grown hsize
    unfold Index.push
    split <;> exact ⟨hm, hef⟩
  | empty hzero => exact ⟨rfl, rfl⟩
  | built hcount assembled =>
    obtain ⟨start, tmp, hunwired, hgrown, rfl⟩ := assembled
    exact ⟨rfl, rfl⟩

theorem reachable_params {host : Host} {dimension : Nat} {metric : Metric} {s : Life}
    (h : (life host dimension metric).Reachable s) :
    s.index.m = 16 ∧ s.index.efConstruction = 64 := by
  refine h.invariant (fun s => s.index.m = 16 ∧ s.index.efConstruction = 64) (fun s hs => ?_)
    fun s op s' hs _ hstep => ?_
  · obtain ⟨-, -, -, -, -, hparams⟩ := life_start hs
    exact hparams
  · obtain ⟨e, e', hrun⟩ := hstep
    obtain ⟨status, hleft, -⟩ := ((liveOn_left s op).value trivial hrun).1
    obtain ⟨hm, hef⟩ := hleft.params
    exact ⟨hm.trans hs.1, hef.trans hs.2⟩

/-- **A build of few items, or one that leaves every list of level 0 short of its bound**, leaves
every item in reach of the entry point. -/
theorem built_reaches {host : Host} {dimension : Nat} {metric : Metric} {s : Life}
    (h : (life host dimension metric).Reachable s) {hnsw : Index} {e e' : Env}
    (hbuild : (build s.index).exec e = (.ok hnsw, e'))
    (hroom : hnsw.count ≤ 2 * hnsw.m + 1 ∨ ∀ idx list, listAt hnsw.items idx 0 = some list →
      list.edges.length < 2 * hnsw.m) :
    ∀ i, i < hnsw.count → ReflTransGen (Edge hnsw.items) hnsw.entryPointIdx i := by
  have hserves : Serves (fun _ => True) (fun _ => True) Status.enomem :=
    serves_of_fail (fun _ _ h => h) trivial
  intro i hi
  obtain ⟨-, hbuilt⟩ := ((build_spec (I := fun _ => True) (X := fun _ => True) s.index (.inr trivial)).value
    trivial hbuild).1
  split at hbuilt
  · rename_i hzero
    rw [hbuilt, hzero] at hi
    exact absurd hi (Nat.not_lt_zero i)
  rename_i hcount
  obtain ⟨hm, hef⟩ := reachable_params h
  obtain ⟨hm', hjoined⟩ := hbuilt.joined (by omega) (by omega)
  have hentry := (hbuilt.sound hcount).2.entry.1
  rcases hjoined with ⟨⟨idx, list, hlist, hfull⟩, hmany⟩ | hjoined
  · rcases hroom with hfew | hshort
    · omega
    · have := hshort idx list hlist
      omega
  · exact ReflTransGen.mono (fun _ _ => BaseEdge.edge) _ _ (hjoined _ i hentry hi)

end Life

/-- Item 31 far from 33 others that are all alike. -/
def oneFar : List Op :=
  (List.range 34).map fun i => .add (CStr.ofString "a") [⟨if i = 31 then 0x3F800000 else 0⟩]

theorem built_reaches_two : ∃ (s : Life) (hnsw : Index), (@life ieee ⟨.w64, .little⟩ 1 .cosine).Reachable s ∧
    hnsw.count = 2 ∧ ∀ i, i < 2 → ReflTransGen (Edge hnsw.items) hnsw.entryPointIdx i := by
  obtain ⟨s, e', hrun, hq⟩ := exec_of_value?
    (x := @liveThrough ieee ⟨.w64, .little⟩ 1 .cosine 1 anyCall twoBuilt) (e := ⟨[], []⟩)
    (q := fun s => ((@build ieee s.index).value? ⟨[], []⟩).any fun hnsw : Index =>
      decide (hnsw.count = 2 ∧ hnsw.m = 16))
    (by decide +kernel)
  have hreached := (@liveThrough_reached ieee _ _ _ _ _ _ s _ _ hrun).reachable
  obtain ⟨hnsw, e'', hbuild, hcount⟩ := exec_of_value? hq
  simp only [decide_eq_true_eq] at hcount
  obtain ⟨hcount, hm⟩ := hcount
  refine ⟨s, hnsw, hreached, hcount, fun i hi => ?_⟩
  exact @built_reaches ieee _ _ _ s hreached hnsw _ _ hbuild (.inl (by omega)) i (by omega)

/-- The far item is linked only to lists that drop it. -/
theorem build_loses_far : ∃ (s : Life) (hnsw : Index) (e e' : Env), (@life ieee ⟨.w64, .little⟩ 1 .l2).Reachable s ∧
    (@build ieee s.index).exec e = (.ok hnsw, e') ∧ ∃ i, i < hnsw.count ∧
      ¬ ReflTransGen (Edge hnsw.items) hnsw.entryPointIdx i := by
  obtain ⟨s, e', hrun, hq⟩ := exec_of_value?
    (x := @liveThrough ieee ⟨.w64, .little⟩ 1 .l2 11 anyCall oneFar) (e := ⟨[], []⟩)
    (q := fun s => ((@build ieee s.index).value? ⟨[], []⟩).any fun hnsw : Index =>
      decide (hnsw.entryPointIdx ≠ 0 ∧ 0 < hnsw.count ∧ ∀ item ∈ hnsw.items,
        ∀ list ∈ item.neighbors.getD [], 0 ∉ list.edges))
    (by decide +kernel)
  have hreached := (@liveThrough_reached ieee _ _ _ _ _ _ s _ _ hrun).reachable
  obtain ⟨hnsw, e'', hbuild, hlost⟩ := exec_of_value? hq
  simp only [decide_eq_true_eq] at hlost
  obtain ⟨hentry, hpos, hlost⟩ := hlost
  refine ⟨s, hnsw, _, e'', hreached, hbuild, 0, hpos, fun hpath => ?_⟩
  rcases hpath.cases_tail with heq | ⟨a, -, level, list, hlist, hmem⟩
  · exact hentry heq.symm
  · simp only [listAt, Option.bind_eq_some_iff] at hlist
    obtain ⟨lists, ⟨item, hitem, hlists⟩, hat⟩ := hlist
    refine hlost item (List.mem_of_getElem? hitem) list ?_ hmem
    rw [hlists]
    exact List.mem_of_getElem? hat

end Ipa.Hnsw
