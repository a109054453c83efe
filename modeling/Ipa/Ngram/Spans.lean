import Ipa.Ngram.Basic
import Mathlib.Data.List.GetD

/-!
# The set of closed spans

`Chain`: the array is strictly increasing in both ends, so that no span of it contains another.
Under it the binary search of `spanIsClosed` decides containment in some span of the array, and
`addClosedSpan` adds exactly what the new span contains, whatever it prunes.
-/

namespace Ipa.Ngram

open Run

namespace Span

/-- `s` contains `w`. -/
def Contains (s w : Span) : Prop := s.start ≤ w.start ∧ w.stop ≤ s.stop

instance (s w : Span) : Decidable (s.Contains w) := inferInstanceAs (Decidable (_ ∧ _))

theorem Contains.trans {a b c : Span} (hab : a.Contains b) (hbc : b.Contains c) :
    a.Contains c := ⟨hab.1.trans hbc.1, hbc.2.trans hab.2⟩

end Span

/-- Some span of the list contains `w`. -/
def Covers (spans : List Span) (w : Span) : Prop := ∃ s ∈ spans, s.Contains w

instance (spans : List Span) (w : Span) : Decidable (Covers spans w) :=
  inferInstanceAs (Decidable (∃ s ∈ spans, s.Contains w))

theorem covers_append {l r : List Span} {w : Span} :
    Covers (l ++ r) w ↔ Covers l w ∨ Covers r w := by
  simp only [Covers, List.mem_append, or_and_right, exists_or]

theorem covers_cons {s : Span} {l : List Span} {w : Span} :
    Covers (s :: l) w ↔ s.Contains w ∨ Covers l w := by
  simp only [Covers, List.mem_cons, or_and_right, exists_or, exists_eq_left]

/-- Strictly increasing in both ends. -/
def Chain (spans : List Span) : Prop :=
  spans.Pairwise fun a b => a.start < b.start ∧ a.stop < b.stop

theorem Chain.getD_lt {spans : List Span} (h : Chain spans) {i j : Nat} (hij : i < j)
    (hj : j < spans.length) :
    (spans.getD i default).start < (spans.getD j default).start ∧
      (spans.getD i default).stop < (spans.getD j default).stop := by
  rw [List.getD_eq_getElem _ _ (by omega), List.getD_eq_getElem _ _ hj]
  exact List.pairwise_iff_getElem.mp h i j (by omega) hj hij

theorem mem_getD {spans : List Span} {i : Nat} (hi : i < spans.length) :
    spans.getD i default ∈ spans := by
  rw [List.getD_eq_getElem _ _ hi]
  exact List.getElem_mem hi

theorem exists_getD {spans : List Span} {s : Span} (hs : s ∈ spans) :
    ∃ i, i < spans.length ∧ spans.getD i default = s := by
  obtain ⟨i, hi, rfl⟩ := List.getElem_of_mem hs
  exact ⟨i, hi, List.getD_eq_getElem _ _ hi⟩

/-! ## Lookup -/

/-- In a chain only the last span that starts at or before the window can contain it. -/
theorem spanIsClosed_iff {spans : List Span} (h : Chain spans) (start stop : Nat) :
    spanIsClosed start stop spans = true ↔ Covers spans ⟨start, stop⟩ := by
  unfold spanIsClosed
  cases spans with
  | nil => simp [Covers]
  | cons s0 rest =>
    generalize hl : s0 :: rest = spans at h ⊢
    have hne : spans.isEmpty = false := by rw [← hl]; rfl
    simp only [hne, Bool.false_eq_true, ite_false]
    obtain ⟨-, hr, hbelow, habove⟩ := bisect_spec
      (fun mid => decide ((spans.getD mid default).start ≤ start)) spans.length 0 spans.length
      (Nat.zero_le _) (by omega) (fun i j _ hij hj hp => by
        simp only [decide_eq_true_eq] at hp ⊢
        rcases Nat.lt_or_eq_of_le hij with hlt | rfl
        · have := (h.getD_lt hlt hj).1
          omega
        · exact hp)
    generalize bisect (fun mid => decide ((spans.getD mid default).start ≤ start)) spans.length 0
      spans.length = r at hr hbelow habove ⊢
    have hcov : Covers spans ⟨start, stop⟩ → 0 < r ∧ stop ≤ (spans.getD (r - 1) default).stop := by
      rintro ⟨s, hs, hstart, hstop⟩
      obtain ⟨i, hi, rfl⟩ := exists_getD hs
      have hir : i < r := by
        by_contra hir
        have := habove i (by omega) hi
        simp only [decide_eq_false_iff_not] at this
        exact this hstart
      refine ⟨by omega, ?_⟩
      rcases Nat.lt_or_eq_of_le (Nat.le_sub_one_of_lt hir) with hlt | heq
      · have := (h.getD_lt hlt (by omega)).2
        simp only at hstop
        omega
      · rw [← heq]
        exact hstop
    by_cases hr0 : r = 0
    · simp only [hr0, ite_true, Bool.false_eq_true, false_iff]
      intro hc
      have := (hcov hc).1
      omega
    · simp only [hr0, ite_false, Bool.and_eq_true, decide_eq_true_eq, ge_iff_le]
      constructor
      · rintro ⟨h1, h2⟩
        exact ⟨_, mem_getD (by omega), h1, h2⟩
      · intro hc
        have hb := hbelow (r - 1) (Nat.zero_le _) (by omega)
        simp only [decide_eq_true_eq] at hb
        exact ⟨hb, (hcov hc).2⟩

/-! ## Insertion -/

/-- The insertion index splits the array into the spans that start before and the others. -/
theorem findSpanInsertIndex_split {spans : List Span} (h : Chain spans) (start : Nat) :
    (∀ s ∈ spans.take (findSpanInsertIndex spans start), s.start < start) ∧
      (∀ s ∈ spans.drop (findSpanInsertIndex spans start), start ≤ s.start) ∧
      findSpanInsertIndex spans start ≤ spans.length := by
  obtain ⟨-, hr, hbelow, habove⟩ := bisect_spec
    (fun mid => decide ((spans.getD mid default).start < start)) spans.length 0 spans.length
    (Nat.zero_le _) (by omega) (fun i j _ hij hj hp => by
      simp only [decide_eq_true_eq] at hp ⊢
      rcases Nat.lt_or_eq_of_le hij with hlt | rfl
      · have := (h.getD_lt hlt hj).1
        omega
      · exact hp)
  change findSpanInsertIndex spans start ≤ spans.length at hr
  refine ⟨fun s hs => ?_, fun s hs => ?_, hr⟩
  · obtain ⟨i, hi, rfl⟩ := List.getElem_of_mem hs
    rw [List.length_take] at hi
    have := hbelow i (Nat.zero_le _) (by unfold findSpanInsertIndex at hi; omega)
    rw [decide_eq_true_eq, List.getD_eq_getElem _ _ (by omega)] at this
    rw [List.getElem_take]
    exact this
  · obtain ⟨i, hi, rfl⟩ := List.getElem_of_mem hs
    rw [List.length_drop] at hi
    have := habove (findSpanInsertIndex spans start + i)
      (Nat.le_add_right _ _) (by omega)
    rw [decide_eq_false_iff_not, List.getD_eq_getElem _ _ (by omega)] at this
    rw [List.getElem_drop]
    omega

/-- The array that `addClosedSpan` leaves when its allocation is served. -/
def afterAdd (spans : List Span) (start stop : Nat) : List Span :=
  let insertAt := findSpanInsertIndex spans start
  let before := spans.getD (insertAt - 1) default
  let after := spans.getD insertAt default
  if 0 < insertAt ∧ before.start ≤ start ∧ stop ≤ before.stop then spans
  else if insertAt < spans.length ∧ after.start = start ∧ stop ≤ after.stop then spans
  else
    let items := spans.take insertAt ++
      (spans.drop insertAt).dropWhile fun span => decide (span.stop ≤ stop)
    let next := items.getD insertAt default
    if insertAt < items.length ∧ next.start ≤ start ∧ stop ≤ next.stop then items
    else items.take insertAt ++ ⟨start, stop⟩ :: items.drop insertAt

/-- The array without the spans that the new one covers: so `addClosedSpan` leaves it where its
allocation fails. -/
def prunedSpans (spans : SpanList) (start stop : Nat) : SpanList :=
  let insertAt := findSpanInsertIndex spans.items start
  { spans with items := spans.items.take insertAt ++
      (spans.items.drop insertAt).dropWhile fun span => decide (span.stop ≤ stop) }

section

variable {ε : Type} {I : Env → Prop} {X : Stop ε → Prop} {failed : Prop}
  (halloc : Keeps I X (alloc : Run ε Bool) fun served => served = false → failed)

include halloc

theorem reserveSpanSlot_spec (spans : SpanList) :
    Keeps I X (reserveSpanSlot spans) fun r =>
      (∃ cap, r = some { spans with cap := cap } ∧
        (spans.items.length ≤ spans.cap → spans.items.length < cap)) ∨
      (r = none ∧ failed ∧ spans.cap ≤ spans.items.length) := by
  unfold reserveSpanSlot
  by_cases hroom : spans.items.length < spans.cap
  · rw [if_pos hroom]
    exact Keeps.pure (.inl ⟨spans.cap, rfl, fun _ => hroom⟩)
  · rw [if_neg hroom]
    refine Keeps.bind halloc fun served hserved => ?_
    cases served with
    | true =>
      refine Keeps.pure (.inl ⟨_, rfl, fun _ => ?_⟩)
      split <;> omega
    | false => exact Keeps.pure (.inr ⟨rfl, hserved rfl, by omega⟩)

omit halloc in
/-- An array that is full after pruning was not pruned. -/
theorem pruned_of_full {spans : List Span} {cap r stop : Nat} (hroom : spans.length ≤ cap)
    (hfull : cap ≤ (spans.take r ++
      (spans.drop r).dropWhile fun span => decide (span.stop ≤ stop)).length) :
    spans.take r ++ (spans.drop r).dropWhile (fun span => decide (span.stop ≤ stop)) = spans := by
  have hsub := List.dropWhile_suffix (l := spans.drop r) fun span : Span => decide (span.stop ≤ stop)
  have hlen := congrArg List.length (List.take_append_drop r spans)
  rw [List.length_append] at hfull hlen
  have hkeep := hsub.sublist.eq_of_length_le (by omega)
  rw [hkeep, List.take_append_drop]

/-- What a call leaves: the new span is added, or nothing changes. -/
theorem addClosedSpan_left (spans : SpanList) (start stop : Nat) :
    Keeps I X (addClosedSpan spans start stop) fun r =>
      (∃ cap, r = some ⟨afterAdd spans.items start stop, cap⟩ ∧
        (spans.items.length ≤ spans.cap → (afterAdd spans.items start stop).length ≤ cap)) ∨
      (r = none ∧ failed ∧
        (spans.items.length ≤ spans.cap → prunedSpans spans start stop = spans)) := by
  unfold addClosedSpan afterAdd prunedSpans
  extract_lets insertAt before after items spans' next
  have hitems : items.length ≤ spans.items.length := by
    have hsub := (List.dropWhile_sublist (l := spans.items.drop insertAt)
      fun span : Span => decide (span.stop ≤ stop)).length_le
    have hlen := congrArg List.length (List.take_append_drop insertAt spans.items)
    rw [List.length_append] at hlen
    simp only [items, List.length_append]
    omega
  split
  · exact Keeps.pure (.inl ⟨spans.cap, rfl, id⟩)
  split
  · exact Keeps.pure (.inl ⟨spans.cap, rfl, id⟩)
  split
  · exact Keeps.pure (.inl ⟨spans.cap, rfl, fun hroom => hitems.trans hroom⟩)
  refine Keeps.bind (reserveSpanSlot_spec halloc _) fun r hr => ?_
  rcases hr with ⟨cap, rfl, hcap⟩ | ⟨rfl, hfailed, hfull⟩
  · refine Keeps.pure (.inl ⟨cap, rfl, fun hroom => ?_⟩)
    have hlt : items.length < cap := hcap (hitems.trans hroom)
    have hlen := congrArg List.length (List.take_append_drop insertAt items)
    rw [List.length_append] at hlen
    rw [List.length_append, List.length_cons]
    omega
  · refine Keeps.pure (.inr ⟨rfl, hfailed, fun hroom => ?_⟩)
    have hsame : items = spans.items := pruned_of_full hroom hfull
    change ({ spans with items := items } : SpanList) = spans
    rw [hsame]

theorem addClosedSpan_spec (spans : SpanList) (start stop : Nat) :
    Keeps I X (addClosedSpan spans start stop) fun r =>
      (∃ cap, r = some ⟨afterAdd spans.items start stop, cap⟩) ∨ (r = none ∧ failed) := by
  refine (addClosedSpan_left halloc spans start stop).mono fun r hr => ?_
  rcases hr with ⟨cap, hr, -⟩ | ⟨hr, hfailed, -⟩
  · exact .inl ⟨cap, hr⟩
  · exact .inr ⟨hr, hfailed⟩

end

section Prune

variable {spans : List Span} (h : Chain spans) {start stop r : Nat}
  (hA : ∀ s ∈ spans.take r, s.start < start) (hB : ∀ s ∈ spans.drop r, start ≤ s.start)
  (hr : r ≤ spans.length)

include h hA hr in
/-- When the last span before the new one does not contain it, every span before stops before
the new one does. -/
theorem take_stop_lt (hbefore : ¬ (0 < r ∧ (spans.getD (r - 1) default).start ≤ start ∧
      stop ≤ (spans.getD (r - 1) default).stop)) :
    ∀ s ∈ spans.take r, s.stop < stop := by
  intro s hs
  obtain ⟨i, hi, rfl⟩ := List.getElem_of_mem hs
  rw [List.length_take] at hi
  have hlast : (spans.getD (r - 1) default).stop < stop := by
    have hmem : spans.getD (r - 1) default ∈ spans.take r := by
      rw [List.getD_eq_getElem _ _ (by omega)]
      exact List.mem_take_iff_getElem.mpr ⟨r - 1, by omega, rfl⟩
    have := hA _ hmem
    by_contra hlt
    exact hbefore ⟨by omega, by omega, by omega⟩
  rw [List.getElem_take, ← List.getD_eq_getElem _ default (by omega)]
  rcases Nat.lt_or_eq_of_le (Nat.le_sub_one_of_lt (Nat.lt_of_lt_of_le hi (Nat.min_le_left _ _)))
    with hlt | heq
  · exact (h.getD_lt hlt (by omega)).2.trans hlast
  · rw [heq]
    exact hlast

include hB in
theorem prune_contained : ∀ s ∈ (spans.drop r).takeWhile (fun span => decide (span.stop ≤ stop)),
    (⟨start, stop⟩ : Span).Contains s :=
  fun s hs => ⟨hB s ((List.takeWhile_sublist _).subset hs), by
    simpa using List.mem_takeWhile_imp hs⟩

include hB in
/-- Pruning loses nothing that the new span does not contain. -/
theorem covers_prune (w : Span) :
    Covers (spans.drop r) w ∨ (⟨start, stop⟩ : Span).Contains w ↔
      Covers ((spans.drop r).dropWhile fun span => decide (span.stop ≤ stop)) w ∨
        (⟨start, stop⟩ : Span).Contains w := by
  have hc := @prune_contained _ start stop _ hB
  conv_lhs => rw [← List.takeWhile_append_dropWhile
    (p := fun span : Span => decide (span.stop ≤ stop)) (l := spans.drop r), covers_append]
  constructor
  · rintro ((⟨s, hs, hw⟩ | hw) | hw)
    · exact .inr ((hc s hs).trans hw)
    · exact .inl hw
    · exact .inr hw
  · rintro (hw | hw)
    · exact .inl (.inr hw)
    · exact .inr hw

include h hB in
/-- What pruning leaves starts and stops after the new span. -/
theorem prune_after (hafter : ¬ (r < spans.length ∧ (spans.getD r default).start = start ∧
      stop ≤ (spans.getD r default).stop)) :
    ∀ s ∈ (spans.drop r).dropWhile (fun span => decide (span.stop ≤ stop)),
      start < s.start ∧ stop < s.stop := by
  have hsub := List.dropWhile_sublist (l := spans.drop r)
    (fun span : Span => decide (span.stop ≤ stop))
  have hch : Chain ((spans.drop r).dropWhile fun span => decide (span.stop ≤ stop)) :=
    (h.sublist (List.drop_sublist r spans)).sublist hsub
  cases hd : (spans.drop r).dropWhile (fun span => decide (span.stop ≤ stop)) with
  | nil => simp
  | cons b rest =>
    have hbstop : stop < b.stop := by
      have := List.head_dropWhile_not (fun span : Span => decide (span.stop ≤ stop))
        (l := spans.drop r) (by rw [hd]; simp)
      simpa [hd] using this
    have hbmem : b ∈ spans.drop r := hsub.subset (by rw [hd]; exact List.mem_cons_self)
    have hbstart : start < b.start := by
      refine Nat.lt_of_le_of_ne (hB b hbmem) fun heq => hafter ?_
      obtain ⟨i, hi, hib⟩ := List.getElem_of_mem hbmem
      rw [List.length_drop] at hi
      rw [List.getElem_drop, ← List.getD_eq_getElem _ default (by omega)] at hib
      have hfirst := hB (spans.getD r default) (by
        rw [List.getD_eq_getElem _ _ (by omega)]
        exact List.mem_drop_iff_getElem.mpr ⟨0, by omega, by simp⟩)
      rcases Nat.eq_zero_or_pos i with rfl | hipos
      · rw [Nat.add_zero] at hib
        exact ⟨by omega, by rw [hib]; exact heq.symm, by rw [hib]; omega⟩
      · have := (h.getD_lt (i := r) (j := r + i) (by omega) (by omega)).1
        rw [hib] at this
        omega
    rw [hd] at hch
    intro s hs
    rcases List.mem_cons.mp hs with rfl | hs
    · exact ⟨hbstart, hbstop⟩
    · have := List.rel_of_pairwise_cons hch hs
      omega

include h hA hB hr in
/-- The array with the new span between the two parts. -/
theorem chain_insert (hbefore : ¬ (0 < r ∧ (spans.getD (r - 1) default).start ≤ start ∧
      stop ≤ (spans.getD (r - 1) default).stop))
    (hafter : ¬ (r < spans.length ∧ (spans.getD r default).start = start ∧
      stop ≤ (spans.getD r default).stop)) :
    Chain (spans.take r ++ ⟨start, stop⟩ ::
      (spans.drop r).dropWhile fun span => decide (span.stop ≤ stop)) := by
  have hlow := take_stop_lt h hA hr hbefore
  have hhigh := prune_after h hB hafter
  refine List.pairwise_append.mpr ⟨h.sublist (List.take_sublist r spans), ?_, ?_⟩
  · exact List.pairwise_cons.mpr ⟨hhigh, (h.sublist (List.drop_sublist r spans)).sublist
      (List.dropWhile_sublist _)⟩
  · intro a ha b hb
    have h1 := hA a ha
    have h2 := hlow a ha
    rcases List.mem_cons.mp hb with rfl | hb
    · exact ⟨h1, h2⟩
    · have h3 := hhigh b hb
      omega

end Prune

/-- **Insertion**: a chain stays a chain, and what it covers grows by what the new span
contains. -/
theorem afterAdd_spec {spans : List Span} (h : Chain spans) (start stop : Nat) :
    Chain (afterAdd spans start stop) ∧
      ∀ w, Covers (afterAdd spans start stop) w ↔
        Covers spans w ∨ (⟨start, stop⟩ : Span).Contains w := by
  obtain ⟨hA, hB, hr⟩ := findSpanInsertIndex_split h start
  unfold afterAdd
  simp only
  generalize findSpanInsertIndex spans start = r at hA hB hr ⊢
  have unchanged : ∀ s ∈ spans, s.Contains ⟨start, stop⟩ → Chain spans ∧
      ∀ w, Covers spans w ↔ Covers spans w ∨ (⟨start, stop⟩ : Span).Contains w :=
    fun s hs hc => ⟨h, fun w => ⟨Or.inl, fun hw => hw.elim id fun hw => ⟨s, hs, hc.trans hw⟩⟩⟩
  split
  · rename_i hc
    exact unchanged _ (mem_getD (by omega)) hc.2
  · rename_i hbefore
    split
    · rename_i hc
      exact unchanged _ (mem_getD hc.1) ⟨hc.2.1.le, hc.2.2⟩
    · rename_i hafter
      have hchain := chain_insert h hA hB hr hbefore hafter
      have hhigh := prune_after h hB hafter
      have hcov := @covers_prune _ start stop _ hB
      have hlen : (spans.take r).length = r := by rw [List.length_take]; omega
      generalize (spans.drop r).dropWhile (fun span => decide (span.stop ≤ stop)) = tail
        at hchain hhigh hcov ⊢
      split
      · -- the span at the insertion index cannot contain the new one any more
        rename_i hnext
        exfalso
        have hmem : (spans.take r ++ tail).getD r default ∈ tail := by
          rw [List.getD_append_right _ _ _ _ (by omega), hlen, Nat.sub_self]
          refine mem_getD ?_
          have := hnext.1
          rw [List.length_append] at this
          omega
        have := hhigh _ hmem
        omega
      · rw [List.take_left' hlen, List.drop_left' hlen]
        refine ⟨hchain, fun w => ?_⟩
        rw [covers_append, covers_cons]
        conv_rhs => rw [← List.take_append_drop r spans, covers_append, or_assoc, hcov w]
        exact or_congr_right or_comm

/-! ## Calls one after the other -/

/-- Calls of `addClosedSpan`, each on the array that the one before left: the spans whose call
returned 0, and the array at the end. -/
def addClosedSpans {ε : Type} : List Span → SpanList → Run ε (List Span × SpanList)
  | [], spans => pure ([], spans)
  | span :: calls, spans => do
    match ← addClosedSpan spans span.start span.stop with
    | some spans => do
      let (added, spans) ← addClosedSpans calls spans
      pure (span :: added, spans)
    | none => addClosedSpans calls (prunedSpans spans span.start span.stop)

/-- What the calls leave: a chain that covers in addition what the added spans contain. -/
structure Added (calls : List Span) (failed : Prop) (spans : List Span)
    (r : List Span × SpanList) : Prop where
  some_added : r.1.Sublist calls
  all_added : ¬ failed → r.1 = calls
  chain : Chain r.2.items
  covers : ∀ w, Covers r.2.items w ↔ Covers spans w ∨ Covers r.1 w

theorem addClosedSpans_spec {ε : Type} {I : Env → Prop} {X : Stop ε → Prop} {failed : Prop}
    (halloc : Keeps I X (alloc : Run ε Bool) fun served => served = false → failed)
    (calls : List Span) (spans : SpanList) (hchain : Chain spans.items)
    (hroom : spans.items.length ≤ spans.cap) :
    Keeps I X (addClosedSpans calls spans) (Added calls failed spans.items) := by
  induction calls generalizing spans with
  | nil =>
    refine Keeps.pure ⟨.refl _, fun _ => rfl, hchain, fun w => ?_⟩
    exact ⟨Or.inl, fun h => h.elim id fun ⟨s, hs, _⟩ => absurd hs List.not_mem_nil⟩
  | cons span calls ih =>
    rw [addClosedSpans]
    refine Keeps.bind (addClosedSpan_left halloc spans span.start span.stop) fun r hr => ?_
    rcases hr with ⟨cap, rfl, hcap⟩ | ⟨rfl, hfailed, hsame⟩
    · obtain ⟨hafter, hcovers⟩ := afterAdd_spec hchain span.start span.stop
      refine Keeps.bind (ih ⟨_, cap⟩ hafter (hcap hroom)) fun r hr => ?_
      obtain ⟨added, spans'⟩ := r
      refine Keeps.pure ⟨hr.some_added.cons_cons span, fun hno => ?_, hr.chain, fun w => ?_⟩
      · exact congrArg (span :: ·) (hr.all_added hno)
      · rw [hr.covers w, hcovers w, covers_cons, or_assoc]
    · -- nothing was pruned: the call failed on a full array
      rw [hsame hroom]
      refine (ih spans hchain hroom).mono fun r hr => ?_
      exact ⟨hr.some_added.cons span, fun hno => absurd hfailed hno, hr.chain, hr.covers⟩

/-- **Closed spans**: after any calls from the empty array, whichever of their allocations fail, the
array is a chain, and a window is closed exactly when one of the spans added contains it. -/
theorem addClosedSpans_closed {ε : Type} (calls : List Span) (e : Env) :
    ∃ added spans e', (addClosedSpans (ε := ε) calls ⟨[], 0⟩).exec e = (.ok (added, spans), e') ∧
      added.Sublist calls ∧ (false ∉ e.allocs → added = calls) ∧ Chain spans.items ∧
        ∀ start stop, spanIsClosed start stop spans.items = true ↔
          ∃ s ∈ added, s.start ≤ start ∧ stop ≤ s.stop := by
  have hkeep := addClosedSpans_spec (ε := ε) (X := fun _ => False)
    (@Keeps.alloc_within ε e.allocs _) calls ⟨[], 0⟩ List.Pairwise.nil (Nat.le_refl 0)
  obtain ⟨-, hrun⟩ := hkeep e (List.suffix_refl e.allocs)
  rcases hexec : (addClosedSpans (ε := ε) calls ⟨[], 0⟩).exec e with ⟨stop | ⟨added, spans⟩, e'⟩
  · rw [hexec] at hrun
    exact hrun.elim
  · rw [hexec] at hrun
    refine ⟨added, spans, e', rfl, hrun.some_added, hrun.all_added, hrun.chain, fun start stop => ?_⟩
    have hcovers : Covers spans.items ⟨start, stop⟩ ↔ Covers [] ⟨start, stop⟩ ∨
        Covers added ⟨start, stop⟩ := hrun.covers ⟨start, stop⟩
    have hnone : ¬ Covers [] ⟨start, stop⟩ := fun ⟨s, hs, _⟩ => absurd hs List.not_mem_nil
    rw [spanIsClosed_iff hrun.chain, hcovers, or_iff_right hnone]
    exact Iff.rfl

end Ipa.Ngram
