import Ipa.Runtime.Parse

/-!
# What the tables of a schema say

The values behind the loops over the two metadata tables: the emits of a node, the emits of a
child under a parent, whether a node has children and whether a child is one of a parent's. Every
loop computes its value whatever the allocator does, up to a copy that fails, and reads only the
texts of the rows.
-/

namespace Ipa

open Run

section Rows

variable (host : Host) (s : Schema)

/-- The string at an offset of the string table. -/
def Schema.textAt (off : UInt32) : CStr := CStr.read s.mem (s.strtab + off.toNat)

/-- A value of the manifest as it is emitted for a span. -/
def resolved (tpl span : CStr) : CStr := if tpl.bytes = ascii "$raw" then span else tpl

/-- The emit of a row whose key and value are at these offsets. -/
def Schema.emitAt (keyOff valOff : UInt32) (span : CStr) : Emit :=
  ⟨some (s.textAt keyOff), some (resolved (s.textAt valOff) span)⟩

/-- Row `i` carries an emit pair of the node. -/
def nodeRowIs (nodeId : CStr) (i : Nat) : Bool :=
  let nm := nodeMetaAt host s i
  nm.emitKeyLen != 0 && s.textAt nm.nodeIdOff == nodeId

/-- The emits of a node for a span, in the order of the rows. -/
def nodeEmits (nodeId span : CStr) : List Emit :=
  ((List.range s.index.nodeMetaCount).filter (nodeRowIs host s nodeId)).map fun i =>
    s.emitAt (nodeMetaAt host s i).emitKeyOff (nodeMetaAt host s i).emitValOff span

/-- Row `i` says that the node has children. -/
def parentRowIs (nodeId : CStr) (i : Nat) : Bool :=
  let nm := nodeMetaAt host s i
  s.textAt nm.nodeIdOff == nodeId && nm.hasChildren != 0

/-- Some row says that the node has children. -/
def hasChildren (nodeId : CStr) : Bool :=
  (List.range s.index.nodeMetaCount).any (parentRowIs host s nodeId)

/-- Row `i` names the child under the parent. -/
def childRowIs (id parentId : CStr) (i : Nat) : Bool :=
  let cm := childMetaAt host s i
  s.textAt cm.nodeIdOff == id && s.textAt cm.parentIdOff == parentId

/-- Some row names the child under the parent. -/
def isChildOf (id parentId : CStr) : Bool :=
  (List.range s.index.childMetaCount).any (childRowIs host s id parentId)

/-- The emits of a child under a parent. -/
def childEmits (parentId id span : CStr) : List Emit :=
  ((List.range s.index.childMetaCount).filter fun i =>
    (childMetaAt host s i).emitKeyLen != 0 && childRowIs host s id parentId i).map fun i =>
      s.emitAt (childMetaAt host s i).emitKeyOff (childMetaAt host s i).emitValOff span

/-! ## What the loops read -/

/-- The string at an offset, as an access. -/
def Schema.textAccess (off : UInt32) : Access := .text (s.strtab + off.toNat)

/-- What the loops for a match of a node read: every row, the names of the rows that have a pair and
of those up to the first that says that the node has children, and the pairs of the node. -/
inductive NodeReads (nodeId : CStr) : Access → Prop
  | row {i : Nat} (hi : i < s.index.nodeMetaCount) :
      NodeReads nodeId (.row (s.index.nodeMeta + nodeMetaSize * i) nodeMetaSize)
  | keyed {i : Nat} (hi : i < s.index.nodeMetaCount) (pair : (nodeMetaAt host s i).emitKeyLen ≠ 0) :
      NodeReads nodeId (s.textAccess (nodeMetaAt host s i).nodeIdOff)
  | sought {i : Nat} (hi : i < s.index.nodeMetaCount)
      (before : ∀ j < i, parentRowIs host s nodeId j = false) :
      NodeReads nodeId (s.textAccess (nodeMetaAt host s i).nodeIdOff)
  | key {i : Nat} (hi : i < s.index.nodeMetaCount) (own : nodeRowIs host s nodeId i = true) :
      NodeReads nodeId (s.textAccess (nodeMetaAt host s i).emitKeyOff)
  | value {i : Nat} (hi : i < s.index.nodeMetaCount) (own : nodeRowIs host s nodeId i = true) :
      NodeReads nodeId (s.textAccess (nodeMetaAt host s i).emitValOff)

/-- What the comparison of a row with a child and its parent reads: the name of the parent only
where that of the child is the same. -/
inductive ComparisonReads (id : CStr) (i : Nat) : Access → Prop
  | row : ComparisonReads id i (.row (s.index.childMeta + childMetaSize * i) childMetaSize)
  | child : ComparisonReads id i (s.textAccess (childMetaAt host s i).nodeIdOff)
  | parent (same : s.textAt (childMetaAt host s i).nodeIdOff = id) :
      ComparisonReads id i (s.textAccess (childMetaAt host s i).parentIdOff)

/-- What the search for the row of a child under a parent reads: the rows up to the first that is
one. -/
def ChildReads (parentId id : CStr) (a : Access) : Prop :=
  ∃ i < s.index.childMetaCount, (∀ j < i, childRowIs host s id parentId j = false) ∧
    ComparisonReads host s id i a

/-- What the loops for the emits of a child match read: every row, the names of the rows that have a
pair, and the pairs of the child under the parent. -/
inductive ChildEmitReads (parentId id : CStr) : Access → Prop
  | row {i : Nat} (hi : i < s.index.childMetaCount) :
      ChildEmitReads parentId id (.row (s.index.childMeta + childMetaSize * i) childMetaSize)
  | keyed {i : Nat} {a : Access} (hi : i < s.index.childMetaCount)
      (pair : (childMetaAt host s i).emitKeyLen ≠ 0) (read : ComparisonReads host s id i a) :
      ChildEmitReads parentId id a
  | key {i : Nat} (hi : i < s.index.childMetaCount) (pair : (childMetaAt host s i).emitKeyLen ≠ 0)
      (own : childRowIs host s id parentId i = true) :
      ChildEmitReads parentId id (s.textAccess (childMetaAt host s i).emitKeyOff)
  | value {i : Nat} (hi : i < s.index.childMetaCount) (pair : (childMetaAt host s i).emitKeyLen ≠ 0)
      (own : childRowIs host s id parentId i = true) :
      ChildEmitReads parentId id (s.textAccess (childMetaAt host s i).emitValOff)

/-! ## Child matches -/

/-- A child match as the code leaves it: with its emits, or with others where a copy failed. -/
def WithEmits (host : Host) (s : Schema) (failed : Prop) (parentId : CStr) (ch r : Match) : Prop :=
  ∃ emits, r = { ch with emits } ∧ (emits = childEmits host s parentId ch.id ch.span ∨ failed)

/-- Where no copy failed, the child matches have their emits. -/
theorem WithEmits.all {host : Host} {s : Schema} {parentId : CStr} {items children : List Match}
    (h : List.Forall₂ (WithEmits host s False parentId) items children) :
    children = items.map fun ch =>
      { ch with emits := childEmits host s parentId ch.id ch.span } := by
  induction h with
  | nil => rfl
  | cons hch _ ih =>
    obtain ⟨emits, rfl, hemits⟩ := hch
    rw [List.map_cons, ← ih, hemits.resolve_right id]

theorem WithEmits.of_mem {host : Host} {s : Schema} {failed : Prop} {parentId : CStr}
    {items children : List Match}
    (h : List.Forall₂ (WithEmits host s failed parentId) items children) {r : Match}
    (hr : r ∈ children) : ∃ ch ∈ items, WithEmits host s failed parentId ch r := by
  induction h with
  | nil => cases hr
  | cons hch _ ih =>
    rcases List.mem_cons.mp hr with rfl | hr
    · exact ⟨_, List.mem_cons_self, hch⟩
    · obtain ⟨ch, hmem, hch⟩ := ih hr
      exact ⟨ch, List.mem_cons_of_mem _ hmem, hch⟩

/-- The emits do not change what a child match is of. -/
theorem WithEmits.faces {host : Host} {s : Schema} {failed : Prop} {parentId : CStr}
    {items children : List Match}
    (h : List.Forall₂ (WithEmits host s failed parentId) items children) :
    children.map (fun m => (m.id, m.span, m.score)) =
      items.map fun m => (m.id, m.span, m.score) := by
  induction h with
  | nil => rfl
  | cons hch _ ih =>
    obtain ⟨emits, rfl, -⟩ := hch
    rw [List.map_cons, List.map_cons, ih]

end Rows

section Loops

variable {ε : Type} {host : Host} {s : Schema} {I : Env → Prop} {X : Stop ε → Prop}

theorem readText_keeps {off : UInt32} (h : Admits I (s.textAccess off)) :
    Keeps I X (readText s.mem s.strtab off) fun t => t = s.textAt off := by
  unfold readText
  exact Keeps.bind (Keeps.touch h) fun _ _ => Keeps.pure rfl

theorem textIs_keeps {off : UInt32} (h : Admits I (s.textAccess off))
    (text : CStr) : Keeps I X (textIs s off text) fun same => same = (s.textAt off == text) := by
  unfold textIs
  refine Keeps.bind (readText_keeps h) fun t ht => ?_
  subst ht
  exact Keeps.pure rfl

theorem readNodeMeta_keeps {i : Nat}
    (h : Admits I (.row (s.index.nodeMeta + nodeMetaSize * i) nodeMetaSize)) :
    Keeps I X (readNodeMeta host s i) (· = nodeMetaAt host s i) := by
  unfold readNodeMeta
  exact Keeps.bind (Keeps.touch h) fun _ _ => Keeps.pure rfl

theorem readChildMeta_keeps {i : Nat}
    (h : Admits I (.row (s.index.childMeta + childMetaSize * i) childMetaSize)) :
    Keeps I X (readChildMeta host s i) (· = childMetaAt host s i) := by
  unfold readChildMeta
  exact Keeps.bind (Keeps.touch h) fun _ _ => Keeps.pure rfl

/-- A loop that stops at the first row that satisfies the test: it comes to a row only when no row
before it does. -/
theorem anyRow_keeps {test : Nat → Run ε Bool} {p : Nat → Bool} {n : Nat}
    (h : ∀ i < n, (∀ j < i, p j = false) → Keeps I X (test i) fun b => b = p i) :
    Keeps I X (anyRow test (List.range n)) fun b => b = (List.range n).any p := by
  have go : ∀ left start, start + left = n → (∀ j < start, p j = false) →
      Keeps I X (anyRow test (List.range' start left)) fun b =>
        b = (List.range' start left).any p := by
    intro left
    induction left with
    | zero => exact fun _ _ _ => Keeps.pure rfl
    | succ left ih =>
      intro start hn hbefore
      rw [List.range'_succ, anyRow]
      refine Keeps.bind (h start (by omega) hbefore) fun b hb => ?_
      rw [List.any_cons, ← hb]
      cases b with
      | true => exact Keeps.pure rfl
      | false =>
        refine ih (start + 1) (by omega) fun j hj => ?_
        rcases Nat.lt_succ_iff_lt_or_eq.mp hj with hlt | rfl
        · exact hbefore j hlt
        · exact hb.symm
  rw [List.range_eq_range']
  exact go n 0 (Nat.zero_add n) fun j hj => absurd hj (Nat.not_lt_zero j)

theorem filterRows_keeps {test : Nat → Run ε Bool} {p : Nat → Bool} {count : Nat}
    (h : ∀ i < count, Keeps I X (test i) fun b => b = p i) :
    Keeps I X (filterRows test count) fun rows => rows = (List.range count).filter p := by
  unfold filterRows
  refine Keeps.foldlM_range (fun n rows => rows = (List.range n).filter p) rfl ?_
  intro i rows hi hrows
  refine Keeps.bind (h i hi) fun b hb => ?_
  rw [List.range_succ, List.filter_append, ← hrows, List.filter_cons, ← hb]
  cases b with
  | true => exact Keeps.pure rfl
  | false => exact Keeps.pure (by simp)

theorem nodeRowEmits_keeps {nodeId : CStr} (hreads : ∀ a, NodeReads host s nodeId a → Admits I a)
    {i : Nat} (hi : i < s.index.nodeMetaCount) :
    Keeps I X (nodeRowEmits host s nodeId i) fun b => b = nodeRowIs host s nodeId i := by
  unfold nodeRowEmits
  refine Keeps.bind (readNodeMeta_keeps (hreads _ (.row hi))) fun nm hnm => ?_
  subst hnm
  unfold nodeRowIs
  simp only
  split
  · rename_i hzero
    exact Keeps.pure (by simp [hzero])
  · rename_i hlen
    refine (textIs_keeps (hreads _ (.keyed hi hlen)) nodeId).mono fun b hb => ?_
    simp [hb, hlen]

theorem nodeHasChildren_keeps {nodeId : CStr}
    (hreads : ∀ a, NodeReads host s nodeId a → Admits I a) :
    Keeps I X (nodeHasChildren host s nodeId) fun b => b = hasChildren host s nodeId := by
  refine anyRow_keeps fun i hi hbefore => ?_
  refine Keeps.bind (readNodeMeta_keeps (hreads _ (.row hi))) fun nm hnm => ?_
  subst hnm
  refine Keeps.bind (textIs_keeps (hreads _ (.sought hi hbefore)) nodeId) fun b hb => ?_
  subst hb
  exact Keeps.pure rfl

theorem childRowOf_keeps {id : CStr} {i : Nat}
    (hreads : ∀ a, ComparisonReads host s id i a → Admits I a) (parentId : CStr) :
    Keeps I X (childRowOf host s id parentId i) fun b => b = childRowIs host s id parentId i := by
  unfold childRowOf childRowIs
  refine Keeps.bind (readChildMeta_keeps (hreads _ .row)) fun cm hcm => ?_
  subst hcm
  refine Keeps.bind (textIs_keeps (hreads _ .child) id) fun b hb => ?_
  subst hb
  simp only
  split
  · rename_i hsame
    rw [hsame]
    exact textIs_keeps (hreads _ (.parent (beq_iff_eq.mp hsame))) parentId
  · rename_i hother
    exact Keeps.pure (by simp [hother])

/-- The search for the row of a child under a parent. -/
theorem childNamed_keeps {parentId id : CStr}
    (hreads : ∀ a, ChildReads host s parentId id a → Admits I a) :
    Keeps I X (anyRow (childRowOf host s id parentId) (List.range s.index.childMetaCount))
      fun b => b = isChildOf host s id parentId :=
  anyRow_keeps fun i hi hbefore =>
    childRowOf_keeps (fun a ha => hreads a ⟨i, hi, hbefore, ha⟩) parentId

theorem childRowEmits_keeps {parentId id : CStr}
    (hreads : ∀ a, ChildEmitReads host s parentId id a → Admits I a) {i : Nat}
    (hi : i < s.index.childMetaCount) :
    Keeps I X (childRowEmits host s id parentId i) fun b =>
      b = ((childMetaAt host s i).emitKeyLen != 0 && childRowIs host s id parentId i) := by
  unfold childRowEmits
  refine Keeps.bind (readChildMeta_keeps (hreads _ (.row hi))) fun cm hcm => ?_
  subst hcm
  split
  · rename_i hzero
    exact Keeps.pure (by simp [hzero])
  · rename_i hlen
    refine (childRowOf_keeps (fun a ha => hreads a (.keyed hi hlen ha)) parentId).mono fun b hb => ?_
    simp [hb, hlen]

variable {failed : Prop}
  (halloc : Keeps I X (alloc : Run ε Bool) fun served => served = false → failed)

include halloc

theorem strdup_keeps (text : CStr) :
    Keeps I X (strdup text) fun r => r = some text ∨ (r = none ∧ failed) := by
  unfold strdup
  refine Keeps.bind halloc fun served hserved => ?_
  cases served with
  | true => exact Keeps.pure (.inl rfl)
  | false => exact Keeps.pure (.inr ⟨rfl, hserved rfl⟩)

/-- The copies of a key and a value, or a pointer that is `NULL`. -/
theorem copyEmit_keeps {keyOff valOff : UInt32}
    (hkey : Admits I (s.textAccess keyOff)) (hval : Admits I (s.textAccess valOff)) (span : CStr) :
    Keeps I X (copyEmit s keyOff valOff span) fun emit =>
      emit = s.emitAt keyOff valOff span ∨ ((emit.key.isNone ∨ emit.value.isNone) ∧ failed) := by
  have hresolve : ∀ tpl, resolveEmit tpl span = (strdup (resolved tpl span) : Run ε _) := by
    intro tpl
    unfold resolveEmit resolved
    split <;> rfl
  unfold copyEmit
  refine Keeps.bind (readText_keeps hkey) fun key hk => ?_
  subst hk
  refine Keeps.bind (strdup_keeps halloc _) fun keyCopy hkeyCopy => ?_
  refine Keeps.bind (readText_keeps hval) fun val hv => ?_
  subst hv
  rw [hresolve]
  refine Keeps.bind (strdup_keeps halloc _) fun valCopy hvalCopy => ?_
  rcases hkeyCopy with rfl | ⟨rfl, hfailed⟩
  · rcases hvalCopy with rfl | ⟨rfl, hfailed⟩
    · exact Keeps.pure (.inl rfl)
    · exact Keeps.pure (.inr ⟨.inr rfl, hfailed⟩)
  · exact Keeps.pure (.inr ⟨.inl rfl, hfailed⟩)

theorem fillNodeEmits_keeps {nodeId : CStr} (hreads : ∀ a, NodeReads host s nodeId a → Admits I a)
    (span : CStr) : ∀ (rows : List Nat) (emits : List Emit),
    (∀ i ∈ rows, i < s.index.nodeMetaCount) →
      Keeps I X (fillNodeEmits host s nodeId span rows emits) fun r =>
        r = some (emits ++ (rows.filter (nodeRowIs host s nodeId)).map fun i =>
          s.emitAt (nodeMetaAt host s i).emitKeyOff (nodeMetaAt host s i).emitValOff span) ∨
        (r = none ∧ failed)
  | [], emits, _ => Keeps.pure (.inl (by simp))
  | i :: rest, emits, h => by
    have hi := h i List.mem_cons_self
    have hrest := fun j hj => h j (List.mem_cons_of_mem i hj)
    unfold fillNodeEmits
    refine Keeps.bind (nodeRowEmits_keeps hreads hi) fun b hb => ?_
    cases b with
    | false =>
      rw [List.filter_cons, ← hb]
      exact fillNodeEmits_keeps hreads span rest emits hrest
    | true =>
      simp only [if_true]
      refine Keeps.bind (copyEmit_keeps halloc (hreads _ (.key hi hb.symm))
        (hreads _ (.value hi hb.symm)) span) fun emit hemit => ?_
      rcases hemit with rfl | ⟨hnull, hfailed⟩
      · rw [if_neg (by simp [Schema.emitAt]), List.filter_cons, ← hb, if_pos rfl, List.map_cons]
        refine (fillNodeEmits_keeps hreads span rest _ hrest).mono fun r hr => ?_
        rwa [List.append_assoc] at hr
      · rw [if_pos hnull]
        exact Keeps.pure (.inr ⟨rfl, hfailed⟩)

/-- **The emits of a match** are those of the node, or a copy failed. -/
theorem buildMatchEmits_keeps {nodeId : CStr}
    (hreads : ∀ a, NodeReads host s nodeId a → Admits I a) (span : CStr) :
    Keeps I X (buildMatchEmits host s nodeId span) fun r =>
      r = some (nodeEmits host s nodeId span) ∨ (r = none ∧ failed) := by
  unfold buildMatchEmits
  refine Keeps.bind (filterRows_keeps fun i hi => nodeRowEmits_keeps hreads hi)
    fun rows hfilter => ?_
  split
  · rename_i hzero
    refine Keeps.pure (.inl ?_)
    rw [nodeEmits, ← hfilter, List.length_eq_zero_iff.mp hzero]
    rfl
  refine Keeps.bind halloc fun served hserved => ?_
  cases served with
  | true =>
    exact fillNodeEmits_keeps halloc hreads span _ [] fun i hi => List.mem_range.mp hi
  | false => exact Keeps.pure (.inr ⟨rfl, hserved rfl⟩)

theorem fillChildEmits_keeps {parentId id : CStr}
    (hreads : ∀ a, ChildEmitReads host s parentId id a → Admits I a) (span : CStr) : ∀ (rows : List Nat) (emits : List Emit),
    (∀ i ∈ rows, i < s.index.childMetaCount) →
      Keeps I X (fillChildEmits host s parentId id span rows emits) fun r =>
        r = (emits ++ (rows.filter fun i =>
          (childMetaAt host s i).emitKeyLen != 0 && childRowIs host s id parentId i).map fun i =>
            s.emitAt (childMetaAt host s i).emitKeyOff (childMetaAt host s i).emitValOff span) ∨
        failed
  | [], emits, _ => Keeps.pure (.inl (by simp))
  | i :: rest, emits, h => by
    have hi := h i List.mem_cons_self
    have hrest := fun j hj => h j (List.mem_cons_of_mem i hj)
    unfold fillChildEmits
    refine Keeps.bind (childRowEmits_keeps hreads hi) fun b hb => ?_
    cases b with
    | false =>
      rw [List.filter_cons, ← hb]
      exact fillChildEmits_keeps hreads span rest emits hrest
    | true =>
      obtain ⟨hlen, hown⟩ := Bool.and_eq_true_iff.mp hb.symm
      rw [bne_iff_ne] at hlen
      simp only [if_true]
      refine Keeps.bind (copyEmit_keeps halloc (hreads _ (.key hi hlen hown))
        (hreads _ (.value hi hlen hown)) span) fun emit hemit => ?_
      rcases hemit with rfl | ⟨-, hfailed⟩
      · rw [List.filter_cons, ← hb, if_pos rfl, List.map_cons]
        refine (fillChildEmits_keeps hreads span rest _ hrest).mono fun r hr => ?_
        rwa [List.append_assoc] at hr
      · exact (fillChildEmits_keeps hreads span rest _ hrest).mono fun _ _ => .inr hfailed

/-- A child match gets its emits, or a copy failed. -/
theorem withChildEmits_keeps {parentId : CStr} {ch : Match} (hnone : ch.emits = [])
    (hreads : ∀ a, ChildEmitReads host s parentId ch.id a → Admits I a) :
    Keeps I X (withChildEmits host s parentId ch) (WithEmits host s failed parentId ch) := by
  obtain ⟨id, span, score, emits, children⟩ := ch
  simp only at hnone
  subst hnone
  unfold withChildEmits
  simp only [List.length_nil, ite_true]
  refine Keeps.bind (filterRows_keeps fun i hi => childRowEmits_keeps hreads hi)
    fun rows hfilter => ?_
  split
  · rename_i hzero
    refine Keeps.pure ⟨[], rfl, .inl ?_⟩
    rw [childEmits, ← hfilter, List.length_eq_zero_iff.mp hzero]
    rfl
  refine Keeps.bind halloc fun served hserved => ?_
  cases served with
  | true =>
    exact Keeps.bind (fillChildEmits_keeps halloc hreads span _ []
      fun i hi => List.mem_range.mp hi) fun emits hemits => Keeps.pure ⟨emits, rfl, hemits⟩
  | false => exact Keeps.pure ⟨[], rfl, .inr (hserved rfl)⟩

/-- So do all child matches of a scan. -/
theorem allChildEmits_keeps (parentId : CStr) : ∀ {items : List Match},
    (∀ ch ∈ items, ch.emits = [] ∧ ∀ a, ChildEmitReads host s parentId ch.id a → Admits I a) →
      Keeps I X (items.mapM (withChildEmits host s parentId))
        (List.Forall₂ (WithEmits host s failed parentId) items)
  | [], _ => Keeps.pure .nil
  | ch :: items, hnone => by
    obtain ⟨hfirst, hrest⟩ := List.forall_mem_cons.mp hnone
    rw [List.mapM_cons]
    refine Keeps.bind (withChildEmits_keeps halloc hfirst.1 hfirst.2) fun ch' hch' => ?_
    exact Keeps.bind (allChildEmits_keeps parentId hrest) fun rest hrest =>
      Keeps.pure (.cons hch' hrest)

end Loops

end Ipa
