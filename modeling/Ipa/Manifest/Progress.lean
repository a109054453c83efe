import Ipa.Manifest.Guarded
import Ipa.Manifest.Accepts

/-!
# The guarded parser is the parser

From a position inside of the text no guard fails: each parser reads at least one byte, its fuel
suffices for what is left, and what it looks at lies in the text or is the NUL behind it. So the
guarded parser does what the parser does, on every text.
-/

namespace Ipa

open Run

namespace Json

/-- The position is not beyond the length. -/
def Inside (j : Json) : Prop := j.pos ≤ j.src.length

section Leaves

variable {j j' : Json}

theorem Reads.inside {n k k' : Nat} {P : List UInt8 → Prop} (h : Reads n k k' P j j')
    (hj : Inside j) : Inside j' :=
  h.pos.2 hj

theorem Inside.skipWs (hj : Inside j) : Inside j.skipWs := (skipWs_reads 0 j).inside hj

theorem length_rest (j : Json) : j.rest.length = j.src.length - j.pos := List.length_drop

theorem peek_lt {c : UInt8} (h : j.peek = some c) : j.pos < j.src.length :=
  (List.getElem?_eq_some_iff.mp h).1

theorem shorter_behind {c : UInt8} (h : j.peek = some c) :
    (j.advance 1).rest.length < j.rest.length := by
  have hpos := peek_lt h
  rw [length_rest, length_rest]
  change j.src.length - (j.pos + 1) < _
  omega

theorem byteAt_eq {i : Nat} {c : UInt8} (h : j.src[i]? = some c) : byteAt j i = pure c := by
  obtain ⟨hi, rfl⟩ := List.getElem?_eq_some_iff.mp h
  unfold byteAt
  rw [if_pos (Nat.le_of_lt hi), List.getD_eq_getElem?_getD, List.getElem?_append_left hi,
    List.getElem?_eq_getElem hi, Option.getD_some]

theorem seek_eq {n : Nat} (h : j.pos + n ≤ j.src.length) :
    seek j (j.pos + n) = pure (j.advance n) := by
  unfold seek
  rw [if_pos ⟨Nat.le_add_right _ _, h⟩]
  rfl

theorem progress_eq (h : j.pos < j'.pos) : progress j j' = pure () := if_pos h

theorem peek_none (h : ¬ j.pos < j.src.length) : j.peek = none :=
  List.getElem?_eq_none (Nat.le_of_not_lt h)

theorem peek_some (h : j.pos < j.src.length) : ∃ c, j.peek = some c :=
  ⟨_, List.getElem?_eq_getElem h⟩

theorem skipWs_cons {c : UInt8} (hpeek : j.peek = some c) (hc : isspace c = true) :
    j.skipWs = (j.advance 1).skipWs := by
  rw [peek_eq] at hpeek
  obtain ⟨s, hs⟩ := List.head?_eq_some_iff.mp hpeek
  have hrest : (j.advance 1).rest = s := by
    rw [rest_advance, hs]
    rfl
  unfold skipWs
  rw [hs, hrest, List.takeWhile_cons, if_pos hc, advance_advance, List.length_cons, Nat.add_comm]

theorem skipWs_stop (h : ∀ c, j.peek = some c → isspace c = false) : j.skipWs = j := by
  have hrest : j.rest = [] ++ j.rest := rfl
  rw [peek_eq] at h
  exact skipWs_behind hrest (fun _ hc => by cases hc) h

namespace Guarded

theorem skipWsLoop_eq : ∀ (n : Nat) (j : Json), j.rest.length < n →
    skipWsLoop n j = pure j.skipWs
  | 0, _, h => absurd h (by omega)
  | n + 1, j, h => by
    unfold skipWsLoop
    by_cases hpos : j.pos < j.src.length
    · obtain ⟨c, hc⟩ := peek_some hpos
      rw [if_pos hpos, byteAt_eq hc, pure_bind]
      by_cases hspace : isspace c = true
      · rw [if_pos hspace, seek_eq hpos, pure_bind, progress_eq (Nat.lt_succ_self _), pure_bind,
          skipWs_cons hc hspace]
        have hlen := shorter_behind hc
        exact skipWsLoop_eq n _ (by omega)
      · rw [if_neg hspace, skipWs_stop]
        intro d hd
        rw [hc] at hd
        cases hd
        simpa using hspace
    · rw [if_neg hpos, skipWs_stop]
      intro d hd
      rw [peek_none hpos] at hd
      cases hd

@[simp] theorem skipWs_eq (j : Json) : skipWs j = pure j.skipWs :=
  skipWsLoop_eq _ _ (Nat.lt_succ_self _)

@[simp] theorem isAt_eq (j : Json) (c : UInt8) : isAt j c = pure (decide (j.peek = some c)) := by
  unfold isAt
  by_cases hpos : j.pos < j.src.length
  · obtain ⟨d, hd⟩ := peek_some hpos
    simp only [if_pos hpos, byteAt_eq hd, pure_bind, hd, Option.some.injEq]
  · simp only [if_neg hpos, peek_none hpos, reduceCtorEq, decide_false]

theorem seek_one {c : UInt8} (h : j.peek = some c) : seek j (j.pos + 1) = pure (j.advance 1) :=
  seek_eq (peek_lt h)

@[simp] theorem expect_eq (j : Json) (c : UInt8) : expect j c = j.expect c := by
  unfold expect Json.expect
  simp only [skipWs_eq, isAt_eq, pure_bind, decide_eq_true_eq]
  split
  · rename_i h
    exact seek_one h
  · rfl

theorem stringLoop_eq : ∀ (n : Nat) (j : Json) (cap : Nat) (buf : List UInt8),
    j.rest.length < n → stringLoop n j cap buf = Json.stringLoop j.rest j cap buf
  | 0, _, _, _, h => absurd h (by omega)
  | n + 1, j, cap, buf, h => by
    unfold stringLoop
    by_cases hpos : j.pos < j.src.length
    · obtain ⟨c, hc⟩ := peek_some hpos
      obtain ⟨s, hs⟩ := List.head?_eq_some_iff.mp ((peek_eq j).symm.trans hc)
      have hrest : (j.advance 1).rest = s := by
        rw [rest_advance, hs]
        rfl
      rw [if_pos hpos, byteAt_eq hc, pure_bind]
      by_cases hq : c = 0x22
      · rw [if_pos hq, seek_one hc, hs, hq, Json.stringLoop]
        rfl
      rw [if_neg hq, seek_one hc, pure_bind, progress_eq (Nat.lt_succ_self _), pure_bind]
      by_cases hb : c = 0x5C
      · rw [if_pos hb, hs, hb]
        by_cases hnext : (j.advance 1).pos < (j.advance 1).src.length
        · obtain ⟨e, he⟩ := peek_some hnext
          obtain ⟨s', hs'⟩ := List.head?_eq_some_iff.mp ((peek_eq _).symm.trans he)
          have hrest' : (j.advance 2).rest = s' := by
            rw [← advance_advance j 1 1, rest_advance, hs']
            rfl
          rw [if_pos hnext, byteAt_eq he, pure_bind, seek_one he, pure_bind, ← hrest, hs',
            Json.stringLoop, advance_advance]
          have hlen := shorter_behind hc
          have hlen' := shorter_behind he
          rw [advance_advance] at hlen'
          refine bind_congr fun r => ?_
          rw [← hrest']
          exact stringLoop_eq n _ _ _ (by omega)
        · have hnil : s = [] := by
            rw [← hrest, ← List.head?_eq_none_iff, ← peek_eq, peek_none hnext]
          rw [if_neg hnext, hnil]
          rfl
      · rw [if_neg hb, hs, Json.stringLoop]
        · have hlen := shorter_behind hc
          refine bind_congr fun r => ?_
          rw [← hrest]
          exact stringLoop_eq n _ _ _ (by omega)
        · exact hq
        · exact fun h => (hb h).elim
        · exact fun _ _ h => (hb h).elim
    · have hnil : j.rest = [] := by
        rw [← List.head?_eq_none_iff, ← peek_eq, peek_none hpos]
      rw [if_neg hpos, hnil]
      rfl

@[simp] theorem parseString_eq (j : Json) : parseString j = Json.parseString j := by
  unfold parseString Json.parseString
  simp only [skipWs_eq, isAt_eq, pure_bind, decide_eq_true_eq, ne_eq, ite_not]
  split
  · rename_i h
    rw [seek_one h, pure_bind]
    refine bind_congr fun _ => ?_
    rw [stringLoop_eq _ _ _ _ (Nat.lt_succ_self _)]
  · rfl

/-! ## Numbers and words -/

theorem strtod_eq (hj : Inside j) (msg : String) :
    strtod j msg = if strtodLen j.rest = 0 then j.setError msg
      else pure (j.advance (strtodLen j.rest)) := by
  have hle := strtodLen_le j.rest
  rw [length_rest] at hle
  unfold Inside at hj
  unfold strtod
  dsimp only
  split
  · rfl
  · exact seek_eq (by omega)

theorem strncmp_eq (j : Json) : ∀ (word : List UInt8) (i : Nat), i + word.length ≤ j.src.length →
    strncmp j word i = pure (decide ((j.src.drop i).take word.length = word))
  | [], i, _ => by simp [strncmp]
  | c :: word, i, h => by
    rw [List.length_cons] at h
    have hi : i < j.src.length := by omega
    unfold strncmp
    rw [byteAt_eq (List.getElem?_eq_getElem hi), pure_bind, List.drop_eq_getElem_cons hi,
      List.length_cons, List.take_succ_cons]
    by_cases hc : j.src[i] = c
    · rw [if_pos hc, strncmp_eq j word (i + 1) (by omega), hc]
      simp only [List.cons.injEq, true_and]
    · rw [if_neg hc]
      simp only [List.cons.injEq, hc, false_and, decide_false]

@[simp] theorem skipWord_eq (j : Json) (word : List UInt8) (hj : Inside j) :
    skipWord j word = j.skipWord word := by
  unfold skipWord Json.skipWord
  by_cases hlen : j.pos + word.length ≤ j.src.length
  · rw [if_pos hlen, strncmp_eq j word j.pos hlen, pure_bind]
    simp only [decide_eq_true_eq, seek_eq hlen]
    rfl
  · rw [if_neg hlen, if_neg]
    intro h
    have hword := congrArg List.length h
    rw [List.length_take, length_rest] at hword
    unfold Inside at hj
    omega

/-! ## Shapes -/

section Shapes

variable {α β : Type}

/-- The loop goes on behind a comma, or stops. -/
theorem again_eq {n : Nat} {P : List UInt8 → Prop} {j₃ : Json} {f g z : Json → Run JsonError α}
    (hj : Inside j) (h : Reads n 0 0 P j j₃)
    (hfg : ∀ j', Inside j' → j'.rest.length + (n + 1) ≤ j.rest.length → f j' = g j') :
    (do
      let j₄ ← skipWs j₃
      if ← isAt j₄ 0x2C then
        let j' ← seek j₄ (j₄.pos + 1)
        progress j j'
        f j'
      else z j₄) = if j₃.skipWs.peek = some 0x2C then g (j₃.skipWs.advance 1) else z j₃.skipWs := by
  simp only [skipWs_eq, isAt_eq, pure_bind, decide_eq_true_eq]
  split
  · rename_i hpeek
    have hcomma := h.then (skip_then_reads (passes_separator (.inl rfl) 0) hpeek)
    have hpos := hcomma.pos.1
    rw [seek_one hpeek, pure_bind, progress_eq (by omega), pure_bind]
    exact hfg _ (hcomma.inside hj) hcomma.shorter
  · rfl

/-- The name of a member. -/
theorem name_eq {f g : Json × CStr → Json → Run JsonError α}
    (hfg : ∀ r j₂, Reads 3 0 0 NameText j j₂ → f r j₂ = g r j₂) :
    (do
      let r ← parseString j
      let j₂ ← expect r.1 0x3A
      f r j₂) = (do
      let r ← j.parseString
      let j₂ ← r.1.expect 0x3A
      g r j₂) := by
  rw [parseString_eq]
  refine bind_congr_of_keeps (parseString_reading 0 j) fun r hr => ?_
  rw [expect_eq]
  refine bind_congr_of_keeps (expect_reads (passes_separator (.inr rfl) 0) r.1) fun j₂ hcolon => ?_
  exact hfg r j₂ (hr.then hcolon)

/-- What stands in brackets. -/
theorem brackets_eq {o c : UInt8} {Inner : List UInt8 → Prop} {v : β}
    {f g : Json → Run JsonError (Json × β)} (hb : Brackets o c Inner) (hj : Inside j)
    (hfg : ∀ j', Inside j' → j'.rest.length + 1 ≤ j.rest.length → f j' = g j') :
    (do
      let j₁ ← expect j o
      progress j j₁
      let j ← skipWs j₁
      if ← isAt j c then
        let j ← seek j (j.pos + 1)
        pure (j, v)
      else
        let (j, inner) ← f j
        let j ← expect j c
        pure (j, inner)) = (do
      let j ← j.expect o
      let j := j.skipWs
      if j.peek = some c then pure (j.advance 1, v)
      else
        let (j, inner) ← g j
        let j ← j.expect c
        pure (j, inner)) := by
  rw [expect_eq]
  refine bind_congr_of_keeps (expect_reads (hb.opens 0) j) fun j₁ hopen => ?_
  have hread := hopen.then (skipWs_reads 1 j₁)
  simp only [progress_eq (show j.pos < j₁.pos from hopen.pos.1), pure_bind, skipWs_eq, isAt_eq,
    decide_eq_true_eq, expect_eq]
  split
  · rename_i hpeek
    rw [seek_one hpeek, pure_bind]
  · rw [hfg _ (hread.inside hj) hread.shorter]

/-- What stands in brackets, where only its end matters. -/
theorem skips_eq {o c : UInt8} {Inner : List UInt8 → Prop} {f g : Json → Run JsonError Json}
    (hb : Brackets o c Inner) (hj : Inside j)
    (hfg : ∀ j', Inside j' → j'.rest.length + 1 ≤ j.rest.length → f j' = g j') :
    (do
      let j₁ ← expect j o
      progress j j₁
      let j ← skipWs j₁
      if ← isAt j c then seek j (j.pos + 1)
      else
        let j ← f j
        expect j c) = (do
      let j ← j.expect o
      let j := j.skipWs
      if j.peek = some c then pure (j.advance 1)
      else
        let j ← g j
        j.expect c) := by
  rw [expect_eq]
  refine bind_congr_of_keeps (expect_reads (hb.opens 0) j) fun j₁ hopen => ?_
  have hread := hopen.then (skipWs_reads 1 j₁)
  simp only [progress_eq (show j.pos < j₁.pos from hopen.pos.1), pure_bind, skipWs_eq, isAt_eq,
    decide_eq_true_eq, expect_eq]
  split
  · rename_i hpeek
    exact seek_one hpeek
  · rw [hfg _ (hread.inside hj) hread.shorter]

end Shapes

/-! ## Unknown values -/

/-- The parsers of unknown values at one fuel. -/
structure SkipsAgree (fuel : Nat) : Prop where
  value : ∀ j, Inside j → 3 * j.rest.length + 2 ≤ fuel → skipValue fuel j = Json.skipValue fuel j
  object : ∀ j, Inside j → 3 * j.rest.length + 1 ≤ fuel → skipObject fuel j = Json.skipObject fuel j
  array : ∀ j, Inside j → 3 * j.rest.length + 1 ≤ fuel → skipArray fuel j = Json.skipArray fuel j
  members : ∀ j, Inside j → 3 * j.rest.length + 1 ≤ fuel →
    skipMembers fuel j = Json.skipMembers fuel j
  elements : ∀ j, Inside j → 3 * j.rest.length + 3 ≤ fuel →
    skipElements fuel j = Json.skipElements fuel j

theorem skipsAgree : ∀ fuel, SkipsAgree fuel
  | 0 => ⟨fun _ _ h => absurd h (by omega), fun _ _ h => absurd h (by omega),
      fun _ _ h => absurd h (by omega), fun _ _ h => absurd h (by omega),
      fun _ _ h => absurd h (by omega)⟩
  | fuel + 1 => by
    have ih := skipsAgree fuel
    have reads := skipsRead fuel
    constructor
    · intro j hj hfuel
      have hskip := (skipWs_reads 0 j).shorter
      unfold skipValue Json.skipValue
      rw [skipWs_eq, pure_bind]
      generalize hj' : j.skipWs = j' at hskip
      have hin : Inside j' := hj' ▸ hj.skipWs
      dsimp only
      by_cases hpos : j'.pos < j'.src.length
      · obtain ⟨c, hc⟩ := peek_some hpos
        simp only [if_pos hpos, byteAt_eq hc, hc, pure_bind, parseString_eq,
          ih.object j' hin (by omega), ih.array j' hin (by omega), skipWord_eq _ _ hin,
          strtod_eq hin]
      · rw [if_neg hpos, peek_none hpos]
    · intro j hj hfuel
      unfold skipObject Json.skipObject
      exact skips_eq braces hj fun j' hin hlen => ih.members j' hin (by omega)
    · intro j hj hfuel
      unfold skipArray Json.skipArray
      exact skips_eq squares hj fun j' hin hlen => ih.elements j' hin (by omega)
    · intro j hj hfuel
      unfold skipMembers Json.skipMembers
      apply name_eq
      intro r j₂ hname
      have hshort := hname.shorter
      rw [ih.value j₂ (hname.inside hj) (by omega)]
      refine bind_congr_of_keeps (reads.value 0 j₂ (by omega)) fun j₃ hvalue => ?_
      rw [progress_eq hvalue.pos.1, pure_bind]
      exact again_eq hj (hname.then hvalue) fun j' hin hlen => ih.members j' hin (by omega)
    · intro j hj hfuel
      unfold skipElements Json.skipElements
      rw [ih.value j hj (by omega)]
      refine bind_congr_of_keeps (reads.value 0 j (by omega)) fun j₃ hvalue => ?_
      rw [progress_eq hvalue.pos.1, pure_bind]
      exact again_eq hj hvalue fun j' hin hlen => ih.elements j' hin (by omega)

theorem skipValue_eq (hj : Inside j) : skipValue j.fuel j = Json.skipValue j.fuel j :=
  (skipsAgree _).value j hj (by unfold fuel; omega)

/-! ## Strings and emits -/

theorem stringArrayLoop_eq : ∀ (fuel : Nat) (j : Json) (arr : List CStr) (cap : Nat), Inside j →
    3 * j.rest.length + 1 ≤ fuel →
      stringArrayLoop fuel j arr cap = Json.stringArrayLoop fuel j arr cap
  | 0, _, _, _, _, h => absurd h (by omega)
  | fuel + 1, j, arr, cap, hj, hfuel => by
    unfold stringArrayLoop Json.stringArrayLoop
    rw [skipWs_eq, pure_bind, parseString_eq]
    refine bind_congr_of_keeps (parseString_reading 0 j.skipWs) fun r hr => ?_
    refine bind_congr fun cap' => ?_
    exact again_eq hj hr.string.skipped fun j' hin hlen =>
      stringArrayLoop_eq fuel j' _ _ hin (by omega)

theorem parseStringArray_eq (hj : Inside j) : parseStringArray j = Json.parseStringArray j := by
  unfold parseStringArray Json.parseStringArray
  exact brackets_eq squares hj fun j' hin _ =>
    stringArrayLoop_eq j'.fuel j' _ _ hin (by unfold fuel; omega)

theorem emitLoop_eq : ∀ (fuel : Nat) (j : Json) (arr : List EmitDef) (cap : Nat), Inside j →
    3 * j.rest.length + 1 ≤ fuel → emitLoop fuel j arr cap = Json.emitLoop fuel j arr cap
  | 0, _, _, _, _, h => absurd h (by omega)
  | fuel + 1, j, arr, cap, hj, hfuel => by
    unfold emitLoop Json.emitLoop
    apply name_eq
    intro r j₂ hname
    rw [parseString_eq]
    refine bind_congr_of_keeps (parseString_reading 0 j₂) fun val hr => ?_
    refine bind_congr fun cap' => ?_
    exact again_eq hj (hname.then hr.string) fun j' hin hlen =>
      emitLoop_eq fuel j' _ _ hin (by omega)

theorem parseEmitObject_eq (hj : Inside j) : parseEmitObject j = Json.parseEmitObject j := by
  unfold parseEmitObject Json.parseEmitObject
  exact brackets_eq braces hj fun j' hin _ =>
    emitLoop_eq j'.fuel j' _ _ hin (by unfold fuel; omega)

/-! ## Nodes -/

/-- The parsers of nodes at one fuel. -/
structure NodesAgree (fuel : Nat) : Prop where
  array : ∀ j, Inside j → 3 * j.rest.length + 1 ≤ fuel →
    parseNodeArray fuel j = Json.parseNodeArray fuel j
  loop : ∀ j arr cap, Inside j → 3 * j.rest.length + 2 ≤ fuel →
    nodeArrayLoop fuel j arr cap = Json.nodeArrayLoop fuel j arr cap
  node : ∀ j, Inside j → 3 * j.rest.length + 1 ≤ fuel → parseNode fuel j = Json.parseNode fuel j
  members : ∀ j nd, Inside j → 3 * j.rest.length + 1 ≤ fuel →
    nodeMembers fuel j nd = Json.nodeMembers fuel j nd

theorem nodesAgree : ∀ fuel, NodesAgree fuel
  | 0 => ⟨fun _ _ h => absurd h (by omega), fun _ _ _ _ h => absurd h (by omega),
      fun _ _ h => absurd h (by omega), fun _ _ _ h => absurd h (by omega)⟩
  | fuel + 1 => by
    have ih := nodesAgree fuel
    have reads := nodesRead fuel
    constructor
    · intro j hj hfuel
      unfold parseNodeArray Json.parseNodeArray
      exact brackets_eq squares hj fun j' hin hlen => ih.loop j' _ _ hin (by omega)
    · intro j arr cap hj hfuel
      have hskip := (skipWs_reads 0 j).shorter
      unfold nodeArrayLoop Json.nodeArrayLoop
      refine bind_congr fun cap' => ?_
      rw [skipWs_eq, pure_bind, ih.node _ hj.skipWs (by omega)]
      refine bind_congr_of_keeps (reads.node 0 _ (by omega)) fun r hvalue => ?_
      dsimp only
      rw [progress_eq hvalue.pos.1, pure_bind]
      exact again_eq hj hvalue.skipped fun j' hin hlen => ih.loop j' _ _ hin (by omega)
    · intro j hj hfuel
      unfold parseNode Json.parseNode
      exact brackets_eq braces hj fun j' hin hlen => ih.members j' _ hin (by omega)
    · intro j nd hj hfuel
      unfold nodeMembers Json.nodeMembers
      apply name_eq
      intro key j₂ hname
      have hshort := hname.shorter
      have hskip := (skipWs_reads 0 j₂).shorter
      have hin : Inside j₂.skipWs := (hname.inside hj).skipWs
      rw [skipWs_eq, pure_bind]
      extract_lets next j' next'
      have hnext : ∀ r : Json × NodeDef, Reads 1 0 0 ValueText j' r.1 →
          (pure r >>= next) = (pure r >>= next') := by
        rintro ⟨j₄, nd⟩ hvalue
        simp only [pure_bind, next, next']
        exact again_eq hj (hname.then hvalue.skipped) fun j' hin hlen =>
          ih.members j' _ hin (by omega)
      refine ite_congr rfl (fun _ => ?_) fun _ => ?_
      · rw [parseString_eq]
        exact bind_congr_of_keeps (parseString_reading 0 j') fun _ h => hnext (_, _) h.string
      refine ite_congr rfl (fun _ => ?_) fun _ => ?_
      · rw [parseStringArray_eq hin]
        exact bind_congr_of_keeps (parseStringArray_reads 0 j') fun _ h => hnext (_, _) h
      refine ite_congr rfl (fun _ => ?_) fun _ => ?_
      · rw [parseEmitObject_eq hin]
        exact bind_congr_of_keeps (parseEmitObject_reads 0 j') fun _ h => hnext (_, _) h
      refine ite_congr rfl (fun _ => ?_) fun _ => ?_
      · rw [ih.array _ hin (by omega)]
        refine bind_congr_of_keeps (reads.array 0 j₂.skipWs (by omega)) fun _ h => ?_
        dsimp only
        rw [progress_eq h.pos.1, pure_bind]
        exact hnext (_, _) h
      · rw [skipValue_eq hin]
        exact bind_congr_of_keeps (skipValue_reads 0 j') fun _ h => hnext (_, _) h

theorem parseNodeArray_eq (hj : Inside j) :
    parseNodeArray j.fuel j = Json.parseNodeArray j.fuel j :=
  (nodesAgree _).array j hj (by unfold fuel; omega)

/-! ## The manifest -/

section Manifest

variable [Arith]

theorem parseDouble_eq (hj : Inside j) : parseDouble j = Json.parseDouble j := by
  unfold parseDouble Json.parseDouble
  rw [skipWs_eq, pure_bind, strtod_eq hj.skipWs]
  dsimp only
  split
  · rfl
  · rw [pure_bind, advance_pos, Nat.add_sub_cancel_left]

theorem defaultsMembers_eq : ∀ (fuel : Nat) (j : Json) (m : Manifest), Inside j →
    3 * j.rest.length + 1 ≤ fuel → defaultsMembers fuel j m = Json.defaultsMembers fuel j m
  | 0, _, _, _, h => absurd h (by omega)
  | fuel + 1, j, m, hj, hfuel => by
    unfold defaultsMembers Json.defaultsMembers
    apply name_eq
    intro dk j₂ hname
    have hin : Inside j₂.skipWs := (hname.inside hj).skipWs
    rw [skipWs_eq, pure_bind]
    extract_lets next j' next'
    have hnext : ∀ r : Json × Manifest, Reads 1 0 0 ValueText j' r.1 →
        (pure r >>= next) = (pure r >>= next') := by
      rintro ⟨j₄, m⟩ hvalue
      simp only [pure_bind, next, next']
      exact again_eq hj (hname.then hvalue.skipped) fun j' hin hlen =>
        defaultsMembers_eq fuel j' _ hin (by omega)
    rw [parseDouble_eq (j := j') hin, skipValue_eq (j := j') hin]
    refine ite_congr rfl (fun _ => ?_) fun _ => ?_
    · exact bind_congr_of_keeps (parseDouble_reads 0 j') fun _ h => hnext (_, _) h
    refine ite_congr rfl (fun _ => ?_) fun _ => ?_
    · exact bind_congr_of_keeps (parseDouble_reads 0 j') fun _ h => hnext (_, _) h
    refine ite_congr rfl (fun _ => ?_) fun _ => ?_
    · exact bind_congr_of_keeps (parseDouble_reads 0 j') fun _ h => hnext (_, _) h
    · exact bind_congr_of_keeps (skipValue_reads 0 j') fun _ h => hnext (_, _) h

theorem parseDefaults_eq (hj : Inside j) (m : Manifest) :
    parseDefaults j m = Json.parseDefaults j m := by
  unfold parseDefaults Json.parseDefaults
  exact brackets_eq braces hj fun j' hin _ =>
    defaultsMembers_eq j'.fuel j' _ hin (by unfold fuel; omega)

theorem manifestMembers_eq : ∀ (fuel : Nat) (j : Json) (m : Manifest), Inside j →
    3 * j.rest.length + 1 ≤ fuel → manifestMembers fuel j m = Json.manifestMembers fuel j m
  | 0, _, _, _, h => absurd h (by omega)
  | fuel + 1, j, m, hj, hfuel => by
    unfold manifestMembers Json.manifestMembers
    apply name_eq
    intro key j₂ hname
    have hin : Inside j₂.skipWs := (hname.inside hj).skipWs
    rw [skipWs_eq, pure_bind]
    extract_lets next j' next'
    have hnext : ∀ r : Json × Manifest, Reads 1 0 0 ValueText j' r.1 →
        (pure r >>= next) = (pure r >>= next') := by
      rintro ⟨j₄, m⟩ hvalue
      simp only [pure_bind, next, next']
      exact again_eq hj (hname.then hvalue.skipped) fun j' hin hlen =>
        manifestMembers_eq fuel j' _ hin (by omega)
    rw [parseString_eq j', parseDefaults_eq (j := j') hin, parseNodeArray_eq (j := j') hin,
      skipValue_eq (j := j') hin]
    refine ite_congr rfl (fun _ => ?_) fun _ => ?_
    · exact bind_congr_of_keeps (parseString_reading 0 j') fun _ h => hnext (_, _) h.string
    refine ite_congr rfl (fun _ => ?_) fun _ => ?_
    · exact bind_congr_of_keeps (parseString_reading 0 j') fun _ h => hnext (_, _) h.string
    refine ite_congr rfl (fun _ => ?_) fun _ => ?_
    · exact bind_congr_of_keeps (parseString_reading 0 j') fun _ h => hnext (_, _) h.string
    refine ite_congr rfl (fun _ => ?_) fun _ => ?_
    · exact bind_congr_of_keeps (parseString_reading 0 j') fun _ h => hnext (_, _) h.string
    refine ite_congr rfl (fun _ => ?_) fun _ => ?_
    · exact bind_congr_of_keeps (parseDefaults_reads 0 j' m) fun r h => hnext r h
    refine ite_congr rfl (fun _ => ?_) fun _ => ?_
    · exact bind_congr_of_keeps (parseNodeArray_reads 0 j') fun _ h => hnext (_, _) h
    · exact bind_congr_of_keeps (skipValue_reads 0 j') fun _ h => hnext (_, _) h

theorem parseManifest_eq (hj : Inside j) : parseManifest j = Json.parseManifest j := by
  unfold parseManifest Json.parseManifest
  exact brackets_eq braces hj fun j' hin _ =>
    manifestMembers_eq j'.fuel j' _ hin (by unfold fuel; omega)

end Manifest

end Guarded

end Leaves

end Json

open Json

/-- **Progress**: on every text, followed by a NUL, the guarded parser does what the parser does, and
none of its guards fails. It stops at a position in the text. -/
theorem parseManifest_progress [Arith] (text : List UInt8) (e : Env) :
    (Guarded.parseManifest ⟨text, 0⟩).exec e = (parseManifest ⟨text, 0⟩).exec e ∧
      match ((Guarded.parseManifest ⟨text, 0⟩).exec e).1 with
      | .ok (j, _) => j.src = text ∧ j.pos ≤ text.length
      | .error (.fail _) => True
      | .error (.fault _) => False := by
  have hin : Inside ⟨text, 0⟩ := Nat.zero_le _
  rw [Guarded.parseManifest_eq hin]
  refine ⟨rfl, ?_⟩
  obtain ⟨-, hread⟩ := parseManifest_reads ⟨text, 0⟩ e trivial
  rcases hexec : ((parseManifest ⟨text, 0⟩).exec e).1 with (f | err) | ⟨j, m⟩ <;>
    rw [hexec] at hread
  · exact hread
  · trivial
  · obtain ⟨j₂, hpeek, rfl, hread⟩ := hread
    have hsrc : j.src = text := hread.src
    have hpos : j.pos ≤ j.src.length :=
      hread.inside ((skip_then_reads (passes_open (.inl rfl) 0) hpeek).inside hin)
    exact ⟨hsrc, hsrc ▸ hpos⟩

end Ipa
