import Ipa.Manifest.Renders
import Ipa.Lib.StrtodJson

/-!
# What the parsers take

Where a text starts with what a parser reads, the parser takes exactly that: the white space in front
of it, the text, and not a byte more. What follows is a parameter, restricted only where a number
ends. Here are the tokens, the brackets and the unknown values, which are any JSON values.
-/

namespace Ipa

open Run JsonText

namespace Json

/-! ## Texts taken from the front -/

section Tokens

variable {j : Json} {a s : List UInt8}

/-- The tokenizer behind a text. -/
def past (j : Json) (t : List UInt8) : Json := j.advance t.length

@[simp] theorem past_past (j : Json) (a b : List UInt8) : (j.past a).past b = j.past (a ++ b) := by
  unfold past
  rw [advance_advance, List.length_append]

theorem rest_past (h : j.rest = a ++ s) : (j.past a).rest = s := rest_behind h

theorem rest_past_append {b : List UInt8} (h : j.rest = a ++ (b ++ s)) :
    (j.past (a ++ b)).rest = s :=
  rest_past (by rw [h, List.append_assoc])

theorem past_advance (j : Json) (a : List UInt8) (c : UInt8) :
    (j.past a).advance 1 = j.past (a ++ [c]) :=
  past_past j a [c]

theorem length_past (h : j.rest = a ++ s) : (j.past a).rest.length + a.length = j.rest.length := by
  rw [rest_past h, h, List.length_append, Nat.add_comm]

theorem skipWs_past (b : Gap) (h : j.rest = b.bytes ++ s) (hs : Solid s) :
    j.skipWs = j.past b.bytes :=
  skipWs_behind h b.white hs

theorem peek_past {c : UInt8} (h : j.rest = a ++ c :: s) : (j.past a).peek = some c := by
  rw [peek_eq, rest_past h, List.head?_cons]

variable {I : Env → Prop} {X : Stop JsonError → Prop}

theorem expect_keeps {c : UInt8} (b : Gap) (h : j.rest = b.bytes ++ c :: s)
    (hc : isspace c = false) : Keeps I X (j.expect c) (· = j.past (b.bytes ++ [c])) := by
  unfold expect
  dsimp only
  rw [skipWs_past b h (solid_cons hc), peek_past h, if_pos rfl]
  refine Keeps.pure ?_
  rw [← past_past]
  rfl

/-- A comma behind an item. -/
theorem comma_behind (b : Gap) (h : j.rest = b.bytes ++ 0x2C :: s) :
    j.skipWs = j.past b.bytes ∧ (j.past b.bytes).peek = some 0x2C :=
  ⟨skipWs_past b h (solid_cons rfl), peek_past h⟩

/-- A closing bracket behind an item. -/
theorem close_behind {c : UInt8} (b : Gap) (h : j.rest = b.bytes ++ c :: s)
    (hc : c = 0x5D ∨ c = 0x7D) :
    j.skipWs = j.past b.bytes ∧ (j.past b.bytes).peek ≠ some 0x2C := by
  have hspace : isspace c = false := by rcases hc with rfl | rfl <;> rfl
  refine ⟨skipWs_past b h (solid_cons hspace), ?_⟩
  rw [peek_past h]
  rcases hc with rfl | rfl <;> decide

end Tokens

/-! ## Shapes -/

def Gap.none : Gap := ⟨[], fun _ h => by cases h⟩

/-- A text that starts with no white space and no closing bracket. -/
def Starts (t : List UInt8) : Prop :=
  ∃ c t', t = c :: t' ∧ isspace c = false ∧ c ≠ 0x5D ∧ c ≠ 0x7D

theorem Starts.solid {t : List UInt8} (h : Starts t) (s : List UInt8) : Solid (t ++ s) := by
  obtain ⟨c, t', rfl, hspace, -⟩ := h
  exact solid_cons hspace

theorem starts_quoted (ps : List Piece) : Starts (quoted ps) := ⟨0x22, _, rfl, by decide⟩

section Shapes

variable {I : Env → Prop} {X : Stop JsonError → Prop} {α : Type} {Q : α → Prop} {j : Json}
variable {o c : UInt8} {t s : List UInt8}

/-- An opening bracket, with the closing one behind it. -/
theorem opens_empty (b gap : Gap) (h : j.rest = b.bytes ++ o :: (gap.bytes ++ c :: s))
    (ho : isspace o = false) (hc : isspace c = false) :
    Keeps I X (j.expect o) fun j₁ => j₁.skipWs = j.past (b.bytes ++ o :: gap.bytes) ∧
      (j.past (b.bytes ++ o :: gap.bytes)).peek = some c := by
  refine (expect_keeps b h ho).mono ?_
  rintro _ rfl
  have hrest : (j.past (b.bytes ++ [o])).rest = gap.bytes ++ c :: s := by
    apply rest_past
    rw [h, List.append_assoc]
    rfl
  have hskip := skipWs_past gap hrest (solid_cons hc)
  have hpeek := peek_past hrest
  rw [past_past, List.append_assoc] at hskip hpeek
  exact ⟨hskip, hpeek⟩

/-- An opening bracket, with something in the brackets. -/
theorem opens_full (b gap : Gap) (h : j.rest = b.bytes ++ o :: (gap.bytes ++ (t ++ s)))
    (ho : isspace o = false) (ht : Starts t) (hc : c = 0x5D ∨ c = 0x7D) :
    Keeps I X (j.expect o) fun j₁ => j₁.skipWs = j.past (b.bytes ++ o :: gap.bytes) ∧
      (j.past (b.bytes ++ o :: gap.bytes)).peek ≠ some c := by
  refine (expect_keeps b h ho).mono ?_
  rintro _ rfl
  have hrest : (j.past (b.bytes ++ [o])).rest = gap.bytes ++ (t ++ s) := by
    apply rest_past
    rw [h, List.append_assoc]
    rfl
  obtain ⟨d, t', rfl, hspace, hne⟩ := ht
  have hskip := skipWs_past gap hrest (solid_cons hspace)
  have hpeek := peek_past hrest
  rw [past_past, List.append_assoc] at hskip hpeek
  refine ⟨hskip, fun heq => ?_⟩
  cases hpeek.symm.trans heq
  rcases hc with hc | hc
  · exact hne.1 hc
  · exact hne.2 hc

/-- The closing bracket behind what was read. -/
theorem closes_keeps {a : List UInt8} (h : j.rest = a ++ (t ++ c :: s)) (hc : isspace c = false) :
    Keeps I X (((j.past a).past t).expect c) (· = j.past (a ++ (t ++ [c]))) := by
  have hclose : ((j.past a).past t).rest = Gap.none.bytes ++ c :: s := rest_past (rest_past h)
  refine (expect_keeps .none hclose hc).mono ?_
  rintro _ rfl
  rw [past_past, past_past]
  rfl

/-- The name of a member and its colon. -/
theorem name_keeps [Serves I X JsonError.silent] (before mid : Gap) (ps : List Piece)
    (h : j.rest = before.bytes ++ (quoted ps ++ (mid.bytes ++ 0x3A :: s)))
    {f : Json × CStr → Json → Run JsonError α}
    (hf : ∀ j₁, Keeps I X (f (j₁, CStr.ofBuffer (ps.map Piece.byte))
      (j.past (before.bytes ++ (quoted ps ++ (mid.bytes ++ [0x3A]))))) Q) :
    Keeps I X (do
      let r ← j.parseString
      let j₂ ← r.1.expect 0x3A
      f r j₂) Q := by
  refine Keeps.bind (parseString_keeps before.white h) ?_
  rintro _ rfl
  have hrest : (j.past (before.bytes ++ quoted ps)).rest = mid.bytes ++ 0x3A :: s := by
    apply rest_past
    rw [h, List.append_assoc]
  rw [← List.length_append]
  refine Keeps.bind (expect_keeps (j := j.past (before.bytes ++ quoted ps)) mid hrest rfl) ?_
  rintro _ rfl
  rw [past_past, List.append_assoc]
  exact hf _

end Shapes

section Strings

variable {I : Env → Prop} {X : Stop JsonError → Prop} [Serves I X JsonError.silent]
variable {j : Json} {s : List UInt8}

theorem quoted_keeps (b : Gap) (ps : List Piece) (h : j.rest = b.bytes ++ (quoted ps ++ s)) :
    Keeps I X (parseString j)
      (· = (j.past (b.bytes ++ quoted ps), CStr.ofBuffer (ps.map Piece.byte))) := by
  refine (parseString_keeps b.white h).mono ?_
  rintro r rfl
  rw [← List.length_append]
  rfl

end Strings

/-! ## Unknown values -/

def Gap.of (b : Space) : Gap := ⟨b.bytes, fun c hc => isspace_of_isWs (b.white c hc)⟩

theorem bytes_of (b : Space) : b.bytes = (Gap.of b).bytes := rfl

theorem stops_gap {s : List UInt8} (b : Gap) (h : Stops s) : Stops (b.bytes ++ s) :=
  h.white b.white

/-- A number starts with a byte that no other value starts with. -/
theorem numeral_head (n : Numeral) : ∃ c t, n.text = c :: t ∧ isspace c = false ∧
    c ∉ ascii "]\x7d\"\x7b[tfn" := by
  obtain ⟨c, t, htext, hc⟩ := n.head
  have hfacts : ∀ c, c = 0x2D ∨ isDigit c = true →
      isspace c = false ∧ c ∉ ascii "]\x7d\"\x7b[tfn" := forall_byte (by decide +kernel)
  exact ⟨c, t, htext, hfacts c hc⟩

theorem starts_numeral (n : Numeral) : Starts n.text := by
  obtain ⟨c, t, htext, hspace, hne⟩ := numeral_head n
  refine ⟨c, t, htext, hspace, ?_, ?_⟩
  · rintro rfl
    exact hne (by decide)
  · rintro rfl
    exact hne (by decide)

theorem starts_value (v : Value) : Starts v.text := by
  cases v with
  | word w => cases w <;> exact ⟨_, _, rfl, by decide⟩
  | number n => exact starts_numeral n
  | string gs => exact ⟨0x22, _, rfl, by decide⟩
  | emptyArray b => exact ⟨0x5B, _, rfl, by decide⟩
  | array items => exact ⟨0x5B, _, rfl, by decide⟩
  | emptyObject b => exact ⟨0x7B, _, rfl, by decide⟩
  | object members => exact ⟨0x7B, _, rfl, by decide⟩

/-- The white space in front of the first item. -/
theorem elements_strip (items : Elements) : ∃ (b : Gap) (items' : Elements),
    items.text = b.bytes ++ items'.text ∧ Starts items'.text := by
  have hstart : ∀ (v : Value) (s : List UInt8), Starts (v.text ++ s) := by
    intro v s
    obtain ⟨c, t, htext, hc⟩ := starts_value v
    exact ⟨c, t ++ s, by rw [htext]; rfl, hc⟩
  cases items with
  | last before v after =>
    exact ⟨Gap.of before, .last .none v after, rfl, hstart v _⟩
  | more before v after rest =>
    exact ⟨Gap.of before, .more .none v after rest, rfl, hstart v _⟩

theorem members_strip (ms : Members) : ∃ (b : Gap) (ms' : Members),
    ms.text = b.bytes ++ ms'.text ∧ Starts ms'.text := by
  cases ms with
  | last before name after before' v after' =>
    exact ⟨Gap.of before, .last .none name after before' v after', rfl, 0x22, _, rfl, by decide⟩
  | more before name after before' v after' rest =>
    exact ⟨Gap.of before, .more .none name after before' v after' rest, rfl, 0x22, _, rfl, by decide⟩

section Skips

variable (I : Env → Prop) (X : Stop JsonError → Prop)

/-- The parsers of unknown values, at one fuel. -/
structure SkipsTake (fuel : Nat) : Prop where
  value : ∀ (b : Gap) (v : Value) (s : List UInt8) (j : Json), j.rest = b.bytes ++ (v.text ++ s) →
    Stops s → 3 * j.rest.length + 2 ≤ fuel →
      Keeps I X (skipValue fuel j) (· = j.past (b.bytes ++ v.text))
  members : ∀ (ms : Members) (s : List UInt8) (j : Json), j.rest = ms.text ++ 0x7D :: s →
    3 * j.rest.length + 1 ≤ fuel → Keeps I X (skipMembers fuel j) (· = j.past ms.text)
  elements : ∀ (items : Elements) (s : List UInt8) (j : Json), j.rest = items.text ++ 0x5D :: s →
    3 * j.rest.length + 3 ≤ fuel → Keeps I X (skipElements fuel j) (· = j.past items.text)

variable {I X} [Serves I X JsonError.silent] {fuel : Nat} {j : Json} {s : List UInt8}

omit [Serves I X JsonError.silent] in
theorem skipObject_take (hmembers : ∀ (ms : Members) (s : List UInt8) (j' : Json),
    j'.rest = ms.text ++ 0x7D :: s → j'.rest.length < j.rest.length →
      Keeps I X (skipMembers fuel j') (· = j'.past ms.text))
    (v : Value) (hobject : v.IsObject) (h : j.rest = v.text ++ s) :
    Keeps I X (skipObject (fuel + 1) j) (· = j.past v.text) := by
  unfold skipObject
  cases v with
  | emptyObject b =>
    have hrest : j.rest = Gap.none.bytes ++ 0x7B :: ((Gap.of b).bytes ++ 0x7D :: s) := by
      rw [h, Value.text]
      simp [Gap.none, Gap.of]
    refine Keeps.bind (opens_empty .none (Gap.of b) hrest rfl rfl) fun j₁ ⟨hskip, hpeek⟩ => ?_
    dsimp only
    rw [hskip, if_pos hpeek]
    refine Keeps.pure ?_
    change (j.past _).past [0x7D] = _
    rw [past_past]
    rfl
  | object ms =>
    obtain ⟨b, ms', htext, hstarts⟩ := members_strip ms
    have hrest : j.rest = (0x7B :: b.bytes) ++ (ms'.text ++ 0x7D :: s) := by
      rw [h, Value.text, htext]
      simp
    have hlen := length_past hrest
    rw [List.length_cons] at hlen
    refine Keeps.bind (opens_full .none b hrest rfl hstarts (.inr rfl)) fun j₁ ⟨hskip, hpeek⟩ => ?_
    dsimp only
    rw [hskip, if_neg hpeek]
    change Keeps I X (skipMembers fuel (j.past (0x7B :: b.bytes)) >>= _) _
    refine Keeps.bind (hmembers ms' s _ (rest_past hrest) (by omega)) ?_
    rintro _ rfl
    rw [Value.text, htext, List.append_assoc]
    exact closes_keeps hrest rfl
  | _ => cases hobject

omit [Serves I X JsonError.silent] in
theorem skipArray_take (helements : ∀ (items : Elements) (s : List UInt8) (j' : Json),
    j'.rest = items.text ++ 0x5D :: s → j'.rest.length < j.rest.length →
      Keeps I X (skipElements fuel j') (· = j'.past items.text))
    (v : Value) (harray : v.IsArray) (h : j.rest = v.text ++ s) :
    Keeps I X (skipArray (fuel + 1) j) (· = j.past v.text) := by
  unfold skipArray
  cases v with
  | emptyArray b =>
    have hrest : j.rest = Gap.none.bytes ++ 0x5B :: ((Gap.of b).bytes ++ 0x5D :: s) := by
      rw [h, Value.text]
      simp [Gap.none, Gap.of]
    refine Keeps.bind (opens_empty .none (Gap.of b) hrest rfl rfl) fun j₁ ⟨hskip, hpeek⟩ => ?_
    dsimp only
    rw [hskip, if_pos hpeek]
    refine Keeps.pure ?_
    change (j.past _).past [0x5D] = _
    rw [past_past]
    rfl
  | array items =>
    obtain ⟨b, items', htext, hstarts⟩ := elements_strip items
    have hrest : j.rest = (0x5B :: b.bytes) ++ (items'.text ++ 0x5D :: s) := by
      rw [h, Value.text, htext]
      simp
    have hlen := length_past hrest
    rw [List.length_cons] at hlen
    refine Keeps.bind (opens_full .none b hrest rfl hstarts (.inl rfl)) fun j₁ ⟨hskip, hpeek⟩ => ?_
    dsimp only
    rw [hskip, if_neg hpeek]
    change Keeps I X (skipElements fuel (j.past (0x5B :: b.bytes)) >>= _) _
    refine Keeps.bind (helements items' s _ (rest_past hrest) (by omega)) ?_
    rintro _ rfl
    rw [Value.text, htext, List.append_assoc]
    exact closes_keeps hrest rfl
  | _ => cases harray

omit [Serves I X JsonError.silent] in
theorem skipWord_take (w : Word) (h : j.rest = w.text ++ s) :
    Keeps I X (j.skipWord w.text) (· = j.past w.text) := by
  unfold skipWord
  rw [h, List.take_left, if_pos rfl]
  exact Keeps.pure rfl

/-- A value, from the members and the elements of a smaller fuel. -/
theorem SkipsTake.value_next (ih : SkipsTake I X fuel) (b : Gap) (v : Value)
    (h : j.rest = b.bytes ++ (v.text ++ s)) (hstops : Stops s)
    (hfuel : 3 * j.rest.length + 2 ≤ fuel + 2) :
    Keeps I X (skipValue (fuel + 2) j) (· = j.past (b.bytes ++ v.text)) := by
  have hlen := length_past h
  have hrest := rest_past h
  obtain ⟨c, t, htext, hspace, -⟩ := starts_value v
  have hsolid : Solid (v.text ++ s) := (starts_value v).solid s
  have hpeek : (j.past b.bytes).peek = some c := by
    apply peek_past (s := t ++ s)
    rw [h, htext]
    rfl
  unfold skipValue
  dsimp only
  rw [skipWs_past b h hsolid, hpeek, ← past_past]
  generalize j.past b.bytes = j' at hlen hrest hpeek
  dsimp only
  have hmembers : ∀ (ms : Members) (s : List UInt8) (k : Json), k.rest = ms.text ++ 0x7D :: s →
      k.rest.length < j'.rest.length → Keeps I X (skipMembers fuel k) (· = k.past ms.text) :=
    fun ms s k hk hshort => ih.members ms s k hk (by omega)
  have helements : ∀ (items : Elements) (s : List UInt8) (k : Json),
      k.rest = items.text ++ 0x5D :: s → k.rest.length < j'.rest.length →
        Keeps I X (skipElements fuel k) (· = k.past items.text) :=
    fun items s k hk hshort => ih.elements items s k hk (by omega)
  cases v with
  | word w =>
    cases w <;> cases htext
    · exact skipWord_take .null hrest
    · exact skipWord_take .yes hrest
    · exact skipWord_take .no hrest
  | number n =>
    obtain ⟨d, t', hnumber, -, hnot⟩ := numeral_head n
    cases htext.symm.trans hnumber
    have hne : ∀ x ∈ ascii "]\x7d\"\x7b[tfn", c ≠ x := fun x hx heq => hnot (heq ▸ hx)
    have hread : strtodLen j'.rest = n.text.length := by
      rw [hrest]
      exact n.strtodLen_eq hstops
    have hpos : n.text.length ≠ 0 := by
      rw [hnumber]
      exact Nat.succ_ne_zero _
    rw [if_neg (hne 0x22 (by decide)), if_neg (hne 0x7B (by decide)),
      if_neg (hne 0x5B (by decide)), if_neg (hne 0x74 (by decide)),
      if_neg (hne 0x66 (by decide)), if_neg (hne 0x6E (by decide)), hread, if_neg hpos]
    exact Keeps.pure rfl
  | string gs =>
    cases htext
    obtain ⟨ps, hps, -⟩ := literal_pieces gs
    rw [Value.text, ← hps] at hrest ⊢
    refine Keeps.bind (quoted_keeps .none ps hrest) ?_
    rintro _ rfl
    exact Keeps.pure rfl
  | emptyArray b' =>
    cases htext
    exact skipArray_take helements _ trivial hrest
  | array items =>
    cases htext
    exact skipArray_take helements _ trivial hrest
  | emptyObject b' =>
    cases htext
    exact skipObject_take hmembers _ trivial hrest
  | object ms =>
    cases htext
    exact skipObject_take hmembers _ trivial hrest

/-- A member: its name, a colon and its value. -/
theorem SkipsTake.member {β : Type} {Q : β → Prop} (ih : SkipsTake I X fuel)
    (before after before' : Space) (name : List Glyph) (v : Value) {f : Json → Run JsonError β}
    (h : j.rest = before.bytes ++ (literal name ++ (after.bytes ++
      0x3A :: (before'.bytes ++ (v.text ++ s)))))
    (hs : Stops s) (hfuel : 3 * j.rest.length ≤ fuel)
    (hf : Keeps I X (f (j.past (before.bytes ++ (literal name ++ (after.bytes ++
      0x3A :: (before'.bytes ++ v.text)))))) Q) :
    Keeps I X (do
      let r ← j.parseString
      let j₂ ← r.1.expect 0x3A
      let j₃ ← skipValue fuel j₂
      f j₃) Q := by
  obtain ⟨ps, hps, -⟩ := literal_pieces name
  simp only [← hps, bytes_of] at h hf
  refine name_keeps _ _ ps h fun j₁ => ?_
  have hname : j.rest = ((Gap.of before).bytes ++ (quoted ps ++ ((Gap.of after).bytes ++
      [0x3A]))) ++ ((Gap.of before').bytes ++ (v.text ++ s)) := by
    rw [h]
    simp
  have hlen := length_past hname
  simp only [List.length_append, length_quoted] at hlen
  refine Keeps.bind (ih.value _ v _ _ (rest_past hname) hs (by omega)) ?_
  rintro _ rfl
  simpa using hf

theorem SkipsTake.members_next (ih : SkipsTake I X fuel) (ms : Members)
    (h : j.rest = ms.text ++ 0x7D :: s) (hfuel : 3 * j.rest.length + 1 ≤ fuel + 1) :
    Keeps I X (skipMembers (fuel + 1) j) (· = j.past ms.text) := by
  unfold skipMembers
  cases ms with
  | last before name after before' v after' =>
    simp only [Members.text, List.append_assoc, List.cons_append] at h ⊢
    refine ih.member before after before' name v h
      (stops_gap (Gap.of after') (stops_cons (.inr (.inr rfl)))) (by omega) ?_
    have hvalue : (j.past (before.bytes ++ (literal name ++ (after.bytes ++
        0x3A :: (before'.bytes ++ v.text))))).rest = (Gap.of after').bytes ++ 0x7D :: s :=
      rest_past (by rw [h, bytes_of after']; simp)
    obtain ⟨hskip, hpeek⟩ := close_behind _ hvalue (.inr rfl)
    rw [hskip, if_neg hpeek]
    refine Keeps.pure ?_
    simp [← bytes_of]
  | more before name after before' v after' rest =>
    simp only [Members.text, List.append_assoc, List.cons_append] at h ⊢
    refine ih.member before after before' name v h
      (stops_gap (Gap.of after') (stops_cons (.inl rfl))) (by omega) ?_
    have hvalue : (j.past (before.bytes ++ (literal name ++ (after.bytes ++
        0x3A :: (before'.bytes ++ v.text))))).rest =
          (Gap.of after').bytes ++ 0x2C :: (rest.text ++ 0x7D :: s) :=
      rest_past (by rw [h, bytes_of after']; simp)
    obtain ⟨hskip, hpeek⟩ := comma_behind _ hvalue
    have hmore := rest_past_append (s := rest.text ++ 0x7D :: s) (b := [0x2C]) hvalue
    have hshort := congrArg List.length h
    simp only [List.length_append, List.length_cons] at hshort
    rw [hskip, if_pos hpeek, past_advance]
    refine (ih.members rest s _ hmore ?_).mono ?_
    · rw [hmore, List.length_append, List.length_cons]
      omega
    · rintro _ rfl
      simp [← bytes_of]

omit [Serves I X JsonError.silent] in
theorem SkipsTake.elements_next (ih : SkipsTake I X fuel) (items : Elements)
    (h : j.rest = items.text ++ 0x5D :: s) (hfuel : 3 * j.rest.length + 3 ≤ fuel + 1) :
    Keeps I X (skipElements (fuel + 1) j) (· = j.past items.text) := by
  unfold skipElements
  cases items with
  | last before v after =>
    simp only [Elements.text, List.append_assoc, bytes_of] at h ⊢
    refine Keeps.bind (ih.value _ v _ j h (stops_gap _ (stops_cons (.inr (.inl rfl)))) (by omega)) ?_
    rintro _ rfl
    obtain ⟨hskip, hpeek⟩ := close_behind _ (rest_past_append h) (.inl rfl)
    rw [hskip, if_neg hpeek]
    refine Keeps.pure ?_
    simp
  | more before v after rest =>
    simp only [Elements.text, List.append_assoc, bytes_of, List.cons_append] at h ⊢
    refine Keeps.bind (ih.value _ v _ j h (stops_gap _ (stops_cons (.inl rfl))) (by omega)) ?_
    rintro _ rfl
    have hvalue := rest_past_append h
    obtain ⟨hskip, hpeek⟩ := comma_behind _ hvalue
    have hmore := rest_past_append (s := rest.text ++ 0x5D :: s) (b := [0x2C]) hvalue
    have hshort := congrArg List.length h
    simp only [List.length_append, List.length_cons] at hshort
    rw [hskip, if_pos hpeek, past_advance]
    refine (ih.elements rest s _ hmore ?_).mono ?_
    · rw [hmore, List.length_append, List.length_cons]
      omega
    · rintro _ rfl
      simp

theorem skipsTake : ∀ fuel, SkipsTake I X fuel
  | 0 => ⟨fun _ _ _ _ _ _ h => absurd h (by omega), fun _ _ _ _ h => absurd h (by omega),
      fun _ _ _ _ h => absurd h (by omega)⟩
  | 1 => by
    constructor
    · intro b v s j h _ hfuel
      obtain ⟨c, t, htext, -⟩ := starts_value v
      rw [h, htext, List.length_append, List.cons_append, List.length_cons] at hfuel
      omega
    · intro ms s j h hfuel
      rw [h, List.length_append, List.length_cons] at hfuel
      omega
    · intro items s j h hfuel
      omega
  | fuel + 2 => by
    have ih := skipsTake (fuel + 1)
    constructor
    · intro b v s j h hstops hfuel
      exact (skipsTake fuel).value_next b v h hstops hfuel
    · intro ms s j h hfuel
      exact ih.members_next ms h hfuel
    · intro items s j h hfuel
      exact ih.elements_next items h hfuel

theorem skipValue_take (b : Gap) (v : Value) (h : j.rest = b.bytes ++ (v.text ++ s))
    (hs : Stops s) : Keeps I X (skipValue j.fuel j) (· = j.past (b.bytes ++ v.text)) :=
  (skipsTake j.fuel).value b v s j h hs (by
    change _ ≤ 3 * j.rest.length + 3
    omega)

end Skips

/-! ## Brackets -/

section Brackets

variable {I : Env → Prop} {X : Stop JsonError → Prop} {α β σ : Type} {j : Json}
variable {o c : UInt8} {t s : List UInt8}

/-- Nothing in brackets, where `empty` holds, or an inner text. -/
def Encloses (o c : UInt8) (empty : Prop) (Inner : List UInt8 → Prop) (t : List UInt8) : Prop :=
  (empty ∧ ∃ gap : Gap, t = o :: (gap.bytes ++ [c])) ∨
    ∃ (gap : Gap) (t' : List UInt8), t = o :: (gap.bytes ++ (t' ++ [c])) ∧ Starts t' ∧ Inner t'

theorem encloses_keeps {v w : β} {Inner : List UInt8 → Prop}
    {f : Json → Run JsonError (Json × β)} (b : Gap) (h : Encloses o c (v = w) Inner t)
    (ho : isspace o = false) (hc : c = 0x5D ∨ c = 0x7D) (hrest : j.rest = b.bytes ++ (t ++ s))
    (hf : ∀ t' j', j'.src = j.src → Inner t' → j'.rest = t' ++ c :: s →
      j'.rest.length + 1 ≤ j.rest.length → Keeps I X (f j') (· = (j'.past t', w))) :
    Keeps I X (do
      let j ← j.expect o
      let j := j.skipWs
      if j.peek = some c then pure (j.advance 1, v)
      else
        let (j, inner) ← f j
        let j ← j.expect c
        pure (j, inner)) (· = (j.past (b.bytes ++ t), w)) := by
  have hspace : isspace c = false := by rcases hc with rfl | rfl <;> rfl
  rcases h with ⟨rfl, gap, rfl⟩ | ⟨gap, t', rfl, hstarts, hinner⟩
  · have hempty : j.rest = b.bytes ++ o :: (gap.bytes ++ c :: s) := by
      rw [hrest]
      simp
    refine Keeps.bind (opens_empty b gap hempty ho hspace) fun j₁ ⟨hskip, hpeek⟩ => ?_
    dsimp only
    rw [hskip, if_pos hpeek, past_advance, List.append_assoc]
    exact Keeps.pure rfl
  · have hfull : j.rest = (b.bytes ++ o :: gap.bytes) ++ (t' ++ c :: s) := by
      rw [hrest]
      simp
    have hopen : j.rest = b.bytes ++ o :: (gap.bytes ++ (t' ++ c :: s)) := by
      rw [hrest]
      simp
    have hlen := length_past hfull
    rw [List.length_append, List.length_cons] at hlen
    refine Keeps.bind (opens_full b gap hopen ho hstarts hc) fun j₁ ⟨hskip, hpeek⟩ => ?_
    dsimp only
    rw [hskip, if_neg hpeek]
    refine Keeps.bind (hf t' _ rfl hinner (rest_past hfull) (by omega)) ?_
    rintro _ rfl
    refine Keeps.bind (closes_keeps hfull hspace) ?_
    rintro _ rfl
    rw [List.append_assoc]
    exact Keeps.pure rfl

theorem Starts.append {t : List UInt8} (h : Starts t) (s : List UInt8) : Starts (t ++ s) := by
  obtain ⟨c, t', rfl, hc⟩ := h
  exact ⟨c, t' ++ s, rfl, hc⟩

theorem Bracketed.encloses {Item : α → List UInt8 → Prop} {xs : List α}
    (hstarts : ∀ x t, Item x t → Starts t) (h : Bracketed o c Item xs t) :
    Encloses o c ([] = xs) (Listed Item xs) t := by
  cases h with
  | empty gap => exact .inl ⟨rfl, gap, rfl⟩
  | full items =>
    cases items with
    | last before after item =>
      refine .inr ⟨before, _, ?_, (hstarts _ _ item).append after.bytes, .last .none after item⟩
      rw [List.append_assoc]
    | more before after item rest =>
      refine .inr ⟨before, _, ?_, (hstarts _ _ item).append _, .more .none after item rest⟩
      rw [List.append_assoc]

theorem ObjectText.encloses {Field : σ → List UInt8 → List UInt8 → Prop}
    {Absent : σ → List (List UInt8) → Prop} {x : σ} {empty : Prop} (hempty : Absent x [] → empty)
    (h : ObjectText Field Absent x t) :
    Encloses 0x7B 0x7D empty (fun t => ∃ names, Fields Field x names t ∧ Absent x names) t := by
  cases h with
  | empty gap absent => exact .inl ⟨hempty absent, gap, rfl⟩
  | full members absent =>
    cases members with
    | last before mid mid' after name value =>
      refine .inr ⟨before, _, ?_, (starts_quoted _).append _, _,
        .last .none mid mid' after name value, absent⟩
      rw [List.append_assoc]
      rfl
    | more before mid mid' after name value rest fresh =>
      refine .inr ⟨before, _, ?_, (starts_quoted _).append _, _,
        .more .none mid mid' after name value rest fresh, absent⟩
      rw [List.append_assoc]
      rfl

end Brackets

end Json

end Ipa
