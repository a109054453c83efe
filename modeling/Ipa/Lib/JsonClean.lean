import Ipa.Lib.StrtodJson

/-!
# Texts of JSON tokens

`Clean d s` says that `s`, with `d` brackets open before it, is a sequence of tokens of JSON: white
space, commas and colons, brackets of either kind, strict string literals, the three words, and
numbers in the spelling of JSON that end where a number may end. Only white space stands outside of
all brackets. Nothing is said of the order of the tokens or of which bracket closes which, so this
is far less than being a JSON text; but every JSON text is clean.
-/

namespace Ipa.JsonText

inductive Clean : Nat → List UInt8 → Prop
  | done : Clean 0 []
  | white {d : Nat} {c : UInt8} {s : List UInt8} (h : isWs c = true) (more : Clean d s) :
    Clean d (c :: s)
  | separator {d : Nat} {c : UInt8} {s : List UInt8} (h : c = 0x2C ∨ c = 0x3A)
    (more : Clean (d + 1) s) : Clean (d + 1) (c :: s)
  | opening {d : Nat} {c : UInt8} {s : List UInt8} (h : c = 0x7B ∨ c = 0x5B)
    (more : Clean (d + 2) s) : Clean (d + 1) (c :: s)
  | closing {d : Nat} {c : UInt8} {s : List UInt8} (h : c = 0x7D ∨ c = 0x5D)
    (more : Clean d s) : Clean (d + 1) (c :: s)
  | string {d : Nat} {s : List UInt8} (gs : List Glyph) (more : Clean (d + 1) s) :
    Clean (d + 1) (literal gs ++ s)
  | word {d : Nat} {s : List UInt8} (w : Word) (more : Clean (d + 1) s) :
    Clean (d + 1) (w.text ++ s)
  | number {d : Nat} {s : List UInt8} (n : Numeral) (stops : Stops s) (more : Clean (d + 1) s) :
    Clean (d + 1) (n.text ++ s)

/-- An opening brace, and a clean text behind it that closes all brackets. -/
def CleanText (s : List UInt8) : Prop :=
  ∃ (b : Space) (rest : List UInt8), s = b.bytes ++ 0x7B :: rest ∧ Clean 1 rest

/-! ## The first token -/

section Head

variable {d : Nat} {c : UInt8} {s : List UInt8}

theorem Word.head (w : Word) : ∃ t, (w = .yes ∧ w.text = 0x74 :: t) ∨
    (w = .no ∧ w.text = 0x66 :: t) ∨ (w = .null ∧ w.text = 0x6E :: t) := by
  cases w with
  | null => exact ⟨_, .inr (.inr ⟨rfl, rfl⟩)⟩
  | yes => exact ⟨_, .inl ⟨rfl, rfl⟩⟩
  | no => exact ⟨_, .inr (.inl ⟨rfl, rfl⟩)⟩

/-- The kind of the token that begins with a byte. -/
def kindOf (c : UInt8) : Nat :=
  if isspace c = true then 0
  else if c = 0x2C ∨ c = 0x3A then 1
  else if c = 0x7B ∨ c = 0x5B then 2
  else if c = 0x7D ∨ c = 0x5D then 3
  else if c = 0x22 then 4
  else if c = 0x74 ∨ c = 0x66 ∨ c = 0x6E then 5
  else 6

theorem kindOf_digit : ∀ c, isDigit c = true → kindOf c = 6 := forall_byte (by decide +kernel)

/-- **The first token** of a clean text is told by its first byte. -/
theorem Clean.first (h : Clean d (c :: s)) :
    match kindOf c with
    | 0 => isWs c = true ∧ Clean d s
    | 1 => Clean d s
    | 2 => Clean (d + 1) s
    | 3 => ∃ d', d = d' + 1 ∧ Clean d' s
    | 4 => ∃ gs s', c :: s = literal gs ++ s' ∧ Clean d s'
    | 5 => ∃ w s', c :: s = Word.text w ++ s' ∧ Clean d s'
    | _ => ∃ n s', c :: s = Numeral.text n ++ s' ∧ Stops s' ∧ Clean d s' := by
  generalize hs : c :: s = cs at h
  cases h with
  | done => cases hs
  | white h more =>
    cases hs
    rw [show kindOf c = 0 from if_pos (isspace_of_isWs h)]
    exact ⟨h, more⟩
  | separator h more =>
    cases hs
    rcases h with rfl | rfl <;> exact more
  | opening h more =>
    cases hs
    rcases h with rfl | rfl <;> exact more
  | closing h more =>
    cases hs
    rcases h with rfl | rfl <;> exact ⟨_, rfl, more⟩
  | string gs more =>
    cases hs
    exact ⟨gs, _, rfl, more⟩
  | word w more =>
    obtain ⟨t, (⟨-, ht⟩ | ⟨-, ht⟩ | ⟨-, ht⟩)⟩ := w.head
    all_goals
      have heq := hs
      rw [ht] at heq
      cases heq
      exact ⟨w, _, by rw [ht], more⟩
  | number n stops more =>
    obtain ⟨x, t, ht, hx⟩ := n.head
    have heq := hs
    rw [ht] at heq
    cases heq
    have hkind : kindOf c = 6 := by
      rcases hx with rfl | hx
      · rfl
      · exact kindOf_digit _ hx
    rw [hkind]
    exact ⟨n, _, by rw [ht], stops, more⟩

theorem Clean.white_inv (hc : isspace c = true) (h : Clean d (c :: s)) :
    isWs c = true ∧ Clean d s := by
  have hfirst := h.first
  rw [show kindOf c = 0 from if_pos hc] at hfirst
  exact hfirst

theorem Clean.separator_inv (hc : c = 0x2C ∨ c = 0x3A) (h : Clean d (c :: s)) : Clean d s := by
  have hfirst := h.first
  rcases hc with rfl | rfl <;> exact hfirst

theorem Clean.opening_inv (hc : c = 0x7B ∨ c = 0x5B) (h : Clean d (c :: s)) : Clean (d + 1) s := by
  have hfirst := h.first
  rcases hc with rfl | rfl <;> exact hfirst

theorem Clean.closing_inv (hc : c = 0x7D ∨ c = 0x5D) (h : Clean (d + 1) (c :: s)) :
    Clean d s := by
  have hfirst : ∃ d', d + 1 = d' + 1 ∧ Clean d' s := by
    have hfirst := h.first
    rcases hc with rfl | rfl <;> exact hfirst
  obtain ⟨d', hd, hs⟩ := hfirst
  rwa [Nat.succ.inj hd]

theorem Clean.string_inv (h : Clean d (0x22 :: s)) :
    ∃ gs s', 0x22 :: s = literal gs ++ s' ∧ Clean d s' := h.first

theorem Clean.word_inv {w : Word} (h : Clean d (w.text ++ s)) : Clean d s := by
  have hfirst : ∃ w' s', w.text ++ s = Word.text w' ++ s' ∧ Clean d s' := by
    cases w <;> exact Clean.first h
  obtain ⟨w', s', heq, hs'⟩ := hfirst
  have hs : s = s' := by
    cases w <;> cases w' <;> cases heq <;> rfl
  rwa [hs]

end Head

/-! ## Numbers -/

theorem strtodLen_eq_zero {c : UInt8} {s : List UInt8} (hspace : isspace c = false)
    (hsign : c ≠ 0x2B ∧ c ≠ 0x2D) (hdigit : isDigit c = false) (hpoint : c ≠ 0x2E)
    (hword : wordLen (c :: s) = 0) : strtodLen (c :: s) = 0 := by
  have hzero : c ≠ 0x30 := by
    rintro rfl
    cases hdigit
  have hws : (c :: s).takeWhile isspace = [] := by
    rw [List.takeWhile_cons, hspace]
    rfl
  have hdigits : (c :: s).takeWhile isDigit = [] := by
    rw [List.takeWhile_cons, hdigit]
    rfl
  have hsignLen : signLen (c :: s) = 0 := by
    unfold signLen
    split
    · rename_i heq
      cases heq
      exact absurd rfl hsign.1
    · rename_i heq
      cases heq
      exact absurd rfl hsign.2
    · rfl
  have hhex : hexLen (c :: s) = 0 := by
    unfold hexLen
    split
    · rename_i heq
      cases heq
      exact absurd rfl hzero
    · rfl
  have hdecimal : decimalLen (c :: s) = 0 := by
    unfold decimalLen mantissaLen
    rw [hdigits]
    dsimp only [List.length_nil, List.drop_zero]
    split
    · rename_i heq
      cases heq
      exact absurd rfl hpoint
    · rfl
  unfold strtodLen
  rw [hws]
  dsimp only [List.length_nil]
  rw [List.drop_zero, hsignLen, Nat.zero_add, List.drop_zero]
  unfold unsignedLen
  rw [hhex, hdecimal, hword]
  rfl

/-- What `strtod` reads at a token of a clean text is a number of JSON. -/
theorem Clean.number_inv {d : Nat} {c : UInt8} {s : List UInt8} (h : Clean d (c :: s))
    (hspace : isspace c = false) (hread : strtodLen (c :: s) ≠ 0) :
    ∃ n s', c :: s = Numeral.text n ++ s' ∧ strtodLen (c :: s) = (Numeral.text n).length ∧
      Clean d s' := by
  have hfirst := h.first
  have hnone : ∀ k ∈ [(0x2C : UInt8), 0x3A, 0x7B, 0x5B, 0x7D, 0x5D, 0x22], c ≠ k := by
    intro k hk heq
    subst heq
    simp only [List.mem_cons, List.not_mem_nil, or_false] at hk
    rcases hk with rfl | rfl | rfl | rfl | rfl | rfl | rfl <;>
      exact hread (strtodLen_eq_zero rfl (by decide) rfl (by decide) rfl)
  have hkind : kindOf c = if c = 0x74 ∨ c = 0x66 ∨ c = 0x6E then 5 else 6 := by
    unfold kindOf
    rw [if_neg (by rw [hspace]; decide), if_neg (by simp [hnone]), if_neg (by simp [hnone]),
      if_neg (by simp [hnone]), if_neg (by simp [hnone])]
  rw [hkind] at hfirst
  by_cases hletter : c = 0x74 ∨ c = 0x66 ∨ c = 0x6E
  · rw [if_pos hletter] at hfirst
    obtain ⟨w, s', heq, -⟩ := hfirst
    rw [heq] at hread
    exact absurd (by
      cases w <;> exact strtodLen_eq_zero rfl (by decide) rfl (by decide) rfl) hread
  · rw [if_neg hletter] at hfirst
    obtain ⟨n, s', heq, hstops, hs'⟩ := hfirst
    exact ⟨n, s', heq, by rw [heq, n.strtodLen_eq hstops], hs'⟩

/-! ## Texts of the grammar -/

theorem Clean.space {d : Nat} {s : List UInt8} (b : Space) (h : Clean d s) :
    Clean d (b.bytes ++ s) := by
  obtain ⟨bytes, white⟩ := b
  induction bytes with
  | nil => exact h
  | cons c bytes ih =>
    exact .white (white c List.mem_cons_self) (ih fun x hx => white x (List.mem_cons_of_mem _ hx))

mutual

/-- A value between clean texts. -/
theorem Value.clean {d : Nat} {s : List UInt8} : ∀ v : Value, Stops s → Clean (d + 1) s →
    Clean (d + 1) (v.text ++ s)
  | .word w, _, h => .word w h
  | .number n, hs, h => .number n hs h
  | .string gs, _, h => .string gs h
  | .emptyArray b, _, h => by
    rw [Value.text, List.cons_append, List.append_assoc]
    exact .opening (.inr rfl) (.space b (.closing (.inr rfl) h))
  | .array items, _, h => by
    rw [Value.text, List.cons_append, List.append_assoc]
    exact .opening (.inr rfl) (items.clean h)
  | .emptyObject b, _, h => by
    rw [Value.text, List.cons_append, List.append_assoc]
    exact .opening (.inl rfl) (.space b (.closing (.inl rfl) h))
  | .object members, _, h => by
    rw [Value.text, List.cons_append, List.append_assoc]
    exact .opening (.inl rfl) (members.clean h)

theorem Elements.clean {d : Nat} {s : List UInt8} : ∀ items : Elements, Clean d s →
    Clean (d + 1) (items.text ++ ([0x5D] ++ s))
  | .last before v after, h => by
    simp only [Elements.text, List.append_assoc]
    exact .space before (v.clean (Stops.space (stops_cons (.inr (.inl rfl))) after)
      (.space after (.closing (.inr rfl) h)))
  | .more before v after rest, h => by
    simp only [Elements.text, List.append_assoc, List.cons_append]
    exact .space before (v.clean (Stops.space (stops_cons (.inl rfl)) after)
      (.space after (.separator (.inl rfl) (rest.clean h))))

theorem Members.clean {d : Nat} {s : List UInt8} : ∀ members : Members, Clean d s →
    Clean (d + 1) (members.text ++ ([0x7D] ++ s))
  | .last before name after before' v after', h => by
    simp only [Members.text, List.append_assoc, List.cons_append]
    exact .space before (.string name (.space after (.separator (.inr rfl) (.space before'
      (v.clean (Stops.space (stops_cons (.inr (.inr rfl))) after')
        (.space after' (.closing (.inl rfl) h)))))))
  | .more before name after before' v after' rest, h => by
    simp only [Members.text, List.append_assoc, List.cons_append]
    exact .space before (.string name (.space after (.separator (.inr rfl) (.space before'
      (v.clean (Stops.space (stops_cons (.inl rfl)) after')
        (.space after' (.separator (.inl rfl) (rest.clean h))))))))

end

/-- **Every text of an object** is clean. -/
theorem Text.clean (t : Text) (h : t.value.IsObject) : CleanText t.bytes := by
  obtain ⟨before, v, after⟩ := t
  have hdone : Clean 0 (after.bytes ++ []) := .space after .done
  rw [List.append_nil] at hdone
  unfold Text.bytes
  cases v with
  | emptyObject b =>
    refine ⟨before, b.bytes ++ 0x7D :: after.bytes, ?_, .space b (.closing (.inl rfl) hdone)⟩
    simp only [Value.text, List.cons_append, List.append_assoc, List.nil_append]
  | object members =>
    refine ⟨before, members.text ++ 0x7D :: after.bytes, ?_, ?_⟩
    · simp only [Value.text, List.cons_append, List.append_assoc, List.nil_append]
    · exact members.clean hdone
  | _ => cases h

end Ipa.JsonText
