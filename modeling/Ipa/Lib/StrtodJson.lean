import Ipa.Lib.JsonText

/-!
# JSON numbers and `strtod`

`strtod` reads a JSON number to its end: the grammars agree on it, and what may follow a number in
a JSON text goes on with neither.
-/

namespace Ipa.JsonText

/-- What may follow a value: nothing, white space, a comma or a closing bracket. -/
def Stops (s : List UInt8) : Prop :=
  ∀ c, s.head? = some c → isspace c = true ∨ c = 0x2C ∨ c = 0x5D ∨ c = 0x7D

theorem stops_nil : Stops [] := fun _ h => by cases h

theorem isspace_of_isWs {c : UInt8} (h : isWs c = true) : isspace c = true := by
  simp only [isWs, Bool.or_eq_true, beq_iff_eq] at h
  rcases h with ((rfl | rfl) | rfl) | rfl <;> rfl

theorem stops_cons {c : UInt8} {s : List UInt8} (hc : c = 0x2C ∨ c = 0x5D ∨ c = 0x7D) :
    Stops (c :: s) := by
  intro d hd
  cases hd
  exact .inr hc

/-- White space does not hide what stops. -/
theorem Stops.white {s white : List UInt8} (h : Stops s) (hw : ∀ c ∈ white, isspace c = true) :
    Stops (white ++ s) := by
  cases white with
  | nil => exact h
  | cons d ds =>
    intro c hc
    cases hc
    exact .inl (hw d List.mem_cons_self)

theorem Stops.space {s : List UInt8} (h : Stops s) (b : Space) : Stops (b.bytes ++ s) :=
  h.white fun _ hc => isspace_of_isWs (b.white _ hc)

/-- No digit, point or letter of a number. -/
def EndsNumber (s : List UInt8) : Prop :=
  ∀ c, s.head? = some c → isDigit c = false ∧ c ≠ 0x2E ∧ lower c ≠ 0x65 ∧ lower c ≠ 0x78

theorem Stops.endsNumber {s : List UInt8} (h : Stops s) : EndsNumber s := by
  have hspace : ∀ c, isspace c = true →
      isDigit c = false ∧ c ≠ 0x2E ∧ lower c ≠ 0x65 ∧ lower c ≠ 0x78 :=
    forall_byte (by decide +kernel)
  intro c hc
  rcases h c hc with hc | rfl | rfl | rfl
  · exact hspace c hc
  · decide
  · decide
  · decide

theorem takeWhile_isDigit {digits s : List UInt8} (h : ∀ d ∈ digits, isDigit d = true)
    (hs : ∀ c, s.head? = some c → isDigit c = false) :
    (digits ++ s).takeWhile isDigit = digits := by
  rw [List.takeWhile_append_of_pos h]
  cases s with
  | nil => rw [List.takeWhile_nil, List.append_nil]
  | cons c s =>
    rw [List.takeWhile_cons, hs c rfl]
    exact List.append_nil _

/-! ## The parts of a number -/

/-- A number starts with its sign or with a digit. -/
theorem Numeral.head (n : Numeral) : ∃ c t, n.text = c :: t ∧ (c = 0x2D ∨ isDigit c = true) := by
  obtain ⟨d, ds, hwhole⟩ := List.exists_cons_of_ne_nil n.whole_ok.1
  unfold Numeral.text Numeral.sign
  cases n.minus with
  | true => exact ⟨_, _, rfl, .inl rfl⟩
  | false =>
    rw [hwhole]
    exact ⟨_, _, rfl, .inr (n.whole_ok.2 d (by rw [hwhole]; exact List.mem_cons_self))⟩

namespace Numeral

variable (n : Numeral) {s : List UInt8}

/-- The exponent and what follows start with no digit and no point. -/
theorem exponent_head (hs : EndsNumber s) : ∀ c, (n.exponentText ++ s).head? = some c →
    isDigit c = false ∧ c ≠ 0x2E ∧ lower c ≠ 0x78 := by
  intro c hc
  unfold exponentText at hc
  cases he : n.exponent with
  | none =>
    rw [he] at hc
    obtain ⟨hdigit, hpoint, -, hx⟩ := hs c hc
    exact ⟨hdigit, hpoint, hx⟩
  | some e =>
    rw [he] at hc
    cases hc
    rcases e.mark_eq with hmark | hmark <;> rw [hmark] <;> decide

theorem mantissaLen_eq (hs : EndsNumber s) :
    mantissaLen isDigit (n.whole ++ (n.fraction ++ (n.exponentText ++ s))) =
      n.whole.length + n.fraction.length := by
  have hexp := n.exponent_head hs
  have hpos : 0 < n.whole.length := List.length_pos_iff.mpr n.whole_ok.1
  unfold mantissaLen fraction
  by_cases hfrac : n.frac = []
  · rw [if_pos hfrac, List.nil_append,
      takeWhile_isDigit n.whole_ok.2 fun c hc => (hexp c hc).1]
    dsimp only
    rw [List.drop_left]
    cases htail : n.exponentText ++ s with
    | nil => rfl
    | cons c t =>
      rw [htail] at hexp
      have hpoint := (hexp c rfl).2.1
      split
      · rename_i heq
        cases heq
        exact absurd rfl hpoint
      · rfl
  · rw [if_neg hfrac]
    have hwhole : (n.whole ++ (0x2E :: n.frac ++ (n.exponentText ++ s))).takeWhile isDigit =
        n.whole := by
      refine takeWhile_isDigit n.whole_ok.2 fun c hc => ?_
      cases hc
      decide
    rw [hwhole]
    dsimp only
    rw [List.drop_left]
    have hfrac' : (n.frac ++ (n.exponentText ++ s)).takeWhile isDigit = n.frac :=
      takeWhile_isDigit n.frac_ok fun c hc => (hexp c hc).1
    change (if n.whole.length + ((n.frac ++ (n.exponentText ++ s)).takeWhile isDigit).length = 0
      then 0 else n.whole.length + 1 +
        ((n.frac ++ (n.exponentText ++ s)).takeWhile isDigit).length) = _
    rw [hfrac', if_neg (by omega), List.length_cons]
    omega

theorem exponentLen_eq (hs : EndsNumber s) :
    exponentLen 0x65 (n.exponentText ++ s) = n.exponentText.length := by
  unfold exponentText
  cases he : n.exponent with
  | none =>
    change exponentLen 0x65 s = 0
    cases s with
    | nil => rfl
    | cons c t => rw [exponentLen, if_neg (hs c rfl).2.2.1]
  | some e =>
    have hmark : lower e.mark = 0x65 := by
      rcases e.mark_eq with hmark | hmark <;> rw [hmark] <;> decide
    obtain ⟨hne, hdigits⟩ := e.digits_ok
    have htake : (e.digits ++ s).takeWhile isDigit = e.digits :=
      takeWhile_isDigit hdigits fun c hc => (hs c hc).1
    have hpos : 0 < e.digits.length := List.length_pos_iff.mpr hne
    have hsign : signLen (e.sign ++ (e.digits ++ s)) = e.sign.length := by
      rcases e.sign_eq with hsign | hsign | hsign <;> rw [hsign]
      · cases hd : e.digits with
        | nil => exact absurd hd hne
        | cons d ds =>
          have := hdigits d (by rw [hd]; exact List.mem_cons_self)
          change signLen (d :: _) = 0
          unfold signLen
          split
          · rename_i heq
            cases heq
            cases this
          · rename_i heq
            cases heq
            cases this
          · rfl
      · rfl
      · rfl
    change exponentLen 0x65 ((e.mark :: (e.sign ++ e.digits)) ++ s) = _
    rw [List.cons_append, List.append_assoc, exponentLen, if_pos hmark, hsign]
    dsimp only
    rw [List.drop_left, htake, if_neg (by omega)]
    change _ = (e.mark :: (e.sign ++ e.digits)).length
    rw [List.length_cons, List.length_append]
    omega

/-- What follows the sign is no hexadecimal number. -/
theorem hexLen_eq (hs : EndsNumber s) :
    hexLen (n.whole ++ (n.fraction ++ (n.exponentText ++ s))) = 0 := by
  unfold hexLen
  split
  · rename_i x rest heq
    -- the first digit is a zero, so it is the only one
    have hwhole : n.whole = [0x30] := by
      refine n.leading ?_
      rcases hw : n.whole with _ | ⟨d, ds⟩
      · exact absurd hw n.whole_ok.1
      · rw [hw] at heq
        rw [(List.cons.inj heq).1]
        rfl
    rw [hwhole] at heq
    have htail : n.fraction ++ (n.exponentText ++ s) = x :: rest := (List.cons.inj heq).2
    have hx : lower x ≠ 0x78 := by
      unfold fraction at htail
      by_cases hfrac : n.frac = []
      · rw [if_pos hfrac, List.nil_append] at htail
        exact (n.exponent_head hs x (by rw [htail]; rfl)).2.2
      · rw [if_neg hfrac] at htail
        cases htail
        decide
    rw [if_neg hx]
  · rfl

/-- **`strtod` reads a number** to its end. -/
theorem strtodLen_eq (hs : Stops s) : strtodLen (n.text ++ s) = n.text.length := by
  have hend := hs.endsNumber
  obtain ⟨d, ds, hwhole⟩ := List.exists_cons_of_ne_nil n.whole_ok.1
  have hd : isDigit d = true := n.whole_ok.2 d (by rw [hwhole]; exact List.mem_cons_self)
  have hdigit : ∀ c, isDigit c = true → isspace c = false := forall_byte (by decide +kernel)
  have hspace := hdigit d hd
  have htext : n.text ++ s = n.sign ++ (n.whole ++ (n.fraction ++ (n.exponentText ++ s))) := by
    simp only [text, List.append_assoc]
  have hws : (n.text ++ s).takeWhile isspace = [] := by
    rw [htext, hwhole]
    unfold sign
    cases n.minus with
    | true => rfl
    | false =>
      change (d :: _).takeWhile isspace = []
      rw [List.takeWhile_cons, hspace]
      rfl
  have hsign : signLen (n.text ++ s) = n.sign.length := by
    rw [htext, hwhole]
    unfold sign
    cases n.minus with
    | true => rfl
    | false =>
      change signLen (d :: _) = 0
      unfold signLen
      split
      · rename_i heq
        cases heq
        cases hd
      · rename_i heq
        cases heq
        cases hd
      · rfl
  have hunsigned : unsignedLen (n.whole ++ (n.fraction ++ (n.exponentText ++ s))) =
      n.whole.length + n.fraction.length + n.exponentText.length := by
    have hpos : 0 < n.whole.length := List.length_pos_iff.mpr n.whole_ok.1
    have hdecimal : decimalLen (n.whole ++ (n.fraction ++ (n.exponentText ++ s))) =
        n.whole.length + n.fraction.length + n.exponentText.length := by
      unfold decimalLen
      rw [n.mantissaLen_eq hend]
      dsimp only
      rw [if_neg (by omega), ← List.append_assoc n.whole, ← List.length_append, List.drop_left,
        n.exponentLen_eq hend]
    unfold unsignedLen
    rw [n.hexLen_eq hend, hdecimal, if_neg (by simp), if_pos (by omega)]
  have hpos : 0 < n.whole.length := List.length_pos_iff.mpr n.whole_ok.1
  unfold strtodLen
  rw [hws]
  dsimp only [List.length_nil]
  rw [List.drop_zero, Nat.zero_add, hsign, htext, List.drop_left, hunsigned, if_neg (by omega)]
  simp only [text, List.length_append]
  omega

end Numeral

end Ipa.JsonText
