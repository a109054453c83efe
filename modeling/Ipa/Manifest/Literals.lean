import Ipa.Manifest.Strings
import Ipa.Lib.JsonUnique

/-!
# JSON string literals

The string parser takes every JSON string literal to its closing quote. What it returns are the
bytes of the characters that the literal denotes exactly when no escape in it is `\b`, `\f` or
`\u`: these keep the letter behind the backslash.
-/

namespace Ipa

open Run JsonText

namespace Json

/-- The bytes that the parser keeps of a glyph. -/
def kept : Glyph → List UInt8
  | .plain c => String.utf8EncodeChar c.char
  | .escape e => [unescape e.letter]
  | .code h => [0x75, h.a, h.b, h.c, h.d]

/-- The glyphs that the parser reads as they are meant. -/
def Understood : Glyph → Prop
  | .plain _ => True
  | .escape e => e ≠ .backspace ∧ e ≠ .formFeed
  | .code _ => False

/-! ## Literals are strings of pieces -/

theorem raws : ∀ bs : List UInt8, (∀ b ∈ bs, b ≠ 0x22 ∧ b ≠ 0x5C) →
    ∃ ps, spelled ps = bs ∧ ps.map Piece.byte = bs
  | [], _ => ⟨[], rfl, rfl⟩
  | b :: bs, h => by
    obtain ⟨hq, hb⟩ := h b List.mem_cons_self
    obtain ⟨ps, hps, hbytes⟩ := raws bs fun c hc => h c (List.mem_cons_of_mem _ hc)
    refine ⟨.raw b hq hb :: ps, ?_, ?_⟩
    · rw [← hps]
      rfl
    · rw [List.map_cons, hbytes]
      rfl

theorem hex_byte : ∀ b, isHexDigit b = true → 0x20 ≤ b.toNat ∧ b ≠ 0x22 ∧ b ≠ 0x5C :=
  forall_byte (by decide +kernel)

theorem glyph_pieces (g : Glyph) : ∃ ps, spelled ps = g.text ∧ ps.map Piece.byte = kept g := by
  cases g with
  | plain c => exact raws _ fun b hb => (plain_byte hb).2
  | escape e => exact ⟨[.escaped e.letter], rfl, rfl⟩
  | code h =>
    obtain ⟨ps, hps, hbytes⟩ := raws [h.a, h.b, h.c, h.d] fun b hb => (hex_byte b (h.hex b hb)).2
    refine ⟨.escaped 0x75 :: ps, ?_, ?_⟩
    · change 0x5C :: 0x75 :: spelled ps = _
      rw [hps]
      rfl
    · rw [List.map_cons, hbytes]
      rfl

/-- Every literal is a string of pieces. -/
theorem literal_pieces : ∀ gs : List Glyph,
    ∃ ps, quoted ps = literal gs ∧ ps.map Piece.byte = gs.flatMap kept := by
  have hbody : ∀ gs : List Glyph, ∃ ps, spelled ps = body gs ∧ ps.map Piece.byte = gs.flatMap kept := by
    intro gs
    induction gs with
    | nil => exact ⟨[], rfl, rfl⟩
    | cons g gs ih =>
      obtain ⟨ps, hps, hbytes⟩ := glyph_pieces g
      obtain ⟨qs, hqs, hbytes'⟩ := ih
      refine ⟨ps ++ qs, ?_, ?_⟩
      · rw [spelled_append, hps, hqs]
        rfl
      · rw [List.map_append, hbytes, hbytes']
        rfl
  intro gs
  obtain ⟨ps, hps, hbytes⟩ := hbody gs
  refine ⟨ps, ?_, hbytes⟩
  unfold quoted literal
  rw [hps]

/-! ## What is kept -/

theorem kept_nulFree (gs : List Glyph) : (0 : UInt8) ∉ gs.flatMap kept := by
  intro h
  obtain ⟨g, -, hg⟩ := List.mem_flatMap.mp h
  cases g with
  | plain c => exact absurd (plain_byte hg).1 (by decide)
  | escape e => cases e <;> exact absurd hg (by decide)
  | code d =>
    rcases List.mem_cons.mp hg with hg | hg
    · exact absurd hg (by decide)
    · exact absurd (hex_byte _ (d.hex 0 hg)).1 (by decide)

/-- Where all glyphs are understood, the bytes of the characters are kept. -/
theorem kept_of_understood : ∀ {gs : List Glyph} {cs : List Char}, decode gs = some cs →
    (∀ g ∈ gs, Understood g) → gs.flatMap kept = utf8 cs
  | [], _, h, _ => by
    cases h
    rfl
  | .plain c :: gs, cs, h, hall => by
    obtain ⟨cs', hcs', rfl⟩ := Option.map_eq_some_iff.mp h
    rw [List.flatMap_cons, utf8_cons,
      kept_of_understood hcs' fun g hg => hall g (List.mem_cons_of_mem _ hg)]
    rfl
  | .escape e :: gs, cs, h, hall => by
    obtain ⟨cs', hcs', rfl⟩ := Option.map_eq_some_iff.mp h
    have hone : kept (.escape e) = String.utf8EncodeChar e.char := by
      obtain ⟨hback, hform⟩ := hall (.escape e) List.mem_cons_self
      cases e with
      | backspace => exact (hback rfl).elim
      | formFeed => exact (hform rfl).elim
      | _ => decide
    rw [List.flatMap_cons, utf8_cons, hone,
      kept_of_understood hcs' fun g hg => hall g (List.mem_cons_of_mem _ hg)]
  | .code d :: gs, _, _, hall => (hall (.code d) List.mem_cons_self).elim

theorem utf8_one_le (c : Char) : (String.utf8EncodeChar c).length ≤ 4 := by
  rw [String.length_utf8EncodeChar]
  exact c.utf8Size_le_four

/-- Otherwise they are not: a code escape keeps more bytes than a character has, and the others
keep another byte. -/
theorem understood_of_kept {gs : List Glyph} {cs : List Char} (h : decode gs = some cs) :
    (utf8 cs).length ≤ (gs.flatMap kept).length ∧
      (gs.flatMap kept = utf8 cs → ∀ g ∈ gs, Understood g) := by
  have hcode : ∀ {d : Hex4} {gs : List Glyph} {c : Char} {cs : List Char},
      (utf8 cs).length ≤ (gs.flatMap kept).length →
        (utf8 (c :: cs)).length < ((.code d :: gs).flatMap kept).length := by
    intro d gs c cs hle
    have := utf8_one_le c
    rw [utf8_cons, List.flatMap_cons, List.length_append, List.length_append]
    change _ < 5 + _
    omega
  fun_induction decode gs generalizing cs with
  | case1 =>
    cases h
    exact ⟨Nat.le_refl _, fun _ g hg => by cases hg⟩
  | case2 c gs ih =>
    obtain ⟨cs', hcs', rfl⟩ := Option.map_eq_some_iff.mp h
    obtain ⟨hle, hall⟩ := ih hcs'
    rw [utf8_cons, List.flatMap_cons]
    refine ⟨?_, fun heq g hg => ?_⟩
    · rw [List.length_append, List.length_append]
      exact Nat.add_le_add_left hle _
    · rcases List.mem_cons.mp hg with rfl | hg
      · trivial
      · exact hall (List.append_cancel_left heq) g hg
  | case3 e gs ih =>
    obtain ⟨cs', hcs', rfl⟩ := Option.map_eq_some_iff.mp h
    obtain ⟨hle, hall⟩ := ih hcs'
    rw [utf8_cons, List.flatMap_cons]
    have hone : ∃ b, String.utf8EncodeChar e.char = [b] ∧
        (unescape e.letter = b → e ≠ .backspace ∧ e ≠ .formFeed) := by
      cases e <;> exact ⟨_, rfl, by decide⟩
    obtain ⟨b, hb, hsame⟩ := hone
    rw [hb]
    refine ⟨Nat.succ_le_succ hle, fun heq g hg => ?_⟩
    obtain ⟨hhead, htail⟩ := List.cons.inj heq
    rcases List.mem_cons.mp hg with rfl | hg
    · exact hsame hhead
    · exact hall htail g hg
  | case4 d l gs hpair ih =>
    obtain ⟨cs', hcs', rfl⟩ := Option.map_eq_some_iff.mp h
    have hle : (utf8 cs').length ≤ ((.code l :: gs).flatMap kept).length := by
      rw [List.flatMap_cons, List.length_append]
      exact (ih hcs').1.trans (Nat.le_add_left _ _)
    have hlt := hcode (d := d) (c := pairChar d.value l.value) hle
    exact ⟨Nat.le_of_lt hlt, fun heq => absurd (congrArg List.length heq) (by omega)⟩
  | case5 => cases h
  | case6 d l gs hpair hlone ih =>
    obtain ⟨cs', hcs', rfl⟩ := Option.map_eq_some_iff.mp h
    have hlt := hcode (d := d) (c := Char.ofNat d.value) (ih hcs').1
    exact ⟨Nat.le_of_lt hlt, fun heq => absurd (congrArg List.length heq) (by omega)⟩
  | case7 => cases h
  | case8 d gs hnext hlone ih =>
    obtain ⟨cs', hcs', rfl⟩ := Option.map_eq_some_iff.mp h
    have hlt := hcode (d := d) (c := Char.ofNat d.value) (ih hcs').1
    exact ⟨Nat.le_of_lt hlt, fun heq => absurd (congrArg List.length heq) (by omega)⟩

/-- **A JSON string literal** is consumed to its closing quote, and what is returned are the bytes
of its characters if and only if it has no escape `\b`, `\f` or `\u`. -/
theorem parseString_decodes_iff {gs : List Glyph} {cs : List Char} (hdecode : decode gs = some cs)
    (before after : List UInt8) {e : Env} (he : Quiet e) :
    (∃ value e', (parseString ⟨before ++ (literal gs ++ after), before.length⟩).exec e =
        (.ok (⟨before ++ (literal gs ++ after), before.length + (literal gs).length⟩, value), e') ∧
      value.bytes = utf8 cs) ↔ ∀ g ∈ gs, Understood g := by
  obtain ⟨ps, hps, hbytes⟩ := literal_pieces gs
  have hrest : (⟨before ++ (literal gs ++ after), before.length⟩ : Json).rest =
      [] ++ (quoted ps ++ after) := by
    rw [hps]
    exact List.drop_left
  have hrun : Returns (parseString ⟨before ++ (literal gs ++ after), before.length⟩) _ :=
    parseString_keeps (fun c hc => by cases hc) hrest
  obtain ⟨r, e', hexec, -, rfl⟩ := hrun.exec he
  have hvalue : (CStr.ofBuffer (ps.map Piece.byte)).bytes = gs.flatMap kept := by
    rw [hbytes, CStr.ofBuffer_of_nulFree (kept_nulFree gs)]
  rw [hps, List.length_nil, Nat.zero_add] at hexec
  constructor
  · rintro ⟨value, e'', hexec', hdenotes⟩
    rw [hexec] at hexec'
    cases hexec'
    exact (understood_of_kept hdecode).2 (hvalue.symm.trans hdenotes)
  · intro hall
    exact ⟨_, e', hexec, hvalue.trans (kept_of_understood hdecode hall)⟩

theorem parseString_decodes_newline : ∃ value e', (parseString ⟨ascii "[\"a\\n\"]", 1⟩).exec ⟨[], []⟩ =
    (.ok (⟨ascii "[\"a\\n\"]", 6⟩, value), e') ∧ value.bytes = utf8 ['a', '\n'] := by
  let gs : List Glyph := [.plain ⟨'a', by decide, by decide, by decide⟩, .escape .lineFeed]
  have hgs : ∀ g ∈ gs, Understood g := by
    intro g hg
    rcases List.mem_cons.mp hg with rfl | hg
    · trivial
    · cases List.mem_singleton.mp hg
      exact ⟨by decide, by decide⟩
  exact (@parseString_decodes_iff gs _ rfl
    (ascii "[") (ascii "]") (e := ⟨[], []⟩) rfl).mpr hgs

/-- The code escape of a letter is read as the five letters behind the backslash. -/
theorem parseString_keeps_code : ∃ gs e', literal gs = ascii "\"\\u0041\"" ∧
    decode gs = some ['A'] ∧ (parseString ⟨literal gs, 0⟩).exec ⟨[], []⟩ =
      (.ok (⟨literal gs, 8⟩, CStr.ofString "u0041"), e') ∧
        (CStr.ofString "u0041").bytes ≠ utf8 ['A'] := by
  obtain ⟨e', hrun⟩ := value?_eq_some.mp (show (parseString ⟨ascii "\"\\u0041\"", 0⟩).value?
    ⟨[], []⟩ = some (⟨ascii "\"\\u0041\"", 8⟩, CStr.ofString "u0041") by decide +kernel)
  have hgs : literal [.code ⟨0x30, 0x30, 0x34, 0x31, by decide +kernel⟩] = ascii "\"\\u0041\"" := by
    decide +kernel
  refine ⟨[.code ⟨0x30, 0x30, 0x34, 0x31, by decide +kernel⟩], e', hgs, by decide +kernel, ?_,
    by decide +kernel⟩
  rw [hgs]
  exact hrun

end Json

end Ipa
