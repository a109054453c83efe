import Ipa.Cli.Print
import Ipa.Lib.JsonCompact
import Ipa.Lib.Utf8

/-!
# The printed strings

A text is printed as a JSON string that denotes the characters of the text: every character has its
element, an escape or the character itself. The loops of the printer put a comma before every item
but the first.
-/

namespace Ipa

open JsonText

/-! ## Strings -/

theorem isHexDigit_hexDigitByte {n : Nat} (h : n < 16) : isHexDigit (hexDigitByte n) = true := by
  have hall : ∀ n : Fin 16, isHexDigit (hexDigitByte n) = true := by decide
  exact hall ⟨n, h⟩

/-- The digits of a control character. -/
def controlCode (c : Char) (h : c.toNat < 0x20) : Hex4 where
  a := 0x30
  b := 0x30
  c := hexDigitByte (c.toNat / 16)
  d := hexDigitByte (c.toNat % 16)
  hex := by
    intro x hx
    simp only [List.mem_cons, List.not_mem_nil, or_false] at hx
    rcases hx with rfl | rfl | rfl | rfl
    · decide
    · decide
    · exact isHexDigit_hexDigitByte (by omega)
    · exact isHexDigit_hexDigitByte (by omega)

theorem controlCode_value {c : Char} (h : c.toNat < 0x20) : (controlCode c h).value = c.toNat := by
  have hall : ∀ n : Fin 32, ((hexValue 0x30 * 16 + hexValue 0x30) * 16 +
      hexValue (hexDigitByte (n.val / 16))) * 16 + hexValue (hexDigitByte (n.val % 16)) = n := by
    decide
  exact hall ⟨c.toNat, h⟩

/-- How a character is printed. -/
def glyphOf (c : Char) : Glyph :=
  if hq : c = '"' then .escape .quote
  else if hb : c = '\\' then .escape .backslash
  else if c = '\n' then .escape .lineFeed
  else if c = '\r' then .escape .carriageReturn
  else if c = '\t' then .escape .tab
  else if h : c.toNat < 0x20 then .code (controlCode c h)
  else .plain ⟨c, Nat.le_of_not_lt h, hq, hb⟩

theorem jsonPrintByte_high : ∀ b : UInt8, 0x80 ≤ b.toNat → jsonPrintByte b = [b] :=
  forall_byte (by decide +kernel)

theorem glyphOf_ascii : ∀ n : Fin 0x80,
    jsonPrintByte (UInt8.ofNat n.val) = (glyphOf (Char.ofNat n.val)).text := by
  decide +kernel

theorem glyphOf_high {c : Char} (h : 0x80 ≤ c.toNat) :
    (glyphOf c).text = String.utf8EncodeChar c := by
  have hne : ∀ d : Char, d.toNat < 0x80 → c ≠ d := by
    rintro d hd rfl
    omega
  unfold glyphOf
  rw [dif_neg (hne _ (by decide)), dif_neg (hne _ (by decide)), if_neg (hne _ (by decide)),
    if_neg (hne _ (by decide)), if_neg (hne _ (by decide)), dif_neg (by omega)]
  rfl

/-- The bytes of a character are printed as its element of a string. -/
theorem printed_char (c : Char) :
    (String.utf8EncodeChar c).flatMap jsonPrintByte = (glyphOf c).text := by
  by_cases h : c.toNat < 0x80
  · have hc := glyphOf_ascii ⟨c.toNat, h⟩
    rw [Char.ofNat_toNat] at hc
    rw [utf8_ascii h, List.flatMap_singleton, hc]
  · have hbytes : ∀ b ∈ String.utf8EncodeChar c, jsonPrintByte b = [b] := by
      intro b hb
      rcases utf8_byte hb with ⟨hlt, -⟩ | hhigh
      · exact absurd hlt h
      · exact jsonPrintByte_high _ hhigh
    rw [glyphOf_high (by omega), List.flatMap_congr hbytes]
    exact List.flatMap_singleton' _

theorem printed_body (cs : List Char) :
    (utf8 cs).flatMap jsonPrintByte = body (cs.map glyphOf) := by
  induction cs with
  | nil => rfl
  | cons c cs ih =>
    rw [utf8_cons, List.flatMap_append, printed_char, ih]
    rfl

/-- A string is printed as the literal of its characters. -/
theorem jsonPrintString_utf8 {s : CStr} {cs : List Char} (h : utf8 cs = s.bytes) :
    jsonPrintString (some s) = literal (cs.map glyphOf) := by
  rw [jsonPrintString, ← h, printed_body]
  rfl

theorem decode_code {h : Hex4} (hvalue : h.value < 0xD800) (gs : List Glyph) :
    decode (.code h :: gs) = (decode gs).map (Char.ofNat h.value :: ·) := by
  have hhigh : isHigh h.value = false := by
    simp only [isHigh, Bool.and_eq_false_iff, decide_eq_false_iff_not]
    omega
  have hlow : isLow h.value = false := by
    simp only [isLow, Bool.and_eq_false_iff, decide_eq_false_iff_not]
    omega
  cases gs with
  | nil => simp [decode, hhigh, hlow]
  | cons g gs => cases g <;> simp [decode, hhigh, hlow]

theorem decode_glyphOf (c : Char) (gs : List Glyph) :
    decode (glyphOf c :: gs) = (decode gs).map (c :: ·) := by
  unfold glyphOf
  split
  · rename_i h
    rw [h]
    rfl
  split
  · rename_i h
    rw [h]
    rfl
  split
  · rename_i h
    rw [h]
    rfl
  split
  · rename_i h
    rw [h]
    rfl
  split
  · rename_i h
    rw [h]
    rfl
  split
  · rename_i h
    have hvalue := controlCode_value h
    rw [decode_code (by omega), hvalue, Char.ofNat_toNat]
  · rfl

/-- A printed string denotes its characters. -/
theorem decode_printed (cs : List Char) : decode (cs.map glyphOf) = some cs := by
  induction cs with
  | nil => rfl
  | cons c cs ih => rw [List.map_cons, decode_glyphOf, ih, Option.map_some]

/-! ## Commas -/

/-- What a loop prints from item `i` on. -/
def joined (i : Nat) (texts : List (List UInt8)) : List UInt8 :=
  if i > 0 then texts.flatMap (0x2C :: ·) else commas texts

theorem joined_nil (i : Nat) : joined i [] = [] := by
  unfold joined
  split <;> rfl

theorem comma_joined (i : Nat) (a : List UInt8) (rest : List (List UInt8)) :
    comma i ++ (a ++ joined (i + 1) rest) = joined i (a :: rest) := by
  unfold comma joined
  rw [if_pos (Nat.succ_pos i)]
  by_cases hi : i > 0
  · rw [if_pos hi, if_pos hi]
    rfl
  · rw [if_neg hi, if_neg hi]
    rfl

end Ipa
