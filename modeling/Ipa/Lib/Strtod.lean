import Ipa.Lib.CStr

/-!
# The extent of `strtod`

`strtodLen s` is the number of bytes that `strtod` consumes of the text `s` in the C locale: white
space, a sign, then the longest prefix that is a hexadecimal or a decimal number, an infinity or a
NaN; zero when there is none. A NUL belongs to no number, so the text stops there.
-/

namespace Ipa

/-- `isspace` in the C locale. -/
def isspace (c : UInt8) : Bool := c == 0x20 || (0x09 ≤ c && c ≤ 0x0D)

def isDigit (c : UInt8) : Bool := 0x30 ≤ c && c ≤ 0x39

def lower (c : UInt8) : UInt8 := if 0x41 ≤ c ∧ c ≤ 0x5A then c + 0x20 else c

def isHexDigit (c : UInt8) : Bool := isDigit c || (0x61 ≤ lower c && lower c ≤ 0x66)

/-- The bytes allowed between the parentheses of a NaN. -/
def isNanChar (c : UInt8) : Bool := isDigit c || (0x61 ≤ lower c && lower c ≤ 0x7A) || c == 0x5F

/-- Digits with at most one point among or around them, at least one digit. -/
def mantissaLen (digit : UInt8 → Bool) (s : List UInt8) : Nat :=
  let n := (s.takeWhile digit).length
  match s.drop n with
  | 0x2E :: rest =>
    let k := (rest.takeWhile digit).length
    if n + k = 0 then 0 else n + 1 + k
  | _ => n

/-- `+` or `-`. -/
def signLen : List UInt8 → Nat
  | 0x2B :: _ => 1
  | 0x2D :: _ => 1
  | _ => 0

/-- The letter `mark` in either case, a sign, at least one decimal digit. -/
def exponentLen (mark : UInt8) : List UInt8 → Nat
  | [] => 0
  | c :: rest =>
    if lower c = mark then
      let sign := signLen rest
      let k := ((rest.drop sign).takeWhile isDigit).length
      if k = 0 then 0 else 1 + sign + k
    else 0

def decimalLen (s : List UInt8) : Nat :=
  let n := mantissaLen isDigit s
  if n = 0 then 0 else n + exponentLen 0x65 (s.drop n)

def hexLen : List UInt8 → Nat
  | 0x30 :: x :: rest =>
    if lower x = 0x78 then
      let n := mantissaLen isHexDigit rest
      if n = 0 then 0 else 2 + n + exponentLen 0x70 (rest.drop n)
    else 0
  | _ => 0

/-- Does `s` start with `word`, a text in lower case? -/
def startsWithFold (word s : List UInt8) : Bool := (s.take word.length).map lower == word

def nanLen (s : List UInt8) : Nat :=
  match s.drop 3 with
  | 0x28 :: rest =>
    let n := (rest.takeWhile isNanChar).length
    match rest.drop n with
    | 0x29 :: _ => 3 + 1 + n + 1
    | _ => 3
  | _ => 3

def wordLen (s : List UInt8) : Nat :=
  if startsWithFold (ascii "infinity") s then 8
  else if startsWithFold (ascii "inf") s then 3
  else if startsWithFold (ascii "nan") s then nanLen s
  else 0

/-- What follows the sign. -/
def unsignedLen (s : List UInt8) : Nat :=
  if hexLen s ≠ 0 then hexLen s
  else if decimalLen s ≠ 0 then decimalLen s
  else wordLen s

def strtodLen (s : List UInt8) : Nat :=
  let ws := (s.takeWhile isspace).length
  let sign := signLen (s.drop ws)
  let n := unsignedLen (s.drop (ws + sign))
  if n = 0 then 0 else ws + sign + n

/-! ## The end stays within the text -/

theorem mantissaLen_le (digit : UInt8 → Bool) (s : List UInt8) :
    mantissaLen digit s ≤ s.length := by
  have hdigits := (List.takeWhile_sublist digit (l := s)).length_le
  unfold mantissaLen
  dsimp only
  split
  · rename_i rest hrest
    have hlen := congrArg List.length hrest
    have hmore := (List.takeWhile_sublist digit (l := rest)).length_le
    rw [List.length_drop, List.length_cons] at hlen
    split <;> omega
  · exact hdigits

theorem signLen_le (s : List UInt8) : signLen s ≤ s.length := by
  unfold signLen
  split <;> simp

theorem exponentLen_le (mark : UInt8) (s : List UInt8) : exponentLen mark s ≤ s.length := by
  unfold exponentLen
  split
  · exact Nat.zero_le _
  · rename_i c rest
    have hsign := signLen_le rest
    have hdigits := (List.takeWhile_sublist isDigit (l := (rest.drop (signLen rest)))).length_le
    rw [List.length_drop] at hdigits
    rw [List.length_cons]
    dsimp only
    split
    · split <;> omega
    · omega

theorem decimalLen_le (s : List UInt8) : decimalLen s ≤ s.length := by
  have hmantissa := mantissaLen_le isDigit s
  have hexponent := exponentLen_le 0x65 (s.drop (mantissaLen isDigit s))
  rw [List.length_drop] at hexponent
  unfold decimalLen
  dsimp only
  split <;> omega

theorem hexLen_le (s : List UInt8) : hexLen s ≤ s.length := by
  unfold hexLen
  split
  · rename_i x rest
    have hmantissa := mantissaLen_le isHexDigit rest
    have hexponent := exponentLen_le 0x70 (rest.drop (mantissaLen isHexDigit rest))
    rw [List.length_drop] at hexponent
    rw [List.length_cons, List.length_cons]
    dsimp only
    split
    · split <;> omega
    · omega
  · exact Nat.zero_le _

theorem length_of_startsWithFold {word s : List UInt8} (h : startsWithFold word s = true) :
    word.length ≤ s.length := by
  unfold startsWithFold at h
  have hlen := congrArg List.length (eq_of_beq h)
  rw [List.length_map, List.length_take] at hlen
  omega

theorem nanLen_le {s : List UInt8} (h : 3 ≤ s.length) : nanLen s ≤ s.length := by
  unfold nanLen
  split
  · rename_i rest hrest
    have hlen := congrArg List.length hrest
    rw [List.length_drop, List.length_cons] at hlen
    dsimp only
    split
    · rename_i hclose
      have hlen' := congrArg List.length hclose
      rw [List.length_drop, List.length_cons] at hlen'
      omega
    · exact h
  · exact h

theorem wordLen_le (s : List UInt8) : wordLen s ≤ s.length := by
  unfold wordLen
  split
  · rename_i h
    exact length_of_startsWithFold h
  split
  · rename_i h
    exact length_of_startsWithFold h
  split
  · rename_i h
    exact nanLen_le (length_of_startsWithFold h)
  · exact Nat.zero_le _

/-- **The end pointer** does not go beyond the end of the text. -/
theorem strtodLen_le (s : List UInt8) : strtodLen s ≤ s.length := by
  have hws := (List.takeWhile_sublist isspace (l := s)).length_le
  have hsign := signLen_le (s.drop (s.takeWhile isspace).length)
  rw [List.length_drop] at hsign
  have hunsigned : ∀ t : List UInt8, unsignedLen t ≤ t.length := by
    intro t
    unfold unsignedLen
    split
    · exact hexLen_le t
    split
    · exact decimalLen_le t
    · exact wordLen_le t
  have hrest := hunsigned (s.drop ((s.takeWhile isspace).length +
    signLen (s.drop (s.takeWhile isspace).length)))
  rw [List.length_drop] at hrest
  unfold strtodLen
  dsimp only
  split <;> omega

end Ipa
