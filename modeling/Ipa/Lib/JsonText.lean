import Ipa.Lib.Strtod
import Mathlib.Algebra.Order.Field.Rat

/-!
# JSON texts

The grammar of RFC 8259 over bytes, as syntax trees: a tree keeps the white space, the spelling of
every number and the escapes of every string, so `text` is a function and the well-formed texts are
its values. `data` is what a tree denotes; a string with a surrogate that has no partner denotes
nothing.
-/

namespace Ipa.JsonText

/-! ## White space -/

/-- Blank, tab, line feed, carriage return. -/
def isWs (c : UInt8) : Bool := c == 0x20 || c == 0x09 || c == 0x0A || c == 0x0D

structure Space where
  bytes : List UInt8
  white : ∀ c ∈ bytes, isWs c = true

def Space.none : Space := ⟨[], fun _ h => by cases h⟩

/-! ## Numbers -/

/-- The value of some digits. -/
def digitsValue (digits : List UInt8) : Nat :=
  digits.foldl (fun n c => 10 * n + (c.toNat - 0x30)) 0

/-- One digit or more. -/
def Digits (digits : List UInt8) : Prop := digits ≠ [] ∧ ∀ d ∈ digits, isDigit d = true

structure Exponent where
  mark : UInt8
  sign : List UInt8
  digits : List UInt8
  mark_eq : mark = 0x65 ∨ mark = 0x45
  sign_eq : sign = [] ∨ sign = [0x2B] ∨ sign = [0x2D]
  digits_ok : Digits digits

def Exponent.text (e : Exponent) : List UInt8 := e.mark :: (e.sign ++ e.digits)

def Exponent.value (e : Exponent) : Int :=
  if e.sign = [0x2D] then -(digitsValue e.digits : Int) else digitsValue e.digits

/-- A number; it has no fraction when `frac` is empty. -/
structure Numeral where
  minus : Bool
  whole : List UInt8
  frac : List UInt8
  exponent : Option Exponent
  whole_ok : Digits whole
  leading : whole.head? = some 0x30 → whole = [0x30]
  frac_ok : ∀ d ∈ frac, isDigit d = true

namespace Numeral

variable (n : Numeral)

def sign : List UInt8 := if n.minus then [0x2D] else []

def fraction : List UInt8 := if n.frac = [] then [] else 0x2E :: n.frac

def exponentText : List UInt8 := (n.exponent.map Exponent.text).getD []

def text : List UInt8 := n.sign ++ (n.whole ++ (n.fraction ++ n.exponentText))

def value : ℚ :=
  (if n.minus then -1 else 1) * digitsValue (n.whole ++ n.frac) *
    (10 : ℚ) ^ ((n.exponent.map Exponent.value).getD 0 - n.frac.length)

end Numeral

/-! ## Strings -/

inductive Escape
  | quote
  | backslash
  | slash
  | backspace
  | formFeed
  | lineFeed
  | carriageReturn
  | tab
deriving DecidableEq

/-- What stands behind the backslash. -/
def Escape.letter : Escape → UInt8
  | quote => 0x22
  | backslash => 0x5C
  | slash => 0x2F
  | backspace => 0x62
  | formFeed => 0x66
  | lineFeed => 0x6E
  | carriageReturn => 0x72
  | tab => 0x74

def Escape.char : Escape → Char
  | quote => '"'
  | backslash => '\\'
  | slash => '/'
  | backspace => Char.ofNat 0x08
  | formFeed => Char.ofNat 0x0C
  | lineFeed => '\n'
  | carriageReturn => '\r'
  | tab => '\t'

/-- A character that stands for itself. -/
structure Plain where
  char : Char
  printable : 0x20 ≤ char.toNat
  not_quote : char ≠ '"'
  not_backslash : char ≠ '\\'
deriving DecidableEq

def hexValue (c : UInt8) : Nat :=
  if isDigit c then c.toNat - 0x30 else (lower c).toNat - 0x61 + 10

/-- Four hexadecimal digits. -/
structure Hex4 where
  a : UInt8
  b : UInt8
  c : UInt8
  d : UInt8
  hex : ∀ x ∈ [a, b, c, d], isHexDigit x = true
deriving DecidableEq

def Hex4.value (h : Hex4) : Nat :=
  ((hexValue h.a * 16 + hexValue h.b) * 16 + hexValue h.c) * 16 + hexValue h.d

/-- One element of a string. -/
inductive Glyph
  | plain (c : Plain)
  | escape (e : Escape)
  | code (h : Hex4)
deriving DecidableEq

def Glyph.text : Glyph → List UInt8
  | plain c => String.utf8EncodeChar c.char
  | escape e => [0x5C, e.letter]
  | code h => [0x5C, 0x75, h.a, h.b, h.c, h.d]

def body (gs : List Glyph) : List UInt8 := gs.flatMap Glyph.text

/-- A string with its quotes. -/
def literal (gs : List Glyph) : List UInt8 := 0x22 :: (body gs ++ [0x22])

def isHigh (n : Nat) : Bool := 0xD800 ≤ n && n ≤ 0xDBFF

def isLow (n : Nat) : Bool := 0xDC00 ≤ n && n ≤ 0xDFFF

/-- The character of a surrogate pair. -/
def pairChar (high low : Nat) : Char :=
  Char.ofNat (0x10000 + (high - 0xD800) * 0x400 + (low - 0xDC00))

/-- The characters of a string. -/
def decode : List Glyph → Option (List Char)
  | [] => some []
  | .plain c :: gs => (decode gs).map (c.char :: ·)
  | .escape e :: gs => (decode gs).map (e.char :: ·)
  | .code h :: .code l :: gs =>
    if isHigh h.value && isLow l.value then (decode gs).map (pairChar h.value l.value :: ·)
    else if isHigh h.value || isLow h.value then none
    else (decode (.code l :: gs)).map (Char.ofNat h.value :: ·)
  | .code h :: gs =>
    if isHigh h.value || isLow h.value then none
    else (decode gs).map (Char.ofNat h.value :: ·)

/-! ## Values -/

inductive Word
  | null
  | yes
  | no
deriving DecidableEq

def Word.text : Word → List UInt8
  | null => ascii "null"
  | yes => ascii "true"
  | no => ascii "false"

mutual

inductive Value
  | word (w : Word)
  | number (n : Numeral)
  | string (gs : List Glyph)
  | emptyArray (s : Space)
  | array (items : Elements)
  | emptyObject (s : Space)
  | object (members : Members)

/-- The elements of an array, each between white space. -/
inductive Elements
  | last (before : Space) (v : Value) (after : Space)
  | more (before : Space) (v : Value) (after : Space) (rest : Elements)

/-- The members of an object: a name and a value, each between white space. -/
inductive Members
  | last (before : Space) (name : List Glyph) (after before' : Space) (v : Value) (after' : Space)
  | more (before : Space) (name : List Glyph) (after before' : Space) (v : Value) (after' : Space)
    (rest : Members)

end

mutual

def Value.text : Value → List UInt8
  | .word w => w.text
  | .number n => n.text
  | .string gs => literal gs
  | .emptyArray s => 0x5B :: (s.bytes ++ [0x5D])
  | .array items => 0x5B :: (items.text ++ [0x5D])
  | .emptyObject s => 0x7B :: (s.bytes ++ [0x7D])
  | .object members => 0x7B :: (members.text ++ [0x7D])

def Elements.text : Elements → List UInt8
  | .last before v after => before.bytes ++ (v.text ++ after.bytes)
  | .more before v after rest => before.bytes ++ (v.text ++ (after.bytes ++ 0x2C :: rest.text))

def Members.text : Members → List UInt8
  | .last before name after before' v after' => before.bytes ++ (literal name ++
      (after.bytes ++ 0x3A :: (before'.bytes ++ (v.text ++ after'.bytes))))
  | .more before name after before' v after' rest => before.bytes ++ (literal name ++
      (after.bytes ++ 0x3A :: (before'.bytes ++ (v.text ++ (after'.bytes ++ 0x2C :: rest.text)))))

end

/-- What a text denotes. -/
inductive Data
  | null
  | bool (b : Bool)
  | number (q : ℚ)
  | string (s : List Char)
  | array (items : List Data)
  | object (members : List (List Char × Data))

def Word.data : Word → Data
  | null => .null
  | yes => .bool true
  | no => .bool false

mutual

def Value.data : Value → Option Data
  | .word w => some w.data
  | .number n => some (.number n.value)
  | .string gs => (decode gs).map .string
  | .emptyArray _ => some (.array [])
  | .array items => items.data.map .array
  | .emptyObject _ => some (.object [])
  | .object members => members.data.map .object

def Elements.data : Elements → Option (List Data)
  | .last _ v _ => v.data.map ([·])
  | .more _ v _ rest =>
    match v.data, rest.data with
    | some d, some ds => some (d :: ds)
    | _, _ => none

def Members.data : Members → Option (List (List Char × Data))
  | .last _ name _ _ v _ =>
    match decode name, v.data with
    | some k, some d => some [(k, d)]
    | _, _ => none
  | .more _ name _ _ v _ rest =>
    match decode name, v.data, rest.data with
    | some k, some d, some ms => some ((k, d) :: ms)
    | _, _, _ => none

end

def Value.IsObject : Value → Prop
  | .emptyObject _ => True
  | .object _ => True
  | _ => False

def Value.IsArray : Value → Prop
  | .emptyArray _ => True
  | .array _ => True
  | _ => False

/-- A text: one value between white space. -/
structure Text where
  before : Space
  value : Value
  after : Space

def Text.bytes (t : Text) : List UInt8 := t.before.bytes ++ (t.value.text ++ t.after.bytes)

end Ipa.JsonText
