import Ipa.Runtime.Parse

/-!
# The JSON text of a result

What the command line program writes for a result. A function of the source that prints is the list
of the bytes it puts on standard output; `formatScore` is what `printf("%.4f", (double)score)` puts
there.
-/

namespace Ipa

/-- A digit of `%x`. -/
def hexDigitByte (n : Nat) : UInt8 := UInt8.ofNat (if n < 10 then 0x30 + n else 0x61 + (n - 10))

/-- `printf("%04x", c)`; the two upper digits of a byte are zero. -/
def hex04 (c : UInt8) : List UInt8 :=
  [0x30, 0x30, hexDigitByte (c.toNat / 16), hexDigitByte (c.toNat % 16)]

/-- One byte of `jsonPrintString`. -/
def jsonPrintByte (c : UInt8) : List UInt8 :=
  if c = 0x22 then ascii "\\\""
  else if c = 0x5C then ascii "\\\\"
  else if c = 0x0A then ascii "\\n"
  else if c = 0x0D then ascii "\\r"
  else if c = 0x09 then ascii "\\t"
  else if c < 0x20 then ascii "\\u" ++ hex04 c
  else [c]

def jsonPrintString : Option CStr → List UInt8
  | none => ascii "null"
  | some s => 0x22 :: (s.bytes.flatMap jsonPrintByte ++ [0x22])

/-- At most 30 blanks fit in `pad`. -/
def padding (indent : Nat) : List UInt8 :=
  List.replicate (if indent < 30 then indent else 30) 0x20

/-- `if (i > 0) putchar(',')`. -/
def comma (i : Nat) : List UInt8 := if i > 0 then [0x2C] else []

/-- The loop over the pairs, from pair `i` on. -/
def printPairs : List Emit → Nat → List UInt8
  | [], _ => []
  | emit :: rest, i => comma i ++ (jsonPrintString emit.key ++
      (0x3A :: (jsonPrintString emit.value ++ printPairs rest (i + 1))))

def printEmits (emits : List Emit) (indent : Nat) : List UInt8 :=
  padding indent ++ (ascii "\"emit\":\x7b" ++ (printPairs emits 0 ++ ascii "\x7d"))

section Print

variable (formatScore : Binary32 → List UInt8)

mutual

def printMatch : Match → Nat → List UInt8
  | ⟨id, span, score, emits, children⟩, indent =>
    padding indent ++ (ascii "\x7b" ++ (ascii "\"id\":" ++ (jsonPrintString (some id) ++
      (ascii ",\"span\":" ++ (jsonPrintString (some span) ++
      (ascii ",\"score\":" ++ (formatScore score ++
      ((if emits.length > 0 then ascii "," ++ printEmits emits 0 else []) ++
      ((if children.length > 0 then
          ascii ",\"children\":[" ++ (printMatches children 0 ++ ascii "]")
        else []) ++ ascii "\x7d")))))))))

/-- The loop over the matches of an array, from match `i` on. -/
def printMatches : List Match → Nat → List UInt8
  | [], _ => []
  | m :: rest, i => comma i ++ (printMatch m 0 ++ printMatches rest (i + 1))

end

def printResult (r : ParseResult) : List UInt8 :=
  ascii "\x7b\"ok\":" ++ ((if r.ok then ascii "true" else ascii "false") ++
    (ascii ",\"matches\":[" ++ (printMatches formatScore r.matches_ 0 ++ ascii "]\x7d\n")))

end Print

end Ipa
