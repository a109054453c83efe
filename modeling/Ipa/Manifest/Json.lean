import Ipa.Manifest.Basic
import Ipa.Lib.Strtod
import Ipa.Lib.Run

/-!
# The manifest parser

The tokenizer is the text with a position. Each parser returns the tokenizer behind what it read
with what it read. The text is followed by a NUL that only `strtod` and the string functions may
look at. The recursive parsers take a fuel; three times the length of what is left, and three
more, is enough for `skipValue`.
-/

namespace Ipa

open Run

/-- The tokenizer; its length is that of the text. -/
structure Json where
  src : List UInt8
  pos : Nat
deriving DecidableEq

/-- What a parser reports: a message with the position it was set at, or nothing. -/
inductive JsonError
  | said (msg : String) (pos : Nat)
  | silent
deriving DecidableEq, Repr

namespace Json

def rest (j : Json) : List UInt8 := j.src.drop j.pos

def advance (j : Json) (n : Nat) : Json := { j with pos := j.pos + n }

/-- `src[pos]`, when `pos` is below the length. -/
def peek (j : Json) : Option UInt8 := j.src[j.pos]?

def setError {α : Type} (j : Json) (msg : String) : Run JsonError α := fail (.said msg j.pos)

def skipWs (j : Json) : Json := j.advance (j.rest.takeWhile isspace).length

/-- The text of `expected '%c'`. -/
def expected (c : UInt8) : String :=
  "expected '" ++ String.singleton (Char.ofNat c.toNat) ++ "'"

def expect (j : Json) (c : UInt8) : Run JsonError Json :=
  let j := j.skipWs
  if j.peek = some c then pure (j.advance 1) else j.setError (expected c)

/-- What a backslash and `e` stand for. -/
def unescape (e : UInt8) : UInt8 :=
  if e = 0x6E then 0x0A
  else if e = 0x72 then 0x0D
  else if e = 0x74 then 0x09
  else e

/-- `buf[n++] = c`, with room kept for the terminator. -/
def pushByte (cap : Nat) (buf : List UInt8) (c : UInt8) : Run JsonError (Nat × List UInt8) :=
  if cap ≤ buf.length + 2 then do
    allocOr .silent
    pure (cap * 2, buf ++ [c])
  else pure (cap, buf ++ [c])

/-- The loop of the string parser over what follows the opening quote. -/
def stringLoop : List UInt8 → Json → Nat → List UInt8 → Run JsonError (Json × List UInt8)
  | [], j, _, _ => j.setError "unterminated string"
  | 0x22 :: _, j, _, buf => pure (j.advance 1, buf)
  | 0x5C :: [], _, _, _ => fail .silent
  | 0x5C :: e :: rest, j, cap, buf => do
    let (cap, buf) ← pushByte cap buf (unescape e)
    stringLoop rest (j.advance 2) cap buf
  | c :: rest, j, cap, buf => do
    let (cap, buf) ← pushByte cap buf c
    stringLoop rest (j.advance 1) cap buf

def parseString (j : Json) : Run JsonError (Json × CStr) := do
  let j := j.skipWs
  if j.peek ≠ some 0x22 then j.setError "expected string"
  else
    let j := j.advance 1
    allocOr .silent
    let (j, buf) ← stringLoop j.rest j 256 []
    pure (j, CStr.ofBuffer buf)

def parseDouble [Arith] (j : Json) : Run JsonError (Json × Binary64) :=
  let j := j.skipWs
  let n := strtodLen j.rest
  if n = 0 then j.setError "expected number"
  else pure (j.advance n, Arith.ofText (j.rest.take n))

/-! ## Unknown values -/

/-- `true`, `false` or `null`. -/
def skipWord (j : Json) (word : List UInt8) : Run JsonError Json :=
  if j.rest.take word.length = word then pure (j.advance word.length)
  else j.setError "invalid token"

mutual

def skipObject : Nat → Json → Run JsonError Json
  | 0, _ => fault .fuel
  | fuel + 1, j => do
    let j ← j.expect 0x7B
    let j := j.skipWs
    if j.peek = some 0x7D then pure (j.advance 1)
    else
      let j ← skipMembers fuel j
      j.expect 0x7D

/-- The loop over the members of an object. -/
def skipMembers : Nat → Json → Run JsonError Json
  | 0, _ => fault .fuel
  | fuel + 1, j => do
    let (j, _) ← j.parseString
    let j ← j.expect 0x3A
    let j ← skipValue fuel j
    let j := j.skipWs
    if j.peek = some 0x2C then skipMembers fuel (j.advance 1) else pure j

def skipArray : Nat → Json → Run JsonError Json
  | 0, _ => fault .fuel
  | fuel + 1, j => do
    let j ← j.expect 0x5B
    let j := j.skipWs
    if j.peek = some 0x5D then pure (j.advance 1)
    else
      let j ← skipElements fuel j
      j.expect 0x5D

/-- The loop over the elements of an array. -/
def skipElements : Nat → Json → Run JsonError Json
  | 0, _ => fault .fuel
  | fuel + 1, j => do
    let j ← skipValue fuel j
    let j := j.skipWs
    if j.peek = some 0x2C then skipElements fuel (j.advance 1) else pure j

def skipValue : Nat → Json → Run JsonError Json
  | 0, _ => fault .fuel
  | fuel + 1, j => do
    let j := j.skipWs
    match j.peek with
    | none => j.setError "unexpected end of input"
    | some c =>
      if c = 0x22 then do
        let (j, _) ← j.parseString
        pure j
      else if c = 0x7B then skipObject fuel j
      else if c = 0x5B then skipArray fuel j
      else if c = 0x74 then j.skipWord (ascii "true")
      else if c = 0x66 then j.skipWord (ascii "false")
      else if c = 0x6E then j.skipWord (ascii "null")
      else
        let n := strtodLen j.rest
        if n = 0 then j.setError "invalid value" else pure (j.advance n)

end

/-- The fuel for what is left of the text. -/
def fuel (j : Json) : Nat := 3 * j.rest.length + 3

/-! ## Arrays of strings, emit objects -/

/-- The growth of a counted array: `cap` doubles, from `start`, when `n` reaches it. -/
def growArray (n cap start : Nat) : Run JsonError Nat :=
  if cap ≤ n then do
    allocOr .silent
    pure (if cap = 0 then start else cap * 2)
  else pure cap

def stringArrayLoop : Nat → Json → List CStr → Nat → Run JsonError (Json × List CStr)
  | 0, _, _, _ => fault .fuel
  | fuel + 1, j, arr, cap => do
    let (j, s) ← j.skipWs.parseString
    let cap ← growArray arr.length cap 8
    let arr := arr ++ [s]
    let j := j.skipWs
    if j.peek = some 0x2C then stringArrayLoop fuel (j.advance 1) arr cap else pure (j, arr)

def parseStringArray (j : Json) : Run JsonError (Json × List CStr) := do
  let j ← j.expect 0x5B
  let j := j.skipWs
  if j.peek = some 0x5D then pure (j.advance 1, [])
  else
    let (j, arr) ← stringArrayLoop j.fuel j [] 0
    let j ← j.expect 0x5D
    pure (j, arr)

def emitLoop : Nat → Json → List EmitDef → Nat → Run JsonError (Json × List EmitDef)
  | 0, _, _, _ => fault .fuel
  | fuel + 1, j, arr, cap => do
    let (j, key) ← j.parseString
    let j ← j.expect 0x3A
    let (j, val) ← j.parseString
    let cap ← growArray arr.length cap 4
    let arr := arr ++ [⟨some key, some val⟩]
    let j := j.skipWs
    if j.peek = some 0x2C then emitLoop fuel (j.advance 1) arr cap else pure (j, arr)

def parseEmitObject (j : Json) : Run JsonError (Json × List EmitDef) := do
  let j ← j.expect 0x7B
  let j := j.skipWs
  if j.peek = some 0x7D then pure (j.advance 1, [])
  else
    let (j, arr) ← emitLoop j.fuel j [] 0
    let j ← j.expect 0x7D
    pure (j, arr)

/-! ## Nodes -/

mutual

def parseNodeArray : Nat → Json → Run JsonError (Json × List NodeDef)
  | 0, _ => fault .fuel
  | fuel + 1, j => do
    let j ← j.expect 0x5B
    let j := j.skipWs
    if j.peek = some 0x5D then pure (j.advance 1, [])
    else
      let (j, arr) ← nodeArrayLoop fuel j [] 0
      let j ← j.expect 0x5D
      pure (j, arr)

def nodeArrayLoop : Nat → Json → List NodeDef → Nat → Run JsonError (Json × List NodeDef)
  | 0, _, _, _ => fault .fuel
  | fuel + 1, j, arr, cap => do
    let cap ← growArray arr.length cap 8
    let (j, nd) ← parseNode fuel j.skipWs
    let arr := arr ++ [nd]
    let j := j.skipWs
    if j.peek = some 0x2C then nodeArrayLoop fuel (j.advance 1) arr cap else pure (j, arr)

def parseNode : Nat → Json → Run JsonError (Json × NodeDef)
  | 0, _ => fault .fuel
  | fuel + 1, j => do
    let nd : NodeDef := {}
    let j ← j.expect 0x7B
    let j := j.skipWs
    if j.peek = some 0x7D then pure (j.advance 1, nd)
    else
      let (j, nd) ← nodeMembers fuel j nd
      let j ← j.expect 0x7D
      pure (j, nd)

/-- The loop over the members of a node. -/
def nodeMembers : Nat → Json → NodeDef → Run JsonError (Json × NodeDef)
  | 0, _, _ => fault .fuel
  | fuel + 1, j, nd => do
    let (j, key) ← j.parseString
    let j ← j.expect 0x3A
    let j := j.skipWs
    let (j, nd) ←
      if key.bytes = ascii "id" then do
        let (j, id) ← j.parseString
        pure (j, { nd with id := some id })
      else if key.bytes = ascii "descriptions" then do
        let (j, descriptions) ← j.parseStringArray
        pure (j, { nd with descriptions := descriptions.map some })
      else if key.bytes = ascii "emit" then do
        let (j, emits) ← j.parseEmitObject
        pure (j, { nd with emits })
      else if key.bytes = ascii "children" then do
        let (j, children) ← parseNodeArray fuel j
        pure (j, { nd with children })
      else do
        let j ← skipValue j.fuel j
        pure (j, nd)
    let j := j.skipWs
    if j.peek = some 0x2C then nodeMembers fuel (j.advance 1) nd else pure (j, nd)

end

/-! ## The manifest -/

section Manifest

variable [Arith]

/-- `(float)v`. -/
def toFloat (v : Binary64) : Binary32 := Arith.narrow v

/-- `(int)v`. -/
def toInt (v : Binary64) : Int32 := Arith.toInt v

/-- The loop over the members of the defaults. -/
def defaultsMembers : Nat → Json → Manifest → Run JsonError (Json × Manifest)
  | 0, _, _ => fault .fuel
  | fuel + 1, j, m => do
    let (j, dk) ← j.parseString
    let j ← j.expect 0x3A
    let j := j.skipWs
    let (j, m) ←
      if dk.bytes = ascii "node_threshold" then do
        let (j, v) ← j.parseDouble
        pure (j, { m with nodeThreshold := toFloat v })
      else if dk.bytes = ascii "min_ngram" then do
        let (j, v) ← j.parseDouble
        pure (j, { m with minNgram := toInt v })
      else if dk.bytes = ascii "max_ngram" then do
        let (j, v) ← j.parseDouble
        pure (j, { m with maxNgram := toInt v })
      else do
        let j ← skipValue j.fuel j
        pure (j, m)
    let j := j.skipWs
    if j.peek = some 0x2C then defaultsMembers fuel (j.advance 1) m else pure (j, m)

def parseDefaults (j : Json) (m : Manifest) : Run JsonError (Json × Manifest) := do
  let j ← j.expect 0x7B
  let j := j.skipWs
  if j.peek = some 0x7D then pure (j.advance 1, m)
  else
    let (j, m) ← defaultsMembers j.fuel j m
    let j ← j.expect 0x7D
    pure (j, m)

/-- The loop over the members of the manifest. -/
def manifestMembers : Nat → Json → Manifest → Run JsonError (Json × Manifest)
  | 0, _, _ => fault .fuel
  | fuel + 1, j, m => do
    let (j, key) ← j.parseString
    let j ← j.expect 0x3A
    let j := j.skipWs
    let (j, m) ←
      if key.bytes = ascii "schema" then do
        let (j, schema) ← j.parseString
        pure (j, { m with schema := some schema })
      else if key.bytes = ascii "id" then do
        let (j, id) ← j.parseString
        pure (j, { m with id := some id })
      else if key.bytes = ascii "vendor" then do
        let (j, vendor) ← j.parseString
        pure (j, { m with vendor := some vendor })
      else if key.bytes = ascii "version" then do
        let (j, version) ← j.parseString
        pure (j, { m with version := some version })
      else if key.bytes = ascii "defaults" then parseDefaults j m
      else if key.bytes = ascii "nodes" then do
        let (j, nodes) ← parseNodeArray j.fuel j
        pure (j, { m with nodes })
      else do
        let j ← skipValue j.fuel j
        pure (j, m)
    let j := j.skipWs
    if j.peek = some 0x2C then manifestMembers fuel (j.advance 1) m else pure (j, m)

def parseManifest (j : Json) : Run JsonError (Json × Manifest) := do
  let m := Manifest.initial
  let j ← j.expect 0x7B
  let j := j.skipWs
  if j.peek = some 0x7D then pure (j.advance 1, m)
  else
    let (j, m) ← manifestMembers j.fuel j m
    let j ← j.expect 0x7D
    pure (j, m)

end Manifest

end Json

end Ipa
