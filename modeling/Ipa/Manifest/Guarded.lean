import Ipa.Manifest.Reads

/-!
# The parser, byte by byte

The same parser once more, reading one byte of the text at a time. Here reading beyond the NUL and
moving the position back or beyond the length are faults, and so is a pass of a loop, or a call of
one parser by another, that did not consume a byte. The guarded parser is the parser: none of its
guards ever fails, and its fuel suffices.
-/

namespace Ipa

open Run

namespace Json

/-- `src[i]`, where the NUL stands behind the text. -/
def byteAt (j : Json) (i : Nat) : Run JsonError UInt8 :=
  if i ≤ j.src.length then pure ((j.src ++ [0]).getD i 0) else fault .index

/-- `pos` goes on, up to the length. -/
def seek (j : Json) (pos : Nat) : Run JsonError Json :=
  if j.pos ≤ pos ∧ pos ≤ j.src.length then pure { j with pos } else fault .index

/-- A byte was consumed between two positions. -/
def progress (before after : Json) : Run JsonError Unit :=
  if before.pos < after.pos then pure () else fault .fuel

namespace Guarded

/-- The loop of `kc_ipa_json_skip_ws`. -/
def skipWsLoop : Nat → Json → Run JsonError Json
  | 0, _ => fault .fuel
  | n + 1, j =>
    if j.pos < j.src.length then do
      if isspace (← byteAt j j.pos) then
        let j' ← seek j (j.pos + 1)
        progress j j'
        skipWsLoop n j'
      else pure j
    else pure j

def skipWs (j : Json) : Run JsonError Json := skipWsLoop (j.rest.length + 1) j

/-- `j->pos < j->len && j->src[j->pos] == c`. -/
def isAt (j : Json) (c : UInt8) : Run JsonError Bool :=
  if j.pos < j.src.length then do
    pure (decide ((← byteAt j j.pos) = c))
  else pure false

def expect (j : Json) (c : UInt8) : Run JsonError Json := do
  let j ← skipWs j
  if ← isAt j c then seek j (j.pos + 1) else j.setError (expected c)

def stringLoop : Nat → Json → Nat → List UInt8 → Run JsonError (Json × List UInt8)
  | 0, _, _, _ => fault .fuel
  | n + 1, j, cap, buf =>
    if j.pos < j.src.length then do
      let c ← byteAt j j.pos
      if c = 0x22 then
        let j ← seek j (j.pos + 1)
        pure (j, buf)
      else
        let j' ← seek j (j.pos + 1)
        progress j j'
        if c = 0x5C then
          if j'.pos < j'.src.length then
            let e ← byteAt j' j'.pos
            let j'' ← seek j' (j'.pos + 1)
            let (cap, buf) ← pushByte cap buf (unescape e)
            stringLoop n j'' cap buf
          else fail .silent
        else
          let (cap, buf) ← pushByte cap buf c
          stringLoop n j' cap buf
    else j.setError "unterminated string"

def parseString (j : Json) : Run JsonError (Json × CStr) := do
  let j ← skipWs j
  if ← isAt j 0x22 then
    let j ← seek j (j.pos + 1)
    allocOr .silent
    let (j, buf) ← stringLoop (j.rest.length + 1) j 256 []
    pure (j, CStr.ofBuffer buf)
  else j.setError "expected string"

/-- `strtod` from the position on, which stops at the NUL, and `j->pos = end - j->src`. -/
def strtod (j : Json) (msg : String) : Run JsonError Json := do
  let n := strtodLen j.rest
  if n = 0 then j.setError msg else seek j (j.pos + n)

def parseDouble [Arith] (j : Json) : Run JsonError (Json × Binary64) := do
  let j ← skipWs j
  let j' ← strtod j "expected number"
  pure (j', Arith.ofText (j.rest.take (j'.pos - j.pos)))

/-- `strncmp`, which stops at the first byte that differs. -/
def strncmp (j : Json) : List UInt8 → Nat → Run JsonError Bool
  | [], _ => pure true
  | c :: word, i => do
    if (← byteAt j i) = c then strncmp j word (i + 1) else pure false

def skipWord (j : Json) (word : List UInt8) : Run JsonError Json := do
  if j.pos + word.length ≤ j.src.length then
    if ← strncmp j word j.pos then seek j (j.pos + word.length) else j.setError "invalid token"
  else j.setError "invalid token"

/-! ## Unknown values -/

mutual

def skipObject : Nat → Json → Run JsonError Json
  | 0, _ => fault .fuel
  | fuel + 1, j => do
    let j₁ ← expect j 0x7B
    progress j j₁
    let j ← skipWs j₁
    if ← isAt j 0x7D then seek j (j.pos + 1)
    else
      let j ← skipMembers fuel j
      expect j 0x7D

def skipMembers : Nat → Json → Run JsonError Json
  | 0, _ => fault .fuel
  | fuel + 1, j => do
    let (j₁, _) ← parseString j
    let j₂ ← expect j₁ 0x3A
    let j₃ ← skipValue fuel j₂
    progress j₂ j₃
    let j₄ ← skipWs j₃
    if ← isAt j₄ 0x2C then
      let j' ← seek j₄ (j₄.pos + 1)
      progress j j'
      skipMembers fuel j'
    else pure j₄

def skipArray : Nat → Json → Run JsonError Json
  | 0, _ => fault .fuel
  | fuel + 1, j => do
    let j₁ ← expect j 0x5B
    progress j j₁
    let j ← skipWs j₁
    if ← isAt j 0x5D then seek j (j.pos + 1)
    else
      let j ← skipElements fuel j
      expect j 0x5D

def skipElements : Nat → Json → Run JsonError Json
  | 0, _ => fault .fuel
  | fuel + 1, j => do
    let j₃ ← skipValue fuel j
    progress j j₃
    let j₄ ← skipWs j₃
    if ← isAt j₄ 0x2C then
      let j' ← seek j₄ (j₄.pos + 1)
      progress j j'
      skipElements fuel j'
    else pure j₄

def skipValue : Nat → Json → Run JsonError Json
  | 0, _ => fault .fuel
  | fuel + 1, j => do
    let j ← skipWs j
    if j.pos < j.src.length then
      let c ← byteAt j j.pos
      if c = 0x22 then do
        let (j, _) ← parseString j
        pure j
      else if c = 0x7B then skipObject fuel j
      else if c = 0x5B then skipArray fuel j
      else if c = 0x74 then skipWord j (ascii "true")
      else if c = 0x66 then skipWord j (ascii "false")
      else if c = 0x6E then skipWord j (ascii "null")
      else strtod j "invalid value"
    else j.setError "unexpected end of input"

end

/-! ## Arrays of strings, emit objects -/

def stringArrayLoop : Nat → Json → List CStr → Nat → Run JsonError (Json × List CStr)
  | 0, _, _, _ => fault .fuel
  | fuel + 1, j, arr, cap => do
    let j₁ ← skipWs j
    let (j₂, s) ← parseString j₁
    let cap ← growArray arr.length cap 8
    let arr := arr ++ [s]
    let j₃ ← skipWs j₂
    if ← isAt j₃ 0x2C then
      let j' ← seek j₃ (j₃.pos + 1)
      progress j j'
      stringArrayLoop fuel j' arr cap
    else pure (j₃, arr)

def parseStringArray (j : Json) : Run JsonError (Json × List CStr) := do
  let j₁ ← expect j 0x5B
  progress j j₁
  let j ← skipWs j₁
  if ← isAt j 0x5D then
    let j ← seek j (j.pos + 1)
    pure (j, [])
  else
    let (j, arr) ← stringArrayLoop j.fuel j [] 0
    let j ← expect j 0x5D
    pure (j, arr)

def emitLoop : Nat → Json → List EmitDef → Nat → Run JsonError (Json × List EmitDef)
  | 0, _, _, _ => fault .fuel
  | fuel + 1, j, arr, cap => do
    let (j₁, key) ← parseString j
    let j₂ ← expect j₁ 0x3A
    let (j₃, val) ← parseString j₂
    let cap ← growArray arr.length cap 4
    let arr := arr ++ [⟨some key, some val⟩]
    let j₄ ← skipWs j₃
    if ← isAt j₄ 0x2C then
      let j' ← seek j₄ (j₄.pos + 1)
      progress j j'
      emitLoop fuel j' arr cap
    else pure (j₄, arr)

def parseEmitObject (j : Json) : Run JsonError (Json × List EmitDef) := do
  let j₁ ← expect j 0x7B
  progress j j₁
  let j ← skipWs j₁
  if ← isAt j 0x7D then
    let j ← seek j (j.pos + 1)
    pure (j, [])
  else
    let (j, arr) ← emitLoop j.fuel j [] 0
    let j ← expect j 0x7D
    pure (j, arr)

/-! ## Nodes -/

mutual

def parseNodeArray : Nat → Json → Run JsonError (Json × List NodeDef)
  | 0, _ => fault .fuel
  | fuel + 1, j => do
    let j₁ ← expect j 0x5B
    progress j j₁
    let j ← skipWs j₁
    if ← isAt j 0x5D then
      let j ← seek j (j.pos + 1)
      pure (j, [])
    else
      let (j, arr) ← nodeArrayLoop fuel j [] 0
      let j ← expect j 0x5D
      pure (j, arr)

def nodeArrayLoop : Nat → Json → List NodeDef → Nat → Run JsonError (Json × List NodeDef)
  | 0, _, _, _ => fault .fuel
  | fuel + 1, j, arr, cap => do
    let cap ← growArray arr.length cap 8
    let j₁ ← skipWs j
    let (j₂, nd) ← parseNode fuel j₁
    progress j₁ j₂
    let arr := arr ++ [nd]
    let j₃ ← skipWs j₂
    if ← isAt j₃ 0x2C then
      let j' ← seek j₃ (j₃.pos + 1)
      progress j j'
      nodeArrayLoop fuel j' arr cap
    else pure (j₃, arr)

def parseNode : Nat → Json → Run JsonError (Json × NodeDef)
  | 0, _ => fault .fuel
  | fuel + 1, j => do
    let nd : NodeDef := {}
    let j₁ ← expect j 0x7B
    progress j j₁
    let j ← skipWs j₁
    if ← isAt j 0x7D then
      let j ← seek j (j.pos + 1)
      pure (j, nd)
    else
      let (j, nd) ← nodeMembers fuel j nd
      let j ← expect j 0x7D
      pure (j, nd)

def nodeMembers : Nat → Json → NodeDef → Run JsonError (Json × NodeDef)
  | 0, _, _ => fault .fuel
  | fuel + 1, j, nd => do
    let (j₁, key) ← parseString j
    let j₂ ← expect j₁ 0x3A
    let j₃ ← skipWs j₂
    let (j₄, nd) ←
      if key.bytes = ascii "id" then do
        let (j, id) ← parseString j₃
        pure (j, { nd with id := some id })
      else if key.bytes = ascii "descriptions" then do
        let (j, descriptions) ← parseStringArray j₃
        pure (j, { nd with descriptions := descriptions.map some })
      else if key.bytes = ascii "emit" then do
        let (j, emits) ← parseEmitObject j₃
        pure (j, { nd with emits })
      else if key.bytes = ascii "children" then do
        let (j, children) ← parseNodeArray fuel j₃
        progress j₃ j
        pure (j, { nd with children })
      else do
        let j ← skipValue j₃.fuel j₃
        pure (j, nd)
    let j₅ ← skipWs j₄
    if ← isAt j₅ 0x2C then
      let j' ← seek j₅ (j₅.pos + 1)
      progress j j'
      nodeMembers fuel j' nd
    else pure (j₅, nd)

end

/-! ## The manifest -/

section Manifest

variable [Arith]

def defaultsMembers : Nat → Json → Manifest → Run JsonError (Json × Manifest)
  | 0, _, _ => fault .fuel
  | fuel + 1, j, m => do
    let (j₁, dk) ← parseString j
    let j₂ ← expect j₁ 0x3A
    let j₃ ← skipWs j₂
    let (j₄, m) ←
      if dk.bytes = ascii "node_threshold" then do
        let (j, v) ← parseDouble j₃
        pure (j, { m with nodeThreshold := toFloat v })
      else if dk.bytes = ascii "min_ngram" then do
        let (j, v) ← parseDouble j₃
        pure (j, { m with minNgram := toInt v })
      else if dk.bytes = ascii "max_ngram" then do
        let (j, v) ← parseDouble j₃
        pure (j, { m with maxNgram := toInt v })
      else do
        let j ← skipValue j₃.fuel j₃
        pure (j, m)
    let j₅ ← skipWs j₄
    if ← isAt j₅ 0x2C then
      let j' ← seek j₅ (j₅.pos + 1)
      progress j j'
      defaultsMembers fuel j' m
    else pure (j₅, m)

def parseDefaults (j : Json) (m : Manifest) : Run JsonError (Json × Manifest) := do
  let j₁ ← expect j 0x7B
  progress j j₁
  let j ← skipWs j₁
  if ← isAt j 0x7D then
    let j ← seek j (j.pos + 1)
    pure (j, m)
  else
    let (j, m) ← defaultsMembers j.fuel j m
    let j ← expect j 0x7D
    pure (j, m)

def manifestMembers : Nat → Json → Manifest → Run JsonError (Json × Manifest)
  | 0, _, _ => fault .fuel
  | fuel + 1, j, m => do
    let (j₁, key) ← parseString j
    let j₂ ← expect j₁ 0x3A
    let j₃ ← skipWs j₂
    let (j₄, m) ←
      if key.bytes = ascii "schema" then do
        let (j, schema) ← parseString j₃
        pure (j, { m with schema := some schema })
      else if key.bytes = ascii "id" then do
        let (j, id) ← parseString j₃
        pure (j, { m with id := some id })
      else if key.bytes = ascii "vendor" then do
        let (j, vendor) ← parseString j₃
        pure (j, { m with vendor := some vendor })
      else if key.bytes = ascii "version" then do
        let (j, version) ← parseString j₃
        pure (j, { m with version := some version })
      else if key.bytes = ascii "defaults" then parseDefaults j₃ m
      else if key.bytes = ascii "nodes" then do
        let (j, nodes) ← parseNodeArray j₃.fuel j₃
        pure (j, { m with nodes })
      else do
        let j ← skipValue j₃.fuel j₃
        pure (j, m)
    let j₅ ← skipWs j₄
    if ← isAt j₅ 0x2C then
      let j' ← seek j₅ (j₅.pos + 1)
      progress j j'
      manifestMembers fuel j' m
    else pure (j₅, m)

def parseManifest (j : Json) : Run JsonError (Json × Manifest) := do
  let m := Manifest.initial
  let j₁ ← expect j 0x7B
  progress j j₁
  let j ← skipWs j₁
  if ← isAt j 0x7D then
    let j ← seek j (j.pos + 1)
    pure (j, m)
  else
    let (j, m) ← manifestMembers j.fuel j m
    let j ← expect j 0x7D
    pure (j, m)

end Manifest

end Guarded

end Json

end Ipa
