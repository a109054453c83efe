import Ipa.Lib.Run
import Ipa.Lib.CStr
import Ipa.Lib.Bisect

/-!
# The n-gram traversal (`libngram.c`)

The tokenizer, the sorted array of closed spans and the descending sliding-window loop. Spans
and windows are pairs of inclusive token indices. Counters are natural numbers: a count that
passes `INT_MAX` first asks for an array that no allocator serves.
-/

namespace Ipa.Ngram

open Run

structure Token where
  byteStart : Nat
  byteEnd : Nat
deriving DecidableEq, Repr, Inhabited

structure TokenList where
  items : List Token
  cap : Nat

/-- A span of tokens, `start` and `stop` both inclusive. -/
structure Span where
  start : Nat
  stop : Nat
deriving DecidableEq, Repr, Inhabited

structure SpanList where
  items : List Span
  cap : Nat

structure Chunk where
  input : CStr
  byteStart : Nat
  byteEnd : Nat
  start : Nat
  stop : Nat
  size : Nat

structure Options where
  maxTokens : Int
  minTokens : Int
  separators : Option CStr

/-- The entry check lets the options through. -/
def Options.Accepted (options : Options) : Prop :=
  1 ≤ options.minTokens ∧ (options.maxTokens ≤ 0 ∨ options.minTokens ≤ options.maxTokens)

variable {ε σ : Type}

/-! ## Tokens -/

def isSeparator (ch : UInt8) : Option CStr → Bool
  | none => false
  | some separators => !separators.bytes.isEmpty && separators.bytes.contains ch

def reserveTokenSlot (tokens : TokenList) : Run ε (Option TokenList) :=
  if tokens.items.length < tokens.cap then pure (some tokens)
  else do
    let nextCap := if tokens.cap > 0 then tokens.cap * 2 else 16
    if ← alloc then pure (some { tokens with cap := nextCap }) else pure none

def pushToken (tokens : TokenList) (byteStart byteEnd : Nat) : Run ε (Option TokenList) :=
  if byteEnd ≤ byteStart then pure none
  else do
    match ← reserveTokenSlot tokens with
    | none => pure none
    | some tokens =>
      pure (some { tokens with items := tokens.items ++ [⟨byteStart, byteEnd⟩] })

/-- The outer loop of the tokenizer: `cursor` is what is left of the input and `at` its offset. -/
def splitLoop (separators : Option CStr) :
    Nat → List UInt8 → Nat → TokenList → Run ε (Option TokenList)
  | 0, _, _, _ => fault .fuel
  | fuel + 1, cursor, offset, tokens =>
    if cursor.isEmpty then pure (some tokens)
    else
      let gap := cursor.takeWhile (isSeparator · separators)
      let cursor := cursor.dropWhile (isSeparator · separators)
      if cursor.isEmpty then pure (some tokens)
      else
        let tokenStart := offset + gap.length
        let word := cursor.takeWhile (!isSeparator · separators)
        let cursor := cursor.dropWhile (!isSeparator · separators)
        if word.isEmpty then splitLoop separators fuel cursor tokenStart tokens
        else do
          match ← pushToken tokens tokenStart (tokenStart + word.length) with
          | none => pure none
          | some tokens => splitLoop separators fuel cursor (tokenStart + word.length) tokens

def splitTokens (input : CStr) (separators : Option CStr) : Run ε (Option TokenList) :=
  splitLoop separators (input.strlen + 1) input.bytes 0 ⟨[], 0⟩

/-! ## Closed spans -/

def findSpanInsertIndex (spans : List Span) (start : Nat) : Nat :=
  bisect (fun mid => decide ((spans.getD mid default).start < start)) spans.length 0 spans.length

def spanIsClosed (start stop : Nat) (spans : List Span) : Bool :=
  if spans.isEmpty then false
  else
    let left :=
      bisect (fun mid => decide ((spans.getD mid default).start ≤ start)) spans.length 0 spans.length
    if left = 0 then false
    else
      let span := spans.getD (left - 1) default
      decide (start ≥ span.start) && decide (stop ≤ span.stop)

def reserveSpanSlot (spans : SpanList) : Run ε (Option SpanList) :=
  if spans.items.length < spans.cap then pure (some spans)
  else do
    let nextCap := if spans.cap > 0 then spans.cap * 2 else 16
    if ← alloc then pure (some { spans with cap := nextCap }) else pure none

def addClosedSpan (spans : SpanList) (start stop : Nat) : Run ε (Option SpanList) :=
  let insertAt := findSpanInsertIndex spans.items start
  let before := spans.items.getD (insertAt - 1) default
  let after := spans.items.getD insertAt default
  if 0 < insertAt ∧ before.start ≤ start ∧ stop ≤ before.stop then pure (some spans)
  else if insertAt < spans.items.length ∧ after.start = start ∧ stop ≤ after.stop then
    pure (some spans)
  else
    -- the spans from `insertAt` on that the new one covers are removed
    let items := spans.items.take insertAt ++
      (spans.items.drop insertAt).dropWhile fun span => decide (span.stop ≤ stop)
    let spans := { spans with items }
    let next := items.getD insertAt default
    if insertAt < items.length ∧ next.start ≤ start ∧ stop ≤ next.stop then pure (some spans)
    else do
      match ← reserveSpanSlot spans with
      | none => pure none
      | some spans =>
        pure (some { spans with items := items.take insertAt ++ ⟨start, stop⟩ :: items.drop insertAt })

/-! ## The traversal -/

def optionsDefault : Options :=
  ⟨10, 1, some ⟨[0x20, 0x09, 0x0D, 0x0A], by decide⟩⟩

/-- A visitor: its decision on a chunk and the context it leaves. -/
abbrev Visit (ε σ : Type) := Chunk → σ → Run ε (Int × σ)

structure Scan (σ : Type) where
  closed : SpanList
  emitted : Nat
  ctx : σ

section Execute

variable (input : CStr) (tokens : List Token) (visit : Visit ε σ)

/-- The body of the inner loop. `.error` is the return of -1, with the context as the visitor
left it. -/
def visitWindow (size start : Nat) (st : Scan σ) : Run ε (Except σ (Scan σ)) :=
  let stop := start + size - 1
  if spanIsClosed start stop st.closed.items then pure (.ok st)
  else
    match tokens[start]?, tokens[stop]? with
    | some first, some last => do
      let chunk : Chunk := ⟨input, first.byteStart, last.byteEnd, start, stop, size⟩
      let (decision, ctx) ← visit chunk st.ctx
      if decision < 0 then pure (.error ctx)
      else
        let st := { st with emitted := st.emitted + 1, ctx := ctx }
        if decision = 1 then do
          match ← addClosedSpan st.closed start stop with
          | none => pure (.error ctx)
          | some closed => pure (.ok { st with closed := closed })
        else pure (.ok st)
    | _, _ => fault .index

/-- The inner loop: `left` more starts, from `start` on. -/
def scanStarts (size : Nat) : Nat → Nat → Scan σ → Run ε (Except σ (Scan σ))
  | 0, _, st => pure (.ok st)
  | left + 1, start, st => do
    match ← visitWindow input tokens visit size start st with
    | .error ctx => pure (.error ctx)
    | .ok st => scanStarts size left (start + 1) st

/-- The outer loop, by descending window size. -/
def scanSizes (minTokens : Int) : Nat → Scan σ → Run ε (Except σ (Scan σ))
  | 0, st => pure (.ok st)
  | size + 1, st =>
    if minTokens ≤ (size + 1 : Nat) then do
      match ← scanStarts input tokens visit (size + 1) (tokens.length - size) 0 st with
      | .error ctx => pure (.error ctx)
      | .ok st => scanSizes minTokens size st
    else pure (.ok st)

end Execute

def execute (input : CStr) (options : Option Options) (visit : Visit ε σ) (ctx : σ) :
    Run ε (Int × σ) :=
  let options := options.getD optionsDefault
  if options.minTokens < 1 ∨ (0 < options.maxTokens ∧ options.maxTokens < options.minTokens) then
    pure (-1, ctx)
  else do
    match ← splitTokens input options.separators with
    | none => pure (-1, ctx)
    | some tokens =>
      if tokens.items.length = 0 then pure (0, ctx)
      else do
        let count : Int := tokens.items.length
        let loopMax :=
          if options.maxTokens = 0 ∨ count < options.maxTokens then count else options.maxTokens
        match ← scanSizes input tokens.items visit options.minTokens loopMax.toNat
            ⟨⟨[], 0⟩, 0, ctx⟩ with
        | .error ctx => pure (-1, ctx)
        | .ok st => pure (st.emitted, st.ctx)

end Ipa.Ngram
