import Ipa.Schema.Open
import Ipa.Ngram.Basic

/-!
# Parsing against a schema

`parse` runs the n-gram traversal with a visitor that embeds the text of a window, looks its
nearest description up and keeps the match. A match of a node that has children is scanned again,
over the index of all children, and what is found there is kept when a row of the child table
names the node as its parent. The visitor of the source is one function for both scans; here the
part the two share is `visitHit`.
-/

namespace Ipa

open Run

/-- A pointer is `NULL` where its copy could not be allocated. -/
structure Emit where
  key : Option CStr
  value : Option CStr
deriving DecidableEq

structure Match where
  id : CStr
  span : CStr
  score : Binary32
  emits : List Emit
  children : List Match

/-- The context of a scan that changes: the matches and the capacity of their array. -/
structure ScanCtx where
  items : List Match
  cap : Nat

structure ParseResult where
  ok : Bool
  matches_ : List Match

section Runtime

variable [Arith] {ε : Type} (host : Host) (s : Schema)

def nodeMetaAt (i : Nat) : NodeMeta :=
  NodeMeta.read host.order s.mem (s.index.nodeMeta + nodeMetaSize * i)

def childMetaAt (i : Nat) : ChildMeta :=
  ChildMeta.read host.order s.mem (s.index.childMeta + childMetaSize * i)

/-- A row, with the access to it. -/
def readNodeMeta (i : Nat) : Run ε NodeMeta := do
  touch (.row (s.index.nodeMeta + nodeMetaSize * i) nodeMetaSize)
  pure (nodeMetaAt host s i)

def readChildMeta (i : Nat) : Run ε ChildMeta := do
  touch (.row (s.index.childMeta + childMetaSize * i) childMetaSize)
  pure (childMetaAt host s i)

/-- `strcmp(strtab + off, text) == 0`. -/
def textIs (off : UInt32) (text : CStr) : Run ε Bool := do
  let t ← readText s.mem s.strtab off
  pure (t == text)

/-! ## Emits -/

def strdup (text : CStr) : Run ε (Option CStr) := do
  if ← alloc then pure (some text) else pure none

def resolveEmit (tpl span : CStr) : Run ε (Option CStr) :=
  if tpl.bytes = ascii "$raw" then strdup span else strdup tpl

/-- The copies of the key and the value of a row. -/
def copyEmit (keyOff valOff : UInt32) (span : CStr) : Run ε Emit := do
  let key ← readText s.mem s.strtab keyOff
  let key ← strdup key
  let val ← readText s.mem s.strtab valOff
  let value ← resolveEmit val span
  pure ⟨key, value⟩

/-- Does row `i` carry an emit pair of `nodeId`? -/
def nodeRowEmits (nodeId : CStr) (i : Nat) : Run ε Bool := do
  let nm ← readNodeMeta host s i
  if nm.emitKeyLen = 0 then pure false else textIs s nm.nodeIdOff nodeId

/-- The rows of a table that satisfy a test, in order. -/
def filterRows (test : Nat → Run ε Bool) (count : Nat) : Run ε (List Nat) :=
  (List.range count).foldlM (fun rows i => do
    if ← test i then pure (rows ++ [i]) else pure rows) []

/-- The loop that fills the emits of a match; `none` when a copy fails. -/
def fillNodeEmits (nodeId span : CStr) : List Nat → List Emit → Run ε (Option (List Emit))
  | [], emits => pure (some emits)
  | i :: rest, emits => do
    if ← nodeRowEmits host s nodeId i then
      let nm := nodeMetaAt host s i
      let emit ← copyEmit s nm.emitKeyOff nm.emitValOff span
      if emit.key.isNone ∨ emit.value.isNone then pure none
      else fillNodeEmits nodeId span rest (emits ++ [emit])
    else fillNodeEmits nodeId span rest emits

/-- The emits of a match; `none` is the return of -1. -/
def buildMatchEmits (nodeId span : CStr) : Run ε (Option (List Emit)) := do
  let rows ← filterRows (nodeRowEmits host s nodeId) s.index.nodeMetaCount
  if rows.length = 0 then pure (some [])
  else if ← alloc then
    fillNodeEmits host s nodeId span (List.range s.index.nodeMetaCount) []
  else pure none

/-- The loop stops at the first row that satisfies the test. -/
def anyRow (test : Nat → Run ε Bool) : List Nat → Run ε Bool
  | [] => pure false
  | i :: rest => do
    if ← test i then pure true else anyRow test rest

def nodeHasChildren (nodeId : CStr) : Run ε Bool :=
  anyRow (fun i => do
    let nm ← readNodeMeta host s i
    let same ← textIs s nm.nodeIdOff nodeId
    pure (same && nm.hasChildren != 0)) (List.range s.index.nodeMetaCount)

/-! ## The visitor -/

/-- `false` is the return of -1. -/
def matchPush (ctx : ScanCtx) (m : Match) : Run ε (Option ScanCtx) := do
  if ctx.cap ≤ ctx.items.length then
    if ← alloc then
      pure (some ⟨ctx.items ++ [m], if ctx.cap = 0 then 8 else ctx.cap * 2⟩)
    else pure none
  else pure (some { ctx with items := ctx.items ++ [m] })

/-- The text of a window, the nearest description in an index and its score as a float, when
that meets the threshold. -/
def visitHit (hnsw : Option Hnsw.Index) (chunk : Ngram.Chunk) :
    Run ε (Option (CStr × CStr × Binary32)) := do
  if chunk.byteEnd ≤ chunk.byteStart then pure none
  else if ← alloc then
    let span := chunk.input.slice chunk.byteStart chunk.byteEnd
    match ← embExec s.emb (some span) (host.size (s.emb.dim.toNat * 4) / 4) with
    | none => pure none
    | some vec =>
      match hnsw with
      | none => pure none
      | some hnsw =>
        match ← catching (Hnsw.search hnsw vec 1 .zero) with
        | .error _ => pure none
        | .ok [] => pure none
        | .ok (hr :: _) =>
          let score := Arith.narrow hr.score
          if score.lt s.nodeThreshold then pure none else pure (some (span, hr.id, score))
  else pure none

/-- Does a row of the child table name `id` as a child of `parentId`? -/
def childRowOf (id parentId : CStr) (i : Nat) : Run ε Bool := do
  let cm ← readChildMeta host s i
  if ← textIs s cm.nodeIdOff id then textIs s cm.parentIdOff parentId else pure false

/-- The match of a child that is already there gives way to a better one. -/
def replaceMatch (m : Match) : List Match → Option (List Match)
  | [] => none
  | old :: rest =>
    if old.id = m.id then
      some (if old.score.lt m.score then m :: rest else old :: rest)
    else (replaceMatch m rest).map (old :: ·)

/-- The visitor of the scan for the children of `parentId`. -/
def visitChild (parentId : CStr) : Ngram.Visit ε ScanCtx := fun chunk ctx => do
  match ← visitHit host s s.index.childHnsw chunk with
  | none => pure (0, ctx)
  | some (span, id, score) =>
    if ← anyRow (childRowOf host s id parentId) (List.range s.index.childMetaCount) then
      match ← strdup id with
      | none => pure (0, ctx)
      | some id =>
        let m : Match := ⟨id, span, score, [], []⟩
        match replaceMatch m ctx.items with
        | some items => pure (1, { ctx with items })
        | none =>
          match ← matchPush ctx m with
          | none => pure (-1, ctx)
          | some ctx => pure (1, ctx)
    else pure (0, ctx)

/-- Does row `i` carry an emit pair of child `id` of `parentId`? -/
def childRowEmits (id parentId : CStr) (i : Nat) : Run ε Bool := do
  let cm ← readChildMeta host s i
  if cm.emitKeyLen = 0 then pure false else childRowOf host s id parentId i

/-- The loop that fills the emits of a child match. -/
def fillChildEmits (parentId id span : CStr) : List Nat → List Emit → Run ε (List Emit)
  | [], emits => pure emits
  | i :: rest, emits => do
    if ← childRowEmits host s id parentId i then
      let cm := childMetaAt host s i
      let emit ← copyEmit s cm.emitKeyOff cm.emitValOff span
      fillChildEmits parentId id span rest (emits ++ [emit])
    else fillChildEmits parentId id span rest emits

/-- A child match with its emits. -/
def withChildEmits (parentId : CStr) (ch : Match) : Run ε Match := do
  if ch.emits.length = 0 then
    let rows ← filterRows (childRowEmits host s ch.id parentId) s.index.childMetaCount
    if rows.length = 0 then pure ch
    else if ← alloc then
      let emits ← fillChildEmits host s parentId ch.id ch.span (List.range s.index.childMetaCount) []
      pure { ch with emits }
    else pure ch
  else pure ch

/-- The child matches in a span; what `execute` returns is not looked at. -/
def scanChildren (minNgram maxNgram : Int) (parentId span : CStr) : Run ε (List Match) := do
  let opts := { Ngram.optionsDefault with minTokens := minNgram, maxTokens := maxNgram }
  let (_, ctx) ← Ngram.execute span (some opts) (visitChild host s parentId) ⟨[], 0⟩
  ctx.items.mapM (withChildEmits host s parentId)

/-- The visitor of the scan for nodes. -/
def visitTop : Ngram.Visit ε ScanCtx := fun chunk ctx => do
  match ← visitHit host s (some s.index.nodeHnsw) chunk with
  | none => pure (0, ctx)
  | some (span, id, score) =>
    match ← strdup id with
    | none => pure (0, ctx)
    | some id =>
      match ← buildMatchEmits host s id span with
      | none => pure (0, ctx)
      | some emits =>
        let scanned ← nodeHasChildren host s id
        let children ←
          if scanned ∧ s.index.childHnsw.isSome then scanChildren host s 1 chunk.size id span
          else pure []
        match ← matchPush ctx ⟨id, span, score, emits, children⟩ with
        | none => pure (-1, ctx)
        | some ctx => pure (1, ctx)

/-- The buffer for a vector. Where it is refused, `goto done` jumps over the initialisation of the
scan context, whose matches are then read and freed. -/
def embBuffer : Run ε Unit := do
  if ← alloc then pure () else fault .unset

/-- What `kc_ipa_parse` gives; the error is `KC_IPA_ERROR`. -/
def parse (input : CStr) : Run Unit ParseResult := do
  embBuffer
  let opts := { Ngram.optionsDefault with
    minTokens := s.minNgram.toInt, maxTokens := s.maxNgram.toInt }
  let (_, ctx) ← Ngram.execute input (some opts) (visitTop host s) ⟨[], 0⟩
  pure ⟨decide (0 < ctx.items.length), ctx.items⟩

end Runtime

end Ipa
