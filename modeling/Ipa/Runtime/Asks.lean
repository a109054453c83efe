import Ipa.Lib.Asking
import Ipa.Runtime.Parse

/-!
# What a parse asks the pool

`kc_ipa_parse` gets the vector of a window from `kc_emb_exec`. Here the same code asks for it and
goes on with the answer, whoever gives it; where the answers are those of a function, it is the
parse over that function.
-/

namespace Ipa

namespace Asks

open AskingRun (lift ask)

/-- Code that gets vectors of texts. -/
abbrev Code (ε α : Type) : Type := AskingRun CStr (Option (List Binary32)) ε α

abbrev Visit (ε σ : Type) : Type := Ngram.Chunk → σ → Code ε (Int × σ)

variable {ε σ : Type}

/-! ## The traversal -/

section Traversal

variable (input : CStr) (tokens : List Ngram.Token) (visit : Visit ε σ)

def visitWindow (size start : Nat) (st : Ngram.Scan σ) : Code ε (Except σ (Ngram.Scan σ)) :=
  let stop := start + size - 1
  if Ngram.spanIsClosed start stop st.closed.items then pure (.ok st)
  else
    match tokens[start]?, tokens[stop]? with
    | some first, some last => do
      let chunk : Ngram.Chunk := ⟨input, first.byteStart, last.byteEnd, start, stop, size⟩
      let (decision, ctx) ← visit chunk st.ctx
      if decision < 0 then pure (.error ctx)
      else
        let st := { st with emitted := st.emitted + 1, ctx := ctx }
        if decision = 1 then do
          match ← lift (Ngram.addClosedSpan st.closed start stop) with
          | none => pure (.error ctx)
          | some closed => pure (.ok { st with closed := closed })
        else pure (.ok st)
    | _, _ => lift (Run.fault .index)

def scanStarts (size : Nat) : Nat → Nat → Ngram.Scan σ → Code ε (Except σ (Ngram.Scan σ))
  | 0, _, st => pure (.ok st)
  | left + 1, start, st => do
    match ← visitWindow input tokens visit size start st with
    | .error ctx => pure (.error ctx)
    | .ok st => scanStarts size left (start + 1) st

def scanSizes (minTokens : Int) : Nat → Ngram.Scan σ → Code ε (Except σ (Ngram.Scan σ))
  | 0, st => pure (.ok st)
  | size + 1, st =>
    if minTokens ≤ (size + 1 : Nat) then do
      match ← scanStarts input tokens visit (size + 1) (tokens.length - size) 0 st with
      | .error ctx => pure (.error ctx)
      | .ok st => scanSizes minTokens size st
    else pure (.ok st)

def execute (options : Ngram.Options) (ctx : σ) : Code ε (Int × σ) :=
  if options.minTokens < 1 ∨ (0 < options.maxTokens ∧ options.maxTokens < options.minTokens) then
    pure (-1, ctx)
  else do
    match ← lift (Ngram.splitTokens input options.separators) with
    | none => pure (-1, ctx)
    | some tokens =>
      if tokens.items.length = 0 then pure (0, ctx)
      else do
        let count : Int := tokens.items.length
        let loopMax :=
          if options.maxTokens = 0 ∨ count < options.maxTokens then count else options.maxTokens
        match ← scanSizes input tokens.items visit options.minTokens loopMax.toNat
            ⟨⟨[], 0⟩, 0, ctx⟩ with
        | .error ctx => pure (-1, ctx)
        | .ok st => pure (st.emitted, st.ctx)

end Traversal

/-! ## The visitors -/

section Visitors

variable [Arith] (host : Host) (s : Schema)

/-- `kc_emb_exec` into a buffer of `outSize` floats. -/
def embExec (text : CStr) (outSize : Nat) : Code ε (Option (List Binary32)) := do
  match ← ask text with
  | none => pure none
  | some v => if outSize < v.length then lift (Run.fault .index) else pure (some v)

def visitHit (hnsw : Option Hnsw.Index) (chunk : Ngram.Chunk) :
    Code ε (Option (CStr × CStr × Binary32)) := do
  if chunk.byteEnd ≤ chunk.byteStart then pure none
  else if ← lift Run.alloc then
    let span := chunk.input.slice chunk.byteStart chunk.byteEnd
    match ← embExec span (host.size (s.emb.dim.toNat * 4) / 4) with
    | none => pure none
    | some vec =>
      match hnsw with
      | none => pure none
      | some hnsw =>
        match ← lift (Run.catching (Hnsw.search hnsw vec 1 .zero)) with
        | .error _ => pure none
        | .ok [] => pure none
        | .ok (hr :: _) =>
          let score := Arith.narrow hr.score
          if score.lt s.nodeThreshold then pure none else pure (some (span, hr.id, score))
  else pure none

/-- The end of both visitors. -/
def pushed (ctx : ScanCtx) (m : Match) : Ipa.Run ε (Int × ScanCtx) := do
  match ← matchPush ctx m with
  | none => pure (-1, ctx)
  | some ctx => pure (1, ctx)

def visitChild (parentId : CStr) : Visit ε ScanCtx := fun chunk ctx => do
  match ← visitHit host s s.index.childHnsw chunk with
  | none => pure (0, ctx)
  | some (span, id, score) =>
    if ← lift (anyRow (childRowOf host s id parentId) (List.range s.index.childMetaCount)) then
      match ← lift (strdup id) with
      | none => pure (0, ctx)
      | some id =>
        let m : Match := ⟨id, span, score, [], []⟩
        match replaceMatch m ctx.items with
        | some items => pure (1, { ctx with items })
        | none => lift (pushed ctx m)
    else pure (0, ctx)

def scanChildren (minNgram maxNgram : Int) (parentId span : CStr) : Code ε (List Match) := do
  let opts := { Ngram.optionsDefault with minTokens := minNgram, maxTokens := maxNgram }
  let (_, ctx) ← execute span (visitChild host s parentId) opts ⟨[], 0⟩
  lift (ctx.items.mapM (withChildEmits host s parentId))

def visitTop : Visit ε ScanCtx := fun chunk ctx => do
  match ← visitHit host s (some s.index.nodeHnsw) chunk with
  | none => pure (0, ctx)
  | some (span, id, score) =>
    match ← lift (strdup id) with
    | none => pure (0, ctx)
    | some id =>
      match ← lift (buildMatchEmits host s id span) with
      | none => pure (0, ctx)
      | some emits =>
        let scanned ← lift (nodeHasChildren host s id)
        let children ←
          if scanned ∧ s.index.childHnsw.isSome then scanChildren host s 1 chunk.size id span
          else pure []
        lift (pushed ctx ⟨id, span, score, emits, children⟩)

/-- `kc_ipa_parse`. -/
def parse (input : CStr) : Code Unit ParseResult := do
  lift embBuffer
  let opts := { Ngram.optionsDefault with
    minTokens := s.minNgram.toInt, maxTokens := s.maxNgram.toInt }
  let (_, ctx) ← execute input (visitTop host s) opts ⟨[], 0⟩
  pure ⟨decide (0 < ctx.items.length), ctx.items⟩

end Visitors

/-! ## Against a function -/

section Against

variable {input : CStr} {tokens : List Ngram.Token} {visit : Visit ε σ}
  {answer : CStr → Option (List Binary32)} {visit' : Ngram.Visit ε σ}

theorem visitWindow_against (h : ∀ chunk ctx, (visit chunk ctx).against answer = visit' chunk ctx)
    (size start : Nat) (st : Ngram.Scan σ) :
    (visitWindow input tokens visit size start st).against answer =
      Ngram.visitWindow input tokens visit' size start st := by
  unfold visitWindow Ngram.visitWindow
  dsimp only
  split
  · rfl
  generalize tokens[start]? = first
  generalize tokens[start + size - 1]? = last
  cases first with
  | none => rfl
  | some first =>
    cases last with
    | none => rfl
    | some last =>
      dsimp only
      rw [AskingRun.against_bind, h]
      apply bind_congr
      rintro ⟨decision, ctx⟩
      dsimp only
      split
      · rfl
      split
      · rw [AskingRun.against_bind, AskingRun.against_lift]
        apply bind_congr
        intro closed
        cases closed <;> rfl
      · rfl

theorem scanStarts_against (h : ∀ chunk ctx, (visit chunk ctx).against answer = visit' chunk ctx)
    (size left start : Nat) (st : Ngram.Scan σ) :
    (scanStarts input tokens visit size left start st).against answer =
      Ngram.scanStarts input tokens visit' size left start st := by
  induction left generalizing start st with
  | zero => rfl
  | succ left ih =>
    unfold scanStarts Ngram.scanStarts
    rw [AskingRun.against_bind, visitWindow_against h]
    apply bind_congr
    intro next
    cases next with
    | error ctx => rfl
    | ok st => exact ih (start + 1) st

theorem scanSizes_against (h : ∀ chunk ctx, (visit chunk ctx).against answer = visit' chunk ctx)
    (minTokens : Int) (size : Nat) (st : Ngram.Scan σ) :
    (scanSizes input tokens visit minTokens size st).against answer =
      Ngram.scanSizes input tokens visit' minTokens size st := by
  induction size generalizing st with
  | zero => rfl
  | succ size ih =>
    unfold scanSizes Ngram.scanSizes
    split
    · rw [AskingRun.against_bind, scanStarts_against h]
      apply bind_congr
      intro next
      cases next with
      | error ctx => rfl
      | ok st => exact ih st
    · rfl

theorem execute_against (h : ∀ chunk ctx, (visit chunk ctx).against answer = visit' chunk ctx)
    (options : Ngram.Options) (ctx : σ) :
    (execute input visit options ctx).against answer =
      Ngram.execute input (some options) visit' ctx := by
  unfold execute Ngram.execute
  dsimp only [Option.getD_some]
  split
  · rfl
  rw [AskingRun.against_bind, AskingRun.against_lift]
  apply bind_congr
  intro tokens
  cases tokens with
  | none => rfl
  | some tokens =>
    dsimp only
    split
    · rfl
    rw [AskingRun.against_bind, scanSizes_against h]
    apply bind_congr
    intro next
    cases next <;> rfl

end Against

section Parse

variable [Arith] {host : Host} {s : Schema}

omit [Arith] in
theorem embExec_against (emb : Emb) (text : CStr) (outSize : Nat) :
    (embExec text outSize : Code ε _).against emb.exec = Ipa.embExec emb (some text) outSize := by
  unfold embExec Ipa.embExec
  rw [AskingRun.against_bind, AskingRun.against_ask, pure_bind]
  dsimp only
  cases emb.exec text with
  | none => rfl
  | some v =>
    dsimp only
    split <;> rfl

theorem visitHit_against (hnsw : Option Hnsw.Index) (chunk : Ngram.Chunk) :
    (visitHit host s hnsw chunk : Code ε _).against s.emb.exec = Ipa.visitHit host s hnsw chunk := by
  unfold visitHit Ipa.visitHit
  split
  · rfl
  rw [AskingRun.against_bind, AskingRun.against_lift]
  apply bind_congr
  intro served
  split
  · rw [AskingRun.against_bind, embExec_against]
    apply bind_congr
    intro vec
    cases vec with
    | none => rfl
    | some vec =>
      cases hnsw with
      | none => rfl
      | some hnsw =>
        dsimp only
        rw [AskingRun.against_bind, AskingRun.against_lift]
        apply bind_congr
        intro found
        rcases found with err | (- | ⟨hr, rest⟩)
        · rfl
        · rfl
        · dsimp only
          split <;> rfl
  · rfl

theorem visitChild_against (parentId : CStr) (chunk : Ngram.Chunk) (ctx : ScanCtx) :
    (visitChild host s parentId chunk ctx : Code ε _).against s.emb.exec =
      Ipa.visitChild host s parentId chunk ctx := by
  unfold visitChild Ipa.visitChild
  rw [AskingRun.against_bind, visitHit_against]
  apply bind_congr
  intro hit
  cases hit with
  | none => rfl
  | some hit =>
    obtain ⟨span, id, score⟩ := hit
    dsimp only
    rw [AskingRun.against_bind, AskingRun.against_lift]
    apply bind_congr
    intro named
    split
    · rw [AskingRun.against_bind, AskingRun.against_lift]
      apply bind_congr
      intro copy
      cases copy with
      | none => rfl
      | some id =>
        dsimp only
        cases replaceMatch ⟨id, span, score, [], []⟩ ctx.items <;> rfl
    · rfl

theorem scanChildren_against (minNgram maxNgram : Int) (parentId span : CStr) :
    (scanChildren host s minNgram maxNgram parentId span : Code ε _).against s.emb.exec =
      Ipa.scanChildren host s minNgram maxNgram parentId span := by
  unfold scanChildren Ipa.scanChildren
  dsimp only
  rw [AskingRun.against_bind, execute_against fun chunk ctx => visitChild_against parentId chunk ctx]
  apply bind_congr
  rintro ⟨code, ctx⟩
  rfl

theorem visitTop_against (chunk : Ngram.Chunk) (ctx : ScanCtx) :
    (visitTop host s chunk ctx : Code ε _).against s.emb.exec = Ipa.visitTop host s chunk ctx := by
  unfold visitTop Ipa.visitTop
  rw [AskingRun.against_bind, visitHit_against]
  apply bind_congr
  intro hit
  cases hit with
  | none => rfl
  | some hit =>
    obtain ⟨span, id, score⟩ := hit
    dsimp only
    rw [AskingRun.against_bind, AskingRun.against_lift]
    apply bind_congr
    intro copy
    cases copy with
    | none => rfl
    | some id =>
      dsimp only
      rw [AskingRun.against_bind, AskingRun.against_lift]
      apply bind_congr
      intro emits
      cases emits with
      | none => rfl
      | some emits =>
        dsimp only
        rw [AskingRun.against_bind, AskingRun.against_lift]
        apply bind_congr
        intro scanned
        split
        · rw [AskingRun.against_bind, scanChildren_against]
          rfl
        · rfl

/-- **The parse** asks for vectors, and where they are those of the embedding it is the parse. -/
theorem parse_against (input : CStr) :
    (parse host s input).against s.emb.exec = Ipa.parse host s input := by
  unfold parse Ipa.parse
  rw [AskingRun.against_bind, AskingRun.against_lift]
  apply bind_congr
  intro served
  rw [AskingRun.against_bind, execute_against fun chunk ctx => visitTop_against chunk ctx]
  rfl

end Parse

end Asks

end Ipa
