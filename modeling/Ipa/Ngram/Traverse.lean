import Ipa.Ngram.Spans
import Ipa.Ngram.Tokens

/-!
# The traversal goes through the windows

The two loops of `execute` go through one list: the windows of the tokens by descending size and
ascending start. `scanWindows` is the loop over that list, and `execute` is its entry check, the
tokenizer and this loop.
-/

namespace Ipa.Ngram

open Run

variable {ε σ : Type}

/-- The windows of `size` tokens, by ascending start. -/
def windowsOfSize (count size : Nat) : List Span :=
  (List.range (count + 1 - size)).map fun start => ⟨start, start + size - 1⟩

/-- The windows of sizes `size` down to `minTokens`. -/
def windows (count : Nat) (minTokens : Int) : Nat → List Span
  | 0 => []
  | size + 1 =>
    if minTokens ≤ (size + 1 : Nat) then
      windowsOfSize count (size + 1) ++ windows count minTokens size
    else []

theorem mem_windowsOfSize {count size : Nat} (hsize : 0 < size) {w : Span} :
    w ∈ windowsOfSize count size ↔ w.stop < count ∧ w.stop + 1 = w.start + size := by
  simp only [windowsOfSize, List.mem_map, List.mem_range]
  constructor
  · rintro ⟨s, hs, rfl⟩
    constructor <;> simp only <;> omega
  · rintro ⟨hlt, hw⟩
    refine ⟨w.start, by omega, ?_⟩
    cases w
    simp only at *
    congr
    omega

theorem mem_windows {count : Nat} {minTokens : Int} (hmin : 1 ≤ minTokens) :
    ∀ {size : Nat} {w : Span}, w ∈ windows count minTokens size ↔
      w.start ≤ w.stop ∧ w.stop < count ∧ w.stop - w.start < size ∧
        minTokens ≤ (w.stop - w.start + 1 : Nat)
  | 0, w => by simp [windows]
  | size + 1, w => by
    unfold windows
    split
    · rw [List.mem_append, mem_windowsOfSize (Nat.succ_pos size), mem_windows hmin]
      omega
    · rename_i h
      simp only [List.not_mem_nil, false_iff]
      omega

/-! ## The loops -/

/-- The chunk of a window. -/
def chunkOf (input : CStr) (tokens : List Token) (w : Span) : Chunk :=
  ⟨input, (tokens.getD w.start default).byteStart, (tokens.getD w.stop default).byteEnd, w.start,
    w.stop, w.stop - w.start + 1⟩

theorem chunkOf_eq {input : CStr} {tokens : List Token} {size start : Nat} (hsize : 0 < size)
    (hstart : start < tokens.length) (hstop : start + size - 1 < tokens.length) :
    chunkOf input tokens ⟨start, start + size - 1⟩ =
      ⟨input, tokens[start].byteStart, tokens[start + size - 1].byteEnd, start,
        start + size - 1, size⟩ := by
  unfold chunkOf
  rw [List.getD_eq_getElem _ _ hstart, List.getD_eq_getElem _ _ hstop]
  congr
  show start + size - 1 - start + 1 = size
  omega

/-- A window of the tokens is not empty. -/
theorem chunkOf_lt {separators : Option CStr} {input : CStr} {w : Span} (hw : w.start ≤ w.stop)
    (hstop : w.stop < (tokensOf separators input).length) :
    (chunkOf input (tokensOf separators input) w).byteStart <
      (chunkOf input (tokensOf separators input) w).byteEnd := by
  have hstart : w.start < (tokensOf separators input).length := hw.trans_lt hstop
  unfold chunkOf
  rw [List.getD_eq_getElem _ _ hstart, List.getD_eq_getElem _ _ hstop]
  exact (tokensOf_ordered separators input).window_lt hw hstart hstop

section Loops

variable (input : CStr) (tokens : List Token) (visit : Visit ε σ)

/-- The body of the loops, for one window. -/
def scanWindow (w : Span) (st : Scan σ) : Run ε (Except σ (Scan σ)) :=
  if spanIsClosed w.start w.stop st.closed.items then pure (.ok st)
  else do
    let (decision, ctx) ← visit (chunkOf input tokens w) st.ctx
    if decision < 0 then pure (.error ctx)
    else if decision = 1 then do
      match ← addClosedSpan st.closed w.start w.stop with
      | none => pure (.error ctx)
      | some closed => pure (.ok ⟨closed, st.emitted + 1, ctx⟩)
    else pure (.ok ⟨st.closed, st.emitted + 1, ctx⟩)

/-- The two loops as one over the windows. -/
def scanWindows : List Span → Scan σ → Run ε (Except σ (Scan σ))
  | [], st => pure (.ok st)
  | w :: ws, st => do
    match ← scanWindow input tokens visit w st with
    | .error ctx => pure (.error ctx)
    | .ok st => scanWindows ws st

theorem scanWindows_append (l r : List Span) (st : Scan σ) :
    scanWindows input tokens visit (l ++ r) st = (do
      match ← scanWindows input tokens visit l st with
      | .error ctx => pure (.error ctx)
      | .ok st => scanWindows input tokens visit r st) := by
  induction l generalizing st with
  | nil => simp [scanWindows]
  | cons w l ih =>
    rw [List.cons_append, scanWindows, scanWindows, bind_assoc]
    refine bind_congr fun res => ?_
    cases res with
    | error ctx => simp
    | ok st => exact ih st

variable {input tokens visit}

theorem visitWindow_eq {size start : Nat} (hsize : 0 < size)
    (hlt : start + size ≤ tokens.length) (st : Scan σ) :
    visitWindow input tokens visit size start st =
      scanWindow input tokens visit ⟨start, start + size - 1⟩ st := by
  have hstart : start < tokens.length := by omega
  have hstop : start + size - 1 < tokens.length := by omega
  unfold visitWindow scanWindow
  simp only [List.getElem?_eq_getElem hstart, List.getElem?_eq_getElem hstop]
  rewrite [← chunkOf_eq hsize hstart hstop]
  rfl

theorem scanStarts_eq {size : Nat} (hsize : 0 < size) : ∀ (left start : Nat),
    start + left + size ≤ tokens.length + 1 → ∀ st : Scan σ,
    scanStarts input tokens visit size left start st = scanWindows input tokens visit
      ((List.range' start left).map fun s => ⟨s, s + size - 1⟩) st
  | 0, _, _, _ => rfl
  | left + 1, start, hlen, st => by
    rw [List.range'_succ, List.map_cons, scanStarts, scanWindows,
      visitWindow_eq hsize (by omega)]
    refine bind_congr fun r => ?_
    cases r with
    | error ctx => rfl
    | ok st => exact scanStarts_eq hsize left (start + 1) (by omega) st

/-- The loops go through the windows. -/
theorem scanSizes_eq (minTokens : Int) : ∀ (size : Nat), size ≤ tokens.length → ∀ st : Scan σ,
    scanSizes input tokens visit minTokens size st =
      scanWindows input tokens visit (windows tokens.length minTokens size) st
  | 0, _, _ => rfl
  | size + 1, hlen, st => by
    rw [scanSizes, windows]
    split
    · rw [scanWindows_append, windowsOfSize, List.range_eq_range',
        show tokens.length + 1 - (size + 1) = tokens.length - size by omega,
        scanStarts_eq (Nat.succ_pos size) _ 0 (by omega)]
      refine bind_congr fun r => ?_
      cases r with
      | error ctx => rfl
      | ok st => exact scanSizes_eq minTokens size (by omega) st
    · rfl

end Loops

/-- The largest window of the traversal. -/
def maxWindow (options : Options) (count : Nat) : Nat :=
  if options.maxTokens = 0 ∨ (count : Int) < options.maxTokens then count
  else options.maxTokens.toNat

/-- The bound of the outer loop as the code computes it. -/
theorem toNat_loopMax (options : Options) (count : Nat) :
    (if options.maxTokens = 0 ∨ (count : Int) < options.maxTokens then (count : Int)
      else options.maxTokens).toNat = maxWindow options count := by
  unfold maxWindow
  split <;> simp

theorem maxWindow_le (options : Options) (count : Nat) : maxWindow options count ≤ count := by
  unfold maxWindow
  split <;> omega

/-- The windows that `execute` goes through. -/
def windowsOf (options : Options) (tokens : List Token) : List Span :=
  windows tokens.length options.minTokens (maxWindow options tokens.length)

/-- The traversal is its entry check, the tokenizer and one loop. -/
theorem execute_eq (input : CStr) (options : Options) (visit : Visit ε σ) (ctx : σ) :
    execute input (some options) visit ctx =
      (if options.minTokens < 1 ∨
          (0 < options.maxTokens ∧ options.maxTokens < options.minTokens) then pure (-1, ctx)
      else do
        match ← splitTokens input options.separators with
        | none => pure (-1, ctx)
        | some tokens =>
          match ← scanWindows input tokens.items visit (windowsOf options tokens.items)
              ⟨⟨[], 0⟩, 0, ctx⟩ with
          | .error ctx => pure (-1, ctx)
          | .ok st => pure ((st.emitted : Int), st.ctx)) := by
  unfold execute
  rw [Option.getD_some]
  refine if_congr Iff.rfl rfl (bind_congr fun tokens => ?_)
  cases tokens with
  | none => rfl
  | some tokens =>
    simp only
    split
    · rename_i hzero
      rw [windowsOf, hzero, Nat.le_zero.mp (maxWindow_le options 0)]
      rfl
    · rw [toNat_loopMax, scanSizes_eq options.minTokens _ (maxWindow_le options _)]
      rfl

/-! ## Visitors that agree -/

theorem scanWindows_congr {input : CStr} {tokens : List Token} {visit visit' : Visit ε σ}
    (ws : List Span) (hvisit : ∀ w ∈ ws, ∀ ctx,
      visit (chunkOf input tokens w) ctx = visit' (chunkOf input tokens w) ctx) (st : Scan σ) :
    scanWindows input tokens visit ws st = scanWindows input tokens visit' ws st := by
  induction ws generalizing st with
  | nil => rfl
  | cons w ws ih =>
    obtain ⟨hfirst, hrest⟩ := List.forall_mem_cons.mp hvisit
    have hstep : scanWindow input tokens visit w st = scanWindow input tokens visit' w st := by
      simp only [scanWindow, hfirst]
    rw [scanWindows, scanWindows, hstep]
    refine bind_congr fun r => ?_
    cases r with
    | error ctx => rfl
    | ok st => exact ih hrest st

/-- Visitors that agree on the windows of the traversal make it one run. -/
theorem execute_congr {input : CStr} {options : Options} {visit visit' : Visit ε σ}
    (hvisit : let tokens := tokensOf options.separators input
      ∀ w ∈ windows tokens.length options.minTokens (maxWindow options tokens.length), ∀ ctx,
        visit (chunkOf input tokens w) ctx = visit' (chunkOf input tokens w) ctx) (ctx : σ) :
    execute input (some options) visit ctx = execute input (some options) visit' ctx := by
  have halloc : Keeps (fun _ => True) (fun _ => True) (alloc : Run ε Bool) fun served =>
      served = false → True := (Keeps.trivially alloc).mono fun _ _ _ => trivial
  have hsplit := splitTokens_spec halloc options.separators input
  rw [execute_eq, execute_eq]
  refine if_congr Iff.rfl rfl (bind_congr_of_keeps hsplit fun r hr => ?_)
  rcases hr with ⟨cap, rfl⟩ | ⟨rfl, -⟩
  · simp only
    rw [scanWindows_congr (windowsOf options _) hvisit]
  · rfl

end Ipa.Ngram
