import Ipa.Runtime.Keeps
import Ipa.Schema.Accepted

/-!
# What a parse reports of its traversal

`parse` does not look at what `execute` returns, so it succeeds whether or not the traversal ran to
its end. Three things stop a traversal: bounds that it refuses, the array of the tokens that cannot
grow, and, at a window with a match, the array of the matches or that of the closed spans. The
buffer that the parse asks for first comes before all of them.
-/

namespace Ipa

open Run

/-! ## A window -/

section Window

variable [Arith] {ε : Type} (host : Host) (s : Schema)

/-- The match of a window, before it is pushed. -/
def topMatch (chunk : Ngram.Chunk) : Run ε (Option Match) := do
  match ← visitHit host s (some s.index.nodeHnsw) chunk with
  | none => pure none
  | some (span, id, score) =>
    match ← strdup id with
    | none => pure none
    | some id =>
      match ← buildMatchEmits host s id span with
      | none => pure none
      | some emits =>
        let scanned ← nodeHasChildren host s id
        let children ←
          if scanned ∧ s.index.childHnsw.isSome then scanChildren host s 1 chunk.size id span
          else pure []
        pure (some ⟨id, span, score, emits, children⟩)

/-- The visitor makes the match and pushes it. -/
theorem visitTop_eq (chunk : Ngram.Chunk) (ctx : ScanCtx) :
    visitTop (ε := ε) host s chunk ctx = (do
      match ← topMatch host s chunk with
      | none => pure (0, ctx)
      | some m =>
        match ← matchPush ctx m with
        | none => pure (-1, ctx)
        | some ctx => pure (1, ctx)) := by
  unfold visitTop topMatch
  simp only [bind_assoc]
  refine bind_congr fun hit => ?_
  cases hit with
  | none => simp only [pure_bind]
  | some hit =>
    simp only [bind_assoc]
    refine bind_congr fun copy => ?_
    cases copy with
    | none => simp only [pure_bind]
    | some id =>
      simp only [bind_assoc]
      refine bind_congr fun emits => ?_
      cases emits with
      | none => simp only [pure_bind]
      | some emits =>
        simp only [bind_assoc]
        refine bind_congr fun scanned => ?_
        split
        all_goals
          rw [bind_assoc]
          refine bind_congr fun children => ?_
          exact ((pure_bind _ _).trans rfl).symm

variable (input : CStr) (tokens : List Ngram.Token)

/-- Over these windows no array that the traversal fills is refused its room: not that of the
matches, where a window has one, and not that of the closed spans. -/
inductive Grows : List Ngram.Span → Ngram.Scan ScanCtx → Env → Prop
  | done {st : Ngram.Scan ScanCtx} {e : Env} : Grows [] st e
  | closed {w : Ngram.Span} {ws : List Ngram.Span} {st : Ngram.Scan ScanCtx} {e : Env}
      (isClosed : Ngram.spanIsClosed w.start w.stop st.closed.items = true)
      (rest : Grows ws st e) : Grows (w :: ws) st e
  | missed {w : Ngram.Span} {ws : List Ngram.Span} {st : Ngram.Scan ScanCtx} {e e₁ : Env}
      (isOpen : Ngram.spanIsClosed w.start w.stop st.closed.items = false)
      (nothing : (topMatch (ε := Unit) host s (Ngram.chunkOf input tokens w)).exec e =
        (.ok none, e₁))
      (rest : Grows ws ⟨st.closed, st.emitted + 1, st.ctx⟩ e₁) : Grows (w :: ws) st e
  | found {w : Ngram.Span} {ws : List Ngram.Span} {st : Ngram.Scan ScanCtx} {e e₁ e₂ e₃ : Env}
      {m : Match} {ctx : ScanCtx} {closed : Ngram.SpanList}
      (isOpen : Ngram.spanIsClosed w.start w.stop st.closed.items = false)
      (matched : (topMatch (ε := Unit) host s (Ngram.chunkOf input tokens w)).exec e =
        (.ok (some m), e₁))
      (pushed : (matchPush (ε := Unit) st.ctx m).exec e₁ = (.ok (some ctx), e₂))
      (added : (Ngram.addClosedSpan (ε := Unit) st.closed w.start w.stop).exec e₂ =
        (.ok (some closed), e₃))
      (rest : Grows ws ⟨closed, st.emitted + 1, ctx⟩ e₃) : Grows (w :: ws) st e

variable {host s input tokens}

/-- One window, seen from its end. -/
theorem scanWindow_ok {w : Ngram.Span} {st st' : Ngram.Scan ScanCtx} {e e' : Env}
    (h : (Ngram.scanWindow input tokens (visitTop host s) w st : Run Unit _).exec e =
      (.ok (.ok st'), e')) {ws : List Ngram.Span} (hrest : Grows host s input tokens ws st' e') :
    Grows host s input tokens (w :: ws) st e := by
  unfold Ngram.scanWindow at h
  split at h
  · rename_i hclosed
    cases h
    exact .closed hclosed hrest
  rename_i hopen
  have hopen := Bool.not_eq_true _ ▸ hopen
  rw [visitTop_eq] at h
  obtain ⟨⟨decision, ctx⟩, e₁, hvisit, h⟩ := exec_bind_ok h
  obtain ⟨m, e₂, hmatch, hvisit⟩ := exec_bind_ok hvisit
  cases m with
  | none =>
    cases hvisit
    cases h
    exact .missed hopen hmatch hrest
  | some m =>
    obtain ⟨pushed, e₃, hpush, hvisit⟩ := exec_bind_ok hvisit
    cases pushed with
    | none =>
      cases hvisit
      cases h
    | some pushed =>
      cases hvisit
      obtain ⟨closed, e₄, hadd, h⟩ := exec_bind_ok h
      cases closed with
      | none => cases h
      | some closed =>
        cases h
        exact .found hopen hmatch hpush hadd hrest

/-- **The windows**: the loop comes to its end exactly where every array grows. -/
theorem scanWindows_ok_iff {ws : List Ngram.Span} {st : Ngram.Scan ScanCtx} {e : Env} :
    (∃ st' e', (Ngram.scanWindows input tokens (visitTop host s) ws st : Run Unit _).exec e =
      (.ok (.ok st'), e')) ↔ Grows host s input tokens ws st e := by
  constructor
  · induction ws generalizing st e with
    | nil => exact fun _ => .done
    | cons w ws ih =>
      rintro ⟨st', e', h⟩
      rw [Ngram.scanWindows] at h
      obtain ⟨r, e₁, hwindow, h⟩ := exec_bind_ok h
      cases r with
      | error ctx => cases h
      | ok st₁ => exact scanWindow_ok hwindow (ih ⟨st', e', h⟩)
  · intro h
    induction h with
    | done => exact ⟨_, _, rfl⟩
    | closed isClosed _ ih =>
      obtain ⟨st', e', hrest⟩ := ih
      refine ⟨st', e', ?_⟩
      rw [Ngram.scanWindows, Ngram.scanWindow, if_pos isClosed, pure_bind]
      exact hrest
    | missed isOpen nothing _ ih =>
      obtain ⟨st', e', hrest⟩ := ih
      refine ⟨st', e', ?_⟩
      rw [Ngram.scanWindows, Ngram.scanWindow, if_neg (by simp [isOpen]), visitTop_eq]
      simp only [exec_bind, nothing, exec_pure]
      exact hrest
    | found isOpen matched pushed added _ ih =>
      obtain ⟨st', e', hrest⟩ := ih
      refine ⟨st', e', ?_⟩
      rw [Ngram.scanWindows, Ngram.scanWindow, if_neg (by simp [isOpen]), visitTop_eq]
      simp only [exec_bind, matched, pushed, exec_pure]
      simp only [Int.reduceLT, ite_false, ite_true, exec_bind, added, exec_pure]
      exact hrest

end Window

/-! ## A parse -/

section Reported

variable [Arith] (host : Host) (s : Schema) (input : CStr)

/-- The parse gets its buffer, and its traversal does not return -1. -/
def Completes (e : Env) : Prop :=
  ∃ e₁ n ctx e', (embBuffer : Run Unit Unit).exec e = (.ok (), e₁) ∧
    (scanNodes host s input).exec e₁ = (.ok (n, ctx), e') ∧ n ≠ -1

/-- A parse succeeds only after a complete traversal; otherwise it reports its error, and there is
no result. -/
def Reported (e : Env) : Prop :=
  (∀ result e', (parse host s input).exec e = (.ok result, e') → Completes host s input e) ∧
    (¬ Completes host s input e → ∃ e', (parse host s input).exec e = (.error (.fail ()), e'))

/-- Nothing stops the traversal of a parse: the buffer of the parse is served, the bounds are
accepted, the tokens find room, and so does what the traversal keeps of every match. -/
def Provided (e : Env) : Prop :=
  s.options.Accepted ∧ ∃ e₁ tokens e₂, (embBuffer : Run Unit Unit).exec e = (.ok (), e₁) ∧
    (Ngram.splitTokens (ε := Unit) input s.options.separators).exec e₁ = (.ok (some tokens), e₂) ∧
      Grows host s input tokens.items (Ngram.windowsOf s.options tokens.items)
        ⟨⟨[], 0⟩, 0, ⟨[], 0⟩⟩ e₂

variable {host s input}

/-- Accepted bounds leave the tokenizer and the loop. -/
theorem scanNodes_accepted (h : s.options.Accepted) :
    scanNodes host s input = (do
      match ← Ngram.splitTokens input s.options.separators with
      | none => pure (-1, ⟨[], 0⟩)
      | some tokens =>
        match ← Ngram.scanWindows input tokens.items (visitTop host s)
            (Ngram.windowsOf s.options tokens.items) ⟨⟨[], 0⟩, 0, ⟨[], 0⟩⟩ with
        | .error ctx => pure (-1, ctx)
        | .ok st => pure ((st.emitted : Int), st.ctx)) := by
  have hscan := Ngram.execute_eq input s.options (visitTop (ε := Unit) host s) ⟨[], 0⟩
  rw [if_neg h.not_refused] at hscan
  refine hscan.trans (bind_congr fun tokens => ?_)
  cases tokens with
  | none => rfl
  | some tokens =>
    refine bind_congr fun r => ?_
    cases r <;> rfl

/-- **The traversal** is complete exactly where nothing stops it. -/
theorem completes_iff_provided {e : Env} :
    Completes host s input e ↔ Provided host s input e := by
  constructor
  · rintro ⟨e₁, n, ctx, e', hbuf, hscan, hne⟩
    have hbounds : s.options.Accepted := by
      by_contra hbounds
      rw [scanNodes_refused hbounds] at hscan
      cases hscan
      exact hne rfl
    rw [scanNodes_accepted hbounds] at hscan
    obtain ⟨tokens, e₂, hsplit, hscan⟩ := exec_bind_ok hscan
    cases tokens with
    | none =>
      cases hscan
      exact absurd rfl hne
    | some tokens =>
      obtain ⟨r, e₃, hwindows, hscan⟩ := exec_bind_ok hscan
      cases r with
      | error ctx =>
        cases hscan
        exact absurd rfl hne
      | ok st => exact ⟨hbounds, e₁, tokens, e₂, hbuf, hsplit, scanWindows_ok_iff.mp ⟨st, e₃, hwindows⟩⟩
  · rintro ⟨hbounds, e₁, tokens, e₂, hbuf, hsplit, hgrows⟩
    obtain ⟨st, e₃, hwindows⟩ := scanWindows_ok_iff.mpr hgrows
    refine ⟨e₁, st.emitted, st.ctx, e₃, hbuf, ?_, fun h => ?_⟩
    · rw [scanNodes_accepted hbounds]
      simp only [exec_bind, hsplit, hwindows, exec_pure]
    · exact absurd h (Int.ne_of_gt (Int.lt_of_lt_of_le (by decide) (Int.natCast_nonneg _)))

/-- A traversal that returned -1 is not reported. -/
theorem not_reported {e e₁ e' : Env} {ctx : ScanCtx}
    (hbuf : (embBuffer : Run Unit Unit).exec e = (.ok (), e₁))
    (hscan : (scanNodes host s input).exec e₁ = (.ok (-1, ctx), e')) :
    ¬ Reported host s input e := by
  intro hreported
  have hparse : (parse host s input).exec e =
      (.ok ⟨decide (0 < ctx.items.length), ctx.items⟩, e') := by
    rw [parse_eq, exec_bind, hbuf]
    simp only [exec_bind, hscan, exec_pure]
  obtain ⟨e₂, n, ctx', e₃, hbuf', hscan', hne⟩ := hreported.1 _ _ hparse
  rw [hbuf] at hbuf'
  cases hbuf'
  rw [hscan] at hscan'
  cases hscan'
  exact hne rfl

/-- A parse has no path to its error. -/
theorem parse_no_error (hs : s.Searchable) (e : Env) :
    ∀ e', (parse host s input).exec e ≠ (.error (.fail ()), e') := by
  intro e' herr
  have halloc : Keeps (fun _ => True) (fun stop : Stop Unit => ∃ f, stop = .fault f) alloc
      fun served => served = false → True := (Keeps.alloc fun _ _ h => h).mono fun _ _ _ => trivial
  obtain ⟨-, hstop⟩ := parse_keeps halloc (.inr ⟨_, rfl⟩) (hs.searched halloc) (fun _ => ⟨_, rfl⟩)
    input (fun _ _ _ he => he) e trivial
  rw [herr] at hstop
  obtain ⟨f, hf⟩ := hstop
  cases hf

/-- With a buffer for embeddings and room for a vector nothing else stops a parse, whatever becomes
of its other allocations. -/
theorem parse_buffered (hs : s.Searchable) (hroom : s.Room host) {e e₁ : Env}
    (hbuf : (embBuffer : Run Unit Unit).exec e = (.ok (), e₁)) :
    ∃ result e', (parse host s input).exec e = (.ok result, e') := by
  have halloc : Keeps (fun _ => True) (fun _ : Stop Unit => False) alloc
      fun served => served = false → True := (Keeps.alloc fun _ _ h => h).mono fun _ _ _ => trivial
  obtain ⟨-, hscan⟩ := scanNodes_keeps halloc (.inl hroom) (hs.searched halloc) input
    (fun _ _ _ he => he) e₁ trivial
  rcases hrun : (scanNodes host s input).exec e₁ with ⟨stop | ⟨n, ctx⟩, e'⟩
  · rw [hrun] at hscan
    exact hscan.elim
  · refine ⟨⟨decide (0 < ctx.items.length), ctx.items⟩, e', ?_⟩
    rw [parse_eq]
    simp only [exec_bind, hbuf, hrun, exec_pure]

/-- So only a complete traversal is reported. -/
theorem reported_iff_completes (hs : s.Searchable) {e : Env} :
    Reported host s input e ↔ Completes host s input e := by
  refine ⟨fun h => ?_, fun h => ⟨fun _ _ _ => h, fun hnot => absurd h hnot⟩⟩
  by_contra hnot
  obtain ⟨e', herr⟩ := h.2 hnot
  exact parse_no_error hs e e' herr

end Reported

/-- The image of a family, opened, with its bounds accepted. -/
theorem family_opens : ∃ image s e e₁,
    (serialize unitSystem.host unitSystem.emb familyManifest).exec ⟨[], []⟩ = (.ok image, e) ∧
      (@openSchema ieee unitSystem image).exec ⟨[], []⟩ = (.ok s, e₁) ∧ s.options.Accepted := by
  obtain ⟨image, e, hbuild, hopens⟩ := exec_of_value?
    (x := serialize unitSystem.host unitSystem.emb familyManifest) (e := ⟨[], []⟩)
    (q := fun image => ((@openSchema ieee unitSystem image).value? ⟨[], []⟩).any fun s : Schema =>
      decide (1 ≤ s.minNgram.toInt ∧ s.minNgram.toInt ≤ s.maxNgram.toInt)) (by decide +kernel)
  obtain ⟨s, e₁, hopen, hbounds⟩ := exec_of_value? hopens
  obtain ⟨hmin, hmax⟩ := of_decide_eq_true hbounds
  exact ⟨image, s, e, e₁, hbuild, hopen, hmin, .inr hmax⟩

end Ipa
