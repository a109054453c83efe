import Ipa.Ngram.Traverse

/-!
# The traversal keeps what its visitor keeps

`execute` itself does nothing to its surroundings but allocate: an invariant that allocations keep,
and a property of the context, that every call of the visitor keeps, hold after the traversal. A
negative result has one of three causes: options that the entry check refuses, a failed allocation,
or a visitor that aborts. `Calls` names the calls of the visitor that one run makes, so what its
context holds in the end can be traced to them.
-/

namespace Ipa.Ngram

open Run

variable {ε σ : Type} {I : Env → Prop} {X : Stop ε → Prop} {aborted : Prop}
  (halloc : Keeps I X (alloc : Run ε Bool) fun served => served = false → aborted)

variable {input : CStr} {visit : Visit ε σ} {P : σ → Prop}

/-- What a loop leaves: a context that it kept, and a reason when it was aborted. -/
def LeftWith (P : σ → Prop) (aborted : Prop) : Except σ (Scan σ) → Prop
  | .error ctx => P ctx ∧ aborted
  | .ok st => P st.ctx

section Loops

variable {tokens : List Token}

/-- What the visitor keeps at a window. -/
def VisitKeeps (I : Env → Prop) (X : Stop ε → Prop) (P : σ → Prop) (aborted : Prop)
    (visit : Visit ε σ) (chunk : Chunk) : Prop :=
  ∀ ctx, P ctx → Keeps I X (visit chunk ctx) fun r => P r.2 ∧ (r.1 < 0 → aborted)

include halloc

theorem scanWindow_keeps {w : Span} (hvisit : VisitKeeps I X P aborted visit (chunkOf input tokens w))
    {st : Scan σ} (h : P st.ctx) :
    Keeps I X (scanWindow input tokens visit w st) (LeftWith P aborted) := by
  unfold scanWindow
  split
  · exact Keeps.pure h
  refine Keeps.bind (hvisit _ h) fun ⟨decision, ctx⟩ ⟨hctx, habort⟩ => ?_
  simp only at hctx habort ⊢
  split
  · rename_i hneg
    exact Keeps.pure ⟨hctx, habort hneg⟩
  split
  · refine Keeps.bind (addClosedSpan_spec halloc _ _ _) fun added hadded => ?_
    rcases hadded with ⟨cap, rfl⟩ | ⟨rfl, hfailed⟩
    · exact Keeps.pure hctx
    · exact Keeps.pure ⟨hctx, hfailed⟩
  · exact Keeps.pure hctx

theorem scanWindows_keeps (ws : List Span)
    (hvisit : ∀ w ∈ ws, VisitKeeps I X P aborted visit (chunkOf input tokens w)) {st : Scan σ}
    (h : P st.ctx) : Keeps I X (scanWindows input tokens visit ws st) (LeftWith P aborted) := by
  induction ws generalizing st with
  | nil => exact Keeps.pure h
  | cons w ws ih =>
    obtain ⟨hfirst, hrest⟩ := List.forall_mem_cons.mp hvisit
    refine Keeps.bind (scanWindow_keeps halloc hfirst h) fun r hr => ?_
    cases r with
    | error ctx => exact Keeps.pure hr
    | ok st => exact ih hrest hr

end Loops

include halloc

/-- **The traversal** keeps what every call of the visitor keeps. -/
theorem execute_keeps {options : Options}
    (hvisit : let tokens := tokensOf options.separators input
      ∀ w ∈ windows tokens.length options.minTokens (maxWindow options tokens.length),
        ∀ ctx, P ctx → Keeps I X (visit (chunkOf input tokens w) ctx) fun r =>
          P r.2 ∧ (r.1 < 0 → aborted)) {ctx : σ} (h : P ctx) :
    Keeps I X (execute input (some options) visit ctx) fun r =>
      P r.2 ∧ (r.1 < 0 → aborted ∨ ¬ options.Accepted) := by
  rw [execute_eq]
  unfold Options.Accepted
  split
  · rename_i hrefused
    refine Keeps.pure ⟨h, fun _ => .inr fun haccept => ?_⟩
    omega
  refine Keeps.bind (splitTokens_spec halloc _ _) fun tokens htokens => ?_
  rcases htokens with ⟨cap, rfl⟩ | ⟨rfl, hfailed⟩
  · refine Keeps.bind (scanWindows_keeps halloc (windowsOf options _) hvisit h) fun r hr => ?_
    cases r with
    | error ctx => exact Keeps.pure ⟨hr.1, fun _ => .inl hr.2⟩
    | ok st => exact Keeps.pure ⟨hr, fun hneg => absurd hneg (Int.not_lt.mpr (Int.natCast_nonneg _))⟩
  · exact Keeps.pure ⟨h, fun _ => .inl hfailed⟩

/-! ## The calls of one run -/

/-- The loop over some windows comes to a window that is open, and calls the visitor there: in this
context and this environment. -/
inductive Reaches (input : CStr) (tokens : List Token) (visit : Visit ε σ) :
    List Span → Scan σ → Env → Span → σ → Env → Prop
  | here {w : Span} {ws : List Span} {st : Scan σ} {e : Env}
      (isOpen : spanIsClosed w.start w.stop st.closed.items = false) :
      Reaches input tokens visit (w :: ws) st e w st.ctx e
  | later {w v : Span} {ws : List Span} {st st' : Scan σ} {ctx : σ} {e e' e'' : Env}
      (passed : (scanWindow input tokens visit w st).exec e = (.ok (.ok st'), e'))
      (rest : Reaches input tokens visit ws st' e' v ctx e'') :
      Reaches input tokens visit (w :: ws) st e v ctx e''

/-- The traversal from `ctx` and `e` calls the visitor at `w`, in `ctx'` and `e'`. -/
def Calls (input : CStr) (options : Options) (visit : Visit ε σ) (ctx : σ) (e : Env) (w : Span)
    (ctx' : σ) (e' : Env) : Prop :=
  options.Accepted ∧ ∃ cap e₁,
    (splitTokens (ε := ε) input options.separators).exec e =
      (.ok (some ⟨tokensOf options.separators input, cap⟩), e₁) ∧
    Reaches input (tokensOf options.separators input) visit
      (windowsOf options (tokensOf options.separators input)) ⟨⟨[], 0⟩, 0, ctx⟩ e₁ w ctx' e'

/-- What the calls of the visitor keep, in this run. -/
def CallsKeep (P : σ → Prop) (visit : Visit ε σ) (chunk : Chunk) (ctx : σ) (e : Env) : Prop :=
  P ctx → ∀ decision ctx' e', (visit chunk ctx).exec e = (.ok (decision, ctx'), e') → P ctx'

omit halloc in
theorem scanWindow_calls {tokens : List Token} {w : Span} {st : Scan σ} {e e' : Env}
    {r : Except σ (Scan σ)}
    (hvisit : spanIsClosed w.start w.stop st.closed.items = false →
      CallsKeep P visit (chunkOf input tokens w) st.ctx e) (h : P st.ctx)
    (hrun : (scanWindow input tokens visit w st).exec e = (.ok r, e')) :
    LeftWith P True r := by
  unfold scanWindow at hrun
  split at hrun
  · cases hrun
    exact h
  rename_i hopen
  obtain ⟨⟨decision, ctx⟩, e₁, hcall, hrun⟩ := exec_bind_ok hrun
  have hctx := hvisit (by simpa using hopen) h _ _ _ hcall
  simp only at hrun
  split at hrun
  · cases hrun
    exact ⟨hctx, trivial⟩
  split at hrun
  · obtain ⟨added, e₂, -, hrun⟩ := exec_bind_ok hrun
    cases added with
    | none =>
      cases hrun
      exact ⟨hctx, trivial⟩
    | some closed =>
      cases hrun
      exact hctx
  · cases hrun
    exact hctx

omit halloc in
theorem scanWindows_calls {tokens : List Token} {ws : List Span} {st : Scan σ} {e e' : Env}
    {r : Except σ (Scan σ)}
    (hvisit : ∀ w ctx e₁, Reaches input tokens visit ws st e w ctx e₁ →
      CallsKeep P visit (chunkOf input tokens w) ctx e₁) (h : P st.ctx)
    (hrun : (scanWindows input tokens visit ws st).exec e = (.ok r, e')) :
    LeftWith P True r := by
  induction ws generalizing st e with
  | nil =>
    cases hrun
    exact h
  | cons w ws ih =>
    rw [scanWindows] at hrun
    obtain ⟨first, e₁, hfirst, hrun⟩ := exec_bind_ok hrun
    have hleft := scanWindow_calls (fun hopen => hvisit w _ _ (.here hopen)) h hfirst
    cases first with
    | error ctx =>
      cases hrun
      exact hleft
    | ok st' => exact ih (fun v ctx e₂ hv => hvisit v ctx e₂ (.later hfirst hv)) hleft hrun

omit halloc in
/-- **The calls of a run** decide what its context holds in the end. -/
theorem execute_calls {options : Options} {ctx ctx' : σ} {e e' : Env} {n : Int}
    (hvisit : ∀ w ctx₁ e₁, Calls input options visit ctx e w ctx₁ e₁ →
      CallsKeep P visit (chunkOf input (tokensOf options.separators input) w) ctx₁ e₁) (h : P ctx)
    (hrun : (execute input (some options) visit ctx).exec e = (.ok (n, ctx'), e')) : P ctx' := by
  rw [execute_eq] at hrun
  split at hrun
  · cases hrun
    exact h
  rename_i hbounds
  have haccept : options.Accepted := by
    unfold Options.Accepted
    omega
  obtain ⟨tokens, e₁, hsplit, hrun⟩ := exec_bind_ok hrun
  have halloc : Keeps (fun _ => True) (fun _ => True) (alloc : Run ε Bool) fun served =>
      served = false → True := (Keeps.trivially alloc).mono fun _ _ _ => trivial
  have htokens := (splitTokens_spec halloc options.separators input).value trivial hsplit
  cases tokens with
  | none =>
    cases hrun
    exact h
  | some tokens =>
    rcases htokens.1 with ⟨cap, htokens⟩ | ⟨htokens, -⟩
    swap
    · cases htokens
    cases htokens
    obtain ⟨r, e₂, hwindows, hrun⟩ := exec_bind_ok hrun
    have hleft := scanWindows_calls (fun w ctx₁ e₁ hw => hvisit w ctx₁ e₁
      ⟨haccept, cap, _, hsplit, hw⟩) h hwindows
    cases r with
    | error ctx =>
      cases hrun
      exact hleft.1
    | ok st =>
      cases hrun
      exact hleft

/-! ## Coming to a window -/

section Skips

variable {tokens : List Token}

/-- Wherever it is called, the visitor may pass by. -/
def Skips (visit : Visit ε σ) : Prop := ∀ chunk ctx, CanReturn (visit chunk ctx) (0, ctx)

omit halloc in
/-- Then the loop may come through its windows as it entered. -/
theorem scanWindows_skips (input : CStr) (tokens : List Token) (hskips : Skips visit) : ∀ (ws : List Span) (st : Scan σ), ∃ st',
    CanReturn (scanWindows input tokens visit ws st) (.ok st') ∧ st'.closed = st.closed ∧
      st'.ctx = st.ctx
  | [], st => ⟨st, CanReturn.pure, rfl, rfl⟩
  | w :: ws, st => by
    have hwindow : ∃ st', CanReturn (scanWindow input tokens visit w st) (.ok st') ∧
        st'.closed = st.closed ∧ st'.ctx = st.ctx := by
      unfold scanWindow
      split
      · exact ⟨st, CanReturn.pure, rfl, rfl⟩
      · exact ⟨⟨st.closed, st.emitted + 1, st.ctx⟩, (hskips _ _).bind CanReturn.pure, rfl, rfl⟩
    obtain ⟨st₁, hfirst, hclosed, hctx⟩ := hwindow
    obtain ⟨st₂, hrest, hclosed', hctx'⟩ := scanWindows_skips input tokens hskips ws st₁
    exact ⟨st₂, hfirst.bind hrest, hclosed'.trans hclosed, hctx'.trans hctx⟩

omit halloc in
theorem Options.Accepted.not_refused {options : Options} (h : options.Accepted) :
    ¬ (options.minTokens < 1 ∨ (0 < options.maxTokens ∧ options.maxTokens < options.minTokens)) := by
  unfold Options.Accepted at h
  omega

omit halloc in
theorem splitTokens_can (separators : Option CStr) (input : CStr) : ∃ cap,
    CanReturn (splitTokens (ε := ε) input separators) (some ⟨tokensOf separators input, cap⟩) := by
  obtain ⟨cap, hrun⟩ := splitTokens_quiet (ε := ε) separators input (e := ⟨[], []⟩) rfl
  exact ⟨cap, _, _, hrun⟩

variable {options : Options} {w : Span} {ctx : σ}
  (hw : w ∈ windowsOf options (tokensOf options.separators input))

include hw

omit halloc in
/-- **Any window** is one that the traversal may come to. -/
theorem execute_accesses (haccept : options.Accepted) (hskips : Skips visit) {a : Access}
    (h : CanAccess (visit (chunkOf input (tokensOf options.separators input) w) ctx) a) :
    CanAccess (execute input (some options) visit ctx) a := by
  obtain ⟨before, after, hsplit⟩ := List.append_of_mem hw
  obtain ⟨cap, htokens⟩ := splitTokens_can (ε := ε) options.separators input
  obtain ⟨st, hbefore, hclosed, hctx⟩ := scanWindows_skips input
    (tokensOf options.separators input) hskips before ⟨⟨[], 0⟩, 0, ctx⟩
  have hopen : ¬ spanIsClosed w.start w.stop st.closed.items = true := by
    rw [hclosed]
    exact Bool.false_ne_true
  rw [execute_eq, if_neg haccept.not_refused]
  refine htokens.access (CanAccess.first ?_)
  simp only
  rw [hsplit, scanWindows_append]
  refine hbefore.access (CanAccess.first ?_)
  unfold scanWindow
  rw [if_neg hopen, hctx]
  exact h.first

omit halloc in
/-- And the one that the visitor closes. -/
theorem execute_closes (haccept : options.Accepted) (hskips : Skips visit) {ctx' : σ}
    (h : CanReturn (visit (chunkOf input (tokensOf options.separators input) w) ctx) (1, ctx')) :
    ∃ n, CanReturn (execute input (some options) visit ctx) (n, ctx') := by
  obtain ⟨before, after, hsplit⟩ := List.append_of_mem hw
  obtain ⟨cap, htokens⟩ := splitTokens_can (ε := ε) options.separators input
  obtain ⟨st, hbefore, hclosed, hctx⟩ := scanWindows_skips input
    (tokensOf options.separators input) hskips before ⟨⟨[], 0⟩, 0, ctx⟩
  have hopen : ¬ spanIsClosed w.start w.stop st.closed.items = true := by
    rw [hclosed]
    exact Bool.false_ne_true
  obtain ⟨added, hadd, cap', rfl⟩ : ∃ added, CanReturn (addClosedSpan (ε := ε) st.closed w.start
      w.stop) added ∧ ∃ cap', added = some ⟨afterAdd st.closed.items w.start w.stop, cap'⟩ := by
    obtain ⟨added, hadd, hadded⟩ := Returns.can (ε := ε)
      (addClosedSpan_spec Keeps.alloc_served st.closed w.start w.stop)
    exact ⟨added, hadd, hadded.resolve_right fun hfailed => hfailed.2⟩
  obtain ⟨st', hafter, -, hctx'⟩ := scanWindows_skips input
    (tokensOf options.separators input) hskips after
    ⟨⟨afterAdd st.closed.items w.start w.stop, cap'⟩, st.emitted + 1, ctx'⟩
  refine ⟨st'.emitted, ?_⟩
  rw [execute_eq, if_neg haccept.not_refused]
  refine htokens.bind ?_
  simp only
  rw [hsplit, scanWindows_append]
  refine CanReturn.bind (v := .ok st') ?_ (by simp only; rw [hctx']; exact CanReturn.pure)
  refine hbefore.bind ?_
  simp only [scanWindows]
  have hwindow : CanReturn (scanWindow input (tokensOf options.separators input) visit w st)
      (.ok ⟨⟨afterAdd st.closed.items w.start w.stop, cap'⟩, st.emitted + 1, ctx'⟩) := by
    unfold scanWindow
    rw [if_neg hopen, hctx]
    exact h.bind (hadd.bind CanReturn.pure)
  exact hwindow.bind hafter

end Skips

end Ipa.Ngram
