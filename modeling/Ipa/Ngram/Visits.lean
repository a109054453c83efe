import Ipa.Ngram.Traverse
import Mathlib.Data.List.Nodup

/-!
# The calls of the visitor

`visits` is the list of calls that the traversal is there to make, as a function of the visitor
alone: a window is passed to it unless a window that it answered with 1 contains the new one, and
a negative answer ends the list. `execute_visits` says that `execute` makes exactly these calls,
whatever state the visitor keeps and whatever the allocator does; a failed allocation cuts the
list short.
-/

namespace Ipa.Ngram

open Run

/-- A call of the visitor and its answer. -/
structure Call where
  window : Span
  decision : Int
deriving DecidableEq, Repr

/-- The windows that the visitor answered with 1. -/
def closedBy (calls : List Call) : List Span :=
  (calls.filter fun call => call.decision = 1).map (·.window)

variable {ε σ τ : Type}

/-- The calls over some windows, after those in `calls`; `.error` when the visitor aborts. -/
def visits (visit : Span → σ → Int × σ) : List Span → List Call → σ →
    Except (List Call × σ) (List Call × σ)
  | [], calls, ctx => .ok (calls, ctx)
  | w :: ws, calls, ctx =>
    if Covers (closedBy calls) w then visits visit ws calls ctx
    else
      let answer := visit w ctx
      if answer.1 < 0 then .error (calls ++ [⟨w, answer.1⟩], answer.2)
      else visits visit ws (calls ++ [⟨w, answer.1⟩]) answer.2

theorem visits_append (visit : Span → σ → Int × σ) : ∀ (l r : List Span) (calls : List Call)
    (ctx : σ), visits visit (l ++ r) calls ctx =
      (visits visit l calls ctx).bind fun st => visits visit r st.1 st.2
  | [], _, _, _ => rfl
  | w :: l, r, calls, ctx => by
    rw [List.cons_append, visits, visits]
    split
    · exact visits_append visit l r calls ctx
    · simp only
      split
      · rfl
      · exact visits_append visit l r _ _

/-- The one call for a window that is open. -/
theorem visits_open {visit : Span → σ → Int × σ} {w : Span} {calls : List Call} {ctx : σ}
    (hopen : ¬ Covers (closedBy calls) w) : visits visit [w] calls ctx =
      if (visit w ctx).1 < 0 then .error (calls ++ [⟨w, (visit w ctx).1⟩], (visit w ctx).2)
      else .ok (calls ++ [⟨w, (visit w ctx).1⟩], (visit w ctx).2) := by
  rw [visits, if_neg hopen]
  rfl

/-- The windows for which the visitor is called. -/
def calledFor (visit : Span → σ → Int × σ) : List Span → List Call → σ → List Span
  | [], _, _ => []
  | w :: ws, calls, ctx =>
    if Covers (closedBy calls) w then calledFor visit ws calls ctx
    else w :: if (visit w ctx).1 < 0 then []
      else calledFor visit ws (calls ++ [⟨w, (visit w ctx).1⟩]) (visit w ctx).2

theorem mem_of_calledFor {visit : Span → σ → Int × σ} {v : Span} : ∀ {ws : List Span}
    {calls : List Call} {ctx : σ}, v ∈ calledFor visit ws calls ctx → v ∈ ws
  | w :: ws, calls, ctx, h => by
    unfold calledFor at h
    split at h
    · exact List.mem_cons_of_mem w (mem_of_calledFor h)
    rcases List.mem_cons.mp h with rfl | h
    · exact List.mem_cons_self
    split at h
    · cases h
    · exact List.mem_cons_of_mem w (mem_of_calledFor h)

/-- The calls after the first window. -/
theorem calledFor_rest {visit : Span → σ → Int × σ} {w : Span} {ws : List Span}
    {calls calls' : List Call} {ctx ctx' : σ} (h : visits visit [w] calls ctx = .ok (calls', ctx')) :
    calledFor visit ws calls' ctx' ⊆ calledFor visit (w :: ws) calls ctx := by
  intro v hv
  unfold calledFor
  by_cases hcovered : Covers (closedBy calls) w
  · rw [visits, if_pos hcovered] at h
    cases h
    rwa [if_pos hcovered]
  · rw [visits_open hcovered] at h
    rw [if_neg hcovered]
    split at h
    · cases h
    · rename_i hneg
      cases h
      rw [if_neg hneg]
      exact List.mem_cons_of_mem w hv

/-- The calls made, aborted or not. -/
def madeBy : Except (List Call × σ) (List Call × σ) → List Call
  | .ok st => st.1
  | .error st => st.1

/-- The calls go through the windows in their order. -/
theorem visits_sublist (visit : Span → σ → Int × σ) : ∀ (ws : List Span) (calls : List Call)
    (ctx : σ), ∃ new, madeBy (visits visit ws calls ctx) = calls ++ new ∧
      (new.map (·.window)).Sublist ws
  | [], calls, _ => ⟨[], (List.append_nil calls).symm, .slnil⟩
  | w :: ws, calls, ctx => by
    rw [visits]
    split
    · obtain ⟨new, hmade, hsub⟩ := visits_sublist visit ws calls ctx
      exact ⟨new, hmade, hsub.cons w⟩
    · simp only
      split
      · exact ⟨[⟨w, (visit w ctx).1⟩], rfl, List.Sublist.cons_cons w (List.nil_sublist ws)⟩
      · obtain ⟨new, hmade, hsub⟩ := visits_sublist visit ws (calls ++ [⟨w, (visit w ctx).1⟩])
          (visit w ctx).2
        exact ⟨⟨w, (visit w ctx).1⟩ :: new, by rw [hmade, List.append_assoc]; rfl,
          hsub.cons_cons w⟩

/-! ## The windows are distinct -/

theorem windowsOfSize_nodup (count size : Nat) : (windowsOfSize count size).Nodup := by
  refine List.Nodup.map ?_ List.nodup_range
  intro a b h
  exact congrArg Span.start h

theorem windows_nodup {count : Nat} {minTokens : Int} (hmin : 1 ≤ minTokens) :
    ∀ size, (windows count minTokens size).Nodup
  | 0 => List.nodup_nil
  | size + 1 => by
    unfold windows
    split
    · refine List.Nodup.append (windowsOfSize_nodup count _) (windows_nodup hmin size) ?_
      intro w hw hw'
      have h := (mem_windowsOfSize (Nat.succ_pos size)).mp hw
      have h' := (mem_windows hmin).mp hw'
      omega
    · exact List.nodup_nil

/-! ## The loops -/

theorem closedBy_append (calls : List Call) (w : Span) (decision : Int) :
    closedBy (calls ++ [⟨w, decision⟩]) =
      if decision = 1 then closedBy calls ++ [w] else closedBy calls := by
  unfold closedBy
  rw [List.filter_append, List.map_append]
  by_cases h : decision = 1
  · simp [h]
  · simp [h]

/-- The state of the loops after some calls; `R` relates the context of the visitor to the one in
which the calls are stated. -/
structure Follows (R : σ → τ → Prop) (st : Scan σ) (calls : List Call) (ctx : τ) : Prop where
  chain : Chain st.closed.items
  covers : ∀ w, Covers st.closed.items w ↔ Covers (closedBy calls) w
  emitted : st.emitted = calls.length
  ctx : R st.ctx ctx

/-- What a loop over `ws` leaves: the state after its calls, the context where the visitor
aborted, or the context after the calls over a part of `ws` when an allocation failed. -/
def Leaves (R : σ → τ → Prop) (failed : Prop) (visit : Span → τ → Int × τ) (ws : List Span)
    (calls : List Call) (ctx : τ) : Except σ (Scan σ) → Prop
  | .ok st => ∃ calls' ctx', visits visit ws calls ctx = .ok (calls', ctx') ∧
      Follows R st calls' ctx'
  | .error left => (∃ calls' ctx', visits visit ws calls ctx = .error (calls', ctx') ∧
      R left ctx') ∨
        (failed ∧ ∃ part calls' ctx', part <+: ws ∧ visits visit part calls ctx = .ok (calls', ctx') ∧
          R left ctx')

theorem Leaves.append {R : σ → τ → Prop} {failed : Prop} {visit : Span → τ → Int × τ}
    {l r : List Span} {calls calls' : List Call} {ctx ctx' : τ} {res : Except σ (Scan σ)}
    (hl : visits visit l calls ctx = .ok (calls', ctx'))
    (hr : Leaves R failed visit r calls' ctx' res) :
    Leaves R failed visit (l ++ r) calls ctx res := by
  have happ : ∀ r, visits visit (l ++ r) calls ctx = visits visit r calls' ctx' := by
    intro r
    rw [visits_append, hl]
    rfl
  cases res with
  | ok st =>
    obtain ⟨calls'', ctx'', hr, hfollows⟩ := hr
    exact ⟨calls'', ctx'', (happ r).trans hr, hfollows⟩
  | error left =>
    rcases hr with ⟨calls'', ctx'', hr, hleft⟩ | ⟨hfail, part, calls'', ctx'', hpart, hr, hleft⟩
    · exact .inl ⟨calls'', ctx'', (happ r).trans hr, hleft⟩
    · exact .inr ⟨hfail, l ++ part, calls'', ctx'', (List.prefix_append_right_inj l).mpr hpart,
        (happ part).trans hr, hleft⟩

/-- A loop that stopped inside `l` stops there when more windows follow. -/
theorem Leaves.error_append {R : σ → τ → Prop} {failed : Prop} {visit : Span → τ → Int × τ}
    {l : List Span} {calls : List Call} {ctx : τ} {left : σ}
    (h : Leaves R failed visit l calls ctx (.error left)) (r : List Span) :
    Leaves R failed visit (l ++ r) calls ctx (.error left) := by
  rcases h with ⟨calls', ctx', h, hleft⟩ | ⟨hfail, part, calls', ctx', hpart, h, hleft⟩
  · exact .inl ⟨calls', ctx', by rw [visits_append, h]; rfl, hleft⟩
  · exact .inr ⟨hfail, part, calls', ctx', hpart.trans (List.prefix_append l r), h, hleft⟩

section Loops

variable {input : CStr} {tokens : List Token} {I : Env → Prop} {X : Stop ε → Prop} {failed : Prop}
  (halloc : Keeps I X (alloc : Run ε Bool) fun served => served = false → failed)
  {visiting : Visit ε σ} {visit : Span → τ → Int × τ} {R : σ → τ → Prop}

/-- At a window the visitor answers as `visit` does. -/
def Answers (I : Env → Prop) (X : Stop ε → Prop) (R : σ → τ → Prop) (visiting : Visit ε σ)
    (visit : Span → τ → Int × τ) (chunk : Chunk) (w : Span) : Prop :=
  ∀ own ctx, R own ctx → Keeps I X (visiting chunk own) fun r =>
    r.1 = (visit w ctx).1 ∧ R r.2 (visit w ctx).2

include halloc

/-- **One window**: skipped when it is closed, else passed to the visitor. -/
theorem scanWindow_leaves {w : Span} {calls : List Call}
    (hvisit : ¬ Covers (closedBy calls) w →
      Answers I X R visiting visit (chunkOf input tokens w) w) {st : Scan σ} {ctx : τ}
    (h : Follows R st calls ctx) :
    Keeps I X (scanWindow input tokens visiting w st) (Leaves R failed visit [w] calls ctx) := by
  have hclosed : spanIsClosed w.start w.stop st.closed.items = true ↔ Covers (closedBy calls) w :=
    (spanIsClosed_iff h.chain _ _).trans (h.covers _)
  unfold scanWindow
  split
  · rename_i hc
    exact Keeps.pure ⟨calls, ctx, by rw [visits, if_pos (hclosed.mp hc)]; rfl, h⟩
  rename_i hopen
  have hopen := fun hc => hopen (hclosed.mpr hc)
  refine Keeps.bind (hvisit hopen _ _ h.ctx) fun answer hanswer => ?_
  have hvisits := @visits_open _ visit _ _ ctx hopen
  obtain ⟨hdecision, hleft⟩ := hanswer
  generalize visit w ctx = expected at hvisits hdecision hleft ⊢
  obtain ⟨decision, ctx'⟩ := expected
  obtain ⟨_, left⟩ := answer
  simp only at hvisits hdecision hleft ⊢
  subst hdecision
  split
  · rename_i hneg
    rw [if_pos hneg] at hvisits
    exact Keeps.pure (.inl ⟨_, _, hvisits, hleft⟩)
  rename_i hneg
  rw [if_neg hneg] at hvisits
  split
  · rename_i hone
    subst hone
    obtain ⟨hchain, hcov⟩ := afterAdd_spec h.chain w.start w.stop
    refine Keeps.bind (addClosedSpan_spec halloc _ _ _) fun r hr => ?_
    rcases hr with ⟨cap, rfl⟩ | ⟨rfl, hfail⟩
    · refine Keeps.pure ⟨_, _, hvisits, hchain, fun v => ?_, ?_, hleft⟩
      · rw [closedBy_append, if_pos rfl, covers_append, ← h.covers v]
        refine (hcov v).trans (or_congr_right ?_)
        simp [Covers]
      · rw [List.length_append, ← h.emitted]
        rfl
    · exact Keeps.pure (.inr ⟨hfail, _, _, _, List.prefix_rfl, hvisits, hleft⟩)
  · rename_i hone
    refine Keeps.pure ⟨_, _, hvisits, h.chain, fun v => ?_, ?_, hleft⟩
    · rw [closedBy_append, if_neg hone]
      exact h.covers v
    · rw [List.length_append, ← h.emitted]
      rfl

theorem scanWindows_leaves (ws : List Span) {st : Scan σ} {calls : List Call} {ctx : τ}
    (hvisit : ∀ w ∈ calledFor visit ws calls ctx,
      Answers I X R visiting visit (chunkOf input tokens w) w) (h : Follows R st calls ctx) :
    Keeps I X (scanWindows input tokens visiting ws st) (Leaves R failed visit ws calls ctx) := by
  induction ws generalizing st calls ctx with
  | nil => exact Keeps.pure ⟨calls, ctx, rfl, h⟩
  | cons w ws ih =>
    have hfirst : ¬ Covers (closedBy calls) w →
        Answers I X R visiting visit (chunkOf input tokens w) w := by
      intro hopen
      refine hvisit w ?_
      rw [calledFor, if_neg hopen]
      exact List.mem_cons_self
    refine Keeps.bind (scanWindow_leaves halloc hfirst h) fun r hr => ?_
    cases r with
    | error ctx' => exact Keeps.pure (hr.error_append ws)
    | ok st =>
      obtain ⟨calls', ctx', hvisits, hfollows⟩ := hr
      exact (ih (fun v hv => hvisit v (calledFor_rest hvisits hv)) hfollows).mono fun _ =>
        Leaves.append (l := [w]) hvisits

end Loops

section Execute

variable {input : CStr} {options : Options} {I : Env → Prop} {X : Stop ε → Prop} {failed : Prop}
  (halloc : Keeps I X (alloc : Run ε Bool) fun served => served = false → failed)
  {visiting : Visit ε σ} {visit : Span → τ → Int × τ} {R : σ → τ → Prop}

include halloc

/-- **The traversal** makes the calls of `visits`, all of them unless an allocation failed, where
the visitor answers as `visit` does at the windows that are not closed. -/
theorem execute_leaves_called (haccept : options.Accepted) {own : σ} {ctx : τ} (h : R own ctx)
    (hvisit : let tokens := tokensOf options.separators input
      ∀ w ∈ calledFor visit (windows tokens.length options.minTokens
        (maxWindow options tokens.length)) [] ctx,
        Answers I X R visiting visit (chunkOf input tokens w) w) :
    let tokens := tokensOf options.separators input
    let ws := windows tokens.length options.minTokens (maxWindow options tokens.length)
    Keeps I X (execute input (some options) visiting own) fun r =>
      (∃ calls ctx', visits visit ws [] ctx = .ok (calls, ctx') ∧ R r.2 ctx' ∧
        r.1 = calls.length) ∨
        (∃ calls ctx', visits visit ws [] ctx = .error (calls, ctx') ∧ R r.2 ctx' ∧ r.1 = -1) ∨
        (failed ∧ r.1 = -1 ∧ ∃ part calls ctx', part <+: ws ∧
          visits visit part [] ctx = .ok (calls, ctx') ∧ R r.2 ctx') := by
  intro tokens ws
  obtain ⟨hmin, hmax⟩ := haccept
  rw [execute_eq, if_neg (by omega)]
  refine Keeps.bind (splitTokens_spec halloc options.separators input) fun r hr => ?_
  rcases hr with ⟨cap, rfl⟩ | ⟨rfl, hfail⟩
  · have hfollows : Follows R (⟨⟨[], 0⟩, 0, own⟩ : Scan σ) [] ctx :=
      ⟨.nil, fun _ => Iff.rfl, rfl, h⟩
    refine Keeps.bind (scanWindows_leaves halloc ws hvisit hfollows) fun r hr => ?_
    cases r with
    | ok st =>
      obtain ⟨calls, ctx', hvisits, hfollows⟩ := hr
      exact Keeps.pure (.inl ⟨calls, ctx', hvisits, hfollows.ctx,
        congrArg Nat.cast hfollows.emitted⟩)
    | error left =>
      rcases hr with ⟨calls, ctx', hvisits, hleft⟩ |
        ⟨hfail, part, calls, ctx', hpart, hvisits, hleft⟩
      · exact Keeps.pure (.inr (.inl ⟨calls, ctx', hvisits, hleft, rfl⟩))
      · exact Keeps.pure (.inr (.inr ⟨hfail, rfl, part, calls, ctx', hpart, hvisits, hleft⟩))
  · exact Keeps.pure (.inr (.inr ⟨hfail, rfl, [], [], ctx, List.nil_prefix, rfl, h⟩))

/-- It does where the visitor answers so at every window. -/
theorem execute_leaves
    (hvisit : let tokens := tokensOf options.separators input
      ∀ w ∈ windows tokens.length options.minTokens (maxWindow options tokens.length),
        ∀ own ctx, R own ctx → Keeps I X (visiting (chunkOf input tokens w) own) fun r =>
          r.1 = (visit w ctx).1 ∧ R r.2 (visit w ctx).2)
    (haccept : options.Accepted) {own : σ} {ctx : τ} (h : R own ctx) :
    let tokens := tokensOf options.separators input
    let ws := windows tokens.length options.minTokens (maxWindow options tokens.length)
    Keeps I X (execute input (some options) visiting own) fun r =>
      (∃ calls ctx', visits visit ws [] ctx = .ok (calls, ctx') ∧ R r.2 ctx' ∧
        r.1 = calls.length) ∨
        (∃ calls ctx', visits visit ws [] ctx = .error (calls, ctx') ∧ R r.2 ctx' ∧ r.1 = -1) ∨
        (failed ∧ r.1 = -1 ∧ ∃ part calls ctx', part <+: ws ∧
          visits visit part [] ctx = .ok (calls, ctx') ∧ R r.2 ctx') :=
  execute_leaves_called halloc haccept h fun w hw => hvisit w (mem_of_calledFor hw)

end Execute

/-! ## A visitor that writes down its calls -/

/-- The visitor as a run of the traversal. -/
def calling (visit : Chunk → σ → Int × σ) : Visit ε σ := fun chunk ctx => pure (visit chunk ctx)

/-- A visitor that also writes down its calls. -/
def recording (visit : Chunk → σ → Int × σ) (chunk : Chunk) (ctx : List (Chunk × Int) × σ) :
    Int × List (Chunk × Int) × σ :=
  let answer := visit chunk ctx.2
  (answer.1, ctx.1 ++ [(chunk, answer.1)], answer.2)

/-- What a visitor wrote down, and what it left. -/
def writtenBy (chunk : Span → Chunk) (st : List Call × σ) :
    List Call × List (Chunk × Int) × σ :=
  (st.1, st.1.map (fun call => (chunk call.window, call.decision)), st.2)

theorem visits_recording (chunk : Span → Chunk) (visit : Chunk → σ → Int × σ) :
    ∀ (ws : List Span) (calls : List Call) (ctx : σ),
      visits (fun w => recording visit (chunk w)) ws calls (writtenBy chunk (calls, ctx)).2 =
        match visits (fun w => visit (chunk w)) ws calls ctx with
        | .ok st => .ok (writtenBy chunk st)
        | .error st => .error (writtenBy chunk st)
  | [], _, _ => rfl
  | w :: ws, calls, ctx => by
    rw [visits, visits]
    split
    · exact visits_recording chunk visit ws calls ctx
    · have hwritten : (recording visit (chunk w) (writtenBy chunk (calls, ctx)).2).2 =
          (writtenBy chunk (calls ++ [⟨w, (visit (chunk w) ctx).1⟩], (visit (chunk w) ctx).2)).2 := by
        simp [recording, writtenBy]
      simp only [hwritten]
      change (if (visit (chunk w) ctx).1 < 0 then _ else _) = _
      split
      · rfl
      · exact visits_recording chunk visit ws _ _

/-- What the visitor wrote down is the list of its calls. -/
theorem visits_recorded (chunk : Span → Chunk) (visit : Chunk → σ → Int × σ) (ws : List Span)
    (ctx : σ) {calls : List Call} {st : List (Chunk × Int) × σ} :
    (visits (fun w => recording visit (chunk w)) ws [] ([], ctx) = .ok (calls, st) →
      visits (fun w => visit (chunk w)) ws [] ctx = .ok (calls, st.2) ∧
        st.1 = calls.map fun call => (chunk call.window, call.decision)) ∧
    (visits (fun w => recording visit (chunk w)) ws [] ([], ctx) = .error (calls, st) →
      visits (fun w => visit (chunk w)) ws [] ctx = .error (calls, st.2) ∧
        st.1 = calls.map fun call => (chunk call.window, call.decision)) := by
  have h : visits (fun w => recording visit (chunk w)) ws [] ([], ctx) = _ :=
    visits_recording chunk visit ws [] ctx
  rw [h]
  constructor
  · intro h
    split at h
    · rename_i heq
      cases h
      exact ⟨heq, rfl⟩
    · cases h
  · intro h
    split at h
    · cases h
    · rename_i heq
      cases h
      exact ⟨heq, rfl⟩

/-- **The calls of the visitor**: those of `visits` over the windows of the tokens by descending
size and ascending start, each with the bytes and the indices of its window. The result is their
number, or -1 where the visitor aborted; a failed allocation ends the calls early, with -1. -/
theorem execute_visits {options : Options} (haccept : options.Accepted) (input : CStr)
    (visit : Chunk → σ → Int × σ) (ctx : σ) (e : Env) :
    let tokens := tokensOf options.separators input
    let ws := windows tokens.length options.minTokens (maxWindow options tokens.length)
    let outcome := fun ws => visits (fun w => visit (chunkOf input tokens w)) ws [] ctx
    ∃ r calls ctx' e',
      (execute input (some options) (calling (recording visit)) ([], ctx) :
        Run ε (Int × List (Chunk × Int) × σ)).exec e =
          (.ok (r, calls.map (fun call => (chunkOf input tokens call.window, call.decision)), ctx'),
            e') ∧
        ws.Nodup ∧ (calls.map (·.window)).Sublist ws ∧
        ((outcome ws = .ok (calls, ctx') ∧ r = calls.length) ∨
          (outcome ws = .error (calls, ctx') ∧ r = -1) ∨
          (false ∈ e.allocs ∧ r = -1 ∧ ∃ part, part <+: ws ∧
            outcome part = .ok (calls, ctx'))) := by
  intro tokens ws outcome
  have halloc : Keeps (Within e.allocs) (fun _ : Stop ε => False) alloc _ := Keeps.alloc_within
  have hrun := @execute_leaves ε _ _ input options _ _ _ halloc (calling (recording visit))
    (fun w => recording visit (chunkOf input tokens w)) Eq
    (fun w _ own ctx h => by subst h; exact Keeps.pure ⟨rfl, rfl⟩) haccept ([], ctx) ([], ctx) rfl
    e (List.suffix_refl _)
  have hsub : ∀ ws, (madeBy (outcome ws)).map (·.window) |>.Sublist ws := by
    intro ws
    obtain ⟨new, hnew, hsub⟩ := visits_sublist (fun w => visit (chunkOf input tokens w)) ws [] ctx
    rw [show madeBy (outcome ws) = new from hnew]
    exact hsub
  rcases hexec : (execute input (some options) (calling (recording visit)) ([], ctx) :
    Run ε (Int × List (Chunk × Int) × σ)).exec e with ⟨stop | ⟨r, written, ctx'⟩, e'⟩ <;>
    rw [hexec] at hrun
  · exact hrun.2.elim
  have hws : ws.Nodup := windows_nodup haccept.1 (maxWindow options tokens.length)
  rcases hrun.2 with ⟨calls, _, hvisits, rfl, hr⟩ | ⟨calls, _, hvisits, rfl, hr⟩ |
      ⟨hfail, hr, part, calls, _, hpart, hvisits, rfl⟩
  · obtain ⟨houtcome, rfl⟩ := (visits_recorded _ _ _ _).1 hvisits
    refine ⟨r, calls, ctx', e', rfl, hws, ?_, .inl ⟨houtcome, hr⟩⟩
    have := hsub ws
    rwa [show outcome ws = _ from houtcome] at this
  · obtain ⟨houtcome, rfl⟩ := (visits_recorded _ _ _ _).2 hvisits
    refine ⟨r, calls, ctx', e', rfl, hws, ?_, .inr (.inl ⟨houtcome, hr⟩)⟩
    have := hsub ws
    rwa [show outcome ws = _ from houtcome] at this
  · obtain ⟨houtcome, rfl⟩ := (visits_recorded _ _ _ _).1 hvisits
    refine ⟨r, calls, ctx', e', rfl, hws, ?_, .inr (.inr ⟨hfail, hr, part, hpart, houtcome⟩)⟩
    have := hsub part
    rw [show outcome part = _ from houtcome] at this
    exact this.trans hpart.sublist

/-- A visitor that counts its calls and closes the windows of one token. -/
def closeSingle (chunk : Chunk) (calls : Nat) : Int × Nat :=
  (if chunk.size = 1 then 1 else 0, calls + 1)

theorem execute_visits_pair : optionsDefault.Accepted ∧ ∃ e',
    (execute (CStr.ofString "a b") (some optionsDefault) (calling (recording closeSingle)) ([], 0) :
      Run Unit (Int × List (Chunk × Int) × Nat)).exec ⟨[], []⟩ =
        (.ok (3, ([⟨⟨0, 1⟩, 0⟩, ⟨⟨0, 0⟩, 1⟩, ⟨⟨1, 1⟩, 1⟩] : List Call).map (fun call =>
          (chunkOf (CStr.ofString "a b") [⟨0, 1⟩, ⟨2, 3⟩] call.window, call.decision)), 3), e') := by
  have haccept : optionsDefault.Accepted := ⟨by decide, by decide⟩
  obtain ⟨r, calls, ctx', e', hrun, -, -, h⟩ :=
    execute_visits haccept (CStr.ofString "a b") closeSingle 0 ⟨[], []⟩ (ε := Unit)
  have hvisits : visits (fun w => closeSingle (chunkOf (CStr.ofString "a b")
      (tokensOf optionsDefault.separators (CStr.ofString "a b")) w))
      (windows (tokensOf optionsDefault.separators (CStr.ofString "a b")).length
        optionsDefault.minTokens (maxWindow optionsDefault
          (tokensOf optionsDefault.separators (CStr.ofString "a b")).length)) [] 0 =
        .ok ([⟨⟨0, 1⟩, 0⟩, ⟨⟨0, 0⟩, 1⟩, ⟨⟨1, 1⟩, 1⟩], 3) := rfl
  rcases h with ⟨houtcome, hr⟩ | ⟨houtcome, -⟩ | ⟨hfail, -⟩
  · simp only [hvisits] at houtcome
    cases houtcome
    subst hr
    exact ⟨haccept, e', hrun⟩
  · simp only [hvisits] at houtcome
    cases houtcome
  · cases hfail

end Ipa.Ngram
