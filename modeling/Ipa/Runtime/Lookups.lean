import Ipa.Runtime.Completion

/-!
# The lookups of a parse

A parse looks texts up twice: the windows of the input among the descriptions of the nodes, and
under each match of a node that has children the windows of its span among the descriptions of all
children. `LookedUp` names the lookups of the second kind that one run makes and that find
something. Every child match of a parse comes from one of them.
-/

namespace Ipa

open Run

section Lookups

variable [Arith] (host : Host) (s : Schema)

/-- The visitor for nodes, called for a window in `e`, has made a match of the node `id` and starts
the scan for its children in `e'`. -/
inductive ScanStarts (chunk : Ngram.Chunk) (e : Env) (id : CStr) (e' : Env) : Prop
  | intro {score : Binary32} {emits : List Emit} {e₁ e₂ e₃ : Env}
      (hit : (visitHit (ε := Unit) host s (some s.index.nodeHnsw) chunk).exec e =
        (.ok (some (chunk.text, id, score)), e₁))
      (copied : (strdup (ε := Unit) id).exec e₁ = (.ok (some id), e₂))
      (filled : (buildMatchEmits (ε := Unit) host s id chunk.text).exec e₂ = (.ok (some emits), e₃))
      (parent : (nodeHasChildren (ε := Unit) host s id).exec e₃ = (.ok true, e'))

/-- The options of the scan under a node. -/
def childOptions (maxTokens : Int) : Ngram.Options :=
  { Ngram.optionsDefault with minTokens := 1, maxTokens }

omit [Arith] in
theorem childOptions_accepted (maxTokens : Int) : (childOptions maxTokens).Accepted := by
  refine ⟨Int.le_refl 1, ?_⟩
  change maxTokens ≤ 0 ∨ 1 ≤ maxTokens
  omega

/-- The scan of a span under a node that starts in `e` looks a text up, and finds a description
that is not below the threshold. -/
inductive ScanFinds (parentId span : CStr) (maxTokens : Int) (e : Env) (text : CStr) : Prop
  | intro {v : Ngram.Span} {ctx : ScanCtx} {id : CStr} {score : Binary32} {e₁ e₂ : Env}
      (called : Ngram.Calls span (childOptions maxTokens) (visitChild (ε := Unit) host s parentId)
        ⟨[], 0⟩ e v ctx e₁)
      (hit : (visitHit (ε := Unit) host s s.index.childHnsw (Ngram.chunkOf span
        (Ngram.tokensOf Ngram.optionsDefault.separators span) v)).exec e₁ =
          (.ok (some (text, id, score)), e₂))

/-- A parse that starts in `e` looks a text up under a match of the node `parentId`, and finds a
description that is not below the threshold. -/
inductive LookedUp (input : CStr) (e : Env) (parentId text : CStr) : Prop
  | intro {w : Ngram.Span} {ctx : ScanCtx} {e₁ e₂ e₃ : Env}
      (buffer : (embBuffer : Run Unit Unit).exec e = (.ok (), e₁))
      (called : Ngram.Calls input s.options (visitTop (ε := Unit) host s) ⟨[], 0⟩ e₁ w ctx e₂)
      (scan : let chunk := Ngram.chunkOf input (Ngram.tokensOf s.options.separators input) w
        ScanStarts host s chunk e₂ parentId e₃ ∧
          ScanFinds host s parentId chunk.text chunk.size e₃ text)

variable {host s}

/-- What a window hits has its text. -/
theorem visitHit_text (hnsw : Option Hnsw.Index) (chunk : Ngram.Chunk) :
    Keeps (fun _ => True) (fun _ => True) (visitHit (ε := Unit) host s hnsw chunk) fun r =>
      ∀ hit, r = some hit → hit.1 = chunk.text := by
  have hnone : Keeps (fun _ => True) (fun _ => True)
      (pure none : Run Unit (Option (CStr × CStr × Binary32))) fun r =>
        ∀ hit, r = some hit → hit.1 = chunk.text := Keeps.pure fun _ h => by cases h
  unfold visitHit
  split
  · exact hnone
  refine Keeps.bind (Keeps.trivially _) fun served _ => ?_
  split
  swap
  · exact hnone
  refine Keeps.bind (Keeps.trivially _) fun vec _ => ?_
  split
  · exact hnone
  split
  · exact hnone
  refine Keeps.bind (Keeps.trivially _) fun results _ => ?_
  split
  · exact hnone
  · exact hnone
  simp only
  split
  · exact hnone
  · refine Keeps.pure fun hit h => ?_
    cases h
    rfl

/-- What a call of the visitor for children adds comes from its own lookup. -/
theorem visitChild_calls {parentId : CStr} {chunk : Ngram.Chunk} {ctx ctx' : ScanCtx}
    {decision : Int} {e e' : Env}
    (h : (visitChild (ε := Unit) host s parentId chunk ctx).exec e = (.ok (decision, ctx'), e')) :
    ∀ m ∈ ctx'.items, m ∈ ctx.items ∨ m.emits = [] ∧ ∃ id score e₁,
      (visitHit (ε := Unit) host s s.index.childHnsw chunk).exec e =
        (.ok (some (m.span, id, score)), e₁) := by
  unfold visitChild at h
  obtain ⟨hit, e₁, hhit, h⟩ := exec_bind_ok h
  split at h
  · cases h
    exact fun m hm => .inl hm
  rename_i span id score
  obtain ⟨named, e₂, -, h⟩ := exec_bind_ok h
  split at h
  swap
  · cases h
    exact fun m hm => .inl hm
  obtain ⟨copy, e₃, -, h⟩ := exec_bind_ok h
  split at h
  · cases h
    exact fun m hm => .inl hm
  rename_i id'
  simp only at h
  split at h
  · rename_i items hreplace
    cases h
    intro m hm
    rcases mem_replaceMatch hreplace m hm with rfl | hm
    · exact .inr ⟨rfl, id, score, e₁, hhit⟩
    · exact .inl hm
  · obtain ⟨pushed, e₄, hpush, h⟩ := exec_bind_ok h
    split at h
    · cases h
      exact fun m hm => .inl hm
    rename_i pushed
    cases h
    have halloc : Keeps (fun _ => True) (fun _ : Stop Unit => True) alloc fun served =>
        served = false → True := (Keeps.trivially alloc).mono fun _ _ _ => trivial
    rcases ((matchPush_keeps halloc ctx _).value trivial hpush).1 with ⟨cap, hitems⟩ | ⟨hitems, -⟩
    swap
    · cases hitems
    cases hitems
    intro m hm
    rcases List.mem_append.mp hm with hm | hm
    · exact .inl hm
    · rw [List.mem_singleton.mp hm]
      exact .inr ⟨rfl, id, score, e₁, hhit⟩

/-- The child matches of a scan come from its lookups. -/
theorem scanChildren_found {parentId span : CStr} {maxTokens : Int} {children : List Match}
    {e e' : Env} (h : (scanChildren (ε := Unit) host s 1 maxTokens parentId span).exec e =
      (.ok children, e')) : ∀ ch ∈ children, ScanFinds host s parentId span maxTokens e ch.span := by
  unfold scanChildren at h
  obtain ⟨⟨n, ctx⟩, e₁, hscan, h⟩ := exec_bind_ok h
  have hitems := Ngram.execute_calls (P := fun ctx : ScanCtx => ∀ m ∈ ctx.items,
    m.emits = [] ∧ ScanFinds host s parentId span maxTokens e m.span) ?_ (by simp) hscan
  swap
  · intro w ctx₁ e₂ hcalled hctx decision ctx₂ e₃ hvisit m hm
    rcases visitChild_calls hvisit m hm with hm | ⟨hnone, id, score, e₄, hhit⟩
    · exact hctx m hm
    · exact ⟨hnone, .intro hcalled hhit⟩
  have halloc : Keeps (fun _ => True) (fun _ : Stop Unit => True) alloc fun served =>
      served = false → True := (Keeps.trivially alloc).mono fun _ _ _ => trivial
  have hall := ((allChildEmits_keeps halloc parentId fun m hm =>
    ⟨(hitems m hm).1, fun _ _ _ _ => trivial⟩).value trivial h).1
  intro ch hch
  obtain ⟨m, hm, emits, rfl, -⟩ := WithEmits.of_mem hall hch
  exact (hitems m hm).2

/-- The children of a match come from the scan that its window starts. -/
theorem topMatch_scan {chunk : Ngram.Chunk} {m : Match} {e e' : Env}
    (h : (topMatch (ε := Unit) host s chunk).exec e = (.ok (some m), e')) :
    ∀ ch ∈ m.children, ∃ e₁, ScanStarts host s chunk e m.id e₁ ∧
      ScanFinds host s m.id chunk.text chunk.size e₁ ch.span := by
  unfold topMatch at h
  obtain ⟨hit, e₁, hhit, h⟩ := exec_bind_ok h
  cases hit with
  | none => cases h
  | some hit =>
    obtain ⟨span, id, score⟩ := hit
    obtain rfl : span = chunk.text := ((visitHit_text _ chunk).value trivial hhit).1 _ rfl
    obtain ⟨copy, e₂, hcopy, hmatch⟩ := exec_bind_ok h
    cases copy with
    | none => cases hmatch
    | some copy =>
      obtain rfl : copy = id := by
        unfold strdup at hcopy
        obtain ⟨served, e₃, -, hcopy⟩ := exec_bind_ok hcopy
        split at hcopy <;> cases hcopy
        rfl
      obtain ⟨emits, e₃, hemits, hmatch⟩ := exec_bind_ok hmatch
      cases emits with
      | none => cases hmatch
      | some emits =>
        obtain ⟨scanned, e₄, hparent, hmatch⟩ := exec_bind_ok hmatch
        simp only at hmatch
        split at hmatch
        · rename_i hscanned
          rw [hscanned.1] at hparent
          obtain ⟨children, e₅, hscan, hmatch⟩ := exec_bind_ok hmatch
          cases hmatch
          exact fun ch hch => ⟨e₄, .intro hhit hcopy hemits hparent, scanChildren_found hscan ch hch⟩
        · cases hmatch
          intro ch hch
          cases hch

/-- **Every child match** of a parse comes from a lookup that the parse makes under its parent. -/
theorem parse_lookedUp {input : CStr} {result : ParseResult} {e e' : Env}
    (h : (parse host s input).exec e = (.ok result, e')) :
    ∀ mt ∈ result.matches_, ∀ ch ∈ mt.children, LookedUp host s input e mt.id ch.span := by
  rw [parse_eq] at h
  obtain ⟨_, e₁, hbuffer, h⟩ := exec_bind_ok h
  obtain ⟨⟨n, ctx⟩, e₂, hscan, h⟩ := exec_bind_ok h
  cases h
  refine Ngram.execute_calls (P := fun ctx : ScanCtx => ∀ mt ∈ ctx.items, ∀ ch ∈ mt.children,
    LookedUp host s input e mt.id ch.span) ?_ (by simp) hscan
  intro w ctx₁ e₃ hcalled hctx decision ctx₂ e₄ hvisit
  rw [visitTop_eq] at hvisit
  obtain ⟨found, e₅, hfound, hvisit⟩ := exec_bind_ok hvisit
  cases found with
  | none =>
    cases hvisit
    exact hctx
  | some m =>
    obtain ⟨pushed, e₆, hpush, hvisit⟩ := exec_bind_ok hvisit
    have halloc : Keeps (fun _ => True) (fun _ : Stop Unit => True) alloc fun served =>
        served = false → True := (Keeps.trivially alloc).mono fun _ _ _ => trivial
    have hitems := ((matchPush_keeps halloc ctx₁ m).value trivial hpush).1
    rcases hitems with ⟨cap, rfl⟩ | ⟨rfl, -⟩
    swap
    · cases hvisit
      exact hctx
    cases hvisit
    intro mt hmt ch hch
    rcases List.mem_append.mp hmt with hmt | hmt
    · exact hctx mt hmt ch hch
    · rw [List.mem_singleton.mp hmt] at hch ⊢
      obtain ⟨e₇, hstarts, hfinds⟩ := topMatch_scan hfound ch hch
      exact .intro hbuffer hcalled ⟨hstarts, hfinds⟩

end Lookups

end Ipa
