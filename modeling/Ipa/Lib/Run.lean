import Mathlib.Tactic.Linarith

/-!
# Runs of C code

A run threads an environment: the script of the allocator, one outcome for each coming
allocation (an exhausted script means that every later one succeeds), and the log of the
accesses made to mapped memory. It ends with a value, with an error that the code reports, or
with a fault, which is what the code itself does not survive.

`Run.Keeps I X x Q` is the one triple used over it: from an environment in `I`, the run `x`
stays in `I`, its value satisfies `Q` and what stops it early satisfies `X`. Total correctness
when no allocation fails is `Keeps Quiet (fun _ => False)`, safety of the accesses is `Keeps`
over an invariant of the log, and absence of one fault is `Keeps` with that fault excluded by
`X`.
-/

namespace Ipa

/-- What a run does not survive: a `NULL` string dereferenced, an array indexed outside its
allocation, a variable read before it is set, a loop that outlives its bound. -/
inductive Fault
  | null
  | index
  | unset
  | fuel
deriving DecidableEq, Repr

/-- What ends a run early. -/
inductive Stop (ε : Type)
  | fault (f : Fault)
  | fail (err : ε)
deriving DecidableEq, Repr

/-- An access to a mapped file: a C string read from an offset, a block of bytes, or a row of a
table. -/
inductive Access
  | text (off : Nat)
  | block (off len : Nat)
  | row (off len : Nat)
deriving DecidableEq, Repr

structure Env where
  allocs : List Bool
  log : List Access
deriving DecidableEq, Repr

/-- A function from an environment only adds to the log, and nothing of the environment decides what
it does but the outcomes of the allocations that it makes: those are `asked`, and what the script
holds behind them is left. -/
def Scripted {ε α : Type} (f : Env → Except (Stop ε) α × Env) : Prop :=
  ∀ e, ∃ asked new, (f e).2.log = new ++ e.log ∧
    ∀ rest log, f ⟨asked ++ rest, log⟩ = ((f e).1, ⟨rest, new ++ log⟩)

/-- A run of C code that reports errors of type `ε`. -/
structure Run (ε α : Type) where
  exec : Env → Except (Stop ε) α × Env
  scripted : Scripted exec

/-- What does not look at its environment leaves it as it is. -/
theorem Scripted.const {ε α : Type} (r : Except (Stop ε) α) : Scripted fun e => (r, e) :=
  fun _ => ⟨[], [], rfl, fun _ _ => rfl⟩

namespace Run

variable {ε α β σ : Type}

theorem ext {x y : Run ε α} (h : ∀ e, x.exec e = y.exec e) : x = y := by
  cases x
  cases y
  congr
  exact funext h

theorem scripted_bind (x : Run ε α) (f : α → Run ε β) : Scripted fun e => match x.exec e with
    | (.ok a, e') => (f a).exec e'
    | (.error s, e') => (.error s, e') := by
  intro e
  obtain ⟨asked, new, hlog, hrun⟩ := x.scripted e
  rcases hx : x.exec e with ⟨s | a, e₁⟩ <;> simp only [hx] at hlog hrun ⊢
  · exact ⟨asked, new, hlog, fun rest log => by rw [hrun rest log]⟩
  · obtain ⟨asked', new', hlog', hrun'⟩ := (f a).scripted e₁
    refine ⟨asked ++ asked', new' ++ new, ?_, fun rest log => ?_⟩
    · rw [hlog', hlog, List.append_assoc]
    · rw [List.append_assoc, hrun, List.append_assoc]
      exact hrun' rest (new ++ log)

instance : Monad (Run ε) where
  pure a := ⟨fun e => (.ok a, e), .const _⟩
  bind x f := ⟨fun e => match x.exec e with
    | (.ok a, e') => (f a).exec e'
    | (.error s, e') => (.error s, e'), scripted_bind x f⟩

instance : LawfulMonad (Run ε) := LawfulMonad.mk' (Run ε)
  (fun x => ext fun e => by
    change (match x.exec e with | (.ok a, e') => (.ok (id a), e') | (.error s, e') => (.error s, e')) =
      x.exec e
    rcases x.exec e with ⟨_ | _, _⟩ <;> rfl)
  (fun _ _ => rfl)
  (fun x f g => ext fun e => by
    change (match (match x.exec e with
        | (.ok a, e') => (f a).exec e'
        | (.error s, e') => (.error s, e')) with
      | (.ok b, e') => (g b).exec e'
      | (.error s, e') => (.error s, e')) = (match x.exec e with
        | (.ok a, e') => (match (f a).exec e' with
          | (.ok b, e'') => (g b).exec e''
          | (.error s, e'') => (.error s, e''))
        | (.error s, e') => (.error s, e'))
    rcases x.exec e with ⟨_ | _, _⟩ <;> rfl)

/-- Report an error. -/
def fail (err : ε) : Run ε α := ⟨fun e => (.error (.fail err), e), .const _⟩

def fault (f : Fault) : Run ε α := ⟨fun e => (.error (.fault f), e), .const _⟩

theorem scripted_alloc : Scripted (ε := ε) fun e => match e.allocs with
    | [] => (.ok true, e)
    | b :: bs => (.ok b, { e with allocs := bs }) := by
  rintro ⟨_ | ⟨b, bs⟩, log⟩
  · exact ⟨[true], [], rfl, fun _ _ => rfl⟩
  · exact ⟨[b], [], rfl, fun _ _ => rfl⟩

/-- One call of `malloc`, `calloc`, `realloc` or `strdup`: does it return a block? -/
def alloc : Run ε Bool := ⟨fun e => match e.allocs with
  | [] => (.ok true, e)
  | b :: bs => (.ok b, { e with allocs := bs }), scripted_alloc⟩

/-- An allocation whose failure the code reports as `err`. -/
def allocOr (err : ε) : Run ε Unit := do
  if ← alloc then pure () else fail err

/-- Record an access to mapped memory. -/
def touch (a : Access) : Run ε Unit := ⟨fun e => (.ok (), { e with log := a :: e.log }),
  fun _ => ⟨[], [a], rfl, fun _ _ => rfl⟩⟩

/-- The value under a pointer that must not be `NULL`. -/
def deref : Option α → Run ε α
  | some a => pure a
  | none => fault .null

theorem scripted_catching (x : Run ε α) : Scripted (ε := β) fun e => match x.exec e with
    | (.ok a, e') => (.ok (.ok a : Except ε α), e')
    | (.error (.fail err), e') => (.ok (.error err), e')
    | (.error (.fault f), e') => (.error (.fault f), e') := by
  intro e
  obtain ⟨asked, new, hlog, hrun⟩ := x.scripted e
  rcases hx : x.exec e with ⟨(f | err) | a, e₁⟩ <;> simp only [hx] at hlog hrun ⊢ <;>
    exact ⟨asked, new, hlog, fun rest log => by rw [hrun rest log]⟩

/-- The result of a run whose error the caller looks at; a fault is not caught. -/
def catching (x : Run ε α) : Run β (Except ε α) := ⟨fun e => match x.exec e with
  | (.ok a, e') => (.ok (.ok a), e')
  | (.error (.fail err), e') => (.ok (.error err), e')
  | (.error (.fault f), e') => (.error (.fault f), e'), scripted_catching x⟩

@[simp] theorem exec_pure (a : α) (e : Env) : (pure a : Run ε α).exec e = (.ok a, e) := rfl

@[simp] theorem exec_bind (x : Run ε α) (f : α → Run ε β) (e : Env) :
    (x >>= f).exec e = match x.exec e with
      | (.ok a, e') => (f a).exec e'
      | (.error s, e') => (.error s, e') := rfl

theorem exec_alloc (e : Env) : (alloc : Run ε Bool).exec e = match e.allocs with
    | [] => (.ok true, e)
    | b :: bs => (.ok b, { e with allocs := bs }) := rfl

@[simp] theorem exec_fail (err : ε) (e : Env) :
    (fail err : Run ε α).exec e = (.error (.fail err), e) := rfl

@[simp] theorem exec_fault (f : Fault) (e : Env) :
    (fault f : Run ε α).exec e = (.error (.fault f), e) := rfl

theorem fault_bind (f : Fault) (g : α → Run ε β) : (fault f : Run ε α) >>= g = fault f := rfl

@[simp] theorem exec_touch (a : Access) (e : Env) :
    (touch a : Run ε Unit).exec e = (.ok (), { e with log := a :: e.log }) := rfl

@[simp] theorem exec_catching (x : Run ε α) (e : Env) :
    (catching x : Run β (Except ε α)).exec e = match x.exec e with
      | (.ok a, e') => (.ok (.ok a), e')
      | (.error (.fail err), e') => (.ok (.error err), e')
      | (.error (.fault f), e') => (.error (.fault f), e') := rfl

/-- The value of a run that returns, for evaluation. -/
def value? (x : Run ε α) (e : Env) : Option α :=
  match (x.exec e).1 with
  | .ok a => some a
  | .error _ => none

theorem value?_eq_some {x : Run ε α} {e : Env} {a : α} :
    x.value? e = some a ↔ ∃ e', x.exec e = (.ok a, e') := by
  unfold value?
  rcases x.exec e with ⟨_ | b, e'⟩ <;> simp

/-- Does a run end with a fault? For evaluation. -/
def faults (x : Run ε α) (e : Env) (f : Fault) : Bool :=
  match (x.exec e).1 with
  | .error (.fault g) => decide (g = f)
  | _ => false

theorem faults_eq_true {x : Run ε α} {e : Env} {f : Fault} :
    x.faults e f = true ↔ ∃ e', x.exec e = (.error (.fault f), e') := by
  unfold faults
  rcases x.exec e with ⟨(g | err) | a, e'⟩ <;> simp

/-- A run evaluated to a value with a property. -/
theorem exec_of_value? {x : Run ε α} {e : Env} {q : α → Bool} (h : (x.value? e).any q = true) :
    ∃ a e', x.exec e = (.ok a, e') ∧ q a = true := by
  rcases hx : x.value? e with _ | a
  · rw [hx] at h
    cases h
  · obtain ⟨e', hrun⟩ := value?_eq_some.mp hx
    rw [hx] at h
    exact ⟨a, e', hrun, h⟩

/-- A run of two parts that returns passes through a value of the first. -/
theorem exec_bind_ok {x : Run ε α} {f : α → Run ε β} {b : β} {e e' : Env}
    (h : (x >>= f).exec e = (.ok b, e')) :
    ∃ a e₁, x.exec e = (.ok a, e₁) ∧ (f a).exec e₁ = (.ok b, e') := by
  rw [exec_bind] at h
  rcases hx : x.exec e with ⟨stop | a, e₁⟩ <;> rw [hx] at h
  · cases h
  · exact ⟨a, e₁, rfl, h⟩

/-- Nested loops are the loop over the flattened list. -/
theorem foldlM_flatMap {γ : Type} {f : α → List γ} {g : σ → γ → Run ε σ} :
    ∀ (l : List α) (s : σ), (l.flatMap f).foldlM g s = l.foldlM (fun s a => (f a).foldlM g s) s
  | [], _ => rfl
  | a :: l, s => by
    rw [List.flatMap_cons, List.foldlM_append, List.foldlM_cons]
    exact bind_congr fun s' => foldlM_flatMap l s'

/-! ## The triple -/

/-- From an environment in `I` the run ends in `I`, with a value in `Q` or stopped in `X`. -/
def Keeps (I : Env → Prop) (X : Stop ε → Prop) (x : Run ε α) (Q : α → Prop) : Prop :=
  ∀ e, I e → I (x.exec e).2 ∧ match (x.exec e).1 with
    | .ok a => Q a
    | .error s => X s

section Keeps

variable {I : Env → Prop} {X : Stop ε → Prop} {x : Run ε α} {Q Q' : α → Prop}

theorem Keeps.pure {a : α} (h : Q a) : Keeps I X (pure a : Run ε α) Q :=
  fun _ he => ⟨he, h⟩

theorem Keeps.fail {err : ε} (h : X (.fail err)) : Keeps I X (fail err : Run ε α) Q :=
  fun _ he => ⟨he, h⟩

theorem Keeps.fault {f : Fault} (h : X (.fault f)) : Keeps I X (fault f : Run ε α) Q :=
  fun _ he => ⟨he, h⟩

theorem Keeps.mono (hx : Keeps I X x Q) (h : ∀ a, Q a → Q' a) : Keeps I X x Q' := by
  intro e he
  obtain ⟨hI, hQ⟩ := hx e he
  refine ⟨hI, ?_⟩
  split at hQ
  · exact h _ hQ
  · exact hQ

theorem Keeps.bind {f : α → Run ε β} {R : β → Prop} (hx : Keeps I X x Q)
    (hf : ∀ a, Q a → Keeps I X (f a) R) : Keeps I X (x >>= f) R := by
  intro e he
  obtain ⟨hI, hQ⟩ := hx e he
  rw [exec_bind]
  rcases hxe : x.exec e with ⟨_ | a, e'⟩
  · rw [hxe] at hI hQ
    exact ⟨hI, hQ⟩
  · rw [hxe] at hI hQ
    exact hf a hQ e' hI

theorem Keeps.deref {o : Option α} (hnull : o = none → X (.fault .null))
    (h : ∀ a, o = some a → Q a) : Keeps I X (deref o : Run ε α) Q := by
  cases o with
  | none => exact Keeps.fault (hnull rfl)
  | some a => exact Keeps.pure (h a rfl)

/-- The loop rule: an invariant of the items done and the accumulator that every step keeps. -/
theorem Keeps.foldlM_split {f : σ → α → Run ε σ} (P : List α → σ → Prop) {l : List α} {s : σ}
    (hs : P [] s) (hf : ∀ done a rest s, l = done ++ a :: rest → P done s →
      Keeps I X (f s a) (P (done ++ [a]))) :
    Keeps I X (l.foldlM f s) (P l) := by
  have go : ∀ (todo done : List α) (s : σ), l = done ++ todo → P done s →
      Keeps I X (todo.foldlM f s) (P l) := by
    intro todo
    induction todo with
    | nil =>
      intro done s hl hs
      rw [List.append_nil] at hl
      rw [hl]
      exact Keeps.pure hs
    | cons a todo ih =>
      intro done s hl hs
      rw [List.foldlM_cons]
      refine Keeps.bind (hf done a todo s hl hs) fun s' hs' => ih (done ++ [a]) s' ?_ hs'
      rw [hl, List.append_assoc, List.singleton_append]
  exact go l [] s rfl hs

theorem Keeps.foldlM {f : σ → α → Run ε σ} (P : List α → σ → Prop) {l : List α} {s : σ}
    (hs : P [] s) (hf : ∀ done a s, a ∈ l → P done s → Keeps I X (f s a) (P (done ++ [a]))) :
    Keeps I X (l.foldlM f s) (P l) :=
  Keeps.foldlM_split P hs fun done a _ s hl => hf done a s (hl ▸ by simp)

/-- The rule for a counting loop. -/
theorem Keeps.foldlM_range {f : σ → Nat → Run ε σ} (P : Nat → σ → Prop) {n : Nat} {s : σ}
    (hs : P 0 s) (hf : ∀ i s, i < n → P i s → Keeps I X (f s i) (P (i + 1))) :
    Keeps I X ((List.range n).foldlM f s) (P n) := by
  induction n with
  | zero => exact Keeps.pure hs
  | succ n ih =>
    rw [List.range_succ, List.foldlM_append]
    refine Keeps.bind (ih fun i s hi => hf i s (Nat.lt_succ_of_lt hi)) fun s' hs' => ?_
    rw [List.foldlM_cons]
    exact Keeps.bind (hf n s' (Nat.lt_succ_self n) hs') fun s'' hs'' => Keeps.pure hs''

/-- The caller sees a value or the error; what faults are accepted does not change. -/
theorem Keeps.catching {δ : Type} {X' : Stop δ → Prop} (hx : Keeps I X x Q)
    (hfault : ∀ f, X (.fault f) → X' (.fault f)) :
    Keeps I X' (catching x : Run δ (Except ε α)) fun r =>
      (∀ a, r = .ok a → Q a) ∧ ∀ err, r = .error err → X (.fail err) := by
  intro e he
  obtain ⟨hI, hQ⟩ := hx e he
  rw [exec_catching]
  rcases hxe : x.exec e with ⟨(f | err) | a, e'⟩ <;> rw [hxe] at hI hQ
  · exact ⟨hI, hfault f hQ⟩
  · refine ⟨hI, ?_, ?_⟩
    · intro a h
      cases h
    · intro err' h
      cases h
      exact hQ
  · refine ⟨hI, ?_, ?_⟩
    · intro a' h
      cases h
      exact hQ
    · intro err h
      cases h

/-- An access that the invariant admits. -/
def Admits (I : Env → Prop) (a : Access) : Prop := ∀ e, I e → I { e with log := a :: e.log }

theorem Keeps.touch {a : Access} (h : Admits I a) :
    Keeps I X (touch a : Run ε Unit) fun _ => True :=
  fun e he => ⟨h e he, trivial⟩

/-- What a run returned satisfies its postcondition. -/
theorem Keeps.value (hx : Keeps I X x Q) {e e' : Env} {a : α} (he : I e)
    (h : x.exec e = (.ok a, e')) : Q a ∧ I e' := by
  obtain ⟨hI, hQ⟩ := hx e he
  rw [h] at hI hQ
  exact ⟨hQ, hI⟩

theorem Keeps.trivially (x : Run ε α) :
    Keeps (fun _ => True) (fun _ => True) x fun _ => True := by
  intro e _
  refine ⟨trivial, ?_⟩
  split <;> trivial

/-- The value of a run that returned is one that the run can return. -/
theorem Keeps.ran (hx : Keeps I X x Q) :
    Keeps I X x fun a => Q a ∧ ∃ e e', x.exec e = (.ok a, e') := by
  intro e he
  obtain ⟨hI, hQ⟩ := hx e he
  refine ⟨hI, ?_⟩
  rcases hxe : x.exec e with ⟨s | a, e'⟩ <;> rw [hxe] at hQ
  · exact hQ
  · exact ⟨hQ, e, e', hxe⟩

/-- Two continuations that agree on what a run can return. -/
theorem bind_congr_of_keeps {f g : α → Run ε β}
    (hx : Keeps (fun _ => True) X x Q) (h : ∀ a, Q a → f a = g a) :
    x >>= f = x >>= g := by
  refine ext fun e => ?_
  obtain ⟨-, hQ⟩ := hx e trivial
  rw [exec_bind, exec_bind]
  rcases hxe : x.exec e with ⟨s | a, e'⟩
  · rfl
  · rw [hxe] at hQ
    simp only [h a hQ]

/-- The access is in the log. -/
def Logged (a : Access) (e : Env) : Prop := a ∈ e.log

/-- Nothing is taken out of the log. -/
theorem logged_exec {x : Run ε α} {a : Access} {e : Env} (h : Logged a e) :
    Logged a (x.exec e).2 := by
  obtain ⟨-, new, hlog, -⟩ := x.scripted e
  rw [Logged, hlog]
  exact List.mem_append_right new h

/-- What the first part of a run accesses. -/
theorem logged_first {x : Run ε α} {f : α → Run ε β} {a : Access} {e : Env}
    (hx : Logged a (x.exec e).2) : Logged a ((x >>= f).exec e).2 := by
  rw [exec_bind]
  rcases hxe : x.exec e with ⟨s | v, e'⟩ <;> rw [hxe] at hx
  · exact hx
  · exact logged_exec hx

end Keeps

/-- An allocation is served, or its failure as `err` is an accepted end: the one assumption on
the allocator that the lemmas about allocating code share. -/
class Serves (I : Env → Prop) (X : Stop ε → Prop) (err : ε) : Prop where
  allocOr : Keeps I X (allocOr err) fun _ => True

theorem Keeps.allocOr {I : Env → Prop} {X : Stop ε → Prop} {err : ε} [h : Serves I X err] :
    Keeps I X (allocOr err) fun _ => True :=
  h.allocOr

/-- An invariant that does not look at the allocator. -/
def Unscripted (I : Env → Prop) : Prop := ∀ e allocs, I e → I { e with allocs }

theorem Keeps.alloc {I : Env → Prop} {X : Stop ε → Prop} (hI : Unscripted I) :
    Keeps I X (alloc : Run ε Bool) fun _ => True := by
  intro e he
  rw [exec_alloc]
  split
  · exact ⟨he, trivial⟩
  · exact ⟨hI e _ he, trivial⟩

/-- Some of the outcomes of `script` are left. -/
def Within (script : List Bool) (e : Env) : Prop := e.allocs <:+ script

/-- An allocation fails only where the script says so. -/
theorem Keeps.alloc_within {script : List Bool} {X : Stop ε → Prop} :
    Keeps (Within script) X (Run.alloc : Run ε Bool) fun served => served = false → false ∈ script := by
  rintro ⟨allocs, log⟩ he
  change allocs <:+ script at he
  rw [exec_alloc]
  cases allocs with
  | nil => exact ⟨he, fun h => by cases h⟩
  | cons b bs =>
    refine ⟨(List.suffix_cons b bs).trans he, ?_⟩
    rintro rfl
    exact he.subset List.mem_cons_self

/-- An allocation reports no error: what it keeps does not depend on the errors of the run. -/
theorem Keeps.alloc_any {I : Env → Prop} {X : Stop ε → Prop} {Y : Stop β → Prop} {Q : Bool → Prop}
    (h : Keeps I X (Run.alloc : Run ε Bool) Q) : Keeps I Y (Run.alloc : Run β Bool) Q := by
  rintro ⟨allocs, log⟩ he
  have hkeep := h ⟨allocs, log⟩ he
  cases allocs with
  | nil => exact hkeep
  | cons b bs => exact hkeep

/-- Allocations keep the invariant, and a failure may end the run. -/
theorem serves_of_alloc {I : Env → Prop} {X : Stop ε → Prop} {Y : Stop β → Prop} {Q : Bool → Prop}
    {err : β} (h : Keeps I X (Run.alloc : Run ε Bool) Q) (herr : Q false → Y (.fail err)) :
    Serves I Y err := by
  refine ⟨Keeps.bind h.alloc_any fun a ha => ?_⟩
  cases a with
  | true => exact Keeps.pure trivial
  | false => exact Keeps.fail (herr ha)

/-- The error stands for an allocation that the script let fail. -/
def FailsWithin (script : List Bool) (err : ε) (stop : Stop ε) : Prop :=
  stop = .fail err ∧ false ∈ script

instance serves_within (script : List Bool) (err : ε) :
    Serves (Within script) (FailsWithin script err) err :=
  serves_of_alloc (Keeps.alloc_within (ε := ε) (X := fun _ => True)) fun h => ⟨rfl, h rfl⟩

/-- Under any script a run returns, or reports an allocation that failed. -/
theorem Keeps.returns_or_fails {x : Run ε α} {Q : α → Prop} {err : ε} {e : Env}
    (h : Keeps (Within e.allocs) (FailsWithin e.allocs err) x Q) :
    (∃ a e', x.exec e = (.ok a, e') ∧ Q a) ∨
      (false ∈ e.allocs ∧ ∃ e', x.exec e = (.error (.fail err), e')) := by
  obtain ⟨-, hQ⟩ := h e (List.suffix_refl e.allocs)
  rcases hx : x.exec e with ⟨stop | a, e'⟩ <;> rw [hx] at hQ
  · obtain ⟨rfl, hfalse⟩ := hQ
    exact .inr ⟨hfalse, e', rfl⟩
  · exact .inl ⟨a, e', rfl, hQ⟩

/-- Whatever the allocator does, when its failure may end the run. -/
theorem serves_of_fail {I : Env → Prop} {X : Stop ε → Prop} {err : ε} (hI : Unscripted I)
    (h : X (.fail err)) : Serves I X err := by
  refine ⟨Keeps.bind (Keeps.alloc hI) fun a _ => ?_⟩
  split
  · exact Keeps.pure trivial
  · exact Keeps.fail h

instance serves_trivial (err : ε) : Serves (fun _ => True) (fun _ => True) err :=
  serves_of_fail (fun _ _ h => h) trivial

/-- The ends that the code reports: whatever the allocator does, there is no fault. -/
def Reported : Stop ε → Prop
  | .fail _ => True
  | .fault _ => False

instance serves_reported (err : ε) : Serves (fun _ => True) Reported err :=
  serves_of_fail (fun _ _ h => h) trivial

/-! ## Runs in which every allocation succeeds -/

/-- No allocation fails from here on. -/
def Quiet (e : Env) : Prop := e.allocs = []

/-- Total correctness: with every allocation served, the run returns a value in `Q`. -/
def Returns (x : Run ε α) (Q : α → Prop) : Prop := Keeps Quiet (fun _ => False) x Q

section Returns

variable {x : Run ε α} {Q : α → Prop}

theorem exec_alloc_quiet {e : Env} (he : Quiet e) :
    (alloc : Run ε Bool).exec e = (.ok true, e) := by
  rw [exec_alloc]
  rw [he]

theorem allocOr_quiet {err : ε} {e : Env} (he : Quiet e) :
    (allocOr err : Run ε Unit).exec e = (.ok (), e) := by
  unfold allocOr
  rw [exec_bind, exec_alloc_quiet he]
  rfl

/-- Where no allocation fails, the environment stays as it is. -/
theorem Keeps.alloc_quiet {e : Env} (he : Quiet e) {X : Stop ε → Prop} :
    Keeps (· = e) X (Run.alloc : Run ε Bool) fun served => served = false → False := by
  rintro _ rfl
  rw [exec_alloc_quiet he]
  exact ⟨rfl, fun h => by cases h⟩

/-- Where no allocation fails, every allocation is served. -/
theorem Keeps.alloc_served {X : Stop ε → Prop} :
    Keeps Quiet X (Run.alloc : Run ε Bool) fun served => served = false → False := by
  intro e he
  rw [exec_alloc_quiet he]
  exact ⟨he, fun h => by cases h⟩

/-- A run that keeps its environment, and is not stopped. -/
theorem Keeps.exec_eq {e : Env} (hx : Keeps (· = e) (fun _ => False) x Q) :
    ∃ a, x.exec e = (.ok a, e) ∧ Q a := by
  obtain ⟨he, hQ⟩ := hx e rfl
  rcases hxe : x.exec e with ⟨s | a, e'⟩ <;> rw [hxe] at he hQ
  · exact hQ.elim
  · exact ⟨a, by rw [← he], hQ⟩

/-- Every allocation is served, or every reported error may end the run. -/
def Served (I : Env → Prop) (X : Stop ε → Prop) : Prop :=
  (∀ e, I e → Quiet e) ∨ (Unscripted I ∧ ∀ err, X (.fail err))

theorem Served.serves {I : Env → Prop} {X : Stop ε → Prop} (h : Served I X) (err : ε) :
    Serves I X err := by
  rcases h with hquiet | ⟨hI, hX⟩
  · refine ⟨fun e he => ?_⟩
    unfold allocOr
    rw [exec_bind, exec_alloc_quiet (hquiet e he)]
    exact ⟨he, trivial⟩
  · exact serves_of_fail hI (hX err)

theorem served_quiet {X : Stop ε → Prop} : Served Quiet X := .inl fun _ he => he

instance serves_quiet {X : Stop ε → Prop} (err : ε) : Serves Quiet X err := served_quiet.serves err

theorem Returns.exec (hx : Returns x Q) {e : Env} (he : Quiet e) :
    ∃ a e', x.exec e = (.ok a, e') ∧ Quiet e' ∧ Q a := by
  obtain ⟨hI, hQ⟩ := hx e he
  rcases hxe : x.exec e with ⟨s | a, e'⟩
  · rw [hxe] at hQ
    exact hQ.elim
  · rw [hxe] at hI hQ
    exact ⟨a, e', rfl, hI, hQ⟩

end Returns

/-! ## What a run can do -/

/-- The run returns the value, under some outcomes of its allocations. -/
def CanReturn (x : Run ε α) (a : α) : Prop := ∃ e e', x.exec e = (.ok a, e')

/-- The run makes the access, under some outcomes of its allocations. -/
def CanAccess (x : Run ε α) (a : Access) : Prop := ∃ allocs, Logged a (x.exec ⟨allocs, []⟩).2

section Can

variable {x : Run ε α} {f : α → Run ε β} {a : Access} {v : α}

theorem CanReturn.pure : CanReturn (Pure.pure v : Run ε α) v := ⟨⟨[], []⟩, ⟨[], []⟩, rfl⟩

/-- An allocation goes either way. -/
theorem CanReturn.alloc (served : Bool) : CanReturn (alloc : Run ε Bool) served :=
  ⟨⟨[served], []⟩, ⟨[], []⟩, rfl⟩

theorem Returns.can {Q : α → Prop} (h : Returns x Q) : ∃ v, CanReturn x v ∧ Q v := by
  obtain ⟨v, e', hrun, -, hv⟩ := h.exec (e := ⟨[], []⟩) rfl
  exact ⟨v, ⟨_, e', hrun⟩, hv⟩

theorem Returns.can_eq (h : Returns x (· = v)) : CanReturn x v := by
  obtain ⟨w, hw, rfl⟩ := h.can
  exact hw

/-- What returns a value can leave any outcomes to what follows. -/
theorem CanReturn.leaving (h : CanReturn x v) : ∃ asked new, ∀ rest log,
    x.exec ⟨asked ++ rest, log⟩ = (.ok v, ⟨rest, new ++ log⟩) := by
  obtain ⟨e, e', hrun⟩ := h
  obtain ⟨asked, new, -, hscript⟩ := x.scripted e
  rw [hrun] at hscript
  exact ⟨asked, new, hscript⟩

theorem CanReturn.catching {δ : Type} (h : CanReturn x v) :
    CanReturn (Run.catching x : Run δ (Except ε α)) (.ok v) := by
  obtain ⟨e, e', hrun⟩ := h
  refine ⟨e, e', ?_⟩
  rw [exec_catching, hrun]

theorem CanReturn.bind {w : β} (hx : CanReturn x v) (hf : CanReturn (f v) w) :
    CanReturn (x >>= f) w := by
  obtain ⟨asked, new, hrun⟩ := hx.leaving
  obtain ⟨asked', new', hrun'⟩ := hf.leaving
  refine ⟨⟨asked ++ (asked' ++ []), []⟩, ⟨[], new' ++ (new ++ [])⟩, ?_⟩
  rw [exec_bind, hrun]
  exact hrun' [] (new ++ [])

/-- What a run leaves in the log was there, or is an access that it can make. -/
theorem CanAccess.of_logged {e : Env} (h : Logged a (x.exec e).2) : Logged a e ∨ CanAccess x a := by
  obtain ⟨asked, new, hlog, hscript⟩ := x.scripted e
  rw [Logged, hlog] at h
  refine (List.mem_append.mp h).symm.imp_right fun hnew => ⟨asked ++ [], ?_⟩
  rw [hscript]
  exact List.mem_append_left [] hnew

/-- The log holds such accesses alone. -/
def LogsOnly (P : Access → Prop) (e : Env) : Prop := ∀ a, Logged a e → P a

theorem admits_logsOnly {P : Access → Prop} (h : P a) : Admits (LogsOnly P) a := by
  intro e he b hb
  rcases List.mem_cons.mp hb with rfl | hb
  · exact h
  · exact he b hb

/-- An access that a run can make is one of those that it keeps to. -/
theorem CanAccess.of_keeps {P : Access → Prop} {X : Stop ε → Prop} {Q : α → Prop}
    (hkeeps : Keeps (LogsOnly P) X x Q) (h : CanAccess x a) : P a := by
  obtain ⟨allocs, hlogged⟩ := h
  have hnone : LogsOnly P ⟨allocs, []⟩ := fun b hb => by cases hb
  exact (hkeeps _ hnone).1 a hlogged

/-- An access that a run can make does not depend on what was accessed before. -/
theorem CanAccess.exec (h : CanAccess x a) (log : List Access) :
    ∃ allocs, Logged a (x.exec ⟨allocs, log⟩).2 := by
  obtain ⟨allocs, hmem⟩ := h
  obtain ⟨asked, new, hlog, hscript⟩ := x.scripted ⟨allocs, []⟩
  rw [Logged, hlog, List.append_nil] at hmem
  refine ⟨asked ++ [], ?_⟩
  rw [hscript]
  exact List.mem_append_left log hmem

theorem CanAccess.touch : CanAccess (Run.touch a : Run ε Unit) a := ⟨[], List.mem_cons_self⟩

theorem CanAccess.first (hx : CanAccess x a) : CanAccess (x >>= f) a := by
  obtain ⟨allocs, hlogged⟩ := hx
  exact ⟨allocs, logged_first hlogged⟩

theorem CanAccess.catching {δ : Type} (h : CanAccess x a) :
    CanAccess (Run.catching x : Run δ (Except ε α)) a := by
  obtain ⟨allocs, hlogged⟩ := h
  refine ⟨allocs, ?_⟩
  rw [exec_catching]
  rcases hx : x.exec ⟨allocs, []⟩ with ⟨(f | err) | v, e'⟩ <;> rw [hx] at hlogged <;> exact hlogged

/-- An access after a part that returns. -/
theorem CanReturn.access (hx : CanReturn x v) (hf : CanAccess (f v) a) : CanAccess (x >>= f) a := by
  obtain ⟨asked, new, hrun⟩ := hx.leaving
  obtain ⟨allocs, hlogged⟩ := hf.exec (new ++ [])
  refine ⟨asked ++ allocs, ?_⟩
  rw [exec_bind, hrun]
  exact hlogged

theorem Returns.access {Q : α → Prop} (hx : Returns x Q) (hf : ∀ v, Q v → CanAccess (f v) a) :
    CanAccess (x >>= f) a := by
  obtain ⟨v, hv, hQ⟩ := hx.can
  exact hv.access (hf v hQ)

/-- A loop whose turns return makes the accesses of each of them. -/
theorem CanAccess.foldlM {g : σ → α → Run ε σ} {l : List α} {b : α} (hb : b ∈ l)
    (hreturn : ∀ s, ∀ c ∈ l, ∃ s', CanReturn (g s c) s') (haccess : ∀ s, CanAccess (g s b) a) (s : σ) :
    CanAccess (l.foldlM g s) a := by
  induction l generalizing s with
  | nil => cases hb
  | cons c l ih =>
    rw [List.foldlM_cons]
    rcases List.mem_cons.mp hb with rfl | hb
    · exact (haccess s).first
    · obtain ⟨s', hs'⟩ := hreturn s c List.mem_cons_self
      exact hs'.access (ih hb (fun s d hd => hreturn s d (List.mem_cons_of_mem c hd)) s')

end Can

/-! ## Two runs side by side -/

/-- From one environment in `I` the two runs make the same accesses and allocations, and return
values in `R` or stop alike. -/
def Sim (I : Env → Prop) (R : α → β → Prop) (x : Run ε α) (y : Run ε β) : Prop :=
  ∀ e, I e → (x.exec e).2 = (y.exec e).2 ∧ I (x.exec e).2 ∧
    match (x.exec e).1, (y.exec e).1 with
    | .ok a, .ok b => R a b
    | .error s, .error t => s = t
    | _, _ => False

section Sim

variable {I : Env → Prop} {γ δ : Type} {R : α → β → Prop} {S : γ → δ → Prop}

theorem Sim.pure {a : α} {b : β} (h : R a b) : Sim I R (pure a : Run ε α) (pure b) :=
  fun _ he => ⟨rfl, he, h⟩

theorem Sim.refl {x : Run ε α} {X : Stop ε → Prop} {Q : α → Prop} (h : Keeps I X x Q) :
    Sim I (· = ·) x x := by
  intro e he
  refine ⟨rfl, (h e he).1, ?_⟩
  cases (x.exec e).1 <;> rfl

theorem Sim.bind {x : Run ε α} {y : Run ε β} {f : α → Run ε γ} {g : β → Run ε δ}
    (hxy : Sim I R x y) (hfg : ∀ a b, R a b → Sim I S (f a) (g b)) :
    Sim I S (x >>= f) (y >>= g) := by
  intro e he
  obtain ⟨henv, hI, hR⟩ := hxy e he
  rw [exec_bind, exec_bind]
  rcases hx : x.exec e with ⟨s | a, ex⟩ <;> rcases hy : y.exec e with ⟨t | b, ey⟩ <;>
    rw [hx, hy] at henv hR <;> rw [hx] at hI
  · exact ⟨henv, hI, hR⟩
  · exact hR.elim
  · exact hR.elim
  · cases henv
    exact hfg a b hR _ hI

end Sim

end Run

end Ipa
