import Ipa.Lib.Run

/-!
# Code that asks

A program asks questions of somebody else and goes on with the answers. Where every question `q` is
answered with `answer q`, it does what the code does that calls `answer` itself; so whoever answers
may be left open until it is known how the answers come about.
-/

namespace Ipa

variable {Q A R S ε α β : Type}

inductive Asking (Q A R : Type)
  | ret (r : R)
  | ask (q : Q) (more : A → Asking Q A R)

namespace Asking

def bind : Asking Q A R → (R → Asking Q A S) → Asking Q A S
  | ret r, f => f r
  | ask q more, f => ask q fun a => (more a).bind f

/-- The result, when the questions are answered by a function. -/
def answered (answer : Q → A) : Asking Q A R → R
  | ret r => r
  | ask q more => (more (answer q)).answered answer

/-- The number of questions. -/
def asked (answer : Q → A) : Asking Q A R → ℕ
  | ret _ => 0
  | ask q more => (more (answer q)).asked answer + 1

@[simp] theorem answered_ret (answer : Q → A) (r : R) :
    (ret r : Asking Q A R).answered answer = r := rfl

@[simp] theorem answered_ask (answer : Q → A) (q : Q) (more : A → Asking Q A R) :
    (ask q more).answered answer = (more (answer q)).answered answer := rfl

@[simp] theorem asked_ask (answer : Q → A) (q : Q) (more : A → Asking Q A R) :
    (ask q more).asked answer = (more (answer q)).asked answer + 1 := rfl

theorem answered_bind (answer : Q → A) (x : Asking Q A R) (f : R → Asking Q A S) :
    (x.bind f).answered answer = (f (x.answered answer)).answered answer := by
  induction x with
  | ret r => rfl
  | ask q more ih => exact ih (answer q)

end Asking

/-- A run of C code that asks; whatever the answers are, it does to its environment what a run
does. -/
structure AskingRun (Q A ε α : Type) where
  exec : Env → Asking Q A (Except (Stop ε) α × Env)
  scripted : ∀ answer, Scripted fun e => (exec e).answered answer

namespace AskingRun

/-- The code that calls a function instead. -/
def against (answer : Q → A) (x : AskingRun Q A ε α) : Run ε α :=
  ⟨fun e => (x.exec e).answered answer, x.scripted answer⟩

/-- How code goes on with what came before. -/
def next (f : α → AskingRun Q A ε β) : Except (Stop ε) α × Env → Asking Q A (Except (Stop ε) β × Env)
  | (.ok a, e) => (f a).exec e
  | (.error s, e) => .ret (.error s, e)

theorem answered_next (answer : Q → A) (x : AskingRun Q A ε α) (f : α → AskingRun Q A ε β)
    (e : Env) : ((x.exec e).bind (next f)).answered answer =
      (x.against answer >>= fun a => (f a).against answer).exec e := by
  rw [Asking.answered_bind, Run.exec_bind]
  change _ = match (x.exec e).answered answer with
    | (.ok a, e') => ((f a).against answer).exec e'
    | (.error s, e') => (.error s, e')
  rcases (x.exec e).answered answer with ⟨s | a, e'⟩ <;> rfl

instance : Monad (AskingRun Q A ε) where
  pure a := ⟨fun e => .ret (.ok a, e), fun _ => .const _⟩
  bind x f := ⟨fun e => (x.exec e).bind (next f), fun answer => by
    rw [funext (answered_next answer x f)]
    exact Run.scripted _⟩

/-- Code that asks nothing. -/
def lift (x : Run ε α) : AskingRun Q A ε α := ⟨fun e => .ret (x.exec e), fun _ => x.scripted⟩

def ask (q : Q) : AskingRun Q A ε A :=
  ⟨fun e => .ask q fun a => .ret (.ok a, e), fun answer => .const (.ok (answer q))⟩

@[simp] theorem against_pure (answer : Q → A) (a : α) :
    (pure a : AskingRun Q A ε α).against answer = pure a := rfl

@[simp] theorem against_lift (answer : Q → A) (x : Run ε α) :
    (lift x : AskingRun Q A ε α).against answer = x := rfl

@[simp] theorem against_ask (answer : Q → A) (q : Q) :
    (ask q : AskingRun Q A ε A).against answer = pure (answer q) := rfl

@[simp] theorem against_bind (answer : Q → A) (x : AskingRun Q A ε α)
    (f : α → AskingRun Q A ε β) :
    (x >>= f).against answer = x.against answer >>= fun a => (f a).against answer :=
  Run.ext (answered_next answer x f)

end AskingRun

end Ipa
