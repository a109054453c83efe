import Ipa.Lib.Run

/-!
# Commands over a memory

A command is a run over a memory. Unlike the value of a run, the memory outlives an error: a caller
finds it as the failure left it, after the cleanup that the command itself runs.

`Simulates P c x Q F` relates a command to a run that works on values: from a memory in `P` they use
the allocator alike, what they return is in `Q`, where the run reports an error the command reports
the same and leaves a memory in `F`, and they end with the same faults.
-/

namespace Ipa

/-- A run over a memory of type `μ`. -/
def Cmd (μ ε α : Type) : Type := μ → Env → Except (Stop ε) α × μ × Env

namespace Cmd

variable {μ ε α β γ δ : Type}

def exec (c : Cmd μ ε α) (m : μ) (e : Env) : Except (Stop ε) α × μ × Env := c m e

instance : Monad (Cmd μ ε) where
  pure a := fun m e => (.ok a, m, e)
  bind c f := fun m e => match c m e with
    | (.ok a, m', e') => f a m' e'
    | (.error s, m', e') => (.error s, m', e')

instance : LawfulMonad (Cmd μ ε) := LawfulMonad.mk' (Cmd μ ε)
  (fun c => by
    funext m e
    change (match c m e with
      | (.ok a, m', e') => (.ok (id a), m', e')
      | (.error s, m', e') => (.error s, m', e')) = c m e
    rcases c m e with ⟨_ | _, _, _⟩ <;> rfl)
  (fun _ _ => rfl)
  (fun c f g => by
    funext m e
    change (match (match c m e with
        | (.ok a, m', e') => f a m' e'
        | (.error s, m', e') => (.error s, m', e')) with
      | (.ok b, m', e') => g b m' e'
      | (.error s, m', e') => (.error s, m', e')) = (match c m e with
        | (.ok a, m', e') => (match f a m' e' with
          | (.ok b, m'', e'') => g b m'' e''
          | (.error s, m'', e'') => (.error s, m'', e''))
        | (.error s, m', e') => (.error s, m', e'))
    rcases c m e with ⟨_ | _, _, _⟩ <;> rfl)

/-- A run that leaves the memory alone. -/
def lift (x : Run ε α) : Cmd μ ε α := fun m e => ((x.exec e).1, m, (x.exec e).2)

def get : Cmd μ ε μ := fun m e => (.ok m, m, e)

def put (m : μ) : Cmd μ ε Unit := fun _ e => (.ok (), m, e)

def fault (f : Fault) : Cmd μ ε α := lift (Run.fault f)

/-- An error of `c` is reported after `cleanup` ran on the memory that it left. -/
def onFail (c : Cmd μ ε α) (cleanup : Cmd μ ε Unit) : Cmd μ ε α := fun m e => match c m e with
  | (.error (.fail err), m', e') => match cleanup m' e' with
    | (.ok (), m'', e'') => (.error (.fail err), m'', e'')
    | (.error s, m'', e'') => (.error s, m'', e'')
  | r => r

/-- What `c` returned or reported; a fault is not caught. -/
def attempt (c : Cmd μ ε α) : Cmd μ δ (Except ε α) := fun m e => match c m e with
  | (.ok a, m', e') => (.ok (.ok a), m', e')
  | (.error (.fail err), m', e') => (.ok (.error err), m', e')
  | (.error (.fault f), m', e') => (.error (.fault f), m', e')

@[simp] theorem exec_pure (a : α) (m : μ) (e : Env) :
    (pure a : Cmd μ ε α).exec m e = (.ok a, m, e) := rfl

theorem exec_bind (c : Cmd μ ε α) (f : α → Cmd μ ε β) (m : μ) (e : Env) :
    (c >>= f).exec m e = match c.exec m e with
      | (.ok a, m', e') => (f a).exec m' e'
      | (.error s, m', e') => (.error s, m', e') := rfl

@[simp] theorem exec_lift (x : Run ε α) (m : μ) (e : Env) :
    (lift x : Cmd μ ε α).exec m e = ((x.exec e).1, m, (x.exec e).2) := rfl

@[simp] theorem exec_get (m : μ) (e : Env) : (get : Cmd μ ε μ).exec m e = (.ok m, m, e) := rfl

@[simp] theorem exec_put (m m' : μ) (e : Env) :
    (put m' : Cmd μ ε Unit).exec m e = (.ok (), m', e) := rfl

theorem exec_attempt (c : Cmd μ ε α) (m : μ) (e : Env) :
    (attempt c : Cmd μ δ (Except ε α)).exec m e = match c.exec m e with
      | (.ok a, m', e') => (.ok (.ok a), m', e')
      | (.error (.fail err), m', e') => (.ok (.error err), m', e')
      | (.error (.fault f), m', e') => (.error (.fault f), m', e') := rfl

/-- A command in two parts is attempted part by part. -/
theorem attempt_bind (c : Cmd μ ε α) (f : α → Cmd μ ε β) :
    (attempt (c >>= f) : Cmd μ δ (Except ε β)) = attempt c >>= fun
      | .ok a => attempt (f a)
      | .error err => pure (.error err) := by
  funext m e
  change (attempt (c >>= f)).exec m e = (attempt c >>= _).exec m e
  rw [exec_attempt, exec_bind, exec_bind, exec_attempt]
  rcases c.exec m e with ⟨(_ | _) | _, _, _⟩ <;> rfl

/-! ## Silent commands -/

/-- From a memory in `P` the command returns, without a call of the allocator. -/
def Does (P : μ → Prop) (c : Cmd μ ε α) (Q : α → μ → Prop) : Prop :=
  ∀ m e, P m → ∃ a m', c.exec m e = (.ok a, m', e) ∧ Q a m'

section Does

variable {P : μ → Prop} {Q : α → μ → Prop} {R : β → μ → Prop} {c : Cmd μ ε α}

theorem Does.pure {a : α} (h : ∀ m, P m → Q a m) : Does P (pure a : Cmd μ ε α) Q :=
  fun m _ hm => ⟨a, m, rfl, h m hm⟩

theorem Does.lift_pure {a : α} : Does P (lift (Pure.pure a) : Cmd μ ε α) fun b m => b = a ∧ P m :=
  fun m _ hm => ⟨a, m, rfl, rfl, hm⟩

theorem Does.bind {f : α → Cmd μ ε β} (hc : Does P c Q) (hf : ∀ a, Does (Q a) (f a) R) :
    Does P (c >>= f) R := by
  intro m e hm
  obtain ⟨a, m', hrun, hQ⟩ := hc m e hm
  obtain ⟨b, m'', hrun', hR⟩ := hf a m' e hQ
  refine ⟨b, m'', ?_, hR⟩
  rw [exec_bind, hrun]
  exact hrun'

end Does

/-- From a memory in `P` the command ends with the fault, without a call of the allocator. -/
def Faults (P : μ → Prop) (c : Cmd μ ε α) (f : Fault) : Prop :=
  ∀ m e, P m → ∃ m', c.exec m e = (.error (.fault f), m', e)

theorem Faults.fault {P : μ → Prop} {f : Fault} : Faults P (Cmd.fault f : Cmd μ ε α) f :=
  fun m _ _ => ⟨m, rfl⟩

theorem Faults.bind {P : μ → Prop} {c : Cmd μ ε α} {f : Fault} {g : α → Cmd μ ε β}
    (h : Faults P c f) : Faults P (c >>= g) f := by
  intro m e hm
  obtain ⟨m', hrun⟩ := h m e hm
  refine ⟨m', ?_⟩
  rw [exec_bind, hrun]

theorem Does.faults {P : μ → Prop} {Q : α → μ → Prop} {c : Cmd μ ε α} {f : Fault}
    {g : α → Cmd μ ε β} (hc : Does P c Q) (hg : ∀ a, Faults (Q a) (g a) f) :
    Faults P (c >>= g) f := by
  intro m e hm
  obtain ⟨a, m', hrun, hQ⟩ := hc m e hm
  rw [exec_bind, hrun]
  exact hg a m' e hQ

theorem Does.faults_known {P P' : μ → Prop} {v : α} {s : Cmd μ ε α} {g : α → Cmd μ ε β} {f : Fault}
    (hs : Does P s fun a m => a = v ∧ P' m) (h : Faults P' (g v) f) : Faults P (s >>= g) f := by
  refine hs.faults fun a m e hm => ?_
  obtain ⟨rfl, hP⟩ := hm
  exact h m e hP

/-! ## Simulation -/

def Simulates (P : μ → Prop) (c : Cmd μ ε α) (x : Run ε β) (Q : α → β → μ → Prop)
    (F : μ → Prop) : Prop :=
  ∀ m e, P m → match x.exec e with
    | (.ok b, e') => ∃ a m', c.exec m e = (.ok a, m', e') ∧ Q a b m'
    | (.error (.fail err), e') => ∃ m', c.exec m e = (.error (.fail err), m', e') ∧ F m'
    | (.error (.fault f), e') => ∃ m', c.exec m e = (.error (.fault f), m', e')

section Simulates

variable {P : μ → Prop} {Q : α → β → μ → Prop} {F : μ → Prop} {c : Cmd μ ε α} {x : Run ε β}

theorem Simulates.pure {a : α} {b : β} (h : ∀ m, P m → Q a b m) :
    Simulates P (pure a : Cmd μ ε α) (pure b : Run ε β) Q F :=
  fun m _ hm => ⟨a, m, rfl, h m hm⟩

theorem Faults.simulates {f : Fault} (h : Faults P c f) :
    Simulates P c (Run.fault f : Run ε β) Q F :=
  fun m e hm => h m e hm

/-- One run on both sides. -/
theorem Simulates.lift {x : Run ε α} (hF : ∀ m, P m → F m) :
    Simulates P (lift x) x (fun a b m => a = b ∧ P m) F := by
  intro m e hm
  rcases hx : x.exec e with ⟨(f | err) | b, e'⟩
  · refine ⟨m, ?_⟩
    rw [exec_lift, hx]
  · refine ⟨m, ?_, hF m hm⟩
    rw [exec_lift, hx]
  · refine ⟨b, m, ?_, rfl, hm⟩
    rw [exec_lift, hx]

theorem Simulates.bind {f : α → Cmd μ ε γ} {g : β → Run ε δ} {R : γ → δ → μ → Prop}
    (h : Simulates P c x Q F) (hf : ∀ a b, Simulates (Q a b) (f a) (g b) R F) :
    Simulates P (c >>= f) (x >>= g) R F := by
  intro m e hm
  have hrun := h m e hm
  rw [Run.exec_bind, exec_bind]
  rcases hx : x.exec e with ⟨(f | err) | b, e'⟩ <;> rw [hx] at hrun
  · obtain ⟨m', hc⟩ := hrun
    refine ⟨m', ?_⟩
    rw [hc]
  · obtain ⟨m', hc, hF⟩ := hrun
    refine ⟨m', ?_, hF⟩
    rw [hc]
  · obtain ⟨a, m', hc, hQ⟩ := hrun
    simp only [hc]
    exact hf a b m' e' hQ

theorem Simulates.mono {P' : μ → Prop} {Q' : α → β → μ → Prop} (h : Simulates P c x Q F)
    (hP : ∀ m, P' m → P m) (hQ : ∀ a b m, Q a b m → Q' a b m) : Simulates P' c x Q' F := by
  intro m e hm
  have hrun := h m e (hP m hm)
  rcases hx : x.exec e with ⟨(f | err) | b, e'⟩ <;> rw [hx] at hrun
  · exact hrun
  · exact hrun
  · obtain ⟨a, m', hc, hq⟩ := hrun
    exact ⟨a, m', hc, hQ a b m' hq⟩

/-- A silent command before the one that simulates. -/
theorem Does.simulates {R : γ → μ → Prop} {s : Cmd μ ε γ} {f : γ → Cmd μ ε α} (hs : Does P s R)
    (h : ∀ a, Simulates (R a) (f a) x Q F) : Simulates P (s >>= f) x Q F := by
  intro m e hm
  obtain ⟨a, m', hrun, hR⟩ := hs m e hm
  rw [exec_bind, hrun]
  exact h a m' e hR

theorem Does.last {b : β} (hc : Does P c fun a m => Q a b m) :
    Simulates P c (Pure.pure b : Run ε β) Q F :=
  fun m e hm => hc m e hm

/-- A silent command with a known value. -/
theorem Does.known {P' : μ → Prop} {v : γ} {s : Cmd μ ε γ} {f : γ → Cmd μ ε α}
    (hs : Does P s fun a m => a = v ∧ P' m) (h : Simulates P' (f v) x Q F) :
    Simulates P (s >>= f) x Q F := by
  refine hs.simulates fun a m e hm => ?_
  obtain ⟨rfl, hP⟩ := hm
  exact h m e hP

/-- What does not depend on the memory. -/
theorem Simulates.of_and {p : Prop} (h : p → Simulates P c x Q F) :
    Simulates (fun m => p ∧ P m) c x Q F :=
  fun m e hm => h hm.1 m e hm.2

/-- The rule for a counting loop. -/
theorem Simulates.foldlM_range {f : α → Nat → Cmd μ ε α} {g : β → Nat → Run ε β}
    (R : Nat → α → β → μ → Prop) (n : Nat)
    (h : ∀ i, i < n → ∀ a b, Simulates (R i a b) (f a i) (g b i) (R (i + 1)) F) (a : α) (b : β) :
    Simulates (R 0 a b) ((List.range n).foldlM f a) ((List.range n).foldlM g b) (R n) F := by
  induction n with
  | zero => exact Simulates.pure fun _ hm => hm
  | succ n ih =>
    rw [List.range_succ, List.foldlM_append, List.foldlM_append]
    refine (ih fun i hi => h i (Nat.lt_succ_of_lt hi)).bind fun a' b' => ?_
    rw [List.foldlM_cons, List.foldlM_cons]
    exact (h n (Nat.lt_succ_self n) a' b').bind fun _ _ => Simulates.pure fun _ hm => hm

/-- What is known of the values of the run. -/
theorem Simulates.keeps {R : β → Prop} (h : Simulates P c x Q F)
    (hx : Run.Keeps (fun _ => True) (fun _ => True) x R) :
    Simulates P c x (fun a b m => R b ∧ Q a b m) F := by
  intro m e hm
  have hrun := h m e hm
  obtain ⟨-, hR⟩ := hx e trivial
  rcases hexec : x.exec e with ⟨(f | err) | b, e'⟩ <;> rw [hexec] at hrun hR
  · exact hrun
  · exact hrun
  · obtain ⟨a, m', hc, hQ⟩ := hrun
    exact ⟨a, m', hc, hR, hQ⟩

/-- The cleanup takes the memory of a failure to one in `G`. -/
theorem Simulates.onFail {cleanup : Cmd μ ε Unit} {G : μ → Prop} (h : Simulates P c x Q F)
    (hclean : Does F cleanup fun _ m => G m) : Simulates P (c.onFail cleanup) x Q G := by
  intro m e hm
  have hrun := h m e hm
  rcases hx : x.exec e with ⟨(f | err) | b, e'⟩ <;> rw [hx] at hrun
  · obtain ⟨m', hc⟩ := hrun
    refine ⟨m', ?_⟩
    change (match c.exec m e with | (.error (.fail err), m', e') => _ | r => r) = _
    rw [hc]
  · obtain ⟨m', hc, hF⟩ := hrun
    obtain ⟨_, m'', hran, hG⟩ := hclean m' e' hF
    refine ⟨m'', ?_, hG⟩
    change (match c.exec m e with | (.error (.fail err), m', e') => _ | r => r) = _
    rw [hc]
    change (match cleanup.exec m' e' with | (.ok (), m'', e'') => _ | (.error s, m'', e'') => _) = _
    rw [hran]
  · obtain ⟨a, m', hc, hQ⟩ := hrun
    refine ⟨a, m', ?_, hQ⟩
    change (match c.exec m e with | (.error (.fail err), m', e') => _ | r => r) = _
    rw [hc]

/-- The caller sees the value or the error on both sides. -/
theorem Simulates.attempt {G : μ → Prop} (h : Simulates P c x Q F) :
    Simulates P (attempt c : Cmd μ δ (Except ε α)) (Run.catching x) (fun r r' m => match r, r' with
      | .ok a, .ok b => Q a b m
      | .error err, .error err' => err = err' ∧ F m
      | _, _ => False) G := by
  intro m e hm
  have hrun := h m e hm
  rw [Run.exec_catching, exec_attempt]
  rcases hx : x.exec e with ⟨(f | err) | b, e'⟩ <;> rw [hx] at hrun
  · obtain ⟨m', hc⟩ := hrun
    refine ⟨m', ?_⟩
    rw [hc]
  · obtain ⟨m', hc, hF⟩ := hrun
    refine ⟨.error err, m', ?_, rfl, hF⟩
    rw [hc]
  · obtain ⟨a, m', hc, hQ⟩ := hrun
    refine ⟨.ok a, m', ?_, hQ⟩
    rw [hc]

end Simulates

/-! ## What a command leaves -/

/-- From a memory in `P` a return leaves `Q`, and an error leaves `F`. -/
structure Leaves (P : μ → Prop) (c : Cmd μ ε α) (Q : α → μ → Prop) (F : μ → Prop) : Prop where
  ok : ∀ {m e a m' e'}, P m → c.exec m e = (.ok a, m', e') → Q a m'
  fail : ∀ {m e err m' e'}, P m → c.exec m e = (.error (.fail err), m', e') → F m'

section Leaves

variable {P : μ → Prop} {Q : α → μ → Prop} {R : β → μ → Prop} {F : μ → Prop} {c : Cmd μ ε α}

theorem Leaves.pure {a : α} (h : ∀ m, P m → Q a m) : Leaves P (pure a : Cmd μ ε α) Q F where
  ok hm hrun := by
    cases hrun
    exact h _ hm
  fail _ hrun := by cases hrun

theorem Leaves.fault {f : Fault} : Leaves P (Cmd.fault f : Cmd μ ε α) Q F where
  ok _ hrun := by cases hrun
  fail _ hrun := by cases hrun

theorem Leaves.get : Leaves P (get : Cmd μ ε μ) (fun a m => a = m ∧ P m) F where
  ok hm hrun := by
    cases hrun
    exact ⟨rfl, hm⟩
  fail _ hrun := by cases hrun

/-- A run does not change the memory. -/
theorem Leaves.lift {x : Run ε α} (hF : ∀ m, P m → F m) :
    Leaves P (lift x) (fun _ m => P m) F where
  ok hm hrun := by
    rw [exec_lift, Prod.mk.injEq, Prod.mk.injEq] at hrun
    rwa [← hrun.2.1]
  fail hm hrun := by
    rw [exec_lift, Prod.mk.injEq, Prod.mk.injEq] at hrun
    rw [← hrun.2.1]
    exact hF _ hm

theorem Leaves.bind {f : α → Cmd μ ε β} (hc : Leaves P c Q F) (hf : ∀ a, Leaves (Q a) (f a) R F) :
    Leaves P (c >>= f) R F where
  ok := by
    intro m e b m' e' hm hrun
    rw [exec_bind] at hrun
    rcases hx : c.exec m e with ⟨stop | a, m₁, e₁⟩ <;> rw [hx] at hrun
    · cases hrun
    · exact (hf a).ok (hc.ok hm hx) hrun
  fail := by
    intro m e err m' e' hm hrun
    rw [exec_bind] at hrun
    rcases hx : c.exec m e with ⟨stop | a, m₁, e₁⟩ <;> rw [hx] at hrun
    · cases hrun
      exact hc.fail hm hx
    · exact (hf a).fail (hc.ok hm hx) hrun

theorem Leaves.mono {P' : μ → Prop} {Q' : α → μ → Prop} {F' : μ → Prop} (h : Leaves P c Q F)
    (hP : ∀ m, P' m → P m) (hQ : ∀ a m, Q a m → Q' a m) (hF : ∀ m, F m → F' m) :
    Leaves P' c Q' F' where
  ok hm hrun := hQ _ _ (h.ok (hP _ hm) hrun)
  fail hm hrun := hF _ (h.fail (hP _ hm) hrun)

/-- What is known of the memory before the command. -/
theorem Leaves.from (h : ∀ m, P m → Leaves (· = m) c Q F) : Leaves P c Q F where
  ok hm hrun := (h _ hm).ok rfl hrun
  fail hm hrun := (h _ hm).fail rfl hrun

theorem Does.leaves (h : Does P c Q) : Leaves P c Q F where
  ok hm hrun := by
    obtain ⟨a, m', hdone, hQ⟩ := h _ _ hm
    rw [hdone] at hrun
    cases hrun
    exact hQ
  fail hm hrun := by
    obtain ⟨a, m', hdone, -⟩ := h _ _ hm
    rw [hdone] at hrun
    cases hrun

/-- A command with a known value. -/
theorem Leaves.known {P' : μ → Prop} {v : α} {f : α → Cmd μ ε β}
    (hc : Leaves P c (fun a m => a = v ∧ P' m) F) (h : Leaves P' (f v) R F) :
    Leaves P (c >>= f) R F :=
  hc.bind fun _ => {
    ok := fun hm hrun => h.ok hm.2 (hm.1 ▸ hrun)
    fail := fun hm hrun => h.fail hm.2 (hm.1 ▸ hrun) }

theorem Leaves.onFail {cleanup : Cmd μ ε Unit} {G G' : μ → Prop} (h : Leaves P c Q F)
    (hclean : Leaves F cleanup (fun _ m => G m) G') (hG : ∀ m, G' m → G m) :
    Leaves P (c.onFail cleanup) Q G where
  ok := by
    intro m e a m' e' hm hrun
    change (match c.exec m e with | (.error (.fail err), m', e') => _ | r => r) = _ at hrun
    rcases hx : c.exec m e with ⟨(f | err) | b, m₁, e₁⟩ <;> rw [hx] at hrun
    · cases hrun
    · change (match cleanup.exec m₁ e₁ with
        | (.ok (), m'', e'') => _
        | (.error s, m'', e'') => _) = _ at hrun
      rcases hy : cleanup.exec m₁ e₁ with ⟨stop | u, m₂, e₂⟩ <;> rw [hy] at hrun <;> cases hrun
    · cases hrun
      exact h.ok hm hx
  fail := by
    intro m e err' m' e' hm hrun
    change (match c.exec m e with | (.error (.fail err), m', e') => _ | r => r) = _ at hrun
    rcases hx : c.exec m e with ⟨(f | err) | b, m₁, e₁⟩ <;> rw [hx] at hrun
    · cases hrun
    · change (match cleanup.exec m₁ e₁ with
        | (.ok (), m'', e'') => _
        | (.error s, m'', e'') => _) = _ at hrun
      rcases hy : cleanup.exec m₁ e₁ with ⟨stop | u, m₂, e₂⟩ <;> rw [hy] at hrun
      · cases hrun
        exact hG _ (hclean.fail (h.fail hm hx) hy)
      · cases hrun
        exact hclean.ok (h.fail hm hx) hy
    · cases hrun

/-- What both a return and an error leave is left by the attempt. -/
theorem Leaves.attempt {G : μ → Prop} (h : Leaves P c (fun _ m => G m) G) :
    Leaves P (attempt c : Cmd μ δ (Except ε α)) (fun _ m => G m) F where
  ok := by
    intro m e r m' e' hm hrun
    rw [exec_attempt] at hrun
    rcases hx : c.exec m e with ⟨(f | err) | a, m₁, e₁⟩ <;> rw [hx] at hrun
    · cases hrun
    · cases hrun
      exact h.fail hm hx
    · cases hrun
      exact h.ok hm hx
  fail := by
    intro m e err m' e' hm hrun
    rw [exec_attempt] at hrun
    rcases hx : c.exec m e with ⟨(f | err) | a, m₁, e₁⟩ <;> rw [hx] at hrun <;> cases hrun

/-- The rule for a counting loop. -/
theorem Leaves.foldlM_range {f : α → Nat → Cmd μ ε α} (I : Nat → α → μ → Prop) (n : Nat)
    (h : ∀ i, i < n → ∀ a, Leaves (I i a) (f a i) (I (i + 1)) F) (a : α) :
    Leaves (I 0 a) ((List.range n).foldlM f a) (I n) F := by
  induction n with
  | zero => exact Leaves.pure fun _ hm => hm
  | succ n ih =>
    rw [List.range_succ, List.foldlM_append]
    refine (ih fun i hi => h i (Nat.lt_succ_of_lt hi)).bind fun a' => ?_
    rw [List.foldlM_cons]
    exact (h n (Nat.lt_succ_self n) a').bind fun _ => Leaves.pure fun _ hm => hm

/-- A counting loop of silent commands. -/
theorem Does.foldlM_range {f : α → Nat → Cmd μ ε α} (I : Nat → α → μ → Prop) (n : Nat)
    (h : ∀ i, i < n → ∀ a, Does (I i a) (f a i) (I (i + 1))) (a : α) :
    Does (I 0 a) ((List.range n).foldlM f a) (I n) := by
  induction n with
  | zero => exact Does.pure fun _ hm => hm
  | succ n ih =>
    rw [List.range_succ, List.foldlM_append]
    refine (ih fun i hi => h i (Nat.lt_succ_of_lt hi)).bind fun a' => ?_
    rw [List.foldlM_cons]
    exact (h n (Nat.lt_succ_self n) a').bind fun _ => Does.pure fun _ hm => hm

end Leaves

end Cmd

end Ipa
