import Mathlib.Tactic.Linarith

/-!
# Transition systems

A machine has states to start in and labelled steps. `Reached ok` are the states of the runs in
which every step is one that `ok` allows where it is taken; with nothing forbidden these are the
reachable states. An invariant that holds at the start and that every allowed step keeps holds in
every reached state.

An execution goes on for ever. Where an action that can be taken from some point on is taken
sooner or later, a state that lasts until that action, and allows it, leads to it.
-/

namespace Ipa

structure Machine (σ α : Type) where
  Start : σ → Prop
  Step : σ → α → σ → Prop

namespace Machine

variable {σ α : Type} (m : Machine σ α)

/-- Reached by allowed steps. -/
inductive Reached (ok : σ → α → Prop) : σ → Prop
  | start {s : σ} (h : m.Start s) : Reached ok s
  | step {s s' : σ} {a : α} (reached : Reached ok s) (allowed : ok s a) (h : m.Step s a s') :
    Reached ok s'

/-- Reached by any steps. -/
def Reachable : σ → Prop := m.Reached fun _ _ => True

variable {m} {ok : σ → α → Prop}

/-- **The rule of invariants.** -/
theorem Reached.invariant {s : σ} (h : m.Reached ok s) (Inv : σ → Prop)
    (hstart : ∀ s, m.Start s → Inv s)
    (hstep : ∀ s a s', Inv s → ok s a → m.Step s a s' → Inv s') : Inv s := by
  induction h with
  | start h => exact hstart _ h
  | step _ allowed h ih => exact hstep _ _ _ ih allowed h

theorem Reached.mono {ok' : σ → α → Prop} {s : σ} (h : m.Reached ok s)
    (hok : ∀ s a, ok s a → ok' s a) : m.Reached ok' s := by
  induction h with
  | start h => exact .start h
  | step _ allowed h ih => exact .step ih (hok _ _ allowed) h

theorem Reached.reachable {s : σ} (h : m.Reached ok s) : m.Reachable s :=
  h.mono fun _ _ _ => trivial

/-- Steps taken one after the other. -/
inductive Path : σ → List α → σ → Prop
  | nil {s : σ} : Path s [] s
  | cons {s s₁ s' : σ} {a : α} {as : List α} (one : m.Step s a s₁) (more : Path s₁ as s') :
    Path s (a :: as) s'

theorem Path.snoc {s s₁ s' : σ} {a : α} {as : List α} (h : Path (m := m) s as s₁)
    (last : m.Step s₁ a s') : Path (m := m) s (as ++ [a]) s' := by
  induction h with
  | nil => exact .cons last .nil
  | cons one more ih => exact .cons one (ih last)

theorem Path.append {s s₁ s' : σ} {as bs : List α} (h : Path (m := m) s as s₁)
    (rest : Path (m := m) s₁ bs s') : Path (m := m) s (as ++ bs) s' := by
  induction h with
  | nil => exact rest
  | cons one _ ih => exact .cons one (ih rest)

/-- The rule of invariants for what a state has to do with the steps that led to it. -/
theorem Path.follows {s s' : σ} {as done : List α} (h : Path (m := m) s as s')
    (R : List α → σ → Prop) (hstart : R done s)
    (hstep : ∀ as s a s', R as s → m.Step s a s' → R (as ++ [a]) s') : R (done ++ as) s' := by
  induction h generalizing done with
  | nil => simpa using hstart
  | cons one more ih => simpa using ih (hstep _ _ _ _ hstart one)

theorem Reachable.path {s s' : σ} {as : List α} (h : m.Reachable s)
    (hpath : Path (m := m) s as s') : m.Reachable s' := by
  induction hpath with
  | nil => exact h
  | cons one more ih => exact ih (.step h trivial one)

/-- **The rule of simulation.** Where every step is one of another machine, or changes nothing that
it sees, a path is a path of the other machine by the steps that it sees. -/
theorem Path.simulated {σ' α' : Type} {m' : Machine σ' α'} {s s' : σ} {as : List α}
    (h : Path (m := m) s as s') (abs : σ → σ') (seen : α → Option α') (Inv : σ → Prop)
    (hinv : ∀ s a s', Inv s → m.Step s a s' → Inv s')
    (hseen : ∀ s a s' b, Inv s → m.Step s a s' → seen a = some b → m'.Step (abs s) b (abs s'))
    (hunseen : ∀ s a s', Inv s → m.Step s a s' → seen a = none → abs s' = abs s) (hs : Inv s) :
    Path (m := m') (abs s) (as.filterMap seen) (abs s') ∧ Inv s' := by
  induction h with
  | nil => exact ⟨.nil, hs⟩
  | @cons s s₁ s' a as one _ ih =>
    obtain ⟨hpath, hinv'⟩ := ih (hinv s a s₁ hs one)
    refine ⟨?_, hinv'⟩
    cases ha : seen a with
    | none =>
      rw [List.filterMap_cons_none ha, ← hunseen s a s₁ hs one ha]
      exact hpath
    | some b =>
      rw [List.filterMap_cons_some ha]
      exact .cons (hseen s a s₁ b hs one ha) hpath

/-! ## Executions -/

variable (m) in
structure Execution where
  state : ℕ → σ
  act : ℕ → α
  start : m.Start (state 0)
  step : ∀ k, m.Step (state k) (act k) (state (k + 1))

variable (m) in
/-- Steps without an end, from `s` on. -/
structure Tail (s : σ) where
  state : ℕ → σ
  act : ℕ → α
  first : state 0 = s
  step : ∀ k, m.Step (state k) (act k) (state (k + 1))

/-- A step that changes nothing, again and again. -/
def Tail.stay {s : σ} {idle : α} (h : m.Step s idle s) : m.Tail s :=
  ⟨fun _ => s, fun _ => idle, rfl, fun _ => h⟩

/-- A step before all the others. -/
def Tail.cons {s s₁ : σ} {a : α} (one : m.Step s a s₁) (f : m.Tail s₁) : m.Tail s where
  state k := k.casesOn s f.state
  act k := k.casesOn a f.act
  first := rfl
  step k := by
    cases k with
    | zero =>
      change m.Step s a (f.state 0)
      rwa [f.first]
    | succ k => exact f.step k

/-- Steps, and then more of them without an end. -/
theorem Path.follow {s s' : σ} {as : List α} (h : Path (m := m) s as s') (f : m.Tail s') :
    ∃ f' : m.Tail s, (∀ k a, as[k]? = some a → f'.act k = a) ∧
      (∀ k, f'.state (as.length + k) = f.state k) ∧
      ∀ k, f'.act k ∈ as ∨ ∃ j, f'.act k = f.act j := by
  induction h with
  | nil => exact ⟨f, fun k a hk => by simp at hk, fun k => by simp, fun k => .inr ⟨k, rfl⟩⟩
  | @cons s s₁ s' a as one _ ih =>
    obtain ⟨f', hact, hstate, hfrom⟩ := ih f
    refine ⟨f'.cons one, fun k b hk => ?_, fun k => ?_, fun k => ?_⟩
    · cases k with
      | zero => exact Option.some.inj hk
      | succ k => exact hact k b hk
    · rw [List.length_cons, Nat.add_right_comm]
      exact hstate k
    · cases k with
      | zero => exact .inl List.mem_cons_self
      | succ k => exact (hfrom k).imp_left (List.mem_cons_of_mem a)

def Tail.execution {s : σ} (f : m.Tail s) (h : m.Start s) : m.Execution :=
  ⟨f.state, f.act, by rwa [f.first], f.step⟩

namespace Execution

theorem reachable (e : m.Execution) (k : ℕ) : m.Reachable (e.state k) := by
  induction k with
  | zero => exact .start e.start
  | succ k ih => exact .step ih trivial (e.step k)

theorem path (e : m.Execution) (k : ℕ) :
    Path (m := m) (e.state 0) ((List.range k).map e.act) (e.state k) := by
  induction k with
  | zero => exact .nil
  | succ k ih =>
    rw [List.range_succ, List.map_append]
    exact ih.snoc (e.step k)

/-- Steps to a state that can stay as it is are an execution, which stays there. -/
theorem of_path {s s' : σ} {as : List α} (hpath : Path (m := m) s as s') {idle : α}
    (hidle : m.Step s' idle s') (hstart : m.Start s) : ∃ e : m.Execution,
      (∀ k a, as[k]? = some a → e.act k = a) ∧ ∀ k, as.length ≤ k → e.state k = s' := by
  obtain ⟨f, hact, hstate, -⟩ := hpath.follow (.stay hidle)
  refine ⟨f.execution hstart, hact, fun k hk => ?_⟩
  have hlast := hstate (k - as.length)
  rw [Nat.add_sub_cancel' hk] at hlast
  exact hlast

/-- What can be done from some point on is done sooner or later. -/
def Fair (e : m.Execution) (can : σ → Prop) (does : α → Prop) : Prop :=
  ∀ k, (∀ l, k ≤ l → can (e.state l)) → ∃ l, k ≤ l ∧ does (e.act l)

/-- **The rule of progress.** What lasts until something is done, and lets it be done, leads to
it. -/
theorem Fair.eventually {e : m.Execution} {can : σ → Prop} {does : α → Prop}
    (hfair : e.Fair can does) {P : σ → Prop} {k : ℕ} (hP : P (e.state k))
    (hcan : ∀ s, P s → can s)
    (hkeep : ∀ l, k ≤ l → P (e.state l) → ¬ does (e.act l) → P (e.state (l + 1))) :
    ∃ l, k ≤ l ∧ does (e.act l) ∧ ∀ j, k ≤ j → j ≤ l → P (e.state j) ∧ (does (e.act j) → j = l) := by
  classical
  have hsome : ∃ l, k ≤ l ∧ does (e.act l) := by
    by_contra hnever
    push Not at hnever
    have hlasts : ∀ l, k ≤ l → P (e.state l) := by
      intro l hl
      induction l, hl using Nat.le_induction with
      | base => exact hP
      | succ l hl ih => exact hkeep l hl ih (hnever l hl)
    obtain ⟨l, hl, hdoes⟩ := hfair k fun l hl => hcan _ (hlasts l hl)
    exact hnever l hl hdoes
  -- the first time from `k` on
  obtain ⟨hl, hdoes⟩ := Nat.find_spec hsome
  refine ⟨Nat.find hsome, hl, hdoes, ?_⟩
  have hfirst : ∀ j, k ≤ j → j < Nat.find hsome → ¬ does (e.act j) :=
    fun j hj hlt hdone => Nat.find_min hsome hlt ⟨hj, hdone⟩
  intro j hj
  induction j, hj using Nat.le_induction with
  | base =>
    intro hle
    exact ⟨hP, fun hdone => le_antisymm hle (not_lt.mp fun hlt => hfirst k le_rfl hlt hdone)⟩
  | succ j hj ih =>
    intro hle
    have hlt : j < Nat.find hsome := by omega
    refine ⟨hkeep j hj (ih (le_of_lt hlt)).1 (hfirst j hj hlt), fun hdone => ?_⟩
    exact le_antisymm hle (not_lt.mp fun hlt => hfirst _ (by omega) hlt hdone)

/-- **The rule of ranks.** What comes nearer sooner or later, or is there, is there sooner or
later. -/
theorem descends {e : m.Execution} (rank : σ → ℕ) {I Q : σ → Prop} {k : ℕ} (hI : I (e.state k))
    (hnearer : ∀ j, k ≤ j → I (e.state j) → ∃ l, j ≤ l ∧
      (Q (e.state l) ∨ I (e.state l) ∧ rank (e.state l) < rank (e.state j))) :
    ∃ l, k ≤ l ∧ Q (e.state l) := by
  have hfrom : ∀ n j, k ≤ j → I (e.state j) → rank (e.state j) ≤ n →
      ∃ l, j ≤ l ∧ Q (e.state l) := by
    intro n
    induction n with
    | zero =>
      intro j hj hI hrank
      obtain ⟨l, hl, hQ | ⟨-, hlt⟩⟩ := hnearer j hj hI
      · exact ⟨l, hl, hQ⟩
      · omega
    | succ n ih =>
      intro j hj hI hrank
      obtain ⟨l, hl, hQ | ⟨hI', hlt⟩⟩ := hnearer j hj hI
      · exact ⟨l, hl, hQ⟩
      · obtain ⟨l', hl', hQ⟩ := ih l (le_trans hj hl) hI' (by omega)
        exact ⟨l', le_trans hl hl', hQ⟩
  exact hfrom _ k le_rfl hI le_rfl

end Execution

end Machine

end Ipa
