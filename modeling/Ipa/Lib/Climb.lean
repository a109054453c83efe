import Mathlib.Data.List.Count
import Mathlib.Tactic.Linarith

/-!
# Greedy climbs

A climb goes through the neighbours of the node it stands at and moves to each one whose score is
better than the score in hand; it goes on from where a pass ends until a pass moves nowhere. The
graph may have cycles. When `better` is a strict order and the climb stays among finitely many nodes
it ends, at a node that no neighbour of it is better than.
-/

namespace Ipa.Climb

variable {N S : Type} (better : S → S → Bool) (score : N → S)

/-- One pass over some neighbours. -/
def pass (x : N) (neighbors : List N) : N :=
  neighbors.foldl (fun c n => if better (score n) (score c) then n else c) x

/-- Passes until one moves nowhere, at most `fuel` of them. -/
def climb (next : N → List N) : Nat → N → Option N
  | 0, _ => none
  | fuel + 1, x =>
    if better (score (pass better score x (next x))) (score x) then
      climb next fuel (pass better score x (next x))
    else some x

/-- A strict order, as a test. -/
structure Strict : Prop where
  irrefl : ∀ a, better a a = false
  trans : ∀ a b c, better a b = true → better b c = true → better a c = true

theorem pass_cons (x n : N) (rest : List N) : pass better score x (n :: rest) =
    pass better score (if better (score n) (score x) then n else x) rest := rfl

/-- How many of the nodes are better than a score: what a pass that moves lowers. -/
def rank (nodes : List N) (s : S) : Nat := nodes.countP fun n => better (score n) s

theorem rank_le (nodes : List N) (s : S) : rank better score nodes s ≤ nodes.length :=
  List.countP_le_length

variable {better} (h : Strict better)

include h

/-- A pass stays, or moves to a neighbour that is better. -/
theorem pass_moves (x : N) (neighbors : List N) : pass better score x neighbors = x ∨
    (pass better score x neighbors ∈ neighbors ∧
      better (score (pass better score x neighbors)) (score x) = true) := by
  induction neighbors generalizing x with
  | nil => exact .inl rfl
  | cons n rest ih =>
    rw [pass_cons]
    by_cases hbetter : better (score n) (score x) = true
    · rw [if_pos hbetter]
      right
      rcases ih n with hstay | ⟨hmem, hmove⟩
      · rw [hstay]
        exact ⟨List.mem_cons_self, hbetter⟩
      · exact ⟨List.mem_cons_of_mem _ hmem, h.trans _ _ _ hmove hbetter⟩
    · rw [if_neg hbetter]
      rcases ih x with hstay | ⟨hmem, hmove⟩
      · exact .inl hstay
      · exact .inr ⟨List.mem_cons_of_mem _ hmem, hmove⟩

/-- A pass that ends nowhere better has not moved, and no neighbour is better. -/
theorem pass_stays {x : N} {neighbors : List N}
    (hend : better (score (pass better score x neighbors)) (score x) = false) :
    pass better score x neighbors = x ∧ ∀ n ∈ neighbors, better (score n) (score x) = false := by
  have hstay : ∀ neighbors, better (score (pass better score x neighbors)) (score x) = false →
      pass better score x neighbors = x := by
    intro neighbors hend
    rcases pass_moves score h x neighbors with hstay | ⟨-, hmove⟩
    · exact hstay
    · rw [hend] at hmove
      cases hmove
  refine ⟨hstay neighbors hend, ?_⟩
  induction neighbors with
  | nil =>
    intro n hn
    cases hn
  | cons n rest ih =>
    rw [pass_cons] at hend
    cases hbetter : better (score n) (score x) with
    | true =>
      -- the first move is to a better node, and the pass only improves on it
      rw [if_pos hbetter] at hend
      have hmoved : better (score (pass better score n rest)) (score x) = true := by
        rcases pass_moves score h n rest with hstay | ⟨-, hmove⟩
        · rw [hstay]
          exact hbetter
        · exact h.trans _ _ _ hmove hbetter
      rw [hend] at hmoved
      cases hmoved
    | false =>
      rw [if_neg (by simp [hbetter])] at hend
      intro m hm
      rcases List.mem_cons.mp hm with rfl | hm
      · exact hbetter
      · exact ih hend m hm

theorem rank_lt {nodes : List N} {x y : N} (hy : y ∈ nodes)
    (hbetter : better (score y) (score x) = true) :
    rank better score nodes (score y) < rank better score nodes (score x) := by
  obtain ⟨l₁, l₂, rfl⟩ := List.append_of_mem hy
  have hmono : ∀ l : List N, l.countP (fun n => better (score n) (score y)) ≤
      l.countP (fun n => better (score n) (score x)) :=
    fun l => List.countP_mono_left fun n _ hn => h.trans _ _ _ hn hbetter
  have h₁ := hmono l₁
  have h₂ := hmono l₂
  unfold rank
  simp only [List.countP_append, List.countP_cons, h.irrefl, hbetter, ite_true, Bool.false_eq_true,
    ite_false]
  omega

/-- What a climb ends at. -/
structure Summit (better : S → S → Bool) (score : N → S) (next : N → List N) (start best : N) :
    Prop where
  rises : best = start ∨ better (score best) (score start) = true
  optimal : ∀ n ∈ next best, better (score n) (score best) = false

/-- **A climb** among finitely many nodes ends, and where it ends no neighbour is better. -/
theorem climb_ends {next : N → List N} {ok : N → Prop} (hclosed : ∀ x, ok x → ∀ y ∈ next x, ok y)
    {nodes : List N} (hnodes : ∀ x, ok x → x ∈ nodes) {start : N} (hstart : ok start) :
    ∃ best, (∀ fuel, rank better score nodes (score start) < fuel →
      climb better score next fuel start = some best) ∧ ok best ∧
      Summit better score next start best := by
  induction hrank : rank better score nodes (score start) using Nat.strongRecOn
    generalizing start with
  | ind k ih =>
    cases hend : better (score (pass better score start (next start))) (score start) with
    | false =>
      refine ⟨start, fun fuel hfuel => ?_, hstart, .inl rfl, (pass_stays score h hend).2⟩
      obtain ⟨fuel, rfl⟩ := Nat.exists_eq_succ_of_ne_zero (Nat.ne_zero_of_lt hfuel)
      rw [climb, if_neg (by simp [hend])]
    | true =>
      have hmem : pass better score start (next start) ∈ next start := by
        rcases pass_moves score h start (next start) with hstay | ⟨hmem, -⟩
        · rw [hstay, h.irrefl] at hend
          cases hend
        · exact hmem
      have hok := hclosed _ hstart _ hmem
      have hlt := rank_lt score h (hnodes _ hok) hend
      rw [hrank] at hlt
      obtain ⟨best, hclimb, hbest, hrises, hoptimal⟩ := ih _ hlt hok rfl
      refine ⟨best, fun fuel hfuel => ?_, hbest, ?_, hoptimal⟩
      · obtain ⟨fuel, rfl⟩ := Nat.exists_eq_succ_of_ne_zero (Nat.ne_zero_of_lt hfuel)
        rw [climb, if_pos hend]
        exact hclimb fuel (by omega)
      · right
        rcases hrises with rfl | hrises
        · exact hend
        · exact h.trans _ _ _ hrises hend

end Ipa.Climb
