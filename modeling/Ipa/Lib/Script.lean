import Mathlib.Data.List.Perm.Basic
import Mathlib.Data.List.Nodup

/-!
# What a routine acquires and releases

A script is a routine as far as its resources go, with every way that it can take: an acquisition
may fail, a test may turn out either way. It is safe from the resources that are there if it never
acquires one a second time or without what it needs, never releases one that is not there or that
another one needs, and leaves none.
-/

namespace Ipa

variable {R E K : Type}

/-- A routine, from some point on. -/
inductive Script (R E : Type)
  | done
  | acquire (r : R) (ok fail : Script R E)
  | release (r : R) (rest : Script R E)
  | branch (yes no : Script R E)
  | event (e : E) (rest : Script R E)

/-- What resources and events depend on. -/
structure Rules (R E : Type) where
  /-- What has to be there as long as the resource is. -/
  needs : R → List R
  /-- What has to be there for the event. -/
  uses : E → List R
  /-- What has to happen before the resource is released. -/
  after : R → List E

namespace Script

def size : Script R E → ℕ
  | done => 0
  | acquire _ ok fail => ok.size + fail.size + 1
  | release _ rest => rest.size + 1
  | branch yes no => yes.size + no.size + 1
  | event _ rest => rest.size + 1

/-- A release that is made if a field says so. -/
def drop (has : Bool) (r : R) (rest : Script R E) : Script R E :=
  if has then .release r rest else rest

/-- Releases of fields in the order of the list. -/
def drops (has : K → Bool) (res : K → R) (rest : Script R E) : List K → Script R E
  | [] => rest
  | k :: ks => drop (has k) (res k) (drops has res rest ks)

/-- Tests one after the other, the first that turns out wrong ends it. -/
def tests (ok fail : Script R E) : ℕ → Script R E
  | 0 => ok
  | n + 1 => .branch (tests ok fail n) fail

/-! ## Safety -/

variable [DecidableEq R] {rules : Rules R E}

/-- Safe after the events `past`, with the resources `live`. -/
def Safe (rules : Rules R E) : Script R E → List E → List R → Prop
  | done, _, live => live = []
  | acquire r ok fail, past, live => r ∉ live ∧ (∀ q ∈ rules.needs r, q ∈ live) ∧
      Safe rules ok past (r :: live) ∧ Safe rules fail past live
  | release r rest, past, live => r ∈ live ∧ (∀ q ∈ live, r ∉ rules.needs q) ∧
      (∀ e ∈ rules.after r, e ∈ past) ∧ Safe rules rest past (live.erase r)
  | branch yes no, past, live => Safe rules yes past live ∧ Safe rules no past live
  | event e rest, past, live => (∀ q ∈ rules.uses e, q ∈ live) ∧ Safe rules rest (e :: past) live

section Rules

variable {past past' : List E} {live live' : List R} {s ok fail : Script R E}

theorem Safe.perm : ∀ {s : Script R E} {past : List E} {live live' : List R},
    s.Safe rules past live → live.Perm live' → s.Safe rules past live'
  | done, _, live, live', h, hperm => by
    obtain rfl : live = [] := h
    exact List.nil_perm.mp hperm
  | acquire r ok fail, _, _, _, h, hperm =>
    ⟨fun hr => h.1 (hperm.mem_iff.mpr hr), fun q hq => hperm.mem_iff.mp (h.2.1 q hq),
      h.2.2.1.perm (hperm.cons r), h.2.2.2.perm hperm⟩
  | release r rest, _, _, _, h, hperm =>
    ⟨hperm.mem_iff.mp h.1, fun q hq => h.2.1 q (hperm.mem_iff.mpr hq), h.2.2.1,
      h.2.2.2.perm (hperm.erase r)⟩
  | branch yes no, _, _, _, h, hperm => ⟨h.1.perm hperm, h.2.perm hperm⟩
  | event e rest, _, _, _, h, hperm => ⟨fun q hq => hperm.mem_iff.mp (h.1 q hq), h.2.perm hperm⟩

/-- More has happened. -/
theorem Safe.later : ∀ {s : Script R E} {past past' : List E} {live : List R},
    s.Safe rules past live → past ⊆ past' → s.Safe rules past' live
  | done, _, _, _, h, _ => h
  | acquire _ _ _, _, _, _, h, hsub => ⟨h.1, h.2.1, h.2.2.1.later hsub, h.2.2.2.later hsub⟩
  | release _ _, _, _, _, h, hsub =>
    ⟨h.1, h.2.1, fun e he => hsub (h.2.2.1 e he), h.2.2.2.later hsub⟩
  | branch _ _, _, _, _, h, hsub => ⟨h.1.later hsub, h.2.later hsub⟩
  | event e _, _, _, _, h, hsub => ⟨h.1, h.2.later (List.cons_subset_cons e hsub)⟩

/-- The first of the resources is released. -/
theorem Safe.release_head {r : R} (h : s.Safe rules past live)
    (hfree : ∀ q ∈ r :: live, r ∉ rules.needs q) (hafter : ∀ e ∈ rules.after r, e ∈ past) :
    (release r s).Safe rules past (r :: live) := by
  refine ⟨List.mem_cons_self, hfree, hafter, ?_⟩
  rw [List.erase_cons_head]
  exact h

theorem Safe.drop {r : R} (h : s.Safe rules past live) (hfree : ∀ q ∈ r :: live, r ∉ rules.needs q)
    (hafter : rules.after r = []) (has : Bool) :
    (Script.drop has r s).Safe rules past ((if has then [r] else []) ++ live) := by
  cases has with
  | false => exact h
  | true =>
    refine h.release_head hfree fun e he => ?_
    rw [hafter] at he
    cases he

/-- Fields are released in an order in which none is needed by a later one. -/
theorem Safe.drops {has : K → Bool} {res : K → R} {ks : List K} (h : s.Safe rules past live)
    (hself : ∀ k ∈ ks, res k ∉ rules.needs (res k))
    (horder : ks.Pairwise fun a b => res a ∉ rules.needs (res b))
    (hfree : ∀ k ∈ ks, ∀ q ∈ live, res k ∉ rules.needs q)
    (hafter : ∀ k ∈ ks, rules.after (res k) = []) :
    (Script.drops has res s ks).Safe rules past ((ks.filter has).map res ++ live) := by
  induction ks with
  | nil => exact h
  | cons k ks ih =>
    obtain ⟨hhead, htail⟩ := List.pairwise_cons.mp horder
    have hrest := ih (fun k hk => hself k (List.mem_cons_of_mem _ hk)) htail
      (fun k hk => hfree k (List.mem_cons_of_mem _ hk))
      (fun k hk => hafter k (List.mem_cons_of_mem _ hk))
    have hdrop := hrest.drop (r := res k) (fun q hq => ?_) (hafter k List.mem_cons_self) (has k)
    · change (Script.drop (has k) (res k) (Script.drops has res s ks)).Safe rules past _
      rw [List.filter_cons]
      cases hk : has k <;> rw [hk] at hdrop
      · rwa [if_neg (by decide)]
      · rwa [if_pos rfl, List.map_cons, List.cons_append]
    · rcases List.mem_cons.mp hq with rfl | hq
      · exact hself k List.mem_cons_self
      rcases List.mem_append.mp hq with hq | hq
      · obtain ⟨k', hk', rfl⟩ := List.mem_map.mp hq
        exact hhead k' (List.mem_of_mem_filter hk')
      · exact hfree k List.mem_cons_self q hq

theorem Safe.tests (hok : ok.Safe rules past live) (hfail : fail.Safe rules past live) :
    ∀ n, (Script.tests ok fail n).Safe rules past live
  | 0 => hok
  | n + 1 => ⟨Safe.tests hok hfail n, hfail⟩

end Rules

/-! ## Runs -/

/-- What is left of a script, what has happened, and what is there. -/
structure State (R E : Type) where
  script : Script R E
  past : List E
  live : List R

inductive Step : State R E → State R E → Prop
  | acquired {r ok fail past live} : Step ⟨acquire r ok fail, past, live⟩ ⟨ok, past, r :: live⟩
  | refused {r ok fail past live} : Step ⟨acquire r ok fail, past, live⟩ ⟨fail, past, live⟩
  | released {r rest past live} : Step ⟨release r rest, past, live⟩ ⟨rest, past, live.erase r⟩
  | yes {yes no past live} : Step ⟨branch yes no, past, live⟩ ⟨yes, past, live⟩
  | no {yes no past live} : Step ⟨branch yes no, past, live⟩ ⟨no, past, live⟩
  | event {e rest past live} : Step ⟨event e rest, past, live⟩ ⟨rest, e :: past, live⟩

/-- What is there is there once, with all that it needs, and the rest of the script is safe. -/
structure State.Sound (rules : Rules R E) (s : State R E) : Prop where
  safe : s.script.Safe rules s.past s.live
  closed : ∀ r ∈ s.live, ∀ q ∈ rules.needs r, q ∈ s.live
  nodup : s.live.Nodup

variable {s s' : State R E}

/-- A script from nothing. -/
theorem State.Sound.start {script : Script R E} (h : script.Safe rules [] []) :
    (⟨script, [], []⟩ : State R E).Sound rules :=
  ⟨h, fun r hr => (by cases hr), List.nodup_nil⟩

/-- **A step** of a safe script. -/
theorem State.Sound.step (h : s.Sound rules) (hstep : Step s s') : s'.Sound rules := by
  cases hstep with
  | acquired =>
    refine ⟨h.safe.2.2.1, fun r hr q hq => ?_, List.nodup_cons.mpr ⟨h.safe.1, h.nodup⟩⟩
    rcases List.mem_cons.mp hr with rfl | hr
    · exact List.mem_cons_of_mem _ (h.safe.2.1 q hq)
    · exact List.mem_cons_of_mem _ (h.closed r hr q hq)
  | refused => exact ⟨h.safe.2.2.2, h.closed, h.nodup⟩
  | released =>
    refine ⟨h.safe.2.2.2, fun r hr q hq => ?_, h.nodup.erase _⟩
    have hmem := List.mem_of_mem_erase hr
    refine (List.mem_erase_of_ne ?_).mpr (h.closed r hmem q hq)
    rintro rfl
    exact h.safe.2.1 r hmem hq
  | yes => exact ⟨h.safe.1, h.closed, h.nodup⟩
  | no => exact ⟨h.safe.2, h.closed, h.nodup⟩
  | event => exact ⟨h.safe.2, h.closed, h.nodup⟩

/-- The next state, where the call or the test turns out as `yes` says. -/
def State.next (s : State R E) (yes : Bool) : State R E :=
  match s.script with
  | .done => s
  | .acquire r ok fail => if yes then ⟨ok, s.past, r :: s.live⟩ else ⟨fail, s.past, s.live⟩
  | .release r rest => ⟨rest, s.past, s.live.erase r⟩
  | .branch ok fail => ⟨if yes then ok else fail, s.past, s.live⟩
  | .event e rest => ⟨rest, e :: s.past, s.live⟩

theorem State.step_next {s : State R E} (h : s.script ≠ .done) (yes : Bool) :
    Step s (s.next yes) := by
  obtain ⟨script, past, live⟩ := s
  cases script with
  | done => exact absurd rfl h
  | acquire r ok fail =>
    cases yes with
    | true => exact .acquired
    | false => exact .refused
  | release r rest => exact .released
  | branch ok fail =>
    cases yes with
    | true => exact .yes
    | false => exact .no
  | event e rest => exact .event

theorem Step.size_lt (hstep : Step s s') : s'.script.size < s.script.size := by
  cases hstep <;> simp only [size] <;> omega

end Script

end Ipa
