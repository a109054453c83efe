import Ipa.Lib.Machine
import Mathlib.Logic.Function.Basic

/-!
# Callers and the worker

`kc_emb_exec` hands its input to the one worker thread of the pool and waits for the code. `pool`
is the machine of any number of callers and the worker; a step is one critical section, from a
lock or the return of a wait to the unlock or the next wait. A signal wakes one waiter, if there
is one, and waiters may wake by themselves. The pool is not closed meanwhile.

The slot of the worker is free again as soon as the worker has answered, before the caller has
read the answer. While no caller takes it that early, each caller gets its own code and no wake-up
is lost; a caller that does can leave the other one, or itself, waiting for ever.
-/

namespace Ipa

/-- Where a caller stands. -/
inductive Pc
  /-- Outside of a call. -/
  | idle
  /-- Holds the mutex of the pool. -/
  | pooled
  /-- Holds the mutex of the pool, and has found the worker busy. -/
  | refused
  /-- Waits on `pool_cond`. -/
  | parkedPool
  /-- Woken, before it has the mutex of the pool again. -/
  | awakePool
  /-- Holds the mutex of the worker, whose slot it takes. -/
  | setting
  /-- Waits on `cond_res`. -/
  | parkedRes
  /-- Woken, before it has the mutex of the worker again. -/
  | awakeRes
  /-- Has read the result. -/
  | finishing (code : Int)
  | returned (code : Int)
deriving DecidableEq, Repr

/-- The pool with its one worker, and its callers. -/
structure Pool (Caller : Type) where
  poolMutex : Option Caller
  /-- The mutex of the worker. -/
  mutex : Option Caller
  hasReq : Bool
  done : Bool
  result : Int
  /-- The caller whose input and buffer the slot holds. -/
  input : Option Caller
  /-- The worker does not wait on `cond_req`. -/
  awake : Bool
  pc : Caller → Pc
  /-- The code that the worker has computed for the input of the current call. -/
  computed : Caller → Option Int

/-- The critical sections. `woken` is the waiter that the signal of the section wakes. -/
inductive Section (Caller : Type)
  | lockPool (t : Caller)
  | refuse (t : Caller)
  | waitPool (t : Caller)
  | claim (t : Caller)
  | request (t : Caller)
  | readDone (t : Caller)
  | leave (t : Caller) (woken : Option Caller)
  | workIdle
  | work (code : Int) (woken : Option Caller)
  | wakePool (t : Caller)
  | wakeRes (t : Caller)
  | wakeReq
deriving DecidableEq, Repr

namespace Pool

variable {Caller : Type}

def initial : Pool Caller where
  poolMutex := none
  mutex := none
  hasReq := false
  done := false
  result := 0
  input := none
  awake := true
  pc := fun _ => .idle
  computed := fun _ => none

/-- A signal to the waiters at `waiting` wakes `woken`. -/
def Signals (s : Pool Caller) (waiting : Pc) : Option Caller → Prop
  | some u => s.pc u = waiting
  | none => ∀ u, s.pc u ≠ waiting

def Enabled (s : Pool Caller) : Section Caller → Prop
  | .lockPool t => s.poolMutex = none ∧
      (s.pc t = .idle ∨ (∃ code, s.pc t = .returned code) ∨ s.pc t = .awakePool)
  | .refuse t => s.pc t = .pooled ∧ s.mutex = none ∧ s.hasReq = true
  | .waitPool t => s.pc t = .refused
  | .claim t => s.pc t = .pooled ∧ s.mutex = none ∧ s.hasReq = false
  | .request t => s.pc t = .setting
  | .readDone t => s.pc t = .awakeRes ∧ s.mutex = none
  | .leave t woken => s.poolMutex = none ∧ (∃ code, s.pc t = .finishing code) ∧
      s.Signals .parkedPool woken
  | .workIdle => s.awake = true ∧ s.mutex = none ∧ s.hasReq = false
  | .work _ woken => s.awake = true ∧ s.mutex = none ∧ s.hasReq = true ∧
      s.Signals .parkedRes woken
  | .wakePool t => s.pc t = .parkedPool
  | .wakeRes t => s.pc t = .parkedRes
  | .wakeReq => True

variable [DecidableEq Caller]

/-- The caller goes on. -/
def goto (s : Pool Caller) (t : Caller) (pc : Pc) : Pool Caller :=
  { s with pc := Function.update s.pc t pc }

def wake (s : Pool Caller) (pc : Pc) : Option Caller → Pool Caller
  | some u => s.goto u pc
  | none => s

def after (s : Pool Caller) : Section Caller → Pool Caller
  -- a call begins, or goes on after a wait: nothing is computed for it yet
  | .lockPool t => { s.goto t .pooled with
      poolMutex := some t, computed := Function.update s.computed t none }
  | .refuse t => s.goto t .refused
  | .waitPool t => { s.goto t .parkedPool with poolMutex := none }
  | .claim t => { s.goto t .setting with poolMutex := none, mutex := some t }
  | .request t => { s.goto t .parkedRes with
      mutex := none, input := some t, done := false, hasReq := true, awake := true }
  | .readDone t => s.goto t (if s.done then .finishing s.result else .parkedRes)
  | .leave t woken => (s.wake .awakePool woken).goto t
      (match s.pc t with | .finishing code => .returned code | pc => pc)
  | .workIdle => { s with awake := false }
  | .work code woken => { s.wake .awakeRes woken with
      result := code, hasReq := false, done := true, awake := false
      computed := match s.input with
        | some t => Function.update s.computed t (some code)
        | none => s.computed }
  | .wakePool t => s.goto t .awakePool
  | .wakeRes t => s.goto t .awakeRes
  | .wakeReq => { s with awake := true }

end Pool

/-- The callers and the worker. -/
def pool (Caller : Type) [DecidableEq Caller] : Machine (Pool Caller) (Section Caller) where
  Start s := s = .initial
  Step s a s' := s.Enabled a ∧ s' = s.after a

namespace Pool

variable {Caller : Type}

/-! ## What should hold -/

/-- Every call that returned has the code computed for its own input. -/
def Truthful (s : Pool Caller) : Prop :=
  ∀ t code, s.pc t = .returned code → s.computed t = some code

/-- A caller waits for an answer that was given, and nothing will wake it: no request is pending
or running and no waiter has been woken. -/
def Stranded (s : Pool Caller) (t : Caller) : Prop :=
  s.pc t = .parkedRes ∧ (∃ code, s.computed t = some code) ∧ s.hasReq = false ∧
    ∀ u, s.pc u ≠ .awakeRes

/-- The caller waits for the worker. -/
def Waits (s : Pool Caller) (t : Caller) : Prop := s.pc t = .parkedRes ∨ s.pc t = .awakeRes

/-- The section does not take the slot from under a caller that waits. -/
def Spares (s : Pool Caller) : Section Caller → Prop
  | .claim _ => ∀ u, ¬ s.Waits u
  | _ => True

/-! ## The invariant -/

/-- The caller is between taking the slot and reading the answer. -/
def InSlot (s : Pool Caller) (t : Caller) : Prop := s.pc t = .setting ∨ s.Waits t

/-- The request of a caller is in the slot. -/
structure Pending (s : Pool Caller) (t : Caller) : Prop where
  computed : s.computed t = none
  hasReq : s.hasReq = true
  notDone : s.done = false
  input : s.input = some t

/-- The answer to a caller is in the slot, and the caller is awake. -/
structure Answered (s : Pool Caller) (t : Caller) : Prop where
  awake : s.pc t = .awakeRes
  hasReq : s.hasReq = false
  isDone : s.done = true
  computed : s.computed t = some s.result

structure Inv (s : Pool Caller) : Prop where
  holder : ∀ t, s.pc t = .setting → s.mutex = some t
  single : ∀ t u, s.InSlot t → s.InSlot u → t = u
  asked : s.hasReq = true → ∃ t, s.Waits t
  waiting : ∀ t, s.Waits t → s.Pending t ∨ s.Answered t
  setting : ∀ t, s.pc t = .setting → s.computed t = none
  entering : ∀ t, s.pc t = .pooled ∨ s.pc t = .refused ∨ s.pc t = .parkedPool ∨
    s.pc t = .awakePool → s.computed t = none
  finished : ∀ t code, s.pc t = .finishing code ∨ s.pc t = .returned code →
    s.computed t = some code

section Steps

variable {s : Pool Caller} {t u : Caller}

theorem Inv.pending (h : s.Inv) (hreq : s.hasReq = true) (ht : s.Waits t) : s.Pending t := by
  rcases h.waiting t ht with hp | ha
  · exact hp
  · rw [ha.hasReq] at hreq
    cases hreq

theorem Inv.answered (h : s.Inv) (hreq : s.hasReq = false) (ht : s.Waits t) : s.Answered t := by
  rcases h.waiting t ht with hp | ha
  · rw [hp.hasReq] at hreq
    cases hreq
  · exact ha

/-- The mutex of the pool guards nothing that the invariant speaks of. -/
theorem Inv.setPoolMutex (h : s.Inv) (holder : Option Caller) :
    Inv { s with poolMutex := holder } :=
  ⟨h.holder, h.single, h.asked, fun t ht => (h.waiting t ht).imp
    (fun hp => ⟨hp.computed, hp.hasReq, hp.notDone, hp.input⟩)
    (fun ha => ⟨ha.awake, ha.hasReq, ha.isDone, ha.computed⟩), h.setting, h.entering, h.finished⟩

theorem Inv.setAwake (h : s.Inv) (awake : Bool) : Inv { s with awake } :=
  ⟨h.holder, h.single, h.asked, fun t ht => (h.waiting t ht).imp
    (fun hp => ⟨hp.computed, hp.hasReq, hp.notDone, hp.input⟩)
    (fun ha => ⟨ha.awake, ha.hasReq, ha.isDone, ha.computed⟩), h.setting, h.entering, h.finished⟩

theorem inv_initial : (initial : Pool Caller).Inv := by
  constructor <;> simp [initial, InSlot, Waits]

theorem not_inSlot {pc : Pc} (h : s.pc t = pc)
    (hpc : pc ≠ .setting ∧ pc ≠ .parkedRes ∧ pc ≠ .awakeRes) : ¬ s.InSlot t := by
  rintro (hs | hs | hs) <;> rw [h] at hs
  · exact hpc.1 hs
  · exact hpc.2.1 hs
  · exact hpc.2.2 hs

theorem Inv.truthful (h : s.Inv) : s.Truthful := fun t code hpc => h.finished t code (.inr hpc)

/-- A caller whose request was executed is awake. -/
theorem Inv.not_stranded (h : s.Inv) (t : Caller) : ¬ s.Stranded t := by
  rintro ⟨hpc, -, hreq, -⟩
  have hawake := (h.answered hreq (.inl hpc)).awake
  rw [hpc] at hawake
  cases hawake

variable [DecidableEq Caller]

/-- A caller outside of the slot goes on outside of it. -/
theorem Inv.goto_outside (h : s.Inv) {pc : Pc} {code : Option Int} (ht : ¬ s.InSlot t)
    (hpc : pc ≠ .setting ∧ pc ≠ .parkedRes ∧ pc ≠ .awakeRes)
    (hentering : pc = .pooled ∨ pc = .refused ∨ pc = .parkedPool ∨ pc = .awakePool → code = none)
    (hfinished : ∀ c, pc = .finishing c ∨ pc = .returned c → code = some c) :
    Inv { s.goto t pc with computed := Function.update s.computed t code } := by
  obtain ⟨hset, hparked, hawake⟩ := hpc
  have hne : ∀ u, s.InSlot u → u ≠ t := fun u hu heq => ht (heq ▸ hu)
  obtain ⟨holder, single, asked, waiting, setting, entering, finished⟩ := h
  unfold InSlot Waits at *
  constructor <;> simp only [goto, Function.update_apply, InSlot, Waits]
  · grind
  · grind
  · grind
  · intro u hu
    have hut : u ≠ t := by grind
    rw [if_neg hut] at hu
    rcases waiting u hu with hp | ha
    · exact .inl ⟨by simpa [hut] using hp.computed, hp.hasReq, hp.notDone, hp.input⟩
    · exact .inr ⟨by simpa [hut] using ha.awake, ha.hasReq, ha.isDone,
        by simpa [hut] using ha.computed⟩
  · grind
  · grind
  · grind

/-- A caller outside of the slot goes on with what was computed for it. -/
theorem Inv.goto_same (h : s.Inv) {pc : Pc} (ht : ¬ s.InSlot t)
    (hpc : pc ≠ .setting ∧ pc ≠ .parkedRes ∧ pc ≠ .awakeRes)
    (hentering : pc = .pooled ∨ pc = .refused ∨ pc = .parkedPool ∨ pc = .awakePool →
      s.computed t = none)
    (hfinished : ∀ c, pc = .finishing c ∨ pc = .returned c → s.computed t = some c) :
    (s.goto t pc).Inv := by
  have hgoto := h.goto_outside ht hpc hentering hfinished
  rwa [Function.update_eq_self] at hgoto

/-- Taking the slot while nobody waits for an answer. -/
theorem Inv.claim (h : s.Inv) (hpc : s.pc t = .pooled) (hmutex : s.mutex = none)
    (hreq : s.hasReq = false) (hspare : ∀ u, ¬ s.Waits u) :
    Inv { s.goto t .setting with poolMutex := none, mutex := some t } := by
  have hnone : ∀ u, s.pc u ≠ .setting := by
    intro u hu
    have := h.holder u hu
    rw [hmutex] at this
    cases this
  have hcomputed := h.entering t (.inl hpc)
  obtain ⟨-, -, -, -, -, entering, finished⟩ := h
  unfold Waits at hspare
  constructor <;> simp only [goto, Function.update_apply, InSlot, Waits] <;> grind

/-- The request is put into the slot by the one caller that has taken it. -/
theorem Inv.request (h : s.Inv) (hpc : s.pc t = .setting) :
    Inv { s.goto t .parkedRes with
      mutex := none, input := some t, done := false, hasReq := true, awake := true } := by
  have halone : ∀ u, s.InSlot u → u = t := fun u hu => h.single u t hu (.inl hpc)
  have hcomputed := h.setting t hpc
  obtain ⟨-, -, -, -, -, entering, finished⟩ := h
  unfold InSlot Waits at halone
  constructor <;> simp only [goto, Function.update_apply, InSlot, Waits]
  · grind
  · grind
  · exact fun _ => ⟨t, by simp⟩
  · intro u hu
    have hut : u = t := by grind
    subst hut
    exact .inl ⟨hcomputed, rfl, rfl, rfl⟩
  · grind
  · grind
  · grind

/-- A caller that wakes finds its request pending, or its answer. -/
theorem Inv.readDone (h : s.Inv) (hpc : s.pc t = .awakeRes) :
    (s.goto t (if s.done then .finishing s.result else .parkedRes)).Inv := by
  have halone : ∀ u, s.InSlot u → u = t := fun u hu => h.single u t hu (.inr (.inr hpc))
  unfold InSlot Waits at halone
  rcases h.waiting t (.inr hpc) with hp | ha
  · obtain ⟨hcomputed, hreq, hdone, hinput⟩ := hp
    obtain ⟨-, -, -, -, -, entering, finished⟩ := h
    rw [hdone]
    constructor <;> simp only [goto, Function.update_apply, InSlot, Waits]
    · grind
    · grind
    · exact fun _ => ⟨t, by simp⟩
    · intro u hu
      have hut : u = t := by grind
      subst hut
      exact .inl ⟨hcomputed, hreq, hdone, hinput⟩
    · grind
    · grind
    · grind
  · obtain ⟨-, hreq, hdone, hcomputed⟩ := ha
    obtain ⟨-, -, -, -, -, entering, finished⟩ := h
    rw [hdone]
    constructor <;> simp only [goto, Function.update_apply, InSlot, Waits, hreq] <;> grind

/-- The worker answers the one caller that waits, which is awake from then on. -/
theorem work_after (h : s.Inv) {code : Int} {woken : Option Caller}
    (he : s.Enabled (.work code woken)) : ∃ t, s.Waits t ∧
      s.after (.work code woken) = { s.goto t .awakeRes with
        result := code, hasReq := false, done := true, awake := false
        computed := Function.update s.computed t (some code) } := by
  obtain ⟨-, -, hreq, hsignal⟩ := he
  obtain ⟨t, ht⟩ := h.asked hreq
  refine ⟨t, ht, ?_⟩
  have hwake : s.wake .awakeRes woken = s.goto t .awakeRes := by
    cases woken with
    | some u =>
      have hut : u = t := h.single u t (.inr (.inl hsignal)) (.inr ht)
      rw [hut]
      rfl
    | none =>
      -- the signal meets no waiter: the caller has woken by itself
      have hpc : s.pc t = .awakeRes := ht.resolve_left (hsignal t)
      unfold wake goto
      rw [← hpc, Function.update_eq_self]
  simp only [Pool.after, hwake, (h.pending hreq ht).input]

theorem Inv.work (h : s.Inv) {code : Int} (ht : s.Waits t) :
    Inv { s.goto t .awakeRes with
      result := code, hasReq := false, done := true, awake := false
      computed := Function.update s.computed t (some code) } := by
  have halone : ∀ u, s.InSlot u → u = t := fun u hu => h.single u t hu (.inr ht)
  obtain ⟨holder, -, -, -, -, entering, finished⟩ := h
  unfold InSlot Waits at *
  constructor <;> simp only [goto, Function.update_apply, InSlot, Waits]
  · grind
  · grind
  · intro hreq
    cases hreq
  · intro u hu
    have hut : u = t := by grind
    subst hut
    exact .inr ⟨by simp, rfl, rfl, by simp⟩
  · grind
  · grind
  · grind

/-- A caller that waits may wake by itself. -/
theorem Inv.wakeRes (h : s.Inv) (hpc : s.pc t = .parkedRes) : (s.goto t .awakeRes).Inv := by
  have halone : ∀ u, s.InSlot u → u = t := fun u hu => h.single u t hu (.inr (.inl hpc))
  have hwaits := h.waiting t (.inl hpc)
  obtain ⟨holder, -, -, -, -, entering, finished⟩ := h
  unfold InSlot Waits at *
  constructor <;> simp only [goto, Function.update_apply, InSlot, Waits]
  · grind
  · grind
  · exact fun _ => ⟨t, by simp⟩
  · intro u hu
    have hut : u = t := by grind
    subst hut
    rcases hwaits with hp | ha
    · exact .inl ⟨hp.computed, hp.hasReq, hp.notDone, hp.input⟩
    · exact .inr ⟨by simp, ha.hasReq, ha.isDone, ha.computed⟩
  · grind
  · grind
  · grind

/-- **One section** keeps the invariant, unless it takes the slot from under a caller. -/
theorem Inv.after (h : s.Inv) {a : Section Caller} (he : s.Enabled a) (hspare : s.Spares a) :
    (s.after a).Inv := by
  cases a with
  | lockPool t =>
    obtain ⟨-, hpc⟩ := he
    have hslot : ¬ s.InSlot t := by
      rcases hpc with hpc | ⟨code, hpc⟩ | hpc <;> exact not_inSlot hpc (by simp)
    exact (h.goto_outside hslot (by simp) (fun _ => rfl) (by simp)).setPoolMutex (some t)
  | refuse t =>
    obtain ⟨hpc, -, -⟩ := he
    exact h.goto_same (not_inSlot hpc (by simp)) (by simp) (fun _ => h.entering t (.inl hpc))
      (by simp)
  | waitPool t =>
    have hpc : s.pc t = .refused := he
    exact (h.goto_same (not_inSlot hpc (by simp)) (by simp)
      (fun _ => h.entering t (.inr (.inl hpc))) (by simp)).setPoolMutex none
  | claim t =>
    obtain ⟨hpc, hmutex, hreq⟩ := he
    exact h.claim hpc hmutex hreq hspare
  | request t => exact h.request he
  | readDone t => exact h.readDone he.1
  | leave t woken =>
    obtain ⟨-, ⟨code, hpc⟩, hsignal⟩ := he
    have hcomputed := h.finished t code (.inl hpc)
    have hwake : (s.wake .awakePool woken).Inv ∧ (s.wake .awakePool woken).pc t = .finishing code ∧
        (s.wake .awakePool woken).computed = s.computed := by
      cases woken with
      | none => exact ⟨h, hpc, rfl⟩
      | some u =>
        have hu : s.pc u = .parkedPool := hsignal
        refine ⟨h.goto_same (not_inSlot hu (by simp)) (by simp)
          (fun _ => h.entering u (.inr (.inr (.inl hu)))) (by simp), ?_, rfl⟩
        have hne : t ≠ u := fun heq => by rw [heq, hu] at hpc; cases hpc
        simpa [wake, goto, hne] using hpc
    simp only [Pool.after, hpc]
    refine hwake.1.goto_same (not_inSlot hwake.2.1 (by simp)) (by simp) (by simp) ?_
    rintro c (hc | hc)
    · cases hc
    · cases hc
      rw [hwake.2.2]
      exact hcomputed
  | workIdle => exact h.setAwake false
  | work code woken =>
    obtain ⟨t, ht, hafter⟩ := work_after h he
    rw [hafter]
    exact h.work ht
  | wakePool t =>
    have hpc : s.pc t = .parkedPool := he
    exact h.goto_same (not_inSlot hpc (by simp)) (by simp)
      (fun _ => h.entering t (.inr (.inr (.inl hpc)))) (by simp)
  | wakeRes t => exact h.wakeRes he
  | wakeReq => exact h.setAwake true

/-- The run in which the slot is taken from under `u`: it reads the answer to the request of `t`. -/
theorem overtakes (hne : u ≠ t) (hawake : s.pc u = .awakeRes) (code : Int) :
    ∃ as s', Machine.Path (m := pool Caller) (s.after (.claim t)) as s' ∧
      s'.pc u = .returned code ∧ s'.pc t = .parkedRes ∧
      s'.computed = Function.update s.computed t (some code) ∧ s'.hasReq = false ∧
      ∀ v, v ≠ u → s'.pc v = .awakeRes → v ≠ t ∧ s.pc v = .awakeRes := by
  let s₁ := s.after (.claim t)
  let s₂ := s₁.after (.request t)
  let s₃ := s₂.after (.readDone u)
  let s₄ := s₃.after (.work code (some u))
  let s₅ := s₄.after (.readDone u)
  have hs₁ : s₁.Enabled (.request t) := by simp [s₁, Pool.after, Enabled, goto]
  have hs₂ : s₂.Enabled (.readDone u) := by
    simp [s₂, s₁, Pool.after, Enabled, goto, hne, hawake]
  have hs₃ : s₃.Enabled (.work code (some u)) := by
    simp [s₃, s₂, s₁, Pool.after, Enabled, goto, Signals]
  have hs₄ : s₄.Enabled (.readDone u) := by
    simp [s₄, s₃, s₂, s₁, Pool.after, Enabled, goto, wake]
  have hcode : s₅.pc u = .finishing code := by
    simp [s₅, s₄, s₃, s₂, s₁, Pool.after, goto, wake]
  obtain ⟨woken, hwoken⟩ : ∃ woken, s₅.Signals .parkedPool woken := by
    by_cases hparked : ∃ v, s₅.pc v = .parkedPool
    · obtain ⟨v, hv⟩ := hparked
      exact ⟨some v, hv⟩
    · push Not at hparked
      exact ⟨none, hparked⟩
  have hs₅ : s₅.Enabled (.leave u woken) := by
    refine ⟨?_, ⟨code, hcode⟩, hwoken⟩
    simp [s₅, s₄, s₃, s₂, s₁, Pool.after, goto, wake]
  let s₆ := s₅.after (.leave u woken)
  have hpc₆ : ∀ v, s₆.pc v = if v = u then .returned code else
      (s₅.wake .awakePool woken).pc v := by
    intro v
    simp [s₆, Pool.after, goto, hcode, Function.update_apply]
  have hpc₅ : ∀ v, s₅.pc v = if v = u then .finishing code else
      if v = t then .parkedRes else s.pc v := by
    intro v
    by_cases hvu : v = u <;> by_cases hvt : v = t <;>
      simp [s₅, s₄, s₃, s₂, s₁, Pool.after, goto, wake, Function.update_apply, hvu, hvt]
  have hrest : s₆.computed = Function.update s.computed t (some code) ∧ s₆.hasReq = false := by
    cases woken <;> simp [s₆, s₅, s₄, s₃, s₂, s₁, Pool.after, goto, wake]
  have hother : ∀ v, v ≠ u → s₆.pc v = .parkedRes ∨ s₆.pc v = .awakeRes →
      s₆.pc v = if v = t then .parkedRes else s.pc v := by
    intro v hv hres
    rw [hpc₆, if_neg hv] at hres ⊢
    cases woken with
    | none =>
      change s₅.pc v = _
      rw [hpc₅, if_neg hv]
    | some w =>
      by_cases hvw : v = w
      · subst hvw
        simp [wake, goto] at hres
      · simp [wake, goto, hvw, hpc₅, hv]
  have hstranded : s₆.pc t = .parkedRes := by
    rw [hpc₆, if_neg hne.symm]
    cases woken with
    | none =>
      change s₅.pc t = _
      simp [hpc₅, hne.symm]
    | some w =>
      have hwt : t ≠ w := by
        intro heq
        have hparked : s₅.pc w = .parkedPool := hwoken
        simp [hpc₅, ← heq, hne.symm] at hparked
      simp [wake, goto, hwt, hpc₅, hne.symm]
  refine ⟨[.request t, .readDone u, .work code (some u), .readDone u, .leave u woken], s₆,
    .cons ⟨hs₁, rfl⟩ (.cons ⟨hs₂, rfl⟩ (.cons ⟨hs₃, rfl⟩ (.cons ⟨hs₄, rfl⟩
      (.cons ⟨hs₅, rfl⟩ .nil)))), by rw [hpc₆, if_pos rfl], hstranded, hrest.1, hrest.2,
    fun v hvu hv => ?_⟩
  have hpc' := hother v hvu (.inr hv)
  rw [hv] at hpc'
  by_cases hvt : v = t
  · rw [if_pos hvt] at hpc'
    cases hpc'
  · rw [if_neg hvt] at hpc'
    exact ⟨hvt, hpc'.symm⟩

/-- What follows when a caller takes the slot of one that has not read its answer: the other one
reads the answer to a later request, and the caller that made it is left waiting. -/
theorem Inv.strands (h : s.Inv) (he : s.Enabled (.claim t)) (hu : s.Waits u) :
    ∃ as s', Machine.Path (m := pool Caller) (s.after (.claim t)) as s' ∧
      ¬ s'.Truthful ∧ s'.Stranded t := by
  obtain ⟨hpc, hmutex, hreq⟩ := he
  obtain ⟨hawake, -, -, hcomputed⟩ := h.answered hreq hu
  have hne : u ≠ t := fun heq => by rw [heq, hpc] at hawake; cases hawake
  -- the next code of the worker differs from the one that `u` has not read yet
  obtain ⟨as, s', hpath, hreturned, hstranded, hcomputed', hidle, hothers⟩ :=
    overtakes hne hawake (s.result + 1)
  refine ⟨as, s', hpath, fun htruthful => ?_, hstranded, ⟨s.result + 1, ?_⟩, hidle, fun v hv => ?_⟩
  · have hwrong := htruthful u _ hreturned
    rw [hcomputed', Function.update_of_ne hne, hcomputed] at hwrong
    have hresult : s.result = s.result + 1 := Option.some.inj hwrong
    omega
  · rw [hcomputed', Function.update_self]
  · by_cases hvu : v = u
    · rw [hvu, hreturned] at hv
      cases hv
    · exact hvu (h.single v u (.inr (.inr (hothers v hvu hv).2)) (.inr hu))

end Steps

theorem reached_after [DecidableEq Caller] {s : Pool Caller}
    {ok : Pool Caller → Section Caller → Prop} (h : (pool Caller).Reached ok s)
    (a : Section Caller) (allowed : ok s a) (henabled : s.Enabled a) :
    (pool Caller).Reached ok (s.after a) :=
  h.step allowed ⟨henabled, rfl⟩

theorem reached_inv [DecidableEq Caller] {s : Pool Caller} (h : (pool Caller).Reached Spares s) :
    s.Inv := by
  refine h.invariant Inv ?_ ?_
  · rintro s rfl
    exact inv_initial
  · rintro s a s' hinv hspare ⟨henabled, rfl⟩
    exact hinv.after henabled hspare

end Pool

/-- **Callers get their own answers**, and none waits for ever, in every run in which no caller
takes the slot while another one has yet to read its answer. Once a caller does, some further
sections lead to a wrong answer and a lost wake-up. -/
theorem callers_answered (Caller : Type) [DecidableEq Caller] :
    (∀ s, (pool Caller).Reached Pool.Spares s → s.Truthful ∧ ∀ t, ¬ s.Stranded t) ∧
    ∀ s t, (pool Caller).Reached Pool.Spares s → s.Enabled (.claim t) → ¬ s.Spares (.claim t) →
      ∃ as s', Machine.Path (m := pool Caller) (s.after (.claim t)) as s' ∧
        ¬ s'.Truthful ∧ s'.Stranded t := by
  refine ⟨fun s h => ?_, fun s t h henabled hspare => ?_⟩
  · have hinv := Pool.reached_inv h
    exact ⟨hinv.truthful, hinv.not_stranded⟩
  · unfold Pool.Spares at hspare
    push Not at hspare
    obtain ⟨u, hu⟩ := hspare
    exact (Pool.reached_inv h).strands henabled hu

/-- The first caller has its answer in the slot, the second one is about to take it. -/
def answered : Pool Bool :=
  (((((Pool.initial.after (.lockPool true)).after (.claim true)).after (.request true)).after
    (.work 0 (some true))).after (.lockPool false))

theorem reached_answered : (pool Bool).Reached Pool.Spares answered := by
  have hstart : (pool Bool).Reached Pool.Spares .initial := .start rfl
  have hlock := Pool.reached_after hstart (.lockPool true) trivial ⟨rfl, .inl rfl⟩
  have hclaim := Pool.reached_after hlock (.claim true) (fun u hu => by
    cases u <;> rcases hu with hu | hu <;> cases hu) ⟨rfl, rfl, rfl⟩
  have hrequest := Pool.reached_after hclaim (.request true) trivial rfl
  have hwork := Pool.reached_after hrequest (.work 0 (some true)) trivial ⟨rfl, rfl, rfl, rfl⟩
  exact Pool.reached_after hwork (.lockPool false) trivial ⟨rfl, .inl rfl⟩

theorem answered_claim : answered.Enabled (.claim false) ∧ answered.Waits true :=
  ⟨⟨rfl, rfl, rfl⟩, .inr rfl⟩

theorem callers_answered_two :
    (answered.Truthful ∧ ∀ t, ¬ answered.Stranded t) ∧
      ∃ as s', Machine.Path (m := pool Bool) (answered.after (.claim false)) as s' ∧
        ¬ s'.Truthful ∧ s'.Stranded false :=
  ⟨(callers_answered Bool).1 answered reached_answered,
    (callers_answered Bool).2 answered false reached_answered answered_claim.1
      fun h => h true answered_claim.2⟩

/-- Two callers, of which the second takes the slot before the first has read its answer. -/
theorem caller_stranded : ∃ s, (pool Bool).Reachable s ∧ ¬ s.Truthful ∧ s.Stranded false := by
  obtain ⟨as, s, hpath, hwrong, hstranded⟩ :=
    (Pool.reached_inv reached_answered).strands answered_claim.1 answered_claim.2
  have hclaim : (pool Bool).Reachable (answered.after (.claim false)) :=
    Pool.reached_after reached_answered.reachable _ trivial answered_claim.1
  exact ⟨s, hclaim.path hpath, hwrong, hstranded⟩

end Ipa
