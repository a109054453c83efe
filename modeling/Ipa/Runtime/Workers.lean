import Ipa.Lib.Machine
import Mathlib.Logic.Function.Basic

/-!
# Requests in the slots of the workers

A worker has one slot for a request. `kc_emb_exec` looks through the workers for a free slot, puts
its input and its buffer there and waits; the worker executes what is in its slot. `machine n` is
the machine of any number of callers and `n` workers; a step is one critical section, as in the
machine of one worker, but it keeps the requests and says less of the answers.

The mutex of a worker is held from the look at its slot until the request is in it, so a request
is put into a free slot only, and a full slot is emptied by its worker only, which is not waiting
then.
-/

namespace Ipa

namespace Workers

/-- What a caller asks for. -/
structure Request (Input Out : Type) where
  input : Input
  out : Out
deriving DecidableEq, Repr

/-- Where a caller stands in `kc_emb_exec`, with its arguments. -/
inductive Stand (Input Out : Type)
  /-- Outside of a call. -/
  | outside
  /-- Holds the mutex of the pool, and looks at worker `i` next. -/
  | looking (r : Request Input Out) (i : ℕ)
  /-- Waits on `pool_cond`. -/
  | parkedPool (r : Request Input Out)
  /-- Woken, before it has the mutex of the pool again. -/
  | awakePool (r : Request Input Out)
  /-- Holds the mutex of worker `i`, whose slot it takes. -/
  | setting (r : Request Input Out) (i : ℕ)
  /-- Waits on `cond_res` of worker `i`. -/
  | parkedRes (i : ℕ)
  /-- Woken, before it has the mutex of worker `i` again. -/
  | awakeRes (i : ℕ)
  /-- Has read the result. -/
  | finishing (code : Int)
deriving DecidableEq, Repr

/-- `kc_emb_worker_t`. `awake` says that its thread does not wait on `cond_req`. -/
structure Worker (Caller Input Out : Type) where
  mutex : Option Caller
  input : Option Input
  out : Option Out
  result : Int
  hasReq : Bool
  done : Bool
  shutdown : Bool
  awake : Bool

/-- `kc_emb_t`, and the callers. -/
structure Ctx (Caller Input Out : Type) where
  poolMutex : Option Caller
  worker : ℕ → Worker Caller Input Out
  stand : Caller → Stand Input Out

/-- The critical sections. `woken` is the waiter that the signal of the section wakes. -/
inductive Act (Caller Input Out : Type)
  | enter (t : Caller) (r : Request Input Out)
  | refuse (t : Caller) (i : ℕ)
  | waitPool (t : Caller)
  | relock (t : Caller)
  | claim (t : Caller) (i : ℕ)
  | request (t : Caller) (i : ℕ) (r : Request Input Out)
  | readDone (t : Caller) (i : ℕ)
  | leave (t : Caller) (code : Int) (woken : Option Caller)
  | workIdle (i : ℕ)
  | work (i : ℕ) (r : Request Input Out) (code : Int) (woken : Option Caller)
  | wakePool (t : Caller)
  | wakeRes (t : Caller) (i : ℕ)
  | wakeReq (i : ℕ)
  | destroy (i : ℕ)
deriving DecidableEq, Repr

variable {Caller Input Out : Type}

namespace Worker

/-- `kc_emb_worker_init`. -/
def init : Worker Caller Input Out where
  mutex := none
  input := none
  out := none
  result := 0
  hasReq := false
  done := false
  shutdown := false
  awake := true

/-- The request is put into the slot, and `cond_req` signalled. -/
def take (w : Worker Caller Input Out) (r : Request Input Out) : Worker Caller Input Out :=
  { w with mutex := none, input := some r.input, out := some r.out, done := false, hasReq := true
           awake := true }

/-- The worker has executed the request, and waits for the next one. -/
def answer (w : Worker Caller Input Out) (code : Int) : Worker Caller Input Out :=
  { w with result := code, hasReq := false, done := true, awake := false }

/-- The request is in the slot, and not executed yet. -/
structure Holds (w : Worker Caller Input Out) (r : Request Input Out) : Prop where
  hasReq : w.hasReq = true
  input : w.input = some r.input
  out : w.out = some r.out

/-- The slot is as it was. -/
structure SameSlot (w' w : Worker Caller Input Out) : Prop where
  hasReq : w'.hasReq = w.hasReq
  input : w'.input = w.input
  out : w'.out = w.out

/-- The thread does not wait, and finds the request in the slot. -/
structure Works (w : Worker Caller Input Out) (r : Request Input Out) : Prop extends w.Holds r where
  awake : w.awake = true
  mutex : w.mutex = none
  shutdown : w.shutdown = false

/-- What a section does to worker `i`. -/
def after (i : ℕ) (w : Worker Caller Input Out) : Act Caller Input Out → Worker Caller Input Out
  | .claim t j => if j = i then { w with mutex := some t } else w
  | .request _ j r => if j = i then w.take r else w
  | .workIdle j => if j = i then { w with awake := false } else w
  | .work j _ code _ => if j = i then w.answer code else w
  | .wakeReq j => if j = i then { w with awake := true } else w
  | .destroy j => if j = i then { w with shutdown := true, awake := true } else w
  | _ => w

end Worker

namespace Ctx

def initial : Ctx Caller Input Out where
  poolMutex := none
  worker := fun _ => .init
  stand := fun _ => .outside

/-- A signal to the waiters at `waiting` wakes `woken`. -/
def Signals (s : Ctx Caller Input Out) (waiting : Stand Input Out → Prop) : Option Caller → Prop
  | some u => waiting (s.stand u)
  | none => ∀ u, ¬ waiting (s.stand u)

/-- The waiters on `pool_cond`. -/
def WaitsPool : Stand Input Out → Prop
  | .parkedPool _ => True
  | _ => False

def Enabled (n : ℕ) (s : Ctx Caller Input Out) : Act Caller Input Out → Prop
  | .enter t _ => s.poolMutex = none ∧ s.stand t = .outside
  | .refuse t i => i < n ∧ (∃ r, s.stand t = .looking r i) ∧
      (s.worker i).mutex = none ∧ (s.worker i).hasReq = true
  | .waitPool t => ∃ r, s.stand t = .looking r n
  | .relock t => s.poolMutex = none ∧ ∃ r, s.stand t = .awakePool r
  | .claim t i => i < n ∧ (∃ r, s.stand t = .looking r i) ∧
      (s.worker i).mutex = none ∧ (s.worker i).hasReq = false
  | .request t i r => s.stand t = .setting r i
  | .readDone t i => s.stand t = .awakeRes i ∧ (s.worker i).mutex = none
  | .leave t code woken => s.poolMutex = none ∧ s.stand t = .finishing code ∧
      s.Signals WaitsPool woken
  | .workIdle i => i < n ∧ (s.worker i).awake = true ∧ (s.worker i).mutex = none ∧
      (s.worker i).shutdown = false ∧ (s.worker i).hasReq = false
  | .work i r _ woken => i < n ∧ (s.worker i).Works r ∧ s.Signals (· = .parkedRes i) woken
  | .wakePool t => WaitsPool (s.stand t)
  | .wakeRes t i => s.stand t = .parkedRes i
  | .wakeReq _ => True
  | .destroy i => i < n ∧ (s.worker i).mutex = none

variable [DecidableEq Caller]

/-- The caller goes on. -/
def goto (s : Ctx Caller Input Out) (t : Caller) (stand : Stand Input Out) : Ctx Caller Input Out :=
  { s with stand := Function.update s.stand t stand }

def setWorker (s : Ctx Caller Input Out) (i : ℕ) (w : Worker Caller Input Out) :
    Ctx Caller Input Out :=
  { s with worker := Function.update s.worker i w }

@[simp] theorem goto_stand (s : Ctx Caller Input Out) (t : Caller) (stand : Stand Input Out) :
    (s.goto t stand).stand = Function.update s.stand t stand := rfl

@[simp] theorem goto_worker (s : Ctx Caller Input Out) (t : Caller) (stand : Stand Input Out) :
    (s.goto t stand).worker = s.worker := rfl

omit [DecidableEq Caller] in
@[simp] theorem setWorker_stand (s : Ctx Caller Input Out) (i : ℕ)
    (w : Worker Caller Input Out) : (s.setWorker i w).stand = s.stand := rfl

omit [DecidableEq Caller] in
@[simp] theorem setWorker_worker (s : Ctx Caller Input Out) (i : ℕ)
    (w : Worker Caller Input Out) :
    (s.setWorker i w).worker = Function.update s.worker i w := rfl

@[simp] theorem goto_poolMutex (s : Ctx Caller Input Out) (t : Caller) (stand : Stand Input Out) :
    (s.goto t stand).poolMutex = s.poolMutex := rfl

omit [DecidableEq Caller] in
@[simp] theorem setWorker_poolMutex (s : Ctx Caller Input Out) (i : ℕ)
    (w : Worker Caller Input Out) : (s.setWorker i w).poolMutex = s.poolMutex := rfl

/-- A caller that waits on `pool_cond` is woken. -/
def wakePool (s : Ctx Caller Input Out) (t : Caller) : Ctx Caller Input Out :=
  match s.stand t with
  | .parkedPool r => s.goto t (.awakePool r)
  | _ => s

def after (s : Ctx Caller Input Out) : Act Caller Input Out → Ctx Caller Input Out
  | .enter t r => { s.goto t (.looking r 0) with poolMutex := some t }
  | .refuse t i => match s.stand t with
    | .looking r _ => s.goto t (.looking r (i + 1))
    | _ => s
  | .waitPool t => match s.stand t with
    | .looking r _ => { s.goto t (.parkedPool r) with poolMutex := none }
    | _ => s
  | .relock t => match s.stand t with
    | .awakePool r => { s.goto t (.looking r 0) with poolMutex := some t }
    | _ => s
  | .claim t i => match s.stand t with
    | .looking r _ => { (s.goto t (.setting r i)).setWorker i
        { s.worker i with mutex := some t } with poolMutex := none }
    | _ => s
  | .request t i r => (s.goto t (.parkedRes i)).setWorker i ((s.worker i).take r)
  | .readDone t i => s.goto t
      (if (s.worker i).done then .finishing (s.worker i).result else .parkedRes i)
  | .leave t _ woken => match woken with
    | some u => (s.wakePool u).goto t .outside
    | none => s.goto t .outside
  | .workIdle i => s.setWorker i { s.worker i with awake := false }
  | .work i _ code woken => match woken with
    | some u => (s.goto u (.awakeRes i)).setWorker i ((s.worker i).answer code)
    | none => s.setWorker i ((s.worker i).answer code)
  | .wakePool t => s.wakePool t
  | .wakeRes t i => s.goto t (.awakeRes i)
  | .wakeReq i => s.setWorker i { s.worker i with awake := true }
  | .destroy i => s.setWorker i { s.worker i with shutdown := true, awake := true }

end Ctx

/-- The callers and the `n` workers. -/
def machine (Caller Input Out : Type) [DecidableEq Caller] (n : ℕ) :
    Machine (Ctx Caller Input Out) (Act Caller Input Out) where
  Start s := s = .initial
  Step s a s' := s.Enabled n a ∧ s' = s.after a

/-! ## What should hold -/

/-- What happens to requests. -/
inductive Event (Caller Input Out : Type)
  | called (t : Caller) (r : Request Input Out)
  | installed (t : Caller) (i : ℕ) (r : Request Input Out)
  | executed (i : ℕ) (r : Request Input Out)
deriving DecidableEq, Repr

/-- What a section does with the slot of worker `i`. -/
def Act.atWorker (i : ℕ) : Act Caller Input Out → Option (Event Caller Input Out)
  | .request t j r => if j = i then some (.installed t i r) else none
  | .work j r _ _ => if j = i then some (.executed i r) else none
  | _ => none

/-- What a section does with the requests of a caller. -/
def Act.ofCaller [DecidableEq Caller] (t : Caller) :
    Act Caller Input Out → Option (Event Caller Input Out)
  | .enter u r => if u = t then some (.called t r) else none
  | .request u i r => if u = t then some (.installed t i r) else none
  | _ => none

/-- Requests of callers that worker `i` got and executed, one after the other. -/
def rounds (i : ℕ) (rs : List (Caller × Request Input Out)) : List (Event Caller Input Out) :=
  rs.flatMap fun p => [.installed p.1 i p.2, .executed i p.2]

/-- Calls of a caller, each of which put its own request into one slot. -/
def calls (t : Caller) (rs : List (ℕ × Request Input Out)) : List (Event Caller Input Out) :=
  rs.flatMap fun p => [.called t p.2, .installed t p.1 p.2]

/-- The arguments of a call that has not put them into a slot. -/
def Stand.asks : Stand Input Out → Option (Request Input Out)
  | .looking r _ | .parkedPool r | .awakePool r | .setting r _ => some r
  | _ => none

/-- Each request that was put into the slot of worker `i` was executed before the next one was
put there; the last one may still be in the slot. -/
def ExecutedOnce (as : List (Act Caller Input Out)) (i : ℕ) (w : Worker Caller Input Out) :
    Prop :=
  ∃ rs, (w.hasReq = false ∧ as.filterMap (Act.atWorker i) = rounds i rs) ∨
    ∃ t r, w.Holds r ∧ as.filterMap (Act.atWorker i) = rounds i rs ++ [.installed t i r]

/-- Each call of the caller put its own request into one slot; the last one may be about to. -/
def AskedOnce [DecidableEq Caller] (as : List (Act Caller Input Out)) (t : Caller)
    (stand : Stand Input Out) : Prop :=
  ∃ rs, as.filterMap (Act.ofCaller t) =
    calls t rs ++ (stand.asks.map fun r => Event.called t r).toList

/-! ## The invariant -/

namespace Ctx

structure Inv (n : ℕ) (s : Ctx Caller Input Out) : Prop where
  /-- A caller that takes a slot has its mutex, and the slot is free. -/
  setting : ∀ t r i, s.stand t = .setting r i →
    i < n ∧ (s.worker i).mutex = some t ∧ (s.worker i).hasReq = false
  /-- The worker of a full slot can run. -/
  full : ∀ i, (s.worker i).hasReq = true →
    (s.worker i).awake = true ∧ (s.worker i).mutex = none

theorem inv_initial (n : ℕ) : (initial : Ctx Caller Input Out).Inv n := by
  constructor
  · intro t r i h
    cases h
  · intro i h
    cases h

section Steps

variable {s : Ctx Caller Input Out} {n i : ℕ} {t : Caller}

theorem Inv.setPoolMutex (h : s.Inv n) (holder : Option Caller) :
    Inv n { s with poolMutex := holder } :=
  ⟨h.setting, h.full⟩

theorem Inv.works (h : s.Inv n) {r : Request Input Out} (hr : (s.worker i).Holds r)
    (hopen : (s.worker i).shutdown = false) : (s.worker i).Works r :=
  ⟨hr, (h.full i hr.hasReq).1, (h.full i hr.hasReq).2, hopen⟩

variable [DecidableEq Caller]

theorem Inv.goto (h : s.Inv n) (t : Caller) {stand : Stand Input Out}
    (hstand : ∀ r i, stand ≠ .setting r i) : (s.goto t stand).Inv n := by
  refine ⟨fun u r i hu => ?_, h.full⟩
  by_cases hut : u = t
  · subst hut
    rw [goto_stand, Function.update_self] at hu
    exact absurd hu (hstand r i)
  · rw [goto_stand, Function.update_of_ne hut] at hu
    exact h.setting u r i hu

theorem Inv.wakePool (h : s.Inv n) (t : Caller) : (s.wakePool t).Inv n := by
  unfold Ctx.wakePool
  split
  · exact h.goto t (by simp)
  · exact h

omit [DecidableEq Caller] in
/-- A worker that goes on with its slot, or frees it. -/
theorem Inv.setWorker (h : s.Inv n) (i : ℕ) {w : Worker Caller Input Out}
    (hmutex : w.mutex = (s.worker i).mutex)
    (hslot : w.hasReq = true → (s.worker i).hasReq = true ∧ w.awake = true) :
    (s.setWorker i w).Inv n := by
  constructor
  · intro t r j hj
    obtain ⟨hlt, hholder, hfree⟩ := h.setting t r j hj
    by_cases hji : j = i
    · subst hji
      have hempty : w.hasReq = false := by
        by_contra hfull
        rw [(hslot (by simpa using hfull)).1] at hfree
        cases hfree
      simp only [setWorker_worker, Function.update_self]
      exact ⟨hlt, hmutex.trans hholder, hempty⟩
    · simp only [setWorker_worker, Function.update_of_ne hji]
      exact ⟨hlt, hholder, hfree⟩
  · intro j hj
    by_cases hji : j = i
    · subst hji
      simp only [setWorker_worker, Function.update_self] at hj ⊢
      exact ⟨(hslot hj).2, hmutex.trans (h.full j (hslot hj).1).2⟩
    · simp only [setWorker_worker, Function.update_of_ne hji] at hj ⊢
      exact h.full j hj

/-- A caller takes the free slot of a worker, and keeps its mutex. -/
theorem Inv.claim (h : s.Inv n) {r : Request Input Out} (hi : i < n)
    (hmutex : (s.worker i).mutex = none) (hfree : (s.worker i).hasReq = false) :
    ((s.goto t (.setting r i)).setWorker i { s.worker i with mutex := some t }).Inv n := by
  constructor
  · intro u q j hu
    by_cases hut : u = t
    · subst hut
      simp only [goto_stand, setWorker_stand, Function.update_self, Stand.setting.injEq] at hu
      obtain ⟨-, rfl⟩ := hu
      simp only [setWorker_worker, Function.update_self]
      exact ⟨hi, trivial, hfree⟩
    · simp only [goto_stand, setWorker_stand, Function.update_of_ne hut] at hu
      have hheld := h.setting u q j hu
      have hji : j ≠ i := by
        intro heq
        rw [heq, hmutex] at hheld
        cases hheld.2.1
      simpa only [goto_worker, setWorker_worker, Function.update_of_ne hji] using hheld
  · intro j hj
    by_cases hji : j = i
    · subst hji
      simp only [goto_worker, setWorker_worker, Function.update_self] at hj
      rw [hfree] at hj
      cases hj
    · simp only [goto_worker, setWorker_worker, Function.update_of_ne hji] at hj ⊢
      exact h.full j hj

/-- The caller that has the mutex of the worker puts its request into the slot. -/
theorem Inv.request (h : s.Inv n) {r : Request Input Out} (ht : s.stand t = .setting r i) :
    ((s.goto t (.parkedRes i)).setWorker i ((s.worker i).take r)).Inv n := by
  have hheld := (h.setting t r i ht).2.1
  constructor
  · intro u q j hu
    by_cases hut : u = t
    · subst hut
      simp only [goto_stand, setWorker_stand, Function.update_self] at hu
      cases hu
    · simp only [goto_stand, setWorker_stand, Function.update_of_ne hut] at hu
      have hother := h.setting u q j hu
      have hji : j ≠ i := by
        intro heq
        rw [heq, hheld] at hother
        exact hut (Option.some.inj hother.2.1).symm
      simpa only [goto_worker, setWorker_worker, Function.update_of_ne hji] using hother
  · intro j hj
    by_cases hji : j = i
    · subst hji
      simp only [goto_worker, setWorker_worker, Function.update_self]
      exact ⟨rfl, rfl⟩
    · simp only [goto_worker, setWorker_worker, Function.update_of_ne hji] at hj ⊢
      exact h.full j hj

/-- **One section** keeps the invariant. -/
theorem Inv.after (h : s.Inv n) {a : Act Caller Input Out} (he : s.Enabled n a) :
    (s.after a).Inv n := by
  cases a with
  | enter t r => exact (h.goto t (by simp)).setPoolMutex _
  | refuse t i =>
    obtain ⟨-, ⟨r, hr⟩, -, -⟩ := he
    simp only [Ctx.after, hr]
    exact h.goto t (by simp)
  | waitPool t =>
    obtain ⟨r, hr⟩ := he
    simp only [Ctx.after, hr]
    exact (h.goto t (by simp)).setPoolMutex _
  | relock t =>
    obtain ⟨-, r, hr⟩ := he
    simp only [Ctx.after, hr]
    exact (h.goto t (by simp)).setPoolMutex _
  | claim t i =>
    obtain ⟨hi, ⟨r, hr⟩, hmutex, hfree⟩ := he
    simp only [Ctx.after, hr]
    exact (h.claim hi hmutex hfree).setPoolMutex _
  | request t i r => exact h.request he
  | readDone t i =>
    refine h.goto t fun r j => ?_
    split <;> simp
  | leave t code woken =>
    cases woken with
    | none => exact h.goto t (by simp)
    | some u => exact (h.wakePool u).goto t (by simp)
  | workIdle i =>
    obtain ⟨-, -, -, -, hfree⟩ := he
    refine h.setWorker i rfl fun hfull => ?_
    rw [hfree] at hfull
    cases hfull
  | work i r code woken =>
    cases woken with
    | none => exact h.setWorker i rfl fun hfull => by cases hfull
    | some u => exact (h.goto u (by simp)).setWorker i rfl fun hfull => by cases hfull
  | wakePool t => exact h.wakePool t
  | wakeRes t i => exact h.goto t (by simp)
  | wakeReq i => exact h.setWorker i rfl fun hfull => ⟨hfull, rfl⟩
  | destroy i => exact h.setWorker i rfl fun hfull => ⟨hfull, rfl⟩

/-! ## What a section does to requests -/

theorem after_worker {a : Act Caller Input Out} (he : s.Enabled n a) :
    (s.after a).worker i = (s.worker i).after i a := by
  have hset : ∀ (j : ℕ) (w : Worker Caller Input Out → Worker Caller Input Out),
      Function.update s.worker j (w (s.worker j)) i =
        if j = i then w (s.worker i) else s.worker i := by
    intro j w
    by_cases hji : j = i
    · subst hji
      rw [Function.update_self, if_pos rfl]
    · rw [Function.update_of_ne (Ne.symm hji), if_neg hji]
  have hwake : ∀ u, (s.wakePool u).worker = s.worker := by
    intro u
    unfold Ctx.wakePool
    split <;> rfl
  cases a with
  | enter t r => rfl
  | refuse t j =>
    obtain ⟨-, ⟨r, hr⟩, -, -⟩ := he
    simp only [Ctx.after, hr]
    rfl
  | waitPool t =>
    obtain ⟨r, hr⟩ := he
    simp only [Ctx.after, hr]
    rfl
  | relock t =>
    obtain ⟨-, r, hr⟩ := he
    simp only [Ctx.after, hr]
    rfl
  | claim t j =>
    obtain ⟨-, ⟨r, hr⟩, -, -⟩ := he
    simp only [Ctx.after, hr]
    exact hset j fun w => { w with mutex := some t }
  | request t j r => exact hset j fun w => w.take r
  | readDone t j => rfl
  | leave t code woken =>
    cases woken with
    | none => rfl
    | some u => exact congrFun (hwake u) i
  | workIdle j => exact hset j fun w => { w with awake := false }
  | work j r code woken => cases woken <;> exact hset j fun w => w.answer code
  | wakePool t => exact congrFun (hwake t) i
  | wakeRes t j => rfl
  | wakeReq j => exact hset j fun w => { w with awake := true }
  | destroy j => exact hset j fun w => { w with shutdown := true, awake := true }

/-- Only putting a request into a slot and executing it change what the slot holds. -/
theorem after_slot {a : Act Caller Input Out} (he : s.Enabled n a) (ha : a.atWorker i = none) :
    ((s.after a).worker i).SameSlot (s.worker i) := by
  rw [after_worker he]
  cases a with
  | request t j r =>
    have hji : j ≠ i := fun hji => by simp [Act.atWorker, hji] at ha
    rw [Worker.after, if_neg hji]
    exact ⟨rfl, rfl, rfl⟩
  | work j r code woken =>
    have hji : j ≠ i := fun hji => by simp [Act.atWorker, hji] at ha
    rw [Worker.after, if_neg hji]
    exact ⟨rfl, rfl, rfl⟩
  | claim t j | workIdle j | wakeReq j | destroy j =>
    rw [Worker.after]
    split <;> exact ⟨rfl, rfl, rfl⟩
  | _ => exact ⟨rfl, rfl, rfl⟩

theorem after_shutdown {a : Act Caller Input Out} (he : s.Enabled n a) (ha : a ≠ .destroy i) :
    ((s.after a).worker i).shutdown = (s.worker i).shutdown := by
  rw [after_worker he]
  cases a with
  | destroy j =>
    have hji : j ≠ i := fun hji => ha (by rw [hji])
    rw [Worker.after, if_neg hji]
  | claim t j | request t j r | workIdle j | work j r code woken | wakeReq j =>
    rw [Worker.after]
    split <;> rfl
  | _ => rfl

/-- A caller keeps its arguments from the beginning of the call until they are in a slot. -/
theorem after_asks {a : Act Caller Input Out} (he : s.Enabled n a) (ha : a.ofCaller t = none) :
    ((s.after a).stand t).asks = (s.stand t).asks := by
  have hset : ∀ (s : Ctx Caller Input Out) (u : Caller) (stand : Stand Input Out),
      (u = t → stand.asks = (s.stand t).asks) →
        (Function.update s.stand u stand t).asks = (s.stand t).asks := by
    intro s u stand hstand
    by_cases hut : u = t
    · subst hut
      rw [Function.update_self]
      exact hstand rfl
    · rw [Function.update_of_ne (Ne.symm hut)]
  have hwake : ∀ u, ((s.wakePool u).stand t).asks = (s.stand t).asks := by
    intro u
    unfold Ctx.wakePool
    split
    · next r hr =>
      refine hset s u _ fun hut => ?_
      rw [← hut, hr]
      rfl
    · rfl
  cases a with
  | enter u r =>
    refine hset s u _ fun hut => ?_
    simp [Act.ofCaller, hut] at ha
  | refuse u j =>
    obtain ⟨-, ⟨r, hr⟩, -, -⟩ := he
    simp only [Ctx.after, hr]
    exact hset s u _ fun hut => by rw [← hut, hr]; rfl
  | waitPool u =>
    obtain ⟨r, hr⟩ := he
    simp only [Ctx.after, hr]
    exact hset s u _ fun hut => by rw [← hut, hr]; rfl
  | relock u =>
    obtain ⟨-, r, hr⟩ := he
    simp only [Ctx.after, hr]
    exact hset s u _ fun hut => by rw [← hut, hr]; rfl
  | claim u j =>
    obtain ⟨-, ⟨r, hr⟩, -, -⟩ := he
    simp only [Ctx.after, hr]
    exact hset s u _ fun hut => by rw [← hut, hr]; rfl
  | request u j r =>
    refine hset s u _ fun hut => ?_
    simp [Act.ofCaller, hut] at ha
  | readDone u j =>
    refine hset s u _ fun hut => ?_
    rw [← hut, he.1]
    split <;> rfl
  | leave u code woken =>
    obtain ⟨-, hu, -⟩ := he
    cases woken with
    | none => exact hset s u _ fun hut => by rw [← hut, hu]; rfl
    | some v =>
      refine (hset (s.wakePool v) u _ fun hut => ?_).trans (hwake v)
      rw [hwake v, ← hut, hu]
      rfl
  | workIdle j => rfl
  | work j r code woken =>
    cases woken with
    | none => rfl
    | some u =>
      have hu : s.stand u = .parkedRes j := he.2.2
      exact hset s u _ fun hut => by rw [← hut, hu]; rfl
  | wakePool u => exact hwake u
  | wakeRes u j =>
    have hu : s.stand u = .parkedRes j := he
    exact hset s u _ fun hut => by rw [← hut, hu]; rfl
  | wakeReq j => rfl
  | destroy j => rfl

end Steps

end Ctx

/-! ## What happened so far -/

section Histories

open Ctx (initial)

variable [DecidableEq Caller] {s : Ctx Caller Input Out} {n i : ℕ} {t : Caller}
  {as : List (Act Caller Input Out)}

omit [DecidableEq Caller] in
theorem filterMap_snoc {Event : Type} (f : Act Caller Input Out → Option Event)
    (as : List (Act Caller Input Out)) (a : Act Caller Input Out) :
    (as ++ [a]).filterMap f = as.filterMap f ++ (f a).toList := by
  rw [List.filterMap_append]
  cases h : f a <;> simp [h]

omit [DecidableEq Caller] in
theorem Worker.Holds.unique {w : Worker Caller Input Out} {r r' : Request Input Out}
    (h : w.Holds r) (h' : w.Holds r') : r = r' := by
  obtain ⟨input, out⟩ := r
  obtain ⟨input', out'⟩ := r'
  have hinput := Option.some.inj (h.input.symm.trans h'.input)
  have hout := Option.some.inj (h.out.symm.trans h'.out)
  simp only at hinput hout
  rw [hinput, hout]

theorem executedOnce_step (h : ExecutedOnce as i (s.worker i)) (hinv : s.Inv n)
    {a : Act Caller Input Out} (he : s.Enabled n a) :
    ExecutedOnce (as ++ [a]) i ((s.after a).worker i) := by
  obtain ⟨rs, hrs⟩ := h
  unfold ExecutedOnce
  rw [filterMap_snoc, Ctx.after_worker he]
  by_cases hquiet : a.atWorker i = none
  · have hslot := Ctx.after_slot he hquiet
    rw [Ctx.after_worker he] at hslot
    refine ⟨rs, hrs.imp ?_ ?_⟩
    · rintro ⟨hfree, hevents⟩
      simp [hslot.hasReq, hfree, hevents, hquiet]
    · rintro ⟨t, r, hr, hevents⟩
      refine ⟨t, r, ⟨hslot.hasReq.trans hr.hasReq, hslot.input.trans hr.input,
        hslot.out.trans hr.out⟩, ?_⟩
      simp [hevents, hquiet]
  cases a with
  | request t j r =>
    have hji : j = i := by
      by_contra hji
      simp [Act.atWorker, hji] at hquiet
    subst hji
    -- the caller has the mutex since it saw that the slot is free
    have hfree := (hinv.setting t r j he).2.2
    rcases hrs with ⟨-, hevents⟩ | ⟨_, _, hr, -⟩
    · refine ⟨rs, .inr ⟨t, r, ?_, ?_⟩⟩
      · simp only [Worker.after, if_pos]
        exact ⟨rfl, rfl, rfl⟩
      · simp [hevents, Act.atWorker]
    · rw [hr.hasReq] at hfree
      cases hfree
  | work j r code woken =>
    have hji : j = i := by
      by_contra hji
      simp [Act.atWorker, hji] at hquiet
    subst hji
    obtain ⟨-, hworks, -⟩ := he
    rcases hrs with ⟨hfree, -⟩ | ⟨t, r', hr', hevents⟩
    · rw [hworks.hasReq] at hfree
      cases hfree
    · have hsame := hworks.toHolds.unique hr'
      subst hsame
      refine ⟨rs ++ [(t, r)], .inl ⟨?_, ?_⟩⟩
      · simp [Worker.after, Worker.answer]
      · simp [hevents, Act.atWorker, rounds]
  | _ => exact absurd rfl hquiet

theorem askedOnce_step (h : AskedOnce as t (s.stand t)) {a : Act Caller Input Out}
    (he : s.Enabled n a) : AskedOnce (as ++ [a]) t ((s.after a).stand t) := by
  obtain ⟨rs, hevents⟩ := h
  unfold AskedOnce
  rw [filterMap_snoc, hevents]
  by_cases hquiet : a.ofCaller t = none
  · rw [Ctx.after_asks he hquiet, hquiet]
    exact ⟨rs, by simp⟩
  cases a with
  | enter u r =>
    have hut : u = t := by
      by_contra hut
      simp [Act.ofCaller, hut] at hquiet
    subst hut
    obtain ⟨-, houtside⟩ := he
    refine ⟨rs, ?_⟩
    simp [Ctx.after, Act.ofCaller, houtside, Stand.asks]
  | request u j r =>
    have hut : u = t := by
      by_contra hut
      simp [Act.ofCaller, hut] at hquiet
    subst hut
    have hsetting : s.stand u = .setting r j := he
    refine ⟨rs ++ [(j, r)], ?_⟩
    simp [Ctx.after, Act.ofCaller, hsetting, Stand.asks, calls]
  | _ => exact absurd rfl hquiet

/-- **A run** up to some point: the invariant and both histories. -/
theorem run_kept (hrun : Machine.Path (m := machine Caller Input Out n) initial as s) :
    s.Inv n ∧ (∀ i, ExecutedOnce as i (s.worker i)) ∧ ∀ t, AskedOnce as t (s.stand t) := by
  have hstart : (initial : Ctx Caller Input Out).Inv n ∧
      (∀ i, ExecutedOnce [] i ((initial : Ctx Caller Input Out).worker i)) ∧
      ∀ t, AskedOnce [] t ((initial : Ctx Caller Input Out).stand t) :=
    ⟨Ctx.inv_initial n, fun i => ⟨[], .inl ⟨rfl, rfl⟩⟩, fun t => ⟨[], rfl⟩⟩
  refine hrun.follows (fun as s => s.Inv n ∧ (∀ i, ExecutedOnce as i (s.worker i)) ∧
    ∀ t, AskedOnce as t (s.stand t)) hstart ?_
  rintro as s a s' ⟨hinv, hexecuted, hasked⟩ ⟨he, rfl⟩
  exact ⟨hinv.after he, fun i => executedOnce_step (hexecuted i) hinv he,
    fun t => askedOnce_step (hasked t) he⟩

end Histories

/-! ## Progress -/

section Progress

variable [DecidableEq Caller] {n i k : ℕ}

/-- The worker can execute what is in its slot. -/
def CanWork (n i : ℕ) (s : Ctx Caller Input Out) : Prop :=
  ∃ r code woken, s.Enabled n (.work i r code woken)

/-- The section of worker `i` in which it executes a request. -/
def IsWork (i : ℕ) (a : Act Caller Input Out) : Prop := ∃ r code woken, a = .work i r code woken

theorem inv_of_execution (e : (machine Caller Input Out n).Execution) (k : ℕ) :
    (e.state k).Inv n := by
  refine (e.reachable k).invariant (fun s => s.Inv n) ?_ ?_
  · rintro s rfl
    exact Ctx.inv_initial n
  · rintro s a s' hinv - ⟨he, rfl⟩
    exact hinv.after he

theorem shutdown_of_execution (e : (machine Caller Input Out n).Execution)
    (hopen : ∀ k, e.act k ≠ .destroy i) (k : ℕ) : ((e.state k).worker i).shutdown = false := by
  induction k with
  | zero =>
    rw [e.start]
    rfl
  | succ k ih =>
    obtain ⟨he, hafter⟩ := e.step k
    rw [hafter, Ctx.after_shutdown he (hopen k)]
    exact ih

omit [DecidableEq Caller] in
theorem canWork_of_works {s : Ctx Caller Input Out} {r : Request Input Out} (hi : i < n)
    (hworks : (s.worker i).Works r) : CanWork n i s := by
  by_cases hparked : ∃ u, s.stand u = .parkedRes i
  · obtain ⟨u, hu⟩ := hparked
    exact ⟨r, 0, some u, hi, hworks, hu⟩
  · push Not at hparked
    exact ⟨r, 0, none, hi, hworks, hparked⟩

/-- A request in a slot stays there until it is executed, and that happens. -/
theorem work_eventually (e : (machine Caller Input Out n).Execution)
    (hopen : ∀ k, e.act k ≠ .destroy i) (hfair : e.Fair (CanWork n i) (IsWork i)) (hi : i < n)
    {r : Request Input Out} (hr : ((e.state k).worker i).Holds r) :
    ∃ l, k ≤ l ∧ (∃ code woken, e.act l = .work i r code woken) ∧
      ∀ j, k ≤ j → j < l → (e.act j).atWorker i = none := by
  -- a full slot is not taken by anyone else
  have hquiet : ∀ l, ((e.state l).worker i).Holds r → ¬ IsWork i (e.act l) →
      (e.act l).atWorker i = none := by
    intro l hl hwork
    have he := (e.step l).1
    cases hact : e.act l with
    | request t j q =>
      rw [hact] at he
      by_cases hji : j = i
      · subst hji
        have hfree := ((inv_of_execution e l).setting t q j he).2.2
        rw [hl.hasReq] at hfree
        cases hfree
      · simp [Act.atWorker, hji]
    | work j q code woken =>
      by_cases hji : j = i
      · subst hji
        exact absurd ⟨q, code, woken, hact⟩ hwork
      · simp [Act.atWorker, hji]
    | _ => rfl
  have hworks : ∀ l, ((e.state l).worker i).Holds r → ((e.state l).worker i).Works r :=
    fun l hl => (inv_of_execution e l).works hl (shutdown_of_execution e hopen l)
  obtain ⟨l, hkl, ⟨q, code, woken, hact⟩, hbefore⟩ := hfair.eventually
    (P := fun s => (s.worker i).Works r) (hworks k hr) (fun s => canWork_of_works hi)
    fun l _ hl hwork => by
      obtain ⟨he, hafter⟩ := e.step l
      have hslot := Ctx.after_slot he (hquiet l hl.toHolds hwork)
      rw [← hafter] at hslot
      exact hworks (l + 1) ⟨hslot.hasReq.trans hl.hasReq, hslot.input.trans hl.input,
        hslot.out.trans hl.out⟩
  refine ⟨l, hkl, ⟨code, woken, ?_⟩, fun j hkj hjl => ?_⟩
  · have he := (e.step l).1
    rw [hact] at he
    rw [hact, he.2.1.toHolds.unique (hbefore l hkl le_rfl).1.toHolds]
  · obtain ⟨hj, hfirst⟩ := hbefore j hkj (le_of_lt hjl)
    exact hquiet j hj.toHolds fun hwork => by
      have := hfirst hwork
      omega

end Progress

end Workers

open Workers in
/-- **Every request is executed once.** In every run the requests of a caller are put into one
slot each, call after call, and each request put into a slot is executed as it is before the next
one is put there. A worker that is not shut down, and is let run when it can, does execute the
request in its slot, and nothing is put there before. -/
theorem requests_executed_once (Caller Input Out : Type) [DecidableEq Caller] (n : ℕ) :
    (∀ as s, Machine.Path (m := machine Caller Input Out n) .initial as s →
      (∀ i, ExecutedOnce as i (s.worker i)) ∧ ∀ t, AskedOnce as t (s.stand t)) ∧
    ∀ (e : (machine Caller Input Out n).Execution) (i : ℕ), (∀ k, e.act k ≠ .destroy i) →
      e.Fair (CanWork n i) (IsWork i) → ∀ k t r, e.act k = .request t i r →
        ∃ l, k < l ∧ (∃ code woken, e.act l = .work i r code woken) ∧
          ∀ j, k < j → j < l → (e.act j).atWorker i = none := by
  refine ⟨fun as s hrun => (run_kept hrun).2, ?_⟩
  intro e i hopen hfair k t r hact
  obtain ⟨he, hafter⟩ := e.step k
  rw [hact] at he hafter
  have hi := ((inv_of_execution e k).setting t r i he).1
  have hr : ((e.state (k + 1)).worker i).Holds r := by
    rw [hafter, Ctx.after_worker (n := n) he, Worker.after, if_pos rfl]
    exact ⟨rfl, rfl, rfl⟩
  exact work_eventually e hopen hfair hi hr

namespace Workers

/-- Two calls of one worker, the second one waits for the slot; then wake-ups of the worker for
ever. -/
def twoCalls : ℕ → Act Bool ℕ ℕ
  | 0 => .enter true ⟨7, 9⟩
  | 1 => .claim true 0
  | 2 => .request true 0 ⟨7, 9⟩
  | 3 => .enter false ⟨8, 5⟩
  | 4 => .refuse false 0
  | 5 => .waitPool false
  | 6 => .work 0 ⟨7, 9⟩ 0 (some true)
  | 7 => .readDone true 0
  | 8 => .leave true 0 (some false)
  | 9 => .relock false
  | 10 => .claim false 0
  | 11 => .request false 0 ⟨8, 5⟩
  | 12 => .work 0 ⟨8, 5⟩ 0 (some false)
  | _ => .wakeReq 0

def twoCallsState : ℕ → Ctx Bool ℕ ℕ
  | 0 => .initial
  | k + 1 => (twoCallsState k).after (twoCalls k)

theorem twoCalls_enabled : ∀ k, (twoCallsState k).Enabled 1 (twoCalls k)
  | 0 => ⟨rfl, rfl⟩
  | 1 => ⟨by decide, ⟨_, rfl⟩, rfl, rfl⟩
  | 2 => rfl
  | 3 => ⟨rfl, rfl⟩
  | 4 => ⟨by decide, ⟨_, rfl⟩, rfl, rfl⟩
  | 5 => ⟨_, rfl⟩
  | 6 => ⟨by decide, ⟨⟨rfl, rfl, rfl⟩, rfl, rfl, rfl⟩, rfl⟩
  | 7 => ⟨rfl, rfl⟩
  | 8 => ⟨rfl, rfl, trivial⟩
  | 9 => ⟨rfl, _, rfl⟩
  | 10 => ⟨by decide, ⟨_, rfl⟩, rfl, rfl⟩
  | 11 => rfl
  | 12 => ⟨by decide, ⟨⟨rfl, rfl, rfl⟩, rfl, rfl, rfl⟩, rfl⟩
  | _ + 13 => trivial

def twoCallsRun : (machine Bool ℕ ℕ 1).Execution :=
  ⟨twoCallsState, twoCalls, rfl, fun k => ⟨twoCalls_enabled k, rfl⟩⟩

theorem twoCalls_free (k : ℕ) : ((twoCallsState (k + 13)).worker 0).hasReq = false := by
  induction k with
  | zero => rfl
  | succ k ih => exact ih

theorem twoCalls_fair : twoCallsRun.Fair (CanWork 1 0) (IsWork 0) := by
  intro k hcan
  obtain ⟨r, code, woken, -, hworks, -⟩ := hcan (k + 13) (by omega)
  have hfree := twoCalls_free k
  change ((twoCallsState (k + 13)).worker 0).Works r at hworks
  rw [hworks.hasReq] at hfree
  cases hfree

theorem twoCalls_open (k : ℕ) : twoCallsRun.act k ≠ .destroy 0 := by
  change twoCalls k ≠ .destroy 0
  unfold twoCalls
  split <;> simp

end Workers

open Workers in
theorem requests_executed_once_two :
    (∀ i, ExecutedOnce ((List.range 13).map twoCalls) i ((twoCallsState 13).worker i)) ∧
      (∃ l, 2 < l ∧ (∃ code woken, twoCalls l = .work 0 ⟨7, 9⟩ code woken) ∧
        ∀ j, 2 < j → j < l → (twoCalls j).atWorker 0 = none) ∧
      ∃ l, 11 < l ∧ (∃ code woken, twoCalls l = .work 0 ⟨8, 5⟩ code woken) ∧
        ∀ j, 11 < j → j < l → (twoCalls j).atWorker 0 = none := by
  obtain ⟨hruns, hexecuted⟩ := requests_executed_once Bool ℕ ℕ 1
  exact ⟨(hruns _ _ (twoCallsRun.path 13)).1,
    hexecuted twoCallsRun 0 twoCalls_open twoCalls_fair 2 true ⟨7, 9⟩ rfl,
    hexecuted twoCallsRun 0 twoCalls_open twoCalls_fair 11 false ⟨8, 5⟩ rfl⟩

end Ipa
