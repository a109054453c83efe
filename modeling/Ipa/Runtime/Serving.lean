import Ipa.Runtime.Asks
import Ipa.Runtime.Workers

/-!
# Parses on one schema

Threads call `kc_ipa_parse` on one schema while the workers of its pool run. A call holds the lock
of the schema from its first question to its last, and each question is a call of `kc_emb_exec`, in
its critical sections. `serving` is the machine of the threads and the workers, for any calls that
ask for values and any function that the workers compute.

Behind the lock the slot of a worker is never taken from under a caller: it is free whenever
somebody looks at it, and the one request in the pool is that of the thread that holds the lock. So
every call gets what it asks for, and its result is that of the call with the function itself.
-/

namespace Ipa

namespace Serving

open Workers (Ctx Act Stand Request)

variable {Thread Query Input Value Result : Type}

/-- Where a thread stands, with what is left of its call. -/
inductive Call (Query Input Value Result : Type)
  | outside
  | inside (query : Query) (left : Asking Input (Option Value) Result)
  | returned (query : Query) (result : Result)

structure State (Thread Query Input Value Result : Type) where
  /-- The lock of the schema. -/
  lock : Option Thread
  pool : Ctx Thread Input Thread
  /-- The buffer that the call of a thread lets the worker write. -/
  buffer : Thread → Option Value
  call : Thread → Call Query Input Value Result

inductive Action (Thread Query Input : Type)
  | lock (t : Thread) (query : Query)
  | run (a : Act Thread Input Thread)
  | unlock (t : Thread)
deriving DecidableEq

/-- `KC_EMB_OK` or `KC_EMB_ERROR`. -/
def status : Option Value → Int
  | some _ => 0
  | none => -1

/-- A thread that is in a call. -/
def Call.Inside : Call Query Input Value Result → Prop
  | .inside _ _ => True
  | _ => False

/-- A call goes on with an answer. -/
def Call.hear (answer : Option Value) :
    Call Query Input Value Result → Call Query Input Value Result
  | .inside query (.ask _ more) => .inside query (more answer)
  | call => call

section Machine

variable (exec : Input → Option Value) (n : ℕ)

/-- Which sections there are: a thread asks what comes next in its call, into its own buffer, and a
worker returns what it computes. -/
def Fits (s : State Thread Query Input Value Result) : Act Thread Input Thread → Prop
  | .enter t r => r.out = t ∧ ∃ query more, s.call t = .inside query (.ask r.input more)
  | .work _ r code _ => code = status (exec r.input)
  | .destroy _ => False
  | _ => True

variable [DecidableEq Thread]

/-- The buffers behind a section. -/
def written (s : State Thread Query Input Value Result) :
    Act Thread Input Thread → Thread → Option Value
  | .work _ r _ _ => match exec r.input with
    | some v => Function.update s.buffer r.out (some v)
    | none => s.buffer
  | _ => s.buffer

/-- The calls behind a section: `kc_emb_exec` returns. -/
def heard (s : State Thread Query Input Value Result) :
    Act Thread Input Thread → Thread → Call Query Input Value Result
  | .leave t code _ =>
    Function.update s.call t ((s.call t).hear (if code = 0 then s.buffer t else none))
  | _ => s.call

inductive Step (program : Query → Asking Input (Option Value) Result) :
    State Thread Query Input Value Result → Action Thread Query Input →
      State Thread Query Input Value Result → Prop
  | lock {s : State Thread Query Input Value Result} {t : Thread} {query : Query}
    (hfree : s.lock = none) (hout : ¬ (s.call t).Inside) : Step program s (.lock t query)
      { s with lock := some t, call := Function.update s.call t (.inside query (program query)) }
  | run {s : State Thread Query Input Value Result} {a : Act Thread Input Thread}
    (henabled : s.pool.Enabled n a) (hfits : Fits exec s a) : Step program s (.run a)
      { s with pool := s.pool.after a, buffer := written exec s a, call := heard s a }
  | unlock {s : State Thread Query Input Value Result} {t : Thread} {query : Query}
    {result : Result} (hcall : s.call t = .inside query (.ret result))
    (hout : s.pool.stand t = .outside) : Step program s (.unlock t)
      { s with lock := none, call := Function.update s.call t (.returned query result) }

def State.initial : State Thread Query Input Value Result :=
  ⟨none, .initial, fun _ => none, fun _ => .outside⟩

/-- The threads and the `n` workers. -/
def serving (program : Query → Asking Input (Option Value) Result) :
    Machine (State Thread Query Input Value Result) (Action Thread Query Input) where
  Start s := s = .initial
  Step := Step exec n program

end Machine

/-! ## The invariant -/

section Invariant

variable (exec : Input → Option Value) (program : Query → Asking Input (Option Value) Result)

/-- The request of the thread is in the slot. -/
structure Pending (s : State Thread Query Input Value Result) (t : Thread) (x : Input) : Prop where
  works : (s.pool.worker 0).Works ⟨x, t⟩
  notDone : (s.pool.worker 0).done = false

/-- The buffer of the thread and a code are those of its question. -/
structure Given (s : State Thread Query Input Value Result) (t : Thread) (x : Input) (code : Int) :
    Prop where
  code : code = status (exec x)
  buffer : ∀ v, exec x = some v → s.buffer t = some v

/-- The worker has answered. -/
structure Answered (s : State Thread Query Input Value Result) (t : Thread) (x : Input) : Prop where
  isDone : (s.pool.worker 0).done = true
  hasReq : (s.pool.worker 0).hasReq = false
  given : Given exec s t x (s.pool.worker 0).result

/-- How far the thread that has the lock is with its question. -/
def Stands (s : State Thread Query Input Value Result) (t : Thread) (x : Input) :
    Stand Input Thread → Prop
  | .outside => True
  | .looking r i | .setting r i => r = ⟨x, t⟩ ∧ i = 0
  | .parkedRes i => i = 0 ∧ Pending s t x
  | .awakeRes i => i = 0 ∧ (Pending s t x ∨ Answered exec s t x)
  | .finishing code => Given exec s t x code
  | _ => False

/-- The thread that has the lock asks its next question, or has its result. -/
def Asks (s : State Thread Query Input Value Result) (t : Thread) :
    Asking Input (Option Value) Result → Prop
  | .ret _ => s.pool.stand t = .outside
  | .ask x _ => Stands exec s t x (s.pool.stand t)

structure Sound (s : State Thread Query Input Value Result) : Prop where
  /-- Only the thread that has the lock is in a call. -/
  others : ∀ t, s.lock ≠ some t → s.pool.stand t = .outside ∧ ¬ (s.call t).Inside
  holder : ∀ t, s.lock = some t → ∃ query left, s.call t = .inside query left ∧
    left.answered exec = (program query).answered exec ∧ Asks exec s t left
  returned : ∀ t query result, s.call t = .returned query result →
    result = (program query).answered exec
  poolMutex : ∀ t, s.pool.poolMutex = some t → ∃ r i, s.pool.stand t = .looking r i
  mutex : ∀ i t, (s.pool.worker i).mutex = some t → ∃ r, s.pool.stand t = .setting r i
  full : ∀ i, (s.pool.worker i).hasReq = true →
    i = 0 ∧ ∃ t, s.pool.stand t = .parkedRes 0 ∨ s.pool.stand t = .awakeRes 0
  shutdown : ∀ i, (s.pool.worker i).shutdown = false

end Invariant

/-! ## What a step can be -/

section Turns

variable [DecidableEq Thread] (exec : Input → Option Value)

/-- A step while thread `t` has the lock. -/
inductive Turn (s : State Thread Query Input Value Result) (t : Thread) :
    Action Thread Query Input → State Thread Query Input Value Result → Prop
  | unlock {query : Query} {result : Result} (hcall : s.call t = .inside query (.ret result))
    (hout : s.pool.stand t = .outside) : Turn s t (.unlock t)
      { s with lock := none, call := Function.update s.call t (.returned query result) }
  | enter {query : Query} {x : Input} {more : Option Value → Asking Input (Option Value) Result}
    (hcall : s.call t = .inside query (.ask x more)) (hout : s.pool.stand t = .outside) :
    Turn s t (.run (.enter t ⟨x, t⟩))
      { s with pool := { s.pool.goto t (.looking ⟨x, t⟩ 0) with poolMutex := some t } }
  | claim {query : Query} {x : Input} {more : Option Value → Asking Input (Option Value) Result}
    (hcall : s.call t = .inside query (.ask x more))
    (hstand : s.pool.stand t = .looking ⟨x, t⟩ 0) (hslot : (s.pool.worker 0).hasReq = false) :
    Turn s t (.run (.claim t 0))
      { s with
        pool := { (s.pool.goto t (.setting ⟨x, t⟩ 0)).setWorker 0
          { s.pool.worker 0 with mutex := some t } with poolMutex := none } }
  | request {query : Query} {x : Input} {more : Option Value → Asking Input (Option Value) Result}
    (hcall : s.call t = .inside query (.ask x more))
    (hstand : s.pool.stand t = .setting ⟨x, t⟩ 0) : Turn s t (.run (.request t 0 ⟨x, t⟩))
      { s with
        pool := (s.pool.goto t (.parkedRes 0)).setWorker 0 ((s.pool.worker 0).take ⟨x, t⟩) }
  | again {query : Query} {x : Input} {more : Option Value → Asking Input (Option Value) Result}
    (hcall : s.call t = .inside query (.ask x more)) (hstand : s.pool.stand t = .awakeRes 0)
    (hpending : Pending s t x) : Turn s t (.run (.readDone t 0))
      { s with pool := s.pool.goto t (.parkedRes 0) }
  | read {query : Query} {x : Input} {more : Option Value → Asking Input (Option Value) Result}
    (hcall : s.call t = .inside query (.ask x more)) (hstand : s.pool.stand t = .awakeRes 0)
    (hanswered : Answered exec s t x) : Turn s t (.run (.readDone t 0))
      { s with pool := s.pool.goto t (.finishing (s.pool.worker 0).result) }
  | leave {query : Query} {x : Input} {more : Option Value → Asking Input (Option Value) Result}
    {code : Int} (hcall : s.call t = .inside query (.ask x more))
    (hstand : s.pool.stand t = .finishing code) (hgiven : Given exec s t x code) :
    Turn s t (.run (.leave t code none))
      { s with
        pool := s.pool.goto t .outside
        call := Function.update s.call t (.inside query (more (exec x))) }
  | work {query : Query} {x : Input} {more : Option Value → Asking Input (Option Value) Result}
    {woken : Option Thread} (hcall : s.call t = .inside query (.ask x more))
    (hstand : s.pool.stand t = .parkedRes 0 ∨ s.pool.stand t = .awakeRes 0)
    (hpending : Pending s t x) : Turn s t (.run (.work 0 ⟨x, t⟩ (status (exec x)) woken))
      { s with
        pool := (s.pool.goto t (.awakeRes 0)).setWorker 0
          ((s.pool.worker 0).answer (status (exec x)))
        buffer := written exec s (.work 0 ⟨x, t⟩ (status (exec x)) woken) }
  | wake {query : Query} {x : Input} {more : Option Value → Asking Input (Option Value) Result}
    (hcall : s.call t = .inside query (.ask x more)) (hstand : s.pool.stand t = .parkedRes 0)
    (hpending : Pending s t x) : Turn s t (.run (.wakeRes t 0))
      { s with pool := s.pool.goto t (.awakeRes 0) }
  | idle {i : ℕ} (hslot : (s.pool.worker i).hasReq = false) : Turn s t (.run (.workIdle i))
      { s with pool := s.pool.setWorker i { s.pool.worker i with awake := false } }
  | wakeReq {i : ℕ} : Turn s t (.run (.wakeReq i))
      { s with pool := s.pool.setWorker i { s.pool.worker i with awake := true } }

variable {exec} {program : Query → Asking Input (Option Value) Result} {n : ℕ}
  {s s' : State Thread Query Input Value Result} {t u : Thread} {b : Action Thread Query Input}

omit [DecidableEq Thread] in
/-- A thread that is not outside of the pool has the lock. -/
theorem Sound.locked (h : Sound exec program s) (hu : s.pool.stand u ≠ .outside) :
    s.lock = some u := by
  by_contra hlock
  exact hu (h.others u hlock).1

omit [DecidableEq Thread] in
theorem Sound.alone (h : Sound exec program s) (ht : s.lock = some t)
    (hu : s.pool.stand u ≠ .outside) : u = t :=
  Option.some.inj ((h.locked hu).symm.trans ht)

omit [DecidableEq Thread] in
/-- What a thread that is in the pool asks. -/
theorem Sound.asks (h : Sound exec program s) (hu : s.pool.stand u ≠ .outside) :
    ∃ query x more, s.call u = .inside query (.ask x more) ∧
      Stands exec s u x (s.pool.stand u) := by
  obtain ⟨query, left, hcall, -, hasks⟩ := h.holder u (h.locked hu)
  cases left with
  | ret result => exact absurd hasks hu
  | ask x more => exact ⟨query, x, more, hcall, hasks⟩

omit [DecidableEq Thread] in
/-- The one request in the pool. -/
theorem Sound.pending (h : Sound exec program s) (ht : s.lock = some t) {i : ℕ}
    (hreq : (s.pool.worker i).hasReq = true) : i = 0 ∧ ∃ query x more,
      s.call t = .inside query (.ask x more) ∧ Pending s t x ∧
        (s.pool.stand t = .parkedRes 0 ∨ s.pool.stand t = .awakeRes 0) := by
  obtain ⟨rfl, u, hu⟩ := h.full i hreq
  have hout : s.pool.stand u ≠ .outside := by rcases hu with hu | hu <;> simp [hu]
  obtain rfl := h.alone ht hout
  obtain ⟨query, x, more, hcall, hstands⟩ := h.asks hout
  refine ⟨rfl, query, x, more, hcall, ?_, hu⟩
  rcases hu with hu | hu <;> rw [hu] at hstands
  · exact hstands.2
  · rcases hstands.2 with hpending | hanswered
    · exact hpending
    · rw [hanswered.hasReq] at hreq
      cases hreq

omit [DecidableEq Thread] in
/-- Nobody waits for a slot. -/
theorem Sound.not_waitsPool (h : Sound exec program s) (u : Thread) :
    ¬ Ctx.WaitsPool (s.pool.stand u) := by
  intro hwaits
  obtain ⟨query, x, more, -, hstands⟩ := h.asks (u := u) (by intro hout; rw [hout] at hwaits; exact hwaits)
  cases hstand : s.pool.stand u <;> rw [hstand] at hwaits hstands <;>
    first | exact hwaits.elim | exact hstands.elim

omit [DecidableEq Thread] in
/-- What `kc_emb_exec` gives back. -/
theorem Given.answer {x : Input} {code : Int} (h : Given exec s t x code) :
    (if code = 0 then s.buffer t else none) = exec x := by
  rw [h.code]
  cases hx : exec x with
  | none => rfl
  | some v => exact h.buffer v hx

/-- **A section**, while thread `t` has the lock. -/
theorem Sound.run_turn (h : Sound exec program s) (ht : s.lock = some t) (hn : 0 < n)
    {a : Act Thread Input Thread} (he : s.pool.Enabled n a) (hfits : Fits exec s a) :
    Turn exec s t (.run a)
      { s with pool := s.pool.after a, buffer := written exec s a, call := heard s a } := by
  cases a with
  | enter u r =>
    obtain ⟨hout, query, more, hcall⟩ := hfits
    obtain rfl : u = t := by
      by_contra hut
      have hothers := h.others u (by rw [ht]; simpa using Ne.symm hut)
      rw [hcall] at hothers
      exact hothers.2 trivial
    obtain ⟨x, out⟩ := r
    obtain rfl : out = u := hout
    exact .enter hcall he.2
  | refuse u i =>
    obtain ⟨-, ⟨r, hr⟩, -, hreq⟩ := he
    obtain rfl := h.alone ht (u := u) (by simp [hr])
    obtain ⟨-, -, -, -, -, -, hstand⟩ := h.pending ht hreq
    rw [hr] at hstand
    rcases hstand with hstand | hstand <;> cases hstand
  | waitPool u =>
    obtain ⟨r, hr⟩ := he
    obtain ⟨query, x, more, -, hstands⟩ := h.asks (u := u) (by simp [hr])
    rw [hr] at hstands
    exact absurd hstands.2 (by omega)
  | relock u =>
    obtain ⟨-, r, hr⟩ := he
    obtain ⟨query, x, more, -, hstands⟩ := h.asks (u := u) (by simp [hr])
    rw [hr] at hstands
    exact hstands.elim
  | claim u i =>
    obtain ⟨-, ⟨r, hr⟩, -, hreq⟩ := he
    obtain rfl := h.alone ht (u := u) (by simp [hr])
    obtain ⟨query, x, more, hcall, hstands⟩ := h.asks (u := u) (by simp [hr])
    rw [hr] at hstands
    obtain ⟨rfl, rfl⟩ := hstands
    have hturn : Turn exec s u _ _ := .claim hcall hr hreq
    simpa only [Ctx.after, hr, written, heard] using hturn
  | request u i r =>
    have hr : s.pool.stand u = .setting r i := he
    obtain rfl := h.alone ht (u := u) (by simp [hr])
    obtain ⟨query, x, more, hcall, hstands⟩ := h.asks (u := u) (by simp [hr])
    rw [hr] at hstands
    obtain ⟨rfl, rfl⟩ := hstands
    exact .request hcall hr
  | readDone u i =>
    obtain ⟨hr, -⟩ := he
    obtain rfl := h.alone ht (u := u) (by simp [hr])
    obtain ⟨query, x, more, hcall, hstands⟩ := h.asks (u := u) (by simp [hr])
    rw [hr] at hstands
    obtain ⟨rfl, hpending | hanswered⟩ := hstands
    · have hturn : Turn exec s u _ _ := .again hcall hr hpending
      simpa [Ctx.after, hpending.notDone, written, heard] using hturn
    · have hturn := Turn.read hcall hr hanswered
      simpa [Ctx.after, hanswered.isDone, written, heard] using hturn
  | leave u code woken =>
    obtain ⟨-, hr, hsignal⟩ := he
    obtain rfl := h.alone ht (u := u) (by simp [hr])
    obtain ⟨query, x, more, hcall, hstands⟩ := h.asks (u := u) (by simp [hr])
    rw [hr] at hstands
    cases woken with
    | some v => exact absurd hsignal (h.not_waitsPool v)
    | none =>
      have hturn := Turn.leave hcall hr hstands
      have hheard : heard s (.leave u code none) =
          Function.update s.call u (.inside query (more (exec x))) := by
        simp only [heard, hcall, Call.hear, hstands.answer]
      rwa [← hheard] at hturn
  | workIdle i => exact .idle he.2.2.2.2
  | work i r code woken =>
    obtain ⟨-, hworks, hsignal⟩ := he
    obtain ⟨rfl, query, x, more, hcall, hpending, hstand⟩ := h.pending ht hworks.hasReq
    obtain rfl := Workers.Worker.Holds.unique hworks.toHolds hpending.works.toHolds
    obtain rfl : code = status (exec x) := hfits
    have hturn : Turn exec s t (.run (.work 0 ⟨x, t⟩ (status (exec x)) woken)) _ :=
      .work hcall hstand hpending
    cases woken with
    | some u =>
      have hu : s.pool.stand u = .parkedRes 0 := hsignal
      obtain rfl := h.alone ht (u := u) (by simp [hu])
      exact hturn
    | none =>
      -- the thread has woken by itself
      have hawake := hstand.resolve_left (hsignal t)
      have hgoto : s.pool.goto t (.awakeRes 0) = s.pool := by
        rw [Ctx.goto, ← hawake, Function.update_eq_self]
      rwa [hgoto] at hturn
  | wakePool u => exact absurd he (h.not_waitsPool u)
  | wakeRes u i =>
    have hr : s.pool.stand u = .parkedRes i := he
    obtain rfl := h.alone ht (u := u) (by simp [hr])
    obtain ⟨query, x, more, hcall, hstands⟩ := h.asks (u := u) (by simp [hr])
    rw [hr] at hstands
    obtain ⟨rfl, hpending⟩ := hstands
    exact .wake hcall hr hpending
  | wakeReq i => exact .wakeReq
  | destroy i => exact hfits.elim

/-- A step is one of those. -/
theorem Sound.step_turn (h : Sound exec program s) (ht : s.lock = some t) (hn : 0 < n)
    (hstep : Step exec n program s b s') : Turn exec s t b s' := by
  cases hstep with
  | lock hfree hout =>
    rw [ht] at hfree
    cases hfree
  | run henabled hfits => exact h.run_turn ht hn henabled hfits
  | @unlock u query result hcall hout =>
    obtain rfl : u = t := by
      by_contra hut
      have hothers := h.others u (by rw [ht]; simpa using Ne.symm hut)
      rw [hcall] at hothers
      exact hothers.2 trivial
    exact .unlock hcall hout

/-! ## Every step keeps the invariant -/

omit [DecidableEq Thread] in
theorem Sound.poolMutex_none (h : Sound exec program s) (ht : s.lock = some t)
    (hstand : ∀ r i, s.pool.stand t ≠ .looking r i) : s.pool.poolMutex = none := by
  cases hmutex : s.pool.poolMutex with
  | none => rfl
  | some u =>
    obtain ⟨r, i, hu⟩ := h.poolMutex u hmutex
    obtain rfl := h.alone ht (u := u) (by simp [hu])
    exact absurd hu (hstand r i)

omit [DecidableEq Thread] in
theorem Sound.mutex_none (h : Sound exec program s) (ht : s.lock = some t)
    (hstand : ∀ r i, s.pool.stand t ≠ .setting r i) (i : ℕ) : (s.pool.worker i).mutex = none := by
  cases hmutex : (s.pool.worker i).mutex with
  | none => rfl
  | some u =>
    obtain ⟨r, hu⟩ := h.mutex i u hmutex
    obtain rfl := h.alone ht (u := u) (by simp [hu])
    exact absurd hu (hstand r i)

omit [DecidableEq Thread] in
theorem Sound.hasReq_false (h : Sound exec program s) (ht : s.lock = some t)
    (hparked : s.pool.stand t ≠ .parkedRes 0) (hawake : s.pool.stand t ≠ .awakeRes 0) (i : ℕ) :
    (s.pool.worker i).hasReq = false := by
  by_contra hreq
  obtain ⟨-, u, hu⟩ := h.full i (by simpa using hreq)
  obtain rfl := h.alone ht (u := u) (by rcases hu with hu | hu <;> simp [hu])
  exact hu.elim hparked hawake

omit [DecidableEq Thread] in
/-- Only what belongs to the thread that has the lock changes. -/
theorem Sound.moved (h : Sound exec program s) (ht : s.lock = some t)
    {pool : Ctx Thread Input Thread} {buffer : Thread → Option Value}
    {call : Thread → Call Query Input Value Result}
    (hstands : ∀ u, u ≠ t → pool.stand u = s.pool.stand u)
    (hcalls : ∀ u, u ≠ t → call u = s.call u)
    (hholder : ∃ query left, call t = .inside query left ∧
      left.answered exec = (program query).answered exec ∧
        Asks exec { s with pool, buffer, call } t left)
    (hpoolMutex : ∀ u, pool.poolMutex = some u → u = t ∧ ∃ r i, pool.stand t = .looking r i)
    (hmutex : ∀ i u, (pool.worker i).mutex = some u → u = t ∧ ∃ r, pool.stand t = .setting r i)
    (hfull : ∀ i, (pool.worker i).hasReq = true →
      i = 0 ∧ (pool.stand t = .parkedRes 0 ∨ pool.stand t = .awakeRes 0))
    (hshutdown : ∀ i, (pool.worker i).shutdown = false) :
    Sound exec program { s with pool, buffer, call } := by
  refine ⟨fun u hu => ?_, fun u hu => ?_, fun u query result hu => ?_, fun u hu => ?_,
    fun i u hu => ?_, fun i hi => ⟨(hfull i hi).1, t, (hfull i hi).2⟩, hshutdown⟩
  · have hut : u ≠ t := by
      rintro rfl
      exact hu ht
    simp only [hstands u hut, hcalls u hut]
    exact h.others u hu
  · obtain rfl : t = u := Option.some.inj (ht.symm.trans hu)
    exact hholder
  · have hut : u ≠ t := by
      rintro rfl
      obtain ⟨query', left, hcall, -⟩ := hholder
      have hboth := hcall.symm.trans hu
      cases hboth
    exact h.returned u query result ((hcalls u hut).symm.trans hu)
  · obtain ⟨rfl, hlooks⟩ := hpoolMutex u hu
    exact hlooks
  · obtain ⟨rfl, hsets⟩ := hmutex i u hu
    exact hsets

omit [DecidableEq Thread] in
theorem Sound.left_answered (h : Sound exec program s) (ht : s.lock = some t) {query : Query}
    {left : Asking Input (Option Value) Result} (hcall : s.call t = .inside query left) :
    left.answered exec = (program query).answered exec := by
  obtain ⟨query', left', hcall', hleft, -⟩ := h.holder t ht
  rw [hcall] at hcall'
  cases hcall'
  exact hleft

/-- The lock is given back. -/
theorem Sound.unlock (h : Sound exec program s) (ht : s.lock = some t) {query : Query}
    {result : Result} (hcall : s.call t = .inside query (.ret result))
    (hout : s.pool.stand t = .outside) :
    Sound exec program
      { s with lock := none, call := Function.update s.call t (.returned query result) } := by
  refine ⟨fun u _ => ?_, fun u hu => (by cases hu), fun u query' result' hu => ?_, h.poolMutex,
    h.mutex, h.full, h.shutdown⟩
  · by_cases hut : u = t
    · subst hut
      simp [hout, Call.Inside]
    · simp only [Function.update_of_ne hut]
      exact h.others u (by rw [ht]; simpa using Ne.symm hut)
  · by_cases hut : u = t
    · subst hut
      simp only [Function.update_self, Call.returned.injEq] at hu
      obtain ⟨rfl, rfl⟩ := hu
      exact h.left_answered ht hcall
    · simp only [Function.update_of_ne hut] at hu
      exact h.returned u query' result' hu

/-- Worker `i` wakes, or waits for a request. -/
def setAwake (s : State Thread Query Input Value Result) (i : ℕ) (awake : Bool) :
    State Thread Query Input Value Result :=
  { s with pool := s.pool.setWorker i { s.pool.worker i with awake } }

omit [DecidableEq Thread] in
theorem setAwake_setAwake (s : State Thread Query Input Value Result) (i : ℕ) (awake : Bool) :
    setAwake (setAwake s i awake) i awake = setAwake s i awake := by
  simp [setAwake, Ctx.setWorker]

omit [DecidableEq Thread] in
/-- Nothing else changes. -/
theorem setAwake_worker (i j : ℕ) (awake : Bool) : (setAwake s i awake).pool.worker j =
    { s.pool.worker j with awake := if j = i then awake else (s.pool.worker j).awake } := by
  unfold setAwake
  by_cases hji : j = i
  · subst hji
    simp
  · simp [hji]

omit [DecidableEq Thread] in
theorem Stands.setAwake {x : Input} {stand : Stand Input Thread} (h : Stands exec s t x stand)
    {i : ℕ} {awake : Bool} (hawake : (s.pool.worker i).hasReq = true → awake = true) :
    Stands exec (setAwake s i awake) t x stand := by
  have hpending : Pending s t x → Pending (Serving.setAwake s i awake) t x := by
    rintro ⟨⟨⟨hreq, hinput, hout⟩, hrun, hmutex, hopen⟩, hdone⟩
    refine ⟨⟨⟨?_, ?_, ?_⟩, ?_, ?_, ?_⟩, ?_⟩ <;> rw [setAwake_worker]
    · exact hreq
    · exact hinput
    · exact hout
    · dsimp only
      split
      · next hi => exact hawake (hi ▸ hreq)
      · exact hrun
    · exact hmutex
    · exact hopen
    · exact hdone
  have hanswered : Answered exec s t x → Answered exec (Serving.setAwake s i awake) t x := by
    rintro ⟨hdone, hreq, hcode, hbuffer⟩
    refine ⟨?_, ?_, ?_, hbuffer⟩ <;> rw [setAwake_worker]
    · exact hdone
    · exact hreq
    · exact hcode
  cases stand with
  | parkedRes j => exact ⟨h.1, hpending h.2⟩
  | awakeRes j => exact ⟨h.1, h.2.imp hpending hanswered⟩
  | finishing code => exact ⟨h.code, h.buffer⟩
  | _ => exact h

omit [DecidableEq Thread] in
theorem Sound.setAwake (h : Sound exec program s) {i : ℕ} {awake : Bool}
    (hawake : (s.pool.worker i).hasReq = true → awake = true) :
    Sound exec program (setAwake s i awake) := by
  refine ⟨h.others, fun u hu => ?_, h.returned, h.poolMutex, fun j => ?_, fun j => ?_, fun j => ?_⟩
  · obtain ⟨query, left, hcall, hleft, hasks⟩ := h.holder u hu
    refine ⟨query, left, hcall, hleft, ?_⟩
    cases left with
    | ret result => exact hasks
    | ask x more => exact Stands.setAwake hasks hawake
  · rw [setAwake_worker]
    exact h.mutex j
  · rw [setAwake_worker]
    exact h.full j
  · rw [setAwake_worker]
    exact h.shutdown j

omit [DecidableEq Thread] in
/-- The other workers have nothing to do. -/
theorem Sound.rest (h : Sound exec program s) {i : ℕ} (hi : i ≠ 0) :
    (s.pool.worker i).mutex = none ∧ (s.pool.worker i).hasReq = false := by
  constructor
  · cases hmutex : (s.pool.worker i).mutex with
    | none => rfl
    | some u =>
      obtain ⟨r, hu⟩ := h.mutex i u hmutex
      obtain ⟨query, x, more, -, hstands⟩ := h.asks (u := u) (by simp [hu])
      rw [hu] at hstands
      exact absurd hstands.2 hi
  · by_contra hreq
    exact hi (h.full i (by simpa using hreq)).1

/-- The thread that has the lock goes on, with what it does to the first worker. -/
theorem Sound.movedSlot (h : Sound exec program s) (ht : s.lock = some t)
    {stand : Stand Input Thread} {w : Workers.Worker Thread Input Thread}
    {poolMutex : Option Thread} {buffer : Thread → Option Value}
    (hholder : ∃ query left, s.call t = .inside query left ∧
      left.answered exec = (program query).answered exec ∧
        Asks exec { s with
          pool := { (s.pool.goto t stand).setWorker 0 w with poolMutex }, buffer } t left)
    (hpoolMutex : ∀ u, poolMutex = some u → u = t ∧ ∃ r i, stand = .looking r i)
    (hmutex : ∀ u, w.mutex = some u → u = t ∧ ∃ r, stand = .setting r 0)
    (hreq : w.hasReq = true → stand = .parkedRes 0 ∨ stand = .awakeRes 0)
    (hshutdown : w.shutdown = false) :
    Sound exec program
      { s with pool := { (s.pool.goto t stand).setWorker 0 w with poolMutex }, buffer } := by
  have hstand : (s.pool.goto t stand).stand t = stand := Function.update_self ..
  apply h.moved ht (fun u hut => Function.update_of_ne hut ..) (fun _ _ => rfl) hholder
  · simpa using hpoolMutex
  · intro i u hu
    by_cases hi : i = 0
    · subst hi
      simpa using hmutex u (by simpa using hu)
    · simp [hi, (h.rest hi).1] at hu
  · intro i hi
    by_cases hi' : i = 0
    · subst hi'
      simpa using hreq (by simpa using hi)
    · simp [hi', (h.rest hi').2] at hi
  · intro i
    by_cases hi : i = 0
    · subst hi
      simpa using hshutdown
    · simpa [hi] using h.shutdown i

theorem Sound.turn (h : Sound exec program s) (ht : s.lock = some t)
    (hturn : Turn exec s t b s') : Sound exec program s' := by
  have hgoto : ∀ (stand : Stand Input Thread) u, u ≠ t →
      (s.pool.goto t stand).stand u = s.pool.stand u :=
    fun stand u hut => Function.update_of_ne hut ..
  cases hturn with
  | unlock hcall hout => exact h.unlock ht hcall hout
  | enter hcall hout =>
    have hmutex := h.mutex_none ht (by simp [hout])
    have hreq := h.hasReq_false ht (by simp [hout]) (by simp [hout])
    apply h.moved ht (fun u hut => Function.update_of_ne hut ..) (fun _ _ => rfl)
      ⟨_, _, hcall, h.left_answered ht hcall, ?_⟩
    · simp
    · simp [hmutex]
    · simp [hreq]
    · exact h.shutdown
    · simp [Asks, Stands]
  | claim hcall hstand hslot =>
    apply h.movedSlot ht ⟨_, _, hcall, h.left_answered ht hcall, ?_⟩
    · simp
    · simp [eq_comm]
    · simp [hslot]
    · exact h.shutdown 0
    · simp [Asks, Stands]
  | @request query x more hcall hstand =>
    have hpool := h.poolMutex_none ht (by simp [hstand])
    have hworks : ((s.pool.worker 0).take ⟨x, t⟩).Works ⟨x, t⟩ :=
      ⟨⟨rfl, rfl, rfl⟩, rfl, rfl, h.shutdown 0⟩
    apply h.movedSlot ht ⟨_, _, hcall, h.left_answered ht hcall, ?_⟩
    · simp [hpool]
    · simp [Workers.Worker.take]
    · simp
    · exact h.shutdown 0
    · simp only [Asks, Ctx.setWorker_stand, Ctx.goto_stand, Function.update_self]
      exact ⟨rfl, by simpa using hworks, by simp [Workers.Worker.take]⟩
  | again hcall hstand hpending =>
    have hpool := h.poolMutex_none ht (by simp [hstand])
    have hmutex := h.mutex_none ht (by simp [hstand])
    apply h.moved ht (hgoto _) (fun _ _ => rfl) ⟨_, _, hcall, h.left_answered ht hcall, ?_⟩
    · simp [hpool]
    · simp [hmutex]
    · intro i hi
      exact ⟨(h.full i hi).1, by simp⟩
    · exact h.shutdown
    · simp only [Asks, Ctx.goto_stand, Function.update_self]
      exact ⟨rfl, hpending.works, hpending.notDone⟩
  | read hcall hstand hanswered =>
    have hpool := h.poolMutex_none ht (by simp [hstand])
    have hmutex := h.mutex_none ht (by simp [hstand])
    apply h.moved ht (hgoto _) (fun _ _ => rfl) ⟨_, _, hcall, h.left_answered ht hcall, ?_⟩
    · simp [hpool]
    · simp [hmutex]
    · intro i hi
      obtain rfl := (h.full i hi).1
      exact absurd (hanswered.hasReq.symm.trans hi) (by decide)
    · exact h.shutdown
    · simp only [Asks, Ctx.goto_stand, Function.update_self]
      exact ⟨hanswered.given.code, hanswered.given.buffer⟩
  | @leave query x more code hcall hstand hgiven =>
    have hpool := h.poolMutex_none ht (by simp [hstand])
    have hmutex := h.mutex_none ht (by simp [hstand])
    have hreq := h.hasReq_false ht (by simp [hstand]) (by simp [hstand])
    have hasked := h.left_answered ht hcall
    have hleft : (more (exec x)).answered exec = (program query).answered exec := hasked
    apply h.moved ht (hgoto _) (fun u hut => Function.update_of_ne hut ..)
      ⟨_, _, Function.update_self .., hleft, ?_⟩
    · simp [hpool]
    · simp [hmutex]
    · simp [hreq]
    · exact h.shutdown
    · cases more (exec x) <;> simp [Asks, Stands]
  | @work query x more woken hcall hstand hpending =>
    have hpool := h.poolMutex_none ht (by rcases hstand with hstand | hstand <;> simp [hstand])
    have hgiven : ∀ v, exec x = some v →
        written exec s (.work 0 ⟨x, t⟩ (status (exec x)) woken) t = some v := by
      intro v hv
      simp [written, hv]
    apply h.movedSlot ht ⟨_, _, hcall, h.left_answered ht hcall, ?_⟩
    · simp [hpool]
    · simp [Workers.Worker.answer, hpending.works.mutex]
    · simp
    · exact h.shutdown 0
    · simp only [Asks, Ctx.setWorker_stand, Ctx.goto_stand, Function.update_self]
      exact ⟨rfl, .inr ⟨by simp [Workers.Worker.answer], by simp [Workers.Worker.answer],
        by simp [Workers.Worker.answer], hgiven⟩⟩
  | wake hcall hstand hpending =>
    have hpool := h.poolMutex_none ht (by simp [hstand])
    have hmutex := h.mutex_none ht (by simp [hstand])
    apply h.moved ht (hgoto _) (fun _ _ => rfl) ⟨_, _, hcall, h.left_answered ht hcall, ?_⟩
    · simp [hpool]
    · simp [hmutex]
    · intro i hi
      exact ⟨(h.full i hi).1, by simp⟩
    · exact h.shutdown
    · simp only [Asks, Ctx.goto_stand, Function.update_self]
      exact ⟨rfl, .inl ⟨hpending.works, hpending.notDone⟩⟩
  | idle hslot => exact h.setAwake fun hreq => by rw [hslot] at hreq; cases hreq
  | wakeReq => exact h.setAwake fun _ => rfl

omit [DecidableEq Thread] in
/-- While nobody has the lock, only workers wake and go to sleep. -/
theorem Sound.free_act (h : Sound exec program s) (hfree : s.lock = none)
    {a : Act Thread Input Thread} (he : s.pool.Enabled n a) (hfits : Fits exec s a) :
    (∃ i, a = .workIdle i) ∨ ∃ i, a = .wakeReq i := by
  have hout : ∀ u, s.pool.stand u = .outside := fun u => (h.others u (by simp [hfree])).1
  cases a with
  | enter u r =>
    obtain ⟨-, query, more, hcall⟩ := hfits
    have hothers := h.others u (by simp [hfree])
    rw [hcall] at hothers
    exact absurd trivial hothers.2
  | refuse u i | claim u i =>
    obtain ⟨-, ⟨r, hr⟩, -⟩ := he
    rw [hout] at hr
    cases hr
  | waitPool u =>
    obtain ⟨r, hr⟩ := he
    rw [hout] at hr
    cases hr
  | relock u =>
    obtain ⟨-, r, hr⟩ := he
    rw [hout] at hr
    cases hr
  | request u i r =>
    have hr : s.pool.stand u = .setting r i := he
    rw [hout] at hr
    cases hr
  | readDone u i =>
    have hr := he.1
    rw [hout] at hr
    cases hr
  | leave u code woken =>
    have hr := he.2.1
    rw [hout] at hr
    cases hr
  | workIdle i => exact .inl ⟨i, rfl⟩
  | work i r code woken =>
    obtain ⟨-, u, hu⟩ := h.full i he.2.1.hasReq
    rw [hout] at hu
    rcases hu with hu | hu <;> cases hu
  | wakePool u =>
    have hr : Ctx.WaitsPool (s.pool.stand u) := he
    rw [hout] at hr
    exact hr.elim
  | wakeRes u i =>
    have hr : s.pool.stand u = .parkedRes i := he
    rw [hout] at hr
    cases hr
  | wakeReq i => exact .inr ⟨i, rfl⟩
  | destroy i => exact hfits.elim

theorem Sound.run_free (h : Sound exec program s) (hfree : s.lock = none)
    {a : Act Thread Input Thread} (he : s.pool.Enabled n a) (hfits : Fits exec s a) :
    Sound exec program
      { s with pool := s.pool.after a, buffer := written exec s a, call := heard s a } := by
  rcases h.free_act hfree he hfits with ⟨i, rfl⟩ | ⟨i, rfl⟩
  · have hslot : (s.pool.worker i).hasReq = false := he.2.2.2.2
    exact h.setAwake fun hreq => by rw [hslot] at hreq; cases hreq
  · exact h.setAwake fun _ => rfl

/-- A thread gets the lock, and its call begins. -/
theorem Sound.locks (h : Sound exec program s) (hfree : s.lock = none) (query : Query) :
    Sound exec program { s with
      lock := some t, call := Function.update s.call t (.inside query (program query)) } := by
  have hout : ∀ u, s.pool.stand u = .outside := fun u => (h.others u (by simp [hfree])).1
  refine ⟨fun u hu => ?_, fun u hu => ?_, fun u query' result hu => ?_, h.poolMutex, h.mutex,
    h.full, h.shutdown⟩
  · have hut : u ≠ t := by
      rintro rfl
      exact hu rfl
    simp only [Function.update_of_ne hut]
    exact h.others u (by simp [hfree])
  · obtain rfl : t = u := Option.some.inj hu
    refine ⟨query, program query, Function.update_self .., rfl, ?_⟩
    cases program query <;> simp [Asks, Stands, hout]
  · by_cases hut : u = t
    · subst hut
      simp at hu
    · simp only [Function.update_of_ne hut] at hu
      exact h.returned u query' result hu

/-- **One step** keeps the invariant. -/
theorem Sound.step (h : Sound exec program s) (hn : 0 < n)
    (hstep : Step exec n program s b s') : Sound exec program s' := by
  cases hlock : s.lock with
  | some t => exact h.turn hlock (h.step_turn hlock hn hstep)
  | none =>
    cases hstep with
    | lock hfree hout => exact h.locks hfree _
    | run henabled hfits => exact h.run_free hlock henabled hfits
    | @unlock u query result hcall hout =>
      have hothers := h.others u (by simp [hlock])
      rw [hcall] at hothers
      exact absurd trivial hothers.2

omit [DecidableEq Thread] in
theorem sound_initial : Sound exec program (.initial : State Thread Query Input Value Result) := by
  refine ⟨fun t _ => ⟨rfl, fun h => h⟩, ?_, ?_, ?_, ?_, ?_, fun _ => rfl⟩
  all_goals
    intros
    rename_i h
    cases h

theorem reachable_sound (hn : 0 < n) (h : (serving exec n program).Reachable s) :
    Sound exec program s := by
  refine h.invariant (Sound exec program) ?_ fun _ _ _ hsound _ hstep => hsound.step hn hstep
  rintro s rfl
  exact sound_initial

end Turns

end Serving

end Ipa
