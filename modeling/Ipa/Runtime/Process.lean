import Ipa.Runtime.Released
import Ipa.Runtime.Workers

/-!
# A life among its threads

The main thread goes through its routine while the workers that it has started run, and while the
pool is open to callers their calls go on. `process` is the machine of all of them; a step is one
call of the main thread, one critical section of a caller or a worker, or one look of a call at what
it reads besides. The main thread leaves the open pool when no call is under way, which is what
`kc_ipa_close` and `kc_emb_close` expect of their caller, and joins a thread that has returned.
-/

namespace Ipa

namespace Lifetime

open Workers (Ctx Act Stand)

structure Process (Caller Input Out : Type) where
  main : Script.State Resource Event
  ctx : Ctx Caller Input Out
  /-- Whose call is under way. -/
  calling : Caller → Bool
  /-- The threads that have returned. -/
  exited : ℕ → Bool

inductive Action (Caller Input Out : Type)
  | main
  /-- A call begins. -/
  | call (t : Caller)
  /-- It reads what it needs besides the pool. -/
  | look (t : Caller)
  /-- It returns. -/
  | back (t : Caller)
  | run (a : Act Caller Input Out)
  | exit (i : ℕ)
  | idle
deriving DecidableEq, Repr

/-- Whose critical section it is. -/
inductive Party
  | main
  | caller
  | worker (i : ℕ)
deriving DecidableEq, Repr

variable {Caller Input Out : Type}

def party : Act Caller Input Out → Party
  | .workIdle i | .work i _ _ _ | .wakeReq i => .worker i
  | .destroy _ => .main
  | _ => .caller

/-- What a critical section uses. -/
def touches : Act Caller Input Out → List Resource
  | .enter _ _ | .relock _ => [.pool, .poolMutex, .poolCond]
  | .refuse _ i => [.pool, .workers, .mutex i]
  | .waitPool _ | .leave _ _ _ => [.pool, .poolMutex, .poolCond]
  | .claim _ i => [.pool, .poolMutex, .workers, .mutex i]
  | .request _ i _ => [.workers, .mutex i, .condReq i, .condRes i]
  | .readDone _ i | .wakeRes _ i => [.workers, .mutex i, .condRes i]
  | .wakePool _ => [.pool, .poolCond]
  | .workIdle i | .wakeReq i | .destroy i => [.workers, .mutex i, .condReq i]
  | .work i _ _ _ => [.workers, .mutex i, .condRes i, .ectx i] ++
      (freed.filter opened).map (.field i)

/-- The next call of the main thread waits for nobody, and concerns no worker. -/
def free : Routine → Bool
  | .done | .release (.thread _) _ | .event (.serve _ _) _ | .event (.shutdown _) _ => false
  | _ => true

namespace Process

/-- The thread of worker `i` runs. -/
def Runs (s : Process Caller Input Out) (i : ℕ) : Prop :=
  .thread i ∈ s.main.live ∧ s.exited i = false

/-- The pool is open, with `n` workers. -/
def Open (s : Process Caller Input Out) (n : ℕ) : Prop :=
  ∃ parsed rest, s.main.script = .event (.serve n parsed) rest

/-- The main thread can go on. -/
def Ready (s : Process Caller Input Out) : Prop :=
  match s.main.script with
  | .release (.thread i) _ => s.exited i = true
  | .event (.serve _ _) _ => ∀ t, s.calling t = false
  | .event (.shutdown i) _ => (s.ctx.worker i).mutex = none
  | _ => True

variable [DecidableEq Caller]

/-- What a step of the main thread does to callers and workers. -/
def told (s : Process Caller Input Out) : Ctx Caller Input Out :=
  match s.main.script with
  | .event (.shutdown i) _ => s.ctx.after (.destroy i)
  | _ => s.ctx

end Process

/-- Who may enter a critical section. -/
def Process.May (s : Process Caller Input Out) (a : Act Caller Input Out) : Prop :=
  match party a with
  | .main => False
  | .caller => ∃ n, s.Open n ∧ s.ctx.Enabled n a ∧ ∀ t r, a = .enter t r → s.calling t = true
  | .worker i => s.Runs i ∧ s.ctx.Enabled (i + 1) a

variable [DecidableEq Caller]

inductive Step : Process Caller Input Out → Action Caller Input Out → Process Caller Input Out → Prop
  | main {s : Process Caller Input Out} {main' : Script.State Resource Event} (hready : s.Ready)
    (hstep : Script.Step s.main main') : Step s .main { s with main := main', ctx := s.told }
  | call {s : Process Caller Input Out} {t : Caller} (hopen : ∃ n, s.Open n)
    (hout : s.calling t = false) :
    Step s (.call t) { s with calling := Function.update s.calling t true }
  | look {s : Process Caller Input Out} {t : Caller} (hcalls : s.calling t = true) :
    Step s (.look t) s
  | back {s : Process Caller Input Out} {t : Caller} (hcalls : s.calling t = true)
    (hout : s.ctx.stand t = .outside) :
    Step s (.back t) { s with calling := Function.update s.calling t false }
  | run {s : Process Caller Input Out} {a : Act Caller Input Out} (hmay : s.May a) :
    Step s (.run a) { s with ctx := s.ctx.after a }
  /-- The loop of `kc_emb_worker_thread` ends. -/
  | exit {s : Process Caller Input Out} {i : ℕ} (hruns : s.Runs i)
    (hawake : (s.ctx.worker i).awake = true) (hmutex : (s.ctx.worker i).mutex = none)
    (hshutdown : (s.ctx.worker i).shutdown = true) :
    Step s (.exit i) { s with exited := Function.update s.exited i true }
  /-- Time passes. -/
  | idle {s : Process Caller Input Out} : Step s .idle s

/-- A routine from nothing. A worker is as `kc_emb_worker_init` leaves it before its thread is
there. -/
def process (Caller Input Out : Type) [DecidableEq Caller] (routine : Routine) :
    Machine (Process Caller Input Out) (Action Caller Input Out) where
  Start s := s = ⟨⟨routine, [], []⟩, .initial, fun _ => false, fun _ => false⟩
  Step := Step

/-! ## Callers and the main thread -/

/-- The worker that a call has chosen. -/
def chosen : Stand Input Out → Option ℕ
  | .setting _ i | .parkedRes i | .awakeRes i => some i
  | _ => none

/-- The main thread among the others. -/
structure Sound (s : Process Caller Input Out) : Prop where
  main : s.main.Sound rules
  /-- Outside of the open pool there is no call. -/
  quiet : (∀ n, ¬ s.Open n) → ∀ t, s.calling t = false
  /-- Only a call is inside of the pool. -/
  inside : ∀ t, s.calling t = false → s.ctx.stand t = .outside
  /-- A call chooses one of the workers. -/
  within : ∀ n, s.Open n → ∀ t i, chosen (s.ctx.stand t) = some i → i < n
  /-- The mutex of a worker is held by a call only. -/
  holders : ∀ i t, (s.ctx.worker i).mutex = some t → ∃ r, s.ctx.stand t = .setting r i
  /-- A worker that was told to stop finds that. -/
  stopped : ∀ i, .shutdown i ∈ s.main.past →
    (s.ctx.worker i).shutdown = true ∧ (s.ctx.worker i).awake = true

section Steps

variable {s s' : Process Caller Input Out} {a : Act Caller Input Out} {n i : ℕ} {t : Caller}

omit [DecidableEq Caller] in
theorem enabled_party (hmay : s.May a) : ∃ n, s.ctx.Enabled n a := by
  unfold Process.May at hmay
  split at hmay
  · exact hmay.elim
  · exact ⟨_, hmay.choose_spec.2.1⟩
  · exact ⟨_, hmay.2⟩

omit [DecidableEq Caller] in
/-- Where caller `t` may stand after a section: it leaves a slot that it takes by its request, it
chooses a worker by taking the slot, and begins to call by itself. -/
def Goes (ctx : Ctx Caller Input Out) (a : Act Caller Input Out) (t : Caller)
    (new : Stand Input Out) : Prop :=
  new = ctx.stand t ∨
    (∀ r i, ctx.stand t = .setting r i → a = .request t i r) ∧
    (∀ i, chosen new = some i → chosen (ctx.stand t) = some i ∨ a = .claim t i) ∧
    (ctx.stand t = .outside → ∃ r, a = .enter t r)

/-- One caller goes on. -/
theorem goes_move {ctx : Ctx Caller Input Out} {stands : Caller → Stand Input Out} {u : Caller}
    {new : Stand Input Out} (hother : Goes ctx a t (stands t))
    (hsetting : ∀ r i, ctx.stand u = .setting r i → a = .request u i r)
    (hchosen : ∀ i, chosen new = some i → chosen (ctx.stand u) = some i ∨ a = .claim u i)
    (hout : ctx.stand u = .outside → ∃ r, a = .enter u r) :
    Goes ctx a t (Function.update stands u new t) := by
  by_cases hut : u = t
  · subst hut
    rw [Function.update_self]
    exact .inr ⟨hsetting, hchosen, hout⟩
  · rwa [Function.update_of_ne (Ne.symm hut)]

theorem goes_wakePool {ctx : Ctx Caller Input Out} (u : Caller) :
    Goes ctx a t ((ctx.wakePool u).stand t) := by
  unfold Ctx.wakePool
  split
  · next r hr => apply goes_move (.inl rfl) <;> simp [hr, chosen]
  · exact .inl rfl

/-- **A section**, for one caller. -/
theorem after_goes {ctx : Ctx Caller Input Out} (he : ctx.Enabled n a) :
    Goes ctx a t ((ctx.after a).stand t) := by
  cases a with
  | enter u r => apply goes_move (.inl rfl) <;> simp [he.2, chosen]
  | refuse u j =>
    obtain ⟨-, ⟨r, hr⟩, -, -⟩ := he
    simp only [Ctx.after, hr]
    apply goes_move (.inl rfl) <;> simp [hr, chosen]
  | waitPool u =>
    obtain ⟨r, hr⟩ := he
    simp only [Ctx.after, hr]
    apply goes_move (.inl rfl) <;> simp [hr, chosen]
  | relock u =>
    obtain ⟨-, r, hr⟩ := he
    simp only [Ctx.after, hr]
    apply goes_move (.inl rfl) <;> simp [hr, chosen]
  | claim u j =>
    obtain ⟨-, ⟨r, hr⟩, -, -⟩ := he
    simp only [Ctx.after, hr]
    apply goes_move (.inl rfl) <;> simp [hr, chosen]
  | request u j r =>
    have hu : ctx.stand u = .setting r j := he
    apply goes_move (.inl rfl) <;> simp +contextual [hu, chosen]
  | readDone u j =>
    have hchosen : ∀ i, chosen (if (ctx.worker j).done then Stand.finishing (ctx.worker j).result
        else (.parkedRes j : Stand Input Out)) = some i → j = i := by
      intro i hi
      split at hi
      · cases hi
      · exact Option.some.inj hi
    apply goes_move (.inl rfl)
    · simp [he.1]
    · exact fun i hi => .inl (by rw [he.1, ← hchosen i hi]; rfl)
    · simp [he.1]
  | leave u code woken =>
    cases woken with
    | none => apply goes_move (.inl rfl) <;> simp [he.2.1, chosen]
    | some v => apply goes_move (goes_wakePool v) <;> simp [he.2.1, chosen]
  | workIdle j => exact .inl rfl
  | work j r code woken =>
    cases woken with
    | none => exact .inl rfl
    | some u =>
      have hu : ctx.stand u = .parkedRes j := he.2.2
      apply goes_move (.inl rfl) <;> simp [hu, chosen]
  | wakePool u => exact goes_wakePool u
  | wakeRes u j =>
    have hu : ctx.stand u = .parkedRes j := he
    apply goes_move (.inl rfl) <;> simp [hu, chosen]
  | wakeReq j => exact .inl rfl
  | destroy j => exact .inl rfl

omit [DecidableEq Caller] in
theorem Sound.unlocked (h : Sound s) (hquiet : ∀ t, s.ctx.stand t = .outside) (i : ℕ) :
    (s.ctx.worker i).mutex = none := by
  cases hmutex : (s.ctx.worker i).mutex with
  | none => rfl
  | some t =>
    obtain ⟨r, hr⟩ := h.holders i t hmutex
    rw [hquiet t] at hr
    cases hr

omit [DecidableEq Caller] in
theorem Sound.unlocked_closed (h : Sound s)
    (hclosed : ∀ n parsed rest, s.main.script ≠ .event (.serve n parsed) rest) (i : ℕ) :
    (s.ctx.worker i).mutex = none := by
  refine h.unlocked (fun t => h.inside t (h.quiet ?_ t)) i
  rintro n ⟨parsed, rest, hopen⟩
  exact hclosed n parsed rest hopen

omit [DecidableEq Caller] in
theorem open_unique {m : ℕ} (hn : s.Open n) (hm : s.Open m) : n = m := by
  obtain ⟨parsed, rest, hn⟩ := hn
  obtain ⟨parsed', rest', hm⟩ := hm
  rw [hn] at hm
  cases hm
  rfl

/-- The mutex of a worker, behind a section. -/
theorem after_mutex {ctx : Ctx Caller Input Out} (he : ctx.Enabled n a)
    (h : ((ctx.after a).worker i).mutex = some t) :
    a = .claim t i ∨ ((ctx.worker i).mutex = some t ∧ ∀ u r, a ≠ .request u i r) := by
  rw [Ctx.after_worker he] at h
  cases a with
  | claim u j =>
    rw [Workers.Worker.after] at h
    split at h
    · rename_i hji
      cases h
      exact .inl (by rw [hji])
    · exact .inr ⟨h, by simp⟩
  | request u j r =>
    rw [Workers.Worker.after] at h
    split at h
    · cases h
    · rename_i hji
      exact .inr ⟨h, fun u' r' heq => hji (by cases heq; rfl)⟩
  | workIdle j | work j r code woken | wakeReq j | destroy j =>
    rw [Workers.Worker.after] at h
    split at h <;> exact .inr ⟨h, by simp⟩
  | _ => exact .inr ⟨h, by simp⟩

/-- A worker that was told to stop still finds that, behind a section. -/
theorem after_stopped {ctx : Ctx Caller Input Out} (he : ctx.Enabled n a)
    (h : (ctx.worker i).shutdown = true ∧ (ctx.worker i).awake = true) :
    ((ctx.after a).worker i).shutdown = true ∧ ((ctx.after a).worker i).awake = true := by
  have hopen : ∀ j, (ctx.worker j).shutdown = false → j ≠ i := by
    rintro j hj rfl
    rw [h.1] at hj
    cases hj
  rw [Ctx.after_worker he]
  cases a with
  | workIdle j =>
    rw [Workers.Worker.after, if_neg (hopen j he.2.2.2.1)]
    exact h
  | work j r code woken =>
    rw [Workers.Worker.after, if_neg (hopen j he.2.1.shutdown)]
    exact h
  | claim u j | request u j r | wakeReq j | destroy j =>
    rw [Workers.Worker.after]
    split
    · first | exact h | exact ⟨h.1, rfl⟩ | exact ⟨rfl, rfl⟩
    · exact h
  | _ => exact h

theorem Sound.run (h : Sound s) (hmay : s.May a) : Sound { s with ctx := s.ctx.after a } := by
  obtain ⟨m, he⟩ := enabled_party hmay
  refine ⟨h.main, h.quiet, fun t hcalls => ?_, fun n hn t i hi => ?_, fun i t hi => ?_,
    fun i hi => ?_⟩
  · have hout := h.inside t hcalls
    rcases @after_goes _ _ _ _ a m t _ he with heq | ⟨-, -, henters⟩
    · exact heq.trans hout
    · -- only a call enters
      obtain ⟨r, rfl⟩ := henters hout
      obtain ⟨n, -, -, hcalling⟩ := hmay
      have hcalls : s.calling t = false := hcalls
      rw [hcalling t r rfl] at hcalls
      cases hcalls
  · rcases @after_goes _ _ _ _ a m t _ he with heq | ⟨-, hchosen, -⟩
    · rw [heq] at hi
      exact h.within n hn t i hi
    · rcases hchosen i hi with hold | rfl
      · exact h.within n hn t i hold
      · obtain ⟨n', hopen, hclaim, -⟩ := hmay
        rw [open_unique hn hopen]
        exact hclaim.1
  · rcases after_mutex he hi with rfl | ⟨hold, hnot⟩
    · obtain ⟨-, ⟨r, hr⟩, -⟩ := he
      refine ⟨r, ?_⟩
      simp only [Ctx.after, hr]
      exact Function.update_self ..
    · obtain ⟨r, hr⟩ := h.holders i t hold
      rcases @after_goes _ _ _ _ a m t _ he with heq | ⟨hleft, -, -⟩
      · exact ⟨r, heq.trans hr⟩
      · exact absurd (hleft r i hr) (hnot t r)
  · exact after_stopped he (h.stopped i hi)

omit [DecidableEq Caller] in
theorem past_of_step {m m' : Script.State Resource Event} (hstep : Script.Step m m') {e : Event}
    (he : e ∈ m'.past) : e ∈ m.past ∨ ∃ rest, m.script = .event e rest := by
  cases hstep with
  | event =>
    rcases List.mem_cons.mp he with rfl | he
    · exact .inr ⟨_, rfl⟩
    · exact .inl he
  | _ => exact .inl he

/-- The workers behind a step of the main thread. -/
theorem told_worker (i : ℕ) : (s.told.worker i).mutex = (s.ctx.worker i).mutex ∧
    (((∃ rest, s.main.script = .event (.shutdown i) rest) ∨
        (s.ctx.worker i).shutdown = true ∧ (s.ctx.worker i).awake = true) →
      (s.told.worker i).shutdown = true ∧ (s.told.worker i).awake = true) := by
  unfold Process.told
  split
  · rename_i j rest hscript
    by_cases hij : i = j
    · subst hij
      simp [Ctx.after]
    · simp only [Ctx.after, Ctx.setWorker_worker, Function.update_of_ne hij, true_and]
      rintro (⟨rest', heq⟩ | hold)
      · rw [hscript] at heq
        cases heq
        exact absurd rfl hij
      · exact hold
  · rename_i hnot
    refine ⟨rfl, ?_⟩
    rintro (⟨rest, heq⟩ | hold)
    · exact absurd heq (hnot i rest)
    · exact hold

omit [DecidableEq Caller] in
/-- The main thread goes on when there is no call. -/
theorem Sound.quiet_of_ready (h : Sound s) (hready : s.Ready) (t : Caller) :
    s.calling t = false := by
  by_cases hopen : ∃ n, s.Open n
  · obtain ⟨n, parsed, rest, hscript⟩ := hopen
    unfold Process.Ready at hready
    rw [hscript] at hready
    exact hready t
  · exact h.quiet (fun n hn => hopen ⟨n, hn⟩) t

theorem Sound.mainStep (h : Sound s) {main' : Script.State Resource Event} (hready : s.Ready)
    (hstep : Script.Step s.main main') : Sound { s with main := main', ctx := s.told } := by
  have hcalling := h.quiet_of_ready hready
  have hquiet : ∀ t, s.ctx.stand t = .outside := fun t => h.inside t (hcalling t)
  have hstand : ∀ t, s.told.stand t = .outside := by
    intro t
    unfold Process.told
    split <;> exact hquiet t
  refine ⟨h.main.step hstep, fun _ => hcalling, fun t _ => hstand t, fun n _ t i hi => ?_,
    fun i t hi => ?_, fun i hi => ?_⟩
  · change chosen (s.told.stand t) = some i at hi
    rw [hstand t] at hi
    cases hi
  · change (s.told.worker i).mutex = some t at hi
    rw [(told_worker i).1, h.unlocked hquiet] at hi
    cases hi
  · exact (told_worker i).2 ((past_of_step hstep hi).symm.imp_right (h.stopped i))

theorem Sound.step (h : Sound s) {b : Action Caller Input Out} (hstep : Step s b s') : Sound s' := by
  cases hstep with
  | main hready hstep => exact h.mainStep hready hstep
  | @call t hopen hout =>
    refine ⟨h.main, fun hclosed => ?_, fun u hu => ?_, h.within, h.holders, h.stopped⟩
    · obtain ⟨n, hopen⟩ := hopen
      exact absurd hopen (hclosed n)
    · by_cases hut : u = t
      · subst hut
        exact h.inside u hout
      · exact h.inside u ((Function.update_of_ne hut ..).symm.trans hu)
  | look _ => exact h
  | @back t hcalls hout =>
    refine ⟨h.main, fun hclosed u => ?_, fun u hu => ?_, h.within, h.holders, h.stopped⟩
    · have hnone := h.quiet hclosed
      by_cases hut : u = t
      · subst hut
        exact Function.update_self ..
      · exact (Function.update_of_ne hut ..).trans (hnone u)
    · by_cases hut : u = t
      · subst hut
        exact hout
      · exact h.inside u ((Function.update_of_ne hut ..).symm.trans hu)
  | run hmay => exact h.run hmay
  | exit _ _ _ _ => exact ⟨h.main, h.quiet, h.inside, h.within, h.holders, h.stopped⟩
  | idle => exact h

omit [DecidableEq Caller] in
theorem Sound.start {routine : Routine} (hsafe : routine.Safe rules [] []) :
    Sound (⟨⟨routine, [], []⟩, .initial, fun _ => false, fun _ => false⟩ :
      Process Caller Input Out) :=
  ⟨.start hsafe, fun _ _ => rfl, fun _ _ => rfl, fun _ _ _ _ h => (by cases h),
    fun _ _ h => (by cases h), fun _ h => (by cases h)⟩

/-! ## What is used is there -/

/-- What a step uses. -/
def uses (s : Process Caller Input Out) : Action Caller Input Out → List Resource
  | .main => match s.main.script with
    | .acquire r _ _ => needs r
    | .release r _ => [r]
    | .event e _ => rules.uses e
    | _ => []
  | .call _ | .look _ | .back _ => match s.main.script with
    | .event (.serve _ parsed) _ => parsed
    | _ => []
  | .run a => touches a
  | .exit i => [.workers, .mutex i]
  | .idle => []

omit [DecidableEq Caller] in
/-- What belongs to a running thread is there. -/
theorem Sound.thread (h : Sound s) (hlive : .thread i ∈ s.main.live) {r : Resource}
    (hr : r ∈ needs (.thread i)) : r ∈ s.main.live :=
  h.main.closed _ hlive r hr

omit [DecidableEq Caller] in
/-- What the open pool needs is there. -/
theorem Sound.serving (h : Sound s) (hopen : s.Open n) {r : Resource} (hr : r ∈ serving n) :
    r ∈ s.main.live := by
  obtain ⟨parsed, rest, hscript⟩ := hopen
  have hsafe := h.main.safe
  rw [hscript] at hsafe
  exact hsafe.1 r (List.mem_append_left _ hr)

theorem mem_serving (hi : i < n) {r : Resource}
    (hr : r ∈ [Resource.mutex i, .condReq i, .condRes i, .thread i]) : r ∈ serving n :=
  List.mem_append_right _ (List.mem_flatMap.mpr ⟨i, List.mem_range.mpr hi, hr⟩)

omit [DecidableEq Caller] in
/-- The worker that a call has to do with. -/
theorem Sound.called (h : Sound s) (hmay : s.May a) (hcaller : party a = .caller) :
    ∃ n, s.Open n ∧ ∀ i, Resource.mutex i ∈ touches a → i < n := by
  unfold Process.May at hmay
  rw [hcaller] at hmay
  obtain ⟨n, hopen, he, -⟩ := hmay
  refine ⟨n, hopen, fun i hi => ?_⟩
  cases a with
  | refuse u j | claim u j =>
    obtain rfl : i = j := by simpa [touches] using hi
    exact he.1
  | request u j r =>
    obtain rfl : i = j := by simpa [touches] using hi
    exact h.within n hopen u i (congrArg chosen he)
  | readDone u j =>
    obtain rfl : i = j := by simpa [touches] using hi
    exact h.within n hopen u i (congrArg chosen he.1)
  | wakeRes u j =>
    obtain rfl : i = j := by simpa [touches] using hi
    exact h.within n hopen u i (congrArg chosen he)
  | enter _ _ | waitPool _ | relock _ | leave _ _ _ | wakePool _ => simp [touches] at hi
  | workIdle _ | work _ _ _ _ | wakeReq _ | destroy _ => cases hcaller

omit [DecidableEq Caller] in
theorem touches_caller (hcaller : party a = .caller) (hi : ∀ i, Resource.mutex i ∈ touches a → i < n)
    {r : Resource} (hr : r ∈ touches a) : r ∈ serving n := by
  have hpool : ∀ r ∈ [Resource.pool, .workers, .poolMutex, .poolCond], r ∈ serving n :=
    fun r hr => List.mem_append_left _ hr
  cases a with
  | enter _ _ | waitPool _ | relock _ | leave _ _ _ | wakePool _ =>
    refine hpool r ?_
    simp only [touches, List.mem_cons, List.not_mem_nil, or_false] at hr ⊢
    tauto
  | refuse u j | claim u j | request u j _ | readDone u j | wakeRes u j =>
    have hj : j < n := hi j (by simp [touches])
    simp only [touches, List.mem_cons, List.not_mem_nil, or_false] at hr
    by_cases hworker : r ∈ [Resource.mutex j, .condReq j, .condRes j, .thread j]
    · exact mem_serving hj hworker
    · refine hpool r ?_
      simp only [List.mem_cons, List.not_mem_nil, or_false] at hworker ⊢
      tauto
  | workIdle _ | work _ _ _ _ | wakeReq _ | destroy _ => cases hcaller

omit [DecidableEq Caller] in
theorem touches_worker (hworker : party a = .worker i) {r : Resource} (hr : r ∈ touches a) :
    r ∈ needs (.thread i) := by
  cases a with
  | workIdle j | wakeReq j =>
    cases hworker
    simp only [touches, List.mem_cons, List.not_mem_nil, or_false] at hr
    simp only [needs, List.mem_append, List.mem_cons, List.not_mem_nil, or_false]
    tauto
  | work j _ _ _ =>
    cases hworker
    simp only [touches, needs, List.mem_append, List.mem_cons, List.not_mem_nil, or_false] at hr ⊢
    tauto
  | _ => cases hworker

omit [DecidableEq Caller] in
/-- **A section** of a caller or a worker uses what is there. -/
theorem Sound.run_uses (h : Sound s) (hmay : s.May a) {r : Resource} (hr : r ∈ touches a) :
    r ∈ s.main.live := by
  cases hparty : party a with
  | main =>
    unfold Process.May at hmay
    rw [hparty] at hmay
    exact hmay.elim
  | caller =>
    obtain ⟨n, hopen, hi⟩ := h.called hmay hparty
    exact h.serving hopen (touches_caller hparty hi hr)
  | worker i =>
    unfold Process.May at hmay
    rw [hparty] at hmay
    exact h.thread hmay.1.1 (touches_worker hparty hr)

omit [DecidableEq Caller] in
/-- What a call reads besides the pool is there. -/
theorem Sound.parsed (h : Sound s) {r : Resource} (hr : r ∈ Lifetime.uses s (.look t)) :
    r ∈ s.main.live := by
  have hsafe := h.main.safe
  simp only [Lifetime.uses] at hr
  split at hr
  · rename_i n parsed rest hscript
    rw [hscript] at hsafe
    exact hsafe.1 r (List.mem_append_right _ hr)
  · cases hr

/-- What a step uses is there. -/
theorem Sound.uses (h : Sound s) {b : Action Caller Input Out} (hstep : Step s b s') :
    ∀ r ∈ uses s b, r ∈ s.main.live := by
  intro r hr
  cases hstep with
  | main hready hstep =>
    have hsafe := h.main.safe
    simp only [Lifetime.uses] at hr
    split at hr
    · rename_i q ok fail hscript
      rw [hscript] at hsafe
      exact hsafe.2.1 r hr
    · rename_i q rest hscript
      rw [hscript] at hsafe
      obtain rfl : r = q := by simpa using hr
      exact hsafe.1
    · rename_i e rest hscript
      rw [hscript] at hsafe
      exact hsafe.1 r hr
    · cases hr
  | @call t _ _ | @look t _ | @back t _ _ => exact h.parsed (t := t) hr
  | run hmay => exact h.run_uses hmay hr
  | @exit i hruns _ _ _ =>
    refine h.thread hruns.1 ?_
    simp only [Lifetime.uses, List.mem_cons, List.not_mem_nil, or_false] at hr
    simp only [needs, List.mem_append, List.mem_cons, List.not_mem_nil, or_false]
    tauto
  | idle => cases hr

end Steps

/-! ## Whole lives -/

/-- The lives of this program. -/
inductive Life : Routine → Prop
  | pool (nWorkers nLayer : ℕ) : Life (poolLife nWorkers nLayer)
  | schema (sizes : Sizes) : Life (schemaLife sizes)

variable {routine : Routine}

theorem Life.safe (h : Life routine) : routine.Safe rules [] [] := by
  cases h with
  | pool nWorkers nLayer => exact poolLife_safe nWorkers nLayer
  | schema sizes => exact schemaLife_safe sizes

theorem Life.sound (h : Life routine) {s : Process Caller Input Out}
    (hs : (process Caller Input Out routine).Reachable s) : Sound s := by
  refine hs.invariant Sound ?_ fun _ _ _ hsound _ hstep => hsound.step hstep
  rintro s rfl
  exact .start h.safe

/-- The main thread is through. -/
structure Process.Ended (s : Process Caller Input Out) : Prop where
  script : s.main.script = .done
  live : s.main.live = []
  quiet : ∀ t, s.calling t = false

omit [DecidableEq Caller] in
theorem Sound.ended {s : Process Caller Input Out} (h : Sound s) (hdone : s.main.script = .done) :
    s.Ended := by
  have hsafe := h.main.safe
  rw [hdone] at hsafe
  refine ⟨hdone, hsafe, h.quiet ?_⟩
  rintro n ⟨parsed, rest, hopen⟩
  rw [hdone] at hopen
  cases hopen

/-- Nothing goes on when the main thread is through. -/
theorem Process.Ended.step {s s' : Process Caller Input Out} {b : Action Caller Input Out}
    (h : s.Ended) (hstep : Step s b s') : s' = s := by
  have hruns : ∀ i, ¬ s.Runs i := by
    intro i hruns
    have hmem := hruns.1
    rw [h.live] at hmem
    cases hmem
  cases hstep with
  | main hready hstep =>
    obtain ⟨⟨script, past, live⟩, ctx, calling, exited⟩ := s
    obtain rfl : script = .done := h.script
    cases hstep
  | call hopen _ =>
    obtain ⟨n, parsed, rest, hopen⟩ := hopen
    rw [h.script] at hopen
    cases hopen
  | look _ => rfl
  | back hcalls _ =>
    rw [h.quiet] at hcalls
    cases hcalls
  | @run a hmay =>
    unfold Process.May at hmay
    split at hmay
    · exact hmay.elim
    · obtain ⟨n, ⟨parsed, rest, hopen⟩, -⟩ := hmay
      rw [h.script] at hopen
      cases hopen
    · exact absurd hmay.1 (hruns _)
  | exit hr _ _ _ => exact absurd hr (hruns _)
  | idle => rfl

/-! ### A life with a call -/

/-- The main thread goes on; its calls and tests turn out as the list says. -/
def nexts : List Bool → Script.State Resource Event → Script.State Resource Event
  | [], m => m
  | yes :: rest, m => nexts rest (m.next yes)

/-- It waits for nobody on the way. -/
def allFree : List Bool → Script.State Resource Event → Bool
  | [], _ => true
  | yes :: rest, m => free m.script && allFree rest (m.next yes)

omit [DecidableEq Caller] in
theorem ready_of_free {s : Process Caller Input Out} (h : free s.main.script = true) : s.Ready := by
  unfold Process.Ready
  split
  · next hscript => rw [hscript] at h; cases h
  · next hscript => rw [hscript] at h; cases h
  · next hscript => rw [hscript] at h; cases h
  · trivial

theorem told_of_free {s : Process Caller Input Out} (h : free s.main.script = true) :
    s.told = s.ctx := by
  unfold Process.told
  split
  · next hscript => rw [hscript] at h; cases h
  · rfl

theorem step_of_free {s : Process Caller Input Out} (h : free s.main.script = true) (yes : Bool) :
    Step s .main { s with main := s.main.next yes } := by
  have hnot : s.main.script ≠ .done := by
    intro hdone
    rw [hdone] at h
    cases h
  have hstep := Step.main (ready_of_free h) (Script.State.step_next hnot yes)
  rwa [told_of_free h] at hstep

theorem path_nexts : ∀ (outcomes : List Bool) {s : Process Caller Input Out},
    allFree outcomes s.main = true →
      Machine.Path (m := process Caller Input Out routine) s (List.replicate outcomes.length .main)
        { s with main := nexts outcomes s.main }
  | [], _, _ => .nil
  | yes :: rest, s, h => by
    obtain ⟨hfree, hrest⟩ := Bool.and_eq_true_iff.mp h
    exact .cons (step_of_free hfree yes)
      (path_nexts rest (s := { s with main := s.main.next yes }) hrest)

/-- A schema with one worker, one layer and one row of a node. -/
def small : Routine := schemaLife ⟨1, 1, 1, 0⟩

/-- Every call succeeds and every test passes, but for the one for a file without bytes; no handler
is registered. -/
def opening : List Bool := List.replicate 5 true ++ false :: List.replicate 55 true ++ [false]

/-- The schema is open. -/
def atOpen : Process Bool Unit Unit :=
  ⟨nexts opening ⟨small, [], []⟩, .initial, fun _ => false, fun _ => false⟩

/-- What the steps of callers and workers lead to. -/
def perform (s : Process Bool Unit Unit) : Action Bool Unit Unit → Process Bool Unit Unit
  | .call t => { s with calling := Function.update s.calling t true }
  | .back t => { s with calling := Function.update s.calling t false }
  | .run a => { s with ctx := s.ctx.after a }
  | .exit i => { s with exited := Function.update s.exited i true }
  | .main => { s with main := s.main.next true, ctx := s.told }
  | .look _ | .idle => s

/-- A caller begins a parse, and puts a request into the slot of the worker. -/
def asking : List (Action Bool Unit Unit) :=
  [.call true, .look true, .run (.enter true ⟨(), ()⟩), .run (.claim true 0),
    .run (.request true 0 ⟨(), ()⟩)]

def atAsked : Process Bool Unit Unit := asking.foldl perform atOpen

theorem open_of_main {s : Process Bool Unit Unit} (hs : s.main = atOpen.main) : s.Open 1 := by
  unfold Process.Open
  rw [hs]
  exact ⟨_, _, rfl⟩

theorem path_asked : Machine.Path (m := process Bool Unit Unit small)
    ⟨⟨small, [], []⟩, .initial, fun _ => false, fun _ => false⟩
      (List.replicate 62 .main ++ asking) atAsked := by
  have hopening := @path_nexts Bool Unit Unit _ small opening
    ⟨⟨small, [], []⟩, .initial, fun _ => false, fun _ => false⟩ (by decide +kernel)
  refine hopening.append ?_
  refine .cons (.call ⟨1, open_of_main rfl⟩ rfl) (.cons (.look rfl) ?_)
  refine .cons (.run ⟨1, open_of_main rfl, ⟨rfl, rfl⟩, fun t r h => by cases h; rfl⟩) ?_
  refine .cons (.run ⟨1, open_of_main rfl, ⟨by decide, ⟨_, rfl⟩, rfl, rfl⟩, fun t r h => by cases h⟩) ?_
  exact .cons (.run ⟨1, open_of_main rfl, rfl, fun t r h => by cases h⟩) .nil

/-- The worker answers, the call returns, the main thread closes the index and stops the worker. -/
def answering : List (Action Bool Unit Unit) :=
  [.run (.work 0 ⟨(), ()⟩ 0 (some true)), .run (.readDone true 0), .run (.leave true 0 none),
    .back true, .main, .main, .main, .exit 0, .main]

def atJoined : Process Bool Unit Unit := answering.foldl perform atAsked

def atEnd : Process Bool Unit Unit :=
  { atJoined with main := nexts (List.replicate 24 true) atJoined.main }

/-- The worker has the request, and works on it. -/
theorem asked_works : Step atAsked (.run (.work 0 ⟨(), ()⟩ 0 (some true)))
    (perform atAsked (.run (.work 0 ⟨(), ()⟩ 0 (some true)))) :=
  .run ⟨⟨by decide +kernel, rfl⟩, by decide, ⟨⟨rfl, rfl, rfl⟩, rfl, rfl, rfl⟩, rfl⟩

theorem path_joined : Machine.Path (m := process Bool Unit Unit small) atAsked answering atJoined := by
  have hnext : ∀ {s : Process Bool Unit Unit}, s.main.script ≠ .done → s.Ready →
      Step s .main (perform s .main) := fun hnot hready =>
    .main hready (Script.State.step_next hnot true)
  refine .cons asked_works ?_
  refine .cons (.run ⟨1, open_of_main rfl, ⟨rfl, rfl⟩, fun t r h => by cases h⟩) ?_
  refine .cons (.run ⟨1, open_of_main rfl, ⟨rfl, rfl, fun u hu => ?_⟩, fun t r h => by cases h⟩) ?_
  · cases u <;> exact hu
  refine .cons (.back rfl rfl) ?_
  refine .cons (hnext (by rintro ⟨⟩) fun t => ?_) ?_
  · cases t <;> rfl
  refine .cons (hnext (by rintro ⟨⟩) trivial) (.cons (hnext (by rintro ⟨⟩) rfl) ?_)
  refine .cons (.exit ⟨by decide +kernel, rfl⟩ rfl rfl rfl) ?_
  exact .cons (hnext (by rintro ⟨⟩) rfl) .nil

set_option maxRecDepth 4000 in
theorem atEnd_main : atEnd.main = ⟨.done, atEnd.main.past, []⟩ := rfl

theorem path_end : Machine.Path (m := process Bool Unit Unit small)
    ⟨⟨small, [], []⟩, .initial, fun _ => false, fun _ => false⟩
      (List.replicate 62 .main ++ asking ++ (answering ++ List.replicate 24 .main)) atEnd :=
  path_asked.append (path_joined.append (path_nexts (List.replicate 24 true) (by decide +kernel)))

/-! ### What lives use -/

/-- **Nothing is used that is not there**: whatever fails, and however callers and workers get
between, a step uses only what is there. What is acquired is not there yet, what is released is
there once and nothing else needs it, and at the end nothing is left and nothing goes on. -/
theorem life_uses (hlife : Life routine) {s : Process Caller Input Out}
    (hs : (process Caller Input Out routine).Reachable s) :
    (∀ b s', (process Caller Input Out routine).Step s b s' → ∀ r ∈ uses s b, r ∈ s.main.live) ∧
      (∀ r ok fail, s.main.script = .acquire r ok fail → r ∉ s.main.live) ∧
      (∀ r rest, s.main.script = .release r rest →
        r ∈ s.main.live ∧ r ∉ s.main.live.erase r ∧ ∀ q ∈ s.main.live, r ∉ needs q) ∧
      (s.main.script = .done → s.main.live = [] ∧
        ∀ b s', (process Caller Input Out routine).Step s b s' → s' = s) := by
  have h := hlife.sound hs
  have hsafe := h.main.safe
  refine ⟨fun b s' hstep => h.uses hstep, fun r ok fail hscript => ?_, fun r rest hscript => ?_,
    fun hdone => ⟨(h.ended hdone).live, fun b s' hstep => (h.ended hdone).step hstep⟩⟩
  · rw [hscript] at hsafe
    exact hsafe.1
  · rw [hscript] at hsafe
    exact ⟨hsafe.1, h.main.nodup.not_mem_erase, hsafe.2.1⟩

/-- In the life with a call. -/
theorem life_uses_called :
    ((∀ r ∈ uses atAsked (.look true), r ∈ atAsked.main.live) ∧
      .mapping ∈ uses atAsked (.look true) ∧ .nodeHnsw ∈ uses atAsked (.look true)) ∧
    ((∀ r ∈ uses atAsked (.run (.work 0 ⟨(), ()⟩ 0 (some true))), r ∈ atAsked.main.live) ∧
      .mutex 0 ∈ uses atAsked (.run (.work 0 ⟨(), ()⟩ 0 (some true)))) ∧
    atEnd.main.live = [] := by
  have hasked := Machine.Reachable.path (.start rfl) path_asked
  have hused := (life_uses (.schema ⟨1, 1, 1, 0⟩) hasked).1
  refine ⟨⟨hused _ _ (.look rfl), by decide +kernel, by decide +kernel⟩,
    ⟨hused _ _ asked_works, by decide +kernel⟩, ?_⟩
  have hend := Machine.Reachable.path (.start rfl) path_end
  exact ((life_uses (.schema ⟨1, 1, 1, 0⟩) hend).2.2.2 (by rw [atEnd_main])).1

/-! ## Every life ends -/

/-- The thread of worker `i` can return. -/
structure Process.Leaves (s : Process Caller Input Out) (i : ℕ) : Prop where
  runs : s.Runs i
  awake : (s.ctx.worker i).awake = true
  mutex : (s.ctx.worker i).mutex = none
  shutdown : (s.ctx.worker i).shutdown = true

/-- The main thread and the workers go on when they can, and from some point on nobody calls. -/
structure Fair (e : (process Caller Input Out routine).Execution) : Prop where
  main : e.Fair (fun s => s.Ready ∧ s.main.script ≠ .done) (· = .main)
  exit : ∀ i, e.Fair (fun s => s.Leaves i) (· = .exit i)
  calls : ∃ k, ∀ l, k ≤ l → ∀ t, (e.state l).calling t = false

section Executions

variable {e : (process Caller Input Out routine).Execution} {k l : ℕ}

theorem step_keeps {s s' : Process Caller Input Out} {b : Action Caller Input Out}
    (hstep : Step s b s') (hb : b ≠ .main) :
    s'.main = s.main ∧ ∀ i, s.exited i = true → s'.exited i = true := by
  cases hstep with
  | main _ _ => exact absurd rfl hb
  | call _ _ | look _ | back _ _ | run _ => exact ⟨rfl, fun _ h => h⟩
  | @exit i _ _ _ _ =>
    refine ⟨rfl, fun j hj => ?_⟩
    change Function.update s.exited i true j = true
    by_cases hij : j = i
    · rw [hij, Function.update_self]
    · rwa [Function.update_of_ne hij]
  | idle => exact ⟨rfl, fun _ h => h⟩

theorem step_main {s s' : Process Caller Input Out} (hstep : Step s .main s') :
    s.Ready ∧ s'.main.script.size < s.main.script.size := by
  cases hstep with
  | main hready hstep => exact ⟨hready, hstep.size_lt⟩

theorem stays_or_less (hl : k ≤ l) : (e.state l).main.script = (e.state k).main.script ∨
    (e.state l).main.script.size < (e.state k).main.script.size := by
  induction l, hl using Nat.le_induction with
  | base => exact .inl rfl
  | succ l hl ih =>
    have hstep := e.step l
    by_cases hact : e.act l = .main
    · rw [hact] at hstep
      have hsize := (step_main hstep).2
      refine .inr ?_
      rcases ih with heq | hlt
      · rwa [heq] at hsize
      · exact lt_trans hsize hlt
    · rw [(step_keeps hstep hact).1]
      exact ih

/-- A main thread that can go on, whatever the others do, goes on. -/
theorem Fair.goes (hfair : Fair e) {P : Process Caller Input Out → Prop} (hP : P (e.state k))
    (hdone : (e.state k).main.script ≠ .done)
    (hready : ∀ s, P s → s.main.script = (e.state k).main.script → s.Ready)
    (hkeep : ∀ l, k ≤ l → P (e.state l) →
      (∀ i, (e.state l).exited i = true → (e.state (l + 1)).exited i = true) →
        P (e.state (l + 1))) :
    ∃ l, k ≤ l ∧ (e.state l).main.script.size < (e.state k).main.script.size := by
  obtain ⟨l, hl, hact, hall⟩ := hfair.main.eventually
    (P := fun s => P s ∧ s.main.script = (e.state k).main.script) ⟨hP, rfl⟩
    (fun s hs => ⟨hready s hs.1 hs.2, by rw [hs.2]; exact hdone⟩) fun j hj hs hact => by
      obtain ⟨hmain, hexited⟩ := step_keeps (e.step j) hact
      exact ⟨hkeep j hj hs.1 hexited, by rw [hmain]; exact hs.2⟩
  have hstep := e.step l
  rw [hact] at hstep
  refine ⟨l + 1, by omega, ?_⟩
  rw [← (hall l hl le_rfl).1.2]
  exact (step_main hstep).2

/-- A thread that is joined has returned, sooner or later. -/
theorem Fair.joins (hfair : Fair e) (hlife : Life routine) {i : ℕ}
    {rest : Routine} (hscript : (e.state k).main.script = .release (.thread i) rest) :
    ∃ l, k ≤ l ∧ (e.state l).main.script = .release (.thread i) rest ∧
      (e.state l).exited i = true := by
  by_cases hexited : (e.state k).exited i = true
  · exact ⟨k, le_rfl, hscript, hexited⟩
  have hcan : ∀ s : Process Caller Input Out, Sound s ∧
      s.main.script = .release (.thread i) rest ∧ s.exited i = false → s.Leaves i := by
    rintro s ⟨hsound, hscript, hexited⟩
    have hsafe := hsound.main.safe
    rw [hscript] at hsafe
    obtain ⟨hlive, -, hafter, -⟩ := hsafe
    obtain ⟨hshutdown, hawake⟩ := hsound.stopped i (hafter _ List.mem_cons_self)
    exact ⟨⟨hlive, hexited⟩, hawake, hsound.unlocked_closed (by simp [hscript]) i, hshutdown⟩
  -- the main thread waits, and no other thread is this one
  have hkeep : ∀ j, Sound (e.state j) ∧ (e.state j).main.script = .release (.thread i) rest ∧
      (e.state j).exited i = false → e.act j ≠ .exit i →
        Sound (e.state (j + 1)) ∧ (e.state (j + 1)).main.script = .release (.thread i) rest ∧
          (e.state (j + 1)).exited i = false := by
    rintro j ⟨hsound, hscript, hexited⟩ hact
    have hstep := e.step j
    have hnot : e.act j ≠ .main := by
      intro hmain
      rw [hmain] at hstep
      have hready := (step_main hstep).1
      unfold Process.Ready at hready
      rw [hscript] at hready
      exact absurd (hexited.symm.trans hready) (by decide)
    refine ⟨hsound.step hstep, by rw [(step_keeps hstep hnot).1]; exact hscript, ?_⟩
    generalize e.state (j + 1) = s' at hstep
    generalize e.act j = b at hstep hact hnot
    cases hstep with
    | main _ _ => exact absurd rfl hnot
    | @exit j' _ _ _ _ =>
      refine (Function.update_of_ne ?_ ..).trans hexited
      rintro rfl
      exact hact rfl
    | _ => exact hexited
  obtain ⟨l, hl, hact, hall⟩ := (hfair.exit i).eventually
    ⟨hlife.sound (e.reachable k), hscript, by simpa using hexited⟩ hcan fun j _ hs => hkeep j hs
  refine ⟨l + 1, by omega, ?_, ?_⟩
  · rw [(step_keeps (e.step l) (by rw [hact]; simp)).1]
    exact (hall l hl le_rfl).1.2.1
  · have hstep := e.step l
    rw [hact] at hstep
    generalize e.state (l + 1) = s' at hstep
    cases hstep
    exact Function.update_self ..

theorem Fair.joined (hfair : Fair e) (hlife : Life routine) {i : ℕ} {rest : Routine}
    (hscript : (e.state k).main.script = .release (.thread i) rest) :
    ∃ l, k ≤ l ∧ (e.state l).main.script.size < (e.state k).main.script.size := by
  obtain ⟨l, hl, hsame, hexited⟩ := hfair.joins hlife hscript
  have hgoes := hfair.goes (P := fun s => s.exited i = true) hexited (by rw [hsame]; simp)
    (fun s hs hscript => ?_) fun _ _ hs hexited => hexited i hs
  · obtain ⟨l', hl', hless⟩ := hgoes
    rw [hsame, ← hscript] at hless
    exact ⟨l', le_trans hl hl', hless⟩
  · unfold Process.Ready
    rw [hscript, hsame]
    exact hs

/-- The open pool is left. -/
theorem Fair.left (hfair : Fair e) {n : ℕ} {parsed : List Resource} {rest : Routine}
    (hscript : (e.state k).main.script = .event (.serve n parsed) rest) :
    ∃ l, k ≤ l ∧ (e.state l).main.script.size < (e.state k).main.script.size := by
  obtain ⟨quiet, hquiet⟩ := hfair.calls
  rcases stays_or_less (e := e) (le_max_left k quiet) with hsame | hless
  · have hleft : ∀ l, max k quiet ≤ l → ∀ t, (e.state l).calling t = false :=
      fun l hl => hquiet l (le_trans (le_max_right ..) hl)
    have hgoes := hfair.goes (P := fun s => ∀ t, s.calling t = false) (hleft _ le_rfl)
      (by rw [hsame, hscript]; simp) (fun s hs hs' => ?_) fun l hl _ _ => hleft _ (by omega)
    · obtain ⟨l, hl, hless⟩ := hgoes
      rw [hsame] at hless
      exact ⟨l, le_trans (le_max_left ..) hl, hless⟩
    · unfold Process.Ready
      rw [hs', hsame, hscript]
      exact hs
  · exact ⟨_, le_max_left .., hless⟩

/-- A worker is told to stop. -/
theorem Fair.told (hfair : Fair e) (hlife : Life routine) {i : ℕ} {rest : Routine}
    (hscript : (e.state k).main.script = .event (.shutdown i) rest) :
    ∃ l, k ≤ l ∧ (e.state l).main.script.size < (e.state k).main.script.size := by
  refine hfair.goes (P := Sound) (hlife.sound (e.reachable k)) (by rw [hscript]; simp)
    (fun s hsound hs => ?_) fun l _ hsound _ => hsound.step (e.step l)
  unfold Process.Ready
  rw [hs, hscript]
  exact hsound.unlocked_closed (by simp [hs, hscript]) i

/-- **One call of the main thread**, sooner or later. -/
theorem Fair.nearer (hfair : Fair e) (hlife : Life routine)
    (hdone : (e.state k).main.script ≠ .done) :
    ∃ l, k ≤ l ∧ (e.state l).main.script.size < (e.state k).main.script.size := by
  by_cases hfree : free (e.state k).main.script = true
  · exact hfair.goes (P := fun _ => True) trivial hdone
      (fun s _ hs => ready_of_free (hs ▸ hfree)) fun _ _ _ _ => trivial
  · unfold free at hfree
    split at hfree
    · next hscript => exact absurd hscript hdone
    · next hscript => exact hfair.joined hlife hscript
    · next hscript => exact hfair.left hscript
    · next hscript => exact hfair.told hlife hscript
    · exact absurd rfl hfree

theorem fair_of_path {e : (process Bool Unit Unit small).Execution} {n : ℕ}
    (hlast : ∀ k, n ≤ k → e.state k = atEnd) : Fair e := by
  have hend : ∀ k, ∃ l, k ≤ l ∧ e.state l = atEnd := fun k =>
    ⟨max k n, le_max_left .., hlast _ (le_max_right ..)⟩
  refine ⟨fun k hcan => ?_, fun i k hcan => ?_, n, fun l hl t => ?_⟩
  · obtain ⟨l, hl, hlast⟩ := hend k
    have hnot := (hcan l hl).2
    rw [hlast, atEnd_main] at hnot
    exact absurd rfl hnot
  · obtain ⟨l, hl, hlast⟩ := hend k
    have hlive := (hcan l hl).runs.1
    rw [hlast, atEnd_main] at hlive
    cases hlive
  · rw [hlast l hl]
    cases t <;> rfl

/-- **A life ends**, with nothing left. -/
theorem life_ends (hlife : Life routine) (hfair : Fair e) :
    ∃ k, ∀ l, k ≤ l → (e.state l).main.script = .done ∧ (e.state l).main.live = [] := by
  obtain ⟨k, -, hdone⟩ := e.descends (Q := fun s => s.main.script = .done)
    (I := fun _ => True) (k := 0) (fun s => s.main.script.size) trivial fun j _ _ => by
      by_cases hdone : (e.state j).main.script = .done
      · exact ⟨j, le_rfl, .inl hdone⟩
      · obtain ⟨l, hl, hless⟩ := hfair.nearer hlife hdone
        exact ⟨l, hl, .inr ⟨trivial, hless⟩⟩
  refine ⟨k, fun l hl => ?_⟩
  have hended : (e.state l).Ended := by
    induction l, hl using Nat.le_induction with
    | base => exact (hlife.sound (e.reachable k)).ended hdone
    | succ l hl ih =>
      rw [ih.step (e.step l)]
      exact ih
  exact ⟨hended.script, hended.live⟩

/-- A call, its answer, and a thread that is joined; then nothing is left to be done. -/
theorem life_ends_called :
    ∃ e : (process Bool Unit Unit small).Execution, Fair e ∧
      e.act 66 = .run (.request true 0 ⟨(), ()⟩) ∧
      e.act 67 = .run (.work 0 ⟨(), ()⟩ 0 (some true)) ∧ e.act 70 = .back true ∧
      e.act 74 = .exit 0 ∧
      ∃ k, ∀ l, k ≤ l → (e.state l).main.script = .done ∧ (e.state l).main.live = [] := by
  obtain ⟨e, hact, hlast⟩ := Machine.Execution.of_path path_end .idle rfl
  have hfair := fair_of_path hlast
  exact ⟨e, hfair, hact _ _ rfl, hact _ _ rfl, hact _ _ rfl, hact _ _ rfl,
    life_ends (.schema ⟨1, 1, 1, 0⟩) hfair⟩

end Executions

end Lifetime

end Ipa
