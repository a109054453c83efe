import Ipa.Runtime.Completion
import Ipa.Runtime.Meaning
import Ipa.Runtime.Serving

/-!
# Every parse returns

While a thread has the lock of the schema, there is always something that brings its call nearer to
its end: a section of its own, or the worker that executes its request. Where both go on when they
can, every call that has the lock returns.
-/

namespace Ipa

namespace Serving

open Workers (Ctx Act Stand Request)

variable {Thread Query Input Value Result : Type}

/-- A step of thread `t`; to wake is not one. -/
def Own (t : Thread) : Action Thread Query Input → Prop
  | .unlock u => u = t
  | .run (.enter u _) | .run (.refuse u _) | .run (.waitPool u) | .run (.relock u)
  | .run (.claim u _) | .run (.request u _ _) | .run (.readDone u _) | .run (.leave u _ _) => u = t
  | _ => False

/-- Worker `i` executes a request. -/
def IsWork (i : ℕ) : Action Thread Query Input → Prop
  | .run (.work j _ _ _) => j = i
  | _ => False

/-- How near thread `t` is to the end of its question. -/
def stage (s : State Thread Query Input Value Result) (t : Thread) : ℕ :=
  match s.pool.stand t with
  | .outside => 7
  | .looking _ _ => 6
  | .setting _ _ => 5
  | .parkedRes _ => 4
  | .awakeRes _ => if (s.pool.worker 0).hasReq then 4 else 3
  | _ => 2

/-- How near thread `t` is to the end of its call. -/
def rank (exec : Input → Option Value) (s : State Thread Query Input Value Result) (t : Thread) :
    ℕ :=
  match s.call t with
  | .inside _ left => 8 * left.asked exec + stage s t
  | _ => 0

/-- What the thread waits for. -/
def Helps (s : State Thread Query Input Value Result) (t : Thread)
    (b : Action Thread Query Input) : Prop :=
  if stage s t = 4 then IsWork 0 b else Own t b

section Progress

variable [DecidableEq Thread] {exec : Input → Option Value}
  {program : Query → Asking Input (Option Value) Result} {n : ℕ}
  {s s' : State Thread Query Input Value Result} {t : Thread} {b : Action Thread Query Input}

omit [DecidableEq Thread] in
theorem stage_setAwake (s : State Thread Query Input Value Result) (i : ℕ) (awake : Bool)
    (t : Thread) : stage (setAwake s i awake) t = stage s t := by
  unfold stage
  rw [setAwake_worker]
  rfl

/-- **A step** while thread `t` has the lock: what helps brings the call nearer to its end, and
nothing else keeps it from there. -/
theorem Turn.nearer (h : Turn exec s t b s') (ht : s.lock = some t) :
    (Helps s t b ∧ rank exec s' t < rank exec s t) ∨
      (¬ Helps s t b ∧ s'.lock = some t ∧ s'.call t = s.call t ∧ stage s' t = stage s t) := by
  cases h with
  | unlock hcall hout =>
    exact .inl ⟨by simp [Helps, stage, hout, Own], by simp [rank, stage, hcall, hout]⟩
  | enter hcall hout =>
    exact .inl ⟨by simp [Helps, stage, hout, Own], by simp [rank, stage, hcall, hout]⟩
  | claim hcall hstand hslot =>
    exact .inl ⟨by simp [Helps, stage, hstand, Own], by simp [rank, stage, hcall, hstand]⟩
  | request hcall hstand =>
    exact .inl ⟨by simp [Helps, stage, hstand, Own], by simp [rank, stage, hcall, hstand]⟩
  | again hcall hstand hpending =>
    exact .inr ⟨by simp [Helps, stage, hstand, hpending.works.hasReq, IsWork], ht, rfl,
      by simp [stage, hstand, hpending.works.hasReq]⟩
  | read hcall hstand hanswered =>
    exact .inl ⟨by simp [Helps, stage, hstand, hanswered.hasReq, Own],
      by simp [rank, stage, hcall, hstand, hanswered.hasReq]⟩
  | leave hcall hstand hgiven =>
    refine .inl ⟨by simp [Helps, stage, hstand, Own], ?_⟩
    simp only [rank, stage, hcall, hstand, Function.update_self, Asking.asked_ask, Ctx.goto_stand]
    omega
  | work hcall hstand hpending =>
    have hstage : stage s t = 4 := by
      rcases hstand with hstand | hstand <;> simp [stage, hstand, hpending.works.hasReq]
    refine .inl ⟨by simp [Helps, hstage, IsWork], ?_⟩
    simp only [rank, hcall, hstage]
    simp [stage, Workers.Worker.answer]
  | wake hcall hstand hpending =>
    exact .inr ⟨by simp [Helps, stage, hstand, IsWork], ht, rfl,
      by simp [stage, hstand, hpending.works.hasReq]⟩
  | @idle i hslot =>
    exact .inr ⟨by unfold Helps; split <;> exact id, ht, rfl, stage_setAwake s i false t⟩
  | @wakeReq i =>
    exact .inr ⟨by unfold Helps; split <;> exact id, ht, rfl, stage_setAwake s i true t⟩

omit [DecidableEq Thread] in
theorem Call.hear_inside {call : Call Query Input Value Result} {answer : Option Value}
    {query : Query} {left : Asking Input (Option Value) Result}
    (h : call.hear answer = .inside query left) : ∃ left', call = .inside query left' := by
  cases call with
  | inside query' left' =>
    cases left' <;> cases h <;> exact ⟨_, rfl⟩
  | _ => cases h

/-- A call goes on, or returns. -/
theorem Turn.call (h : Turn exec s t b s') {query : Query}
    {left : Asking Input (Option Value) Result} (hcall : s.call t = .inside query left) :
    (∃ left, s'.call t = .inside query left) ∨ ∃ result, s'.call t = .returned query result := by
  cases h with
  | @unlock query' result hcall' hout =>
    obtain ⟨rfl, -⟩ : query = query' ∧ left = .ret result := by simpa [hcall] using hcall'
    exact .inr ⟨result, Function.update_self ..⟩
  | @leave query' x more code hcall' hstand hgiven =>
    obtain ⟨rfl, -⟩ : query = query' ∧ left = .ask x more := by simpa [hcall] using hcall'
    exact .inl ⟨more (exec x), Function.update_self ..⟩
  | _ => exact .inl ⟨left, hcall⟩

/-- A call that is inside was that, or has just begun. -/
theorem Step.began (h : Step exec n program s b s') {query : Query}
    {left : Asking Input (Option Value) Result} (hcall : s'.call t = .inside query left) :
    (∃ left', s.call t = .inside query left') ∨ b = .lock t query := by
  cases h with
  | @lock u query' _ _ =>
    change Function.update s.call u (.inside query' (program query')) t = _ at hcall
    by_cases hut : t = u
    · subst hut
      rw [Function.update_self] at hcall
      cases hcall
      exact .inr rfl
    · rw [Function.update_of_ne hut] at hcall
      exact .inl ⟨left, hcall⟩
  | @run a _ _ =>
    cases a with
    | leave u code woken =>
      change Function.update s.call u ((s.call u).hear _) t = _ at hcall
      by_cases hut : t = u
      · subst hut
        rw [Function.update_self] at hcall
        exact .inl (Call.hear_inside hcall)
      · rw [Function.update_of_ne hut] at hcall
        exact .inl ⟨left, hcall⟩
    | _ => exact .inl ⟨left, hcall⟩
  | @unlock u query' result _ _ =>
    change Function.update s.call u (.returned query' result) t = _ at hcall
    by_cases hut : t = u
    · subst hut
      rw [Function.update_self] at hcall
      cases hcall
    · rw [Function.update_of_ne hut] at hcall
      exact .inl ⟨left, hcall⟩

omit [DecidableEq Thread] in
/-- A call that is inside has the lock. -/
theorem Sound.owns (h : Sound exec program s) (ht : (s.call t).Inside) : s.lock = some t := by
  by_contra hlock
  exact (h.others t hlock).2 ht

/-- There is always something that helps. -/
theorem Sound.helped (h : Sound exec program s) (hn : 0 < n) (ht : s.lock = some t) :
    ∃ b s', Helps s t b ∧ Step exec n program s b s' := by
  obtain ⟨query, left, hcall, -, hasks⟩ := h.holder t ht
  have hrun : ∀ a, Helps s t (.run a) → s.pool.Enabled n a → Fits exec s a →
      ∃ b s', Helps s t b ∧ Step exec n program s b s' :=
    fun a hhelps henabled hfits => ⟨_, _, hhelps, .run henabled hfits⟩
  cases left with
  | ret result =>
    have hout : s.pool.stand t = .outside := hasks
    exact ⟨.unlock t, _, by simp [Helps, stage, hout, Own], .unlock hcall hout⟩
  | ask x more =>
    have hstands : Stands exec s t x (s.pool.stand t) := hasks
    have hwork : ∀ woken, Pending s t x → stage s t = 4 →
        s.pool.Signals (· = .parkedRes 0) woken →
          ∃ b s', Helps s t b ∧ Step exec n program s b s' := by
      intro woken hpending hstage hsignal
      exact hrun (.work 0 ⟨x, t⟩ (status (exec x)) woken) (by simp [Helps, hstage, IsWork])
        ⟨hn, hpending.works, hsignal⟩ rfl
    cases hstand : s.pool.stand t with
    | outside =>
      exact hrun (.enter t ⟨x, t⟩) (by simp [Helps, stage, hstand, Own])
        ⟨h.poolMutex_none ht (by simp [hstand]), hstand⟩ ⟨rfl, query, more, hcall⟩
    | looking r i =>
      exact hrun (.claim t 0) (by simp [Helps, stage, hstand, Own])
        ⟨hn, ⟨r, by rw [hstand] at hstands ⊢; rw [hstands.2]⟩, h.mutex_none ht (by simp [hstand]) 0,
          h.hasReq_false ht (by simp [hstand]) (by simp [hstand]) 0⟩ trivial
    | setting r i => exact hrun (.request t i r) (by simp [Helps, stage, hstand, Own]) hstand trivial
    | parkedRes i =>
      rw [hstand] at hstands
      obtain ⟨rfl, hpending⟩ := hstands
      exact hwork (some t) hpending (by simp [stage, hstand]) hstand
    | awakeRes i =>
      rw [hstand] at hstands
      obtain ⟨rfl, hpending | hanswered⟩ := hstands
      · refine hwork none hpending (by simp [stage, hstand, hpending.works.hasReq]) fun u hu => ?_
        obtain rfl := h.alone ht (u := u) (by simp [hu])
        rw [hstand] at hu
        cases hu
      · exact hrun (.readDone t 0) (by simp [Helps, stage, hstand, hanswered.hasReq, Own])
          ⟨hstand, h.mutex_none ht (by simp [hstand]) 0⟩ trivial
    | finishing code =>
      exact hrun (.leave t code none) (by simp [Helps, stage, hstand, Own])
        ⟨h.poolMutex_none ht (by simp [hstand]), hstand, h.not_waitsPool⟩ trivial
    | parkedPool r | awakePool r =>
      rw [hstand] at hstands
      exact hstands.elim

/-- While nobody has the lock, no thread goes on but one that takes it, and no worker has
anything to do. -/
theorem Sound.quiet (h : Sound exec program s) (hfree : s.lock = none)
    (hstep : Step exec n program s b s') : (∀ t, ¬ Own t b) ∧ ∀ i, ¬ IsWork i b := by
  cases hstep with
  | lock _ _ => exact ⟨fun _ h => h, fun _ h => h⟩
  | run henabled hfits =>
    rcases h.free_act hfree henabled hfits with ⟨i, rfl⟩ | ⟨i, rfl⟩ <;>
      exact ⟨fun _ h => h, fun _ h => h⟩
  | @unlock u query result hcall hout =>
    have hothers := h.others u (by simp [hfree])
    rw [hcall] at hothers
    exact absurd trivial hothers.2

/-- The lock is kept or released. -/
theorem Turn.lock (h : Turn exec s t b s') : s'.lock = s.lock ∨ s'.lock = none := by
  cases h with
  | unlock _ _ => exact .inr rfl
  | _ => exact .inl rfl

/-- From wherever a call is inside, steps lead to its return. -/
theorem Sound.finishes (h : Sound exec program s) (hn : 0 < n) {query : Query}
    {left : Asking Input (Option Value) Result} (hcall : s.call t = .inside query left) :
    ∃ as s', Machine.Path (m := serving exec n program) s as s' ∧ s'.lock = none ∧
      s'.call t = .returned query ((program query).answered exec) ∧ ∀ u q, .lock u q ∉ as := by
  induction hrank : rank exec s t using Nat.strong_induction_on generalizing s left with
  | _ r ih =>
    have hlock := h.owns (t := t) (by rw [hcall]; trivial)
    obtain ⟨b, s₁, hhelps, hstep⟩ := h.helped hn hlock
    have hturn := h.step_turn hlock hn hstep
    have hsound := h.step hn hstep
    have hnot : ∀ u q, b ≠ .lock u q := by
      rintro u q rfl
      cases hturn
    rcases hturn.nearer hlock with ⟨-, hless⟩ | ⟨hhelps', -⟩
    swap
    · exact absurd hhelps hhelps'
    rcases hturn.call hcall with ⟨left', hinside⟩ | ⟨result, hreturned⟩
    · obtain ⟨as, s', hpath, hfree, hreturned, hno⟩ := ih _ (hrank ▸ hless) hsound hinside rfl
      refine ⟨b :: as, s', .cons hstep hpath, hfree, hreturned, fun u q hmem => ?_⟩
      rcases List.mem_cons.mp hmem with heq | hmem
      · exact hnot u q heq.symm
      · exact hno u q hmem
    · obtain rfl := hsound.returned t query result hreturned
      refine ⟨[b], s₁, .cons hstep .nil, ?_, hreturned, fun u q hmem => ?_⟩
      · refine hturn.lock.elim (fun hkept => ?_) id
        obtain ⟨query', left', hinside, -⟩ := hsound.holder t (hkept.trans hlock)
        rw [hreturned] at hinside
        cases hinside
      · exact hnot u q (List.mem_singleton.mp hmem).symm

end Progress

/-! ## Executions -/

section Executions

variable [DecidableEq Thread] {exec : Input → Option Value}
  {program : Query → Asking Input (Option Value) Result} {n : ℕ}

/-- The executions of threads that make such calls. -/
abbrev Running (Thread : Type) [DecidableEq Thread] (exec : Input → Option Value) (n : ℕ)
    (program : Query → Asking Input (Option Value) Result) : Type :=
  (serving exec n program :
    Machine (State Thread Query Input Value Result) (Action Thread Query Input)).Execution

/-- Threads and workers go on when they can. -/
structure Fair (e : Running Thread exec n program) : Prop where
  threads : ∀ t, e.Fair (fun s => ∃ b s', Own t b ∧ Step exec n program s b s') (Own t)
  workers : ∀ i, e.Fair (fun s => ∃ b s', IsWork i b ∧ Step exec n program s b s') (IsWork i)

variable {e : Running Thread exec n program} {k : ℕ} {t : Thread}

theorem step_of_execution (hn : 0 < n) (hlock : (e.state k).lock = some t) :
    Turn exec (e.state k) t (e.act k) (e.state (k + 1)) :=
  (reachable_sound hn (e.reachable k)).step_turn hlock hn (e.step k)

/-- **A call comes nearer to its end**, sooner or later. -/
theorem Fair.nearer (hfair : Fair e) (hn : 0 < n) (hlock : (e.state k).lock = some t) :
    ∃ l, k ≤ l ∧ (e.state l).lock = some t ∧ (e.state l).call t = (e.state k).call t ∧
      rank exec (e.state (l + 1)) t < rank exec (e.state l) t ∧
        rank exec (e.state l) t = rank exec (e.state k) t := by
  -- what the thread waits for is the same until it comes
  let does : Action Thread Query Input → Prop :=
    if stage (e.state k) t = 4 then IsWork 0 else Own t
  let P (s : State Thread Query Input Value Result) : Prop :=
    Sound exec program s ∧ s.lock = some t ∧ s.call t = (e.state k).call t ∧
      stage s t = stage (e.state k) t
  have hdoes : ∀ s b, P s → (does b ↔ Helps s t b) := by
    rintro s b ⟨-, -, -, hstage⟩
    unfold Helps
    rw [hstage]
    simp only [does]
    split <;> rfl
  have hfair' : e.Fair (fun s => ∃ b s', does b ∧ Step exec n program s b s') does := by
    simp only [does]
    split
    · exact hfair.workers 0
    · exact hfair.threads t
  have hcan : ∀ s, P s → ∃ b s', does b ∧ Step exec n program s b s' := by
    intro s hs
    obtain ⟨b, s', hhelps, hstep⟩ := hs.1.helped hn hs.2.1
    exact ⟨b, s', (hdoes s b hs).mpr hhelps, hstep⟩
  have hkeep : ∀ j, k ≤ j → P (e.state j) → ¬ does (e.act j) → P (e.state (j + 1)) := by
    rintro j - hs hnot
    have hturn := hs.1.step_turn hs.2.1 hn (e.step j)
    rcases hturn.nearer hs.2.1 with ⟨hhelps, -⟩ | ⟨-, hlock', hcall, hstage⟩
    · exact absurd ((hdoes _ _ hs).mpr hhelps) hnot
    · exact ⟨hs.1.step hn (e.step j), hlock', hcall.trans hs.2.2.1, hstage.trans hs.2.2.2⟩
  obtain ⟨l, hl, hact, hall⟩ := hfair'.eventually (P := P)
    ⟨reachable_sound hn (e.reachable k), hlock, rfl, rfl⟩ hcan hkeep
  have hs := (hall l hl le_rfl).1
  refine ⟨l, hl, hs.2.1, hs.2.2.1, ?_, ?_⟩
  · rcases (hs.1.step_turn hs.2.1 hn (e.step l)).nearer hs.2.1 with ⟨-, hless⟩ | ⟨hnot, -⟩
    · exact hless
    · exact absurd ((hdoes _ _ hs).mp hact) hnot
  · unfold rank
    rw [hs.2.2.1, hs.2.2.2]

/-- **A call that has the lock returns**, sooner or later. -/
theorem Fair.returns (hfair : Fair e) (hn : 0 < n) {query : Query}
    {left : Asking Input (Option Value) Result} (hcall : (e.state k).call t = .inside query left) :
    ∃ l, k ≤ l ∧ (e.state l).call t = .returned query ((program query).answered exec) := by
  have hin : ∀ j left, (e.state j).call t = .inside query left → (e.state j).lock = some t :=
    fun j left hcall => (reachable_sound hn (e.reachable j)).owns (by rw [hcall]; trivial)
  refine e.descends (fun s => rank exec s t) (I := fun s => ∃ left, s.call t = .inside query left)
    (Q := fun s => s.call t = .returned query ((program query).answered exec)) ⟨left, hcall⟩
    fun j hj hinside => ?_
  obtain ⟨left, hcall⟩ := hinside
  obtain ⟨l, hl, hlock, hsame, hless, hrank⟩ := hfair.nearer hn (hin j left hcall)
  refine ⟨l + 1, by omega, ?_⟩
  rw [hcall] at hsame
  rcases (step_of_execution hn hlock).call hsame with hleft | ⟨result, hreturned⟩
  · exact .inr ⟨hleft, by omega⟩
  · obtain rfl := (reachable_sound hn (e.reachable (l + 1))).returned t query result hreturned
    exact .inl hreturned

/-- Every call that is inside began with the lock. -/
theorem Running.asked (e : Running Thread exec n program) {P : Query → Prop}
    (hasked : ∀ k t query, e.act k = .lock t query → P query) {query : Query}
    {left : Asking Input (Option Value) Result} (hcall : (e.state k).call t = .inside query left) :
    P query := by
  induction k generalizing left with
  | zero =>
    rw [e.start] at hcall
    cases hcall
  | succ k ih =>
    rcases (e.step k).began hcall with ⟨left', hinside⟩ | hlock
    · exact ih hinside
    · exact hasked k t query hlock

end Executions

/-! ## Two calls -/

section TwoCalls

variable {exec : Input → Option Value} {program : Query → Asking Input (Option Value) Result}
  {n : ℕ}

/-- Where the lock is free from some point on, nobody is kept waiting. -/
theorem fair_of_free [DecidableEq Thread] (hn : 0 < n) (e : Running Thread exec n program) {K : ℕ}
    (hfree : ∀ k, K ≤ k → (e.state k).lock = none) : Fair e := by
  have hquiet : ∀ k, ∃ l, k ≤ l ∧ ∀ b s', Step exec n program (e.state l) b s' →
      (∀ t, ¬ Own t b) ∧ ∀ i, ¬ IsWork i b := fun k =>
    ⟨max k K, le_max_left .., fun b s' hstep =>
      (reachable_sound hn (e.reachable _)).quiet (hfree _ (le_max_right ..)) hstep⟩
  constructor
  · intro t k hcan
    obtain ⟨l, hl, hnone⟩ := hquiet k
    obtain ⟨b, s', hown, hstep⟩ := hcan l hl
    exact absurd hown ((hnone b s' hstep).1 t)
  · intro i k hcan
    obtain ⟨l, hl, hnone⟩ := hquiet k
    obtain ⟨b, s', hwork, hstep⟩ := hcan l hl
    exact absurd hwork ((hnone b s' hstep).2 i)

variable (exec program n) in
theorem Step.of_lock [DecidableEq Thread] {s : State Thread Query Input Value Result} {t : Thread}
    (hfree : s.lock = none) (hout : ¬ (s.call t).Inside) (query : Query) :
    ∃ s', Step exec n program s (.lock t query) s' ∧ s'.call t = .inside query (program query) ∧
      ∀ u, u ≠ t → s'.call u = s.call u :=
  ⟨_, .lock hfree hout, Function.update_self .., fun _ hu => Function.update_of_ne hu ..⟩

variable (exec program) in
/-- One thread calls, and when it has returned another one does. -/
theorem two_calls (hn : 0 < n) (q q' : Query) : ∃ e : Running Bool exec n program, Fair e ∧
    (∀ k t query, e.act k = .lock t query → query = q ∨ query = q') ∧
    (∃ left, (e.state 1).call true = .inside q left) ∧
    ∃ k, (e.state k).call true = .returned q ((program q).answered exec) ∧
      ∃ left, (e.state k).call false = .inside q' left := by
  -- the first call, the second one, and a worker that looks about for ever
  obtain ⟨s₁, hone, hcall₁, -⟩ :=
    Step.of_lock (s := State.initial) (t := true) exec program n rfl id q
  have hsound₁ := (reachable_sound hn (.start rfl)).step hn hone
  obtain ⟨as₁, s₂, hpath₁, hfree₂, hreturned, hno₁⟩ := hsound₁.finishes hn hcall₁
  have hsound₂ := reachable_sound hn (.path (.step (.start rfl) trivial hone) hpath₁)
  have hout₂ := (hsound₂.others false (by simp [hfree₂])).2
  obtain ⟨s₃, htwo, hcall₃, hothers⟩ := Step.of_lock exec program n hfree₂ hout₂ q'
  obtain ⟨as₃, s₄, hpath₃, hfree₄, -, hno₃⟩ := (hsound₂.step hn htwo).finishes hn hcall₃
  have hwake : ∀ s : State Bool Query Input Value Result,
      Step exec n program s (.run (.wakeReq 0)) (setAwake s 0 true) :=
    fun s => .run trivial trivial
  have hidle := hwake (setAwake s₄ 0 true)
  rw [setAwake_setAwake] at hidle
  obtain ⟨f₃, -, hstate₃, hact₃⟩ := (hpath₃.snoc (hwake s₄)).follow (.stay hidle)
  obtain ⟨f₁, -, hstate₁, hact₁⟩ := hpath₁.follow (f₃.cons htwo)
  have hrun₃ : ∀ k t query, f₃.act k ≠ .lock t query := by
    intro k t query hlock
    rcases hact₃ k with hmem | ⟨j, hj⟩
    · rw [hlock] at hmem
      rcases List.mem_append.mp hmem with hmem | hmem
      · exact hno₃ t query hmem
      · cases List.mem_singleton.mp hmem
    · rw [hlock] at hj
      cases hj
  have hsecond : ∀ k, f₁.state (as₁.length + (k + 1)) = f₃.state k := fun k => hstate₁ (k + 1)
  refine ⟨(f₁.cons hone).execution rfl, ?_, ?_, ⟨program q, ?_⟩, as₁.length + 1 + 1, ?_,
    program q', ?_⟩
  · refine fair_of_free hn _ (K := as₁.length + (as₃.length + 1) + 2) fun k hk => ?_
    obtain ⟨j, rfl⟩ : ∃ j, k = as₁.length + ((as₃.length + 1) + j + 1) + 1 :=
      ⟨k - (as₁.length + (as₃.length + 1) + 2), by omega⟩
    have hlast := hstate₃ j
    rw [List.length_append, List.length_singleton] at hlast
    change (f₁.state (as₁.length + ((as₃.length + 1) + j + 1))).lock = none
    rw [hsecond, hlast]
    exact hfree₄
  · rintro (_ | k) t query hlock
    · change Action.lock true q = _ at hlock
      cases hlock
      exact .inl rfl
    · change f₁.act k = _ at hlock
      rcases hact₁ k with hmem | ⟨_ | j, hj⟩
      · rw [hlock] at hmem
        exact absurd hmem (hno₁ t query)
      · change _ = Action.lock false q' at hj
        rw [hlock] at hj
        cases hj
        exact .inr rfl
      · exact absurd (hj.symm.trans hlock) (hrun₃ j t query)
  · change (f₁.state 0).call true = _
    rw [f₁.first]
    exact hcall₁
  · change (f₁.state (as₁.length + (0 + 1))).call true = _
    rw [hsecond, f₃.first]
    exact (hothers true (by decide)).trans hreturned
  · change (f₁.state (as₁.length + (0 + 1))).call false = _
    rw [hsecond, f₃.first]
    exact hcall₃

end TwoCalls

/-! ### Two threads -/

/-- A text with a match and a child of it, and every allocation is served. -/
def servedCall : CStr × Env := (CStr.ofString "p x", ⟨[], []⟩)

/-- The same text, and the tokens find no room. -/
def starvedCall : CStr × Env := (CStr.ofString "p x", ⟨[true, false], []⟩)

theorem emitting_opens : ∃ image schema e₀ e₁, (@openSchema ieee tiltSystem image).exec e₀ =
    (.ok schema, e₁) ∧ schema.Room tiltSystem.host ∧
      ∃ result e, (@parse ieee tiltSystem.host schema servedCall.1).exec servedCall.2 =
        (.ok result, e) ∧ result.matches_.length = 2 := by
  let test : Schema → Bool := fun s =>
    ((@parse ieee tiltSystem.host s servedCall.1).value? servedCall.2).any fun result =>
      decide (result.matches_.length = 2)
  obtain ⟨schema, ⟨-, image, -, -, e₀, e₁, -, -, -, hopen⟩, hemb, htest⟩ :=
    compiles_runs (m := emittingManifest) (q := test) (by decide +kernel)
  obtain ⟨result, e, hparse, hlength⟩ := Run.exec_of_value? htest
  refine ⟨image, schema, e₀, e₁, hopen, ?_, result, e, hparse, of_decide_eq_true hlength⟩
  unfold Schema.Room
  rw [hemb]
  decide

/-! ## Parses -/

section Parses

variable [Arith] (host : Host) (schema : Schema)

/-- `kc_ipa_parse` of a text, where its allocations go as the environment says. -/
def parsing (query : CStr × Env) :
    Asking CStr (Option (List Binary32)) (Except (Stop Unit) ParseResult × Env) :=
  (Asks.parse host schema query.1).exec query.2

theorem parsing_answered (query : CStr × Env) : (parsing host schema query).answered
    schema.emb.exec = (parse host schema query.1).exec query.2 :=
  congrArg (fun x => x.exec query.2) (Asks.parse_against query.1)

variable {host schema} [DecidableEq Thread] {n : ℕ}

/-- **Parses on one schema** do what each of them does alone. However the threads and the workers
get between, every call that has returned has the outcome of the parse whose embedding is the
function of the workers; one call is inside at a time, and while one is, some section of its own or
of the worker that has its request can go on. -/
theorem parses_answered (hn : 0 < n)
    {s : State Thread (CStr × Env) CStr (List Binary32) (Except (Stop Unit) ParseResult × Env)}
    (hs : (serving schema.emb.exec n (parsing host schema)).Reachable s) :
    (∀ t input e outcome, s.call t = .returned (input, e) outcome →
        outcome = (parse host schema input).exec e) ∧
      (∀ t u, (s.call t).Inside → (s.call u).Inside → t = u) ∧
      ∀ t, (s.call t).Inside → ∃ b s', (Own t b ∨ IsWork 0 b) ∧
        (serving schema.emb.exec n (parsing host schema)).Step s b s' := by
  have h := reachable_sound hn hs
  refine ⟨fun t input e outcome hcall => ?_, fun t u ht hu => ?_, fun t ht => ?_⟩
  · rw [h.returned t _ _ hcall]
    exact parsing_answered host schema (input, e)
  · exact Option.some.inj ((h.owns ht).symm.trans (h.owns hu))
  · obtain ⟨b, s', hhelps, hstep⟩ := h.helped hn (h.owns ht)
    refine ⟨b, s', ?_, hstep⟩
    unfold Helps at hhelps
    split at hhelps
    · exact .inr hhelps
    · exact .inl hhelps

omit [Arith] in
/-- One thread has its matches, and the call of the other one can go on. -/
theorem parses_answered_two : ∃ (schema : Schema)
    (s : State Bool (CStr × Env) CStr (List Binary32) (Except (Stop Unit) ParseResult × Env)),
    (∃ result e, s.call true = .returned servedCall (.ok result, e) ∧
        result.matches_.length = 2) ∧
      (s.call false).Inside ∧ ∃ b s', (Own false b ∨ IsWork 0 b) ∧
        Step schema.emb.exec 2 (@parsing ieee tiltSystem.host schema) s b s' := by
  obtain ⟨image, schema, e₀, e₁, hopen, hroom, result, e', hparse, hlength⟩ := emitting_opens
  obtain ⟨e, -, -, -, k, hreturned, left, hinside⟩ := two_calls (n := 2) schema.emb.exec
    (@parsing ieee tiltSystem.host schema) (by decide) servedCall starvedCall
  obtain ⟨hanswered, -, hgoes⟩ := @parses_answered _ ieee tiltSystem.host schema _ 2 (by decide) _
    (e.reachable k)
  have houtcome := hanswered true servedCall.1 servedCall.2 _ hreturned
  rw [houtcome, hparse] at hreturned
  have hinside' : ((e.state k).call false).Inside := by
    rw [hinside]
    trivial
  exact ⟨schema, e.state k, ⟨result, e', hreturned, hlength⟩, hinside', hgoes false hinside'⟩

/-- A parse that gets its buffer for embeddings. -/
def Buffered (query : CStr × Env) : Prop :=
  ∃ e₁, (embBuffer : Run Unit Unit).exec query.2 = (.ok (), e₁)

end Parses

end Serving

end Ipa
