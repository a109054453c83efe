import Ipa.Lib.Machine
import Mathlib.Logic.Function.Basic

/-!
# Calls under a readers-writer lock

A call asks for the lock, shared where it only reads and exclusive otherwise, makes its accesses to
the shared state one by one, gives the lock back and returns. `locked` is the machine of any number
of threads that make such calls: between two accesses of a call others that are inside make theirs.
In `whole` a call happens in one step. Every run of `locked` is a run of `whole` with the same
calls and the same returns in the same order, where a call happens when it gets the lock.
-/

namespace Ipa

namespace Locked

/-- What is left of a call: a result, or one more access to the shared state. -/
inductive Body (σ ρ : Type)
  | result (r : ρ)
  | access (write : σ → σ) (rest : σ → Body σ ρ)

namespace Body

variable {σ ρ : Type}

/-- The accesses, with nothing in between. -/
def run : Body σ ρ → σ → ρ × σ
  | .result r, s => (r, s)
  | .access write rest, s => (rest s).run (write s)

/-- No access writes. -/
inductive Reads : Body σ ρ → Prop
  | result {r : ρ} : Reads (.result r)
  | access {write : σ → σ} {rest : σ → Body σ ρ} (same : ∀ s, write s = s)
    (more : ∀ s, (rest s).Reads) : Reads (.access write rest)

theorem Reads.run_snd {b : Body σ ρ} (h : b.Reads) (s : σ) : (b.run s).2 = s := by
  induction h generalizing s with
  | result => rfl
  | @access write rest same _ ih =>
    rw [run, ih, same]

/-- One access that does everything. -/
def whole (f : σ → ρ × σ) : Body σ ρ := .access (fun s => (f s).2) fun s => .result (f s).1

@[simp] theorem run_whole (f : σ → ρ × σ) (s : σ) : (whole f).run s = f s := rfl

theorem reads_whole {f : σ → ρ × σ} (h : ∀ s, (f s).2 = s) : (whole f).Reads :=
  .access h fun _ => .result

end Body

/-- The calls on a shared state. A call may return before it asks for the lock, or because the lock
is refused. -/
structure Object (Op σ ρ : Type) where
  shares : Op → Bool
  rejects : Op → Option ρ
  refused : Op → ρ
  body : Op → Body σ ρ
  reads : ∀ op, shares op = true → (body op).Reads

/-- Where a thread stands. -/
inductive Stand (Op σ ρ : Type)
  | outside
  | called (op : Op)
  | inside (op : Op) (rest : Body σ ρ)
  | returning (op : Op) (r : ρ)

/-- The shared state, the lock and the threads. -/
structure State (Thread Op σ ρ : Type) where
  shared : σ
  writer : Option Thread
  readers : List Thread
  stand : Thread → Stand Op σ ρ

inductive Act (Thread Op ρ : Type)
  | call (t : Thread) (op : Op)
  | reject (t : Thread)
  | refuse (t : Thread)
  | lock (t : Thread) (op : Op)
  | access (t : Thread)
  | unlock (t : Thread)
  | ret (t : Thread) (op : Op) (r : ρ)

variable {Thread Op σ ρ : Type}

section Machine

variable [DecidableEq Thread]

def State.goto (s : State Thread Op σ ρ) (t : Thread) (stand : Stand Op σ ρ) :
    State Thread Op σ ρ :=
  { s with stand := Function.update s.stand t stand }

@[simp] theorem State.goto_self (s : State Thread Op σ ρ) (t : Thread) (stand : Stand Op σ ρ) :
    (s.goto t stand).stand t = stand := Function.update_self ..

theorem State.goto_of_ne (s : State Thread Op σ ρ) {t u : Thread} (h : u ≠ t)
    (stand : Stand Op σ ρ) : (s.goto t stand).stand u = s.stand u := Function.update_of_ne h ..

/-- A step of one thread. Unlocking gives back what the thread holds. -/
inductive Step (o : Object Op σ ρ) :
    State Thread Op σ ρ → Act Thread Op ρ → State Thread Op σ ρ → Prop
  | call {s : State Thread Op σ ρ} {t : Thread} {op : Op} (stands : s.stand t = .outside) :
    Step o s (.call t op) (s.goto t (.called op))
  | reject {s : State Thread Op σ ρ} {t : Thread} {op : Op} {r : ρ} (stands : s.stand t = .called op)
    (bad : o.rejects op = some r) : Step o s (.reject t) (s.goto t (.returning op r))
  | refuse {s : State Thread Op σ ρ} {t : Thread} {op : Op} (stands : s.stand t = .called op)
    (good : o.rejects op = none) : Step o s (.refuse t) (s.goto t (.returning op (o.refused op)))
  | share {s : State Thread Op σ ρ} {t : Thread} {op : Op} (stands : s.stand t = .called op)
    (good : o.rejects op = none) (shares : o.shares op = true) (unwritten : s.writer = none) :
    Step o s (.lock t op) { s.goto t (.inside op (o.body op)) with readers := t :: s.readers }
  | exclude {s : State Thread Op σ ρ} {t : Thread} {op : Op} (stands : s.stand t = .called op)
    (good : o.rejects op = none) (excludes : o.shares op = false) (unwritten : s.writer = none)
    (unread : s.readers = []) :
    Step o s (.lock t op) { s.goto t (.inside op (o.body op)) with writer := some t }
  | access {s : State Thread Op σ ρ} {t : Thread} {op : Op} {write : σ → σ} {rest : σ → Body σ ρ}
    (stands : s.stand t = .inside op (.access write rest)) :
    Step o s (.access t) { s.goto t (.inside op (rest s.shared)) with shared := write s.shared }
  | unlock {s : State Thread Op σ ρ} {t : Thread} {op : Op} {r : ρ}
    (stands : s.stand t = .inside op (.result r)) :
    Step o s (.unlock t) { s.goto t (.returning op r) with
      writer := if s.writer = some t then none else s.writer, readers := s.readers.erase t }
  | ret {s : State Thread Op σ ρ} {t : Thread} {op : Op} {r : ρ}
    (stands : s.stand t = .returning op r) : Step o s (.ret t op r) (s.goto t .outside)

/-- Nobody is in a call. -/
def State.quiet (shared : σ) : State Thread Op σ ρ := ⟨shared, none, [], fun _ => .outside⟩

/-- The threads and the lock. -/
def locked (o : Object Op σ ρ) (Start : σ → Prop) :
    Machine (State Thread Op σ ρ) (Act Thread Op ρ) where
  Start s := ∃ shared, Start shared ∧ s = .quiet shared
  Step := Step o

end Machine

/-! ## Whole calls -/

inductive Waiting (Op ρ : Type)
  | outside
  | called (op : Op)
  | returning (op : Op) (r : ρ)

structure Whole (Thread Op σ ρ : Type) where
  shared : σ
  stand : Thread → Waiting Op ρ

inductive WholeAct (Thread Op ρ : Type)
  | call (t : Thread) (op : Op)
  | answer (t : Thread)
  | commit (t : Thread) (op : Op)
  | ret (t : Thread) (op : Op) (r : ρ)

section WholeMachine

variable [DecidableEq Thread]

def Whole.goto (s : Whole Thread Op σ ρ) (t : Thread) (stand : Waiting Op ρ) :
    Whole Thread Op σ ρ :=
  { s with stand := Function.update s.stand t stand }

@[simp] theorem Whole.goto_self (s : Whole Thread Op σ ρ) (t : Thread) (stand : Waiting Op ρ) :
    (s.goto t stand).stand t = stand := Function.update_self ..

theorem Whole.goto_of_ne (s : Whole Thread Op σ ρ) {t u : Thread} (h : u ≠ t)
    (stand : Waiting Op ρ) : (s.goto t stand).stand u = s.stand u := Function.update_of_ne h ..

inductive WholeStep (o : Object Op σ ρ) :
    Whole Thread Op σ ρ → WholeAct Thread Op ρ → Whole Thread Op σ ρ → Prop
  | call {s : Whole Thread Op σ ρ} {t : Thread} {op : Op} (stands : s.stand t = .outside) :
    WholeStep o s (.call t op) (s.goto t (.called op))
  | answer {s : Whole Thread Op σ ρ} {t : Thread} {op : Op} {r : ρ} (stands : s.stand t = .called op)
    (reason : o.rejects op = some r ∨ o.rejects op = none ∧ r = o.refused op) :
    WholeStep o s (.answer t) (s.goto t (.returning op r))
  | commit {s : Whole Thread Op σ ρ} {t : Thread} {op : Op} (stands : s.stand t = .called op)
    (good : o.rejects op = none) :
    WholeStep o s (.commit t op) { s.goto t (.returning op ((o.body op).run s.shared).1) with
      shared := ((o.body op).run s.shared).2 }
  | ret {s : Whole Thread Op σ ρ} {t : Thread} {op : Op} {r : ρ}
    (stands : s.stand t = .returning op r) : WholeStep o s (.ret t op r) (s.goto t .outside)

def Whole.quiet (shared : σ) : Whole Thread Op σ ρ := ⟨shared, fun _ => .outside⟩

/-- The threads, where a call is one step. -/
def whole (o : Object Op σ ρ) (Start : σ → Prop) :
    Machine (Whole Thread Op σ ρ) (WholeAct Thread Op ρ) where
  Start s := ∃ shared, Start shared ∧ s = .quiet shared
  Step := WholeStep o

end WholeMachine

/-! ## How whole calls see the threads -/

/-- A call that has the lock has its result. -/
def Stand.seen (s : σ) : Stand Op σ ρ → Waiting Op ρ
  | .outside => .outside
  | .called op => .called op
  | .inside op rest => .returning op (rest.run s).1
  | .returning op r => .returning op r

/-- The state that a writer inside leaves. -/
def State.left (s : State Thread Op σ ρ) : σ :=
  match s.writer with
  | none => s.shared
  | some t => match s.stand t with
    | .inside _ rest => (rest.run s.shared).2
    | _ => s.shared

def State.whole (s : State Thread Op σ ρ) : Whole Thread Op σ ρ :=
  ⟨s.left, fun t => (s.stand t).seen s.shared⟩

def Act.seen : Act Thread Op ρ → Option (WholeAct Thread Op ρ)
  | .call t op => some (.call t op)
  | .reject t | .refuse t => some (.answer t)
  | .lock t op => some (.commit t op)
  | .access _ | .unlock _ => none
  | .ret t op r => some (.ret t op r)

/-! ## The lock -/

/-- Who is inside holds the lock, and nobody else does; a writer is alone. -/
structure Inv (o : Object Op σ ρ) (s : State Thread Op σ ρ) : Prop where
  reading : ∀ t op rest, s.stand t = .inside op rest → o.shares op = true →
    t ∈ s.readers ∧ rest.Reads
  writing : ∀ t op rest, s.stand t = .inside op rest → o.shares op = false → s.writer = some t
  reader : ∀ t ∈ s.readers, ∃ op rest, s.stand t = .inside op rest ∧ o.shares op = true
  writer : ∀ t, s.writer = some t →
    s.readers = [] ∧ ∃ op rest, s.stand t = .inside op rest ∧ o.shares op = false
  nodup : s.readers.Nodup

section Steps

variable {o : Object Op σ ρ} {s s' : State Thread Op σ ρ} {t u : Thread} {op : Op}

theorem inv_quiet (shared : σ) : Inv o (.quiet shared : State Thread Op σ ρ) where
  reading _ _ _ h := by cases h
  writing _ _ _ h := by cases h
  reader _ h := by cases h
  writer _ h := by cases h
  nodup := .nil

/-- A reader keeps writers out. -/
theorem Inv.unwritten (h : Inv o s) {rest : Body σ ρ} (ht : s.stand t = .inside op rest)
    (hop : o.shares op = true) : s.writer = none := by
  have hread := (h.reading t op rest ht hop).1
  cases hwriter : s.writer with
  | none => rfl
  | some u =>
    rw [(h.writer u hwriter).1] at hread
    cases hread

/-- Nobody is inside beside a writer. -/
theorem Inv.alone (h : Inv o s) (ht : s.writer = some t) {op' : Op} {rest : Body σ ρ}
    (hu : s.stand u = .inside op' rest) : u = t := by
  cases hop : o.shares op' with
  | true =>
    have := h.unwritten hu hop
    rw [ht] at this
    cases this
  | false =>
    have := h.writing u op' rest hu hop
    rw [ht] at this
    exact (Option.some.inj this).symm

variable [DecidableEq Thread]

/-- A thread that stays outside of the lock. -/
theorem Inv.goto (h : Inv o s) {stand : Stand Op σ ρ}
    (hold : ∀ op rest, s.stand t ≠ .inside op rest) (hnew : ∀ op rest, stand ≠ .inside op rest) :
    Inv o (s.goto t stand) := by
  have hkept : ∀ u op rest, (s.goto t stand).stand u = .inside op rest ↔
      s.stand u = .inside op rest := by
    intro u op rest
    by_cases hu : u = t
    · subst hu
      rw [State.goto_self]
      exact ⟨fun heq => absurd heq (hnew op rest), fun heq => absurd heq (hold op rest)⟩
    · rw [State.goto_of_ne s hu]
  refine ⟨fun u op rest hu => ?_, fun u op rest hu => ?_, fun u hu => ?_, fun u hu => ?_, h.nodup⟩
  · exact h.reading u op rest ((hkept u op rest).mp hu)
  · exact h.writing u op rest ((hkept u op rest).mp hu)
  · obtain ⟨op, rest, hstand, hop⟩ := h.reader u hu
    exact ⟨op, rest, (hkept u op rest).mpr hstand, hop⟩
  · obtain ⟨hnil, op, rest, hstand, hop⟩ := h.writer u hu
    exact ⟨hnil, op, rest, (hkept u op rest).mpr hstand, hop⟩

theorem Inv.share (h : Inv o s) (ht : s.stand t = .called op) (hop : o.shares op = true)
    (hwriter : s.writer = none) :
    Inv o { s.goto t (.inside op (o.body op)) with readers := t :: s.readers } := by
  have hnew : t ∉ s.readers := fun hmem => by
    obtain ⟨op', rest, hstand, -⟩ := h.reader t hmem
    rw [ht] at hstand
    cases hstand
  refine ⟨fun u op' rest hu hop' => ?_, fun u op' rest hu hop' => ?_, fun u hu => ?_,
    fun u hu => ?_, List.nodup_cons.mpr ⟨hnew, h.nodup⟩⟩
  · change (s.goto t _).stand u = _ at hu
    by_cases hut : u = t
    · subst hut
      rw [State.goto_self] at hu
      cases hu
      exact ⟨List.mem_cons_self, o.reads op hop⟩
    · rw [State.goto_of_ne s hut] at hu
      exact (h.reading u op' rest hu hop').imp_left (List.mem_cons_of_mem t)
  · change (s.goto t _).stand u = _ at hu
    by_cases hut : u = t
    · subst hut
      rw [State.goto_self] at hu
      cases hu
      rw [hop] at hop'
      cases hop'
    · rw [State.goto_of_ne s hut] at hu
      exact h.writing u op' rest hu hop'
  · change ∃ op' rest, (s.goto t _).stand u = _ ∧ _
    by_cases hut : u = t
    · subst hut
      exact ⟨op, o.body op, s.goto_self u _, hop⟩
    · rw [State.goto_of_ne s hut]
      exact h.reader u ((List.mem_cons.mp hu).resolve_left hut)
  · change s.writer = some u at hu
    rw [hwriter] at hu
    cases hu

theorem Inv.exclude (h : Inv o s) (hop : o.shares op = false) (hwriter : s.writer = none)
    (hreaders : s.readers = []) :
    Inv o { s.goto t (.inside op (o.body op)) with writer := some t } := by
  have hnobody : ∀ u op' rest, s.stand u ≠ .inside op' rest := by
    intro u op' rest hu
    cases hop' : o.shares op' with
    | true =>
      have := (h.reading u op' rest hu hop').1
      rw [hreaders] at this
      cases this
    | false =>
      have := h.writing u op' rest hu hop'
      rw [hwriter] at this
      cases this
  have hinside : ∀ u op' rest, (s.goto t (.inside op (o.body op))).stand u = .inside op' rest →
      u = t ∧ op' = op := by
    intro u op' rest hu
    by_cases hut : u = t
    · subst hut
      rw [State.goto_self] at hu
      cases hu
      exact ⟨rfl, rfl⟩
    · rw [State.goto_of_ne s hut] at hu
      exact absurd hu (hnobody u op' rest)
  refine ⟨fun u op' rest hu hop' => ?_, fun u op' rest hu hop' => ?_, fun u hu => ?_,
    fun u hu => ?_, h.nodup⟩
  · obtain ⟨-, rfl⟩ := hinside u op' rest hu
    rw [hop] at hop'
    cases hop'
  · obtain ⟨rfl, -⟩ := hinside u op' rest hu
    rfl
  · change u ∈ s.readers at hu
    rw [hreaders] at hu
    cases hu
  · cases hu
    exact ⟨hreaders, op, o.body op, s.goto_self t _, hop⟩

/-- One access of a thread that is inside. -/
theorem Inv.access (h : Inv o s) {write : σ → σ} {rest : σ → Body σ ρ}
    (ht : s.stand t = .inside op (.access write rest)) :
    Inv o { s.goto t (.inside op (rest s.shared)) with shared := write s.shared } := by
  have hinside : ∀ u op' rest', (s.goto t (.inside op (rest s.shared))).stand u = .inside op' rest' →
      ∃ rest'', s.stand u = .inside op' rest'' ∧ (rest''.Reads → rest'.Reads) := by
    intro u op' rest' hu
    by_cases hut : u = t
    · subst hut
      rw [State.goto_self] at hu
      cases hu
      refine ⟨_, ht, fun hreads => ?_⟩
      cases hreads with
      | access _ more => exact more s.shared
    · rw [State.goto_of_ne s hut] at hu
      exact ⟨rest', hu, id⟩
  have hstays : ∀ u op' rest', s.stand u = .inside op' rest' → ∃ rest'',
      (s.goto t (.inside op (rest s.shared))).stand u = .inside op' rest'' := by
    intro u op' rest' hu
    by_cases hut : u = t
    · subst hut
      rw [ht] at hu
      cases hu
      exact ⟨_, s.goto_self u _⟩
    · exact ⟨rest', (s.goto_of_ne hut _).trans hu⟩
  refine ⟨fun u op' rest' hu hop => ?_, fun u op' rest' hu hop => ?_, fun u hu => ?_,
    fun u hu => ?_, h.nodup⟩
  · obtain ⟨rest'', hold, hreads⟩ := hinside u op' rest' hu
    exact (h.reading u op' rest'' hold hop).imp_right hreads
  · obtain ⟨rest'', hold, -⟩ := hinside u op' rest' hu
    exact h.writing u op' rest'' hold hop
  · obtain ⟨op', rest', hold, hop⟩ := h.reader u hu
    obtain ⟨rest'', hnew⟩ := hstays u op' rest' hold
    exact ⟨op', rest'', hnew, hop⟩
  · obtain ⟨hnil, op', rest', hold, hop⟩ := h.writer u hu
    obtain ⟨rest'', hnew⟩ := hstays u op' rest' hold
    exact ⟨hnil, op', rest'', hnew, hop⟩

theorem Inv.unlock (h : Inv o s) {r : ρ} (ht : s.stand t = .inside op (.result r)) :
    Inv o { s.goto t (.returning op r) with
      writer := if s.writer = some t then none else s.writer, readers := s.readers.erase t } := by
  have hinside : ∀ u op' rest, (s.goto t (.returning op r)).stand u = .inside op' rest →
      u ≠ t ∧ s.stand u = .inside op' rest := by
    intro u op' rest hu
    by_cases hut : u = t
    · subst hut
      rw [State.goto_self] at hu
      cases hu
    · exact ⟨hut, (s.goto_of_ne hut _).symm.trans hu⟩
  refine ⟨fun u op' rest hu hop' => ?_, fun u op' rest hu hop' => ?_, fun u hu => ?_,
    fun u hu => ?_, h.nodup.erase t⟩
  · obtain ⟨hut, hold⟩ := hinside u op' rest hu
    exact (h.reading u op' rest hold hop').imp_left (List.mem_erase_of_ne hut).mpr
  · obtain ⟨hut, hold⟩ := hinside u op' rest hu
    have hwriter := h.writing u op' rest hold hop'
    change (if s.writer = some t then none else s.writer) = some u
    rw [hwriter, if_neg fun heq => hut (Option.some.inj heq)]
  · obtain ⟨hut, hmem⟩ := h.nodup.mem_erase_iff.mp hu
    obtain ⟨op', rest, hold, hop'⟩ := h.reader u hmem
    exact ⟨op', rest, (s.goto_of_ne hut _).trans hold, hop'⟩
  · change (if s.writer = some t then none else s.writer) = some u at hu
    split at hu
    · cases hu
    · rename_i hne
      obtain ⟨hnil, op', rest, hold, hop'⟩ := h.writer u hu
      refine ⟨?_, op', rest, (s.goto_of_ne ?_ _).trans hold, hop'⟩
      · change s.readers.erase t = []
        rw [hnil]
        rfl
      · rintro rfl
        exact hne hu

/-- Every step keeps the lock. -/
theorem Inv.step (h : Inv o s) {a : Act Thread Op ρ} (hstep : Step o s a s') : Inv o s' := by
  cases hstep with
  | call ht => exact h.goto (by simp [ht]) (by simp)
  | reject ht _ => exact h.goto (by simp [ht]) (by simp)
  | refuse ht _ => exact h.goto (by simp [ht]) (by simp)
  | share ht _ hop hwriter => exact h.share ht hop hwriter
  | exclude _ _ hop hwriter hreaders => exact h.exclude hop hwriter hreaders
  | access ht => exact h.access ht
  | unlock ht => exact h.unlock ht
  | ret ht => exact h.goto (by simp [ht]) (by simp)

/-! ## Calls are whole -/

/-- A thread that moves, as whole calls see it. -/
theorem whole_goto {stand : Stand Op σ ρ} (hshared : s'.shared = s.shared)
    (hstand : s'.stand = (s.goto t stand).stand) (hleft : s'.left = s.left) :
    s'.whole = s.whole.goto t (stand.seen s.shared) := by
  unfold State.whole Whole.goto
  rw [hshared, hleft, hstand]
  refine congrArg (Whole.mk s.left) (funext fun u => ?_)
  by_cases hut : u = t
  · subst hut
    rw [State.goto_self, Function.update_self]
  · rw [State.goto_of_ne s hut, Function.update_of_ne hut]

/-- Nothing is seen of a thread that stands as before. -/
theorem whole_same {stand : Stand Op σ ρ} (hshared : s'.shared = s.shared)
    (hstand : s'.stand = (s.goto t stand).stand) (hleft : s'.left = s.left)
    (hseen : stand.seen s.shared = (s.stand t).seen s.shared) : s'.whole = s.whole := by
  rw [whole_goto hshared hstand hleft, hseen]
  exact congrArg (Whole.mk s.left) (Function.update_eq_self t _)

/-- A thread that is not inside leaves alone what the writer leaves. -/
theorem left_goto {stand : Stand Op σ ρ} (h : Inv o s)
    (hold : ∀ op rest, s.stand t ≠ .inside op rest) : (s.goto t stand).left = s.left := by
  unfold State.left
  change (match s.writer with | none => s.shared | some u => _) = _
  cases hwriter : s.writer with
  | none => rfl
  | some u =>
    obtain ⟨-, op, rest, hu, -⟩ := h.writer u hwriter
    have hut : u ≠ t := by
      rintro rfl
      exact hold op rest hu
    simp only [State.goto_of_ne s hut]
    rfl

/-- A thread that stays outside of the lock, as whole calls see it. -/
theorem whole_outside {stand : Stand Op σ ρ} (h : Inv o s)
    (hold : ∀ op rest, s.stand t ≠ .inside op rest) :
    (s.goto t stand).whole = s.whole.goto t (stand.seen s.shared) :=
  whole_goto rfl rfl (left_goto h hold)

omit [DecidableEq Thread] in
theorem left_of_none (h : s.writer = none) : s.left = s.shared := by
  unfold State.left
  rw [h]

omit [DecidableEq Thread] in
theorem left_of_some (h : s.writer = some t) {rest : Body σ ρ} (ht : s.stand t = .inside op rest) :
    s.left = (rest.run s.shared).2 := by
  unfold State.left
  simp only [h, ht]

/-- A call that gets the lock, as whole calls see it. -/
theorem commits (hs : s.writer = none) (ht : s.stand t = .called op) (hgood : o.rejects op = none)
    (hshared : s'.shared = s.shared)
    (hstand : s'.stand = (s.goto t (.inside op (o.body op))).stand)
    (hleft : s'.left = ((o.body op).run s.shared).2) :
    WholeStep o s.whole (.commit t op) s'.whole := by
  have hold : s.whole.shared = s.shared := left_of_none hs
  have hcalled : s.whole.stand t = .called op := by
    change (s.stand t).seen s.shared = _
    rw [ht]
    rfl
  have hwhole : s'.whole = { s.whole.goto t (.returning op ((o.body op).run s.whole.shared).1) with
      shared := ((o.body op).run s.whole.shared).2 } := by
    rw [hold]
    unfold State.whole Whole.goto
    rw [hshared, hleft, hstand]
    refine congrArg (Whole.mk _) (funext fun u => ?_)
    by_cases hut : u = t
    · subst hut
      rw [State.goto_self]
      simp only [Function.update_self]
      rfl
    · rw [State.goto_of_ne s hut]
      simp only [Function.update_of_ne hut]
  rw [hwhole]
  exact .commit hcalled hgood

/-- An access changes nothing for whole calls. -/
theorem access_unseen (h : Inv o s) {write : σ → σ} {rest : σ → Body σ ρ}
    (ht : s.stand t = .inside op (.access write rest)) :
    State.whole { s.goto t (.inside op (rest s.shared)) with shared := write s.shared } =
      s.whole := by
  cases hop : o.shares op with
  | true =>
    -- a reader writes what is there
    have hwriter := h.unwritten ht hop
    have hsame : write s.shared = s.shared := by
      cases (h.reading t op _ ht hop).2 with
      | access same _ => exact same s.shared
    refine whole_same (t := t) hsame rfl ?_ ?_
    · rw [left_of_none hwriter, left_of_none (by exact hwriter)]
      exact hsame
    · rw [ht, Stand.seen, Stand.seen, Body.run, hsame]
  | false =>
    -- nobody else is inside
    have hwriter := h.writing t op _ ht hop
    unfold State.whole
    congr 1
    · rw [left_of_some hwriter ht]
      have hstand : (s.goto t (.inside op (rest s.shared))).stand t =
          .inside op (rest s.shared) := s.goto_self t _
      exact @left_of_some _ _ _ _ { s.goto t (.inside op (rest s.shared)) with
        shared := write s.shared } t op hwriter (rest s.shared) hstand
    · funext u
      change ((s.goto t (.inside op (rest s.shared))).stand u).seen (write s.shared) = _
      by_cases hut : u = t
      · subst hut
        rw [State.goto_self, ht]
        rfl
      · rw [State.goto_of_ne s hut]
        cases hu : s.stand u with
        | inside op' rest' => exact absurd (h.alone hwriter hu) hut
        | _ => rfl

/-- **A step that whole calls see** is one of theirs. -/
theorem step_seen {a : Act Thread Op ρ} {b : WholeAct Thread Op ρ} (h : Inv o s)
    (hstep : Step o s a s') (hb : a.seen = some b) : WholeStep o s.whole b s'.whole := by
  have hseen : ∀ t, s.whole.stand t = (s.stand t).seen s.shared := fun _ => rfl
  cases hstep with
  | access _ => cases hb
  | unlock _ => cases hb
  | call ht =>
    cases hb
    rw [whole_outside h (by simp [ht])]
    exact .call (by rw [hseen, ht]; rfl)
  | reject ht hbad =>
    cases hb
    rw [whole_outside h (by simp [ht])]
    exact .answer (by rw [hseen, ht]; rfl) (.inl hbad)
  | refuse ht hgood =>
    cases hb
    rw [whole_outside h (by simp [ht])]
    exact .answer (by rw [hseen, ht]; rfl) (.inr ⟨hgood, rfl⟩)
  | @share t op ht hgood hop hwriter =>
    cases hb
    refine commits hwriter ht hgood rfl rfl ?_
    rw [(o.reads op hop).run_snd]
    exact left_of_none hwriter
  | @exclude t op ht hgood _ hwriter _ =>
    cases hb
    exact commits hwriter ht hgood rfl rfl (left_of_some (t := t) rfl (s.goto_self t _))
  | ret ht =>
    cases hb
    rw [whole_outside h (by simp [ht])]
    exact .ret (by rw [hseen, ht]; rfl)

/-- The others change nothing for whole calls. -/
theorem step_unseen {a : Act Thread Op ρ} (h : Inv o s) (hstep : Step o s a s')
    (ha : a.seen = none) : s'.whole = s.whole := by
  cases hstep with
  | access ht => exact access_unseen h ht
  | @unlock t op r ht =>
    refine whole_same (t := t) rfl rfl ?_ (by rw [ht]; rfl)
    cases hop : o.shares op with
    | true =>
      have hwriter := h.unwritten ht hop
      rw [left_of_none hwriter]
      refine left_of_none ?_
      change (if s.writer = some t then none else s.writer) = none
      rw [hwriter]
      rfl
    | false =>
      have hwriter := h.writing t op _ ht hop
      rw [left_of_some hwriter ht]
      refine left_of_none ?_
      change (if s.writer = some t then none else s.writer) = none
      rw [if_pos hwriter]
  | _ => cases ha

/-- **A run is a run of whole calls**, with the same calls and returns. -/
theorem path_whole {Start : σ → Prop} {as : List (Act Thread Op ρ)}
    (h : Machine.Path (m := locked o Start) s as s') (hs : Inv o s) :
    Machine.Path (m := whole o Start) s.whole (as.filterMap Act.seen) s'.whole ∧ Inv o s' :=
  h.simulated State.whole Act.seen (Inv o) (fun _ _ _ hinv hstep => hinv.step hstep)
    (fun _ _ _ _ hinv hstep hb => step_seen hinv hstep hb)
    (fun _ _ _ hinv hstep ha => step_unseen hinv hstep ha) hs

/-! ## Nobody is stuck -/

/-- The steps besides a new call and a refusal of the lock. -/
def Act.Advances : Act Thread Op ρ → Prop
  | .call .. | .refuse _ => False
  | _ => True

/-- Who is inside goes on. -/
theorem inside_advances {rest : Body σ ρ} (ht : s.stand t = .inside op rest) :
    ∃ a s', Step o s a s' ∧ Act.Advances a := by
  cases rest with
  | result r => exact ⟨_, _, .unlock ht, trivial⟩
  | access write rest => exact ⟨_, _, .access ht, trivial⟩

/-- **No deadlock**: where a call has not returned, some call goes on. -/
theorem Inv.progress (h : Inv o s) (ht : s.stand t ≠ .outside) :
    ∃ a s', Step o s a s' ∧ Act.Advances a := by
  cases hstand : s.stand t with
  | outside => exact absurd hstand ht
  | inside op rest => exact inside_advances hstand
  | returning op r => exact ⟨_, _, .ret hstand, trivial⟩
  | called op =>
    cases hgood : o.rejects op with
    | some r => exact ⟨_, _, .reject hstand hgood, trivial⟩
    | none =>
      cases hwriter : s.writer with
      | some u =>
        obtain ⟨-, op', rest, hu, -⟩ := h.writer u hwriter
        exact inside_advances hu
      | none =>
        cases hop : o.shares op with
        | true => exact ⟨_, _, .share hstand hgood hop hwriter, trivial⟩
        | false =>
          cases hreaders : s.readers with
          | nil => exact ⟨_, _, .exclude hstand hgood hop hwriter hreaders, trivial⟩
          | cons u readers =>
            obtain ⟨op', rest, hu, -⟩ := h.reader u (hreaders ▸ List.mem_cons_self)
            exact inside_advances hu

/-! ## What one call after the other keeps -/

variable (o) in
/-- A call was refused, or did what it does on a state in `I`. -/
def Answers (I : σ → Prop) (fine : σ → Op → Prop) (op : Op) (r : ρ) : Prop :=
  o.rejects op = some r ∨ r = o.refused op ∨ ∃ w, I w ∧ fine w op ∧ r = ((o.body op).run w).1

variable {I Start : σ → Prop} {fine : σ → Op → Prop}
  (hstart : ∀ w, Start w → I w) (hop : ∀ w op, I w → fine w op → I ((o.body op).run w).2)

include hop

omit hstart in
/-- One step of whole calls. -/
theorem whole_answers {w w' : Whole Thread Op σ ρ} {b : WholeAct Thread Op ρ}
    (hstep : WholeStep o w b w') (hI : I w.shared)
    (hw : ∀ t op r, w.stand t = .returning op r → Answers o I fine op r)
    (hfine : ∀ t op, b = .commit t op → fine w.shared op) :
    I w'.shared ∧ ∀ t op r, w'.stand t = .returning op r → Answers o I fine op r := by
  -- the answer of a thread that has moved is new
  have hmoved : ∀ (t : Thread) (stand : Waiting Op ρ),
      (∀ op r, stand = .returning op r → Answers o I fine op r) →
      ∀ u op r, (w.goto t stand).stand u = .returning op r → Answers o I fine op r := by
    intro t stand hnew u op r hu
    by_cases hut : u = t
    · subst hut
      rw [Whole.goto_self] at hu
      exact hnew op r hu
    · rw [Whole.goto_of_ne w hut] at hu
      exact hw u op r hu
  cases hstep with
  | call _ => exact ⟨hI, hmoved _ _ fun op r hr => by cases hr⟩
  | ret _ => exact ⟨hI, hmoved _ _ fun op r hr => by cases hr⟩
  | answer _ hreason =>
    refine ⟨hI, hmoved _ _ fun op r hr => ?_⟩
    cases hr
    exact hreason.imp_right fun h => .inl h.2
  | @commit t op _ _ =>
    refine ⟨hop _ op hI (hfine t op rfl), hmoved _ _ fun op' r hr => ?_⟩
    cases hr
    exact .inr (.inr ⟨_, hI, hfine t _ rfl, rfl⟩)

include hstart

/-- **What calls keep one after the other** is kept where they overlap, and every call answers as
it does on such a state. -/
theorem reached_answers (h : (locked o Start).Reached
      (fun s a => ∀ t op, a = .lock t op → fine s.shared op) s) :
    Inv o s ∧ I s.left ∧ ∀ t op r, s.stand t = .returning op r → Answers o I fine op r := by
  have hall : Inv o s ∧ I s.whole.shared ∧
      ∀ t op r, s.whole.stand t = .returning op r → Answers o I fine op r := by
    refine h.invariant (fun s => Inv o s ∧ I s.whole.shared ∧
      ∀ t op r, s.whole.stand t = .returning op r → Answers o I fine op r) ?_ ?_
    · rintro s ⟨shared, hshared, rfl⟩
      exact ⟨inv_quiet shared, hstart shared hshared, fun t op r ht => by cases ht⟩
    · rintro s a s' ⟨hinv, hI, hanswers⟩ hfine hstep
      refine ⟨hinv.step hstep, ?_⟩
      cases hb : a.seen with
      | none =>
        rw [step_unseen hinv hstep hb]
        exact ⟨hI, hanswers⟩
      | some b =>
        have hwhole := step_seen hinv hstep hb
        have hcommit : ∀ t op, b = .commit t op → fine s.whole.shared op := by
          rintro t op rfl
          cases hstep with
          | share _ _ _ hwriter =>
            cases hb
            have hshared : s.whole.shared = s.shared := left_of_none hwriter
            rw [hshared]
            exact hfine t op rfl
          | exclude _ _ _ hwriter _ =>
            cases hb
            have hshared : s.whole.shared = s.shared := left_of_none hwriter
            rw [hshared]
            exact hfine t op rfl
          | _ => cases hb
        exact whole_answers hop hwhole hI hanswers hcommit
  refine ⟨hall.1, hall.2.1, fun t op r ht => hall.2.2 t op r ?_⟩
  change (s.stand t).seen s.shared = _
  rw [ht]
  rfl

end Steps

end Locked

end Ipa
