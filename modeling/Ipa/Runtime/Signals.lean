import Ipa.Lib.Machine
import Ipa.Schema.Build
import Mathlib.Data.List.Nodup

/-!
# Signals

A schema handle carries a table of signal handlers, and one global pointer says to which handle
the listener dispatches. `process` is the machine of the calls of a program over any number of
handles: opening, registering, listening, closing, with signals between them. A handle is its
number in the order of opening, so a closed one is never another handle's.

Closing a handle does not look at the global pointer. The pointer is `NULL` or an open handle in
every run that never closes the handle it holds, and closing that handle leaves it dangling.
-/

namespace Ipa

/-- The address of a callback. -/
abbrev Callback := Nat

structure SignalEntry where
  sig : Int32
  cb : Callback
deriving DecidableEq, Repr

/-! ## The handlers of a handle -/

/-- The loop of `kc_ipa_on_signal`: the entries with the first one of `sig` replaced or removed;
`none` when there is no entry of `sig`. -/
def setEntry (sig : Int32) (cb : Option Callback) : List SignalEntry → Option (List SignalEntry)
  | [] => none
  | entry :: entries =>
    if entry.sig = sig then
      match cb with
      | some cb => some ({ entry with cb } :: entries)
      | none => some entries
    else (setEntry sig cb entries).map (entry :: ·)

/-- The callback of the first entry of a signal. -/
def findCallback (entries : List SignalEntry) (sig : Int32) : Option Callback :=
  (entries.find? fun entry => entry.sig = sig).map (·.cb)

@[simp] theorem findCallback_cons (entry : SignalEntry) (entries : List SignalEntry) (sig : Int32) :
    findCallback (entry :: entries) sig =
      if entry.sig = sig then some entry.cb else findCallback entries sig := by
  unfold findCallback
  rw [List.find?_cons]
  by_cases h : entry.sig = sig <;> simp [h]

theorem findCallback_eq_none {entries : List SignalEntry} {sig : Int32} :
    findCallback entries sig = none ↔ sig ∉ entries.map (·.sig) := by
  simp [findCallback]

theorem setEntry_eq_none {sig : Int32} {cb : Option Callback} {entries : List SignalEntry} :
    setEntry sig cb entries = none ↔ sig ∉ entries.map (·.sig) := by
  induction entries with
  | nil => simp [setEntry]
  | cons entry entries ih =>
    unfold setEntry
    by_cases h : entry.sig = sig
    · rw [if_pos h]
      cases cb <;> simp [h]
    · rw [if_neg h, Option.map_eq_none_iff, ih, List.map_cons, List.mem_cons, not_or]
      exact ⟨fun hs => ⟨fun heq => h heq.symm, hs⟩, fun hs => hs.2⟩

/-- Setting an entry adds no signal. -/
theorem setEntry_sublist {sig : Int32} {cb : Option Callback} {entries entries' : List SignalEntry}
    (h : setEntry sig cb entries = some entries') :
    (entries'.map (·.sig)).Sublist (entries.map (·.sig)) := by
  induction entries generalizing entries' with
  | nil => cases h
  | cons entry entries ih =>
    unfold setEntry at h
    split at h
    · cases cb with
      | none =>
        cases h
        exact List.sublist_cons_self _ _
      | some cb =>
        cases h
        exact List.Sublist.refl _
    · obtain ⟨tail, htail, rfl⟩ := Option.map_eq_some_iff.mp h
      exact (ih htail).cons_cons _

/-- Setting an entry changes the callback of its signal and no other. -/
theorem findCallback_setEntry {sig : Int32} {cb : Option Callback}
    {entries entries' : List SignalEntry} (hsingle : (entries.map (·.sig)).Nodup)
    (h : setEntry sig cb entries = some entries') (sig' : Int32) :
    findCallback entries' sig' = if sig' = sig then cb else findCallback entries sig' := by
  induction entries generalizing entries' with
  | nil => cases h
  | cons entry entries ih =>
    rw [List.map_cons, List.nodup_cons] at hsingle
    unfold setEntry at h
    by_cases hsig : entry.sig = sig
    · rw [if_pos hsig] at h
      subst hsig
      cases cb with
      | some cb =>
        cases h
        by_cases heq : entry.sig = sig'
        · simp [heq]
        · simp [heq, Ne.symm heq]
      | none =>
        cases h
        by_cases heq : entry.sig = sig'
        · rw [if_pos heq.symm, ← heq, findCallback_eq_none]
          exact hsingle.1
        · simp [heq, Ne.symm heq]
    · rw [if_neg hsig] at h
      obtain ⟨tail, htail, rfl⟩ := Option.map_eq_some_iff.mp h
      rw [findCallback_cons, findCallback_cons, ih hsingle.2 htail]
      by_cases heq : entry.sig = sig'
      · rw [if_pos heq, if_pos heq, if_neg fun h => hsig (heq.trans h)]
      · rw [if_neg heq, if_neg heq]

/-- The handlers of a handle: at most one for each signal, in an array with room for them. -/
structure SignalHandlers where
  entries : List SignalEntry
  capacity : Nat
  fits : entries.length ≤ capacity
  single : (entries.map (·.sig)).Nodup

namespace SignalHandlers

/-- `s->signal_handlers = NULL`. -/
def empty : SignalHandlers := ⟨[], 0, Nat.le_refl 0, List.nodup_nil⟩

/-- Another entry behind the last, in an array of the given capacity. -/
def push (t : SignalHandlers) (entry : SignalEntry) (capacity : Nat)
    (hroom : t.entries.length < capacity) (hnew : entry.sig ∉ t.entries.map (·.sig)) :
    SignalHandlers where
  entries := t.entries ++ [entry]
  capacity := capacity
  fits := by rw [List.length_append]; exact hroom
  single := by
    rw [List.map_append, List.nodup_append]
    refine ⟨t.single, List.nodup_singleton _, fun sig hsig sig' hsig' heq => ?_⟩
    rw [List.map_singleton, List.mem_singleton] at hsig'
    exact hnew (hsig' ▸ heq ▸ hsig)

/-- `signal_handlers_capacity ? signal_handlers_capacity * 2 : 4`. -/
def nextCapacity (t : SignalHandlers) : Nat := if t.capacity = 0 then 4 else t.capacity * 2

theorem lt_nextCapacity (t : SignalHandlers) : t.entries.length < t.nextCapacity := by
  have := t.fits
  unfold nextCapacity
  split <;> omega

/-- `served` is the outcome of the `realloc` that a full array asks for. -/
def onSignal (t : SignalHandlers) (sig : Int32) (cb : Option Callback) (served : Bool) :
    Rc × SignalHandlers :=
  match hset : setEntry sig cb t.entries with
  | some entries => (.ok, ⟨entries, t.capacity,
      Nat.le_trans (by simpa using (setEntry_sublist hset).length_le) t.fits,
      (setEntry_sublist hset).nodup t.single⟩)
  | none =>
    match cb with
    | none => (.ok, t)
    | some cb =>
      if hroom : t.entries.length < t.capacity then
        (.ok, t.push ⟨sig, cb⟩ t.capacity hroom (setEntry_eq_none.mp hset))
      else if served then
        (.ok, t.push ⟨sig, cb⟩ t.nextCapacity t.lt_nextCapacity (setEntry_eq_none.mp hset))
      else (.error, t)

/-- The callback that is called; without one the code is `KC_IPA_ERROR`. -/
def raiseSignal (t : SignalHandlers) (sig : Int32) : Option Callback := findCallback t.entries sig

theorem raiseSignal_push {t : SignalHandlers} {entry : SignalEntry} {capacity : Nat}
    (hroom : t.entries.length < capacity) (hnew : entry.sig ∉ t.entries.map (·.sig))
    (sig : Int32) :
    (t.push entry capacity hroom hnew).raiseSignal sig =
      if sig = entry.sig then some entry.cb else t.raiseSignal sig := by
  have hnone := findCallback_eq_none.mpr hnew
  unfold raiseSignal push findCallback at *
  rw [List.find?_append, Option.map_or]
  by_cases heq : sig = entry.sig
  · subst heq
    rw [hnone, if_pos rfl]
    simp
  · simp [heq, Ne.symm heq]

/-- **Registering**: with `KC_IPA_OK` the signal has the given callback and the others keep
theirs, with an error nothing changed. -/
theorem onSignal_spec (t : SignalHandlers) (sig : Int32) (cb : Option Callback) (served : Bool) :
    ((t.onSignal sig cb served).1 = .ok ∧ ∀ sig',
        (t.onSignal sig cb served).2.raiseSignal sig' = if sig' = sig then cb else t.raiseSignal sig') ∨
      ((t.onSignal sig cb served).1 = .error ∧ served = false ∧
        (t.onSignal sig cb served).2 = t) := by
  unfold onSignal
  split
  · rename_i entries hset
    exact .inl ⟨rfl, findCallback_setEntry t.single hset⟩
  · rename_i hset
    have hnone : t.raiseSignal sig = none :=
      findCallback_eq_none.mpr (setEntry_eq_none.mp hset)
    cases cb with
    | none =>
      refine .inl ⟨rfl, fun sig' => ?_⟩
      by_cases heq : sig' = sig
      · rw [if_pos heq, heq]
        exact hnone
      · rw [if_neg heq]
    | some cb =>
      have hnew := setEntry_eq_none.mp hset
      simp only
      split
      · rename_i hroom
        exact .inl ⟨rfl, raiseSignal_push hroom hnew⟩
      · cases served with
        | true => exact .inl ⟨rfl, raiseSignal_push t.lt_nextCapacity hnew⟩
        | false => exact .inr ⟨rfl, rfl, rfl⟩

end SignalHandlers

/-! ## Calls one after the other -/

/-- The arguments of a call of `kc_ipa_on_signal`, and the outcome of a `realloc` that it asks
for. -/
structure Registration where
  sig : Int32
  cb : Option Callback
  served : Bool
deriving DecidableEq, Repr

namespace SignalHandlers

/-- What `kc_ipa_raise_signal` returns and the callbacks it calls. -/
def raise (t : SignalHandlers) (sig : Int32) : Rc × List Callback :=
  match t.raiseSignal sig with
  | some cb => (.ok, [cb])
  | none => (.error, [])

/-- The calls of `kc_ipa_on_signal` with the codes that they return, and the handlers that they
leave. -/
def onSignals (t : SignalHandlers) : List Registration → List (Registration × Rc) × SignalHandlers
  | [] => ([], t)
  | call :: calls =>
    let (code, t) := t.onSignal call.sig call.cb call.served
    let (history, t) := t.onSignals calls
    ((call, code) :: history, t)

/-- The most recent successful call for a signal. -/
def latest (sig : Int32) (history : List (Registration × Rc)) : Option Registration :=
  (history.reverse.find? fun call => call.1.sig = sig ∧ call.2 = .ok).map (·.1)

theorem latest_cons (sig : Int32) (call : Registration) (code : Rc)
    (history : List (Registration × Rc)) :
    latest sig ((call, code) :: history) =
      (latest sig history).or (if call.sig = sig ∧ code = .ok then some call else none) := by
  unfold latest
  rw [List.reverse_cons, List.find?_append, Option.map_or, List.find?_singleton]
  by_cases h : call.sig = sig ∧ code = .ok
  · simp [h]
  · simp [h]

/-- After any calls, the most recent successful one for a signal decides what is called. -/
theorem onSignals_raiseSignal (calls : List Registration) (t : SignalHandlers) (sig : Int32) :
    (t.onSignals calls).2.raiseSignal sig =
      ((latest sig (t.onSignals calls).1).map (·.cb)).getD (t.raiseSignal sig) := by
  induction calls generalizing t with
  | nil => rfl
  | cons call calls ih =>
    rw [onSignals]
    dsimp only
    rw [latest_cons, ih]
    cases hlater : latest sig ((t.onSignal call.sig call.cb call.served).2.onSignals calls).1 with
    | some later => rfl
    | none =>
      change (t.onSignal call.sig call.cb call.served).2.raiseSignal sig = _
      rcases t.onSignal_spec call.sig call.cb call.served with ⟨hok, hset⟩ | ⟨herror, -, hsame⟩
      · rw [hset sig, hok]
        by_cases heq : sig = call.sig
        · simp [heq]
        · simp [heq, Ne.symm heq]
      · rw [hsame, herror]
        simp

/-- **The handlers are a finite map**: after any calls on a new handle there is one entry for each
signal at most, raising a signal calls what its most recent successful call has set, and a further
call that fails changes nothing, while one that succeeds changes no other signal. -/
theorem onSignals_map (calls : List Registration) :
    let history := (empty.onSignals calls).1
    let t := (empty.onSignals calls).2
    (t.entries.map (·.sig)).Nodup ∧
      (∀ sig, t.raise sig = match (latest sig history).bind (·.cb) with
        | some cb => (.ok, [cb])
        | none => (.error, [])) ∧
      ∀ sig cb served,
        ((t.onSignal sig cb served).1 = .error → (t.onSignal sig cb served).2 = t) ∧
        ∀ sig', sig' ≠ sig → (t.onSignal sig cb served).2.raise sig' = t.raise sig' := by
  intro history t
  refine ⟨t.single, fun sig => ?_, fun sig cb served => ?_⟩
  · have hraise : t.raiseSignal sig = (latest sig history).bind (·.cb) := by
      have hlatest : t.raiseSignal sig = ((latest sig history).map (·.cb)).getD none :=
        onSignals_raiseSignal calls empty sig
      rw [hlatest]
      cases latest sig history <;> rfl
    unfold raise
    rw [hraise]
  · rcases t.onSignal_spec sig cb served with ⟨hok, hset⟩ | ⟨herror, -, hsame⟩
    · refine ⟨fun herror => ?_, fun sig' hne => ?_⟩
      · rw [hok] at herror
        cases herror
      · unfold raise
        rw [hset sig', if_neg hne]
    · refine ⟨fun _ => hsame, fun sig' _ => ?_⟩
      rw [hsame]

end SignalHandlers

/-! ## The calls of a program -/

/-- The handles that were opened, with their handlers while they are open, `g_signal_ctx`, and the
signals whose handler is `kc_ipa_signal_listener`. -/
structure Process where
  handles : List (Option SignalHandlers)
  signalCtx : Option Nat
  wired : List Int32

namespace Process

def initial : Process := ⟨[], none, []⟩

def handlers? (p : Process) (s : Nat) : Option SignalHandlers := p.handles[s]?.join

def IsOpen (p : Process) (s : Nat) : Prop := (p.handlers? s).isSome

/-- A new handle. -/
def allocate (p : Process) : Process := { p with handles := p.handles ++ [some .empty] }

def close (p : Process) : Option Nat → Process
  | none => p
  | some s => { p with handles := p.handles.set s none }

/-- `kc_ipa_open`; its failure path closes the handle that it has allocated. -/
def openHandle (p : Process) (success : Bool) : Process :=
  if success then p.allocate else p.allocate.close (some p.handles.length)

def onSignal (p : Process) (ctx : Nat) (sig : Int32) (cb : Option Callback) (served : Bool) :
    Process :=
  match p.handlers? ctx with
  | none => p
  | some t => { p with handles := p.handles.set ctx (some (t.onSignal sig cb served).2) }

def listenSignals (p : Process) : Option Nat → Rc × Process
  | none => (.error, p)
  | some ctx => (.ok, { p with signalCtx := some ctx })

def listenSignal (p : Process) (sig : Int32) : Option Nat → Rc × Process
  | none => (.error, p)
  | some ctx => (.ok, { p with signalCtx := some ctx, wired := sig :: p.wired })

/-- What `kc_ipa_signal_listener` does with a signal. -/
inductive Dispatch
  | ignored
  | raised (ctx : Nat) (cb : Option Callback)
  | freed (ctx : Nat)
deriving DecidableEq, Repr

/-- The handlers of a closed handle are memory that was freed. -/
def signalListener (p : Process) (sig : Int32) : Dispatch :=
  match p.signalCtx with
  | none => .ignored
  | some ctx =>
    match p.handlers? ctx with
    | none => .freed ctx
    | some t => .raised ctx (t.raiseSignal sig)

/-- `openSchema` is a call of `kc_ipa_open` that allocates a handle, `install` the program's own
`signal(sig, kc_ipa_signal_listener)`. What a callback calls are further calls. -/
inductive Call
  | openSchema (success : Bool)
  | onSignal (ctx : Nat) (sig : Int32) (cb : Option Callback) (served : Bool)
  | listenSignals (ctx : Option Nat)
  | listenSignal (ctx : Option Nat) (sig : Int32)
  | install (sig : Int32)
  | close (s : Option Nat)
  | signal (sig : Int32)
deriving DecidableEq, Repr

/-- A program passes `NULL`, where that is allowed, or a handle that is open; a signal arrives at
the listener when it is wired to it. -/
def Enabled (p : Process) : Call → Prop
  | .openSchema _ => True
  | .onSignal ctx _ _ _ => p.IsOpen ctx
  | .listenSignals ctx => ∀ s, ctx = some s → p.IsOpen s
  | .listenSignal ctx _ => ∀ s, ctx = some s → p.IsOpen s
  | .install _ => True
  | .close s => ∀ s', s = some s' → p.IsOpen s'
  | .signal sig => sig ∈ p.wired

def after (p : Process) : Call → Process
  | .openSchema success => p.openHandle success
  | .onSignal ctx sig cb served => p.onSignal ctx sig cb served
  | .listenSignals ctx => (p.listenSignals ctx).2
  | .listenSignal ctx sig => (p.listenSignal sig ctx).2
  | .install sig => { p with wired := sig :: p.wired }
  | .close s => p.close s
  | .signal _ => p

end Process

/-- The calls of a program and the signals between them. -/
def process : Machine Process Process.Call where
  Start p := p = .initial
  Step p call p' := p.Enabled call ∧ p' = p.after call

theorem Machine.Reached.call {ok : Process → Process.Call → Prop} {p : Process}
    (h : process.Reached ok p) (call : Process.Call) (allowed : ok p call)
    (henabled : p.Enabled call) : process.Reached ok (p.after call) :=
  h.step allowed ⟨henabled, rfl⟩

namespace Process

variable {p p' : Process} {s g : Nat}

/-- The stored context is `NULL` or a handle that is open. -/
def CtxOpen (p : Process) : Prop := ∀ g, p.signalCtx = some g → p.IsOpen g

/-- A call that does not close the stored context. -/
def Spares (p : Process) (call : Call) : Prop := ∀ g, p.signalCtx = some g → call ≠ .close (some g)

/-! ## What the calls do to the handles -/

theorem IsOpen.lt (h : p.IsOpen s) : s < p.handles.length := by
  by_contra hge
  unfold IsOpen handlers? at h
  rw [List.getElem?_eq_none (by omega)] at h
  cases h

theorem isOpen_allocate (h : p.IsOpen s) : p.allocate.IsOpen s := by
  have hlt := h.lt
  unfold IsOpen handlers? allocate at *
  rwa [List.getElem?_append_left hlt]

theorem isOpen_close (h : p.IsOpen s) (hne : g ≠ s) : (p.close (some g)).IsOpen s := by
  unfold IsOpen handlers? close at *
  rwa [List.getElem?_set_ne hne]

theorem not_isOpen_close : ¬ (p.close (some g)).IsOpen g := by
  unfold IsOpen handlers? close
  by_cases hlt : g < p.handles.length
  · simp [List.getElem?_set_self hlt]
  · rw [List.getElem?_eq_none (by rw [List.length_set]; omega)]
    simp

theorem isOpen_onSignal {ctx : Nat} {sig : Int32} {cb : Option Callback} {served : Bool}
    (h : p.IsOpen s) : (p.onSignal ctx sig cb served).IsOpen s := by
  unfold onSignal
  split
  · exact h
  · by_cases heq : ctx = s
    · subst heq
      unfold IsOpen handlers?
      rw [List.getElem?_set_self h.lt]
      rfl
    · unfold IsOpen handlers? at *
      rwa [List.getElem?_set_ne heq]

/-- A handle stays open unless it is closed. -/
theorem isOpen_after {call : Call} (h : p.IsOpen s) (hspare : call ≠ .close (some s)) :
    (p.after call).IsOpen s := by
  cases call with
  | openSchema success =>
    cases success with
    | true => exact isOpen_allocate h
    | false => exact isOpen_close (isOpen_allocate h) (Nat.ne_of_gt h.lt)
  | onSignal ctx sig cb served => exact isOpen_onSignal h
  | listenSignals ctx => cases ctx <;> exact h
  | listenSignal ctx sig => cases ctx <;> exact h
  | install sig => exact h
  | close s' =>
    cases s' with
    | none => exact h
    | some s' => exact isOpen_close h fun heq => hspare (by rw [heq])
  | signal sig => exact h

/-! ## The stored context -/

/-- A call stores a context only when it listens. -/
theorem signalCtx_after {call : Call} (h : (p.after call).signalCtx = some g) :
    p.signalCtx = some g ∨ call = .listenSignals (some g) ∨
      ∃ sig, call = .listenSignal (some g) sig := by
  cases call with
  | openSchema success => cases success <;> exact .inl h
  | onSignal ctx sig cb served =>
    refine .inl ?_
    change (p.onSignal ctx sig cb served).signalCtx = some g at h
    unfold onSignal at h
    split at h <;> exact h
  | listenSignals ctx =>
    cases ctx with
    | none => exact .inl h
    | some ctx =>
      cases h
      exact .inr (.inl rfl)
  | listenSignal ctx sig =>
    cases ctx with
    | none => exact .inl h
    | some ctx =>
      cases h
      exact .inr (.inr ⟨sig, rfl⟩)
  | install sig => exact .inl h
  | close s => cases s <;> exact .inl h
  | signal sig => exact .inl h

/-- One call keeps the stored context open, unless it closes it. -/
theorem CtxOpen.after {call : Call} (h : p.CtxOpen) (henabled : p.Enabled call)
    (hspare : p.Spares call) : (p.after call).CtxOpen := by
  intro g hg
  rcases signalCtx_after hg with hold | rfl | ⟨sig, rfl⟩
  · exact isOpen_after (h g hold) (hspare g hold)
  · exact isOpen_after (henabled g rfl) (by simp)
  · exact isOpen_after (henabled g rfl) (by simp)

theorem CtxOpen.listener (h : p.CtxOpen) (sig : Int32) (g : Nat) :
    p.signalListener sig ≠ .freed g := by
  intro hfreed
  unfold signalListener at hfreed
  cases hctx : p.signalCtx with
  | none =>
    rw [hctx] at hfreed
    cases hfreed
  | some ctx =>
    obtain ⟨t, ht⟩ := Option.isSome_iff_exists.mp (h ctx hctx)
    rw [hctx] at hfreed
    simp only [ht] at hfreed
    cases hfreed

/-- The call that closes the stored context leaves it behind. -/
theorem not_ctxOpen_close (hctx : p.signalCtx = some g) :
    ¬ (p.close (some g)).CtxOpen ∧ ∀ sig, (p.close (some g)).signalListener sig = .freed g := by
  have hstored : (p.close (some g)).signalCtx = some g := hctx
  have hclosed : ¬ (p.close (some g)).IsOpen g := not_isOpen_close
  refine ⟨fun h => hclosed (h g hstored), fun sig => ?_⟩
  unfold IsOpen at hclosed
  rw [Bool.not_eq_true, Option.isSome_eq_false_iff, Option.isNone_iff_eq_none] at hclosed
  unfold signalListener
  rw [hstored]
  simp only [hclosed]

end Process

/-- **The listener** never meets a closed handle in a run that never closes the stored context,
and a call that does close it leaves it stored. -/
theorem listener_open_iff (p : Process) :
    (process.Reached Process.Spares p →
      p.CtxOpen ∧ ∀ sig g, p.signalListener sig ≠ .freed g) ∧
    ∀ call p', process.Step p call p' → ¬ p.Spares call →
      ¬ p'.CtxOpen ∧ ∀ sig, ∃ g, p'.signalListener sig = .freed g := by
  refine ⟨fun h => ?_, fun call p' hstep hclose => ?_⟩
  · have hctx : p.CtxOpen := by
      refine h.invariant Process.CtxOpen ?_ ?_
      · rintro p rfl g hg
        cases hg
      · rintro p call p' hctx hspare ⟨henabled, rfl⟩
        exact hctx.after henabled hspare
    exact ⟨hctx, hctx.listener⟩
  · obtain ⟨-, rfl⟩ := hstep
    unfold Process.Spares at hclose
    push Not at hclose
    obtain ⟨g, hg, rfl⟩ := hclose
    obtain ⟨hnot, hfreed⟩ := Process.not_ctxOpen_close hg
    exact ⟨hnot, fun sig => ⟨g, hfreed sig⟩⟩

/-- One handle that listens, and a second one. -/
def listening : Process :=
  ((Process.initial.after (.openSchema true)).after (.listenSignal (some 0) 2)).after
    (.openSchema true)

theorem reached_listening : process.Reached Process.Spares listening := by
  have hstart : process.Reached Process.Spares .initial := .start rfl
  have hone := hstart.call (.openSchema true) (fun g hg => by cases hg) trivial
  have hlisten := hone.call (.listenSignal (some 0) 2) (fun g hg => by cases hg)
    fun s hs => by cases hs; rfl
  exact hlisten.call (.openSchema true) (fun g hg h => by cases h) trivial

theorem listener_open_iff_listening :
    (listening.CtxOpen ∧ ∀ sig g, listening.signalListener sig ≠ .freed g) ∧
      ¬ (listening.after (.close (some 0))).CtxOpen ∧
        ∀ sig, ∃ g, (listening.after (.close (some 0))).signalListener sig = .freed g := by
  refine ⟨(listener_open_iff listening).1 reached_listening,
    (listener_open_iff listening).2 (.close (some 0)) _ ⟨fun s hs => ?_, rfl⟩ fun h => ?_⟩
  · cases hs
    rfl
  · exact h 0 rfl rfl

/-- A signal wired to the listener arrives after its handle was closed. -/
theorem listener_meets_closed : ∃ p, process.Reachable p ∧ ¬ p.CtxOpen ∧
    ∃ sig ∈ p.wired, p.signalListener sig = .freed 0 := by
  have hopen : listening.Enabled (.close (some 0)) := by
    intro s hs
    cases hs
    rfl
  obtain ⟨hnot, hfreed⟩ := Process.not_ctxOpen_close (p := listening) (g := 0) rfl
  exact ⟨listening.close (some 0), reached_listening.reachable.call _ trivial hopen, hnot, 2,
    List.mem_cons_self, hfreed 2⟩

end Ipa
