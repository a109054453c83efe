import Ipa.Hnsw.Atomic
import Ipa.Lib.Locked

/-!
# An index that threads share

Every call of the index takes its lock: shared to search and to count, exclusive to reserve, to add
and to build. The body of a call may be split into accesses in any way that, with nothing in
between, does what the call does. Whatever overlaps, an index that threads share goes through what
calls made one after the other lead through, and each call answers as it does there.
-/

namespace Ipa.Hnsw

open Run Locked

/-- The calls that take the lock. -/
inductive Call
  | change (op : Op)
  | search (query : List Binary32) (limit : Nat) (threshold : Binary64)
  | count

inductive Answer
  | status (status : Option Status)
  | found (results : Except Status (List Result))
  | count (count : Nat)

/-- A call, and the outcomes of its allocations. -/
structure Asked where
  call : Call
  env : Env

/-- `kc_hnsw_rlock` or `kc_hnsw_wlock`? -/
def Call.shares : Call → Bool
  | .change _ => false
  | .search .. | .count => true

/-- What is returned before the lock is taken. -/
def Call.rejects : Call → Option Answer
  | .change (.add id _) => if id.bytes.isEmpty then some (.status (some .einval)) else none
  | _ => none

/-- What is returned when the lock cannot be taken. -/
def Call.refused : Call → Answer
  | .change _ => .status (some .einval)
  | .search .. => .found (.error .einval)
  | .count => .count 0

section Calls

variable [Arith] (host : Host)

/-- The call, between taking the lock and giving it back. -/
def perform : Call → Cmd World Status Answer
  | .change op => do
    let r ← liveIn host op
    pure (.status (statusIn r))
  | .search query limit threshold => do
    let r ← Cmd.attempt (searchIn query limit threshold)
    pure (.found r)
  | .count => do
    let w ← Cmd.get
    pure (.count w.hnsw.count)

/-- The call on the index of a life. -/
def answerOn (index : Index) : Call → Run Status Answer
  | .change op => do
    let r ← call host index op
    pure (.status r.1)
  | .search query limit threshold => do
    let r ← catching (search index query limit threshold)
    pure (.found r)
  | .count => pure (.count index.count)

/-- The call leaves the items their places. -/
def SparesAsked (w : World) (asked : Asked) : Prop :=
  ∀ op, asked.call = .change op → SparesIn host w op

/-- The object of the calls, with bodies split in any way. -/
structure Splits (o : Object Asked World Answer) : Prop where
  shares : ∀ asked, o.shares asked = asked.call.shares
  rejects : ∀ asked, o.rejects asked = asked.call.rejects
  refused : ∀ asked, o.refused asked = asked.call.refused
  runs : ∀ asked w r w' e', (perform host asked.call).exec w asked.env = (.ok r, w', e') →
    (o.body asked).run w = (r, w')

/-- The worlds that `kc_hnsw_open` returns. -/
def Opened (dimension : Nat) (metric : Metric) (w : World) : Prop :=
  ∃ env seed e e', (openIn dimension metric env seed).exec e = (.ok w, e')

variable {host} {dimension : Nat} {metric : Metric} {w w' : World} {index : Index}

theorem searchIn_exec (hw : Holds w index) (query : List Binary32) (limit : Nat)
    (threshold : Binary64) (e : Env) : (searchIn query limit threshold).exec w e =
      (((search index query limit threshold).exec e).1, w,
        ((search index query limit threshold).exec e).2) := by
  unfold searchIn load
  simp only [Cmd.exec_bind, Cmd.exec_get, hw.read]
  rfl

/-- A call on memory answers as it does on the index that the memory holds. -/
theorem answerOn_of_perform (hw : Holds w index) {c : Call} {r : Answer} {e e' : Env}
    (h : (perform host c).exec w e = (.ok r, w', e')) :
    (answerOn host index c).exec e = (.ok r, e') := by
  cases c with
  | count =>
    cases h
    change (Except.ok (Answer.count index.count), e) = _
    rw [← hw.count]
  | search query limit threshold =>
    unfold perform at h
    unfold answerOn
    rw [Cmd.exec_bind, Cmd.exec_attempt, searchIn_exec hw] at h
    rw [exec_bind, exec_catching]
    rcases hrun : (search index query limit threshold).exec e with ⟨(f | err) | results, e₁⟩ <;>
      rw [hrun] at h
    · cases h
    · cases h
      rfl
    · cases h
      rfl
  | change op =>
    unfold perform at h
    unfold answerOn
    have hcall := @liveIn_simulates _ host _ _ hw op w e rfl
    rw [Cmd.exec_bind] at h
    rw [exec_bind]
    rcases hrun : (call host index op).exec e with ⟨(f | err) | s, e₁⟩ <;> rw [hrun] at hcall
    · obtain ⟨w₁, hfault⟩ := hcall
      rw [hfault] at h
      cases h
    · obtain ⟨w₁, -, hfalse⟩ := hcall
      exact hfalse.elim
    · obtain ⟨r', w₁, hlive, hstatus, -⟩ := hcall
      rw [hlive] at h
      cases h
      rw [hstatus]
      rfl

/-- A call that leaves the items their places stays in its memory. -/
theorem perform_returns (h : (lifeIn host dimension metric).Reached (SparesIn host) w)
    {asked : Asked} (hspares : SparesAsked host w asked) :
    ∃ r w' e', (perform host asked.call).exec w asked.env = (.ok r, w', e') := by
  obtain ⟨s, hs, hw⟩ := lifeIn_refines h
  rcases hcall : asked.call with op | ⟨query, limit, threshold⟩ | _
  · obtain ⟨s', e', hlive⟩ := hs.intact.returns ((hspares op hcall).spares hw) asked.env
    have hsim := @liveIn_simulates _ host _ _ hw op w asked.env rfl
    unfold liveOn at hlive
    rw [exec_bind] at hlive
    rcases hexec : (call host s.index op).exec asked.env with ⟨stop | ⟨status, hnsw⟩, e₁⟩ <;>
      rw [hexec] at hlive hsim
    · cases hlive
    · obtain ⟨r, w', hrun, -⟩ := hsim
      refine ⟨.status (statusIn r), w', e₁, ?_⟩
      unfold perform
      rw [Cmd.exec_bind, hrun]
      rfl
  · unfold perform
    rw [Cmd.exec_bind, Cmd.exec_attempt, searchIn_exec hw]
    have hbounds := search_in_bounds hs.kept query limit threshold asked.env
    rcases hexec : (search s.index query limit threshold).exec asked.env with
      ⟨(f | err) | results, e₁⟩ <;> rw [hexec] at hbounds
    · exact absurd rfl (hbounds f)
    · exact ⟨_, _, _, rfl⟩
    · exact ⟨_, _, _, rfl⟩
  · exact ⟨_, _, _, rfl⟩

variable (host) in
/-- A call that shares the lock writes nothing. -/
theorem perform_shares {c : Call} (hc : c.shares = true) (w : World) (e : Env) :
    ((perform host c).exec w e).2.1 = w := by
  cases c with
  | change op => cases hc
  | count => rfl
  | search query limit threshold =>
    have hsame : ((searchIn query limit threshold).exec w e).2.1 = w := by
      unfold searchIn load need
      simp only [Cmd.exec_bind, Cmd.exec_get]
      cases w.memory.readIndex w.hnsw <;> rfl
    unfold perform
    rw [Cmd.exec_bind, Cmd.exec_attempt]
    rcases hexec : (searchIn query limit threshold).exec w e with ⟨(f | err) | results, w₁, e₁⟩ <;>
      rw [hexec] at hsame <;> exact hsame

/-- A call is one step of a life in memory, or leaves the memory alone. -/
theorem reached_of_perform (h : (lifeIn host dimension metric).Reached (SparesIn host) w)
    {asked : Asked} (hspares : SparesAsked host w asked) {r : Answer} {e' : Env}
    (hrun : (perform host asked.call).exec w asked.env = (.ok r, w', e')) :
    (lifeIn host dimension metric).Reached (SparesIn host) w' := by
  cases hc : asked.call.shares with
  | true =>
    have hsame := perform_shares host hc w asked.env
    rw [hrun] at hsame
    obtain rfl : w' = w := hsame
    exact h
  | false =>
    rcases hcall : asked.call with op | ⟨query, limit, threshold⟩ | _ <;> rw [hcall] at hc hrun
    · unfold perform at hrun
      rw [Cmd.exec_bind] at hrun
      rcases hexec : (liveIn host op).exec w asked.env with ⟨stop | r', w₁, e₁⟩ <;>
        rw [hexec] at hrun
      · cases hrun
      · cases hrun
        exact .step h (hspares op hcall) ⟨asked.env, r', e', hexec⟩
    · cases hc
    · cases hc

variable (host) in
/-- The object of calls that make one access. -/
def undivided : Object Asked World Answer where
  shares asked := asked.call.shares
  rejects asked := asked.call.rejects
  refused asked := asked.call.refused
  body asked := .whole fun w => match (perform host asked.call).exec w asked.env with
    | (.ok r, w', _) => (r, w')
    | (.error _, w', _) => (asked.call.refused, w')
  reads asked h := by
    refine Body.reads_whole fun w => ?_
    have hsame := perform_shares host h w asked.env
    rcases hexec : (perform host asked.call).exec w asked.env with ⟨stop | r, w₁, e₁⟩ <;>
      rw [hexec] at hsame <;> exact hsame

theorem undivided_splits : Splits host (undivided host) where
  shares _ := rfl
  rejects _ := rfl
  refused _ := rfl
  runs asked w r w' e' h := by
    change (match (perform host asked.call).exec w asked.env with
      | (.ok r, w', _) => (r, w')
      | (.error _, w', _) => (asked.call.refused, w')) = _
    rw [h]

end Calls

section Shared

variable [Arith] {Thread : Type} [DecidableEq Thread] {host : Host} {dimension : Nat}
  {metric : Metric} {o : Object Asked World Answer}

/-- **Calls that overlap** are calls one after the other. In every state that threads reach by
calls that leave the items their places: the index, as a writer inside leaves it, is that of a life
of such calls, and such a call stays in its memory; a call that has returned was refused or answers
as on the index of some such life; from there on every run is a run of whole calls with the same
calls and returns; and where a call has not returned, some call goes on. -/
theorem calls_linearize (ho : Splits host o) {s : State Thread Asked World Answer}
    (h : (locked o (Opened dimension metric)).Reached
      (fun s a => ∀ t asked, a = .lock t asked → SparesAsked host s.shared asked) s) :
    (∃ l, Sparing host dimension metric l ∧ Holds s.left l.index) ∧
    (∀ asked, SparesAsked host s.left asked →
      ∃ r w' e', (perform host asked.call).exec s.left asked.env = (.ok r, w', e')) ∧
    (∀ t asked r, s.stand t = .returning asked r →
      asked.call.rejects = some r ∨ r = asked.call.refused ∨
        ∃ l e', Sparing host dimension metric l ∧
          (answerOn host l.index asked.call).exec asked.env = (.ok r, e')) ∧
    (∀ as s', Machine.Path (m := locked o (Opened dimension metric)) s as s' →
      Machine.Path (m := whole o (Opened dimension metric)) s.whole (as.filterMap Act.seen)
        s'.whole) ∧
    ((∃ t, s.stand t ≠ .outside) → ∃ a s', Step o s a s' ∧ a.Advances) := by
  have hreached := reached_answers (I := (lifeIn host dimension metric).Reached (SparesIn host))
    (fun w hw => .start hw) (fun w asked hw (hspares : SparesAsked host w asked) => ?_) h
  · obtain ⟨hinv, hleft, hanswers⟩ := hreached
    refine ⟨lifeIn_refines hleft, fun asked hspares => perform_returns hleft hspares,
      fun t asked r ht => ?_, fun as s' hpath => (path_whole hpath hinv).1,
      fun ⟨t, ht⟩ => hinv.progress ht⟩
    rcases hanswers t asked r ht with hreject | hrefuse | ⟨w, hw, hspares, rfl⟩
    · exact .inl (ho.rejects asked ▸ hreject)
    · exact .inr (.inl (hrefuse.trans (ho.refused asked)))
    · obtain ⟨r, w', e', hrun⟩ := perform_returns hw hspares
      obtain ⟨l, hl, hholds⟩ := lifeIn_refines hw
      refine .inr (.inr ⟨l, e', hl, ?_⟩)
      rw [ho.runs asked w r w' e' hrun]
      exact answerOn_of_perform hholds hrun
  · obtain ⟨r, w', e', hrun⟩ := perform_returns hw hspares
    rw [ho.runs asked w r w' e' hrun]
    exact reached_of_perform hw hspares hrun

end Shared

/-- The addition of one vector. -/
def oneAdded : Asked := ⟨.change (.add (CStr.ofString "a") [⟨0x3F800000⟩]), ⟨[], []⟩⟩

/-- The first of two threads adds a vector, and is still inside. -/
theorem calls_linearize_add : ∃ s : State Bool Asked World Answer, s.writer = some true ∧
    (∃ rest, s.stand true = .inside oneAdded rest) ∧ s.left.hnsw.count = 1 ∧
    ∃ l, @Sparing ieee ⟨.w64, .little⟩ 1 .cosine l ∧ Holds s.left l.index := by
  have heval : (let r := (@perform ieee ⟨.w64, .little⟩ oneAdded.call).exec openedIn oneAdded.env
      r.1.isOk && r.2.1.hnsw.count == 1) = true := by decide +kernel
  rcases hrun : (@perform ieee ⟨.w64, .little⟩ oneAdded.call).exec openedIn oneAdded.env
    with ⟨stop | r, w, e'⟩ <;> rw [hrun] at heval
  · cases heval
  simp only [Bool.and_eq_true, beq_iff_eq] at heval
  let o := @undivided ieee ⟨.w64, .little⟩
  let fine : State Bool Asked World Answer → Act Bool Asked Answer → Prop := fun s a =>
    ∀ t asked, a = .lock t asked → SparesAsked ⟨.w64, .little⟩ s.shared asked
  let called : State Bool Asked World Answer := (State.quiet openedIn).goto true (.called oneAdded)
  let inside : State Bool Asked World Answer :=
    { called.goto true (.inside oneAdded (o.body oneAdded)) with writer := some true }
  have hcalled : (locked o (Opened 1 .cosine)).Reached fine called :=
    .step (.start ⟨openedIn, openedIn_start, rfl⟩) (fun t asked h => by cases h)
      (.call rfl)
  have hinside : (locked o (Opened 1 .cosine)).Reached fine inside := by
    refine .step hcalled (a := .lock true oneAdded) (fun t asked h => ?_)
      (.exclude (State.goto_self ..) rfl rfl rfl rfl)
    cases h
    rintro op hop
    cases hop
    exact sparesIn_of_sparingIn (by decide +kernel)
  have hstand : inside.stand true = .inside oneAdded (o.body oneAdded) :=
    called.goto_self true _
  have hleft : inside.left = w := by
    rw [left_of_some rfl hstand]
    exact congrArg Prod.snd (@Splits.runs ieee _ o (@undivided_splits ieee _) _ _ _ _ _ hrun)
  obtain ⟨hlife, -⟩ := @calls_linearize ieee Bool _ ⟨.w64, .little⟩ 1 .cosine o
    (@undivided_splits ieee _) inside hinside
  exact ⟨inside, rfl, ⟨_, hstand⟩, by rw [hleft]; exact heval.2, hlife⟩

end Ipa.Hnsw
