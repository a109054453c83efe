import Ipa.Hnsw.Wiring
import Ipa.Hnsw.Search
import Ipa.Hnsw.Add
import Ipa.Lib.Machine
import Ipa.Lib.Ieee

/-!
# An index over its life

The calls that change an index, with what each of them leaves also when it fails: a reservation
that is refused leaves the index alone, an addition may have grown the array before a copy could
not be allocated, a build works on copies until it commits. The machine of these calls carries
one bit more than the index: was an item added since the last build?
-/

namespace Ipa.Hnsw

open Run

/-- The calls. -/
inductive Op
  | reserve (capacity : Nat)
  | add (id : CStr) (values : List Binary32)
  | build

section Calls

variable [Arith] (host : Host)

/-- The index a part of a call leaves: its result, or `old` with the error. -/
def settle (x : Run Status Index) (old : Index) : Run Status (Option Status × Index) := do
  match ← catching x with
  | .ok hnsw => pure (none, hnsw)
  | .error status => pure (some status, old)

/-- What a call returns, `none` for success, and what it leaves. -/
def call (hnsw : Index) : Op → Run Status (Option Status × Index)
  | .reserve capacity => settle (reserve host hnsw capacity) hnsw
  | .add id values =>
    if id.bytes.isEmpty then pure (some .einval, hnsw)
    else do
      match ← settle (growFor host hnsw) hnsw with
      | (some status, hnsw) => pure (some status, hnsw)
      | (none, hnsw) => settle (appendItem host hnsw id values) hnsw
  | .build => settle (build hnsw) hnsw

/-- An index and whether an item was added since the last build. -/
structure Life where
  index : Index
  stale : Bool

/-- Was an item added since the last build, after a call? -/
def staleAfter (stale : Bool) : Op → Option Status → Bool
  | .add .., none => true
  | .build, none => false
  | _, _ => stale

/-- One call in the life of an index. -/
def liveOn (s : Life) (op : Op) : Run Status Life := do
  let (status, index) ← call host s.index op
  pure ⟨index, staleAfter s.stale op status⟩

/-- `open` on some seed, then calls, under any pattern of allocation failures. A call that faults is
no step; where the calls leave the items their places none does (`Intact.returns`). -/
def life (dimension : Nat) (metric : Metric) : Machine Life Op where
  Start s := s.stale = false ∧ ∃ env seed e e',
    (hnswOpen dimension metric env seed).exec e = (.ok s.index, e')
  Step s op s' := ∃ e e', (liveOn host s op).exec e = (.ok s', e')

/-- A life played through with calls that are allowed, for evaluation. -/
def liveThrough (dimension : Nat) (metric : Metric) (seed : UInt64) (ok : Life → Op → Bool)
    (ops : List Op) : Run Status Life := do
  let index ← hnswOpen dimension metric none seed
  ops.foldlM (fun s op => if ok s op then liveOn host s op else fault .index) ⟨index, false⟩

variable {host} in
theorem foldlM_reached {dimension : Nat} {metric : Metric} {ok : Life → Op → Bool} :
    ∀ {ops : List Op} {s s' : Life} {e e' : Env},
      (life host dimension metric).Reached (fun s op => ok s op = true) s →
        (ops.foldlM (fun s op => if ok s op then liveOn host s op else fault .index) s).exec e =
          (.ok s', e') → (life host dimension metric).Reached (fun s op => ok s op = true) s'
  | [], _, _, _, _, hs, h => by
    cases h
    exact hs
  | op :: ops, s, s', e, e', hs, h => by
    rw [List.foldlM_cons, exec_bind] at h
    by_cases hok : ok s op = true
    · rw [if_pos hok] at h
      rcases hone : (liveOn host s op).exec e with ⟨stop | s₁, e₁⟩ <;> rw [hone] at h
      · cases h
      · exact foldlM_reached (.step hs hok ⟨e, e₁, hone⟩) h
    · rw [if_neg hok] at h
      cases h

variable {host} in
theorem liveThrough_reached {dimension : Nat} {metric : Metric} {seed : UInt64}
    {ok : Life → Op → Bool} {ops : List Op} {s : Life} {e e' : Env}
    (h : (liveThrough host dimension metric seed ok ops).exec e = (.ok s, e')) :
    (life host dimension metric).Reached (fun s op => ok s op = true) s := by
  unfold liveThrough at h
  rw [exec_bind] at h
  rcases hopen : (hnswOpen dimension metric none seed).exec e with ⟨stop | index, e₁⟩
  · rw [hopen] at h
    cases h
  · rw [hopen] at h
    exact foldlM_reached (.start ⟨rfl, none, seed, e, e₁, hopen⟩) h

/-- All calls are allowed. -/
def anyCall : Life → Op → Bool := fun _ _ => true

end Calls

/-! ## What each call leaves -/

/-- The array has room for the items counted. -/
structure Intact (hnsw : Index) : Prop where
  whole : hnsw.lost = 0
  room : hnsw.count ≤ hnsw.slots

/-- Is there a place for one more item, once a full array has grown? -/
def HasPlace (host : Host) (hnsw : Index) : Prop :=
  if hnsw.count = hnsw.capacity ∧ hnsw.capacity < nextCapacity host hnsw.capacity then
    hnsw.count < slotsFor host (nextCapacity host hnsw.capacity) ∧
      SomeBytes host hnsw (nextCapacity host hnsw.capacity)
  else hnsw.count < hnsw.slots

/-- The calls that leave the items their places: a reservation moves them to a block that holds
them, and an addition finds a place behind them. -/
def Spares (host : Host) (hnsw : Index) : Op → Prop
  | .reserve capacity => capacity ≤ hnsw.capacity ∨
    hnsw.count ≤ slotsFor host capacity ∧ SomeBytes host hnsw capacity
  | .add id _ => id.bytes = [] ∨ hnsw.dimension * 4 < host.sizeMod ∧ HasPlace host hnsw
  | .build => True

instance (host : Host) (hnsw : Index) (capacity : Nat) : Decidable (SomeBytes host hnsw capacity) :=
  inferInstanceAs (Decidable (_ → _))

instance (host : Host) (hnsw : Index) : Decidable (HasPlace host hnsw) :=
  if hfull : hnsw.count = hnsw.capacity ∧ hnsw.capacity < nextCapacity host hnsw.capacity then
    decidable_of_iff _ (iff_of_eq (if_pos hfull)).symm
  else decidable_of_iff _ (iff_of_eq (if_neg hfull)).symm

instance (host : Host) (hnsw : Index) (op : Op) : Decidable (Spares host hnsw op) :=
  match op with
  | .reserve _ => inferInstanceAs (Decidable (_ ∨ _))
  | .add _ _ => inferInstanceAs (Decidable (_ ∨ _))
  | .build => .isTrue trivial

/-- What a call returns and leaves. -/
inductive Left [Arith] (host : Host) (hnsw : Index) : Op → Option Status → Index → Prop
  | refused (op : Op) (status : Status) : Left host hnsw op (some status) hnsw
  | reserved {capacity : Nat} {hnsw' : Index} (h : Resized host capacity hnsw hnsw') :
    Left host hnsw (.reserve capacity) none hnsw'
  | widened (id : CStr) (values : List Binary32) (status : Status) {hnsw' : Index}
    (hid : id.bytes ≠ []) (h : Widened host hnsw hnsw') :
    Left host hnsw (.add id values) (some status) hnsw'
  | added (id : CStr) (values : List Binary32) {hnsw' : Index} (hid : id.bytes ≠ [])
    (h : Widened host hnsw hnsw') (room : hnsw'.count < hnsw'.slots) :
    Left host hnsw (.add id values) none
      { hnsw'.push (freshItem id values) with entryPointSet := false, maxLevel := -1 }
  | empty (h : hnsw.count = 0) : Left host hnsw .build none hnsw
  | built {hnsw' : Index} (h : hnsw.count ≠ 0) (assembled : Assembled hnsw hnsw') :
    Left host hnsw .build none hnsw'

section Specs

variable {host : Host} {hnsw : Index} {I : Env → Prop} {X Y : Stop Status → Prop}

theorem settle_keeps {x : Run Status Index} {Q : Index → Prop} {old : Index}
    (hx : Keeps I Y x Q) (hfault : ∀ f, Y (.fault f) → X (.fault f)) :
    Keeps I X (settle x old) fun r =>
      (r.1 = none ∧ Q r.2) ∨ ∃ status, r = (some status, old) := by
  unfold settle
  refine Keeps.bind (hx.catching hfault) fun r hr => ?_
  cases r with
  | ok hnsw => exact Keeps.pure (.inl ⟨rfl, hr.1 hnsw rfl⟩)
  | error status => exact Keeps.pure (.inr ⟨status, rfl⟩)

/-- The items that a widened array holds, where there is a place for one more. -/
theorem Widened.slots {hnsw' : Index} (h : Widened host hnsw hnsw') (hplace : HasPlace host hnsw) :
    hnsw'.count < hnsw'.slots := by
  unfold Widened at h
  unfold HasPlace at hplace
  split at h
  · rename_i hfull
    have hcount := h.count
    cases h with
    | enough hle =>
      rwa [if_neg (by omega)] at hplace
    | moved hlt =>
      rw [if_pos ⟨hfull, hlt⟩] at hplace
      rw [hcount]
      exact hplace.1
  · rename_i hroom
    rw [h]
    rwa [if_neg fun hfull => hroom hfull.1] at hplace

theorem HasPlace.someBytes (h : HasPlace host hnsw) (hfull : hnsw.count = hnsw.capacity)
    (hlt : hnsw.capacity < nextCapacity host hnsw.capacity) : SomeBytes host hnsw (nextCapacity host hnsw.capacity) := by
  unfold HasPlace at h
  rw [if_pos ⟨hfull, hlt⟩] at h
  exact h.2

variable [Arith]

/-- **A call**, under any pattern of allocation failures: where it leaves the items their places
it has no fault. -/
theorem call_left (op : Op) (hsafe : hnsw.lost = 0 ∧ Spares host hnsw op ∨ X (.fault .index)) :
    Keeps (fun _ => True) X (call host hnsw op) fun r => Left host hnsw op r.1 r.2 := by
  -- the parts of a call may also fail
  obtain ⟨Y, hY⟩ : ∃ Y : Stop Status → Prop, Y = fun stop => ∀ f, stop = .fault f → X (.fault f) :=
    ⟨_, rfl⟩
  have hserves : Serves (fun _ => True) Y Status.enomem :=
    serves_of_fail (fun _ _ h => h) (by rw [hY]; simp)
  have hsettled : ∀ f, Y (.fault f) → X (.fault f) := fun f h => by
    rw [hY] at h
    exact h f rfl
  have hfault : X (.fault .index) → Y (.fault .index) := fun h => by
    rw [hY]
    rintro f hf
    cases hf
    exact h
  cases op with
  | reserve capacity =>
    have hrun : Keeps (fun _ => True) Y (reserve host hnsw capacity) (Resized host capacity hnsw) := by
      by_cases hle : capacity ≤ hnsw.capacity
      · unfold reserve reserveLocked
        rw [if_pos hle]
        exact Keeps.pure (.enough hle)
      · exact reserveLocked_keeps _ (hsafe.imp (fun h => (h.2.resolve_left hle).2) hfault)
    refine (settle_keeps hrun hsettled).mono ?_
    rintro ⟨status, hnsw'⟩ (⟨rfl, h⟩ | ⟨status, h⟩)
    · exact .reserved h
    · cases h
      exact .refused _ _
  | add id values =>
    simp only [call]
    split
    · exact Keeps.pure (.refused _ _)
    rename_i hid
    have hne : id.bytes ≠ [] := fun h => hid (List.isEmpty_iff.mpr h)
    have hgrow : Keeps (fun _ => True) Y (growFor host hnsw) (Widened host hnsw) := by
      by_cases hle : nextCapacity host hnsw.capacity ≤ hnsw.capacity
      · unfold growFor Widened
        split
        · unfold reserveLocked
          rw [if_pos hle]
          exact Keeps.pure (.enough hle)
        · exact Keeps.pure rfl
      · exact growFor_keeps (hsafe.imp
          (fun h hfull => (h.2.resolve_left hne).2.someBytes hfull (by omega)) hfault)
    refine Keeps.bind (settle_keeps hgrow hsettled) ?_
    rintro ⟨status, grown⟩ (⟨rfl, hgrown⟩ | ⟨status, h⟩)
    · have happend : Keeps (fun _ => True) Y (appendItem host grown id values) _ :=
        appendItem_keeps id values (hsafe.imp (fun h => by
          obtain ⟨hbytes, hplace⟩ := h.2.resolve_left hne
          obtain ⟨capacity, hsize⟩ := hgrown.resized
          rw [hsize.shape.dimension]
          exact ⟨hbytes, hgrown.slots hplace⟩) hfault)
      refine (settle_keeps happend hsettled).mono ?_
      rintro ⟨status, hnsw'⟩ (⟨rfl, hroom, rfl⟩ | ⟨status, h⟩)
      · exact .added id values hne hgrown hroom.2
      · cases h
        exact .widened id values status hne hgrown
    · cases h
      exact Keeps.pure (.refused _ _)
  | build =>
    have hrun : Keeps (fun _ => True) Y (build hnsw) _ :=
      build_spec hnsw (hsafe.imp And.left hfault)
    refine (settle_keeps hrun hsettled).mono ?_
    rintro ⟨status, hnsw'⟩ (⟨rfl, -, h⟩ | ⟨status, h⟩)
    · simp only at h
      split at h
      · rename_i hzero
        rw [h]
        exact .empty hzero
      · rename_i hpos
        exact .built hpos h
    · cases h
      exact .refused _ _

theorem liveOn_left (s : Life) (op : Op) :
    Keeps (fun _ => True) (fun _ => True) (liveOn host s op) fun s' =>
      ∃ status, Left host s.index op status s'.index ∧ s'.stale = staleAfter s.stale op status :=
  Keeps.bind (call_left op (.inr trivial)) fun ⟨status, _⟩ h => Keeps.pure ⟨status, h, rfl⟩

end Specs

/-! ## The items over the life of an index -/

section Items

variable {host : Host} {hnsw hnsw' : Index}

theorem Resized.intact {capacity : Nat} (h : Resized host capacity hnsw hnsw')
    (hspares : capacity ≤ hnsw.capacity ∨ hnsw.count ≤ slotsFor host capacity)
    (hi : Intact hnsw) : Intact hnsw' := by
  cases h with
  | enough _ => exact hi
  | moved hlt =>
    have hroom := hspares.resolve_left (by omega)
    rw [Index.cut_of_le (hnsw.length_le_count.trans hroom)]
    exact ⟨hi.whole, hroom⟩

theorem Widened.intact (h : Widened host hnsw hnsw') (hplace : HasPlace host hnsw)
    (hi : Intact hnsw) : Intact hnsw' := by
  unfold Widened at h
  split at h
  · refine h.intact ?_ hi
    by_cases hle : nextCapacity host hnsw.capacity ≤ hnsw.capacity
    · exact .inl hle
    · rw [HasPlace, if_pos ⟨‹_›, by omega⟩] at hplace
      exact .inr (Nat.le_of_lt hplace.1)
  · rw [h]
    exact hi

/-- An array that lost nothing has the items that it had. -/
theorem Resized.of_whole {capacity : Nat} (h : Resized host capacity hnsw hnsw')
    (hlost : hnsw'.lost = 0) :
    hnsw.lost = 0 ∧ ∃ slots capacity, hnsw' = { hnsw with slots, capacity } := by
  cases h with
  | enough _ => exact ⟨hlost, _, _, rfl⟩
  | moved hlt =>
    change hnsw.lost + (hnsw.items.length - slotsFor host capacity) = 0 at hlost
    rw [Index.cut_of_le (by omega)]
    exact ⟨by omega, _, _, rfl⟩

variable [Arith]

/-- **One call** that leaves the items their places. -/
theorem Left.intact {op : Op} {status : Option Status} (h : Left host hnsw op status hnsw')
    (hspares : Spares host hnsw op) (hi : Intact hnsw) : Intact hnsw' := by
  cases h with
  | refused op status => exact hi
  | reserved hsize => exact hsize.intact (hspares.imp_right And.left) hi
  | widened id values status hid hsize => exact hsize.intact (hspares.resolve_left hid).2 hi
  | @added id values hnsw' hid hsize room =>
    have hi' := hsize.intact (hspares.resolve_left hid).2 hi
    rw [Index.push_of_whole hi'.whole]
    refine ⟨hi'.whole, ?_⟩
    change (hnsw'.items ++ [_]).length + hnsw'.lost ≤ hnsw'.slots
    rw [Index.count] at room
    rw [List.length_append, List.length_singleton]
    omega
  | empty hzero => exact hi
  | built hcount assembled =>
    have hsame := assembled.count
    obtain ⟨start, tmp, hunwired, hgrown, rfl⟩ := assembled
    exact ⟨hunwired.whole.2, Nat.le_of_eq hsame⟩

end Items

/-! ## The graph over the life of an index -/

section Graph

variable [Arith]

/-- While its entry point is set, nothing was added since the last build and the graph is sound. -/
def GraphKept (s : Life) : Prop :=
  s.index.entryPointSet = true → s.stale = false ∧ GraphSound s.index

omit [Arith] in
/-- Nothing of the graph lies in the array's bookkeeping. -/
theorem GraphKept.resize {hnsw : Index} {stale : Bool} (h : GraphKept ⟨hnsw, stale⟩)
    (slots capacity : Nat) : GraphKept ⟨{ hnsw with slots, capacity }, stale⟩ := by
  intro hset
  obtain ⟨hstale, hlists, hentry, htop, hedges, hnodup, hdegree⟩ := h hset
  exact ⟨hstale, hlists, hentry, htop, hedges, hnodup, hdegree⟩

/-- **One call** that loses no item keeps the graph, whatever it returns. -/
theorem Left.kept {host : Host} {hnsw hnsw' : Index} {op : Op} {status : Option Status}
    {stale : Bool} (h : Left host hnsw op status hnsw') (hlost : hnsw'.lost = 0)
    (hkept : hnsw.lost = 0 → GraphKept ⟨hnsw, stale⟩) :
    GraphKept ⟨hnsw', staleAfter stale op status⟩ := by
  cases h with
  | refused op status => cases op <;> exact hkept hlost
  | reserved hsize =>
    obtain ⟨hold, slots, capacity, rfl⟩ := hsize.of_whole hlost
    exact (hkept hold).resize slots capacity
  | widened id values status hid hsize =>
    obtain ⟨_, hsize⟩ := hsize.resized
    obtain ⟨hold, slots, capacity, rfl⟩ := hsize.of_whole hlost
    exact (hkept hold).resize slots capacity
  | added id values hid hsize room =>
    intro hset
    cases hset
  | empty hzero => exact fun hset => ⟨rfl, (hkept hlost hset).2⟩
  | built hcount assembled => exact fun _ => ⟨rfl, (assembled.sound hcount).2⟩

omit [Arith] in
/-- Every item counted has its lists. -/
theorem GraphSound.whole {hnsw : Index} (h : GraphSound hnsw) : hnsw.lost = 0 := by
  by_contra hlost
  obtain ⟨top, hlevel, -⟩ := h.lists hnsw.items.length (by unfold Index.count; omega)
  exact absurd (levelAt_lt hlevel) (Nat.lt_irrefl _)

omit [Arith] in
theorem GraphSound.ready {hnsw : Index} (h : GraphSound hnsw) (hset : hnsw.entryPointSet = true) :
    Ready hnsw := by
  refine ⟨h.whole, fun i l list hlist e he => ?_, fun _ => ⟨hset, ?_⟩⟩
  · obtain ⟨hlt, -, level, hlevel, hle⟩ := h.edges i l list hlist e he
    obtain ⟨top, htop, hiff⟩ := h.lists e hlt
    rw [hlevel] at htop
    cases htop
    exact (hiff l).mpr (by omega)
  · obtain ⟨hlt, hentry⟩ := h.entry
    obtain ⟨top, htop, hiff⟩ := h.lists _ hlt
    rw [hentry] at htop
    exact ⟨top, Option.some.inj htop, (hiff top).mpr (Nat.le_refl top)⟩

/-- A search of a sound index, or of one whose entry point is not set, stays in bounds. -/
theorem search_in_bounds {s : Life} (h : GraphKept s) (query : List Binary32) (limit : Nat)
    (threshold : Binary64) (e : Env) (f : Fault) :
    ((search s.index query limit threshold).exec e).1 ≠ .error (.fault f) := by
  have hserves : Serves (fun _ => True) (fun stop => ∀ f, stop ≠ .fault f) Status.enomem :=
    serves_of_fail (fun _ _ h => h) (by simp)
  have hrun : Keeps (fun _ => True) (fun stop => ∀ f, stop ≠ .fault f)
      (search s.index query limit threshold) fun _ => True := by
    cases hset : s.index.entryPointSet with
    | true => exact (search_mem_keeps ((h hset).2.ready hset) limit threshold).mono fun _ _ => trivial
    | false =>
      unfold search
      split
      · exact Keeps.pure trivial
      · rw [hset]
        exact Keeps.fail (by simp)
  intro hfault
  have hstop := (hrun e trivial).2
  rw [hfault] at hstop
  exact hstop f rfl

theorem life_start {host : Host} {dimension : Nat} {metric : Metric} {s : Life}
    (h : (life host dimension metric).Start s) : s.stale = false ∧ s.index.items = [] ∧
      s.index.lost = 0 ∧ s.index.capacity = 0 ∧ s.index.entryPointSet = false ∧
        s.index.m = 16 ∧ s.index.efConstruction = 64 := by
  obtain ⟨hstale, env, seed, e, e', hopen⟩ := h
  have hrun : Keeps (fun _ => True) (fun _ => True) (hnswOpen dimension metric env seed)
      fun hnsw => hnsw.items = [] ∧ hnsw.lost = 0 ∧ hnsw.capacity = 0 ∧
        hnsw.entryPointSet = false ∧ hnsw.m = 16 ∧ hnsw.efConstruction = 64 := by
    unfold hnswOpen
    split
    · exact Keeps.fail trivial
    · exact Keeps.bind Keeps.allocOr fun _ _ => Keeps.pure ⟨rfl, rfl, rfl, rfl, rfl, rfl⟩
  exact ⟨hstale, (hrun.value trivial hopen).1⟩

/-- **The graph** over every life of an index, while no item is lost. -/
theorem reachable_graphKept {host : Host} {dimension : Nat} {metric : Metric} {s : Life}
    (h : (life host dimension metric).Reachable s) : s.index.lost = 0 → GraphKept s := by
  refine h.invariant (fun s => s.index.lost = 0 → GraphKept s) (fun s hs _ hset => ?_)
    fun s op s' hs _ hstep hlost => ?_
  · rw [(life_start hs).2.2.2.2.1] at hset
    cases hset
  · obtain ⟨e, e', hrun⟩ := hstep
    obtain ⟨status, hleft, hstale⟩ := ((liveOn_left s op).value trivial hrun).1
    have hkept : GraphKept ⟨s'.index, staleAfter s.stale op status⟩ := hleft.kept hlost hs
    rwa [← hstale] at hkept

/-- The graph is sound exactly where no item is lost. -/
theorem reachable_graphSound_iff {host : Host} {dimension : Nat} {metric : Metric} {s : Life}
    (h : (life host dimension metric).Reachable s) (hset : s.index.entryPointSet = true) :
    GraphSound s.index ↔ s.index.lost = 0 :=
  ⟨GraphSound.whole, fun hlost => (reachable_graphKept h hlost hset).2⟩

/-- A life in which every call leaves the items their places. -/
abbrev Sparing (host : Host) (dimension : Nat) (metric : Metric) : Life → Prop :=
  (life host dimension metric).Reached fun s => Spares host s.index

/-- Does a call leave the items their places? -/
def sparing (host : Host) (s : Life) (op : Op) : Bool := decide (Spares host s.index op)

theorem liveThrough_sparing {host : Host} {dimension : Nat} {metric : Metric} {seed : UInt64}
    {ops : List Op} {s : Life} {e e' : Env}
    (h : (liveThrough host dimension metric seed (sparing host) ops).exec e = (.ok s, e')) :
    Sparing host dimension metric s :=
  (liveThrough_reached h).mono fun _ _ h => of_decide_eq_true h

theorem Sparing.intact {host : Host} {dimension : Nat} {metric : Metric} {s : Life}
    (h : Sparing host dimension metric s) : Intact s.index := by
  refine h.invariant (fun s => Intact s.index) (fun s hs => ?_) fun s op s' hi hspares hstep => ?_
  · obtain ⟨-, hitems, hlost, -⟩ := life_start hs
    refine ⟨hlost, ?_⟩
    rw [Index.count, hitems, hlost]
    exact Nat.zero_le _
  · obtain ⟨e, e', hrun⟩ := hstep
    obtain ⟨status, hleft, -⟩ := ((liveOn_left s op).value trivial hrun).1
    exact hleft.intact hspares hi

theorem Sparing.kept {host : Host} {dimension : Nat} {metric : Metric} {s : Life}
    (h : Sparing host dimension metric s) : GraphKept s :=
  reachable_graphKept h.reachable h.intact.whole

/-- A call that leaves the items their places returns. -/
theorem Intact.returns {host : Host} {s : Life} (h : Intact s.index) {op : Op}
    (hspares : Spares host s.index op) (e : Env) :
    ∃ s' e', (liveOn host s op).exec e = (.ok s', e') := by
  have hrun : Keeps (fun _ => True) (fun _ => False) (liveOn host s op) fun _ => True :=
    Keeps.bind (call_left op (.inl ⟨h.whole, hspares⟩)) fun _ _ => Keeps.pure trivial
  obtain ⟨-, hdone⟩ := hrun e trivial
  rcases hexec : (liveOn host s op).exec e with ⟨stop | s', e'⟩ <;> rw [hexec] at hdone
  · exact hdone.elim
  · exact ⟨s', e', rfl⟩

/-- **The graph** over every life of an index whose calls leave the items their places. Each of
these calls returns, whatever the allocator does. -/
theorem reached_graphSound {host : Host} {dimension : Nat} {metric : Metric} {s : Life}
    (h : (life host dimension metric).Reached (fun s => Spares host s.index) s) :
    (s.index.entryPointSet = true → s.stale = false ∧ GraphSound s.index) ∧
      (∀ query limit threshold e f,
        ((search s.index query limit threshold).exec e).1 ≠ .error (.fault f)) ∧
      ∀ op, Spares host s.index op → ∀ e, ∃ s' e', (liveOn host s op).exec e = (.ok s', e') := by
  have hkept := Sparing.kept h
  exact ⟨hkept, search_in_bounds hkept, fun op hspares e =>
    (Sparing.intact h).returns hspares e⟩

end Graph

/-- The index of two items, built. -/
def twoBuilt : List Op :=
  [.add (CStr.ofString "a") [⟨0x3F800000⟩], .add (CStr.ofString "b") [⟨0x40000000⟩], .build]

theorem reached_graphSound_two : ∃ s,
    (@life ieee ⟨.w64, .little⟩ 1 .cosine).Reached (fun s => Spares ⟨.w64, .little⟩ s.index) s ∧
      s.index.entryPointSet = true ∧ GraphSound s.index := by
  obtain ⟨s, e', hrun, hset⟩ := exec_of_value?
    (x := @liveThrough ieee ⟨.w64, .little⟩ 1 .cosine 1 (sparing ⟨.w64, .little⟩) twoBuilt)
    (e := ⟨[], []⟩) (q := fun s => s.index.entryPointSet) (by decide +kernel)
  have hreached := @liveThrough_sparing ieee _ _ _ _ _ s _ _ hrun
  exact ⟨s, hreached, hset, ((@reached_graphSound ieee _ _ _ s hreached).1 hset).2⟩

/-- A reservation whose byte count wraps to 40 leaves one of two built items, and both are counted:
a search reads behind the block. -/
theorem reserve_loses_item : ∃ s, (@life ieee ⟨.w64, .little⟩ 1 .cosine).Reachable s ∧
    s.index.entryPointSet = true ∧ s.index.count = 2 ∧ s.index.slots = 1 ∧ ¬ GraphSound s.index ∧
      ∃ e', (@search ieee s.index [⟨0x3F800000⟩] 1 .zero).exec ⟨[], []⟩ =
        (.error (.fault .index), e') := by
  obtain ⟨s, e', hrun, hq⟩ := exec_of_value?
    (x := @liveThrough ieee ⟨.w64, .little⟩ 1 .cosine 1 anyCall
      (twoBuilt ++ [.reserve (2 ^ 61 + 1)])) (e := ⟨[], []⟩)
    (q := fun s => decide (s.index.entryPointSet = true ∧ s.index.count = 2 ∧ s.index.slots = 1 ∧
      s.index.lost = 1) && (@search ieee s.index [⟨0x3F800000⟩] 1 .zero).faults ⟨[], []⟩ .index)
    (by decide +kernel)
  simp only [Bool.and_eq_true, decide_eq_true_eq] at hq
  obtain ⟨⟨hset, hcount, hslots, hlost⟩, hfault⟩ := hq
  refine ⟨s, (@liveThrough_reached ieee _ _ _ _ _ _ s _ _ hrun).reachable, hset, hcount, hslots,
    fun h => ?_, faults_eq_true.mp hfault⟩
  rw [h.whole] at hlost
  cases hlost

/-! ## The recorded capacity -/

/-- The array behind the items has room for `capacity` of them. -/
structure Truthful (hnsw : Index) : Prop where
  count : hnsw.count ≤ hnsw.capacity
  room : hnsw.capacity ≤ hnsw.slots

section Capacity

variable {host : Host}

/-- The calls that keep the capacity and the allocation in step: byte counts that do not wrap,
and builds of full arrays. -/
def KeepsStep (host : Host) (s : Life) : Op → Prop
  | .reserve capacity =>
    capacity ≤ s.index.capacity ∨ capacity * itemSize host < host.sizeMod
  | .add .. => s.index.count = s.index.capacity →
    s.index.capacity * 2 * itemSize host < host.sizeMod
  | .build => s.index.count = 0 ∨ s.index.count = s.index.capacity

instance (host : Host) (s : Life) (op : Op) : Decidable (KeepsStep host s op) :=
  match op with
  | .reserve _ => inferInstanceAs (Decidable (_ ∨ _))
  | .add _ _ => inferInstanceAs (Decidable (_ → _))
  | .build => inferInstanceAs (Decidable (_ ∨ _))

theorem itemSize_pos (host : Host) : 0 < itemSize host := by
  unfold itemSize
  split <;> decide

theorem Resized.truthful {capacity : Nat} {hnsw hnsw' : Index}
    (h : Resized host capacity hnsw hnsw')
    (hbytes : capacity ≤ hnsw.capacity ∨ capacity * itemSize host < host.sizeMod)
    (ht : Truthful hnsw) : Truthful hnsw' := by
  cases h with
  | enough _ => exact ht
  | moved hlt =>
    refine ⟨?_, ?_⟩
    · change (hnsw.cut _).count ≤ capacity
      rw [Index.cut_count]
      exact ht.count.trans (Nat.le_of_lt hlt)
    have hlt' : capacity * itemSize host < host.sizeMod := hbytes.resolve_left (by omega)
    show capacity ≤ host.size (capacity * itemSize host) / itemSize host
    rw [Host.size_of_lt hlt', Nat.mul_div_cancel _ (itemSize_pos host)]

/-- Room is made, and one item more fits. -/
theorem Widened.truthful {hnsw hnsw' : Index} (h : Widened host hnsw hnsw')
    (hbytes : hnsw.count = hnsw.capacity → hnsw.capacity * 2 * itemSize host < host.sizeMod)
    (ht : Truthful hnsw) : Truthful hnsw' ∧ hnsw'.count < hnsw'.capacity := by
  have hcount := ht.count
  unfold Widened at h
  split at h
  · rename_i hfull
    have hwrap := hbytes hfull
    have hsize : host.size (hnsw.capacity * 2) = hnsw.capacity * 2 :=
      Host.size_of_lt (Nat.lt_of_le_of_lt (Nat.le_mul_of_pos_right _ (itemSize_pos host)) hwrap)
    unfold nextCapacity at h
    rw [hsize] at h
    have hnext : (if hnsw.capacity = 0 then 8 else hnsw.capacity * 2) * itemSize host <
        host.sizeMod := by
      split
      · have := host.two_pow_32_le_sizeMod
        have : itemSize host ≤ 40 := by
          unfold itemSize
          split <;> decide
        omega
      · exact hwrap
    refine ⟨h.truthful (.inr hnext) ht, ?_⟩
    cases h with
    | enough hle =>
      exfalso
      split at hle <;> omega
    | moved hlt =>
      change (hnsw.cut _).count < _
      rw [Index.cut_count]
      exact Nat.lt_of_le_of_lt (Nat.le_of_eq hfull) hlt
  · rename_i hroom
    subst h
    exact ⟨ht, by omega⟩

variable [Arith]

/-- **One call** keeps the capacity truthful. -/
theorem Left.truthful {s : Life} {hnsw' : Index} {op : Op} {status : Option Status}
    (h : Left host s.index op status hnsw') (hok : KeepsStep host s op)
    (ht : Truthful s.index) : Truthful hnsw' := by
  cases h with
  | refused op status => exact ht
  | reserved hsize => exact hsize.truthful hok ht
  | widened id values status hid hsize => exact (hsize.truthful hok ht).1
  | @added id values hnsw' hid hsize room =>
    obtain ⟨ht', hlt⟩ := hsize.truthful hok ht
    have hpush := hnsw'.push_count (freshItem id values)
    have hkept : (hnsw'.push (freshItem id values)).capacity = hnsw'.capacity ∧
        (hnsw'.push (freshItem id values)).slots = hnsw'.slots := by
      unfold Index.push
      split <;> exact ⟨rfl, rfl⟩
    refine ⟨?_, ?_⟩
    · change (hnsw'.push _).count ≤ (hnsw'.push _).capacity
      rw [hpush, hkept.1]
      exact hlt
    · change (hnsw'.push _).capacity ≤ (hnsw'.push _).slots
      rw [hkept.1, hkept.2]
      exact ht'.room
  | empty hzero => exact ht
  | built hcount assembled =>
    have hsame := assembled.count
    have hfull := hok.resolve_left hcount
    obtain ⟨start, tmp, hunwired, hgrown, rfl⟩ := assembled
    exact ⟨by rw [hsame]; exact Nat.le_of_eq hfull, Nat.le_of_eq hfull.symm⟩

/-- A call that leaves a place for every item has lost none. -/
theorem Left.whole {hnsw hnsw' : Index} {op : Op} {status : Option Status}
    (h : Left host hnsw op status hnsw') (hlost : hnsw.lost = 0) (hroom : hnsw'.count ≤ hnsw'.slots) :
    hnsw'.lost = 0 := by
  cases h with
  | refused op status => exact hlost
  | reserved hsize => exact (hsize.whole hlost hroom).2
  | widened id values status hid hsize =>
    obtain ⟨capacity, hsize⟩ := hsize.resized
    exact (hsize.whole hlost hroom).2
  | added id values hid hsize room =>
    obtain ⟨capacity, hsize⟩ := hsize.resized
    obtain ⟨-, hlost'⟩ := hsize.whole hlost (Nat.le_of_lt room)
    rw [Index.push_of_whole hlost']
    exact hlost'
  | empty hzero => exact hlost
  | built hcount assembled =>
    obtain ⟨start, tmp, hunwired, hgrown, rfl⟩ := assembled
    exact hunwired.whole.2

/-- **The capacity is truthful** in every life whose calls keep it in step, and an addition that
finds room then writes in bounds. -/
theorem reached_truthful {dimension : Nat} {metric : Metric} {s : Life}
    (h : (life host dimension metric).Reached (KeepsStep host) s) :
    Truthful s.index ∧ ∀ id values, s.index.count < s.index.capacity →
      s.index.dimension * 4 < host.sizeMod → ∀ e f,
        ((add host s.index id values).exec e).1 ≠ .error (.fault f) := by
  obtain ⟨ht, hlost⟩ : Truthful s.index ∧ s.index.lost = 0 := by
    refine h.invariant (fun s => Truthful s.index ∧ s.index.lost = 0) (fun s hs => ?_)
      fun s op s' hs hok hstep => ?_
    · obtain ⟨-, hitems, hlost, hcapacity, -⟩ := life_start hs
      refine ⟨⟨?_, by omega⟩, hlost⟩
      rw [Index.count, hitems, hlost]
      exact Nat.zero_le _
    · obtain ⟨e, e', hrun⟩ := hstep
      obtain ⟨status, hleft, -⟩ := ((liveOn_left s op).value trivial hrun).1
      have ht := hleft.truthful hok hs.1
      exact ⟨ht, hleft.whole hs.2 (ht.count.trans ht.room)⟩
  refine ⟨ht, fun id values hlt hbytes e f hfault => ?_⟩
  have hserves : Serves (fun _ => True) (fun stop => ∀ f, stop ≠ .fault f) Status.enomem :=
    serves_of_fail (fun _ _ h => h) (by simp)
  have hrun : Keeps (fun _ => True) (fun stop => ∀ f, stop ≠ .fault f)
      (add host s.index id values) _ :=
    add_keeps hlost (fun _ => by simp) (.inl ⟨hbytes, hlt, Nat.lt_of_lt_of_le hlt ht.room⟩)
  have hstop := (hrun e trivial).2
  rw [hfault] at hstop
  exact hstop f rfl

end Capacity

/-- An index as it is opened. -/
def opened : Index where
  dimension := 1
  metric := .cosine
  items := []
  lost := 0
  slots := 0
  capacity := 0
  maxLevel := -1
  entryPointIdx := 0
  entryPointSet := false
  m := 16
  efConstruction := 64
  efSearch := 64
  rngState := 1

/-- Eight items fill the first array; behind the build it grows again. -/
def ninthAdded : List Op :=
  List.replicate 8 (.add (CStr.ofString "a") [⟨0x3F800000⟩]) ++
    [.build, .add (CStr.ofString "b") [⟨0x40000000⟩]]

theorem reached_truthful_ninth : ∃ s, (@life ieee ⟨.w64, .little⟩ 1 .cosine).Reached
    (KeepsStep ⟨.w64, .little⟩) s ∧ s.index.count = 9 ∧ s.index.capacity = 16 ∧
      Truthful s.index := by
  obtain ⟨s, e', hrun, hq⟩ := exec_of_value?
    (x := @liveThrough ieee ⟨.w64, .little⟩ 1 .cosine 1
      (fun s op => decide (KeepsStep ⟨.w64, .little⟩ s op)) ninthAdded) (e := ⟨[], []⟩)
    (q := fun s => decide (s.index.count = 9 ∧ s.index.capacity = 16)) (by decide +kernel)
  obtain ⟨hcount, hcapacity⟩ := of_decide_eq_true hq
  have hreached : (@life ieee ⟨.w64, .little⟩ 1 .cosine).Reached (KeepsStep ⟨.w64, .little⟩) s :=
    (@liveThrough_reached ieee _ _ _ _ _ _ s _ _ hrun).mono fun s op h => of_decide_eq_true h
  exact ⟨s, hreached, hcount, hcapacity, (@reached_truthful _ ieee _ _ s hreached).1⟩

/-- An addition after a build writes behind the array. -/
theorem build_then_add_overruns : ∃ s, (@life ieee ⟨.w64, .little⟩ 1 .cosine).Reachable s ∧
    ¬ Truthful s.index ∧ s.index.count < s.index.capacity ∧ ∃ e e',
      (@add ieee ⟨.w64, .little⟩ s.index (CStr.ofString "c") [⟨0x3F800000⟩]).exec e =
        (.error (.fault .index), e') := by
  obtain ⟨s, e', hrun, hq⟩ := exec_of_value?
    (x := @liveThrough ieee ⟨.w64, .little⟩ 1 .cosine 1 anyCall twoBuilt) (e := ⟨[], []⟩)
    (q := fun s => decide (s.index.slots < s.index.capacity ∧ s.index.count < s.index.capacity) &&
      (@add ieee ⟨.w64, .little⟩ s.index (CStr.ofString "c") [⟨0x3F800000⟩]).faults ⟨[], []⟩ .index)
    (by decide +kernel)
  simp only [Bool.and_eq_true, decide_eq_true_eq] at hq
  obtain ⟨e'', hfault⟩ := faults_eq_true.mp hq.2
  exact ⟨s, (@liveThrough_reached ieee _ _ _ _ _ _ s _ _ hrun).reachable,
    fun ht => absurd ht.room (by omega), hq.1.2, _, e'', hfault⟩

end Ipa.Hnsw
