import Ipa.Hnsw.Search
import Ipa.Lib.Ieee
import Ipa.Runtime.Parse

/-!
# The threshold of a manifest

The number behind a `node_threshold` is what `strtod` makes of it, and that reads `nan`. The two
comparisons of the validator are false of a NaN, and so is the comparison with the score of a
window. `readThreshold` finds in a text the number that decides; every other number in the range
test is one.
-/

namespace Ipa

open Run

namespace Json

variable [Arith]

/-! ## The number that decides -/

/-- The members of the defaults, with the text of the last `node_threshold` so far. -/
def thresholdMembers : Nat → Json → Option (List UInt8) →
    Run JsonError (Json × Option (List UInt8))
  | 0, _, _ => fault .fuel
  | fuel + 1, j, number => do
    let (j, dk) ← j.parseString
    let j ← j.expect 0x3A
    let j := j.skipWs
    let (j, number) ←
      if dk.bytes = ascii "node_threshold" then do
        let text := j.skipWs.rest
        let (j, _) ← j.parseDouble
        pure (j, some (text.take (strtodLen text)))
      else if dk.bytes = ascii "min_ngram" then do
        let (j, _) ← j.parseDouble
        pure (j, number)
      else if dk.bytes = ascii "max_ngram" then do
        let (j, _) ← j.parseDouble
        pure (j, number)
      else do
        let j ← skipValue j.fuel j
        pure (j, number)
    let j := j.skipWs
    if j.peek = some 0x2C then thresholdMembers fuel (j.advance 1) number else pure (j, number)

def thresholdDefaults (j : Json) (number : Option (List UInt8)) :
    Run JsonError (Json × Option (List UInt8)) := do
  let j ← j.expect 0x7B
  let j := j.skipWs
  if j.peek = some 0x7D then pure (j.advance 1, number)
  else
    let (j, number) ← thresholdMembers j.fuel j number
    let j ← j.expect 0x7D
    pure (j, number)

/-- The members of a manifest, with the text of the last `node_threshold` so far. -/
def thresholdTop : Nat → Json → Option (List UInt8) → Run JsonError (Json × Option (List UInt8))
  | 0, _, _ => fault .fuel
  | fuel + 1, j, number => do
    let (j, key) ← j.parseString
    let j ← j.expect 0x3A
    let j := j.skipWs
    let (j, number) ←
      if key.bytes = ascii "schema" ∨ key.bytes = ascii "id" ∨ key.bytes = ascii "vendor" ∨
          key.bytes = ascii "version" then do
        let (j, _) ← j.parseString
        pure (j, number)
      else if key.bytes = ascii "defaults" then thresholdDefaults j number
      else if key.bytes = ascii "nodes" then do
        let (j, _) ← parseNodeArray j.fuel j
        pure (j, number)
      else do
        let j ← skipValue j.fuel j
        pure (j, number)
    let j := j.skipWs
    if j.peek = some 0x2C then thresholdTop fuel (j.advance 1) number else pure (j, number)

/-- The text of the number that the last `node_threshold` of a manifest gives. -/
def readThreshold (j : Json) : Run JsonError (Json × Option (List UInt8)) := do
  let j ← j.expect 0x7B
  let j := j.skipWs
  if j.peek = some 0x7D then pure (j.advance 1, none)
  else
    let (j, number) ← thresholdTop j.fuel j none
    let j ← j.expect 0x7D
    pure (j, number)

/-- The threshold that a text gives: `(float)strtod(text)`, or the default without one. -/
def thresholdOf (number : Option (List UInt8)) : Binary32 :=
  (number.map fun text => toFloat (Arith.ofText text)).getD defaultThreshold

/-! ## It is the one that is stored -/

/-- The two passes are at one place, and the manifest has the threshold of the number. -/
def Tracks (r : Json × Option (List UInt8)) (r' : Json × Manifest) : Prop :=
  r.1 = r'.1 ∧ r'.2.nodeThreshold = thresholdOf r.2

omit [Arith] in
theorem sim_self {α : Type} (x : Run JsonError α) : Sim (fun _ => True) (· = ·) x x :=
  Sim.refl (Keeps.trivially x)

/-- What the loops over members do after a member. -/
theorem members_sim {loop : Json → Option (List UInt8) → Run JsonError _}
    {loop' : Json → Manifest → Run JsonError _}
    (hloop : ∀ j number m, m.nodeThreshold = thresholdOf number →
      Sim (fun _ => True) Tracks (loop j number) (loop' j m))
    (j : Json) (number : Option (List UInt8)) (m : Manifest)
    (h : m.nodeThreshold = thresholdOf number) :
    Sim (fun _ => True) Tracks
      (if j.skipWs.peek = some 0x2C then loop (j.skipWs.advance 1) number
        else pure (j.skipWs, number))
      (if j.skipWs.peek = some 0x2C then loop' (j.skipWs.advance 1) m
        else pure (j.skipWs, m)) := by
  by_cases hcomma : j.skipWs.peek = some 0x2C
  · rw [if_pos hcomma, if_pos hcomma]
    exact hloop _ _ _ h
  · rw [if_neg hcomma, if_neg hcomma]
    exact Sim.pure ⟨rfl, h⟩

theorem thresholdMembers_sim (fuel : Nat) (j : Json) (number : Option (List UInt8)) (m : Manifest)
    (h : m.nodeThreshold = thresholdOf number) :
    Sim (fun _ => True) Tracks (thresholdMembers fuel j number) (defaultsMembers fuel j m) := by
  induction fuel generalizing j number m with
  | zero => exact fun e he => ⟨rfl, he, rfl⟩
  | succ fuel ih =>
    have hrest := members_sim ih
    rw [thresholdMembers, defaultsMembers]
    refine Sim.bind (sim_self _) ?_
    rintro ⟨j, dk⟩ _ rfl
    refine Sim.bind (sim_self _) ?_
    rintro j _ rfl
    dsimp only
    by_cases hthreshold : dk.bytes = ascii "node_threshold"
    · rw [if_pos hthreshold, if_pos hthreshold]
      -- the one member that both look at
      unfold parseDouble
      dsimp only
      by_cases hnumber : strtodLen j.skipWs.skipWs.rest = 0
      · rw [if_pos hnumber]
        exact fun e he => ⟨rfl, he, rfl⟩
      · rw [if_neg hnumber]
        exact hrest _ _ _ rfl
    rw [if_neg hthreshold, if_neg hthreshold]
    by_cases hmin : dk.bytes = ascii "min_ngram"
    · rw [if_pos hmin, if_pos hmin]
      refine Sim.bind (sim_self _) ?_
      rintro ⟨j, v⟩ _ rfl
      exact hrest _ _ _ h
    rw [if_neg hmin, if_neg hmin]
    by_cases hmax : dk.bytes = ascii "max_ngram"
    · rw [if_pos hmax, if_pos hmax]
      refine Sim.bind (sim_self _) ?_
      rintro ⟨j, v⟩ _ rfl
      exact hrest _ _ _ h
    · rw [if_neg hmax, if_neg hmax]
      refine Sim.bind (sim_self _) ?_
      rintro j _ rfl
      exact hrest _ _ _ h

theorem thresholdDefaults_sim (j : Json) (number : Option (List UInt8)) (m : Manifest)
    (h : m.nodeThreshold = thresholdOf number) :
    Sim (fun _ => True) Tracks (thresholdDefaults j number) (parseDefaults j m) := by
  unfold thresholdDefaults parseDefaults
  refine Sim.bind (sim_self _) ?_
  rintro j _ rfl
  dsimp only
  by_cases hend : j.skipWs.peek = some 0x7D
  · rw [if_pos hend, if_pos hend]
    exact Sim.pure ⟨rfl, h⟩
  · rw [if_neg hend, if_neg hend]
    refine Sim.bind (thresholdMembers_sim _ _ _ _ h) ?_
    rintro ⟨j, number⟩ ⟨_, m⟩ ⟨rfl, hm⟩
    refine Sim.bind (sim_self _) ?_
    rintro j _ rfl
    exact Sim.pure ⟨rfl, hm⟩

theorem thresholdTop_sim (fuel : Nat) (j : Json) (number : Option (List UInt8)) (m : Manifest)
    (h : m.nodeThreshold = thresholdOf number) :
    Sim (fun _ => True) Tracks (thresholdTop fuel j number) (manifestMembers fuel j m) := by
  induction fuel generalizing j number m with
  | zero => exact fun e he => ⟨rfl, he, rfl⟩
  | succ fuel ih =>
    have hrest := members_sim ih
    rw [thresholdTop, manifestMembers]
    refine Sim.bind (sim_self _) ?_
    rintro ⟨j, key⟩ _ rfl
    refine Sim.bind (sim_self _) ?_
    rintro j _ rfl
    dsimp only
    have hstring : ∀ f : CStr → Manifest, (∀ s, (f s).nodeThreshold = m.nodeThreshold) →
        Sim (fun _ => True) Tracks
          (j.skipWs.parseString >>= fun r =>
            if r.1.skipWs.peek = some 0x2C then thresholdTop fuel (r.1.skipWs.advance 1) number
            else pure (r.1.skipWs, number))
          (j.skipWs.parseString >>= fun r =>
            if r.1.skipWs.peek = some 0x2C then manifestMembers fuel (r.1.skipWs.advance 1) (f r.2)
            else pure (r.1.skipWs, f r.2)) := by
      intro f hf
      refine Sim.bind (sim_self _) ?_
      rintro ⟨j, s⟩ _ rfl
      exact hrest _ _ _ ((hf s).trans h)
    by_cases hschema : key.bytes = ascii "schema"
    · rw [if_pos (.inl hschema), if_pos hschema]
      exact hstring (fun s => { m with schema := some s }) fun _ => rfl
    by_cases hid : key.bytes = ascii "id"
    · rw [if_pos (.inr (.inl hid)), if_neg hschema, if_pos hid]
      exact hstring (fun s => { m with id := some s }) fun _ => rfl
    by_cases hvendor : key.bytes = ascii "vendor"
    · rw [if_pos (.inr (.inr (.inl hvendor))), if_neg hschema, if_neg hid, if_pos hvendor]
      exact hstring (fun s => { m with vendor := some s }) fun _ => rfl
    by_cases hversion : key.bytes = ascii "version"
    · rw [if_pos (.inr (.inr (.inr hversion))), if_neg hschema, if_neg hid, if_neg hvendor,
        if_pos hversion]
      exact hstring (fun s => { m with version := some s }) fun _ => rfl
    rw [if_neg (by simp only [hschema, hid, hvendor, hversion, or_self, not_false_eq_true]),
      if_neg hschema, if_neg hid, if_neg hvendor, if_neg hversion]
    by_cases hdefaults : key.bytes = ascii "defaults"
    · rw [if_pos hdefaults, if_pos hdefaults]
      refine Sim.bind (thresholdDefaults_sim _ _ _ h) ?_
      rintro ⟨j, number⟩ ⟨_, m⟩ ⟨rfl, hm⟩
      exact hrest _ _ _ hm
    rw [if_neg hdefaults, if_neg hdefaults]
    by_cases hnodes : key.bytes = ascii "nodes"
    · rw [if_pos hnodes, if_pos hnodes]
      refine Sim.bind (sim_self _) ?_
      rintro ⟨j, nodes⟩ _ rfl
      exact hrest _ _ _ h
    · rw [if_neg hnodes, if_neg hnodes]
      refine Sim.bind (sim_self _) ?_
      rintro j _ rfl
      exact hrest _ _ _ h

theorem readThreshold_sim (j : Json) :
    Sim (fun _ => True) Tracks (readThreshold j) (parseManifest j) := by
  unfold readThreshold parseManifest
  refine Sim.bind (sim_self _) ?_
  rintro j _ rfl
  dsimp only
  by_cases hend : j.skipWs.peek = some 0x7D
  · rw [if_pos hend, if_pos hend]
    exact Sim.pure ⟨rfl, rfl⟩
  · rw [if_neg hend, if_neg hend]
    refine Sim.bind (thresholdTop_sim _ _ none _ rfl) ?_
    rintro ⟨j, number⟩ ⟨_, m⟩ ⟨rfl, hm⟩
    refine Sim.bind (sim_self _) ?_
    rintro j _ rfl
    exact Sim.pure ⟨rfl, hm⟩

end Json

/-! ## The range -/

theorem Binary32.not_lt_zero {t : Binary32} (ht : t.isNaN = false) :
    t.lt .zero = false ↔ Binary32.zero.le t = true :=
  Binary32.not_lt ht (by decide)

theorem Binary32.not_one_lt {t : Binary32} (ht : t.isNaN = false) :
    Binary32.one.lt t = false ↔ t.le .one = true :=
  Binary32.not_lt (by decide) ht

/-- What the two comparisons of the validator leave. -/
theorem validateManifest_threshold {m : Manifest} (h : validateManifest m = .ok ()) :
    m.nodeThreshold.lt .zero = false ∧ Binary32.one.lt m.nodeThreshold = false := by
  unfold validateManifest at h
  iterate 5
    split at h
    · cases h
  split at h
  · cases h
  · rename_i hrange
    rw [not_or, Bool.not_eq_true, Bool.not_eq_true] at hrange
    exact hrange

section Scan

variable [Arith]

/-- What a scan accepts of a window is a score that is not below the threshold, rounded from a
number. -/
theorem visitHit_score {ε : Type} {host : Host} {s : Schema} {hnsw : Option Hnsw.Index}
    {chunk : Ngram.Chunk} {span id : CStr} {score : Binary32} {e e' : Env}
    (h : (visitHit (ε := ε) host s hnsw chunk).exec e = (.ok (some (span, id, score)), e')) :
    score.lt s.nodeThreshold = false ∧
      ∃ x : Binary64, x.isNaN = false ∧ score = Arith.narrow x := by
  have hkeep : Keeps (fun _ => True) (fun _ => True) (visitHit (ε := ε) host s hnsw chunk)
      fun r => ∀ hit ∈ r, hit.2.2.lt s.nodeThreshold = false ∧
        ∃ x : Binary64, x.isNaN = false ∧ hit.2.2 = Arith.narrow x := by
    have hnone : Keeps (fun _ => True) (fun _ => True)
        (pure none : Run ε (Option (CStr × CStr × Binary32)))
        fun r => ∀ hit ∈ r, hit.2.2.lt s.nodeThreshold = false ∧
          ∃ x : Binary64, x.isNaN = false ∧ hit.2.2 = Arith.narrow x :=
      Keeps.pure fun hit hhit => by cases hhit
    unfold visitHit
    split
    · exact hnone
    refine Keeps.bind (Keeps.trivially _) fun served _ => ?_
    cases served with
    | false => exact hnone
    | true =>
      refine Keeps.bind (Keeps.trivially _) fun vec _ => ?_
      cases vec with
      | none => exact hnone
      | some vec =>
        cases hnsw with
        | none => exact hnone
        | some hnsw =>
          refine Keeps.bind ((Hnsw.search_meets 1 .zero).catching fun _ _ => trivial)
            fun found hfound => ?_
          rcases found with err | (_ | ⟨hr, rest⟩)
          · exact hnone
          · exact hnone
          · dsimp only
            split
            · exact hnone
            · rename_i hlt
              refine Keeps.pure fun hit hhit => ?_
              cases hhit
              exact ⟨Bool.eq_false_iff.mpr hlt, hr.score,
                Hnsw.meets_number (hfound.1 _ rfl hr List.mem_cons_self), rfl⟩
  exact (hkeep.value trivial h).1 _ rfl

/-- The ranges of the defaults. Where a schema has the threshold of the manifest, a window is
accepted only with a score that is at least a number between 0 and 1, and that is a number itself
where rounding gives no NaN for a number. -/
structure Manifest.Bounded (m : Manifest) : Prop where
  low : Binary32.zero.le m.nodeThreshold = true
  high : m.nodeThreshold.le .one = true
  minNgram : 1 ≤ m.minNgram.toInt
  maxNgram : m.minNgram.toInt ≤ m.maxNgram.toInt
  scans : ∀ (ε : Type) (host : Host) (s : Schema) (hnsw : Option Hnsw.Index) (chunk : Ngram.Chunk)
    (e e' : Env) (span id : CStr) (score : Binary32), s.nodeThreshold = m.nodeThreshold →
      (visitHit (ε := ε) host s hnsw chunk).exec e = (.ok (some (span, id, score)), e') →
        (score.isNaN = false → m.nodeThreshold.le score = true) ∧
          (RoundsNumbers → m.nodeThreshold.le score = true)

theorem bounded_iff {m : Manifest} (h : validateManifest m = .ok ()) :
    m.Bounded ↔ m.nodeThreshold.isNaN = false := by
  constructor
  · intro hbounded
    have hlow := hbounded.low
    simp only [Binary32.le, Bool.and_eq_true, Bool.not_eq_true'] at hlow
    exact hlow.1.2
  · intro hnumber
    have hvalid := validateManifest_ok h
    obtain ⟨hlow, hhigh⟩ := validateManifest_threshold h
    refine ⟨(Binary32.not_lt_zero hnumber).mp hlow, (Binary32.not_one_lt hnumber).mp hhigh,
      hvalid.minNgram, hvalid.maxNgram, ?_⟩
    intro ε host s hnsw chunk e e' span id score hs hrun
    obtain ⟨hlt, x, hx, rfl⟩ := visitHit_score hrun
    rw [hs] at hlt
    have hreaches : (Arith.narrow x).isNaN = false → m.nodeThreshold.le (Arith.narrow x) = true :=
      fun hscore => (Binary32.not_lt hscore hnumber).mp hlt
    exact ⟨hreaches, fun hround => hreaches (hround x hx)⟩

/-- **The range check** of an accepted manifest holds exactly when the number that its text gives
as the threshold is none that `strtod` reads as a NaN. -/
theorem parse_bounded_iff (text : List UInt8) (j : Json) (m : Manifest) {e e' : Env}
    (hparse : (Json.parseManifest ⟨text, 0⟩).exec e = (.ok (j, m), e'))
    (haccept : validateManifest m = .ok ()) :
    m.Bounded ↔ ∀ j' number, (Json.readThreshold ⟨text, 0⟩).value? e = some (j', some number) →
      (Json.toFloat (Arith.ofText number)).isNaN = false := by
  obtain ⟨henv, -, htracks⟩ := Json.readThreshold_sim ⟨text, 0⟩ e trivial
  rcases hread : (Json.readThreshold ⟨text, 0⟩).exec e with ⟨stop | ⟨j', number⟩, e₁⟩
  · rw [hparse, hread] at htracks
    exact htracks.elim
  · rw [hparse, hread] at htracks
    obtain ⟨-, hthreshold⟩ := htracks
    dsimp only at hthreshold
    have hvalue : (Json.readThreshold ⟨text, 0⟩).value? e = some (j', number) :=
      value?_eq_some.mpr ⟨e₁, hread⟩
    rw [bounded_iff haccept, hthreshold, hvalue]
    cases number with
    | none =>
      have hdefault : defaultThreshold.isNaN = false := by decide
      refine iff_of_true hdefault fun j'' number h => ?_
      cases h
    | some number =>
      refine ⟨fun h j'' number' heq => ?_, fun h => h j' number rfl⟩
      cases heq
      exact h

end Scan

/-- Binary64 arithmetic with a `strtod` that reads the words, too. -/
@[reducible] def ieeeWords : Arith :=
  { ieee with
    ofText := fun text =>
      let (neg, rest) := Ieee.splitSign (text.dropWhile isspace)
      if startsWithFold (ascii "nan") rest then ⟨0x7FF8000000000000⟩
      else if startsWithFold (ascii "inf") rest then if neg then .negInf else .inf
      else ieee.ofText text }

/-- A manifest whose threshold is given as this text. -/
def thresholdText (number : String) : List UInt8 := ascii
  ("\x7b\"schema\":\"ipa.map.v1\",\"id\":\"m\",\"vendor\":\"v\",\"version\":\"1\"," ++
    "\"defaults\":\x7b\"node_threshold\":" ++ number ++ "\x7d,\"nodes\":[" ++
      "\x7b\"id\":\"n\",\"descriptions\":[\"d\"]\x7d]\x7d")

theorem parse_bounded_iff_half : ∃ j m e',
    (@Json.parseManifest ieeeWords ⟨thresholdText "0.5", 0⟩).exec ⟨[], []⟩ = (.ok (j, m), e') ∧
      (@Manifest.Bounded ieeeWords m ↔ ∀ j' number,
        (@Json.readThreshold ieeeWords ⟨thresholdText "0.5", 0⟩).value? ⟨[], []⟩ =
          some (j', some number) → (@Json.toFloat ieeeWords (ieeeWords.ofText number)).isNaN = false) := by
  obtain ⟨⟨j, m⟩, e', hparse, haccept⟩ := exec_of_value?
    (x := @Json.parseManifest ieeeWords ⟨thresholdText "0.5", 0⟩) (e := ⟨[], []⟩)
    (q := fun r => decide (validateManifest r.2 = .ok ())) (by decide +kernel)
  exact ⟨j, m, e', hparse,
    @parse_bounded_iff ieeeWords _ j m _ _ hparse (of_decide_eq_true haccept)⟩

/-- A threshold that no comparison tells apart from one in the range. -/
theorem parse_takes_nan : ∃ j m e',
    (@Json.parseManifest ieeeWords ⟨thresholdText "nan", 0⟩).exec ⟨[], []⟩ = (.ok (j, m), e') ∧
      validateManifest m = .ok () ∧ ¬ @Manifest.Bounded ieeeWords m := by
  obtain ⟨⟨j, m⟩, e', hparse, haccept⟩ := exec_of_value?
    (x := @Json.parseManifest ieeeWords ⟨thresholdText "nan", 0⟩) (e := ⟨[], []⟩)
    (q := fun r => decide (validateManifest r.2 = .ok ()) && r.2.nodeThreshold.isNaN)
    (by decide +kernel)
  rw [Bool.and_eq_true, decide_eq_true_eq] at haccept
  refine ⟨j, m, e', hparse, haccept.1, fun hbounded => ?_⟩
  rw [@bounded_iff ieeeWords m haccept.1, haccept.2] at hbounded
  cases hbounded

end Ipa
