import Ipa.Cli.Printed
import Ipa.Lib.Decimal
import Ipa.Lib.JsonUnique

/-!
# Reading a printed result back

`readResult` finds the flag and the matches in what a JSON text denotes, by the names of the members.
The text that is printed for a result is an object and a line feed; a text has one syntax tree, so a
decoder has no choice, and what is read are the flag and the matches of the result, in their order,
with the scores to four decimals.
-/

namespace Ipa

open JsonText

/-! ## What is read -/

/-- A match as a consumer of the text knows it. -/
structure Tree where
  id : List Char
  span : List Char
  score : ℚ
  emits : List (List Char × List Char)
  children : List Tree

/-- The members of a match that have been found. -/
structure Fields where
  id : Option (List Char)
  span : Option (List Char)
  score : Option ℚ
  emits : List (List Char × List Char)
  children : List Tree

def Fields.blank : Fields := ⟨none, none, none, [], []⟩

def Fields.tree (f : Fields) : Option Tree :=
  match f.id, f.span, f.score with
  | some id, some span, some score => some ⟨id, span, score, f.emits, f.children⟩
  | _, _, _ => none

def readString : Data → Option (List Char)
  | .string s => some s
  | _ => none

def readNumber : Data → Option ℚ
  | .number q => some q
  | _ => none

def readPairs : Data → Option (List (List Char × List Char))
  | .object members => members.mapM fun p => (readString p.2).map (p.1, ·)
  | _ => none

/-- One member of a match; `trees` is its value read as matches. -/
def setField (f : Fields) (name : List Char) (d : Data) (trees : Option (List Tree)) :
    Option Fields :=
  if name = "id".toList then (readString d).map ({ f with id := some · })
  else if name = "span".toList then (readString d).map ({ f with span := some · })
  else if name = "score".toList then (readNumber d).map ({ f with score := some · })
  else if name = "emit".toList then (readPairs d).map ({ f with emits := · })
  else if name = "children".toList then trees.map ({ f with children := · })
  else some f

mutual

def readTree : Data → Option Tree
  | .object members => (readFields members).bind Fields.tree
  | _ => none

def readFields : List (List Char × Data) → Option Fields
  | [] => some Fields.blank
  | (name, d) :: rest => (readFields rest).bind fun f => setField f name d (readChildren d)

def readChildren : Data → Option (List Tree)
  | .array items => readTrees items
  | _ => none

def readTrees : List Data → Option (List Tree)
  | [] => some []
  | d :: rest =>
    match readTree d, readTrees rest with
    | some t, some ts => some (t :: ts)
    | _, _ => none

end

/-- The flag and the matches. -/
def readResult : Data → Option (Bool × List Tree)
  | .object members =>
    match members.lookup "ok".toList, members.lookup "matches".toList with
    | some (.bool ok), some d => (readChildren d).map (ok, ·)
    | _, _ => none
  | _ => none

/-! ## What is shown -/

def CStr.IsUtf8 (s : CStr) : Prop := ∃ cs, utf8 cs = s.bytes

structure Emit.Readable (emit : Emit) : Prop where
  key : ∃ k, emit.key = some k ∧ k.IsUtf8
  value : ∃ v, emit.value = some v ∧ v.IsUtf8

/-- Every text of the match and of what is below it is UTF-8, and every score is finite. -/
inductive Match.Readable : Match → Prop
  | intro {m : Match} (id : m.id.IsUtf8) (span : m.span.IsUtf8) (score : m.score.IsFinite)
    (emits : ∀ emit ∈ m.emits, emit.Readable) (children : ∀ c ∈ m.children, c.Readable) : m.Readable

/-- `q` is a multiple of 1/10000, half of that away from the score at most. -/
def ToFourDecimals (score : Binary32) (q : ℚ) : Prop :=
  (∃ k : Int, q = k / 10000) ∧ |q - score.value| ≤ 1 / 20000

structure EmitShown (emit : Emit) (p : List Char × List Char) : Prop where
  key : ∃ k, emit.key = some k ∧ utf8 p.1 = k.bytes
  value : ∃ v, emit.value = some v ∧ utf8 p.2 = v.bytes

inductive Shown : Match → Tree → Prop
  | intro {m : Match} {t : Tree} (id : utf8 t.id = m.id.bytes) (span : utf8 t.span = m.span.bytes)
    (score : ToFourDecimals m.score t.score) (emits : List.Forall₂ EmitShown m.emits t.emits)
    (children : List.Forall₂ Shown m.children t.children) : Shown m t

/-- A finite score is printed as a decimal number with four decimals, the nearest one. -/
def PrintsDecimals (formatScore : Binary32 → List UInt8) : Prop :=
  ∀ score : Binary32, score.IsFinite → ∃ n : Numeral, formatScore score = n.text ∧
    n.exponent = none ∧ n.frac.length = 4 ∧ |n.value - score.value| ≤ 1 / 20000

/-! ## Names and strings -/

/-- The name of a member, as it is printed. -/
def nameOf (s : String) : List Glyph := s.toList.map glyphOf

theorem nameOf_decode (s : String) : decode (nameOf s) = some s.toList := decode_printed _

/-- A printed text is the literal of the characters that are read from it. -/
theorem printed_string {s : CStr} (h : s.IsUtf8) : ∃ gs cs,
    jsonPrintString (some s) = literal gs ∧ decode gs = some cs ∧ utf8 cs = s.bytes := by
  obtain ⟨cs, hcs⟩ := h
  exact ⟨cs.map glyphOf, cs, jsonPrintString_utf8 hcs, decode_printed cs, hcs⟩

theorem string_data {gs : List Glyph} {cs : List Char} (h : decode gs = some cs) :
    (Value.string gs).data = some (.string cs) := by
  rw [Value.data, h, Option.map_some]

section Fields

variable (f : Fields) (ts : Option (List Tree))

theorem setField_id (s : List Char) :
    setField f "id".toList (.string s) ts = some { f with id := some s } := if_pos rfl

theorem setField_span (s : List Char) :
    setField f "span".toList (.string s) ts = some { f with span := some s } := by
  unfold setField
  rw [if_neg (by decide), if_pos rfl]
  rfl

theorem setField_score (q : ℚ) :
    setField f "score".toList (.number q) ts = some { f with score := some q } := by
  unfold setField
  rw [if_neg (by decide), if_neg (by decide), if_pos rfl]
  rfl

theorem setField_emit {d : Data} {pairs : List (List Char × List Char)}
    (h : readPairs d = some pairs) :
    setField f "emit".toList d ts = some { f with emits := pairs } := by
  unfold setField
  rw [if_neg (by decide), if_neg (by decide), if_neg (by decide), if_pos rfl, h]
  rfl

theorem setField_children (d : Data) (trees : List Tree) :
    setField f "children".toList d (some trees) = some { f with children := trees } := by
  unfold setField
  rw [if_neg (by decide), if_neg (by decide), if_neg (by decide), if_neg (by decide), if_pos rfl]
  rfl

end Fields

theorem readFields_cons (name : List Char) (d : Data) (rest : List (List Char × Data)) :
    readFields ((name, d) :: rest) =
      (readFields rest).bind fun f => setField f name d (readChildren d) := rfl

/-! ## Pairs -/

/-- The pairs as members, and what they are read as. -/
structure PairsRead (emits : List Emit) (ps : List (List Glyph × Value))
    (qs : List (List Char × Data)) (pairs : List (List Char × List Char)) : Prop where
  members : List.Forall₂ MemberIs ps qs
  read : readPairs (.object qs) = some pairs
  shown : List.Forall₂ EmitShown emits pairs

theorem printPair_read {emit : Emit} (h : emit.Readable) : ∃ p q pair,
    jsonPrintString emit.key ++ 0x3A :: jsonPrintString emit.value = memberText p ∧
      MemberIs p q ∧ (readString q.2).map (q.1, ·) = some pair ∧ EmitShown emit pair := by
  obtain ⟨⟨k, hk, hkutf⟩, v, hv, hvutf⟩ := h
  obtain ⟨kgs, kcs, hktext, hkdec, hkcs⟩ := printed_string hkutf
  obtain ⟨vgs, vcs, hvtext, hvdec, hvcs⟩ := printed_string hvutf
  refine ⟨(kgs, .string vgs), (kcs, .string vcs), (kcs, vcs), ?_, ?_, rfl, ?_⟩
  · rw [hk, hv, hktext, hvtext]
    rfl
  · exact ⟨hkdec, string_data hvdec⟩
  · exact ⟨⟨k, hk, hkcs⟩, v, hv, hvcs⟩

theorem readPairs_cons {q : List Char × Data} {qs : List (List Char × Data)}
    {pair : List Char × List Char} {pairs : List (List Char × List Char)}
    (hread : (readString q.2).map (q.1, ·) = some pair)
    (hreads : readPairs (.object qs) = some pairs) :
    readPairs (.object (q :: qs)) = some (pair :: pairs) := by
  change qs.mapM _ = _ at hreads
  change (q :: qs).mapM _ = _
  rw [List.mapM_cons, hread, hreads]
  rfl

theorem printPairs_read {emits : List Emit} (h : ∀ emit ∈ emits, emit.Readable) (i : Nat) :
    ∃ ps qs pairs, printPairs emits i = joined i (ps.map memberText) ∧
      PairsRead emits ps qs pairs := by
  induction emits generalizing i with
  | nil => exact ⟨[], [], [], (joined_nil i).symm, .nil, rfl, .nil⟩
  | cons emit rest ih =>
    obtain ⟨p, q, pair, htext, hmember, hread, hshown⟩ := printPair_read (h emit (by simp))
    obtain ⟨ps, qs, pairs, htexts, hps, hreads, hshowns⟩ :=
      ih (fun e he => h e (List.mem_cons_of_mem _ he)) (i + 1)
    refine ⟨p :: ps, q :: qs, pair :: pairs, ?_, .cons hmember hps, readPairs_cons hread hreads,
      .cons hshown hshowns⟩
    rw [printPairs, htexts, List.map_cons, ← comma_joined, ← htext]
    simp only [List.append_assoc, List.cons_append]

/-! ## Matches -/

section Matches

variable {formatScore : Binary32 → List UInt8}

/-- What is printed for a match, and what is read from it. -/
structure MatchRead (m : Match) (text : List UInt8) (v : Value) (d : Data) (t : Tree) : Prop where
  text_eq : text = v.text
  data : v.data = some d
  read : readTree d = some t
  shown : Shown m t

theorem readTrees_cons {d : Data} {ds : List Data} {t : Tree} {ts : List Tree}
    (hd : readTree d = some t) (hds : readTrees ds = some ts) :
    readTrees (d :: ds) = some (t :: ts) := by
  rw [readTrees, hd, hds]

/-- The matches of an array, when each of them can be read. -/
theorem printMatches_read {ms : List Match}
    (h : ∀ m ∈ ms, ∃ v d t, MatchRead m (printMatch formatScore m 0) v d t) (i : Nat) :
    ∃ vs ds ts, printMatches formatScore ms i = joined i (vs.map Value.text) ∧
      List.Forall₂ (fun v d => v.data = some d) vs ds ∧ readTrees ds = some ts ∧
      List.Forall₂ Shown ms ts := by
  induction ms generalizing i with
  | nil => exact ⟨[], [], [], (joined_nil i).symm, .nil, rfl, .nil⟩
  | cons m rest ih =>
    obtain ⟨v, d, t, htext, hdata, hread, hshown⟩ := h m (by simp)
    obtain ⟨vs, ds, ts, htexts, hdatas, hreads, hshowns⟩ :=
      ih (fun m hm => h m (List.mem_cons_of_mem _ hm)) (i + 1)
    refine ⟨v :: vs, d :: ds, t :: ts, ?_, .cons hdata hdatas, readTrees_cons hread hreads,
      .cons hshown hshowns⟩
    rw [printMatches, htexts, List.map_cons, ← comma_joined, ← htext]

/-- The member that holds the pairs; a match without pairs has none. -/
theorem emits_read {m : Match} (h : ∀ emit ∈ m.emits, emit.Readable) : ∃ ps qs pairs,
    (if m.emits.length > 0 then ascii "," ++ printEmits m.emits 0 else []) =
      (ps.map memberText).flatMap (0x2C :: ·) ∧
      List.Forall₂ MemberIs ps qs ∧ List.Forall₂ EmitShown m.emits pairs ∧
      ∀ rest f, readFields rest = some f → f.emits = [] →
        readFields (qs ++ rest) = some { f with emits := pairs } := by
  by_cases hempty : m.emits = []
  · rw [hempty]
    refine ⟨[], [], [], rfl, .nil, .nil, fun rest f hf hno => ?_⟩
    rw [List.nil_append, hf, ← hno]
  · obtain ⟨ps, qs, pairs, htext, hps, hread, hshown⟩ := printPairs_read h 0
    refine ⟨[(nameOf "emit", compactObject ps)], [("emit".toList, .object qs)], pairs, ?_, ?_,
      hshown, fun rest f hf _ => ?_⟩
    · rw [if_pos (List.length_pos_iff.mpr hempty), printEmits, htext, List.map_singleton,
        List.flatMap_singleton, memberText, compactObject_text]
      rfl
    · exact .cons ⟨nameOf_decode _, compactObject_data hps⟩ .nil
    · rw [List.singleton_append, readFields_cons, hf, Option.bind_some, setField_emit _ _ hread]

/-- The member that holds the children; a match without children has none. -/
theorem children_read {m : Match}
    (h : ∀ c ∈ m.children, ∃ v d t, MatchRead c (printMatch formatScore c 0) v d t) :
    ∃ ps qs ts,
      (if m.children.length > 0 then
          ascii ",\"children\":[" ++ (printMatches formatScore m.children 0 ++ ascii "]")
        else []) = (ps.map memberText).flatMap (0x2C :: ·) ∧
      List.Forall₂ MemberIs ps qs ∧ List.Forall₂ Shown m.children ts ∧
      readFields qs = some { Fields.blank with children := ts } := by
  by_cases hempty : m.children = []
  · rw [hempty]
    exact ⟨[], [], [], rfl, .nil, .nil, rfl⟩
  · obtain ⟨vs, ds, ts, htext, hdata, hread, hshown⟩ := printMatches_read h 0
    have hchildren : readChildren (.array ds) = some ts := hread
    refine ⟨[(nameOf "children", compactArray vs)], [("children".toList, .array ds)], ts, ?_, ?_,
      hshown, ?_⟩
    · rw [if_pos (List.length_pos_iff.mpr hempty), htext, List.map_singleton,
        List.flatMap_singleton, memberText, compactArray_text]
      rfl
    · exact .cons ⟨nameOf_decode _, compactArray_data hdata⟩ .nil
    · rw [readFields_cons, hchildren, readFields, Option.bind_some, setField_children]

/-- A number without exponent and with four decimals is a multiple of 1/10000. -/
theorem four_decimals {n : Numeral} (hexp : n.exponent = none) (hfrac : n.frac.length = 4) :
    ∃ k : Int, n.value = k / 10000 := by
  have hpow : (10 : ℚ) ^ ((0 : Int) - 4) = 1 / 10000 := by norm_num
  refine ⟨(if n.minus then -1 else 1) * digitsValue (n.whole ++ n.frac), ?_⟩
  unfold Numeral.value
  rw [hexp, hfrac]
  change _ * (10 : ℚ) ^ ((0 : Int) - 4) = _
  rw [hpow]
  split
  · push_cast
    ring
  · push_cast
    ring

/-- By induction on the match: it is printed as an object, from which it can be read. -/
theorem printMatch_read (hprints : PrintsDecimals formatScore) {m : Match} (h : m.Readable) :
    ∃ v d t, MatchRead m (printMatch formatScore m 0) v d t := by
  induction h with
  | @intro m hid hspan hscore hemits _ ih =>
    obtain ⟨idgs, idcs, hidtext, hiddec, hidcs⟩ := printed_string hid
    obtain ⟨spangs, spancs, hspantext, hspandec, hspancs⟩ := printed_string hspan
    obtain ⟨n, hntext, hexp, hfrac, hnear⟩ := hprints m.score hscore
    obtain ⟨eps, eqs, pairs, hetext, heps, heshown, heread⟩ := emits_read hemits
    obtain ⟨cps, cqs, ts, hctext, hcps, hcshown, hcread⟩ := children_read ih
    have hrest := heread _ _ hcread rfl
    let ps := (nameOf "id", .string idgs) :: (nameOf "span", .string spangs) ::
      (nameOf "score", .number n) :: (eps ++ cps)
    let qs := ("id".toList, .string idcs) :: ("span".toList, .string spancs) ::
      ("score".toList, .number n.value) :: (eqs ++ cqs)
    have hmembers : List.Forall₂ MemberIs ps qs :=
      .cons ⟨nameOf_decode _, string_data hiddec⟩ (.cons ⟨nameOf_decode _, string_data hspandec⟩
        (.cons ⟨nameOf_decode _, rfl⟩ (List.rel_append heps hcps)))
    refine ⟨compactObject ps, .object qs, ⟨idcs, spancs, n.value, pairs, ts⟩, ?_,
      compactObject_data hmembers, ?_, ?_⟩
    · rw [compactObject_text, List.map_cons, List.map_cons, List.map_cons, List.map_append, commas,
        List.flatMap_cons, List.flatMap_cons, List.flatMap_append, ← hetext, ← hctext]
      cases m with
      | mk id span score emits children =>
        rw [printMatch, hidtext, hspantext, hntext]
        simp only [memberText, Value.text, List.append_assoc, List.cons_append]
        rfl
    · rw [readTree, readFields_cons, readFields_cons, readFields_cons, hrest, Option.bind_some,
        setField_score, Option.bind_some, setField_span, Option.bind_some, setField_id]
      rfl
    · exact .intro hidcs hspancs ⟨four_decimals hexp hfrac, hnear⟩ heshown hcshown

/-! ## Results -/

theorem readResult_eq (ok : Bool) {d : Data} {trees : List Tree} (h : readChildren d = some trees) :
    readResult (.object [("ok".toList, .bool ok), ("matches".toList, d)]) = some (ok, trees) := by
  change (readChildren d).map (ok, ·) = _
  rw [h, Option.map_some]

end Matches

theorem fixed4_prints : PrintsDecimals fixed4 :=
  fun score _ => ⟨fixed4Numeral score, rfl, rfl, rfl, fixed4_near score⟩

/-- A match with a pair and a child, with bytes that are escaped. -/
def nestedResult : ParseResult :=
  ⟨true, [⟨⟨ascii "light", by decide⟩, ⟨ascii "the \"light\"\n", by decide⟩, ⟨0x3F400000⟩,
    [⟨some ⟨ascii "k", by decide⟩, some ⟨ascii "\\", by decide⟩⟩],
    [⟨⟨ascii "on", by decide⟩, ⟨[0x01], by decide⟩, ⟨0xBF000000⟩, [], []⟩]⟩]⟩

theorem nestedResult_readable : ∀ m ∈ nestedResult.matches_, m.Readable := by
  intro m hm
  rw [List.mem_singleton.mp hm]
  refine .intro ⟨"light".toList, by decide⟩ ⟨"the \"light\"\n".toList, by decide⟩ (by decide) ?_ ?_
  · intro emit hemit
    rw [List.mem_singleton.mp hemit]
    exact ⟨⟨_, rfl, "k".toList, by decide⟩, _, rfl, "\\".toList, by decide⟩
  · intro c hc
    rw [List.mem_singleton.mp hc]
    refine .intro ⟨"on".toList, by decide⟩ ⟨[Char.ofNat 1], by decide⟩ (by decide) ?_ ?_
    · intro emit hemit
      cases hemit
    · intro c hc
      cases hc

end Ipa
