import Ipa.Manifest.Reads
import Ipa.Lib.Ieee

/-!
# What the manifest parser accepts

The parser follows the grammar of JSON but is lenient with its tokens: `isspace` and `strtod` know
more spaces and numbers than JSON does, strings may contain any byte, and nothing is looked at behind
the last brace. An accepted text is a JSON object exactly when its tokens are those of JSON.
-/

namespace Ipa

open Run JsonText

namespace Json

/-- An object without its opening brace. -/
def ObjectRest (t : List UInt8) : Prop := ∃ v : Value, v.IsObject ∧ v.text = 0x7B :: t

variable [Arith]

/-- The parser reads an opening brace and the rest of an object. -/
theorem parseManifest_reads (j : Json) :
    Keeps (fun _ => True) Reported (parseManifest j) fun r =>
      ∃ j₂, j.skipWs.peek = some 0x7B ∧ j₂ = j.skipWs.advance 1 ∧
        Reads 1 1 0 ObjectRest j₂ r.1 := by
  unfold parseManifest expect
  dsimp only
  by_cases hpeek : j.skipWs.peek = some 0x7B
  · rw [if_pos hpeek, pure_bind]
    generalize hj₂ : j.skipWs.advance 1 = j₂
    split
    · rename_i hclose
      refine Keeps.pure ⟨j₂, hpeek, rfl, ?_⟩
      refine (skip_then_reads (braces.closes 0) hclose).mono ?_
      rintro t ⟨b, rfl⟩
      exact ⟨.emptyObject b, trivial, rfl⟩
    · have hskip := (skipWs_reads 1 j₂).shorter
      refine Keeps.bind (manifestMembers_reads 1 _ _ _ (by unfold fuel; omega)) fun r hinner => ?_
      refine Keeps.bind (expect_reads (braces.closes 0) r.1) fun j₄ hclose => ?_
      refine Keeps.pure ⟨j₂, hpeek, rfl, ?_⟩
      obtain ⟨t, ht, hrest, hj₄, hclean⟩ := (skipWs_reads 1 j₂).then (hinner.then hclose)
      refine ⟨t, by omega, hrest, hj₄, fun d hd => ?_⟩
      obtain ⟨⟨w, _, rfl, hw, b, e, rfl, hb, s, rfl⟩, hend⟩ := hclean d hd
      obtain ⟨_, hwb⟩ : MembersText (w ++ b) := braces.behind hw hb
      obtain ⟨members, hmembers⟩ := MembersText.blank s.white _
      refine ⟨⟨.object members, trivial, ?_⟩, hend⟩
      rw [Value.text, ← hmembers, ← hwb]
      simp only [List.append_assoc]
  · rw [if_neg hpeek]
    exact Keeps.fail trivial

omit [Arith] in
/-- Only white space is clean outside of all brackets. -/
theorem blank_of_clean : ∀ {s : List UInt8}, Clean 0 s → Blank s
  | [], _ => fun _ hc => (by cases hc)
  | c :: s, h => by
    generalize hd : 0 = d at h
    generalize hs : c :: s = cs at h
    cases h with
    | white h more =>
      cases hs
      cases hd
      intro x hx
      rcases List.mem_cons.mp hx with rfl | hx
      · exact h
      · exact blank_of_clean more x hx
    | done => cases hs
    | _ => cases hd

end Json

open Json

/-- **Accepted texts**: a text that the parser accepts is one JSON object between white space exactly
when it consists of tokens of JSON, with nothing but white space outside of its brackets. -/
theorem parseManifest_json_iff [Arith] {text : List UInt8} {j : Json} {m : Manifest} {e e' : Env}
    (hparse : (parseManifest ⟨text, 0⟩).exec e = (.ok (j, m), e')) :
    (∃ t : Text, t.value.IsObject ∧ t.bytes = text) ↔ CleanText text := by
  constructor
  · rintro ⟨t, hobject, rfl⟩
    exact t.clean hobject
  · rintro ⟨b, rest, htext, hclean⟩
    obtain ⟨⟨j₂, hpeek, hj₂, t, -, hrest, -, hread⟩, -⟩ :=
      (parseManifest_reads ⟨text, 0⟩).value trivial hparse
    have hsplit : (⟨text, 0⟩ : Json).rest = b.bytes ++ 0x7B :: rest := htext
    have hskip : (⟨text, 0⟩ : Json).skipWs = (⟨text, 0⟩ : Json).advance b.bytes.length :=
      skipWs_behind hsplit (fun c hc => isspace_of_isWs (b.white c hc)) (solid_cons rfl)
    have hrest₂ : j₂.rest = rest := by
      rw [hj₂, hskip, rest_advance, rest_behind hsplit]
      rfl
    obtain ⟨⟨v, hobject, hv⟩, hend⟩ := hread 0 (by rw [hrest₂]; exact hclean)
    refine ⟨⟨b, v, ⟨j.rest, blank_of_clean hend⟩⟩, hobject, ?_⟩
    rw [htext, ← hrest₂, hrest, Text.bytes, hv]
    rfl

/-- `{"schema": "ipa.map.v1", "defaults": {"max_ngram": 3}, "nodes": [{"id": "P",
"descriptions": ["p", "a\"b"], "children": [{"id": "c"}]}], "other": [1, -2.5, [true, null]]}`. -/
def nestedText : List UInt8 := ascii ("\x7b\"schema\": \"ipa.map.v1\", \"defaults\": " ++
  "\x7b\"max_ngram\": 3\x7d, \"nodes\": [\x7b\"id\": \"P\", \"descriptions\": [\"p\", \"a\\\"b\"], " ++
  "\"children\": [\x7b\"id\": \"c\"\x7d]\x7d], \"other\": [1, -2.5, [true, null]]\x7d")

theorem parseManifest_json_iff_nested : ∃ j m e',
    (@parseManifest ieee ⟨nestedText, 0⟩).exec ⟨[], []⟩ = (.ok (j, m), e') ∧
      m.maxNgram = 3 ∧ m.nodes.map (fun nd => (nd.descriptions.length, nd.children.length)) =
        [(2, 1)] ∧
      ((∃ t : Text, t.value.IsObject ∧ t.bytes = nestedText) ↔ CleanText nestedText) := by
  obtain ⟨r, e', hparse, hshape⟩ := exec_of_value? (x := @parseManifest ieee ⟨nestedText, 0⟩)
    (e := ⟨[], []⟩) (q := fun r => decide (r.2.maxNgram = 3 ∧
      r.2.nodes.map (fun nd => (nd.descriptions.length, nd.children.length)) = [(2, 1)]))
    (by decide +kernel)
  obtain ⟨hmax, hnodes⟩ := of_decide_eq_true hshape
  exact ⟨r.1, r.2, e', hparse, hmax, hnodes, @parseManifest_json_iff ieee _ _ _ _ _ hparse⟩

/-- A text with something behind its last brace. -/
theorem parseManifest_trailing : ∃ j m e',
    (@parseManifest ieee ⟨ascii "\x7b\x7dx", 0⟩).exec ⟨[], []⟩ = (.ok (j, m), e') ∧
      ¬ ∃ t : Text, t.value.IsObject ∧ t.bytes = ascii "\x7b\x7dx" := by
  obtain ⟨r, e', hparse, -⟩ := exec_of_value? (x := @parseManifest ieee ⟨ascii "\x7b\x7dx", 0⟩)
    (e := ⟨[], []⟩) (q := fun _ => true) (by decide +kernel)
  refine ⟨r.1, r.2, e', hparse, ?_⟩
  rintro ⟨t, hobject, htext⟩
  obtain ⟨b, rest, hsplit, hclean⟩ := t.clean hobject
  rw [htext] at hsplit
  obtain ⟨bytes, white⟩ := b
  cases bytes with
  | nil =>
    cases hsplit
    have hend : Clean 0 [0x78] := Clean.closing_inv (.inl rfl) hclean
    exact absurd (blank_of_clean hend 0x78 List.mem_cons_self) (by decide)
  | cons c bytes =>
    injection hsplit with hc
    exact absurd (white c List.mem_cons_self) (by rw [← hc]; decide)

end Ipa
