import Ipa.Lib.JsonText

/-!
# Compact values

Arrays and objects without white space, from the lists of their elements and members.
-/

namespace Ipa.JsonText

/-- Texts with a comma between each two. -/
def commas : List (List UInt8) → List UInt8
  | [] => []
  | a :: rest => a ++ rest.flatMap (0x2C :: ·)

theorem commas_cons_cons (a b : List UInt8) (rest : List (List UInt8)) :
    commas (a :: b :: rest) = a ++ 0x2C :: commas (b :: rest) := rfl

/-! ## Arrays -/

def compactElements (v : Value) : List Value → Elements
  | [] => .last Space.none v Space.none
  | w :: rest => .more Space.none v Space.none (compactElements w rest)

def compactArray : List Value → Value
  | [] => .emptyArray Space.none
  | v :: rest => .array (compactElements v rest)

theorem compactElements_text : ∀ (v : Value) (rest : List Value),
    (compactElements v rest).text = commas ((v :: rest).map Value.text)
  | v, [] => by simp [compactElements, Elements.text, Space.none, commas]
  | v, w :: rest => by
    rw [compactElements, Elements.text, compactElements_text w rest]
    rfl

theorem compactArray_text (vs : List Value) :
    (compactArray vs).text = 0x5B :: (commas (vs.map Value.text) ++ [0x5D]) := by
  cases vs with
  | nil => rfl
  | cons v rest => rw [compactArray, Value.text, compactElements_text]

theorem compactElements_data {d : Data} {ds : List Data} : ∀ {v : Value} {rest : List Value},
    v.data = some d → List.Forall₂ (fun v d => v.data = some d) rest ds →
      (compactElements v rest).data = some (d :: ds) := by
  intro v rest hv hrest
  induction hrest generalizing v d with
  | nil =>
    rw [compactElements, Elements.data, hv]
    rfl
  | cons hw _ ih => rw [compactElements, Elements.data, hv, ih hw]

theorem compactArray_data {vs : List Value} {ds : List Data}
    (h : List.Forall₂ (fun v d => v.data = some d) vs ds) :
    (compactArray vs).data = some (.array ds) := by
  cases h with
  | nil => rfl
  | cons hv hrest =>
    rw [compactArray, Value.data, compactElements_data hv hrest]
    rfl

/-! ## Objects -/

/-- The text of a member. -/
def memberText (p : List Glyph × Value) : List UInt8 := literal p.1 ++ 0x3A :: p.2.text

/-- A member denotes a name and the data of its value. -/
def MemberIs (p : List Glyph × Value) (q : List Char × Data) : Prop :=
  decode p.1 = some q.1 ∧ p.2.data = some q.2

def compactMembers (p : List Glyph × Value) : List (List Glyph × Value) → Members
  | [] => .last Space.none p.1 Space.none Space.none p.2 Space.none
  | q :: rest =>
    .more Space.none p.1 Space.none Space.none p.2 Space.none (compactMembers q rest)

def compactObject : List (List Glyph × Value) → Value
  | [] => .emptyObject Space.none
  | p :: rest => .object (compactMembers p rest)

theorem compactObject_isObject (ps : List (List Glyph × Value)) : (compactObject ps).IsObject := by
  cases ps <;> trivial

theorem compactMembers_text : ∀ (p : List Glyph × Value) (rest : List (List Glyph × Value)),
    (compactMembers p rest).text = commas ((p :: rest).map memberText)
  | p, [] => by simp [compactMembers, Members.text, Space.none, commas, memberText]
  | p, q :: rest => by
    rw [compactMembers, Members.text, compactMembers_text q rest]
    simp [Space.none, commas_cons_cons, memberText]

theorem compactObject_text (ps : List (List Glyph × Value)) :
    (compactObject ps).text = 0x7B :: (commas (ps.map memberText) ++ [0x7D]) := by
  cases ps with
  | nil => rfl
  | cons p rest => rw [compactObject, Value.text, compactMembers_text]

theorem compactMembers_data {q : List Char × Data} {qs : List (List Char × Data)} :
    ∀ {p : List Glyph × Value} {rest : List (List Glyph × Value)},
      MemberIs p q → List.Forall₂ MemberIs rest qs →
        (compactMembers p rest).data = some (q :: qs) := by
  intro p rest hp hrest
  induction hrest generalizing p q with
  | nil => rw [compactMembers, Members.data, hp.1, hp.2]
  | cons hq _ ih => rw [compactMembers, Members.data, hp.1, hp.2, ih hq]

theorem compactObject_data {ps : List (List Glyph × Value)} {qs : List (List Char × Data)}
    (h : List.Forall₂ MemberIs ps qs) : (compactObject ps).data = some (.object qs) := by
  cases h with
  | nil => rfl
  | cons hp hrest =>
    rw [compactObject, Value.data, compactMembers_data hp hrest]
    rfl

end Ipa.JsonText
