import Ipa.Manifest.Takes
import Ipa.Lib.Ieee

/-!
# Every rendering is read back

On a rendering of a manifest the parser succeeds and returns the manifest. The loops over members are
one loop with the value parser as a parameter; a member that was read overwrites the field that it
names, and all fields are filled when the closing brace is reached.
-/

namespace Ipa

open Run JsonText

namespace Json

section Loops

variable {I : Env → Prop} {X : Stop JsonError → Prop} [Serves I X JsonError.silent]

theorem growArray_keeps (n cap start : Nat) : Keeps I X (growArray n cap start) fun _ => True := by
  unfold growArray
  split
  · exact Keeps.bind Keeps.allocOr fun _ _ => Keeps.pure trivial
  · exact Keeps.pure trivial

/-! ## Lists -/

omit [Serves I X JsonError.silent] in
/-- One pass of a loop over items: `body` reads an item and grows the array. -/
theorem listed_take {α : Type} {Item : α → List UInt8 → Prop} {c : UInt8} {xs : List α}
    {t s : List UInt8} {j : Json} {arr : List α}
    {loop : Json → List α → Nat → Run JsonError (Json × List α)}
    (body : (Nat → Json × α → Run JsonError (Json × List α)) → Run JsonError (Json × List α))
    (hc : c = 0x5D ∨ c = 0x7D) (h : Listed Item xs t) (hrest : j.rest = t ++ c :: s)
    (hbody : ∀ (before : Gap) x t s f Q, Item x t → j.rest = before.bytes ++ (t ++ s) →
      (∀ cap, Keeps I X (f cap (j.past (before.bytes ++ t), x)) Q) → Keeps I X (body f) Q)
    (hloop : ∀ xs t j' arr cap, Listed Item xs t → j'.rest = t ++ c :: s →
      j'.rest.length + 1 ≤ j.rest.length → Keeps I X (loop j' arr cap) (· = (j'.past t, arr ++ xs))) :
    Keeps I X (body fun cap r =>
      if r.1.skipWs.peek = some 0x2C then loop (r.1.skipWs.advance 1) (arr ++ [r.2]) cap
      else pure (r.1.skipWs, arr ++ [r.2])) (· = (j.past t, arr ++ xs)) := by
  cases h with
  | last before after item =>
    rw [List.append_assoc, List.append_assoc] at hrest
    refine hbody before _ _ _ _ _ item hrest fun cap => ?_
    obtain ⟨hskip, hpeek⟩ := close_behind after (rest_past_append hrest) hc
    dsimp only
    rw [hskip, if_neg hpeek, past_past, List.append_assoc]
    exact Keeps.pure rfl
  | more before after item rest =>
    rename_i x xs t ts
    rw [List.append_assoc, List.append_assoc, List.append_assoc, List.cons_append] at hrest
    refine hbody before x t _ _ _ item hrest fun cap => ?_
    have hitem := rest_past_append hrest
    obtain ⟨hskip, hpeek⟩ := comma_behind after hitem
    have hmore := rest_past_append (s := ts ++ c :: s) (b := [0x2C]) hitem
    have hshort := congrArg List.length hrest
    simp only [List.length_append, List.length_cons] at hshort
    dsimp only
    rw [hskip, if_pos hpeek, past_advance]
    refine (hloop xs ts _ _ cap rest hmore ?_).mono ?_
    · rw [hmore, List.length_append, List.length_cons]
      omega
    · rintro _ rfl
      simp

/-! ## Strings and emits -/

theorem starts_spells (str : CStr) (t : List UInt8) (h : Spells str t) : Starts t := by
  obtain ⟨v, -, rfl⟩ := h
  exact starts_quoted v.pieces

theorem value_ofBuffer (v : Spelling) :
    CStr.ofBuffer (v.pieces.map Piece.byte) = v.value :=
  CStr.ofBuffer_bytes v.value

theorem parseString_take {j : Json} {str : CStr} {t s : List UInt8} (b : Gap) (h : Spells str t)
    (hrest : j.rest = b.bytes ++ (t ++ s)) :
    Keeps I X (parseString j) (· = (j.past (b.bytes ++ t), str)) := by
  obtain ⟨v, rfl, rfl⟩ := h
  rw [← value_ofBuffer]
  exact quoted_keeps b v.pieces hrest

/-- The same behind white space that was skipped. -/
theorem parseString_skipped {j : Json} {str : CStr} {t s : List UInt8} (b : Gap) (h : Spells str t)
    (hrest : j.rest = b.bytes ++ (t ++ s)) :
    Keeps I X (parseString j.skipWs) (· = (j.past (b.bytes ++ t), str)) := by
  rw [skipWs_past b hrest ((starts_spells str t h).solid s), ← past_past]
  exact parseString_take .none h (rest_past hrest)

theorem stringArrayLoop_take (fuel : Nat) {strs : List CStr} {t : List UInt8} (j : Json)
    (s : List UInt8) (arr : List CStr) (cap : Nat) (h : Listed Spells strs t)
    (hrest : j.rest = t ++ 0x5D :: s) (hfuel : 3 * j.rest.length + 1 ≤ fuel) :
    Keeps I X (stringArrayLoop fuel j arr cap) (· = (j.past t, arr ++ strs)) := by
  induction fuel generalizing strs t j arr cap with
  | zero => omega
  | succ fuel ih =>
    apply listed_take (fun f => do
      let r ← j.skipWs.parseString
      let cap ← growArray arr.length cap 8
      f cap r) (.inl rfl) h hrest
    · intro before x t s f Q item hrest hf
      refine Keeps.bind (parseString_skipped before item hrest) ?_
      rintro _ rfl
      exact Keeps.bind (growArray_keeps _ _ _) fun cap _ => hf cap
    · intro strs t j' arr cap hlisted hrest' hlen
      exact ih j' arr cap hlisted hrest' (by omega)

theorem parseStringArray_take {j : Json} {strs : List CStr} {t s : List UInt8}
    (h : Bracketed 0x5B 0x5D Spells strs t) (hrest : j.rest = t ++ s) :
    Keeps I X (parseStringArray j) (· = (j.past t, strs)) := by
  unfold parseStringArray
  refine encloses_keeps (f := fun j => stringArrayLoop j.fuel j [] 0) .none (h.encloses starts_spells) rfl
    (.inl rfl) hrest fun t' j' _ hitems hinner _ => ?_
  exact stringArrayLoop_take _ j' s [] 0 hitems hinner (by unfold fuel; omega)

theorem starts_emit (emit : EmitDef) (t : List UInt8) (h : EmitText emit t) : Starts t := by
  obtain ⟨key, val, mid, mid', -, rfl⟩ := h
  exact (starts_quoted key.pieces).append _

/-- A pair is a name, a colon and a string. -/
theorem pair_keeps {α : Type} {Q : α → Prop} {before mid mid' : Gap} {key val : Spelling} {j : Json}
    {s : List UInt8} {f : Json × CStr → Json × CStr → Run JsonError α}
    (hrest : j.rest = before.bytes ++
      ((key.text ++ (mid.bytes ++ 0x3A :: (mid'.bytes ++ val.text))) ++ s))
    (hf : ∀ j₁, Keeps I X (f (j₁, key.value) (j.past (before.bytes ++ (key.text ++ (mid.bytes ++
      0x3A :: (mid'.bytes ++ val.text)))), val.value)) Q) :
    Keeps I X (do
      let r ← j.parseString
      let j₂ ← r.1.expect 0x3A
      let r' ← j₂.parseString
      f r r') Q := by
  simp only [List.append_assoc, List.cons_append] at hrest
  refine name_keeps before mid key.pieces hrest fun j₁ => ?_
  have hname : j.rest = (before.bytes ++ (quoted key.pieces ++ (mid.bytes ++ [0x3A]))) ++
      (mid'.bytes ++ (val.text ++ s)) := by
    rw [hrest]
    simp [Spelling.text]
  refine Keeps.bind (parseString_take mid' ⟨val, rfl, rfl⟩ (rest_past hname)) ?_
  rintro _ rfl
  rw [value_ofBuffer, past_past]
  simpa [Spelling.text] using hf j₁

theorem emitLoop_take (fuel : Nat) {emits : List EmitDef} {t : List UInt8} (j : Json)
    (s : List UInt8) (arr : List EmitDef) (cap : Nat) (h : Listed EmitText emits t)
    (hrest : j.rest = t ++ 0x7D :: s) (hfuel : 3 * j.rest.length + 1 ≤ fuel) :
    Keeps I X (emitLoop fuel j arr cap) (· = (j.past t, arr ++ emits)) := by
  induction fuel generalizing emits t j arr cap with
  | zero => omega
  | succ fuel ih =>
    apply listed_take (fun f => do
      let r ← j.parseString
      let j₂ ← r.1.expect 0x3A
      let r' ← j₂.parseString
      let cap ← growArray arr.length cap 4
      f cap (r'.1, ⟨some r.2, some r'.2⟩)) (.inr rfl) h hrest
    · intro before x t s f Q item hrest hf
      obtain ⟨key, val, mid, mid', rfl, rfl⟩ := item
      exact pair_keeps hrest fun j₁ => Keeps.bind (growArray_keeps _ _ _) fun cap _ => hf cap
    · intro emits t j' arr cap hlisted hrest' hlen
      exact ih j' arr cap hlisted hrest' (by omega)

theorem parseEmitObject_take {j : Json} {emits : List EmitDef} {t s : List UInt8}
    (h : Bracketed 0x7B 0x7D EmitText emits t) (hrest : j.rest = t ++ s) :
    Keeps I X (parseEmitObject j) (· = (j.past t, emits)) := by
  unfold parseEmitObject
  refine encloses_keeps (f := fun j => emitLoop j.fuel j [] 0) .none (h.encloses starts_emit) rfl
    (.inr rfl) hrest fun t' j' _ hitems hinner _ => ?_
  exact emitLoop_take _ j' s [] 0 hitems hinner (by unfold fuel; omega)

/-! ## Members -/

section Members

variable {σ : Type} {Field : σ → List UInt8 → List UInt8 → Prop} {x : σ}
variable {mix : List (List UInt8) → σ → σ} {Good : σ → Prop}

/-- What a loop over the members of an object for `x` makes of an accumulator: `mix names` takes the
fields that are named from `x`. -/
structure Overlay (Field : σ → List UInt8 → List UInt8 → Prop) (x : σ)
    (mix : List (List UInt8) → σ → σ) (Good : σ → Prop) : Prop where
  cons : ∀ name names acc, mix names (mix [name] acc) = mix (name :: names) acc
  good : ∀ name acc, Good acc → Good (mix [name] acc)
  starts : ∀ name t, Field x name t → Starts t

/-- A member: its name, a colon and its value. -/
theorem field_keeps (hmix : Overlay Field x mix Good) {name : Spelling} {before mid mid' : Gap}
    {t s : List UInt8} {j : Json} {acc : σ}
    {value : List UInt8 → Json → σ → Run JsonError (Json × σ)} {β : Type} {Q : β → Prop}
    {f : Json × σ → Run JsonError β} (hfield : Field x name.value.bytes t)
    (hrest : j.rest = before.bytes ++ (name.text ++ (mid.bytes ++ 0x3A :: (mid'.bytes ++ (t ++ s)))))
    (hs : Stops s)
    (hvalue : ∀ name t s j', j'.src = j.src → Field x name t → j'.rest = t ++ s → Stops s →
      j'.rest.length + 3 ≤ j.rest.length →
        Keeps I X (value name j' acc) (· = (j'.past t, mix [name] acc)))
    (hf : Keeps I X (f (j.past (before.bytes ++ (name.text ++ (mid.bytes ++
      0x3A :: (mid'.bytes ++ t)))), mix [name.value.bytes] acc)) Q) :
    Keeps I X (do
      let r ← j.parseString
      let j₂ ← r.1.expect 0x3A
      let r' ← value r.2.bytes j₂.skipWs acc
      f r') Q := by
  refine name_keeps before mid name.pieces hrest fun j₁ => ?_
  have hname : j.rest = (before.bytes ++ (quoted name.pieces ++ (mid.bytes ++ [0x3A]))) ++
      (mid'.bytes ++ (t ++ s)) := by
    rw [hrest]
    simp [Spelling.text]
  have hlen := length_past (rest_past hname)
  have hshort := length_past hname
  simp only [List.length_append, length_quoted, List.length_singleton] at hshort
  rw [skipWs_past mid' (rest_past hname) ((hmix.starts _ _ hfield).solid s), value_ofBuffer]
  refine Keeps.bind (hvalue _ t _ _ rfl hfield (rest_past (rest_past hname)) hs (by omega)) ?_
  rintro _ rfl
  simpa [Spelling.text] using hf

/-- One pass of the loop. -/
theorem fields_take (hmix : Overlay Field x mix Good) {names : List (List UInt8)} {t s : List UInt8}
    {j : Json} {acc : σ} {value : List UInt8 → Json → σ → Run JsonError (Json × σ)}
    {loop : Json → σ → Run JsonError (Json × σ)} (h : Fields Field x names t) (hacc : Good acc)
    (hrest : j.rest = t ++ 0x7D :: s)
    (hvalue : ∀ name t s j', j'.src = j.src → Field x name t → j'.rest = t ++ s → Stops s →
      j'.rest.length + 3 ≤ j.rest.length →
        Keeps I X (value name j' acc) (· = (j'.past t, mix [name] acc)))
    (hloop : ∀ names t j' acc, Fields Field x names t → Good acc → j'.rest = t ++ 0x7D :: s →
      j'.src = j.src → j'.rest.length + 3 ≤ j.rest.length →
        Keeps I X (loop j' acc) (· = (j'.past t, mix names acc))) :
    Keeps I X (do
      let r ← j.parseString
      let j₂ ← r.1.expect 0x3A
      let r' ← value r.2.bytes j₂.skipWs acc
      if r'.1.skipWs.peek = some 0x2C then loop (r'.1.skipWs.advance 1) r'.2
      else pure (r'.1.skipWs, r'.2)) (· = (j.past t, mix names acc)) := by
  cases h with
  | last before mid mid' after name hfield =>
    simp only [List.append_assoc, List.cons_append] at hrest
    refine field_keeps hmix hfield hrest (stops_gap _ (stops_cons (.inr (.inr rfl)))) hvalue ?_
    rename_i t
    have hitem : (j.past (before.bytes ++ (name.text ++ (mid.bytes ++
        0x3A :: (mid'.bytes ++ t))))).rest = after.bytes ++ 0x7D :: s :=
      rest_past (by rw [hrest]; simp)
    obtain ⟨hskip, hpeek⟩ := close_behind after hitem (.inr rfl)
    dsimp only
    rw [hskip, if_neg hpeek]
    refine Keeps.pure ?_
    simp
  | more before mid mid' after name hfield rest fresh =>
    rename_i t ts names
    simp only [List.append_assoc, List.cons_append] at hrest
    refine field_keeps hmix hfield hrest (stops_gap _ (stops_cons (.inl rfl))) hvalue ?_
    have hitem : (j.past (before.bytes ++ (name.text ++ (mid.bytes ++
        0x3A :: (mid'.bytes ++ t))))).rest = after.bytes ++ 0x2C :: (ts ++ 0x7D :: s) :=
      rest_past (by rw [hrest]; simp)
    obtain ⟨hskip, hpeek⟩ := comma_behind after hitem
    have hmore := rest_past_append (s := ts ++ 0x7D :: s) (b := [0x2C]) hitem
    have hshort := congrArg List.length hrest
    simp only [Spelling.text, List.length_append, List.length_cons, length_quoted] at hshort
    dsimp only
    rw [hskip, if_pos hpeek, past_advance]
    refine (hloop names ts _ _ rest (hmix.good _ _ hacc) hmore rfl ?_).mono ?_
    · rw [hmore, List.length_append, List.length_cons]
      omega
    · rintro _ rfl
      rw [hmix.cons]
      simp

end Members

/-! ## Nodes -/

theorem ite_mem_cons {β : Type} (a name : List UInt8) (names : List (List UInt8)) (x y : β) :
    (if a ∈ names then x else if a ∈ [name] then x else y) = if a ∈ name :: names then x else y := by
  by_cases hnames : a ∈ names
  · rw [if_pos hnames, if_pos (List.mem_cons_of_mem _ hnames)]
  · by_cases hname : a = name
    · rw [if_neg hnames, hname, if_pos List.mem_cons_self, if_pos List.mem_cons_self]
    · rw [if_neg hnames, if_neg (by simpa using hname), if_neg (by simp [hnames, hname])]

def mixNode (nd : NodeDef) (names : List (List UInt8)) (acc : NodeDef) : NodeDef where
  id := if ascii "id" ∈ names then nd.id else acc.id
  descriptions := if ascii "descriptions" ∈ names then nd.descriptions else acc.descriptions
  emits := if ascii "emit" ∈ names then nd.emits else acc.emits
  children := if ascii "children" ∈ names then nd.children else acc.children

theorem mixNode_absent {nd : NodeDef} {names : List (List UInt8)} (h : NodeAbsent nd names) :
    mixNode nd names {} = nd := by
  obtain ⟨id, descriptions, emits, children⟩ := nd
  obtain ⟨hid, hdescriptions, hemits, hchildren⟩ := h
  simp only at hid hdescriptions hemits hchildren
  unfold mixNode
  congr 1
  · split
    · rfl
    · exact (hid ‹_›).symm
  · split
    · rfl
    · exact (hdescriptions ‹_›).symm
  · split
    · rfl
    · exact (hemits ‹_›).symm
  · split
    · rfl
    · exact (hchildren ‹_›).symm

theorem starts_bracketed {α : Type} {o c : UInt8} {Item : α → List UInt8 → Prop} {xs : List α}
    {t : List UInt8} (ho : isspace o = false ∧ o ≠ 0x5D ∧ o ≠ 0x7D) (h : Bracketed o c Item xs t) :
    Starts t := by
  cases h with
  | empty gap => exact ⟨o, _, rfl, ho⟩
  | full items => exact ⟨o, _, rfl, ho⟩

theorem starts_object {σ : Type} {Field : σ → List UInt8 → List UInt8 → Prop}
    {Absent : σ → List (List UInt8) → Prop} (x : σ) (t : List UInt8)
    (h : ObjectText Field Absent x t) : Starts t := by
  cases h with
  | empty gap absent => exact ⟨0x7B, _, rfl, by decide⟩
  | full members absent => exact ⟨0x7B, _, rfl, by decide⟩

theorem overlay_node (nd : NodeDef) : Overlay NodeField nd (mixNode nd) fun _ => True where
  cons name names acc := by
    unfold mixNode
    simp only [ite_mem_cons]
  good _ _ _ := trivial
  starts name t h := by
    cases h with
    | id heq h => exact starts_spells _ t h
    | descriptions heq h => exact starts_bracketed (by decide) h
    | emit h => exact starts_bracketed (by decide) h
    | children h => exact starts_bracketed (by decide) h
    | unknown hname v => exact starts_value v

/-- The value of a member of a node. -/
def nodeValue (fuel : Nat) (key : List UInt8) (j : Json) (nd : NodeDef) :
    Run JsonError (Json × NodeDef) :=
  if key = ascii "id" then do
    let (j, id) ← j.parseString
    pure (j, { nd with id := some id })
  else if key = ascii "descriptions" then do
    let (j, descriptions) ← j.parseStringArray
    pure (j, { nd with descriptions := descriptions.map some })
  else if key = ascii "emit" then do
    let (j, emits) ← j.parseEmitObject
    pure (j, { nd with emits })
  else if key = ascii "children" then do
    let (j, children) ← parseNodeArray fuel j
    pure (j, { nd with children })
  else do
    let j ← skipValue j.fuel j
    pure (j, nd)

theorem nodeMembers_eq (fuel : Nat) (j : Json) (nd : NodeDef) :
    nodeMembers (fuel + 1) j nd = (do
      let r ← j.parseString
      let j₂ ← r.1.expect 0x3A
      let r' ← nodeValue fuel r.2.bytes j₂.skipWs nd
      if r'.1.skipWs.peek = some 0x2C then nodeMembers fuel (r'.1.skipWs.advance 1) r'.2
      else pure (r'.1.skipWs, r'.2)) := by
  rw [nodeMembers]
  refine bind_congr fun ⟨j₁, key⟩ => bind_congr fun j₂ => ?_
  unfold nodeValue
  dsimp only
  split
  · simp only [bind_assoc, pure_bind]
  split
  · simp only [bind_assoc, pure_bind]
  split
  · simp only [bind_assoc, pure_bind]
  split
  · simp only [bind_assoc, pure_bind]
  · simp only [bind_assoc, pure_bind]

/-- The parsers of nodes, at one fuel. -/
structure NodesTake (I : Env → Prop) (X : Stop JsonError → Prop) (fuel : Nat) : Prop where
  array : ∀ {nds : List NodeDef} {t s : List UInt8} {j : Json},
    Bracketed 0x5B 0x5D NodeText nds t → j.rest = t ++ s → 3 * j.rest.length + 1 ≤ fuel →
      Keeps I X (parseNodeArray fuel j) (· = (j.past t, nds))
  loop : ∀ {nds : List NodeDef} {t s : List UInt8} {j : Json} (arr : List NodeDef) (cap : Nat),
    Listed NodeText nds t → j.rest = t ++ 0x5D :: s → 3 * j.rest.length + 2 ≤ fuel →
      Keeps I X (nodeArrayLoop fuel j arr cap) (· = (j.past t, arr ++ nds))
  node : ∀ {nd : NodeDef} {t s : List UInt8} {j : Json}, NodeText nd t → j.rest = t ++ s →
    3 * j.rest.length + 1 ≤ fuel → Keeps I X (parseNode fuel j) (· = (j.past t, nd))
  members : ∀ {nd : NodeDef} {names : List (List UInt8)} {t s : List UInt8} {j : Json}
    (acc : NodeDef), Fields NodeField nd names t → j.rest = t ++ 0x7D :: s →
      3 * j.rest.length + 1 ≤ fuel →
        Keeps I X (nodeMembers fuel j acc) (· = (j.past t, mixNode nd names acc))

theorem nodeValue_take {fuel : Nat} {nd acc : NodeDef} {name t s : List UInt8} {j : Json}
    (h : NodeField nd name t) (hrest : j.rest = t ++ s) (hs : Stops s)
    (harray : ∀ {t' : List UInt8}, Bracketed 0x5B 0x5D NodeText nd.children t' →
      j.rest = t' ++ s → Keeps I X (parseNodeArray fuel j) (· = (j.past t', nd.children))) :
    Keeps I X (nodeValue fuel name j acc) (· = (j.past t, mixNode nd [name] acc)) := by
  unfold nodeValue
  cases h with
  | id heq h =>
    rw [if_pos rfl]
    refine Keeps.bind (parseString_take .none h hrest) ?_
    rintro _ rfl
    refine Keeps.pure ?_
    rw [mixNode, heq]
    rfl
  | descriptions heq h =>
    rw [if_neg (by decide), if_pos rfl]
    refine Keeps.bind (parseStringArray_take h hrest) ?_
    rintro _ rfl
    refine Keeps.pure ?_
    rw [mixNode, heq]
    rfl
  | emit h =>
    rw [if_neg (by decide), if_neg (by decide), if_pos rfl]
    refine Keeps.bind (parseEmitObject_take h hrest) ?_
    rintro _ rfl
    exact Keeps.pure rfl
  | children h =>
    rw [if_neg (by decide), if_neg (by decide), if_neg (by decide), if_pos rfl]
    refine Keeps.bind (harray h hrest) ?_
    rintro _ rfl
    exact Keeps.pure rfl
  | unknown hname v =>
    have hne : ∀ known ∈ nodeNames, name ≠ known := fun known hknown heq => hname (heq ▸ hknown)
    have hmix : mixNode nd [name] acc = acc := by
      have hnot : ∀ known ∈ nodeNames, known ∉ [name] := fun known hknown hmem =>
        hne known hknown (List.mem_singleton.mp hmem).symm
      unfold mixNode
      rw [if_neg (hnot _ (by decide)), if_neg (hnot _ (by decide)), if_neg (hnot _ (by decide)),
        if_neg (hnot _ (by decide))]
      cases acc
      rfl
    rw [if_neg (hne _ (by decide)), if_neg (hne _ (by decide)), if_neg (hne _ (by decide)),
      if_neg (hne _ (by decide)), hmix]
    refine Keeps.bind (skipValue_take .none v hrest hs) ?_
    rintro _ rfl
    exact Keeps.pure rfl

theorem nodesTake : ∀ fuel, NodesTake I X fuel
  | 0 => ⟨fun _ _ h => absurd h (by omega), fun _ _ _ _ h => absurd h (by omega),
      fun _ _ h => absurd h (by omega), fun _ _ _ h => absurd h (by omega)⟩
  | fuel + 1 => by
    have ih := nodesTake fuel
    constructor
    · intro nds t s j h hrest hfuel
      unfold parseNodeArray
      refine encloses_keeps (f := fun j => nodeArrayLoop fuel j [] 0) .none (h.encloses starts_object) rfl
        (.inl rfl) hrest fun t' j' _ hitems hinner hlen => ?_
      exact ih.loop [] 0 hitems hinner (by omega)
    · intro nds t s j arr cap h hrest hfuel
      apply listed_take (fun f => do
        let cap ← growArray arr.length cap 8
        let r ← parseNode fuel j.skipWs
        f cap r) (.inl rfl) h hrest
      · intro before nd t s f Q item hrest hf
        refine Keeps.bind (growArray_keeps _ _ _) fun cap _ => ?_
        have hlen := length_past hrest
        rw [skipWs_past before hrest ((starts_object _ _ item).solid _)]
        refine Keeps.bind (ih.node item (rest_past hrest) (by omega)) ?_
        rintro _ rfl
        rw [past_past]
        exact hf cap
      · intro nds t j' arr cap hlisted hrest' hlen
        exact ih.loop arr cap hlisted hrest' (by omega)
    · intro nd t s j h hrest hfuel
      unfold parseNode
      have hempty : NodeAbsent nd [] → {} = nd := fun habsent => (mixNode_absent habsent)
      refine encloses_keeps (f := fun j => nodeMembers fuel j {}) .none
        (ObjectText.encloses hempty h) rfl (.inr rfl) hrest fun t' j' _ hinner hrest' hlen => ?_
      obtain ⟨names, hfields, habsent⟩ := hinner
      rw [← mixNode_absent habsent]
      exact ih.members {} hfields hrest' (by omega)
    · intro nd names t s j acc h hrest hfuel
      rw [nodeMembers_eq]
      refine fields_take (overlay_node nd) h trivial hrest ?_ ?_
      · intro name t' s' j' _ hfield hrest' hs hlen
        exact nodeValue_take hfield hrest' hs fun harray hrest'' =>
          ih.array harray hrest'' (by omega)
      · intro names' t' j' acc' hfields _ hrest' _ hlen
        exact ih.members acc' hfields hrest' (by omega)

theorem parseNodeArray_take {nds : List NodeDef} {t s : List UInt8} {j : Json}
    (h : Bracketed 0x5B 0x5D NodeText nds t) (hrest : j.rest = t ++ s) :
    Keeps I X (parseNodeArray j.fuel j) (· = (j.past t, nds)) :=
  (nodesTake j.fuel).array h hrest (by
    change _ ≤ 3 * j.rest.length + 3
    omega)

/-! ## The manifest -/

section Manifest

variable [Arith]

/-- `strtod` and the conversion to `int` read the integers in a text exactly. -/
def ReadsInts (text : List UInt8) : Prop :=
  ∀ (n : Numeral) (k : Int32), n.text <:+: text → n.value = k.toInt →
    toInt (Arith.ofText n.text) = k

omit [Serves I X JsonError.silent] in
theorem parseDouble_take {n : Numeral} {s : List UInt8} {j : Json} (hrest : j.rest = n.text ++ s)
    (hs : Stops s) :
    Keeps I X (parseDouble j) (· = (j.past n.text, Arith.ofText n.text)) := by
  have hskip : j.skipWs = j := skipWs_past .none hrest ((starts_numeral n).solid s)
  have hread : strtodLen j.rest = n.text.length := by
    rw [hrest]
    exact n.strtodLen_eq hs
  have hpos : n.text.length ≠ 0 := by
    obtain ⟨c, t, htext, -⟩ := starts_numeral n
    rw [htext]
    exact Nat.succ_ne_zero _
  unfold parseDouble
  dsimp only
  rw [hskip, hread, if_neg hpos, hrest, List.take_left]
  exact Keeps.pure rfl

omit [Arith] in
theorem infix_src {t s : List UInt8} {j : Json} (h : j.rest = t ++ s) : t <:+: j.src := by
  have hprefix : t <+: j.rest := ⟨s, h.symm⟩
  exact hprefix.isInfix.trans (List.drop_suffix _ _).isInfix

def mixDefaults (m : Manifest) (names : List (List UInt8)) (acc : Manifest) : Manifest :=
  { acc with
    nodeThreshold := if ascii "node_threshold" ∈ names then m.nodeThreshold else acc.nodeThreshold
    minNgram := if ascii "min_ngram" ∈ names then m.minNgram else acc.minNgram
    maxNgram := if ascii "max_ngram" ∈ names then m.maxNgram else acc.maxNgram }

def mixManifest (m : Manifest) (names : List (List UInt8)) (acc : Manifest) : Manifest where
  schema := if ascii "schema" ∈ names then m.schema else acc.schema
  id := if ascii "id" ∈ names then m.id else acc.id
  vendor := if ascii "vendor" ∈ names then m.vendor else acc.vendor
  version := if ascii "version" ∈ names then m.version else acc.version
  nodeThreshold := if ascii "defaults" ∈ names then m.nodeThreshold else acc.nodeThreshold
  minNgram := if ascii "defaults" ∈ names then m.minNgram else acc.minNgram
  maxNgram := if ascii "defaults" ∈ names then m.maxNgram else acc.maxNgram
  nodes := if ascii "nodes" ∈ names then m.nodes else acc.nodes

/-- The defaults were not read yet, or are those of `m`. -/
structure DefaultsFrom (m acc : Manifest) : Prop where
  nodeThreshold : acc.nodeThreshold = Manifest.initial.nodeThreshold ∨
    acc.nodeThreshold = m.nodeThreshold
  minNgram : acc.minNgram = Manifest.initial.minNgram ∨ acc.minNgram = m.minNgram
  maxNgram : acc.maxNgram = Manifest.initial.maxNgram ∨ acc.maxNgram = m.maxNgram

theorem overlay_defaults (m : Manifest) : Overlay DefaultsField m (mixDefaults m) fun _ => True where
  cons name names acc := by
    unfold mixDefaults
    simp only [ite_mem_cons]
  good _ _ _ := trivial
  starts name t h := by
    cases h with
    | nodeThreshold heq => exact starts_numeral _
    | minNgram heq => exact starts_numeral _
    | maxNgram heq => exact starts_numeral _
    | unknown hname v => exact starts_value v

theorem overlay_manifest (m : Manifest) :
    Overlay ManifestField m (mixManifest m) (DefaultsFrom m) where
  cons name names acc := by
    unfold mixManifest
    simp only [ite_mem_cons]
  good name acc h := by
    obtain ⟨hthreshold, hmin, hmax⟩ := h
    unfold mixManifest
    by_cases hname : ascii "defaults" ∈ [name]
    · simp only [if_pos hname]
      exact ⟨.inr rfl, .inr rfl, .inr rfl⟩
    · simp only [if_neg hname]
      exact ⟨hthreshold, hmin, hmax⟩
  starts name t h := by
    cases h with
    | schema heq h => exact starts_spells _ t h
    | id heq h => exact starts_spells _ t h
    | vendor heq h => exact starts_spells _ t h
    | version heq h => exact starts_spells _ t h
    | defaults h => exact starts_object _ t h
    | nodes h => exact starts_bracketed (by decide) h
    | unknown hname v => exact starts_value v

omit [Arith] in
/-- All defaults are read. -/
theorem mixDefaults_absent {m acc : Manifest} {names : List (List UInt8)}
    (h : DefaultsAbsent m names) (hacc : DefaultsFrom m acc) :
    mixDefaults m names acc = mixManifest m [ascii "defaults"] acc := by
  obtain ⟨hthreshold, hmin, hmax⟩ := h
  have hfill : ∀ {β : Type} {name : List UInt8} {x y z : β}, (name ∉ names → x = z) →
      y = z ∨ y = x → (if name ∈ names then x else y) = x := by
    intro β name x y z hx hy
    split
    · rfl
    · rename_i hname
      rcases hy with rfl | rfl
      · exact (hx hname).symm
      · rfl
  unfold mixDefaults
  rw [hfill hthreshold hacc.nodeThreshold, hfill hmin hacc.minNgram, hfill hmax hacc.maxNgram]
  rfl

omit [Arith] in
theorem mixManifest_absent {m : Manifest} {names : List (List UInt8)} (h : ManifestAbsent m names) :
    mixManifest m names Manifest.initial = m := by
  obtain ⟨schema, id, vendor, version, nodeThreshold, minNgram, maxNgram, nodes⟩ := m
  obtain ⟨hschema, hid, hvendor, hversion, hdefaults, hnodes⟩ := h
  have hfill : ∀ {β : Type} {name : List UInt8} {x y : β}, (name ∉ names → x = y) →
      (if name ∈ names then x else y) = x := by
    intro β name x y hx
    split
    · rfl
    · exact (hx ‹_›).symm
  unfold mixManifest
  congr 1
  · exact hfill hschema
  · exact hfill hid
  · exact hfill hvendor
  · exact hfill hversion
  · exact hfill fun hname => (hdefaults hname).nodeThreshold (by simp)
  · exact hfill fun hname => (hdefaults hname).minNgram (by simp)
  · exact hfill fun hname => (hdefaults hname).maxNgram (by simp)
  · exact hfill hnodes

/-- The value of a member of the defaults. -/
def defaultsValue (key : List UInt8) (j : Json) (m : Manifest) : Run JsonError (Json × Manifest) :=
  if key = ascii "node_threshold" then do
    let (j, v) ← j.parseDouble
    pure (j, { m with nodeThreshold := toFloat v })
  else if key = ascii "min_ngram" then do
    let (j, v) ← j.parseDouble
    pure (j, { m with minNgram := toInt v })
  else if key = ascii "max_ngram" then do
    let (j, v) ← j.parseDouble
    pure (j, { m with maxNgram := toInt v })
  else do
    let j ← skipValue j.fuel j
    pure (j, m)

theorem defaultsMembers_eq (fuel : Nat) (j : Json) (m : Manifest) :
    defaultsMembers (fuel + 1) j m = (do
      let r ← j.parseString
      let j₂ ← r.1.expect 0x3A
      let r' ← defaultsValue r.2.bytes j₂.skipWs m
      if r'.1.skipWs.peek = some 0x2C then defaultsMembers fuel (r'.1.skipWs.advance 1) r'.2
      else pure (r'.1.skipWs, r'.2)) := by
  rw [defaultsMembers]
  refine bind_congr fun ⟨j₁, key⟩ => bind_congr fun j₂ => ?_
  unfold defaultsValue
  dsimp only
  split
  · simp only [bind_assoc, pure_bind]
  split
  · simp only [bind_assoc, pure_bind]
  split
  · simp only [bind_assoc, pure_bind]
  · simp only [bind_assoc, pure_bind]

theorem defaultsValue_take {m acc : Manifest} {name t s : List UInt8} {j : Json}
    (hints : ReadsInts j.src) (h : DefaultsField m name t) (hrest : j.rest = t ++ s) (hs : Stops s) :
    Keeps I X (defaultsValue name j acc) (· = (j.past t, mixDefaults m [name] acc)) := by
  unfold defaultsValue
  cases h with
  | nodeThreshold heq =>
    rw [if_pos rfl]
    refine Keeps.bind (parseDouble_take hrest hs) ?_
    rintro _ rfl
    refine Keeps.pure ?_
    rw [mixDefaults, heq]
    rfl
  | minNgram heq =>
    rw [if_neg (by decide), if_pos rfl]
    refine Keeps.bind (parseDouble_take hrest hs) ?_
    rintro _ rfl
    refine Keeps.pure ?_
    rw [mixDefaults, hints _ _ (infix_src hrest) heq]
    rfl
  | maxNgram heq =>
    rw [if_neg (by decide), if_neg (by decide), if_pos rfl]
    refine Keeps.bind (parseDouble_take hrest hs) ?_
    rintro _ rfl
    refine Keeps.pure ?_
    rw [mixDefaults, hints _ _ (infix_src hrest) heq]
    rfl
  | unknown hname v =>
    have hne : ∀ known ∈ defaultsNames, name ≠ known := fun known hknown heq => hname (heq ▸ hknown)
    have hnot : ∀ known ∈ defaultsNames, known ∉ [name] := fun known hknown hmem =>
      hne known hknown (List.mem_singleton.mp hmem).symm
    rw [if_neg (hne _ (by decide)), if_neg (hne _ (by decide)), if_neg (hne _ (by decide)),
      mixDefaults, if_neg (hnot _ (by decide)), if_neg (hnot _ (by decide)),
      if_neg (hnot _ (by decide))]
    refine Keeps.bind (skipValue_take .none v hrest hs) ?_
    rintro _ rfl
    exact Keeps.pure rfl

theorem defaultsMembers_take {m : Manifest} : ∀ (fuel : Nat) {names : List (List UInt8)}
    {t s : List UInt8} {j : Json} (acc : Manifest), ReadsInts j.src →
      Fields DefaultsField m names t → j.rest = t ++ 0x7D :: s → 3 * j.rest.length + 1 ≤ fuel →
        Keeps I X (defaultsMembers fuel j acc) (· = (j.past t, mixDefaults m names acc))
  | 0, _, _, _, _, _, _, _, _, h => absurd h (by omega)
  | fuel + 1, names, t, s, j, acc, hints, h, hrest, hfuel => by
    rw [defaultsMembers_eq]
    refine fields_take (overlay_defaults m) h trivial hrest ?_ ?_
    · intro name t' s' j' hsrc hfield hrest' hs hlen
      exact defaultsValue_take (hsrc ▸ hints) hfield hrest' hs
    · intro names' t' j' acc' hfields _ hrest' hsrc hlen
      exact defaultsMembers_take fuel acc' (hsrc ▸ hints) hfields hrest' (by omega)

theorem parseDefaults_take {m acc : Manifest} {t s : List UInt8} {j : Json}
    (hints : ReadsInts j.src) (hacc : DefaultsFrom m acc)
    (h : ObjectText DefaultsField DefaultsAbsent m t) (hrest : j.rest = t ++ s) :
    Keeps I X (parseDefaults j acc) (· = (j.past t, mixManifest m [ascii "defaults"] acc)) := by
  unfold parseDefaults
  have hempty : DefaultsAbsent m [] → acc = mixManifest m [ascii "defaults"] acc :=
    fun habsent => mixDefaults_absent habsent hacc
  refine encloses_keeps (f := fun j => defaultsMembers j.fuel j acc) .none
    (ObjectText.encloses hempty h) rfl (.inr rfl) hrest fun t' j' hsrc hinner hrest' _ => ?_
  obtain ⟨names, hfields, habsent⟩ := hinner
  rw [← mixDefaults_absent habsent hacc]
  refine defaultsMembers_take j'.fuel acc (hsrc ▸ hints) hfields hrest' ?_
  unfold fuel
  omega

/-- The value of a member of the manifest. -/
def manifestValue (key : List UInt8) (j : Json) (m : Manifest) : Run JsonError (Json × Manifest) :=
  if key = ascii "schema" then do
    let (j, schema) ← j.parseString
    pure (j, { m with schema := some schema })
  else if key = ascii "id" then do
    let (j, id) ← j.parseString
    pure (j, { m with id := some id })
  else if key = ascii "vendor" then do
    let (j, vendor) ← j.parseString
    pure (j, { m with vendor := some vendor })
  else if key = ascii "version" then do
    let (j, version) ← j.parseString
    pure (j, { m with version := some version })
  else if key = ascii "defaults" then parseDefaults j m
  else if key = ascii "nodes" then do
    let (j, nodes) ← parseNodeArray j.fuel j
    pure (j, { m with nodes })
  else do
    let j ← skipValue j.fuel j
    pure (j, m)

theorem manifestMembers_eq (fuel : Nat) (j : Json) (m : Manifest) :
    manifestMembers (fuel + 1) j m = (do
      let r ← j.parseString
      let j₂ ← r.1.expect 0x3A
      let r' ← manifestValue r.2.bytes j₂.skipWs m
      if r'.1.skipWs.peek = some 0x2C then manifestMembers fuel (r'.1.skipWs.advance 1) r'.2
      else pure (r'.1.skipWs, r'.2)) := by
  rw [manifestMembers]
  refine bind_congr fun ⟨j₁, key⟩ => bind_congr fun j₂ => ?_
  unfold manifestValue
  dsimp only
  split
  · simp only [bind_assoc, pure_bind]
  split
  · simp only [bind_assoc, pure_bind]
  split
  · simp only [bind_assoc, pure_bind]
  split
  · simp only [bind_assoc, pure_bind]
  split
  · rfl
  split
  · simp only [bind_assoc, pure_bind]
  · simp only [bind_assoc, pure_bind]

theorem manifestValue_take {m acc : Manifest} {name t s : List UInt8} {j : Json}
    (hints : ReadsInts j.src) (hacc : DefaultsFrom m acc) (h : ManifestField m name t)
    (hrest : j.rest = t ++ s) (hs : Stops s) :
    Keeps I X (manifestValue name j acc) (· = (j.past t, mixManifest m [name] acc)) := by
  unfold manifestValue
  cases h with
  | schema heq h =>
    rw [if_pos rfl]
    refine Keeps.bind (parseString_take .none h hrest) ?_
    rintro _ rfl
    refine Keeps.pure ?_
    rw [mixManifest, heq]
    rfl
  | id heq h =>
    rw [if_neg (by decide), if_pos rfl]
    refine Keeps.bind (parseString_take .none h hrest) ?_
    rintro _ rfl
    refine Keeps.pure ?_
    rw [mixManifest, heq]
    rfl
  | vendor heq h =>
    rw [if_neg (by decide), if_neg (by decide), if_pos rfl]
    refine Keeps.bind (parseString_take .none h hrest) ?_
    rintro _ rfl
    refine Keeps.pure ?_
    rw [mixManifest, heq]
    rfl
  | version heq h =>
    rw [if_neg (by decide), if_neg (by decide), if_neg (by decide), if_pos rfl]
    refine Keeps.bind (parseString_take .none h hrest) ?_
    rintro _ rfl
    refine Keeps.pure ?_
    rw [mixManifest, heq]
    rfl
  | defaults h =>
    rw [if_neg (by decide), if_neg (by decide), if_neg (by decide), if_neg (by decide), if_pos rfl]
    exact parseDefaults_take hints hacc h hrest
  | nodes h =>
    rw [if_neg (by decide), if_neg (by decide), if_neg (by decide), if_neg (by decide),
      if_neg (by decide), if_pos rfl]
    refine Keeps.bind (parseNodeArray_take h hrest) ?_
    rintro _ rfl
    exact Keeps.pure rfl
  | unknown hname v =>
    have hne : ∀ known ∈ manifestNames, name ≠ known := fun known hknown heq => hname (heq ▸ hknown)
    have hnot : ∀ known ∈ manifestNames, known ∉ [name] := fun known hknown hmem =>
      hne known hknown (List.mem_singleton.mp hmem).symm
    have hmix : mixManifest m [name] acc = acc := by
      unfold mixManifest
      simp only [if_neg (hnot (ascii "schema") (by decide)), if_neg (hnot (ascii "id") (by decide)),
        if_neg (hnot (ascii "vendor") (by decide)), if_neg (hnot (ascii "version") (by decide)),
        if_neg (hnot (ascii "defaults") (by decide)), if_neg (hnot (ascii "nodes") (by decide))]
    rw [if_neg (hne _ (by decide)), if_neg (hne _ (by decide)), if_neg (hne _ (by decide)),
      if_neg (hne _ (by decide)), if_neg (hne _ (by decide)), if_neg (hne _ (by decide)), hmix]
    refine Keeps.bind (skipValue_take .none v hrest hs) ?_
    rintro _ rfl
    exact Keeps.pure rfl

theorem manifestMembers_take {m : Manifest} : ∀ (fuel : Nat) {names : List (List UInt8)}
    {t s : List UInt8} {j : Json} (acc : Manifest), ReadsInts j.src → DefaultsFrom m acc →
      Fields ManifestField m names t → j.rest = t ++ 0x7D :: s → 3 * j.rest.length + 1 ≤ fuel →
        Keeps I X (manifestMembers fuel j acc) (· = (j.past t, mixManifest m names acc))
  | 0, _, _, _, _, _, _, _, _, _, h => absurd h (by omega)
  | fuel + 1, names, t, s, j, acc, hints, hacc, h, hrest, hfuel => by
    rw [manifestMembers_eq]
    refine fields_take (overlay_manifest m) h hacc hrest ?_ ?_
    · intro name t' s' j' hsrc hfield hrest' hs hlen
      exact manifestValue_take (hsrc ▸ hints) hacc hfield hrest' hs
    · intro names' t' j' acc' hfields hacc' hrest' hsrc hlen
      exact manifestMembers_take fuel acc' (hsrc ▸ hints) hacc' hfields hrest' (by omega)

theorem parseManifest_take {m : Manifest} {t s : List UInt8} {j : Json} (b : Gap)
    (hints : ReadsInts j.src) (h : ObjectText ManifestField ManifestAbsent m t)
    (hrest : j.rest = b.bytes ++ (t ++ s)) :
    Keeps I X (parseManifest j) (· = (j.past (b.bytes ++ t), m)) := by
  unfold parseManifest
  have hempty : ManifestAbsent m [] → Manifest.initial = m := fun habsent =>
    mixManifest_absent habsent
  refine encloses_keeps (f := fun j => manifestMembers j.fuel j Manifest.initial) b
    (ObjectText.encloses hempty h) rfl (.inr rfl) hrest fun t' j' hsrc hinner hrest' _ => ?_
  obtain ⟨names, hfields, habsent⟩ := hinner
  have hstart : DefaultsFrom m Manifest.initial := ⟨.inl rfl, .inl rfl, .inl rfl⟩
  rw [← mixManifest_absent habsent]
  refine manifestMembers_take j'.fuel _ (hsrc ▸ hints) hstart hfields hrest' ?_
  unfold fuel
  omega

end Manifest

end Loops

end Json

open Json

/-- **Every rendering** of a manifest, whatever the order of its members, its white space, its
escapes and its members of other names, is read back as that manifest. -/
theorem parseManifest_renders [Arith] {m : Manifest} {text : List UInt8} (hm : Renders m text)
    (hints : ReadsInts text) {e : Env} (he : Quiet e) :
    ∃ j e', (parseManifest ⟨text, 0⟩).exec e = (.ok (j, m), e') := by
  obtain ⟨before, after, t, hobject, htext⟩ := hm
  have htake : Returns (parseManifest ⟨text, 0⟩) _ := parseManifest_take before hints hobject htext
  obtain ⟨_, e', hexec, -, rfl⟩ := htake.exec he
  exact ⟨_, e', hexec⟩

/-- A number in a text with one digit and no minus sign is that digit. -/
theorem numeral_lone {n : Numeral} {text : List UInt8} {d : UInt8}
    (hdigits : text.filter isDigit = [d]) (hminus : (0x2D : UInt8) ∉ text) (h : n.text <:+: text) :
    n.text = [d] ∧ n.value = digitsValue [d] := by
  have hall : ∀ {ds : List UInt8}, (∀ d ∈ ds, isDigit d = true) → ds.filter isDigit = ds :=
    fun h => List.filter_eq_self.mpr h
  have hsign : n.minus = false := by
    by_contra hne
    refine hminus (h.mem ?_)
    unfold Numeral.text Numeral.sign
    rw [Bool.eq_true_of_not_eq_false hne, if_pos rfl]
    exact List.mem_cons_self
  have hparts : List.Sublist (n.whole ++ (n.fraction.filter isDigit ++
      n.exponentText.filter isDigit)) [d] := by
    have hsub := h.sublist.filter isDigit
    unfold Numeral.text Numeral.sign at hsub
    rwa [hsign, if_neg (by decide), List.nil_append, List.filter_append, List.filter_append,
      hall n.whole_ok.2, hdigits] at hsub
  have hpos := List.length_pos_iff.mpr n.whole_ok.1
  have hlen := hparts.length_le
  rw [List.length_append, List.length_append, List.length_singleton] at hlen
  have hfrac : n.frac = [] := by
    by_contra hne
    have hlen' := List.length_pos_iff.mpr hne
    unfold Numeral.fraction at hlen
    rw [if_neg hne, List.filter_cons_of_neg (by decide), hall n.frac_ok] at hlen
    omega
  have hexponent : n.exponent = none := by
    by_contra hne
    obtain ⟨x, hx⟩ := Option.ne_none_iff_exists'.mp hne
    have hlen' := List.length_pos_iff.mpr x.digits_ok.1
    have hdigits' : List.Sublist x.digits n.exponentText := by
      unfold Numeral.exponentText
      rw [hx]
      exact (List.sublist_append_right _ _).trans (List.sublist_cons_self _ _)
    have hlen'' := (hdigits'.filter isDigit).length_le
    rw [hall x.digits_ok.2] at hlen''
    omega
  have hwhole : n.whole = [d] := by
    refine (List.sublist_append_left n.whole _ |>.trans hparts).eq_of_length_le ?_
    exact hpos
  refine ⟨?_, ?_⟩
  · unfold Numeral.text Numeral.sign Numeral.fraction Numeral.exponentText
    rw [hsign, hfrac, hexponent, hwhole]
    rfl
  · unfold Numeral.value
    rw [hsign, hfrac, hexponent, hwhole]
    simp

theorem parseManifest_renders_bound : ∃ j e', (@parseManifest ieee ⟨ascii
    "\x7b\"x\":[],\"nodes\":[\x7b\"id\":\"a\"\x7d],\"defaults\":\x7b\"max_ngram\":3\x7d\x7d", 0⟩).exec
      ⟨[], []⟩ = (.ok (j, { Manifest.initial with
        maxNgram := 3, nodes := [{ id := some (CStr.ofString "a") }] }), e') := by
  let m : Manifest := { Manifest.initial with
    maxNgram := 3, nodes := [{ id := some (CStr.ofString "a") }] }
  have hm : @Renders ieee m (ascii
      "\x7b\"x\":[],\"nodes\":[\x7b\"id\":\"a\"\x7d],\"defaults\":\x7b\"max_ngram\":3\x7d\x7d") := by
    have written : ∀ {P : List UInt8 → Prop} {t t' : List UInt8}, P t → t = t' → P t' :=
      fun h heq => heq ▸ h
    let spell (name : String) := Spelling.of (CStr.ofString name)
    have hx : (spell "x").value.bytes = ascii "x" := by decide +kernel
    have hid : (spell "id").value.bytes = ascii "id" := by decide +kernel
    have hnodes : (spell "nodes").value.bytes = ascii "nodes" := by decide +kernel
    have hdefaults : (spell "defaults").value.bytes = ascii "defaults" := by decide +kernel
    have hmax : (spell "max_ngram").value.bytes = ascii "max_ngram" := by decide +kernel
    let three : Numeral :=
      ⟨false, [0x33], [], none, ⟨by decide, by decide +kernel⟩, by decide, by decide +kernel⟩
    have hnode : NodeText { id := some (CStr.ofString "a") } (ascii "\x7b\"id\":\"a\"\x7d") := by
      have hvalue : NodeField { id := some (CStr.ofString "a") } (spell "id").value.bytes
          (ascii "\"a\"") := by
        rw [hid]
        exact .id rfl ⟨spell "a", Spelling.value_of _, by decide +kernel⟩
      refine written (.full (.last .none .none .none .none (spell "id") hvalue) ?_) (by decide +kernel)
      rw [hid]
      exact ⟨fun h => absurd h (by decide), fun _ => rfl, fun _ => rfl, fun _ => rfl⟩
    have hbounds : @ObjectText Manifest (@DefaultsField ieee) DefaultsAbsent m
        (ascii "\x7b\"max_ngram\":3\x7d") := by
      have hvalue : @DefaultsField ieee m (spell "max_ngram").value.bytes three.text := by
        rw [hmax]
        exact @DefaultsField.maxNgram ieee _ _ (by simp [three, m, Numeral.value, digitsValue])
      refine written (.full (.last .none .none .none .none (spell "max_ngram") hvalue) ?_)
        (by decide +kernel)
      rw [hmax]
      exact ⟨fun _ => rfl, fun _ => rfl, fun h => absurd h (by decide)⟩
    have hlast : @ManifestField ieee m (spell "defaults").value.bytes
        (ascii "\x7b\"max_ngram\":3\x7d") := by
      rw [hdefaults]
      exact @ManifestField.defaults ieee _ _ hbounds
    have hmiddle : @ManifestField ieee m (spell "nodes").value.bytes
        (ascii "[\x7b\"id\":\"a\"\x7d]") := by
      rw [hnodes]
      exact @ManifestField.nodes ieee _ _ (written (.full (.last .none .none hnode)) (by decide +kernel))
    have hfirst : @ManifestField ieee m (spell "x").value.bytes (Value.emptyArray .none).text := by
      rw [hx]
      exact @ManifestField.unknown ieee _ _ (by decide) _
    refine ⟨.none, .none, _, .full (.more .none .none .none .none (spell "x") hfirst
      (.more .none .none .none .none (spell "nodes") hmiddle
        (.last .none .none .none .none (spell "defaults") hlast) ?_) ?_) ?_, by decide +kernel⟩
    · rw [hnodes, hdefaults]
      decide
    · rw [hx, hnodes, hdefaults]
      decide
    · rw [hx, hnodes, hdefaults]
      exact ⟨fun _ => rfl, fun _ => rfl, fun _ => rfl, fun _ => rfl,
        fun h => absurd h (by decide), fun h => absurd h (by decide)⟩
  refine @parseManifest_renders ieee m _ hm ?_ _ rfl
  intro n k hinfix hvalue
  obtain ⟨htext, hthree⟩ :=
    numeral_lone (d := 0x33) (by decide +kernel) (by decide +kernel) hinfix
  have hk : k = 3 := by
    rw [hvalue] at hthree
    have hint : k.toInt = digitsValue [0x33] := by exact_mod_cast hthree
    exact Int32.toInt_inj.mp hint
  rw [htext, hk]
  decide +kernel

end Ipa
