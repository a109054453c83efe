import Ipa.Manifest.Literals

/-!
# Renderings of a manifest

The texts that stand for a manifest: the members of each object in any order and each at most once,
white space between the tokens, strings of raw bytes and escapes, and members of other names with
any JSON value. A field without a member has the value it starts with.
-/

namespace Ipa

open JsonText

namespace Json

/-- White space between two tokens. -/
structure Gap where
  bytes : List UInt8
  white : ∀ c ∈ bytes, isspace c = true

/-- A byte that is not NUL, or one of the escapes of a quote, a backslash, a slash, a line feed, a
carriage return and a tab. -/
def Piece.Usual : Piece → Prop
  | .raw c _ _ => c ≠ 0
  | .escaped e => e ∈ ascii "\"\\/nrt"

theorem Piece.Usual.byte_ne {p : Piece} (h : p.Usual) : p.byte ≠ 0 := by
  cases p with
  | raw c _ _ => exact h
  | escaped e =>
    have hall : ∀ e ∈ ascii "\"\\/nrt", unescape e ≠ 0 := by decide +kernel
    exact hall e h

/-- A string as it is written. -/
structure Spelling where
  pieces : List Piece
  usual : ∀ p ∈ pieces, p.Usual

def Spelling.text (v : Spelling) : List UInt8 := quoted v.pieces

def Spelling.value (v : Spelling) : CStr where
  bytes := v.pieces.map Piece.byte
  nulFree h := by
    obtain ⟨p, hp, hbyte⟩ := List.mem_map.mp h
    exact (v.usual p hp).byte_ne hbyte

/-- One way to write a string: only the quotes and the backslashes are escaped. -/
def Spelling.of (s : CStr) : Spelling where
  pieces := s.bytes.attach.map fun ⟨c, _⟩ =>
    if hq : c = 0x22 then .escaped 0x22
    else if hb : c = 0x5C then .escaped 0x5C
    else .raw c hq hb
  usual p hp := by
    obtain ⟨⟨c, hc⟩, -, rfl⟩ := List.mem_map.mp hp
    have hne : c ≠ 0 := fun h => s.nulFree (h ▸ hc)
    dsimp only
    split
    · change (0x22 : UInt8) ∈ ascii "\"\\/nrt"
      decide
    split
    · change (0x5C : UInt8) ∈ ascii "\"\\/nrt"
      decide
    · exact hne

theorem Spelling.value_of (s : CStr) : (Spelling.of s).value = s := by
  apply CStr.ext
  have hbyte : ∀ c : { c // c ∈ s.bytes }, Piece.byte (if hq : c.1 = 0x22 then .escaped 0x22
      else if hb : c.1 = 0x5C then .escaped 0x5C else .raw c.1 hq hb) = c.1 := by
    intro c
    split
    · rename_i hq
      rw [hq]
      rfl
    split
    · rename_i hb
      rw [hb]
      rfl
    · rfl
  change (s.bytes.attach.map _).map Piece.byte = s.bytes
  calc (s.bytes.attach.map _).map Piece.byte
      = s.bytes.attach.map Subtype.val := by
        rw [List.map_map]
        exact List.map_congr_left fun c _ => hbyte c
    _ = s.bytes := List.attach_map_subtype_val s.bytes

def Spells (s : CStr) (t : List UInt8) : Prop := ∃ v : Spelling, v.value = s ∧ v.text = t

/-! ## Arrays and objects -/

section Shapes

variable {α σ : Type}

/-- Items between commas. -/
inductive Listed (Item : α → List UInt8 → Prop) : List α → List UInt8 → Prop
  | last (before after : Gap) {x : α} {t : List UInt8} (item : Item x t) :
    Listed Item [x] (before.bytes ++ (t ++ after.bytes))
  | more (before after : Gap) {x : α} {xs : List α} {t ts : List UInt8} (item : Item x t)
    (rest : Listed Item xs ts) :
    Listed Item (x :: xs) (before.bytes ++ (t ++ (after.bytes ++ 0x2C :: ts)))

/-- Items in brackets. -/
inductive Bracketed (o c : UInt8) (Item : α → List UInt8 → Prop) : List α → List UInt8 → Prop
  | empty (gap : Gap) : Bracketed o c Item [] (o :: (gap.bytes ++ [c]))
  | full {xs : List α} {t : List UInt8} (items : Listed Item xs t) :
    Bracketed o c Item xs (o :: (t ++ [c]))

/-- The members of an object that stands for `x`, with their names: `Field x name t` when the value
`t` agrees with `x` on what `name` names. -/
inductive Fields (Field : σ → List UInt8 → List UInt8 → Prop) :
    σ → List (List UInt8) → List UInt8 → Prop
  | last (before mid mid' after : Gap) (name : Spelling) {x : σ} {t : List UInt8}
    (value : Field x name.value.bytes t) :
    Fields Field x [name.value.bytes] (before.bytes ++ (name.text ++ (mid.bytes ++
      0x3A :: (mid'.bytes ++ (t ++ after.bytes)))))
  | more (before mid mid' after : Gap) (name : Spelling) {x : σ} {t ts : List UInt8}
    {names : List (List UInt8)} (value : Field x name.value.bytes t) (rest : Fields Field x names ts)
    (fresh : name.value.bytes ∉ names) :
    Fields Field x (name.value.bytes :: names) (before.bytes ++ (name.text ++ (mid.bytes ++
      0x3A :: (mid'.bytes ++ (t ++ (after.bytes ++ 0x2C :: ts))))))

/-- An object that stands for `x`; `Absent x names` when `x` has its initial values where nothing is
named. -/
inductive ObjectText (Field : σ → List UInt8 → List UInt8 → Prop)
    (Absent : σ → List (List UInt8) → Prop) : σ → List UInt8 → Prop
  | empty (gap : Gap) {x : σ} (absent : Absent x []) :
    ObjectText Field Absent x (0x7B :: (gap.bytes ++ [0x7D]))
  | full {x : σ} {names : List (List UInt8)} {t : List UInt8} (members : Fields Field x names t)
    (absent : Absent x names) :
    ObjectText Field Absent x (0x7B :: (t ++ [0x7D]))

end Shapes

/-! ## Nodes -/

/-- A pair of an emit object. -/
def EmitText (emit : EmitDef) (t : List UInt8) : Prop :=
  ∃ (key val : Spelling) (mid mid' : Gap), emit = ⟨some key.value, some val.value⟩ ∧
    t = key.text ++ (mid.bytes ++ 0x3A :: (mid'.bytes ++ val.text))

structure NodeAbsent (nd : NodeDef) (names : List (List UInt8)) : Prop where
  id : ascii "id" ∉ names → nd.id = none
  descriptions : ascii "descriptions" ∉ names → nd.descriptions = []
  emits : ascii "emit" ∉ names → nd.emits = []
  children : ascii "children" ∉ names → nd.children = []

def nodeNames : List (List UInt8) :=
  [ascii "id", ascii "descriptions", ascii "emit", ascii "children"]

/-- A member of a node. -/
inductive NodeField : NodeDef → List UInt8 → List UInt8 → Prop
  | id {nd : NodeDef} {id : CStr} {t : List UInt8} (heq : nd.id = some id) (h : Spells id t) :
    NodeField nd (ascii "id") t
  | descriptions {nd : NodeDef} {strings : List CStr} {t : List UInt8}
    (heq : nd.descriptions = strings.map some) (h : Bracketed 0x5B 0x5D Spells strings t) :
    NodeField nd (ascii "descriptions") t
  | emit {nd : NodeDef} {t : List UInt8} (h : Bracketed 0x7B 0x7D EmitText nd.emits t) :
    NodeField nd (ascii "emit") t
  | children {nd : NodeDef} {t : List UInt8}
    (h : Bracketed 0x5B 0x5D (ObjectText NodeField NodeAbsent) nd.children t) :
    NodeField nd (ascii "children") t
  | unknown {nd : NodeDef} {name : List UInt8} (hname : name ∉ nodeNames) (v : Value) :
    NodeField nd name v.text

def NodeText : NodeDef → List UInt8 → Prop := ObjectText NodeField NodeAbsent

/-! ## The manifest -/

section Manifest

variable [Arith]

structure DefaultsAbsent (m : Manifest) (names : List (List UInt8)) : Prop where
  nodeThreshold : ascii "node_threshold" ∉ names → m.nodeThreshold = Manifest.initial.nodeThreshold
  minNgram : ascii "min_ngram" ∉ names → m.minNgram = Manifest.initial.minNgram
  maxNgram : ascii "max_ngram" ∉ names → m.maxNgram = Manifest.initial.maxNgram

def defaultsNames : List (List UInt8) :=
  [ascii "node_threshold", ascii "min_ngram", ascii "max_ngram"]

/-- A member of the defaults: a bound is the value of its number, the threshold is the float that
`strtod` reads. -/
inductive DefaultsField : Manifest → List UInt8 → List UInt8 → Prop
  | nodeThreshold {m : Manifest} {n : Numeral} (heq : m.nodeThreshold = toFloat (Arith.ofText n.text)) :
    DefaultsField m (ascii "node_threshold") n.text
  | minNgram {m : Manifest} {n : Numeral} (heq : n.value = m.minNgram.toInt) :
    DefaultsField m (ascii "min_ngram") n.text
  | maxNgram {m : Manifest} {n : Numeral} (heq : n.value = m.maxNgram.toInt) :
    DefaultsField m (ascii "max_ngram") n.text
  | unknown {m : Manifest} {name : List UInt8} (hname : name ∉ defaultsNames) (v : Value) :
    DefaultsField m name v.text

structure ManifestAbsent (m : Manifest) (names : List (List UInt8)) : Prop where
  schema : ascii "schema" ∉ names → m.schema = none
  id : ascii "id" ∉ names → m.id = none
  vendor : ascii "vendor" ∉ names → m.vendor = none
  version : ascii "version" ∉ names → m.version = none
  defaults : ascii "defaults" ∉ names → DefaultsAbsent m []
  nodes : ascii "nodes" ∉ names → m.nodes = []

def manifestNames : List (List UInt8) :=
  [ascii "schema", ascii "id", ascii "vendor", ascii "version", ascii "defaults", ascii "nodes"]

/-- A member of the manifest. -/
inductive ManifestField : Manifest → List UInt8 → List UInt8 → Prop
  | schema {m : Manifest} {schema : CStr} {t : List UInt8} (heq : m.schema = some schema)
    (h : Spells schema t) : ManifestField m (ascii "schema") t
  | id {m : Manifest} {id : CStr} {t : List UInt8} (heq : m.id = some id) (h : Spells id t) :
    ManifestField m (ascii "id") t
  | vendor {m : Manifest} {vendor : CStr} {t : List UInt8} (heq : m.vendor = some vendor)
    (h : Spells vendor t) : ManifestField m (ascii "vendor") t
  | version {m : Manifest} {version : CStr} {t : List UInt8} (heq : m.version = some version)
    (h : Spells version t) : ManifestField m (ascii "version") t
  | defaults {m : Manifest} {t : List UInt8} (h : ObjectText DefaultsField DefaultsAbsent m t) :
    ManifestField m (ascii "defaults") t
  | nodes {m : Manifest} {t : List UInt8} (h : Bracketed 0x5B 0x5D NodeText m.nodes t) :
    ManifestField m (ascii "nodes") t
  | unknown {m : Manifest} {name : List UInt8} (hname : name ∉ manifestNames) (v : Value) :
    ManifestField m name v.text

/-- A text that stands for `m`: its object between white space. -/
def Renders (m : Manifest) (text : List UInt8) : Prop :=
  ∃ (before after : Gap) (t : List UInt8), ObjectText ManifestField ManifestAbsent m t ∧
    text = before.bytes ++ (t ++ after.bytes)

end Manifest

end Json

end Ipa
