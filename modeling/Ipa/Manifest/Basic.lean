import Ipa.Lib.Binary
import Ipa.Lib.CStr

/-!
# The manifest and its validation

The manifest as the parser fills it: a pointer that may be `NULL` is an option, an array with its
count is a list.
-/

namespace Ipa

structure EmitDef where
  key : Option CStr
  value : Option CStr
deriving DecidableEq

/-- A node with its children, to any depth. -/
structure NodeDef where
  id : Option CStr := none
  descriptions : List (Option CStr) := []
  emits : List EmitDef := []
  children : List NodeDef := []

instance : Inhabited NodeDef := ⟨{}⟩

structure Manifest where
  schema : Option CStr
  id : Option CStr
  vendor : Option CStr
  version : Option CStr
  nodeThreshold : Binary32
  minNgram : Int32
  maxNgram : Int32
  nodes : List NodeDef

/-- The float 0.72f. -/
def defaultThreshold : Binary32 := ⟨0x3F3851EC⟩

/-- The manifest before the first member is read. -/
def Manifest.initial : Manifest where
  schema := none
  id := none
  vendor := none
  version := none
  nodeThreshold := defaultThreshold
  minNgram := 1
  maxNgram := 5
  nodes := []

/-! ## Validation -/

/-- The messages of the validator. -/
inductive ManifestError
  | schema
  | id
  | vendor
  | version
  | nodes
  | threshold
  | ngram
  | nodeId
  | nodeDescriptions (name : CStr)
deriving DecidableEq

/-- The text written to the error buffer. -/
def ManifestError.text : ManifestError → List UInt8
  | schema => ascii "schema must be ipa.map.v1"
  | id => ascii "id is required"
  | vendor => ascii "vendor is required"
  | version => ascii "version is required"
  | nodes => ascii "at least one node is required"
  | threshold => ascii "node_threshold must be in [0, 1]"
  | ngram => ascii "min_ngram and max_ngram must be positive, max >= min"
  | nodeId => ascii "node id is required"
  | nodeDescriptions name =>
    (ascii "node " ++ name.bytes ++ ascii " must have at least one description").take 255

/-- `!p || !p[0]`. -/
def isBlank : Option CStr → Bool
  | none => true
  | some s => s.bytes.isEmpty

/-- The float 1.0f. -/
def Binary32.one : Binary32 := ⟨0x3F800000⟩

def Binary32.zero : Binary32 := ⟨0⟩

def validateNode (nd : NodeDef) : Except ManifestError Unit :=
  match nd.id with
  | none => .error .nodeId
  | some id =>
    if id.bytes.isEmpty then .error .nodeId
    else if nd.descriptions.length < 1 then .error (.nodeDescriptions id)
    else .ok ()

def validateManifest (m : Manifest) : Except ManifestError Unit :=
  if m.schema.map (·.bytes) ≠ some (ascii "ipa.map.v1") then .error .schema
  else if isBlank m.id then .error .id
  else if isBlank m.vendor then .error .vendor
  else if isBlank m.version then .error .version
  else if m.nodes.length < 1 then .error .nodes
  else if m.nodeThreshold.lt .zero ∨ Binary32.one.lt m.nodeThreshold then .error .threshold
  else if m.minNgram < 1 ∨ m.maxNgram < m.minNgram then .error .ngram
  else forM m.nodes validateNode

/-! ## What the validator establishes -/

/-- A node as the validator accepts it. -/
structure NodeDef.Named (nd : NodeDef) : Prop where
  id : ∃ id, nd.id = some id ∧ id.bytes ≠ []
  descriptions : nd.descriptions ≠ []

/-- A manifest as the validator accepts it. -/
structure Manifest.Valid (m : Manifest) : Prop where
  id : ∃ id, m.id = some id ∧ id.bytes ≠ []
  vendor : ∃ vendor, m.vendor = some vendor ∧ vendor.bytes ≠ []
  version : ∃ version, m.version = some version ∧ version.bytes ≠ []
  nodes : m.nodes ≠ []
  minNgram : 1 ≤ m.minNgram.toInt
  maxNgram : m.minNgram.toInt ≤ m.maxNgram.toInt
  named : ∀ nd ∈ m.nodes, nd.Named

theorem isBlank_eq_false {o : Option CStr} :
    isBlank o = false ↔ ∃ s, o = some s ∧ s.bytes ≠ [] := by
  cases o with
  | none => simp [isBlank]
  | some s => simp [isBlank]

theorem validateNode_ok {nd : NodeDef} (h : validateNode nd = .ok ()) : nd.Named := by
  unfold validateNode at h
  split at h
  · cases h
  · rename_i id hid
    split at h
    · cases h
    · rename_i hempty
      split at h
      · cases h
      · rename_i hdesc
        refine ⟨⟨id, hid, fun hnil => hempty (by rw [hnil]; rfl)⟩, fun hnil => hdesc ?_⟩
        rw [hnil]
        exact Nat.zero_lt_one

theorem forM_validateNode_ok : ∀ {nodes : List NodeDef}, forM nodes validateNode = .ok () →
    ∀ nd ∈ nodes, nd.Named
  | [], _, _, hnd => by cases hnd
  | nd :: nodes, h, nd', hnd => by
    rw [List.forM_cons] at h
    cases hv : validateNode nd with
    | error e => rw [hv] at h; cases h
    | ok u =>
      rw [hv] at h
      rcases List.mem_cons.mp hnd with rfl | hnd
      · exact validateNode_ok hv
      · exact forM_validateNode_ok h nd' hnd

theorem validateManifest_ok {m : Manifest} (h : validateManifest m = .ok ()) : m.Valid := by
  unfold validateManifest at h
  split at h
  · cases h
  split at h
  · cases h
  rename_i hid
  split at h
  · cases h
  rename_i hvendor
  split at h
  · cases h
  rename_i hversion
  split at h
  · cases h
  rename_i hnodes
  split at h
  · cases h
  split at h
  · cases h
  rename_i hngram
  simp only [Bool.not_eq_true] at hid hvendor hversion
  simp only [not_or, Int32.not_lt] at hngram
  refine ⟨isBlank_eq_false.mp hid, isBlank_eq_false.mp hvendor, isBlank_eq_false.mp hversion,
    fun hnil => hnodes (by rw [hnil]; exact Nat.zero_lt_one), ?_, ?_, forM_validateNode_ok h⟩
  · exact Int32.le_iff_toInt_le.mp hngram.1
  · exact Int32.le_iff_toInt_le.mp hngram.2

end Ipa
