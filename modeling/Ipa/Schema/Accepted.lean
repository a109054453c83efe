import Ipa.Schema.Reopen
import Ipa.Lib.Ieee

/-!
# What the compiler accepts, the runtime opens

The image of a manifest that passed the validator opens, as the schema of the manifest, whenever
every child that has descriptions has a name. The validator does not look at the children, and a
label without bytes is refused by the index: there the two sides disagree.
-/

namespace Ipa

open Run

/-- A run of the passes that returned an image has written the parts of its manifest. -/
theorem serialize_ok {host : Host} {emb? : Option Emb} {m : Manifest} {image : List UInt8}
    {e e' : Env} (h : (serialize host emb? m).exec e = (.ok image, e')) :
    m.Valid ∧ ∃ emb, emb? = some emb ∧ ∃ p : Parts, p.Of emb m ∧
      image = p.image host.order emb m ∧ 2 * image.length ≤ host.sizeMod := by
  unfold serialize at h
  cases hvalid : validateManifest m with
  | error err =>
    rw [hvalid] at h
    cases h
  | ok u =>
    rw [hvalid] at h
    refine ⟨validateManifest_ok hvalid, ?_⟩
    cases emb? with
    | none => cases h
    | some emb =>
      have hserves : Serves (fun _ => True) (fun _ => True) BuildError.noMemory :=
        serves_of_fail (fun _ _ h => h) trivial
      have hcompiles : Compiles host emb (fun _ => True) m := ⟨fun _ => trivial,
        ⟨fun _ _ _ _ _ => trivial, fun _ _ _ _ _ => trivial⟩, fun _ _ _ => trivial,
        fun _ => ⟨trivial, trivial⟩⟩
      obtain ⟨⟨p, hp, himage, hhalf⟩, -⟩ := (compile_keeps (I := fun _ => True)
        hcompiles).value trivial h
      exact ⟨emb, rfl, p, hp, himage, hhalf⟩

/-- **Round trip**: the image of an accepted manifest opens, and what opens is the manifest. -/
theorem serialize_then_open [Arith] (sys : System) (m : Manifest) (image : List UInt8) {e e' : Env}
    (hbuild : (serialize sys.host sys.emb m).exec e = (.ok image, e'))
    (hsmall : image.length < 2 ^ 32) (hnamed : ∀ ch ∈ childNodes m.nodes, isBlank ch.id = false)
    {e₀ : Env} (hquiet : Quiet e₀) :
    ∃ emb s e₁, sys.emb = some emb ∧ (openSchema sys image).exec e₀ = (.ok s, e₁) ∧
      SchemaOf sys emb m s := by
  obtain ⟨hvalid, emb, hemb, p, hp, rfl, hhalf⟩ := serialize_ok hbuild
  rw [p.length_image] at hsmall hhalf
  have hwhole := hp.whole hsmall
  have hopen : Returns (openSchema sys (p.image sys.host.order emb m)) _ :=
    hp.openSchema_keeps hwhole.entries hemb hhalf hvalid fun ⟨ch, hch, _, hblank⟩ => by
      rw [hnamed ch hch] at hblank
      cases hblank
  obtain ⟨s, e₁, hrun, -, hs, -⟩ := hopen.exec hquiet
  exact ⟨emb, s, e₁, hemb, hrun, hp.schemaOf (Parts.size_lt hhalf) hwhole hemb hs⟩

/-- A model of dimension 1 in which every text has the same embedding. -/
def unitEmb : Emb where
  dim := 1
  dim_lt := by decide
  exec _ := some [⟨0x3F800000⟩]
  exec_length _ v h := by cases h; rfl

def unitSystem : System := ⟨⟨.w64, .little⟩, some unitEmb, none, 1, 2⟩

/-- A node without children. -/
def leaf (id : String) (descriptions : List String) (emits : List EmitDef) : NodeDef where
  id := some (.ofString id)
  descriptions := descriptions.map fun s => some (.ofString s)
  emits := emits

/-- A manifest with its required members. -/
def manifestOf (nodes : List NodeDef) : Manifest :=
  { Manifest.initial with
    schema := some (.ofString "ipa.map.v1")
    id := some (.ofString "m")
    vendor := some (.ofString "v")
    version := some (.ofString "1")
    nodes }

/-- A node and a child, each with a description. -/
def familyManifest : Manifest :=
  manifestOf [{ leaf "n" ["d"] [] with
    children := [leaf "c" ["x"] [⟨some (.ofString "k"), some (.ofString "$raw")⟩]] }]

theorem serialize_then_open_family : ∃ image e' emb s e₁,
    (serialize unitSystem.host unitSystem.emb familyManifest).exec ⟨[], []⟩ = (.ok image, e') ∧
      unitSystem.emb = some emb ∧ (@openSchema ieee unitSystem image).exec ⟨[], []⟩ = (.ok s, e₁) ∧
        @SchemaOf ieee unitSystem emb familyManifest s := by
  obtain ⟨image, e', hbuild, hsmall⟩ := exec_of_value?
    (x := serialize unitSystem.host unitSystem.emb familyManifest) (e := ⟨[], []⟩)
    (q := fun image => decide (image.length < 2 ^ 32)) (by decide +kernel)
  obtain ⟨emb, s, e₁, h⟩ := @serialize_then_open ieee unitSystem familyManifest image _ _ hbuild
    (of_decide_eq_true hsmall) (by decide +kernel) ⟨[], []⟩ rfl
  exact ⟨image, e', emb, s, e₁, hbuild, h⟩

/-- **Acceptance**: an image opens exactly when the entries and the tables that its header leads to
pass their checks. Where the header states the strings and the entries of the children in full,
that is when no child of the manifest has descriptions without a name. -/
theorem serialize_opens_iff [Arith] (sys : System) (emb : Emb) (m : Manifest) (image : List UInt8)
    {e e' : Env} (hemb : sys.emb = some emb)
    (hbuild : (serialize sys.host sys.emb m).exec e = (.ok image, e')) {e₀ : Env}
    (hquiet : Quiet e₀) :
    ((∃ s e₁, (openSchema sys image).exec e₀ = (.ok s, e₁)) ↔
      (FileHdr.read sys.host.order image).Passes sys.host image) ∧
    (m.EntriesWhole emb → ((∃ s e₁, (openSchema sys image).exec e₀ = (.ok s, e₁)) ↔
      ∀ ch ∈ childNodes m.nodes, ch.descriptions ≠ [] → isBlank ch.id = false)) := by
  obtain ⟨hvalid, emb', hemb', p, hp, rfl, hhalf⟩ := serialize_ok hbuild
  obtain rfl : emb' = emb := Option.some.inj (hemb'.symm.trans hemb)
  rw [p.length_image] at hhalf
  have hmapping : mapping sys.host (p.image sys.host.order emb' m) =
      p.image sys.host.order emb' m := Parts.mapping_image (Parts.size_lt hhalf)
  have hcheck : checkHeader sys.host (p.image sys.host.order emb' m) =
      .ok (p.hdr sys.host.order emb' m) := Parts.checkHeader_image
  have hread : FileHdr.read sys.host.order (p.image sys.host.order emb' m) =
      p.hdr sys.host.order emb' m := FileHdr.read_encode _ _ _
  refine ⟨⟨?_, ?_⟩, fun hwhole => ⟨?_, ?_⟩⟩
  · rintro ⟨s, e₁, hrun⟩
    obtain ⟨hdr, hhdr, hs⟩ := openSchema_from hrun
    rw [hmapping, hcheck] at hhdr
    cases hhdr
    rw [hmapping] at hs
    rw [hread]
    exact hs.passes
  · rintro ⟨hnodes, hchildren, htables⟩
    rw [hread] at hnodes hchildren htables
    have hsuits : sys.Suits (p.hdr sys.host.order emb' m) emb' := ⟨hemb, hp.dim, rfl⟩
    rw [← hmapping] at hnodes hchildren htables hcheck
    obtain ⟨s, e₁, hrun, -⟩ := (openMapped_returns hsuits hnodes hchildren htables).exec hquiet
    rw [hmapping] at hcheck hrun
    exact ⟨s, e₁, by rw [openSchema_eq hquiet (hmapping.symm ▸ hcheck), hmapping]; exact hrun⟩
  · rintro ⟨s, e₁, hrun⟩
    exact ((hp.openSchema_keeps (X := fun _ => True) hwhole hemb hhalf hvalid
      fun _ => trivial).value hquiet hrun).1.2
  · intro hnamed
    have hopen : Returns (openSchema sys (p.image sys.host.order emb' m)) _ :=
      hp.openSchema_keeps hwhole hemb hhalf hvalid fun ⟨ch, hch, hdesc, hblank⟩ => by
        rw [hnamed ch hch hdesc] at hblank
        cases hblank
    obtain ⟨s, e₁, hrun, -⟩ := hopen.exec hquiet
    exact ⟨s, e₁, hrun⟩

/-- The header of the image of a family states everything. -/
theorem familyManifest_whole : familyManifest.Whole unitEmb :=
  Manifest.whole_of_size (by decide +kernel)

theorem serialize_opens_iff_family : ∃ image e',
    (serialize unitSystem.host unitSystem.emb familyManifest).exec ⟨[], []⟩ = (.ok image, e') ∧
      ((∃ s e₁, (@openSchema ieee unitSystem image).exec ⟨[], []⟩ = (.ok s, e₁)) ↔
        ∀ ch ∈ childNodes familyManifest.nodes, ch.descriptions ≠ [] → isBlank ch.id = false) := by
  obtain ⟨image, e', hbuild, -⟩ := exec_of_value?
    (x := serialize unitSystem.host unitSystem.emb familyManifest) (e := ⟨[], []⟩)
    (q := fun _ => true) (by decide +kernel)
  exact ⟨image, e', hbuild, (@serialize_opens_iff ieee unitSystem unitEmb familyManifest image _ _
    rfl hbuild ⟨[], []⟩ rfl).2 familyManifest_whole.entries⟩

/-- A child with a description and an empty name. -/
def blankChildText : List UInt8 := ascii
  ("\x7b\"schema\":\"ipa.map.v1\",\"id\":\"m\",\"vendor\":\"v\",\"version\":\"1\",\"nodes\":[" ++
    "\x7b\"id\":\"n\",\"descriptions\":[\"d\"],\"children\":[" ++
      "\x7b\"id\":\"\",\"descriptions\":[\"x\"]\x7d]\x7d]\x7d")

theorem build_not_opens : ∃ image e',
    (@build ieee unitSystem.host unitSystem.emb blankChildText).exec ⟨[], []⟩ = (.ok image, e') ∧
      ¬ ∃ s e₁, (@openSchema ieee unitSystem image).exec ⟨[], []⟩ = (.ok s, e₁) := by
  obtain ⟨image, e', hbuild, hclosed⟩ := exec_of_value?
    (x := @build ieee unitSystem.host unitSystem.emb blankChildText) (e := ⟨[], []⟩)
    (q := fun image => ((@openSchema ieee unitSystem image).value? ⟨[], []⟩).isNone)
    (by decide +kernel)
  refine ⟨image, e', hbuild, fun ⟨s, e₁, hopen⟩ => ?_⟩
  rw [value?_eq_some.mpr ⟨e₁, hopen⟩] at hclosed
  cases hclosed

end Ipa
