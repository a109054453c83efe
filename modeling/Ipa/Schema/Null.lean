import Ipa.Schema.Accepted
import Ipa.Manifest.Written

/-!
# Strings that the compiler dereferences

The passes take `strlen` of ids, keys and values. The parser leaves no `NULL` among keys and
values, the validator none among the ids of the nodes, and nobody looks at the ids of the
children: a build dereferences `NULL` exactly when a child has no id.
-/

namespace Ipa

open Run

/-- Every child of a node has an id. -/
def ChildrenNamed (nodes : List NodeDef) : Prop := ∀ ch ∈ childNodes nodes, ch.id ≠ none

instance (nodes : List NodeDef) : Decidable (ChildrenNamed nodes) :=
  inferInstanceAs (Decidable (∀ ch ∈ childNodes nodes, ch.id ≠ none))

/-- The places of the tree that the passes visit, with what holds of their nodes. -/
theorem mem_allPlaces {nodes : List NodeDef} {p : Place} (h : p ∈ allPlaces nodes) :
    p.1 ∈ nodes ∧ ∀ ch, p.2 = some ch → ch ∈ p.1.children := by
  obtain ⟨nd, hnd, hp⟩ := List.mem_flatMap.mp h
  rcases List.mem_cons.mp hp with rfl | hp
  · exact ⟨hnd, fun ch h => by cases h⟩
  · obtain ⟨ch, hch, rfl⟩ := List.mem_map.mp hp
    refine ⟨hnd, fun ch' h => ?_⟩
    cases h
    exact hch

theorem mem_emitSlots {nd : NodeDef} {emit : EmitDef} (h : some emit ∈ emitSlots nd) :
    emit ∈ nd.emits := by
  unfold emitSlots at h
  split at h
  · simp at h
  · obtain ⟨emit', hemit, heq⟩ := List.mem_map.mp h
    cases heq
    exact hemit

/-- With named children every string that the passes dereference is there. -/
theorem derefs_of_named {m : Manifest} {X : Stop BuildError → Prop} (hvalid : m.Valid)
    (hwritten : ∀ nd ∈ m.nodes, nd.Written) (hnamed : ChildrenNamed m.nodes) :
    Derefs X m.nodes := by
  have hnode : ∀ p ∈ allPlaces m.nodes, p.1.id ≠ none := by
    intro p hp
    obtain ⟨id, hid, -⟩ := (hvalid.named p.1 (mem_allPlaces hp).1).id
    rw [hid]
    simp
  have hchild : ∀ p ∈ allPlaces m.nodes, ∀ ch, p.2 = some ch → ch.id ≠ none := by
    intro p hp ch hch
    have hplace := mem_allPlaces hp
    exact hnamed ch (List.mem_flatMap.mpr ⟨p.1, hplace.1, hplace.2 ch hch⟩)
  refine ⟨fun x hx s hs hnull => ?_, fun x hx s hs hnull => ?_⟩
  · obtain ⟨p, hp, hx⟩ := List.mem_flatMap.mp hx
    obtain ⟨description, -, rfl⟩ := List.mem_map.mp hx
    obtain ⟨nd, ch⟩ := p
    cases ch with
    | none =>
      cases List.mem_singleton.mp hs
      exact absurd hnull (hnode _ hp)
    | some ch =>
      rcases List.mem_cons.mp hs with rfl | hs
      · exact absurd hnull (hchild _ hp ch rfl)
      · cases List.mem_singleton.mp hs
        exact absurd hnull (hnode _ hp)
  · obtain ⟨p, hp, hx⟩ := List.mem_flatMap.mp hx
    obtain ⟨slot, hslot, rfl⟩ := List.mem_map.mp hx
    have hplace := mem_allPlaces hp
    rcases List.mem_append.mp hs with hs | hs
    · obtain ⟨nd, ch⟩ := p
      cases ch with
      | none =>
        cases List.mem_singleton.mp hs
        exact absurd hnull (hnode _ hp)
      | some ch =>
        rcases List.mem_cons.mp hs with rfl | hs
        · exact absurd hnull (hnode _ hp)
        · cases List.mem_singleton.mp hs
          exact absurd hnull (hchild _ hp ch rfl)
    · cases slot with
      | none => cases hs
      | some emit =>
        have hemit := mem_emitSlots hslot
        have hwr : p.node.Written := by
          obtain ⟨nd, ch⟩ := p
          obtain ⟨-, -, hchildren⟩ := hwritten nd hplace.1
          cases ch with
          | none => exact hwritten nd hplace.1
          | some ch => exact hchildren ch (hplace.2 ch rfl)
        obtain ⟨-, hemits, -⟩ := hwr
        rcases List.mem_cons.mp hs with rfl | hs
        · exact absurd hnull (hemits emit hemit).1
        · cases List.mem_singleton.mp hs
          exact absurd hnull (hemits emit hemit).2

/-- The passes up to the rows stop at the child without an id. -/
theorem compile_null {host : Host} {emb : Emb} {m : Manifest} (hdim : 0 < emb.dim)
    (hfits : 2 * (tabBytes (tableStrings m)).length ≤ host.sizeMod)
    (hnull : ¬ ChildrenNamed m.nodes) :
    Keeps Quiet (· = .fault .null) (compile host emb m) fun _ => False := by
  have hmod := host.two_pow_32_le_sizeMod
  rw [compile_eq, if_neg (by omega)]
  refine Keeps.bind (references_keeps ⟨fun _ _ _ _ _ => rfl, fun _ _ _ _ _ => rfl⟩ ?_)
    fun r hr => ?_
  · rintro buf amount hsound (hle | hle)
    · refine .inr ⟨hsound, ?_⟩
      unfold fileHdrSize at hle
      omega
    · exact .inr ⟨hsound, by omega⟩
  -- a row was written for every child, so every child has an id
  refine absurd (fun ch hch hid => ?_) hnull
  obtain ⟨nd, hnd, hch⟩ := List.mem_flatMap.mp hch
  obtain ⟨slot, hslot⟩ := List.exists_mem_of_ne_nil _ (emitSlots_ne_nil ch)
  have hmem : ((nd, some ch), slot) ∈ slotsAt (childPlaces m.nodes) :=
    List.mem_flatMap.mpr ⟨(nd, some ch), List.mem_flatMap.mpr ⟨nd, hnd, List.mem_map_of_mem hch⟩,
      List.mem_map_of_mem hslot⟩
  obtain ⟨i, hi⟩ := List.get_of_mem hmem
  have hrow := hr.childRows.get (by rw [hr.childRows.length_eq]; exact i.2) i.2
  rw [hi] at hrow
  obtain ⟨s, off, hsome, -⟩ := hrow.node
  rw [show Place.node (nd, some ch) = ch from rfl, hid] at hsome
  cases hsome

/-- No run of the passes dereferences `NULL`, and no string that they use is `NULL`. -/
structure UsesNoNull (m : Manifest) : Prop where
  runs : ∀ host emb e e', (serialize host emb m).exec e ≠ (.error (.fault .null), e')
  strings : ∀ nd ∈ m.nodes ++ childNodes m.nodes, nd.id ≠ none ∧
    (∀ description ∈ nd.descriptions, description ≠ none) ∧
      ∀ emit ∈ nd.emits, emit.key ≠ none ∧ emit.value ≠ none

theorem parseText_written [Arith] {text : List UInt8} {m : Manifest} {e e' : Env}
    (hparse : (parseText text).exec e = (.ok m, e')) : ∀ nd ∈ m.nodes, nd.Written := by
  have hwritten : Keeps (fun _ => True) (fun _ => True) (parseText text)
      fun m => ∀ nd ∈ m.nodes, nd.Written := by
    unfold parseText
    refine Keeps.bind ((Json.parseManifest_written _).catching fun _ _ => trivial) fun r hr => ?_
    cases r with
    | error err => exact Keeps.fail trivial
    | ok parsed => exact Keeps.pure (hr.1 parsed rfl)
  exact (hwritten.value trivial hparse).1

theorem serialize_no_null {m : Manifest} (hvalid : m.Valid)
    (hwritten : ∀ nd ∈ m.nodes, nd.Written) (hnamed : ChildrenNamed m.nodes) (host : Host)
    (emb : Option Emb) (e e' : Env) :
    (serialize host emb m).exec e ≠ (.error (.fault .null), e') := by
  have hserves : Serves (fun _ => True) (· ≠ .fault .null) BuildError.noMemory :=
    serves_of_fail (fun _ _ h => h) (by simp)
  have hrun : Keeps (fun _ => True) (· ≠ .fault .null) (serialize host emb m) fun _ => True := by
    unfold serialize
    split
    · exact Keeps.fail (by simp)
    · cases emb with
      | none => exact Keeps.fail (by simp)
      | some emb =>
        have hcompiles : Compiles host emb (· ≠ .fault .null) m := ⟨fun _ => by simp,
          derefs_of_named hvalid hwritten hnamed, fun _ _ _ => by simp, fun _ => by simp⟩
        exact (compile_keeps hcompiles).mono fun _ _ => trivial
  intro hfault
  have h := (hrun e trivial).2
  rw [hfault] at h
  exact h rfl

/-- **No `NULL`** exactly when every child has an id; a child without one is dereferenced, when
the string table fits into the address space. -/
theorem serialize_null_iff [Arith] {text : List UInt8} {m : Manifest} {e e' : Env}
    (hparse : (parseText text).exec e = (.ok m, e')) (haccept : validateManifest m = .ok ()) :
    (UsesNoNull m ↔ ChildrenNamed m.nodes) ∧
      (2 * (tabBytes (tableStrings m)).length ≤ 2 ^ 64 → ¬ ChildrenNamed m.nodes →
        ∃ host emb e₀ e₁, (serialize host emb m).exec e₀ = (.error (.fault .null), e₁)) := by
  have hvalid := validateManifest_ok haccept
  have hwritten := parseText_written hparse
  refine ⟨⟨fun h ch hch => (h.strings ch (List.mem_append_right _ hch)).1, fun hnamed =>
    ⟨serialize_no_null hvalid hwritten hnamed, fun nd hnd => ?_⟩⟩, fun hfits hnull => ?_⟩
  · rcases List.mem_append.mp hnd with hnd | hnd
    · obtain ⟨hdesc, hemits, -⟩ := hwritten nd hnd
      obtain ⟨id, hid, -⟩ := (hvalid.named nd hnd).id
      exact ⟨by rw [hid]; simp, hdesc, hemits⟩
    · obtain ⟨parent, hparent, hch⟩ := List.mem_flatMap.mp hnd
      obtain ⟨-, -, hchildren⟩ := hwritten parent hparent
      obtain ⟨hdesc, hemits, -⟩ := hchildren nd hch
      exact ⟨hnamed nd hnd, hdesc, hemits⟩
  · have hrun := @compile_null ⟨.w64, .little⟩ unitEmb m (by decide) hfits hnull
    have hstop := (hrun ⟨[], []⟩ rfl).2
    have hserialize : serialize ⟨.w64, .little⟩ (some unitEmb) m =
        compile ⟨.w64, .little⟩ unitEmb m := by
      unfold serialize
      rw [haccept]
    refine ⟨⟨.w64, .little⟩, some unitEmb, ⟨[], []⟩, ((compile ⟨.w64, .little⟩ unitEmb m).exec
      ⟨[], []⟩).2, ?_⟩
    rw [hserialize]
    refine Prod.ext ?_ rfl
    split at hstop
    · exact hstop.elim
    · rename_i stop heq
      rw [heq, hstop]

/-- A node and a child, each with an id and a description. -/
def familyText : List UInt8 := ascii
  ("\x7b\"schema\":\"ipa.map.v1\",\"id\":\"m\",\"vendor\":\"v\",\"version\":\"1\",\"nodes\":[" ++
    "\x7b\"id\":\"n\",\"descriptions\":[\"d\"],\"children\":[" ++
      "\x7b\"id\":\"c\",\"descriptions\":[\"x\"]\x7d]\x7d]\x7d")

theorem serialize_null_iff_family : ∃ m e', (@parseText ieee familyText).exec ⟨[], []⟩ = (.ok m, e') ∧
    (UsesNoNull m ↔ ChildrenNamed m.nodes) ∧
      (2 * (tabBytes (tableStrings m)).length ≤ 2 ^ 64 → ¬ ChildrenNamed m.nodes →
        ∃ host emb e₀ e₁, (serialize host emb m).exec e₀ = (.error (.fault .null), e₁)) := by
  obtain ⟨m, e', hparse, haccept⟩ := exec_of_value? (x := @parseText ieee familyText)
    (e := ⟨[], []⟩) (q := fun m => (validateManifest m).isOk) (by decide +kernel)
  refine ⟨m, e', hparse, @serialize_null_iff ieee familyText m _ _ hparse ?_⟩
  cases h : validateManifest m with
  | error err => rw [h] at haccept; cases haccept
  | ok u => rfl

/-- A child without an id. -/
def namelessChildText : List UInt8 := ascii
  ("\x7b\"schema\":\"ipa.map.v1\",\"id\":\"m\",\"vendor\":\"v\",\"version\":\"1\",\"nodes\":[" ++
    "\x7b\"id\":\"n\",\"descriptions\":[\"d\"],\"children\":[\x7b\x7d]\x7d]\x7d")

theorem build_null : ∃ m e₁ e₂, (@parseText ieee namelessChildText).exec ⟨[], []⟩ = (.ok m, e₁) ∧
    validateManifest m = .ok () ∧
      (@build ieee unitSystem.host unitSystem.emb namelessChildText).exec ⟨[], []⟩ =
        (.error (.fault .null), e₂) := by
  obtain ⟨m, e₁, hparse, haccept⟩ := exec_of_value? (x := @parseText ieee namelessChildText)
    (e := ⟨[], []⟩) (q := fun m => (validateManifest m).isOk) (by decide +kernel)
  obtain ⟨e₂, hbuild⟩ := faults_eq_true.mp (show
    (@build ieee unitSystem.host unitSystem.emb namelessChildText).faults ⟨[], []⟩ .null = true by
      decide +kernel)
  refine ⟨m, e₁, e₂, hparse, ?_, hbuild⟩
  cases h : validateManifest m with
  | error err => rw [h] at haccept; cases haccept
  | ok u => rfl

end Ipa
