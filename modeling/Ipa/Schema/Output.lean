import Ipa.Lib.Stdio
import Ipa.Schema.Aligned

/-!
# From the manifest file to the schema file

`kcIpaBuild` is the whole of `kc_ipa_build`: it reads the manifest, compiles it and stores the image
at the output path. Where reading, writing and closing fail is an argument. Everything that comes
before the output is opened is `compileFile`, which does not know the output.

Opening the output empties it, and what closing it does not transfer goes unnoticed. So a build
that reaches the output is safe exactly when nothing fails from then on.
-/

namespace Ipa

open Run

/-! ## Reading the manifest -/

/-- What ends a build before the output is opened. -/
inductive InputError
  | openIn
  | seek
  | read
  | build (err : BuildError)
deriving DecidableEq

def InputError.rc : InputError → Rc
  | build err => err.rc
  | _ => .error

/-- The manifest file, if it can be opened, and how reading it goes: `fread` leaves out the last
`short` bytes. -/
structure InputFile where
  content : Option (List UInt8)
  seeks : Bool
  tells : Bool
  short : Nat

/-- `ftell` at the end of the file. -/
def InputFile.tell (input : InputFile) (text : List UInt8) : Int :=
  if input.tells then text.length else -1

def readManifest (input : InputFile) : Run InputError (List UInt8) :=
  match input.content with
  | none => fail .openIn
  | some text =>
    if input.seeks = false then fail .seek
    else if input.tell text ≤ 0 then fail (.build .emptyFile)
    else do
      allocOr (.build .noMemory)
      if text.length - input.short ≠ text.length then fail .read
      else pure text

def building {α : Type} (x : Run BuildError α) : Run InputError α := do
  match ← catching x with
  | .error err => fail (.build err)
  | .ok a => pure a

/-- Everything before the output is opened. -/
def compileFile [Arith] (host : Host) (emb : Option Emb) (input : InputFile) :
    Run InputError (List UInt8) := do
  let text ← readManifest input
  let m ← building (parseText text)
  building (serialize host emb m)

/-! ## Storing the image -/

/-- How opening, writing and closing the output go. -/
structure OutputFile where
  opens : Bool
  short : Nat
  kept : Nat
  lost : Nat

/-- The result, and the output file from its content before. -/
def writeImage (output : OutputFile) (image : List UInt8) (old : Option (List UInt8)) :
    Rc × Option (List UInt8) :=
  if output.opens = false then (.error, old)
  else
    let (count, fout) := OutStream.opened.fwrite image output.short output.kept
    let rc := if count = image.length then .ok else .error
    (rc, some (fout.fclose output.lost))

/-- The code, unless the build faults, and the output file from its content before. -/
def kcIpaBuild [Arith] (host : Host) (emb : Option Emb) (input : InputFile) (output : OutputFile)
    (old : Option (List UInt8)) (e : Env) : Option Rc × Option (List UInt8) :=
  match (compileFile host emb input).exec e with
  | (.error (.fail err), _) => (some err.rc, old)
  | (.error (.fault _), _) => (none, old)
  | (.ok image, _) =>
    let (rc, out) := writeImage output image old
    (some rc, out)

/-! ## What should hold -/

/-- `OK` only with the whole image stored, and an output left alone otherwise. -/
structure StoresOrLeaves (image? : Option (List UInt8)) (old : Option (List UInt8))
    (r : Option Rc × Option (List UInt8)) : Prop where
  stores : r.1 = some .ok → ∃ image, image? = some image ∧ r.2 = some image
  leaves : ∀ rc, r.1 = some rc → rc ≠ .ok → r.2 = old

/-- Nothing fails once the output is open, or closing it has nothing left to lose. -/
def OutputFile.Stores (output : OutputFile) : Prop :=
  output.short = 0 ∧ (output.kept = 0 ∨ output.lost = 0)

section Reading

variable [Arith] {host : Host} {emb : Option Emb} {input : InputFile} {e : Env}

omit [Arith] in
theorem building_bind {α β : Type} (x : Run BuildError α) (f : α → Run BuildError β) :
    building (x >>= f) = building x >>= fun a => building (f a) := by
  refine ext fun e => ?_
  simp only [building, exec_bind, exec_catching]
  rcases x.exec e with ⟨(fault | err) | a, e'⟩ <;> rfl

/-- Without a failure while reading, the passes are those of `build`. -/
theorem compileFile_eq_build {text : List UInt8} (hcontent : input.content = some text)
    (hseeks : input.seeks = true) (htells : input.tells = true) (hshort : input.short = 0) :
    compileFile host emb input = building (build host emb text) := by
  unfold compileFile readManifest build
  rw [hcontent]
  dsimp only
  rw [if_neg (by rw [hseeks]; decide), InputFile.tell, if_pos htells]
  by_cases hempty : text.length = 0
  · rw [if_pos (by omega), if_pos hempty]
    rfl
  · rw [if_neg (by omega), if_neg hempty, building_bind, hshort]
    refine ext fun e => ?_
    simp only [building_bind, exec_bind, Nat.sub_zero, ne_eq, not_true_eq_false, if_false]
    have halloc : (allocOr (InputError.build .noMemory)).exec e =
        (building (allocOr .noMemory)).exec e := by
      obtain ⟨allocs, log⟩ := e
      rcases allocs with _ | ⟨_ | _, allocs⟩ <;> rfl
    rw [halloc]
    rcases (building (allocOr .noMemory)).exec e with ⟨stop | u, e'⟩ <;> rfl

omit [Arith] in
theorem exec_of_building {α : Type} {x : Run BuildError α} {a : α} {e' : Env}
    (h : (building x).exec e = (.ok a, e')) : x.exec e = (.ok a, e') := by
  simp only [building, exec_bind, exec_catching] at h
  rcases hx : x.exec e with ⟨(fault | err) | b, e₁⟩ <;> rw [hx] at h
  · cases h
  · cases h
  · simpa using h

/-- The image at least has a header. -/
theorem compileFile_ne_nil {image : List UInt8} {e' : Env}
    (h : (compileFile host emb input).exec e = (.ok image, e')) : image ≠ [] := by
  unfold compileFile at h
  rw [exec_bind] at h
  rcases hread : (readManifest input).exec e with ⟨stop | text, e₁⟩ <;> rw [hread] at h
  · cases h
  dsimp only at h
  rw [exec_bind] at h
  rcases hparse : (building (parseText text)).exec e₁ with ⟨stop | m, e₂⟩ <;> rw [hparse] at h
  · cases h
  obtain ⟨-, emb, -, p, -, rfl, -⟩ := serialize_ok (exec_of_building h)
  intro hnil
  have hlength := congrArg List.length hnil
  rw [p.length_image] at hlength
  simp only [Parts.size, Parts.childMetaOff, Parts.nodeMetaOff, Parts.childEmbOff,
    Parts.nodeEmbOff, fileHdrSize, List.length_nil] at hlength
  omega

end Reading

theorem InputError.rc_ne_ok (err : InputError) : err.rc ≠ .ok := by
  cases err with
  | build err => cases err <;> simp [InputError.rc, BuildError.rc]
  | _ => simp [InputError.rc]

section Writing

variable {output : OutputFile} {image : List UInt8}

/-- The output is stored as it should be for every content before, exactly when nothing fails once
it is open. -/
theorem writeImage_safe_iff (himage : image ≠ []) :
    (∀ old, StoresOrLeaves (some image) old
      (some (writeImage output image old).1, (writeImage output image old).2)) ↔
      (output.opens = true → output.Stores) := by
  have hpos : 0 < image.length := List.length_pos_iff.mpr himage
  by_cases hopens : output.opens = false
  · refine ⟨fun _ h => absurd h (by rw [hopens]; decide), fun _ old => ?_⟩
    rw [writeImage, if_pos hopens]
    exact ⟨fun h => (by cases h), fun _ _ _ => rfl⟩
  rw [Bool.not_eq_false] at hopens
  have hwrite : ∀ old, writeImage output image old =
      (if image.length - output.short = image.length then .ok else .error,
        some ((OutStream.opened.fwrite image output.short output.kept).2.fclose output.lost)) := by
    intro old
    rw [writeImage, if_neg (by rw [hopens]; decide)]
    simp only [OutStream.fwrite_count]
  simp only [hwrite, hopens, forall_const]
  by_cases hshort : output.short = 0
  · rw [if_pos (by omega)]
    -- everything was taken: what is stored is the image, up to what closing loses
    have hstored := OutStream.opened.fwrite_stored image output.short output.kept
    have hbuffer := OutStream.opened.fwrite_buffer_length image output.short output.kept
    generalize (OutStream.opened.fwrite image output.short output.kept).2 = fout
      at hstored hbuffer ⊢
    have hfile : fout.file ++ fout.buffer = image := by
      simpa [OutStream.opened, hshort] using hstored
    have hempty : fout.buffer = [] ↔ output.kept = 0 := by
      rw [← List.length_eq_zero_iff, hbuffer, hshort]
      simp only [OutStream.opened, List.length_nil]
      omega
    have hclose := fout.fclose_eq_iff output.lost
    rw [hfile, hempty] at hclose
    constructor
    · intro hsafe
      obtain ⟨image', himage', hout⟩ := (hsafe none).stores rfl
      cases himage'
      exact ⟨hshort, (hclose.mp (Option.some.inj hout)).symm⟩
    · rintro ⟨-, hlost⟩ old
      exact ⟨fun _ => ⟨image, rfl, congrArg some (hclose.mpr hlost.symm)⟩,
        fun rc hrc hne => absurd (Option.some.inj hrc).symm hne⟩
  · rw [if_neg (by omega)]
    constructor
    · intro hsafe
      -- the output existed from the moment it was opened
      have hout := (hsafe none).leaves .error rfl (by decide)
      cases hout
    · rintro ⟨hzero, -⟩
      exact absurd hzero hshort

end Writing

/-- **Storing**: whatever the output contained, a build stores the whole image with `OK` or leaves
the output alone, exactly when nothing fails after the output was opened. -/
theorem kcIpaBuild_stores_iff [Arith] (host : Host) (emb : Option Emb) (input : InputFile)
    (output : OutputFile) (e : Env) :
    (∀ old, StoresOrLeaves ((compileFile host emb input).value? e) old
      (kcIpaBuild host emb input output old e)) ↔
      (((compileFile host emb input).value? e).isSome = true → output.opens = true →
        output.Stores) := by
  rcases hcompile : (compileFile host emb input).exec e with ⟨(fault | err) | image, e'⟩
  · refine ⟨fun _ h => ?_, fun _ old => ?_⟩
    · simp [value?, hcompile] at h
    · rw [kcIpaBuild, hcompile]
      exact ⟨fun h => (by cases h), fun _ _ _ => rfl⟩
  · refine ⟨fun _ h => ?_, fun _ old => ?_⟩
    · simp [value?, hcompile] at h
    · rw [kcIpaBuild, hcompile]
      exact ⟨fun h => absurd (Option.some.inj h) err.rc_ne_ok, fun _ _ _ => rfl⟩
  · have himage : (compileFile host emb input).value? e = some image :=
      value?_eq_some.mpr ⟨e', hcompile⟩
    simp only [himage, kcIpaBuild, hcompile, Option.isSome_some, forall_const]
    exact writeImage_safe_iff (compileFile_ne_nil hcompile)

def leafFile : InputFile := ⟨some leafText, true, true, 0⟩

/-- The image of the leaf manifest, and its build over an output that contains one byte. -/
def leafImage : Option (List UInt8) :=
  (@compileFile ieee unitSystem.host unitSystem.emb leafFile).value? ⟨[], []⟩

def buildLeaf (output : OutputFile) : Option Rc × Option (List UInt8) :=
  @kcIpaBuild ieee unitSystem.host unitSystem.emb leafFile output (some [0]) ⟨[], []⟩

/-- A failing flush at the close goes unnoticed, and a failing write has destroyed the output. -/
theorem kcIpaBuild_loses :
    (∃ image, leafImage = some image ∧ buildLeaf ⟨true, 0, 1, 1⟩ = (some .ok, some image.dropLast) ∧
      ¬ StoresOrLeaves leafImage (some [0]) (buildLeaf ⟨true, 0, 1, 1⟩)) ∧
    buildLeaf ⟨true, 1, 200, 200⟩ = (some .error, some []) ∧
      ¬ StoresOrLeaves leafImage (some [0]) (buildLeaf ⟨true, 1, 200, 200⟩) := by
  have herror : buildLeaf ⟨true, 1, 200, 200⟩ = (some .error, some []) := by decide +kernel
  obtain ⟨image, e', hcompile, hok⟩ := exec_of_value?
    (x := @compileFile ieee unitSystem.host unitSystem.emb leafFile) (e := ⟨[], []⟩)
    (q := fun image => image.dropLast ≠ image ∧
      buildLeaf ⟨true, 0, 1, 1⟩ = (some .ok, some image.dropLast)) (by decide +kernel)
  obtain ⟨hshorter, hok⟩ := of_decide_eq_true hok
  have himage : leafImage = some image := value?_eq_some.mpr ⟨e', hcompile⟩
  refine ⟨⟨image, himage, hok, fun hsafe => ?_⟩, herror, fun hsafe => ?_⟩
  · obtain ⟨image', himage', hstored⟩ := hsafe.stores (by rw [hok])
    rw [himage] at himage'
    rw [hok] at hstored
    cases himage'
    exact hshorter (Option.some.inj hstored)
  · have hleft := hsafe.leaves .error (by rw [herror]) (by decide)
    rw [herror] at hleft
    cases hleft

end Ipa
