import Ipa.Runtime.Accesses
import Ipa.Schema.Bounds

/-!
# The stored offsets

Every text that opening a schema or parsing against it reads lies at an offset that the file stores:
the label of an embedding entry, or the node, the parent and the pair of a row. The code checks the
labels alone, and against the start of the file instead of the start of the string table. `FileReads`
names what can be read of a file: the entries that the loops arrive at and, under the ids that a
search can find for a text, rows and what they store. A session of one opening and any number of
parses stays inside exactly when all of it is inside.
-/

namespace Ipa

open Run

/-! ## Inside -/

/-- A text at `off` starts in the declared string table and ends before the end of the mapping. -/
structure FileHdr.TextInside (hdr : FileHdr) (mem : List UInt8) (off : Nat) : Prop where
  declared : hdr.strtabOff.toNat ≤ off ∧ off < hdr.strtabOff.toNat + hdr.strtabSize.toNat
  terminated : ∃ n, off ≤ n ∧ mem[n]? = some 0

/-- An access is inside: a text, or an entry with its vector or a row, which store the offsets. -/
def FileHdr.Inside (hdr : FileHdr) (mem : List UInt8) : Access → Prop
  | .text off => hdr.TextInside mem off
  | .block off _ => off + (embHdrSize + hdr.embDim.toNat * 4) ≤ mem.length
  | .row off len => off + len ≤ mem.length

/-- Every text of a log lies in the string table of the file. -/
def TextsInside (host : Host) (file : List UInt8) (log : List Access) : Prop :=
  ∀ off, .text off ∈ log → ∃ hdr, checkHeader host (mapping host file) = .ok hdr ∧
    hdr.TextInside (mapping host file) off

/-- So does every text, and the entries and the rows that store their offsets lie in the file. -/
def ReadsInside (host : Host) (file : List UInt8) (log : List Access) : Prop :=
  ∀ a ∈ log, ∃ hdr, checkHeader host (mapping host file) = .ok hdr ∧
    hdr.Inside (mapping host file) a

theorem ReadsInside.texts {host : Host} {file : List UInt8} {log : List Access}
    (h : ReadsInside host file log) : TextsInside host file log := fun _ hmem => h _ hmem

/-! ## Sessions -/

section Session

variable [Arith] (sys : System)

/-- Parse after parse, each with the outcomes of its allocations; what remains is the log. -/
def parses (s : Schema) : List (CStr × List Bool) → List Access → List Access
  | [], log => log
  | (input, allocs) :: rest, log =>
    parses s rest ((parse sys.host s input).exec ⟨allocs, log⟩).2.log

/-- The accesses of an opening and, where it succeeds, of the parses after it. -/
def session (file : List UInt8) (allocs : List Bool) (calls : List (CStr × List Bool)) :
    List Access :=
  match (openSchema sys file).exec ⟨allocs, []⟩ with
  | (.ok s, e) => parses sys s calls e.log
  | (.error _, e) => e.log

/-- What can be read of a file: what opening reads, and what a parse of an opened schema reads of the
rows under the ids that a search finds for the texts of its windows. -/
inductive FileReads (file : List UInt8) : Access → Prop
  | opening {a : Access} (read : sys.OpeningReads file a) : FileReads file a
  | parsing {s : Schema} {input : CStr} {a : Access} (opened : CanReturn (openSchema sys file) s)
      (read : s.Reads sys.host foundBy foundBy input a) : FileReads file a

/-- The condition on a file: what can be read of it is inside. -/
def StoredOffsetsSound (file : List UInt8) : Prop :=
  ∀ a, FileReads sys file a → ∃ hdr, checkHeader sys.host (mapping sys.host file) = .ok hdr ∧
    hdr.Inside (mapping sys.host file) a

end Session

/-! ## The log of a session -/

section Log

variable [Arith] {sys : System} {file : List UInt8}

/-- By induction on the parses. -/
theorem parses_inside (hsound : StoredOffsetsSound sys file) {s : Schema}
    (hopened : CanReturn (openSchema sys file) s) (calls : List (CStr × List Bool))
    {log : List Access} (hlog : ReadsInside sys.host file log) :
    ReadsInside sys.host file (parses sys s calls log) := by
  have hfrom := hopened
  obtain ⟨e, e', hrun⟩ := hfrom
  obtain ⟨hdr, -, hs⟩ := openSchema_from hrun
  induction calls generalizing log with
  | nil => exact hlog
  | cons call rest ih =>
    obtain ⟨input, allocs⟩ := call
    refine ih fun a ha => ?_
    rcases CanAccess.of_logged ha with hbefore | haccess
    · exact hlog a hbefore
    · exact hsound a (.parsing hopened (hs.parse_accesses_iff.mp haccess))

/-- Whatever can be read of a file is read by some session. -/
theorem FileReads.session {a : Access} (h : FileReads sys file a) :
    ∃ allocs calls, a ∈ session sys file allocs calls := by
  cases h with
  | opening hread =>
    obtain ⟨allocs, hlogged⟩ := openSchema_accesses_iff.mpr hread
    refine ⟨allocs, [], ?_⟩
    unfold Ipa.session
    rcases hrun : (openSchema sys file).exec ⟨allocs, []⟩ with ⟨stop | s, e⟩ <;>
      rw [hrun] at hlogged <;> exact hlogged
  | parsing hopened hread =>
    rename_i s input
    obtain ⟨asked, new, hleaves⟩ := hopened.leaving
    obtain ⟨hdr, -, hs⟩ := openSchema_from (hleaves [] [])
    obtain ⟨allocs, hlogged⟩ := (hs.parse_accesses_iff.mpr hread).exec (new ++ [])
    refine ⟨asked ++ [], [(input, allocs)], ?_⟩
    unfold Ipa.session
    rw [hleaves]
    exact hlogged

end Log

/-! ## Files -/

instance (hdr : FileHdr) (mem : List UInt8) (off : Nat) : Decidable (hdr.TextInside mem off) :=
  decidable_of_iff ((hdr.strtabOff.toNat ≤ off ∧
      off < hdr.strtabOff.toNat + hdr.strtabSize.toNat) ∧ 0 ∈ mem.drop off) <| by
    constructor
    · rintro ⟨hdeclared, hmem⟩
      obtain ⟨n, hn⟩ := List.mem_iff_getElem?.mp hmem
      rw [List.getElem?_drop] at hn
      exact ⟨hdeclared, off + n, Nat.le_add_right _ _, hn⟩
    · rintro ⟨hdeclared, n, hle, hn⟩
      refine ⟨hdeclared, List.mem_iff_getElem?.mpr ⟨n - off, ?_⟩⟩
      rw [List.getElem?_drop, Nat.add_sub_cancel' hle]
      exact hn

instance (hdr : FileHdr) (mem : List UInt8) : DecidablePred (hdr.Inside mem)
  | .text off => inferInstanceAs (Decidable (hdr.TextInside mem off))
  | .block off _ => inferInstanceAs (Decidable (off + (embHdrSize + hdr.embDim.toNat * 4) ≤ _))
  | .row off len => inferInstanceAs (Decidable (off + len ≤ mem.length))

instance (host : Host) (file : List UInt8) (log : List Access) :
    Decidable (TextsInside host file log) :=
  decidable_of_iff (log.all (fun
    | .text off =>
      match checkHeader host (mapping host file) with
      | .error _ => false
      | .ok hdr => decide (hdr.TextInside (mapping host file) off)
    | _ => true) = true) <| by
    rw [List.all_eq_true]
    constructor
    · intro h off hmem
      have hin := h _ hmem
      cases hcheck : checkHeader host (mapping host file) with
      | error err =>
        rw [hcheck] at hin
        cases hin
      | ok hdr =>
        rw [hcheck] at hin
        exact ⟨hdr, rfl, of_decide_eq_true hin⟩
    · intro h a hmem
      cases a with
      | text off =>
        obtain ⟨hdr, hcheck, hin⟩ := h off hmem
        simp only [hcheck]
        exact decide_eq_true hin
      | block off len => rfl
      | row off len => rfl

section AllInside

variable (hdr : FileHdr) (host : Host) (mem : List UInt8)

/-- The accesses to an entry of a block, and to all that row `i` of a table stores. -/
def EmbBlock.accesses (b : EmbBlock) (i : Nat) : List Access := [b.access i, .text (b.labelAt i)]

def FileHdr.nodeAccesses (i : Nat) : List Access :=
  let nm := NodeMeta.read host.order mem (hdr.nodeMetaOff.toNat + nodeMetaSize * i)
  .row (hdr.nodeMetaOff.toNat + nodeMetaSize * i) nodeMetaSize ::
    [nm.nodeIdOff, nm.emitKeyOff, nm.emitValOff].map fun off =>
      .text (hdr.strtabOff.toNat + off.toNat)

def FileHdr.childAccesses (i : Nat) : List Access :=
  let cm := ChildMeta.read host.order mem (hdr.childMetaOff.toNat + childMetaSize * i)
  .row (hdr.childMetaOff.toNat + childMetaSize * i) childMetaSize ::
    [cm.nodeIdOff, cm.parentIdOff, cm.emitKeyOff, cm.emitValOff].map fun off =>
      .text (hdr.strtabOff.toNat + off.toNat)

/-- All that a file stores is inside, read or not. -/
def FileHdr.AllInside : Prop :=
  ((∀ i < hdr.nodeEmbCount.toNat, ∀ a ∈ (hdr.nodeBlock host mem).accesses i, hdr.Inside mem a) ∧
    ∀ i < hdr.childEmbCount.toNat, ∀ a ∈ (hdr.childBlock host mem).accesses i, hdr.Inside mem a) ∧
  (∀ i < hdr.nodeMetaCount.toNat, ∀ a ∈ hdr.nodeAccesses host mem i, hdr.Inside mem a) ∧
    ∀ i < hdr.childMetaCount.toNat, ∀ a ∈ hdr.childAccesses host mem i, hdr.Inside mem a

instance : Decidable (hdr.AllInside host mem) := inferInstanceAs (Decidable ((_ ∧ _) ∧ _ ∧ _))

end AllInside

section Sound

variable {sys : System} {mem : List UInt8} {hdr : FileHdr}

theorem EmbBlock.Reads.accesses {b : EmbBlock} {a : Access} (h : b.Reads a) :
    ∃ i < b.count, a ∈ b.accesses i := by
  obtain ⟨i, hi, -, hread⟩ := h
  refine ⟨i, hi, ?_⟩
  cases hread with
  | entry => exact List.mem_cons_self
  | label => exact List.mem_cons_of_mem _ List.mem_cons_self

variable [Arith] {s : Schema} (h : OpenedFrom sys mem hdr s) {a : Access}

include h

/-- What is read of the node table is stored in one of its rows. -/
theorem OpenedFrom.nodeAccesses {nodeId : CStr} (hread : NodeReads sys.host s nodeId a) :
    ∃ i < hdr.nodeMetaCount.toNat, a ∈ hdr.nodeAccesses sys.host mem i := by
  have hrow : ∀ {i}, i < s.index.nodeMetaCount → i < hdr.nodeMetaCount.toNat :=
    fun hi => h.nodeMetaCount ▸ hi
  unfold FileHdr.nodeAccesses
  cases hread with
  | row hi =>
    refine ⟨_, hrow hi, ?_⟩
    rw [h.nodeMeta (count_pos (hrow hi))]
    exact List.mem_cons_self
  | keyed hi _ | sought hi _ | key hi _ | value hi _ =>
    refine ⟨_, hrow hi, List.mem_cons_of_mem _ (List.mem_map.mpr ⟨_, ?_, by
      rw [Schema.textAccess, h.strtab, h.nodeMetaAt_eq (hrow hi)]⟩)⟩
    simp

/-- A text that row `i` of the child table stores. -/
theorem OpenedFrom.childText {i : Nat} (hi : i < s.index.childMetaCount) {off : UInt32}
    (hoff : let cm := childMetaAt sys.host s i
      off ∈ [cm.nodeIdOff, cm.parentIdOff, cm.emitKeyOff, cm.emitValOff]) :
    s.textAccess off ∈ hdr.childAccesses sys.host mem i := by
  rw [h.childMetaAt_eq (h.childMetaCount ▸ hi)] at hoff
  refine List.mem_cons_of_mem _ (List.mem_map.mpr ⟨off, hoff, ?_⟩)
  rw [Schema.textAccess, h.strtab]

theorem OpenedFrom.childRow {i : Nat} (hi : i < s.index.childMetaCount) :
    .row (s.index.childMeta + childMetaSize * i) childMetaSize ∈
      hdr.childAccesses sys.host mem i := by
  rw [h.childMeta (count_pos (h.childMetaCount ▸ hi))]
  exact List.mem_cons_self

theorem OpenedFrom.comparisonAccesses {id : CStr} {i : Nat} (hi : i < s.index.childMetaCount)
    (hread : ComparisonReads sys.host s id i a) : a ∈ hdr.childAccesses sys.host mem i := by
  cases hread with
  | row => exact h.childRow hi
  | child => exact h.childText hi (by simp)
  | parent _ => exact h.childText hi (by simp)

/-- What is read of the child table is stored in one of its rows. -/
theorem OpenedFrom.childAccesses {parentId id : CStr}
    (hread : ChildReads sys.host s parentId id a ∨ ChildEmitReads sys.host s parentId id a) :
    ∃ i < hdr.childMetaCount.toNat, a ∈ hdr.childAccesses sys.host mem i := by
  rw [← h.childMetaCount]
  rcases hread with ⟨i, hi, -, hread⟩ | hread
  · exact ⟨i, hi, h.comparisonAccesses hi hread⟩
  cases hread with
  | row hi => exact ⟨_, hi, h.childRow hi⟩
  | keyed hi _ hread => exact ⟨_, hi, h.comparisonAccesses hi hread⟩
  | key hi _ _ => exact ⟨_, hi, h.childText hi (by simp)⟩
  | value hi _ _ => exact ⟨_, hi, h.childText hi (by simp)⟩

end Sound

/-- A file that stores nothing but what is inside is sound. -/
theorem storedOffsetsSound_of [Arith] {sys : System} {file : List UInt8}
    (hall : ∀ hdr, checkHeader sys.host (mapping sys.host file) = .ok hdr →
      hdr.AllInside sys.host (mapping sys.host file)) : StoredOffsetsSound sys file := by
  intro a ha
  cases ha with
  | opening hread =>
    obtain ⟨hdr, emb, ⟨hcheck, -⟩, hread⟩ := hread
    obtain ⟨⟨hnodes, hchildren⟩, -⟩ := hall hdr hcheck
    refine ⟨hdr, hcheck, ?_⟩
    rcases hread with hread | ⟨-, hread⟩
    · obtain ⟨i, hi, hmem⟩ := hread.accesses
      exact hnodes i hi a hmem
    · obtain ⟨i, hi, hmem⟩ := hread.accesses
      exact hchildren i hi a hmem
  | parsing hopened hread =>
    obtain ⟨e, e', hrun⟩ := hopened
    obtain ⟨hdr, hcheck, hs⟩ := openSchema_from hrun
    obtain ⟨-, hnodeRows, hchildRows⟩ := hall hdr hcheck
    obtain ⟨-, w, -, id, -, hread⟩ := hread
    refine ⟨hdr, hcheck, ?_⟩
    rcases hread with hread | ⟨-, v, -, id', -, hread⟩
    · obtain ⟨i, hi, hmem⟩ := hs.nodeAccesses hread
      exact hnodeRows i hi a hmem
    · obtain ⟨i, hi, hmem⟩ := hs.childAccesses (hread.imp_right And.right)
      exact hchildRows i hi a hmem

/-- **The texts of a session**: opening a file and any parses after it read strings of the declared
table that end in the file, and take their offsets from entries and rows in the file, exactly when
what can be read of the file is inside. -/
theorem session_texts_inside [Arith] (sys : System) (file : List UInt8) :
    (∀ allocs calls, ReadsInside sys.host file (session sys file allocs calls)) ↔
      StoredOffsetsSound sys file := by
  constructor
  · intro hinside a ha
    obtain ⟨allocs, calls, hmem⟩ := ha.session
    exact hinside allocs calls a hmem
  · intro hsound allocs calls
    have hopening : ReadsInside sys.host file ((openSchema sys file).exec ⟨allocs, []⟩).2.log := by
      intro a ha
      rcases CanAccess.of_logged ha with hnone | haccess
      · cases hnone
      · exact hsound a (.opening (openSchema_accesses_iff.mp haccess))
    unfold session
    rcases hrun : (openSchema sys file).exec ⟨allocs, []⟩ with ⟨stop | s, e⟩ <;>
      rw [hrun] at hopening
    · exact hopening
    · exact parses_inside hsound ⟨_, _, hrun⟩ calls hopening

/-- The image of a family, opened and parsed against in any way. -/
theorem session_texts_inside_family : ∃ image e,
    (serialize unitSystem.host unitSystem.emb familyManifest).exec ⟨[], []⟩ = (.ok image, e) ∧
      ∀ allocs calls,
        ReadsInside unitSystem.host image (@session ieee unitSystem image allocs calls) := by
  obtain ⟨image, e, hbuild, hstored⟩ := exec_of_value?
    (x := serialize unitSystem.host unitSystem.emb familyManifest) (e := ⟨[], []⟩)
    (q := fun image => match checkHeader unitSystem.host (mapping unitSystem.host image) with
      | .error _ => true
      | .ok hdr => decide (hdr.AllInside unitSystem.host (mapping unitSystem.host image)))
    (by decide +kernel)
  refine ⟨image, e, hbuild, (@session_texts_inside ieee unitSystem image).mpr ?_⟩
  refine @storedOffsetsSound_of ieee unitSystem image fun hdr hcheck => ?_
  rw [hcheck] at hstored
  exact of_decide_eq_true hstored

/-- The image with four bytes replaced by `bytes`. -/
def patched (image : List UInt8) (at_ : Nat) (bytes : List UInt8) : List UInt8 :=
  image.take at_ ++ (bytes ++ image.drop (at_ + bytes.length))

/-- With a string table of no bytes, opening reads labels outside of it; with a node offset of
0xFFFFFFFF, a parse reads a text behind the end of the file. Both files are opened. -/
theorem session_reads_outside : ∃ image e,
    (serialize unitSystem.host unitSystem.emb familyManifest).exec ⟨[], []⟩ = (.ok image, e) ∧
      (((@openSchema ieee unitSystem (patched image 16 [0, 0, 0, 0])).value? ⟨[], []⟩).isSome ∧
        ¬ TextsInside unitSystem.host (patched image 16 [0, 0, 0, 0])
          (@session ieee unitSystem (patched image 16 [0, 0, 0, 0]) [] [])) ∧
      ((@openSchema ieee unitSystem (patched image 141 [0xFF, 0xFF, 0xFF, 0xFF])).value?
          ⟨[], []⟩).isSome ∧
        ¬ TextsInside unitSystem.host (patched image 141 [0xFF, 0xFF, 0xFF, 0xFF])
          (@session ieee unitSystem (patched image 141 [0xFF, 0xFF, 0xFF, 0xFF]) []
            [(CStr.ofString "d", [])]) := by
  obtain ⟨image, e, hbuild, h⟩ := exec_of_value?
    (x := serialize unitSystem.host unitSystem.emb familyManifest) (e := ⟨[], []⟩)
    (q := fun image =>
      let empty := patched image 16 [0, 0, 0, 0]
      let wild := patched image 141 [0xFF, 0xFF, 0xFF, 0xFF]
      decide ((((@openSchema ieee unitSystem empty).value? ⟨[], []⟩).isSome ∧
        ¬ TextsInside unitSystem.host empty (@session ieee unitSystem empty [] [])) ∧
        ((@openSchema ieee unitSystem wild).value? ⟨[], []⟩).isSome ∧
        ¬ TextsInside unitSystem.host wild
          (@session ieee unitSystem wild [] [(CStr.ofString "d", [])])))
    (by decide +kernel)
  exact ⟨image, e, hbuild, of_decide_eq_true h⟩

end Ipa
