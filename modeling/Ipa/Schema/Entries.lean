import Ipa.Schema.Open
import Ipa.Hnsw.Add
import Ipa.Hnsw.Build

/-!
# Reading a block of embedding entries

The loop over a block reads entry after entry until a check fails. `EntryOk` is what the loop
checks of one entry; a fill that returns found every entry so, and its index received the labels
and the vectors in the order of the block. Where the entries are so, and the arrays do not wrap,
the fill returns.
-/

namespace Ipa

open Run

/-- A block of embedding entries of a mapped file. -/
structure EmbBlock where
  host : Host
  mem : List UInt8
  off : Nat
  count : Nat
  dim : Nat
  strtab : Nat

namespace EmbBlock

section Entry

variable (b : EmbBlock) (i : Nat)

def offset : Nat := entryOffset b.host b.off b.dim i

def hdr : EmbHdr := EmbHdr.read b.host.order b.mem (b.offset i)

def labelAt : Nat := b.strtab + (b.hdr i).labelOff.toNat

def label : CStr := CStr.read b.mem (b.labelAt i)

def vector : List Binary32 :=
  readVector b.host.order b.mem (b.offset i + embHdrSize) b.dim

/-- The bytes of an entry that the loop dereferences. -/
def access : Access := .block (b.offset i) (embHdrSize + b.host.size (b.dim * 4))

/-- The check of the entry itself. -/
def inside : Bool :=
  boundsOk b.mem.length (UInt32.ofNat (b.offset i)) (entryStride b.host b.dim)

/-- The check of its label. -/
def labelInside : Bool :=
  boundsOk b.mem.length (b.hdr i).labelOff (b.host.size ((b.hdr i).labelLen.toNat + 1))

/-- What the loop checks of an entry. -/
structure EntryOk : Prop where
  inside : b.inside i = true
  labelInside : b.labelInside i = true
  named : (b.label i).bytes ≠ []

/-- The items that the array of the index has room for. -/
def slots : Nat := Hnsw.slotsFor b.host b.count

/-- The loop takes the entry: it passes its checks and is written in bounds. -/
structure Taken : Prop where
  ok : b.EntryOk i
  vector : b.dim * 4 < b.host.sizeMod
  slot : i < b.slots

/-- The loop arrives at the entry. -/
def Arrives : Prop := ∀ j < i, b.Taken j

/-- What a turn of the loop reads of the file: the entry when its check passes, and then the label
when its own check does. -/
inductive EntryReads : Access → Prop
  | entry (inside : b.inside i = true) : EntryReads (b.access i)
  | label (inside : b.inside i = true) (labelInside : b.labelInside i = true) :
      EntryReads (.text (b.labelAt i))

end Entry

/-- What the loop reads. -/
def Reads (b : EmbBlock) (a : Access) : Prop := ∃ i < b.count, b.Arrives i ∧ b.EntryReads i a

variable [Arith]

def item (b : EmbBlock) (i : Nat) : Hnsw.Item := Hnsw.freshItem (b.label i) (b.vector i)

def fill (b : EmbBlock) (efSearch : Option Int) (seed : UInt64) : Run Hnsw.Status Hnsw.Index :=
  fillHnsw b.host b.mem b.off b.count b.dim b.strtab efSearch seed

/-- The arrays of the index are allocated in full. -/
structure Fits (b : EmbBlock) : Prop where
  vector : b.dim * 4 < b.host.sizeMod
  items : b.count * Hnsw.itemSize b.host < b.host.sizeMod

/-- The index after the first `n` entries. -/
structure FilledTo (b : EmbBlock) (n : Nat) (hnsw : Hnsw.Index) : Prop where
  ok : ∀ i < n, b.EntryOk i
  items : hnsw.items = (List.range n).map b.item
  lost : hnsw.lost = 0
  dimension : hnsw.dimension = b.dim
  metric : hnsw.metric = .cosine

/-- The arrays behind the index while it is filled. -/
structure Reserved (b : EmbBlock) (hnsw : Hnsw.Index) : Prop where
  capacity : hnsw.capacity = b.count
  slots : hnsw.slots = b.slots

variable {b : EmbBlock} {I : Env → Prop} {X : Stop Hnsw.Status → Prop}

theorem FilledTo.count {n : Nat} {hnsw : Hnsw.Index} (h : b.FilledTo n hnsw) : hnsw.count = n := by
  rw [Hnsw.Index.count, h.items, h.lost, List.length_map, List.length_range, Nat.add_zero]

omit [Arith] in
theorem itemSize_pos (host : Host) : 0 < Hnsw.itemSize host := by
  unfold Hnsw.itemSize
  split <;> decide

omit [Arith] in
theorem Fits.slots_eq (h : b.Fits) : b.slots = b.count := by
  rw [EmbBlock.slots, Hnsw.slotsFor, Host.size_of_lt h.items]
  exact Nat.mul_div_cancel _ (itemSize_pos b.host)

variable [Serves I X Hnsw.Status.enomem]

/-- **One turn of the loop**: an entry that fails a check ends it, the others are added. -/
theorem addEntry_keeps {n : Nat} {hnsw : Hnsw.Index} (h : b.FilledTo n hnsw)
    (hreserved : b.Reserved hnsw) (hn : n < b.count) (hfail : ¬ b.EntryOk n → X (.fail .einval))
    (hroom : (b.dim * 4 < b.host.sizeMod ∧ n < b.slots) ∨ X (.fault .index))
    (hreads : ∀ a, b.EntryReads n a → Admits I a) :
    Keeps I X (addEntry b.host b.mem b.off b.dim b.strtab hnsw n) fun hnsw' =>
      b.FilledTo (n + 1) hnsw' ∧ b.Reserved hnsw' ∧ b.Taken n := by
  have hlt : hnsw.count < hnsw.capacity := by
    rw [h.count, hreserved.capacity]
    exact hn
  unfold addEntry
  simp only
  split
  · rename_i hinside
    change (!b.inside n) = true at hinside
    exact Keeps.fail (hfail fun hok => by simp [hok.inside] at hinside)
  rename_i hinside
  change ¬ (!b.inside n) = true at hinside
  simp only [Bool.not_eq_true', Bool.not_eq_false] at hinside
  refine Keeps.bind (Keeps.touch (hreads _ (.entry hinside))) fun _ _ => ?_
  split
  · rename_i hlabel
    change (!b.labelInside n) = true at hlabel
    exact Keeps.fail (hfail fun hok => by simp [hok.labelInside] at hlabel)
  rename_i hlabel
  change ¬ (!b.labelInside n) = true at hlabel
  simp only [Bool.not_eq_true', Bool.not_eq_false] at hlabel
  refine Keeps.bind (Q := fun label => label = b.label n)
    (Keeps.bind (Keeps.touch (hreads _ (.label hinside hlabel))) fun _ _ => Keeps.pure rfl) ?_
  rintro label rfl
  refine (Hnsw.add_keeps h.lost (fun hempty => hfail fun hok => hok.named hempty) ?_).mono ?_
  · rcases hroom with ⟨hvector, hslot⟩ | hfault
    · refine .inl ⟨?_, hlt, ?_⟩
      · rw [h.dimension]
        exact hvector
      · rw [h.count, hreserved.slots]
        exact hslot
    · exact .inr hfault
  · rintro hnsw' ⟨hnamed, hadded, hfit⟩
    have hok : b.EntryOk n := ⟨hinside, hlabel, hnamed⟩
    obtain ⟨hvector, -, hslot⟩ := hfit hlt
    rw [h.dimension] at hvector
    rw [h.count, hreserved.slots] at hslot
    refine ⟨⟨?_, ?_, hadded.lost, ?_, ?_⟩, ?_, hok, hvector, hslot⟩
    · intro i hi
      rcases Nat.lt_succ_iff_lt_or_eq.mp hi with hlt | rfl
      · exact h.ok i hlt
      · exact hok
    · rw [hadded.items, h.items, List.range_succ, List.map_append]
      rfl
    · exact hadded.shape.dimension.trans h.dimension
    · exact hadded.shape.metric.trans h.metric
    · obtain ⟨hcapacity, hslots⟩ := hadded.room hlt
      exact ⟨hcapacity.trans hreserved.capacity, hslots.trans hreserved.slots⟩

/-- The first `n` turns of the loop. -/
theorem fillLoop_keeps {n : Nat} (hn : n ≤ b.count) {hnsw : Hnsw.Index} (h : b.FilledTo 0 hnsw)
    (hreserved : b.Reserved hnsw) (hfail : (∃ i < n, ¬ b.EntryOk i) → X (.fail .einval))
    (hroom : (∀ i < n, b.dim * 4 < b.host.sizeMod ∧ i < b.slots) ∨ X (.fault .index))
    (hreads : ∀ i < n, b.Arrives i → ∀ a, b.EntryReads i a → Admits I a) :
    Keeps I X ((List.range n).foldlM (addEntry b.host b.mem b.off b.dim b.strtab) hnsw)
      fun hnsw' => b.FilledTo n hnsw' ∧ b.Reserved hnsw' ∧ b.Arrives n := by
  refine Keeps.foldlM_range
    (fun i hnsw' => b.FilledTo i hnsw' ∧ b.Reserved hnsw' ∧ b.Arrives i) ?_ ?_
  · exact ⟨h, hreserved, fun j hj => absurd hj (Nat.not_lt_zero j)⟩
  · rintro i hnsw' hi ⟨hfilled, hres, harrives⟩
    refine (addEntry_keeps hfilled hres (Nat.lt_of_lt_of_le hi hn) (fun hok => hfail ⟨i, hi, hok⟩)
      (hroom.imp_left fun hroom => hroom i hi) (hreads i hi harrives)).mono ?_
    rintro hnsw'' ⟨hfilled', hres', htaken⟩
    refine ⟨hfilled', hres', fun j hj => ?_⟩
    rcases Nat.lt_succ_iff_lt_or_eq.mp hj with hlt | rfl
    · exact harrives j hlt
    · exact htaken

/-- The index before the loop. -/
theorem reserve_keeps (hcount : b.count ≠ 0) {hnsw : Hnsw.Index} (hitems : hnsw.items = [])
    (hlost : hnsw.lost = 0) (hdim : hnsw.dimension = b.dim) (hmetric : hnsw.metric = .cosine)
    (hcap : hnsw.capacity = 0) :
    Keeps I X (Hnsw.reserve b.host hnsw b.count) fun hnsw' =>
      b.FilledTo 0 hnsw' ∧ b.Reserved hnsw' := by
  refine (Hnsw.reserveLocked_keeps b.count (.inl fun _ => hcap)).mono ?_
  rintro hnsw' hsize
  cases hsize with
  | enough hle => exact absurd (Nat.le_zero.mp (hcap ▸ hle)) hcount
  | moved _ =>
    rw [Hnsw.Index.cut_of_le (by rw [hitems]; exact Nat.zero_le _)]
    exact ⟨⟨fun i hi => absurd hi (Nat.not_lt_zero i), hitems, hlost, hdim, hmetric⟩, rfl, rfl⟩

/-- **The fill**: one that returns found every entry so and holds the items in order. -/
theorem fill_keeps (b : EmbBlock) (efSearch : Option Int) (seed : UInt64)
    (hdim : b.dim = 0 → X (.fail .einval))
    (hfail : (∃ i < b.count, ¬ b.EntryOk i) → X (.fail .einval))
    (hroom : 0 < b.count → b.Fits ∨ X (.fault .index))
    (hreads : ∀ a, b.Reads a → Admits I a) :
    Keeps I X (b.fill efSearch seed) fun hnsw => b.FilledTo b.count hnsw ∧ b.Arrives b.count := by
  unfold fill fillHnsw Hnsw.hnswOpen
  split
  · rename_i h
    exact Keeps.bind (Keeps.fail (Q := fun _ => False) (hdim h)) fun _ h => h.elim
  simp only [bind_assoc, pure_bind]
  refine Keeps.bind Keeps.allocOr fun _ _ => ?_
  split
  · rename_i hzero
    rw [hzero]
    exact Keeps.pure ⟨⟨fun i hi => absurd hi (Nat.not_lt_zero i), rfl, rfl, rfl, rfl⟩,
      fun j hj => absurd hj (Nat.not_lt_zero j)⟩
  rename_i hcount
  refine Keeps.bind (reserve_keeps hcount rfl rfl rfl rfl rfl) fun hnsw ⟨hfilled, hreserved⟩ => ?_
  refine (fillLoop_keeps (Nat.le_refl _) hfilled hreserved hfail ?_ fun i hi harrives a ha =>
    hreads a ⟨i, hi, harrives, ha⟩).mono fun _ h => ⟨h.1, h.2.2⟩
  refine (hroom (Nat.pos_of_ne_zero hcount)).imp_left fun hfits i hi => ⟨hfits.vector, ?_⟩
  rw [hfits.slots_eq]
  exact hi

end EmbBlock

end Ipa
