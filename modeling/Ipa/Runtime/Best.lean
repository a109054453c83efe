import Ipa.Runtime.Hits

/-!
# The best descriptions of a file

The entries of a block are its descriptions: a label and a vector each. The index that is built
from a block holds them in an order that the seed of the process decides, so what is said of the
best item of an index is said here of the block.
-/

namespace Ipa

open Run

/-- A description as the file has it. -/
structure Description where
  label : CStr
  vector : List Binary32
deriving DecidableEq

/-- The descriptions of a block, in the order of the file. -/
def EmbBlock.descriptions (b : EmbBlock) : List Description :=
  (List.range b.count).map fun i => ⟨b.label i, b.vector i⟩

section Scores

variable [Arith]

/-- The cosine score of a vector against a description. -/
def Description.score (d : Description) (vec : List Binary32) : Binary64 :=
  Hnsw.dist .cosine vec (Hnsw.vectorNorm vec) d.vector (Hnsw.vectorNorm d.vector)

/-- No description has a better score than `d`. -/
structure Best (ds : List Description) (vec : List Binary32) (d : Description) : Prop where
  mem : d ∈ ds
  best : ∀ other ∈ ds, (d.score vec).lt (other.score vec) = false

/-- The greatest of some scores. -/
def bestScore : List Binary64 → Option Binary64
  | [] => none
  | x :: xs => some (xs.foldl (fun best y => if best.lt y then y else best) x)

omit [Arith] in
theorem foldl_best : ∀ (xs : List Binary64) (x : Binary64), x.isNaN = false →
    (∀ y ∈ xs, y.isNaN = false) →
      let best := xs.foldl (fun best y => if best.lt y then y else best) x
      best ∈ x :: xs ∧ ∀ y ∈ x :: xs, y.le best = true
  | [], x, hx, _ => by
    refine ⟨List.mem_cons_self, fun y hy => ?_⟩
    rw [List.mem_singleton.mp hy]
    exact (Binary64.not_lt hx hx).mp (Binary64.lt_irrefl x)
  | z :: xs, x, hx, hxs => by
    obtain ⟨hz, hxs⟩ := List.forall_mem_cons.mp hxs
    simp only [List.foldl_cons]
    split
    · rename_i hlt
      obtain ⟨hmem, hbest⟩ := foldl_best xs z hz hxs
      refine ⟨List.mem_cons_of_mem x hmem, fun y hy => ?_⟩
      rcases List.mem_cons.mp hy with rfl | hy
      · exact Binary64.le_trans (Binary64.le_of_lt hlt) (hbest z List.mem_cons_self)
      · exact hbest y hy
    · rename_i hle
      rw [Bool.not_eq_true] at hle
      obtain ⟨hmem, hbest⟩ := foldl_best xs x hx hxs
      refine ⟨?_, fun y hy => ?_⟩
      · rcases List.mem_cons.mp hmem with hmem | hmem
        · rw [hmem]
          exact List.mem_cons_self
        · exact List.mem_cons_of_mem x (List.mem_cons_of_mem z hmem)
      · rcases List.mem_cons.mp hy with rfl | hy
        · exact hbest y List.mem_cons_self
        rcases List.mem_cons.mp hy with rfl | hy
        · exact Binary64.le_trans ((Binary64.not_lt hx hz).mp hle) (hbest x List.mem_cons_self)
        · exact hbest y (List.mem_cons_of_mem x hy)

/-- The greatest score is that of a best description. -/
theorem bestScore_eq {ds : List Description} {vec : List Binary32}
    (hnan : ∀ d ∈ ds, (d.score vec).isNaN = false) :
    (ds = [] ∧ bestScore (ds.map fun d => d.score vec) = none) ∨
      ∃ d, Best ds vec d ∧ bestScore (ds.map fun d => d.score vec) = some (d.score vec) := by
  cases ds with
  | nil => exact .inl ⟨rfl, rfl⟩
  | cons first rest =>
    obtain ⟨hfirst, hrest⟩ := List.forall_mem_cons.mp hnan
    obtain ⟨hmem, hbest⟩ := foldl_best (rest.map fun d => d.score vec) (first.score vec) hfirst
      (by simpa using hrest)
    rw [← List.map_cons (f := fun d : Description => d.score vec)] at hmem hbest
    obtain ⟨d, hd, hscore⟩ := List.mem_map.mp hmem
    refine .inr ⟨d, ⟨hd, fun other hother => ?_⟩, congrArg some hscore.symm⟩
    have hle := hbest _ (List.mem_map.mpr ⟨other, hother, rfl⟩)
    rw [← hscore] at hle
    exact (Binary64.not_lt (hnan d hd) (hnan other hother)).mpr hle

/-- The scores of two best descriptions are equal. -/
theorem Best.le {ds : List Description} {vec : List Binary32} {d d' : Description}
    (h : Best ds vec d) (h' : Best ds vec d') (hnan : ∀ d ∈ ds, (d.score vec).isNaN = false) :
    (d.score vec).le (d'.score vec) = true :=
  (Binary64.not_lt (hnan d' h'.mem) (hnan d h.mem)).mp (h'.best d h.mem)

end Scores

/-! ## The index of a block -/

section Index

variable [Arith] {b : EmbBlock} {efSearch : Option Int} {seed : UInt64}
  {hnsw filled : Hnsw.Index}

/-- A description as a result. -/
def Description.result (vec : List Binary32) (d : Description) : Hnsw.Result :=
  ⟨d.label, d.score vec⟩

theorem EmbBlock.BuiltInto.metric (h : b.BuiltInto efSearch seed hnsw filled) :
    hnsw.metric = .cosine :=
  h.rebuilt.metric.trans h.fills.metric

theorem EmbBlock.BuiltInto.count (h : b.BuiltInto efSearch seed hnsw filled) :
    hnsw.count = b.count :=
  h.rebuilt.count.trans h.fills.count

/-- The items of the index are the descriptions of the block, in some order. -/
theorem EmbBlock.BuiltInto.scored_perm (h : b.BuiltInto efSearch seed hnsw filled)
    (vec : List Binary32) :
    (Hnsw.scored hnsw vec).Perm (b.descriptions.map (Description.result vec)) := by
  have hbare : ∀ items : List Hnsw.Item,
      items.map (fun item => (⟨item.id, Hnsw.itemScore .cosine vec (Hnsw.vectorNorm vec) item⟩ :
        Hnsw.Result)) = (items.map Hnsw.Item.bare).map fun item =>
          ⟨item.id, Hnsw.itemScore .cosine vec (Hnsw.vectorNorm vec) item⟩ := by
    intro items
    rw [List.map_map]
    rfl
  have hperm := h.rebuilt.items.map fun item =>
    (⟨item.id, Hnsw.itemScore .cosine vec (Hnsw.vectorNorm vec) item⟩ : Hnsw.Result)
  rw [← hbare, ← hbare, h.fills.items, List.map_map] at hperm
  unfold Hnsw.scored EmbBlock.descriptions
  rw [h.metric, List.map_map]
  exact hperm

/-- A best item that is not below zero is a best description. -/
theorem EmbBlock.BuiltInto.top_iff (h : b.BuiltInto efSearch seed hnsw filled)
    (vec : List Binary32) (result : Hnsw.Result) :
    Hnsw.Top hnsw vec .zero result ↔ ∃ d, Best b.descriptions vec d ∧
      result = d.result vec ∧ Binary64.zero.le (d.score vec) = true := by
  have hmem : ∀ r, r ∈ Hnsw.scored hnsw vec ↔ ∃ d ∈ b.descriptions, d.result vec = r := by
    intro r
    rw [(h.scored_perm vec).mem_iff, List.mem_map]
  constructor
  · intro htop
    obtain ⟨d, hd, rfl⟩ := (hmem result).mp htop.mem
    have hmeets := htop.meets
    have hbest := htop.best
    rw [h.metric] at hmeets hbest
    refine ⟨d, ⟨hd, fun other hother => ?_⟩, rfl, hmeets⟩
    exact hbest (other.result vec) ((hmem _).mpr ⟨other, hother, rfl⟩)
  · rintro ⟨d, hd, rfl, hzero⟩
    refine ⟨(hmem _).mpr ⟨d, hd.mem, rfl⟩, ?_, fun other hother => ?_⟩
    · rw [h.metric]
      exact hzero
    · obtain ⟨o, ho, rfl⟩ := (hmem other).mp hother
      rw [h.metric]
      exact hd.best o ho

end Index

end Ipa
