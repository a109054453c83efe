import Ipa.Hnsw.Search
import Ipa.Ngram.Keeps
import Ipa.Runtime.Emits
import Ipa.Schema.Opened

/-!
# What a window hits

The part that both visitors share embeds the text of a window, searches an index for the one
nearest description and compares its score, as a float, with the threshold. `Hit` lists its
outcomes over what the search can return: an item of the index, whatever its size, and a best
description of all where the index is scanned in full.
-/

namespace Ipa

open Run

/-- The bytes of a window. -/
def Ngram.Chunk.text (chunk : Ngram.Chunk) : CStr :=
  chunk.input.slice chunk.byteStart chunk.byteEnd

/-- The indexes of a schema are built, or empty. -/
structure Schema.Searchable (s : Schema) : Prop where
  node : Hnsw.Ready s.index.nodeHnsw
  child : ∀ hnsw, s.index.childHnsw = some hnsw → Hnsw.Ready hnsw

theorem OpenedFrom.searchable [Arith] {sys : System} {mem : List UInt8} {hdr : FileHdr} {s : Schema}
    (h : OpenedFrom sys mem hdr s) : s.Searchable := by
  obtain ⟨filled, hnode⟩ := h.nodeIndex
  refine ⟨hnode.rebuilt.ready, fun hnsw hsome => ?_⟩
  by_cases hcount : 0 < hdr.childEmbCount
  · obtain ⟨index, hindex, filled, hchild⟩ := h.childIndex hcount
    rw [hindex] at hsome
    cases hsome
    exact hchild.rebuilt.ready
  · rw [h.noChildIndex (by simpa [UInt32.pos_iff_ne_zero] using hcount)] at hsome
    cases hsome

/-- The byte count of a vector of the model is a `size_t`. -/
def Schema.Room (s : Schema) (host : Host) : Prop := s.emb.dim.toNat * 4 < host.sizeMod

/-- Opening added a vector to an index that is not empty, so it had room for it. -/
theorem OpenedFrom.room [Arith] {sys : System} {mem : List UInt8} {hdr : FileHdr} {s : Schema}
    (h : OpenedFrom sys mem hdr s) (hitems : s.index.nodeHnsw.items ≠ []) : s.Room sys.host := by
  obtain ⟨filled, hnode⟩ := h.nodeIndex
  have hcount : (hdr.nodeBlock sys.host mem).count ≠ 0 := by
    intro hzero
    have hlength := hnode.rebuilt.items.length_eq
    rw [List.length_map, List.length_map, hnode.fills.items, hzero] at hlength
    exact hitems (List.length_eq_zero_iff.mp hlength)
  have hvector := (hnode.arrives 0 (Nat.pos_of_ne_zero hcount)).vector
  have hdim := congrArg UInt32.toNat h.dim.2
  rw [UInt32.toNat_ofNat', Nat.mod_eq_of_lt (by have := s.emb.dim_lt; omega)] at hdim
  rw [Schema.Room, hdim]
  exact hvector

/-- A search is stopped by a failed allocation only. -/
def starved (failed : Prop) : Stop Hnsw.Status → Prop
  | .fault _ => False
  | .fail _ => failed

section Hits

variable [Arith]

/-- What a window hits: the first of the results in `found`, unless its score is below the
threshold. -/
inductive Hit (s : Schema) (hnsw : Option Hnsw.Index) (failed : Prop)
    (found : Hnsw.Index → List Binary32 → List Hnsw.Result → Prop) (chunk : Ngram.Chunk) :
    Option (CStr × CStr × Binary32) → Prop
  | above {index : Hnsw.Index} {vec : List Binary32} {top : Hnsw.Result} {rest : List Hnsw.Result}
      (indexed : hnsw = some index) (embedded : s.emb.exec chunk.text = some vec)
      (first : found index vec (top :: rest))
      (score : (Arith.narrow top.score).lt s.nodeThreshold = false) :
      Hit s hnsw failed found chunk (some (chunk.text, top.id, Arith.narrow top.score))
  | below {index : Hnsw.Index} {vec : List Binary32} {top : Hnsw.Result} {rest : List Hnsw.Result}
      (indexed : hnsw = some index) (embedded : s.emb.exec chunk.text = some vec)
      (first : found index vec (top :: rest))
      (score : (Arith.narrow top.score).lt s.nodeThreshold = true) :
      Hit s hnsw failed found chunk none
  | nothing {index : Hnsw.Index} {vec : List Binary32} (indexed : hnsw = some index)
      (embedded : s.emb.exec chunk.text = some vec) (search : found index vec []) :
      Hit s hnsw failed found chunk none
  | unembedded (embedded : s.emb.exec chunk.text = none) : Hit s hnsw failed found chunk none
  | unindexed (indexed : hnsw = none) : Hit s hnsw failed found chunk none
  | empty (window : chunk.byteEnd ≤ chunk.byteStart) : Hit s hnsw failed found chunk none
  | starved (alloc : failed) : Hit s hnsw failed found chunk none

variable {ε : Type} {host : Host} {s : Schema} {I : Env → Prop} {X : Stop ε → Prop}
  {failed : Prop} (halloc : Keeps I X (alloc : Run ε Bool) fun served => served = false → failed)
  (hroom : s.Room host ∨ X (.fault .index))

include hroom

omit [Arith] in
/-- The buffer for a vector is large enough. -/
theorem embeds_keeps (text : CStr) :
    Keeps I X (embExec s.emb (some text) (host.size (s.emb.dim.toNat * 4) / 4))
      (· = s.emb.exec text) := by
  refine (embExec_keeps fun hshort => hroom.resolve_left fun hfits => ?_).mono fun _ h => h.1
  rw [Host.size_of_lt hfits] at hshort
  omega

include halloc

/-- **The shared part of the visitors**, over any account of the search. -/
theorem visitHit_keeps {hnsw : Option Hnsw.Index}
    {found : Hnsw.Index → List Binary32 → List Hnsw.Result → Prop}
    (hsearch : ∀ index, hnsw = some index → ∀ vec,
      Keeps I (starved failed) (Hnsw.search index vec 1 .zero) (found index vec))
    (chunk : Ngram.Chunk) :
    Keeps I X (visitHit host s hnsw chunk) (Hit s hnsw failed found chunk) := by
  unfold visitHit
  split
  · rename_i hempty
    exact Keeps.pure (.empty hempty)
  refine Keeps.bind halloc fun served hserved => ?_
  cases served with
  | false => exact Keeps.pure (.starved (hserved rfl))
  | true =>
    simp only [if_true]
    refine Keeps.bind (embeds_keeps hroom chunk.text) fun vec hexec => ?_
    cases vec with
    | none => exact Keeps.pure (.unembedded hexec.symm)
    | some vec =>
      replace hexec := hexec.symm
      cases hnsw with
      | none => exact Keeps.pure (.unindexed rfl)
      | some index =>
        refine Keeps.bind ((hsearch index rfl vec).catching fun _ h => h.elim)
          fun results hresults => ?_
        split
        · exact Keeps.pure (.starved (hresults.2 _ rfl))
        · exact Keeps.pure (.nothing rfl hexec (hresults.1 _ rfl))
        · rename_i top rest
          split
          · rename_i hlow
            exact Keeps.pure (.below rfl hexec (hresults.1 _ rfl) hlow)
          · rename_i hhigh
            exact Keeps.pure (.above rfl hexec (hresults.1 _ rfl) (by simpa using hhigh))

end Hits

section Searches

variable [Arith] {ε : Type} {I : Env → Prop} {X : Stop ε → Prop} {failed : Prop}
  (halloc : Keeps I X (alloc : Run ε Bool) fun served => served = false → failed)

/-- The first result of a search is an item of the index. -/
def fromItems (index : Hnsw.Index) (_ : List Binary32) (results : List Hnsw.Result) : Prop :=
  ∀ r ∈ results, ∃ item ∈ index.items, item.id = r.id

/-- The result of a search is a best item, and there is none only where no score is positive or
zero. -/
def bestOnly (index : Hnsw.Index) (vec : List Binary32) (results : List Hnsw.Result) : Prop :=
  (results = [] ∧
    ∀ result ∈ Hnsw.scored index vec, Hnsw.meets index.metric .zero result = false) ∨
      ∃ result, results = [result] ∧ Hnsw.Top index vec .zero result

include halloc

omit [Arith] in
theorem serves_starved : Serves I (starved failed) Hnsw.Status.enomem :=
  serves_of_alloc halloc fun h => h rfl

/-- Any index. -/
theorem search_fromItems {index : Hnsw.Index} (hready : Hnsw.Ready index) (vec : List Binary32) :
    Keeps I (starved failed) (Hnsw.search index vec 1 .zero) (fromItems index vec) :=
  have := serves_starved halloc
  Hnsw.search_mem_keeps hready 1 .zero

/-- An index that is scanned in full. -/
theorem search_bestOnly {index : Hnsw.Index} (hready : Hnsw.Ready index)
    (hcount : index.count ≤ 1024) (vec : List Binary32) :
    Keeps I (starved failed) (Hnsw.search index vec 1 .zero) (bestOnly index vec) :=
  have := serves_starved halloc
  Hnsw.search_one hready hcount .zero

end Searches

end Ipa
