import Ipa.Manifest.Json

/-!
# What the parser leaves in a node

A parsed node has no `NULL` among its descriptions, keys and values: an array is filled only with
strings that were read. Its id is a different matter, it stays `NULL` when the member is missing.
-/

namespace Ipa

open Run

/-- Nothing but the id may be `NULL`, at any depth. -/
inductive NodeDef.Written : NodeDef → Prop
  | intro {nd : NodeDef} (descriptions : ∀ description ∈ nd.descriptions, description ≠ none)
    (emits : ∀ emit ∈ nd.emits, emit.key ≠ none ∧ emit.value ≠ none)
    (children : ∀ ch ∈ nd.children, ch.Written) : nd.Written

namespace Json

theorem emitLoop_written : ∀ (fuel : Nat) (j : Json) (arr : List EmitDef) (cap : Nat),
    (∀ emit ∈ arr, emit.key ≠ none ∧ emit.value ≠ none) →
      Keeps (fun _ => True) (fun _ => True) (emitLoop fuel j arr cap)
        fun r => ∀ emit ∈ r.2, emit.key ≠ none ∧ emit.value ≠ none
  | 0, _, _, _, _ => Keeps.fault trivial
  | fuel + 1, j, arr, cap, h => by
    unfold emitLoop
    refine Keeps.bind (Keeps.trivially _) fun ⟨j, key⟩ _ => ?_
    refine Keeps.bind (Keeps.trivially _) fun j _ => ?_
    refine Keeps.bind (Keeps.trivially _) fun ⟨j, val⟩ _ => ?_
    refine Keeps.bind (Keeps.trivially _) fun cap _ => ?_
    have hnext : ∀ emit ∈ arr ++ [⟨some key, some val⟩], emit.key ≠ none ∧ emit.value ≠ none := by
      intro emit hemit
      rcases List.mem_append.mp hemit with hemit | hemit
      · exact h emit hemit
      · cases List.mem_singleton.mp hemit
        simp
    simp only
    split
    · exact emitLoop_written fuel _ _ _ hnext
    · exact Keeps.pure hnext

theorem parseEmitObject_written (j : Json) :
    Keeps (fun _ => True) (fun _ => True) (parseEmitObject j)
      fun r => ∀ emit ∈ r.2, emit.key ≠ none ∧ emit.value ≠ none := by
  unfold parseEmitObject
  refine Keeps.bind (Keeps.trivially _) fun j _ => ?_
  simp only
  split
  · exact Keeps.pure fun emit h => by cases h
  · refine Keeps.bind (emitLoop_written _ _ [] 0 fun emit h => by cases h) fun r hr => ?_
    exact Keeps.bind (Keeps.trivially _) fun j _ => Keeps.pure hr

/-- The four parsers of nodes, at one fuel. -/
structure NodesWritten (fuel : Nat) : Prop where
  array : ∀ j, Keeps (fun _ => True) (fun _ => True) (parseNodeArray fuel j)
    fun r => ∀ nd ∈ r.2, nd.Written
  loop : ∀ j arr cap, (∀ nd ∈ arr, nd.Written) →
    Keeps (fun _ => True) (fun _ => True) (nodeArrayLoop fuel j arr cap)
      fun r => ∀ nd ∈ r.2, nd.Written
  node : ∀ j, Keeps (fun _ => True) (fun _ => True) (parseNode fuel j) fun r => r.2.Written
  members : ∀ j nd, nd.Written →
    Keeps (fun _ => True) (fun _ => True) (nodeMembers fuel j nd) fun r => r.2.Written

theorem nodesWritten : ∀ fuel, NodesWritten fuel
  | 0 => ⟨fun _ => Keeps.fault trivial, fun _ _ _ _ => Keeps.fault trivial,
      fun _ => Keeps.fault trivial, fun _ _ _ => Keeps.fault trivial⟩
  | fuel + 1 => by
    have ih := nodesWritten fuel
    refine ⟨fun j => ?_, fun j arr cap harr => ?_, fun j => ?_, fun j nd hnd => ?_⟩
    · unfold parseNodeArray
      refine Keeps.bind (Keeps.trivially _) fun j _ => ?_
      simp only
      split
      · exact Keeps.pure fun nd h => by cases h
      · refine Keeps.bind (ih.loop _ [] 0 fun nd h => by cases h) fun r hr => ?_
        exact Keeps.bind (Keeps.trivially _) fun j _ => Keeps.pure hr
    · unfold nodeArrayLoop
      refine Keeps.bind (Keeps.trivially _) fun cap _ => ?_
      refine Keeps.bind (ih.node _) fun ⟨j, nd⟩ hnd => ?_
      have hnext : ∀ nd' ∈ arr ++ [nd], nd'.Written := by
        intro nd' hnd'
        rcases List.mem_append.mp hnd' with hnd' | hnd'
        · exact harr nd' hnd'
        · cases List.mem_singleton.mp hnd'
          exact hnd
      simp only
      split
      · exact ih.loop _ _ _ hnext
      · exact Keeps.pure hnext
    · unfold parseNode
      have hempty : NodeDef.Written {} := .intro (by simp) (by simp) (by simp)
      refine Keeps.bind (Keeps.trivially _) fun j _ => ?_
      simp only
      split
      · exact Keeps.pure hempty
      · refine Keeps.bind (ih.members _ _ hempty) fun r hr => ?_
        exact Keeps.bind (Keeps.trivially _) fun j _ => Keeps.pure hr
    · unfold nodeMembers
      refine Keeps.bind (Keeps.trivially _) fun ⟨j, key⟩ _ => ?_
      refine Keeps.bind (Keeps.trivially _) fun j _ => ?_
      extract_lets j' next
      have hnext : ∀ r : Json × NodeDef, r.2.Written →
          Keeps (fun _ => True) (fun _ => True) (pure r >>= next) fun r => r.2.Written := by
        rintro ⟨j, nd⟩ hnd
        simp only [pure_bind, next]
        split
        · exact ih.members _ _ hnd
        · exact Keeps.pure hnd
      obtain ⟨hdesc, hemits, hchildren⟩ := hnd
      split
      · exact Keeps.bind (Keeps.trivially _) fun ⟨j, id⟩ _ =>
          hnext _ (.intro hdesc hemits hchildren)
      split
      · refine Keeps.bind (Keeps.trivially _) fun ⟨j, strings⟩ _ =>
          hnext _ (.intro ?_ hemits hchildren)
        simp
      split
      · exact Keeps.bind (parseEmitObject_written _) fun ⟨j, emits⟩ h =>
          hnext _ (.intro hdesc h hchildren)
      split
      · exact Keeps.bind (ih.array _) fun ⟨j, children⟩ h => hnext _ (.intro hdesc hemits h)
      · exact Keeps.bind (Keeps.trivially _) fun j _ => hnext _ (.intro hdesc hemits hchildren)

section Manifest

variable [Arith]

theorem defaultsMembers_nodes : ∀ (fuel : Nat) (j : Json) (m : Manifest),
    Keeps (fun _ => True) (fun _ => True) (defaultsMembers fuel j m) fun r => r.2.nodes = m.nodes
  | 0, _, _ => Keeps.fault trivial
  | fuel + 1, j, m => by
    unfold defaultsMembers
    refine Keeps.bind (Keeps.trivially _) fun ⟨j, dk⟩ _ => ?_
    refine Keeps.bind (Keeps.trivially _) fun j _ => ?_
    extract_lets j' next
    have hnext : ∀ r : Json × Manifest, r.2.nodes = m.nodes →
        Keeps (fun _ => True) (fun _ => True) (pure r >>= next) fun r => r.2.nodes = m.nodes := by
      rintro ⟨j, m'⟩ hm
      simp only at hm
      simp only [pure_bind, next]
      split
      · rw [← hm]
        exact defaultsMembers_nodes fuel _ _
      · exact Keeps.pure hm
    split
    · exact Keeps.bind (Keeps.trivially _) fun ⟨j, v⟩ _ => hnext _ rfl
    split
    · exact Keeps.bind (Keeps.trivially _) fun ⟨j, v⟩ _ => hnext _ rfl
    split
    · exact Keeps.bind (Keeps.trivially _) fun ⟨j, v⟩ _ => hnext _ rfl
    · exact Keeps.bind (Keeps.trivially _) fun j _ => hnext _ rfl

theorem parseDefaults_nodes (j : Json) (m : Manifest) :
    Keeps (fun _ => True) (fun _ => True) (parseDefaults j m) fun r => r.2.nodes = m.nodes := by
  unfold parseDefaults
  refine Keeps.bind (Keeps.trivially _) fun j _ => ?_
  simp only
  split
  · exact Keeps.pure rfl
  · refine Keeps.bind (defaultsMembers_nodes _ _ _) fun r hr => ?_
    exact Keeps.bind (Keeps.trivially _) fun j _ => Keeps.pure hr

theorem manifestMembers_written : ∀ (fuel : Nat) (j : Json) (m : Manifest),
    (∀ nd ∈ m.nodes, nd.Written) →
      Keeps (fun _ => True) (fun _ => True) (manifestMembers fuel j m)
        fun r => ∀ nd ∈ r.2.nodes, nd.Written
  | 0, _, _, _ => Keeps.fault trivial
  | fuel + 1, j, m, hm => by
    unfold manifestMembers
    refine Keeps.bind (Keeps.trivially _) fun ⟨j, key⟩ _ => ?_
    refine Keeps.bind (Keeps.trivially _) fun j _ => ?_
    extract_lets j' next
    have hnext : ∀ r : Json × Manifest, (∀ nd ∈ r.2.nodes, nd.Written) →
        Keeps (fun _ => True) (fun _ => True) (pure r >>= next)
          fun r => ∀ nd ∈ r.2.nodes, nd.Written := by
      rintro ⟨j, m⟩ hm
      simp only [pure_bind, next]
      split
      · exact manifestMembers_written fuel _ _ hm
      · exact Keeps.pure hm
    split
    · exact Keeps.bind (Keeps.trivially _) fun ⟨j, schema⟩ _ => hnext _ hm
    split
    · exact Keeps.bind (Keeps.trivially _) fun ⟨j, id⟩ _ => hnext _ hm
    split
    · exact Keeps.bind (Keeps.trivially _) fun ⟨j, vendor⟩ _ => hnext _ hm
    split
    · exact Keeps.bind (Keeps.trivially _) fun ⟨j, version⟩ _ => hnext _ hm
    split
    · refine Keeps.bind (parseDefaults_nodes _ _) fun r hr => ?_
      have := hnext r (by rw [hr]; exact hm)
      rwa [pure_bind] at this
    split
    · exact Keeps.bind ((nodesWritten _).array _) fun ⟨j, nodes⟩ h => hnext _ h
    · exact Keeps.bind (Keeps.trivially _) fun j _ => hnext _ hm

/-- **Parsed nodes** have no `NULL` among their descriptions, keys and values. -/
theorem parseManifest_written (j : Json) :
    Keeps (fun _ => True) (fun _ => True) (parseManifest j)
      fun r => ∀ nd ∈ r.2.nodes, nd.Written := by
  unfold parseManifest
  have hempty : ∀ nd ∈ Manifest.initial.nodes, nd.Written := fun nd h => by cases h
  refine Keeps.bind (Keeps.trivially _) fun j _ => ?_
  simp only
  split
  · exact Keeps.pure hempty
  · refine Keeps.bind (manifestMembers_written _ _ _ hempty) fun r hr => ?_
    exact Keeps.bind (Keeps.trivially _) fun j _ => Keeps.pure hr

end Manifest

end Json

end Ipa
