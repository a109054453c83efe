import Ipa.Runtime.Lifetimes
import Mathlib.Tactic.Linarith

/-!
# Everything acquired is released

The scripts of the context, the workers, the pool, the mapping and the schema are safe, by one lemma
for each routine: where the scripts of the caller are, with what the routine leaves, so is the
routine. A life from nothing is therefore safe whatever fails.
-/

namespace Ipa

namespace Lifetime

open Script

/-! ## The resources of one worker -/

def Resource.worker : Resource → Option ℕ
  | .ectx i | .file i | .field i _ | .mutex i | .condReq i | .condRes i | .thread i => some i
  | _ => none

/-- Nothing of worker `i` is there. -/
def Clean (i : ℕ) (live : List Resource) : Prop := ∀ q ∈ live, q.worker ≠ some i

/-- What belongs to a worker is needed by what belongs to it. -/
theorem needs_worker {r q : Resource} {i : ℕ} (h : r ∈ needs q) (hi : r.worker = some i) :
    q.worker = some i := by
  cases q <;> simp only [needs, List.mem_cons, List.not_mem_nil, or_false, List.mem_append,
    List.mem_map] at h
  case field j k =>
    rcases h with rfl | ⟨_, -, rfl⟩ <;> exact hi
  case thread j =>
    rcases h with (rfl | rfl | rfl | rfl | rfl) | ⟨_, -, rfl⟩ <;> first | exact hi | cases hi
  all_goals
    subst h
    cases hi

theorem Clean.free {i : ℕ} {live : List Resource} (h : Clean i live) {r : Resource}
    (hr : r.worker = some i) : ∀ q ∈ live, r ∉ needs q :=
  fun q hq hneeds => h q hq (needs_worker hneeds hr)

theorem Clean.not_mem {i : ℕ} {live : List Resource} (h : Clean i live) {r : Resource}
    (hr : r.worker = some i) : r ∉ live :=
  fun hmem => h r hmem hr

/-- The context of a worker whose pointers are as `has` says, and what else is there. -/
def held (i : ℕ) (has : Field → Bool) (live : List Resource) : List Resource :=
  (freed.filter has).map (.field i) ++ .ectx i :: live

section Context

variable {i : ℕ} {has : Field → Bool} {k : Field} {live : List Resource} {past : List Event}
  {ok fail rest : Routine} {r : Resource}

theorem mem_freed (k : Field) : k ∈ freed := by cases k <;> decide

theorem mem_held : r ∈ held i has live ↔
    (∃ k, has k = true ∧ r = .field i k) ∨ r = .ectx i ∨ r ∈ live := by
  rw [held, List.mem_append, List.mem_cons, List.mem_map]
  refine or_congr_left ⟨?_, ?_⟩
  · rintro ⟨k, hk, rfl⟩
    exact ⟨k, (List.mem_filter.mp hk).2, rfl⟩
  · rintro ⟨k, hk, rfl⟩
    exact ⟨k, List.mem_filter.mpr ⟨mem_freed k, hk⟩, rfl⟩

theorem held_append (live' : List Resource) :
    held i has (live ++ live') = held i has live ++ live' := by
  rw [held, held, List.append_assoc, List.cons_append]

theorem held_set (hk : has k = false) :
    (held i (set has k) live).Perm (.field i k :: held i has live) := by
  have hfields : (freed.filter (set has k)).Perm (k :: freed.filter has) := by
    have hnodup : freed.Nodup := by decide
    refine (List.perm_ext_iff_of_nodup (hnodup.filter _)
      (List.nodup_cons.mpr ⟨fun h => ?_, hnodup.filter _⟩)).mpr fun a => ?_
    · rw [(List.mem_filter.mp h).2] at hk
      cases hk
    · rw [List.mem_filter, List.mem_cons, List.mem_filter, set]
      split <;> simp [mem_freed, *]
  exact (hfields.map (Resource.field i)).append_right _

theorem release_ectx (h : rest.Safe rules past live) (hclean : Clean i live) :
    (release (.ectx i) rest).Safe rules past (.ectx i :: live) := by
  refine h.release_head (fun q hq => ?_) fun e he => by cases he
  rcases List.mem_cons.mp hq with rfl | hq
  · simp [rules, needs]
  · exact hclean.free rfl q hq

theorem ctxFree_safe (h : rest.Safe rules past live) (hclean : Clean i live) :
    (ctxFree i has rest).Safe rules past (held i has live) := by
  refine (release_ectx h hclean).drops (fun k _ hk => ?_) ?_ (fun k _ q hq => ?_) fun _ _ => rfl
  · cases k <;> simp [rules, needs, Field.needs] at hk
  · have horder : freed.Pairwise fun a b => a ∉ b.needs := by decide
    refine horder.imp fun hnot hmem => hnot ?_
    simpa [rules, needs] using hmem
  · rcases List.mem_cons.mp hq with rfl | hq
    · simp [rules, needs]
    · exact hclean.free rfl q hq

/-- One more pointer of the context. -/
theorem acquire_field (hk : has k = false) (hneeds : ∀ q ∈ k.needs, has q = true)
    (hclean : Clean i live) (hok : ok.Safe rules past (held i (set has k) live))
    (hfail : fail.Safe rules past (held i has live)) :
    (acquire (.field i k) ok fail).Safe rules past (held i has live) := by
  refine ⟨fun hmem => ?_, fun q hq => ?_, hok.perm (held_set hk), hfail⟩
  · rcases mem_held.mp hmem with ⟨k', hk', heq⟩ | heq | hmem
    · cases heq
      rw [hk] at hk'
      cases hk'
    · cases heq
    · exact hclean.not_mem rfl hmem
  · rcases List.mem_cons.mp hq with rfl | hq
    · exact mem_held.mpr (.inr (.inl rfl))
    · obtain ⟨k', hk', rfl⟩ := List.mem_map.mp hq
      exact mem_held.mpr (.inl ⟨k', hneeds k' hk', rfl⟩)

theorem callocs_safe {cont : (Field → Bool) → Routine} (hclean : Clean i live) :
    ∀ (ks : List Field) (has : Field → Bool), ks.Nodup →
      (∀ k ∈ ks, has k = false ∧ k.needs = []) →
        (∀ has' : Field → Bool, (∀ k, k ∉ ks → has' k = has k) →
          (cont has').Safe rules past (held i has' live)) →
            (callocs i cont ks has).Safe rules past (held i has live)
  | [], has, _, _, hcont => hcont has fun _ _ => rfl
  | k :: ks, has, hnodup, hks, hcont => by
    obtain ⟨hnot, hnodup⟩ := List.nodup_cons.mp hnodup
    obtain ⟨hk, hneeds⟩ := hks k List.mem_cons_self
    have hks' := fun k hk => hks k (List.mem_cons_of_mem _ hk)
    refine acquire_field hk (fun q hq => by rw [hneeds] at hq; cases hq) hclean ?_ ?_
    · refine callocs_safe hclean ks _ hnodup (fun k' hk' => ⟨?_, (hks' k' hk').2⟩) fun has' h => ?_
      · have hne : k' ≠ k := fun heq => hnot (heq ▸ hk')
        rw [set, if_neg hne]
        exact (hks' k' hk').1
      · refine hcont has' fun k' hk' => ?_
        rw [List.mem_cons, not_or] at hk'
        rw [h k' hk'.2, set, if_neg hk'.1]
    · refine callocs_safe hclean ks has hnodup hks' fun has' h => hcont has' fun k' hk' => ?_
      exact h k' fun hmem => hk' (List.mem_cons_of_mem _ hmem)

/-- A context with these pointers. -/
def pointers (ks : List Field) (k : Field) : Bool := k ∈ ks

theorem set_pointers (ks : List Field) (k : Field) : set (pointers ks) k = pointers (k :: ks) := by
  funext k'
  unfold set pointers
  split <;> simp [*]

theorem ctxOpenBackend_safe (hclean : Clean i live)
    (hok : ok.Safe rules past (held i opened live)) (hfail : fail.Safe rules past live) {ks}
    (hks : pointers (.galloc :: .backend :: ks) = opened) (hgalloc : .galloc ∉ ks)
    (hbackend : .backend ∉ ks) :
    (ctxOpenBackend i ok fail (pointers ks)).Safe rules past (held i (pointers ks) live) := by
  unfold ctxOpenBackend
  rw [set_pointers]
  refine acquire_field (by simpa [pointers] using hbackend) (fun q hq => by cases hq) hclean ?_
    (ctxFree_safe hfail hclean)
  rw [set_pointers]
  refine acquire_field (by simpa [pointers] using hgalloc) (fun q hq => ?_) hclean ?_
    (ctxFree_safe hfail hclean)
  · obtain rfl : q = .backend := by simpa [Field.needs] using hq
    simp [pointers]
  · rw [set_pointers, hks]
    exact hok

/-- The pointers that the vocabulary, the tensors and the model leave. -/
abbrev loaded : List Field := [.layers, .vocabHash, .vocab, .ggml, .gguf]

theorem ctxOpenBuffers_safe (hclean : Clean i live)
    (hok : ok.Safe rules past (held i opened live)) (hfail : fail.Safe rules past live) :
    (ctxOpenBuffers i ok fail (pointers loaded)).Safe rules past (held i (pointers loaded) live) := by
  unfold ctxOpenBuffers
  refine acquire_field (by decide) (fun q hq => by cases hq) hclean ?_ (ctxFree_safe hfail hclean)
  rw [set_pointers]
  refine callocs_safe hclean _ _ (by decide) (by decide) fun has hhas => ?_
  split
  · rename_i hall
    have heq : has = pointers [.typeData, .posData, .tokens, .computeBuf, .layers, .vocabHash,
        .vocab, .ggml, .gguf] := by
      simp only [Bool.and_eq_true] at hall
      obtain ⟨⟨htokens, hpos⟩, htype⟩ := hall
      funext k
      cases k <;> first
        | exact hhas _ (by decide)
        | assumption
    rw [heq]
    exact ctxOpenBackend_safe hclean hok hfail (by funext k; cases k <;> rfl) (by decide) (by decide)
  · exact ctxFree_safe hfail hclean

theorem ctxOpenTensors_safe (nLayer : ℕ) (hclean : Clean i live)
    (hok : ok.Safe rules past (held i opened live)) (hfail : fail.Safe rules past live) :
    (ctxOpenTensors i nLayer ok fail (pointers [.vocabHash, .vocab, .ggml, .gguf])).Safe rules past
      (held i (pointers [.vocabHash, .vocab, .ggml, .gguf]) live) := by
  refine ⟨acquire_field (by decide) (by decide) hclean ?_ (ctxFree_safe hfail hclean),
    ctxFree_safe hfail hclean⟩
  rw [set_pointers]
  exact Safe.tests (ctxOpenBuffers_safe hclean hok hfail) (ctxFree_safe hfail hclean) nLayer

theorem ctxOpenVocab_safe (nLayer : ℕ) (hclean : Clean i live)
    (hok : ok.Safe rules past (held i opened live)) (hfail : fail.Safe rules past live) :
    (ctxOpenVocab i nLayer ok fail (pointers [.ggml, .gguf])).Safe rules past
      (held i (pointers [.ggml, .gguf]) live) := by
  have hfree := @ctxFree_safe i (pointers [.ggml, .gguf]) live past fail hfail hclean
  refine ⟨⟨acquire_field (by decide) (by decide) hclean ?_ hfree, hfree⟩, hfree⟩
  rw [set_pointers]
  refine acquire_field (by decide) (by decide) hclean ?_ ?_
  · rw [set_pointers]
    exact ctxOpenTensors_safe nLayer hclean hok hfail
  · -- the table of the vocabulary cannot be built
    have hvocab := hfree.release_head (r := .field i .vocab) (fun q hq => ?_) fun e he => by cases he
    · refine hvocab.perm ?_
      rw [← set_pointers]
      exact (held_set (by decide)).symm
    · rcases List.mem_cons.mp hq with rfl | hq
      · simp [rules, needs, Field.needs]
      rcases mem_held.mp hq with ⟨k, hk, rfl⟩ | rfl | hq
      · cases k <;> simp [rules, needs, Field.needs]
      · simp [rules, needs]
      · exact hclean.free rfl q hq

/-- The file of the model is needed by nothing. -/
theorem file_free (has : Field → Bool) (hclean : Clean i live) :
    ∀ q ∈ Resource.file i :: held i has live, .file i ∉ needs q := by
  intro q hq
  rcases List.mem_cons.mp hq with rfl | hq
  · simp [needs]
  rcases mem_held.mp hq with ⟨k, -, rfl⟩ | rfl | hq
  · simp [needs]
  · simp [needs]
  · exact hclean.free rfl q hq

theorem ctxOpen_safe (nLayer : ℕ) (hclean : Clean i live) (hworkers : .workers ∈ live)
    (hok : ok.Safe rules past (held i opened live)) (hfail : fail.Safe rules past live) :
    (ctxOpen i nLayer ok fail).Safe rules past live := by
  have hnone : set (set (fun _ => false) .gguf) .ggml = pointers [.ggml, .gguf] := by
    rw [← set_pointers, ← set_pointers]
    congr
  have hnull : (release (.file i) (ctxFree i (fun _ => false) fail)).Safe rules past
      (.file i :: .ectx i :: live) :=
    Safe.release_head (ctxFree_safe hfail hclean) (file_free (fun _ => false) hclean)
      fun e he => by cases he
  unfold ctxOpen
  rw [hnone]
  dsimp only
  refine ⟨hclean.not_mem rfl, ?_, ⟨?_, ?_, ?_, release_ectx hfail hclean⟩, hfail⟩
  · simpa [rules, needs] using hworkers
  · simpa using hclean.not_mem rfl
  · simp [rules, needs]
  refine ⟨?_, ?_, ⟨?_, ?_, ?_, ?_⟩, hnull⟩
  · simpa using hclean.not_mem rfl
  · simp [rules, needs, Field.needs]
  · simpa using hclean.not_mem rfl
  · simp [rules, needs, Field.needs]
  · -- the file is closed, and both contexts of the model are there
    have hfree := @ctxFree_safe i (pointers [.ggml, .gguf]) live past fail hfail hclean
    have hrest : (branch (ctxOpenVocab i nLayer ok fail (pointers [.ggml, .gguf]))
        (ctxFree i (pointers [.ggml, .gguf]) fail)).Safe rules past
          (held i (pointers [.ggml, .gguf]) live) :=
      ⟨ctxOpenVocab_safe nLayer hclean hok hfail, hfree⟩
    refine (hrest.release_head (file_free _ hclean) fun e he => by cases he).perm ?_
    exact (List.reverse_perm [.file i, .field i .gguf, .field i .ggml]).symm.append_right
      (.ectx i :: live)
  · refine hnull.release_head (fun q hq => ?_) fun e he => by cases he
    rcases List.mem_cons.mp hq with rfl | hq
    · simp [rules, needs, Field.needs]
    rcases List.mem_cons.mp hq with rfl | hq
    · simp [rules, needs]
    rcases List.mem_cons.mp hq with rfl | hq
    · simp [rules, needs]
    · exact hclean.free rfl q hq

end Context

/-! ## A worker -/

section Worker

variable {i nLayer : ℕ} {live : List Resource} {past : List Event} {ok fail rest : Routine}
  {r : Resource}

/-- What belongs to a worker that runs. -/
def parts (i : ℕ) : List Resource :=
  .thread i :: .condRes i :: .condReq i :: .mutex i :: held i opened []

theorem parts_append : parts i ++ live =
    .thread i :: .condRes i :: .condReq i :: .mutex i :: held i opened live := by
  rw [parts, List.cons_append, List.cons_append, List.cons_append, List.cons_append, ← held_append,
    List.nil_append]

theorem needs_thread (q : Resource) : .thread i ∉ needs q := by
  cases q <;> simp [needs]

/-- The mutex and the conditions of a worker are needed by its thread only. -/
theorem needs_sync {q : Resource} (h : r ∈ needs q)
    (hr : r = .mutex i ∨ r = .condReq i ∨ r = .condRes i) : q = .thread i := by
  cases q <;> simp only [needs, List.mem_cons, List.not_mem_nil, or_false, List.mem_append,
    List.mem_map] at h
  case field j k =>
    rcases h with rfl | ⟨_, -, rfl⟩ <;> rcases hr with hr | hr | hr <;> cases hr
  case thread j =>
    rcases h with (rfl | rfl | rfl | rfl | rfl) | ⟨_, -, rfl⟩ <;>
      rcases hr with hr | hr | hr <;> cases hr <;> rfl
  all_goals
    subst h
    rcases hr with hr | hr | hr <;> cases hr

/-- The mutex, or a condition, of a worker without thread is released. -/
theorem release_sync (hr : r = .mutex i ∨ r = .condReq i ∨ r = .condRes i)
    (h : rest.Safe rules past live) (hthread : .thread i ∉ live) :
    (release r rest).Safe rules past (r :: live) := by
  refine h.release_head (fun q hq hneeds => ?_) fun e he => ?_
  · rw [needs_sync hneeds hr] at hq
    rcases List.mem_cons.mp hq with hq | hq
    · rcases hr with rfl | rfl | rfl <;> cases hq
    · exact hthread hq
  · rcases hr with rfl | rfl | rfl <;> cases he

theorem not_mem_held {has : Field → Bool} (hr : r.worker = some i) (hfield : ∀ k, r ≠ .field i k)
    (hectx : r ≠ .ectx i) (hclean : Clean i live) : r ∉ held i has live := by
  intro hmem
  rcases mem_held.mp hmem with ⟨k, -, heq⟩ | heq | hmem
  · exact hfield k heq
  · exact hectx heq
  · exact hclean.not_mem hr hmem

theorem workerInit_safe (hclean : Clean i live) (hworkers : .workers ∈ live)
    (hok : ok.Safe rules past (parts i ++ live)) (hfail : fail.Safe rules past live) :
    (workerInit i nLayer ok fail).Safe rules past live := by
  have hfree := @ctxFree_safe i opened live past fail hfail hclean
  have hnot : ∀ r : Resource, r = .mutex i ∨ r = .condReq i ∨ r = .condRes i ∨ r = .thread i →
      r ∉ held i opened live := by
    rintro r (rfl | rfl | rfl | rfl) <;> exact not_mem_held rfl (by simp) (by simp) hclean
  have hthread := hnot (.thread i) (by simp)
  have hneeds : ∀ r ∈ Resource.workers :: held i opened live, r ∈ held i opened live := by
    intro r hr
    rcases List.mem_cons.mp hr with rfl | hr
    · exact mem_held.mpr (.inr (.inr hworkers))
    · exact hr
  have hmutex := release_sync (r := .mutex i) (i := i) (by simp) hfree hthread
  have hcondReq := release_sync (r := .condReq i) (i := i) (by simp) hmutex (by simpa using hthread)
  have hcondRes := release_sync (r := .condRes i) (i := i) (by simp) hcondReq
    (by simpa using hthread)
  refine ctxOpen_safe nLayer hclean hworkers ⟨hnot _ (by simp), ?_, ⟨?_, ?_, ⟨?_, ?_, ⟨?_, ?_, ?_,
    hcondRes⟩, hcondReq⟩, hmutex⟩, hfree⟩ hfail
  · simpa [rules, needs] using hneeds .workers (by simp)
  · simpa using hnot (.condReq i) (by simp)
  · simpa [rules, needs] using hneeds .workers (by simp)
  · simpa using hnot (.condRes i) (by simp)
  · simpa [rules, needs] using hneeds .workers (by simp)
  · simpa using hthread
  · intro q hq
    change q ∈ [.workers, .ectx i, .mutex i, .condReq i, .condRes i] ++
      (freed.filter opened).map (.field i) at hq
    rcases List.mem_append.mp hq with hq | hq
    · simp only [List.mem_cons, List.not_mem_nil, or_false] at hq
      rcases hq with rfl | rfl | rfl | rfl | rfl
      · simp [hneeds .workers (by simp)]
      · simp [mem_held]
      all_goals simp
    · simp only [List.mem_cons]
      exact .inr (.inr (.inr (List.mem_append_left _ hq)))
  · rw [parts_append] at hok
    exact hok

theorem workerDestroy_safe (hclean : Clean i live) (hworkers : .workers ∈ live)
    (hrest : rest.Safe rules past live) :
    (workerDestroy i rest).Safe rules past (parts i ++ live) := by
  have hlater := hrest.later (List.subset_cons_self (Event.shutdown i) past)
  have hfree := @ctxFree_safe i opened live _ rest hlater hclean
  have hthread : .thread i ∉ held i opened live :=
    not_mem_held rfl (by simp) (by simp) hclean
  have hmutex := release_sync (r := .mutex i) (i := i) (by simp) hfree hthread
  have hcondReq := release_sync (r := .condReq i) (i := i) (by simp) hmutex (by simpa using hthread)
  have hcondRes := release_sync (r := .condRes i) (i := i) (by simp) hcondReq
    (by simpa using hthread)
  rw [parts_append]
  refine ⟨fun q hq => ?_, hcondRes.release_head (fun q _ => needs_thread q) fun e he => ?_⟩
  · simp only [rules, List.mem_cons, List.not_mem_nil, or_false] at hq
    rcases hq with rfl | rfl | rfl | rfl
    · simp [mem_held, hworkers]
    all_goals simp
  · obtain rfl : e = .shutdown i := by simpa [rules] using he
    exact List.mem_cons_self

end Worker

/-! ## The pool -/

def Resource.ofSchema : Resource → Bool
  | .schema | .path | .lock | .fd | .mapping | .nodeHnsw | .childHnsw | .handlers => true
  | _ => false

/-- Nothing of the pool is there. -/
def Outside (live : List Resource) : Prop := ∀ q ∈ live, q.ofSchema = true

theorem needs_schema {q r : Resource} (hq : q.ofSchema = true) (h : r ∈ needs q) : r = .schema := by
  cases q <;> first
    | (simp [Resource.ofSchema] at hq; done)
    | (simp [needs] at h; done)
    | simpa [needs] using h

/-- What belongs to the workers from `i` on. -/
def crew (i left : ℕ) : List Resource := (List.range' i left).flatMap parts

/-- A pool with `n` workers, and what else is there. -/
def pooled (n : ℕ) (live : List Resource) : List Resource :=
  crew 0 n ++ (.poolCond :: .poolMutex :: .workers :: .pool :: live)

section Pool

variable {i n nWorkers nLayer : ℕ} {live : List Resource} {past : List Event}
  {fail rest : Routine} {r : Resource}

theorem worker_of_mem_parts (h : r ∈ parts i) : r.worker = some i := by
  simp only [parts, List.mem_cons, mem_held, List.not_mem_nil, or_false] at h
  rcases h with rfl | rfl | rfl | rfl | ⟨k, -, rfl⟩ | rfl <;> rfl

theorem worker_of_mem_crew {left : ℕ} (h : r ∈ crew i left) :
    ∃ j, i ≤ j ∧ j < i + left ∧ r.worker = some j := by
  obtain ⟨j, hj, hr⟩ := List.mem_flatMap.mp h
  obtain ⟨hle, hlt⟩ := List.mem_range'_1.mp hj
  exact ⟨j, hle, hlt, worker_of_mem_parts hr⟩

theorem crew_succ (i left : ℕ) : crew i (left + 1) = parts i ++ crew (i + 1) left := by
  rw [crew, List.range'_succ, List.flatMap_cons]
  rfl

theorem crew_snoc_perm (i : ℕ) : (parts i ++ crew 0 i).Perm (crew 0 (i + 1)) := by
  have hsnoc : crew 0 (i + 1) = crew 0 i ++ parts i := by
    rw [crew, List.range'_1_concat, List.flatMap_append, List.flatMap_singleton, Nat.zero_add]
    rfl
  rw [hsnoc]
  exact List.perm_append_comm

theorem Clean.crew {j left : ℕ} (h : Clean j live) (hj : j < i ∨ i + left ≤ j) :
    Clean j (crew i left ++ live) := by
  intro q hq
  rcases List.mem_append.mp hq with hq | hq
  · obtain ⟨j', hle, hlt, hworker⟩ := worker_of_mem_crew hq
    rw [hworker]
    simp only [ne_eq, Option.some.injEq]
    omega
  · exact h q hq

theorem Outside.clean (h : Outside live) (j : ℕ) :
    Clean j (.poolCond :: .poolMutex :: .workers :: .pool :: live) := by
  intro q hq
  simp only [List.mem_cons] at hq
  rcases hq with rfl | rfl | rfl | rfl | hq
  case inr.inr.inr.inr =>
    have hout := h q hq
    cases q <;> simp_all [Resource.ofSchema, Resource.worker]
  all_goals
    intro hworker
    cases hworker

theorem destroyWorkers_safe (hrest : rest.Safe rules past live) (hworkers : .workers ∈ live)
    (hclean : ∀ j, Clean j live) : ∀ left i,
      (destroyWorkers rest left i).Safe rules past (crew i left ++ live)
  | 0, i => hrest
  | left + 1, i => by
    rw [crew_succ, List.append_assoc]
    exact workerDestroy_safe ((hclean i).crew (.inl (Nat.lt_succ_self i)))
      (List.mem_append_right _ hworkers) (destroyWorkers_safe hrest hworkers hclean left (i + 1))

theorem startWorkers_safe {started : ℕ → Routine} (hworkers : .workers ∈ live)
    (hclean : ∀ j, Clean j live) : ∀ left i,
      (∀ n, n ≤ i + left → (started n).Safe rules past (crew 0 n ++ live)) →
        (startWorkers nLayer started left i).Safe rules past (crew 0 i ++ live)
  | 0, i, hstarted => hstarted i (Nat.le_refl _)
  | left + 1, i, hstarted => by
    refine workerInit_safe ((hclean i).crew (.inr (by omega))) (List.mem_append_right _ hworkers) ?_
      (hstarted i (by omega))
    have hrest : (startWorkers nLayer started left (i + 1)).Safe rules past
        (crew 0 (i + 1) ++ live) :=
      startWorkers_safe hworkers hclean left (i + 1) fun n hn => hstarted n (by omega)
    refine hrest.perm ?_
    rw [← List.append_assoc]
    exact (crew_snoc_perm i).symm.append_right live

/-- What the schema owns needs nothing but the schema. -/
theorem Outside.free (h : Outside live) (hr : r ≠ .schema) (first : List Resource)
    (hfirst : ∀ q ∈ first, r ∉ needs q) : ∀ q ∈ first ++ live, r ∉ needs q := by
  intro q hq hneeds
  rcases List.mem_append.mp hq with hq | hq
  · exact hfirst q hq hneeds
  · exact hr (needs_schema (h q hq) hneeds)

theorem Outside.not_mem (h : Outside live) (hr : r.ofSchema = false) : r ∉ live := by
  intro hmem
  rw [h r hmem] at hr
  cases hr

theorem releasePool_safe (hrest : rest.Safe rules past live) (hout : Outside live) :
    (release .pool rest).Safe rules past (.pool :: live) :=
  hrest.release_head (hout.free (by simp) [.pool] (by simp [needs]))
    fun e he => by cases he

theorem releaseWorkers_safe (hrest : rest.Safe rules past live) (hout : Outside live) :
    (release .workers (release .pool rest)).Safe rules past (.workers :: .pool :: live) :=
  (releasePool_safe hrest hout).release_head
    (hout.free (by simp) [.workers, .pool] (by simp [needs])) fun e he => by cases he

theorem releasePoolMutex_safe (hrest : rest.Safe rules past live) (hout : Outside live) :
    (release .poolMutex (release .workers (release .pool rest))).Safe rules past
      (.poolMutex :: .workers :: .pool :: live) :=
  (releaseWorkers_safe hrest hout).release_head
    (hout.free (by simp) [.poolMutex, .workers, .pool] (by simp [needs]))
    fun e he => by cases he

/-- The last calls of `kc_emb_close`. -/
theorem releasePoolCond_safe (hrest : rest.Safe rules past live) (hout : Outside live) :
    (release .poolCond (release .poolMutex (release .workers (release .pool rest)))).Safe rules past
      (.poolCond :: .poolMutex :: .workers :: .pool :: live) :=
  (releasePoolMutex_safe hrest hout).release_head
    (hout.free (by simp) [.poolCond, .poolMutex, .workers, .pool] (by simp [needs]))
    fun e he => by cases he

theorem embOpen_safe {ok : ℕ → Routine} (hout : Outside live)
    (hok : ∀ n, 0 < n → n ≤ nWorkers → (ok n).Safe rules past (pooled n live))
    (hfail : fail.Safe rules past live) :
    (embOpen nWorkers nLayer ok fail).Safe rules past live := by
  refine ⟨hout.not_mem rfl, by simp [rules, needs], ⟨?_, ?_, ⟨?_, ?_, ⟨?_, ?_, ?_,
    releasePoolMutex_safe hfail hout⟩, releaseWorkers_safe hfail hout⟩,
    releasePool_safe hfail hout⟩, hfail⟩
  · simpa using hout.not_mem (r := .workers) rfl
  · simp [rules, needs]
  · simpa using hout.not_mem (r := .poolMutex) rfl
  · simp [rules, needs]
  · simpa using hout.not_mem (r := .poolCond) rfl
  · simp [rules, needs]
  · refine startWorkers_safe (by simp) hout.clean nWorkers 0 fun n hn => ?_
    split
    · rename_i hzero
      subst hzero
      exact releasePoolCond_safe hfail hout
    · exact hok n (by omega) (by omega)

theorem embClose_safe (hrest : rest.Safe rules past live) (hout : Outside live) :
    (embClose n rest).Safe rules past (pooled n live) :=
  destroyWorkers_safe (releasePoolCond_safe hrest hout) (by simp) hout.clean n 0

theorem serving_subset {q : Resource} (hq : q ∈ serving n) : q ∈ pooled n live := by
  rcases List.mem_append.mp hq with hq | hq
  · refine List.mem_append_right _ ?_
    simp only [List.mem_cons, List.not_mem_nil, or_false] at hq
    rcases hq with rfl | rfl | rfl | rfl <;> simp
  · obtain ⟨i, hi, hq⟩ := List.mem_flatMap.mp hq
    refine List.mem_append_left _ (List.mem_flatMap.mpr ⟨i, ?_, ?_⟩)
    · rw [List.mem_range'_1]
      have := List.mem_range.mp hi
      omega
    · simp only [List.mem_cons, List.not_mem_nil, or_false] at hq
      rcases hq with rfl | rfl | rfl | rfl <;> simp [parts]

/-- A pool is used while it is there, and what its callers read besides. -/
theorem serve_safe {parsed : List Resource} (hserving : ∀ q ∈ serving n, q ∈ live)
    (hparsed : ∀ q ∈ parsed, q ∈ live) (hrest : rest.Safe rules past live) :
    (event (.serve n parsed) rest).Safe rules past live := by
  refine ⟨fun q hq => ?_, hrest.later (List.subset_cons_self _ _)⟩
  rcases List.mem_append.mp hq with hq | hq
  · exact hserving q hq
  · exact hparsed q hq

/-- **A pool**: whatever fails, everything is released. -/
theorem poolLife_safe (nWorkers nLayer : ℕ) : (poolLife nWorkers nLayer).Safe rules [] [] := by
  have hdone : (done : Routine).Safe rules [] [] := rfl
  have hout : Outside [] := fun q hq => by cases hq
  exact embOpen_safe hout (fun n _ _ => serve_safe (fun q => serving_subset)
    (fun q hq => by cases hq) (embClose_safe hdone hout)) hdone

end Pool

/-! ## A schema -/

/-- What is read is there. -/
theorem access_safe {rs live : List Resource} {past : List Event} {rest : Routine}
    (hrs : ∀ q ∈ rs, q ∈ live) (hrest : rest.Safe rules past live) :
    (event (.access rs) rest).Safe rules past live :=
  ⟨hrs, hrest.later (List.subset_cons_self _ _)⟩

theorem readTests_safe {rs live : List Resource} {past : List Event} {ok fail : Routine}
    (hrs : ∀ q ∈ rs, q ∈ live) (hok : ok.Safe rules past live) (hfail : fail.Safe rules past live) :
    ∀ n, (readTests rs ok fail n).Safe rules past live
  | 0 => hok
  | n + 1 => access_safe hrs ⟨readTests_safe hrs hok hfail n, hfail⟩

/-- What the schema owns is needed by nothing. -/
theorem needs_ofSchema {r : Resource} (hr : r.ofSchema = true) (hne : r ≠ .schema) (q : Resource) :
    r ∉ needs q := by
  cases r <;> first
    | (simp [Resource.ofSchema] at hr; done)
    | exact absurd rfl hne
    | (cases q <;> simp [needs])

/-- The mapping. -/
def Map.held (map : Map) : List Resource :=
  (if map.data then [.mapping] else []) ++ (if map.fd then [.fd] else [])

/-- What a schema holds besides its indexes and its pool. -/
def Fields.base (s : Fields) : List Resource :=
  s.map.held ++ (.lock :: .path :: ((if s.handlers then [.handlers] else []) ++ [.schema]))

def Fields.pool (s : Fields) : List Resource :=
  match s.emb with
  | some n => pooled n s.base
  | none => s.base

/-- All that a schema holds. -/
def Fields.held (s : Fields) : List Resource :=
  (if s.nodeHnsw then [.nodeHnsw] else []) ++ ((if s.childHnsw then [.childHnsw] else []) ++ s.pool)

section Schema

variable {past : List Event} {ok fail rest : Routine} {live : List Resource} {s : Fields}
  {r : Resource}

theorem drop_safe (hr : r.ofSchema = true) (hne : r ≠ .schema) (hrest : rest.Safe rules past live)
    (has : Bool) : (drop has r rest).Safe rules past ((if has then [r] else []) ++ live) := by
  refine hrest.drop (fun q _ => needs_ofSchema hr hne q) ?_ has
  cases r <;> first
    | (simp [Resource.ofSchema] at hr; done)
    | rfl

theorem release_safe (hr : r.ofSchema = true) (hne : r ≠ .schema) (hrest : rest.Safe rules past live) :
    (release r rest).Safe rules past (r :: live) :=
  drop_safe hr hne hrest true

theorem mmapClose_safe (map : Map) (hrest : rest.Safe rules past live) :
    (mmapClose map rest).Safe rules past (map.held ++ live) := by
  rw [Map.held, List.append_assoc]
  exact drop_safe rfl (by simp) (drop_safe rfl (by simp) hrest map.fd) map.data

theorem mem_base (h : r ∈ s.base) : r ∈ [.mapping, .fd, .lock, .path, .handlers, .schema] := by
  simp only [Fields.base, Map.held, List.mem_append, List.mem_cons, List.mem_ite_nil_right,
    List.not_mem_nil, or_false] at h ⊢
  tauto

theorem Fields.base_outside (s : Fields) : Outside s.base := by
  intro q hq
  have hmem := mem_base hq
  simp only [List.mem_cons, List.not_mem_nil, or_false] at hmem
  rcases hmem with rfl | rfl | rfl | rfl | rfl | rfl <;> rfl

theorem ipaClose_safe (hrest : rest.Safe rules past []) :
    (ipaClose s rest).Safe rules past s.held := by
  have hschema : (release .schema rest).Safe rules past [.schema] :=
    hrest.release_head (by simp [rules, needs]) fun e he => by cases he
  have hbase := mmapClose_safe s.map (release_safe (r := .lock) rfl (by simp)
    (release_safe (r := .path) rfl (by simp) (drop_safe (r := .handlers) rfl (by simp) hschema
      s.handlers)))
  refine drop_safe rfl (by simp) (drop_safe rfl (by simp) ?_ s.childHnsw) s.nodeHnsw
  unfold Fields.pool
  cases s.emb with
  | none => exact hbase
  | some n => exact embClose_safe hbase s.base_outside

theorem mmapOpen_safe {ok : Map → Routine} (hfd : .fd ∉ live) (hmapping : .mapping ∉ live)
    (hschema : .schema ∈ live) (hok : ∀ map, (ok map).Safe rules past (map.held ++ live))
    (hfail : fail.Safe rules past live) : (mmapOpen ok fail).Safe rules past live := by
  have hclose := release_safe (r := .fd) rfl (by simp) hfail
  refine ⟨hfd, ?_, ⟨⟨release_safe rfl (by simp) (hok ⟨false, false⟩), ?_, ?_, hok ⟨true, true⟩,
    hclose⟩, hclose⟩, hfail⟩
  · simpa [rules, needs] using hschema
  · simpa using hmapping
  · simpa [rules, needs] using hschema

theorem buildHnsw_safe (hr : r = .nodeHnsw ∨ r = .childHnsw) (rows : ℕ) (hnot : r ∉ live)
    (hschema : .schema ∈ live) (hmapping : .mapping ∈ live) (hok : ok.Safe rules past (r :: live))
    (hfail : fail.Safe rules past live) : (buildHnsw r rows ok fail).Safe rules past live := by
  have hclose : (release r fail).Safe rules past (r :: live) := by
    rcases hr with rfl | rfl <;> exact release_safe rfl (by simp) hfail
  refine access_safe (by simpa using hmapping) ⟨hnot, ?_, ?_, hfail⟩
  · rcases hr with rfl | rfl <;> simpa [rules, needs] using hschema
  · split
    · exact hok
    · exact readTests_safe (by simp) (readTests_safe (by simp [hmapping])
        (readTests_safe (by simp) hok hclose 1) hclose _) hclose 1

/-- What a schema holds belongs to it, or to its pool. -/
theorem mem_pool (h : r ∈ s.pool) (hr : r.ofSchema = true) : r ∈ s.base := by
  unfold Fields.pool at h
  split at h
  · rcases List.mem_append.mp h with h | h
    · obtain ⟨j, -, -, hworker⟩ := worker_of_mem_crew h
      cases r <;> simp_all [Resource.ofSchema, Resource.worker]
    · simp only [List.mem_cons] at h
      rcases h with rfl | rfl | rfl | rfl | h
      · cases hr
      · cases hr
      · cases hr
      · cases hr
      · exact h
  · exact h

theorem base_mem_pool (h : r ∈ s.base) : r ∈ s.pool := by
  unfold Fields.pool
  split
  · simp [pooled, h]
  · exact h

theorem schema_mem_pool : Resource.schema ∈ s.pool := base_mem_pool (by simp [Fields.base])

theorem index_not_mem_pool (hr : r = .nodeHnsw ∨ r = .childHnsw) : r ∉ s.pool := by
  intro h
  have hmem := mem_base (mem_pool h (by rcases hr with rfl | rfl <;> rfl))
  rcases hr with rfl | rfl <;> simp at hmem

/-- What an opened schema has. -/
structure Fields.Opened (s : Fields) (n : ℕ) : Prop where
  emb : s.emb = some n
  data : s.map.data = true
  nodeHnsw : s.nodeHnsw = true
  handlers : s.handlers = false

theorem pool_mem_held (h : r ∈ s.pool) : r ∈ s.held :=
  List.mem_append_right _ (List.mem_append_right _ h)

theorem mapping_mem_pool (hdata : s.map.data = true) : Resource.mapping ∈ s.pool :=
  base_mem_pool (by simp [Fields.base, Map.held, hdata])

/-- What a call reads besides the pool is there. -/
theorem parsed_mem_held (hdata : s.map.data = true) (hnode : s.nodeHnsw = true)
    (h : r ∈ s.parsed) : r ∈ s.held := by
  have hpool : ∀ {r}, r ∈ s.base → r ∈ s.held := fun hr => pool_mem_held (base_mem_pool hr)
  rcases List.mem_append.mp h with h | h
  · simp only [List.mem_cons, List.not_mem_nil, or_false] at h
    rcases h with rfl | rfl | rfl | rfl
    · exact hpool (by simp [Fields.base])
    · exact hpool (by simp [Fields.base])
    · exact pool_mem_held (mapping_mem_pool hdata)
    · simp [Fields.held, hnode]
  · exact List.mem_append_right _ (List.mem_append_left _ h)

theorem ipaOpenIndex_safe (sizes : Sizes) {n : ℕ} {ok : Fields → Routine}
    (hnode : s.nodeHnsw = false) (hchild : s.childHnsw = false)
    (hopened : ({ s with nodeHnsw := true } : Fields).Opened n)
    (hok : ∀ s', s'.Opened n → (ok s').Safe rules past s'.held) (hfail : fail.Safe rules past []) :
    (ipaOpenIndex sizes s ok fail).Safe rules past s.held := by
  obtain ⟨hemb, hdata, -, hhandlers⟩ := hopened
  have hclose : ∀ s : Fields, (ipaClose s fail).Safe rules past s.held := fun s =>
    ipaClose_safe hfail
  have hnone : s.held = s.pool := by
    rw [Fields.held, hnode, hchild]
    rfl
  have hone : ({ s with nodeHnsw := true } : Fields).held = .nodeHnsw :: s.pool := by
    rw [Fields.held, hchild]
    rfl
  have hmapping : Resource.mapping ∈ s.pool := mapping_mem_pool hdata
  have hpool : Resource.pool ∈ s.pool := by
    rw [Fields.pool, show s.emb = some n from hemb]
    simp [pooled]
  refine readTests_safe ?_ ?_ (hclose s) 1
  · rw [hnone]
    simp [hmapping, hpool]
  refine buildHnsw_safe (.inl rfl) sizes.nodeRows ?_ ?_ ?_ ?_ (hclose s)
  · rw [hnone]
    exact index_not_mem_pool (.inl rfl)
  · rw [hnone]
    exact schema_mem_pool
  · rw [hnone]
    exact hmapping
  rw [hnone, ← hone]
  dsimp only
  split
  · refine readTests_safe ?_ (hok _ ⟨hemb, hdata, rfl, hhandlers⟩) (hclose _) 2
    rw [hone]
    simp [hmapping]
  refine buildHnsw_safe (.inr rfl) sizes.childRows ?_ ?_ ?_ ?_ (hclose _)
  · rw [hone, List.mem_cons, not_or]
    exact ⟨by simp, index_not_mem_pool (.inr rfl)⟩
  · rw [hone]
    exact List.mem_cons_of_mem _ schema_mem_pool
  · rw [hone]
    exact List.mem_cons_of_mem _ hmapping
  · have htables := hok { s with nodeHnsw := true, childHnsw := true }
      ⟨hemb, hdata, rfl, hhandlers⟩
    have hboth : ({ s with nodeHnsw := true, childHnsw := true } : Fields).held =
        .nodeHnsw :: .childHnsw :: s.pool := rfl
    have hswap : (Resource.nodeHnsw :: .childHnsw :: s.pool).Perm
        (.childHnsw :: ({ s with nodeHnsw := true } : Fields).held) := by
      rw [hone]
      exact List.Perm.swap _ _ _
    refine readTests_safe (fun q hq => ?_) ((hboth ▸ htables).perm hswap)
      ((hboth ▸ hclose { s with nodeHnsw := true, childHnsw := true }).perm hswap) 2
    rw [List.mem_singleton.mp hq, hone]
    simp [hmapping]

theorem ipaOpen_safe (sizes : Sizes) {ok : ℕ → Fields → Routine}
    (hok : ∀ n s, s.Opened n → (ok n s).Safe rules past s.held)
    (hfail : fail.Safe rules past []) : (ipaOpen sizes ok fail).Safe rules past [] := by
  have hclose : ∀ s : Fields, (ipaClose s fail).Safe rules past s.held := fun s =>
    ipaClose_safe hfail
  have hschema : (release .schema fail).Safe rules past [.schema] :=
    hfail.release_head (by simp [rules, needs]) fun e he => by cases he
  refine ⟨by simp, by simp [rules, needs], ⟨by simp, by simp [rules, needs],
    ⟨by simp, by simp [rules, needs], ?_, release_safe rfl (by simp) hschema⟩, hschema⟩, hfail⟩
  refine mmapOpen_safe (by simp) (by simp) (by simp) (fun map => ?_)
    (hclose ⟨false, false, none, ⟨false, false⟩, false⟩)
  have hrefused := hclose ⟨false, false, none, map, false⟩
  dsimp only
  split
  swap
  · exact hrefused
  rename_i hdata
  refine ⟨readTests_safe ?_ (embOpen_safe ?_ (fun n _ _ => ?_) hrefused) hrefused 4, hrefused⟩
  · intro q hq
    obtain rfl := List.mem_singleton.mp hq
    exact pool_mem_held (mapping_mem_pool hdata)
  · exact Fields.base_outside ⟨false, false, none, map, false⟩
  · exact ipaOpenIndex_safe (s := ⟨false, false, some n, map, false⟩) sizes rfl rfl
      ⟨rfl, hdata, rfl, rfl⟩ (fun s' hopened => hok n s' hopened) hfail

theorem base_handlers_perm (h : s.handlers = false) :
    ({ s with handlers := true } : Fields).base.Perm (.handlers :: s.base) := by
  rw [Fields.base, Fields.base, h]
  change (s.map.held ++ ([Resource.lock, .path] ++ Resource.handlers :: [.schema])).Perm
    (.handlers :: (s.map.held ++ ([Resource.lock, .path] ++ [Resource.schema])))
  rw [← List.append_assoc, ← List.append_assoc]
  exact List.perm_middle

theorem held_handlers_perm (h : s.handlers = false) :
    ({ s with handlers := true } : Fields).held.Perm (.handlers :: s.held) := by
  have hpool : ({ s with handlers := true } : Fields).pool.Perm (.handlers :: s.pool) := by
    unfold Fields.pool
    cases s.emb with
    | none => exact base_handlers_perm h
    | some n =>
      have hparts : ∀ live, pooled n live =
          (crew 0 n ++ [.poolCond, .poolMutex, .workers, .pool]) ++ live := fun live => by
        rw [List.append_assoc]
        rfl
      dsimp only
      rw [hparts, hparts]
      exact ((base_handlers_perm h).append_left _).trans List.perm_middle
  unfold Fields.held
  exact ((((hpool.append_left _).trans List.perm_middle).append_left _)).trans List.perm_middle

/-- **A schema**: whatever fails, everything is released. -/
theorem schemaLife_safe (sizes : Sizes) : (schemaLife sizes).Safe rules [] [] := by
  have hdone : (done : Routine).Safe rules [] [] := rfl
  have hused : ∀ n (s : Fields), s.emb = some n → s.map.data = true → s.nodeHnsw = true →
      (event (.serve n s.parsed) (ipaClose s done)).Safe rules [] s.held := by
    intro n s hemb hdata hnode
    refine serve_safe (fun q hq => pool_mem_held ?_) (fun q hq => parsed_mem_held hdata hnode hq)
      (ipaClose_safe hdone)
    rw [Fields.pool, hemb]
    exact serving_subset hq
  refine ipaOpen_safe sizes (fun n s hopened => ?_) hdone
  obtain ⟨hemb, hdata, hnode, hhandlers⟩ := hopened
  refine ⟨⟨fun hmem => ?_, ?_, ?_, hused n s hemb hdata hnode⟩, hused n s hemb hdata hnode⟩
  · have hbase : Resource.handlers ∈ s.base := by
      rw [Fields.held] at hmem
      simp only [List.mem_append, List.mem_ite_nil_right, List.mem_singleton] at hmem
      rcases hmem with ⟨-, h⟩ | ⟨-, h⟩ | h
      · cases h
      · cases h
      · exact mem_pool h rfl
    obtain ⟨nodeHnsw, childHnsw, emb, ⟨data, fd⟩, handlers⟩ := s
    cases hhandlers
    cases data <;> cases fd <;> simp [Fields.base, Map.held] at hbase
  · intro q hq
    obtain rfl : q = .schema := by simpa [rules, needs] using hq
    exact pool_mem_held schema_mem_pool
  · exact (hused n { s with handlers := true } hemb hdata hnode).perm (held_handlers_perm hhandlers)

end Schema

end Lifetime

end Ipa
