import Ipa.Lib.Run
import Ipa.Lib.CStr
import Ipa.Lib.Probing

/-!
# The vocabulary of the embedding model

A hash table of the strings of the vocabulary, by open addressing with twice as many slots as
strings and one more. `find_token` walks until it meets the string or an empty slot; the fuel of the
walks is the size of the table.
-/

namespace Ipa.Emb

open Run

structure HashEntry where
  str : Option CStr
  id : Int
deriving DecidableEq

variable {ε : Type}

/-- djb2. -/
def hashStr (str : CStr) : UInt32 := str.bytes.foldl (fun h c => ((h <<< 5) + h) + c.toUInt32) 5381

/-- The first slot from `h` on without a string. -/
def freeSlot (table : List HashEntry) : Nat → Nat → Run ε Nat
  | 0, _ => fault .fuel
  | fuel + 1, h =>
    match table[h]? with
    | none => fault .index
    | some entry =>
      if entry.str.isSome then freeSlot table fuel ((h + 1) % table.length) else pure h

/-- One turn of the loop over the vocabulary. -/
def hashVocab (table : List HashEntry) (word : CStr × Nat) : Run ε (List HashEntry) := do
  let h ← freeSlot table table.length ((hashStr word.1).toNat % table.length)
  pure (table.set h ⟨some word.1, word.2⟩)

/-- The hash table of a vocabulary; `none` is the return of -1. -/
def buildVocabHash (vocab : List CStr) : Run ε (Option (List HashEntry)) := do
  let vocabHashSize := vocab.length * 2 + 1
  if ← alloc then
    let table ← vocab.zipIdx.foldlM hashVocab (List.replicate vocabHashSize ⟨none, 0⟩)
    pure (some table)
  else pure none

/-- The loop of `find_token`. -/
def findFrom (table : List HashEntry) (str : CStr) : Nat → Nat → Run ε Int
  | 0, _ => fault .fuel
  | fuel + 1, h =>
    match table[h]? with
    | none => fault .index
    | some entry =>
      match entry.str with
      | none => pure (-1)
      | some s => if s = str then pure entry.id else findFrom table str fuel ((h + 1) % table.length)

def findToken (table : Option (List HashEntry)) (str : CStr) : Run ε Int :=
  match table with
  | none => pure (-1)
  | some table =>
    if table.length = 0 then pure (-1)
    else findFrom table str table.length ((hashStr str).toNat % table.length)

/-! ## The table -/

/-- A slot as a string with its number. -/
def HashEntry.content (entry : HashEntry) : Option (CStr × Int) := entry.str.map (·, entry.id)

/-- The vocabulary in the order of its numbers. -/
def numbered (vocab : List CStr) : List (CStr × Int) := vocab.zipIdx.map fun w => (w.1, (w.2 : Int))

/-- The table holds some of the strings. -/
def Hashed (table : List HashEntry) (words : List (CStr × Int)) : Prop :=
  Probing.Filled Prod.fst (fun str => (hashStr str).toNat % table.length)
    (table.map HashEntry.content) words

section Table

variable {table : List HashEntry} {words : List (CStr × Int)}

theorem content_getD (h : Nat) :
    (table.map HashEntry.content).getD h none = table[h]?.bind HashEntry.content := by
  rw [List.getD_eq_getElem?_getD, List.getElem?_map]
  cases table[h]? <;> rfl

theorem content_eq_none {entry : HashEntry} : entry.content = none ↔ entry.str = none :=
  Option.map_eq_none_iff

/-- The walk to an empty slot. -/
theorem freeSlot_eq {d fuel h : Nat} (hh : h < table.length) (hfuel : d < fuel)
    (hnone : Probing.slot (table.map HashEntry.content) h d = none)
    (hbefore : ∀ d' < d, ∃ b, Probing.slot (table.map HashEntry.content) h d' = some b) :
    freeSlot (ε := ε) table fuel h = pure ((h + d) % table.length) := by
  have hwalk := Probing.walk_eq (n := table.length) (f := freeSlot (ε := ε) table)
    (g := fun h => if h < table.length then pure h else fault .index)
    (P := fun h => (table.map HashEntry.content).getD h none = none) (d := d)
    (fun fuel h hstop => by
      rw [content_getD] at hstop
      rw [freeSlot]
      by_cases hlt : h < table.length
      · rw [List.getElem?_eq_getElem hlt] at hstop ⊢
        rw [if_pos hlt]
        simp [content_eq_none.mp hstop]
      · rw [List.getElem?_eq_none (by omega), if_neg hlt])
    (fun fuel h hgo => by
      rw [content_getD] at hgo
      rw [freeSlot]
      cases hentry : table[h]? with
      | none =>
        rw [hentry] at hgo
        exact absurd rfl hgo
      | some entry =>
        rw [hentry] at hgo
        have hsome : entry.str.isSome = true :=
          Option.isSome_iff_ne_none.mpr fun hnil => hgo (content_eq_none.mpr hnil)
        simp only [hsome, if_true])
    hh hfuel
  unfold Probing.slot at hnone hbefore
  rw [List.length_map] at hnone hbefore
  rw [hwalk hnone fun d' hd' hstop => by
    obtain ⟨b, hb⟩ := hbefore d' hd'
    rw [hstop] at hb
    cases hb]
  rw [if_pos (Nat.mod_lt _ (Nat.zero_lt_of_lt hh))]

/-- What the walk of a lookup returns where it ends. -/
def answer (content : Option (CStr × Int)) : Int := (content.map (·.2)).getD (-1)

theorem findFrom_eq {str : CStr} {d fuel h : Nat} (hh : h < table.length) (hfuel : d < fuel)
    (hend : ∀ b, Probing.slot (table.map HashEntry.content) h d = some b → b.1 = str)
    (hbefore : ∀ d' < d, ∃ b, Probing.slot (table.map HashEntry.content) h d' = some b ∧
      b.1 ≠ str) :
    findFrom (ε := ε) table str fuel h =
      pure (answer (Probing.slot (table.map HashEntry.content) h d)) := by
  have hwalk := Probing.walk_eq (n := table.length) (f := findFrom (ε := ε) table str)
    (g := fun h => if h < table.length then
      pure (answer ((table.map HashEntry.content).getD h none)) else fault .index)
    (P := fun h => ∀ b, (table.map HashEntry.content).getD h none = some b → b.1 = str) (d := d)
    (fun fuel h hstop => by
      rw [content_getD] at hstop ⊢
      rw [findFrom]
      by_cases hlt : h < table.length
      · rw [List.getElem?_eq_getElem hlt] at hstop ⊢
        rw [if_pos hlt]
        generalize table[h] = entry at hstop ⊢
        obtain ⟨word, id⟩ := entry
        cases word with
        | none => rfl
        | some word =>
          have hword : word = str := hstop (word, id) rfl
          simp only [if_pos hword]
          rfl
      · rw [List.getElem?_eq_none (by omega), if_neg hlt])
    (fun fuel h hgo => by
      rw [content_getD] at hgo
      rw [findFrom]
      cases hentry : table[h]? with
      | none =>
        rw [hentry] at hgo
        exact absurd (fun b hb => by cases hb) hgo
      | some entry =>
        rw [hentry] at hgo
        obtain ⟨word, id⟩ := entry
        cases word with
        | none => exact absurd (fun b hb => by cases hb) hgo
        | some word =>
          have hword : word ≠ str := fun heq => hgo fun b hb => by
            cases hb
            exact heq
          simp only [if_neg hword])
    hh hfuel
  unfold Probing.slot at hend hbefore ⊢
  rw [List.length_map] at hend hbefore ⊢
  rw [hwalk hend fun d' hd' hstop => by
    obtain ⟨b, hb, hne⟩ := hbefore d' hd'
    exact hne (hstop b hb)]
  rw [if_pos (Nat.mod_lt _ (Nat.zero_lt_of_lt hh))]

/-- One more string. -/
theorem hashVocab_hashed {I : Env → Prop} {X : Stop ε → Prop} (h : Hashed table words)
    (hroom : words.length < table.length) (str : CStr) (i : Nat) :
    Keeps I X (hashVocab table (str, i)) fun table' =>
      Hashed table' (words ++ [(str, (i : Int))]) ∧ table'.length = table.length := by
  have hpos : 0 < table.length := Nat.zero_lt_of_lt hroom
  have hlen : (table.map HashEntry.content).length = table.length := List.length_map _
  obtain ⟨d, hd, hnone, hbefore⟩ := Probing.Filled.free h (by rw [hlen]; exact hroom)
    ((hashStr str).toNat % table.length)
  have hslot : freeSlot (ε := ε) table table.length ((hashStr str).toNat % table.length) =
      pure (((hashStr str).toNat % table.length + d) % table.length) :=
    freeSlot_eq (Nat.mod_lt _ hpos) (by rw [← hlen]; exact hd) hnone hbefore
  unfold hashVocab
  rw [hslot, pure_bind]
  refine Keeps.pure ⟨?_, List.length_set⟩
  have hinsert := Probing.Filled.insert h (str, (i : Int)) (by rw [hlen]; exact hpos) hnone hbefore
  unfold Hashed
  rw [List.length_set, List.map_set, ← hlen]
  rw [hlen] at hinsert ⊢
  exact hinsert

end Table

/-! ## The vocabulary -/

theorem buildVocabHash_spec {I : Env → Prop} {X : Stop ε → Prop} {failed : Prop}
    (halloc : Keeps I X (alloc : Run ε Bool) fun served => served = false → failed)
    (vocab : List CStr) : Keeps I X (buildVocabHash vocab) fun r =>
      (∃ table, r = some table ∧ Hashed table (numbered vocab) ∧
        table.length = vocab.length * 2 + 1) ∨ (r = none ∧ failed) := by
  unfold buildVocabHash
  refine Keeps.bind halloc fun served hserved => ?_
  cases served with
  | false => exact Keeps.pure (.inr ⟨rfl, hserved rfl⟩)
  | true =>
    have hloop := Keeps.foldlM_split (I := I) (X := X) (f := hashVocab (ε := ε))
      (l := vocab.zipIdx) (s := List.replicate (vocab.length * 2 + 1) ⟨none, 0⟩)
      (fun done table => Hashed table (done.map fun w => (w.1, (w.2 : Int))) ∧
        table.length = vocab.length * 2 + 1) ?_ ?_
    · refine Keeps.bind hloop fun table htable => Keeps.pure (.inl ⟨table, rfl, htable⟩)
    · refine ⟨?_, List.length_replicate⟩
      unfold Hashed
      rw [List.map_replicate]
      exact Probing.filled_replicate _
    · intro done word rest table hsplit htable
      have hlen := congrArg List.length hsplit
      rw [List.length_zipIdx, List.length_append, List.length_cons] at hlen
      refine (hashVocab_hashed htable.1 ?_ word.1 word.2).mono fun table' h => ?_
      · rw [List.length_map]
        omega
      · rw [List.map_append]
        exact ⟨h.1, h.2.trans htable.2⟩

/-- A lookup in the table is one in the list. -/
theorem findToken_eq {table : List HashEntry} {vocab : List CStr}
    (h : Hashed table (numbered vocab)) (hlen : table.length = vocab.length * 2 + 1) (str : CStr) :
    findToken (ε := ε) (some table) str =
      pure (answer ((numbered vocab).find? fun w => w.1 = str)) := by
  have hpos : 0 < table.length := by omega
  have hmap : (table.map HashEntry.content).length = table.length := List.length_map _
  have hcount : (numbered vocab).length = vocab.length := by
    rw [numbered, List.length_map, List.length_zipIdx]
  obtain ⟨d, hd, hslot, hbefore⟩ := Probing.Filled.lookup h (by omega) str
  unfold findToken
  dsimp only
  rw [if_neg (by omega), findFrom_eq (Nat.mod_lt _ hpos) (by rw [← hmap]; exact hd)
    (fun b hb => ?_) hbefore, hslot]
  rw [hslot] at hb
  have hfound := List.find?_some hb
  rwa [decide_eq_true_eq] at hfound

theorem numbered_getElem? (vocab : List CStr) (i : Nat) :
    (numbered vocab)[i]? = vocab[i]?.map (·, (i : Int)) := by
  rw [numbered, List.getElem?_map, List.getElem?_zipIdx, Option.map_map, Nat.zero_add]
  rfl

/-- The first of the numbered strings has the least number. -/
theorem answer_numbered (vocab : List CStr) (str : CStr) :
    let id := answer ((numbered vocab).find? fun w => w.1 = str)
    (id = -1 ∧ ∀ i : Nat, vocab[i]? ≠ some str) ∨
      ∃ i : Nat, id = i ∧ vocab[i]? = some str ∧ ∀ j < i, vocab[j]? ≠ some str := by
  intro id
  cases hfind : (numbered vocab).find? fun w => w.1 = str with
  | none =>
    have hid : id = -1 := by simp only [id, hfind, answer, Option.map_none, Option.getD_none]
    refine .inl ⟨hid, fun i hi => ?_⟩
    have hat := numbered_getElem? vocab i
    rw [hi] at hat
    have hmem : (str, (i : Int)) ∈ numbered vocab := List.mem_of_getElem? hat
    exact List.find?_eq_none.mp hfind _ hmem (decide_eq_true rfl)
  | some w =>
    obtain ⟨hword, i, hi, hw, hfirst⟩ := List.find?_eq_some_iff_getElem.mp hfind
    rw [decide_eq_true_eq] at hword
    have hat := numbered_getElem? vocab i
    rw [List.getElem?_eq_getElem hi, hw] at hat
    obtain ⟨s, hs, hpair⟩ := Option.map_eq_some_iff.mp hat.symm
    have hid : id = w.2 := by simp only [id, hfind, answer, Option.map_some, Option.getD_some]
    refine .inr ⟨i, by rw [hid, ← hpair], by rw [hs, ← hword, ← hpair], fun j hj hsame => ?_⟩
    have hlt : j < (numbered vocab).length := by omega
    have hbefore := hfirst j hj
    have hat' := numbered_getElem? vocab j
    rw [List.getElem?_eq_getElem hlt, hsame] at hat'
    rw [Option.some.inj hat'] at hbefore
    simp at hbefore

/-- **The vocabulary**: the table that is built answers every string with the least number of it in
the vocabulary, or with -1 when it is none of its strings; or its allocation failed. -/
theorem findToken_least (vocab : List CStr) (e : Env) :
    (∃ table e', (buildVocabHash (ε := ε) vocab).exec e = (.ok (some table), e') ∧
      ∀ (str : CStr) (e₀ : Env), ∃ id, (findToken (ε := ε) (some table) str).exec e₀ = (.ok id, e₀) ∧
        ((id = -1 ∧ ∀ i : Nat, vocab[i]? ≠ some str) ∨
          ∃ i : Nat, id = i ∧ vocab[i]? = some str ∧ ∀ j < i, vocab[j]? ≠ some str)) ∨
    (false ∈ e.allocs ∧ ∃ e', (buildVocabHash (ε := ε) vocab).exec e = (.ok none, e')) := by
  obtain ⟨-, hrun⟩ := buildVocabHash_spec (ε := ε) (X := fun _ => False)
    (@Keeps.alloc_within ε e.allocs _) vocab e (List.suffix_refl e.allocs)
  rcases hexec : (buildVocabHash (ε := ε) vocab).exec e with ⟨stop | r, e'⟩
  · rw [hexec] at hrun
    exact hrun.elim
  rw [hexec] at hrun
  rcases hrun with ⟨table, rfl, hhashed, hlen⟩ | ⟨rfl, hfailed⟩
  · refine .inl ⟨table, e', rfl, fun str e₀ => ⟨_, ?_, answer_numbered vocab str⟩⟩
    rw [findToken_eq hhashed hlen]
    rfl
  · exact .inr ⟨hfailed, e', rfl⟩

end Ipa.Emb
