import Ipa.Lib.JsonClean
import Ipa.Manifest.Literals

/-!
# What the parsers read

`Reads n k k' P j j'`: from `j` to `j'` the tokenizer moved over `n` bytes or more of its text; and
where what is ahead of it is clean, with `k` brackets open or more, what it moved over satisfies `P`
and what is ahead then is clean, with `k'` brackets open. Each parser reads in this sense when it
returns, and with fuel in proportion to what is ahead it only ends with an error that it reports.
-/

namespace Ipa

open Run JsonText

namespace Json

def Reads (n k k' : Nat) (P : List UInt8 → Prop) (j j' : Json) : Prop :=
  ∃ t, n ≤ t.length ∧ j.rest = t ++ j'.rest ∧ j' = j.advance t.length ∧
    ∀ d, Clean (d + k) j.rest → P t ∧ Clean (d + k') j'.rest

section Reading

variable {n n' k k' l : Nat} {P Q : List UInt8 → Prop} {j j₁ j' : Json}

theorem Reads.then (h : Reads n k k' P j j₁) (h' : Reads n' k' l Q j₁ j') :
    Reads (n + n') k l (fun t => ∃ a b, t = a ++ b ∧ P a ∧ Q b) j j' := by
  obtain ⟨a, ha, hrest, hj₁, hclean⟩ := h
  obtain ⟨b, hb, hrest', hj', hclean'⟩ := h'
  refine ⟨a ++ b, ?_, ?_, ?_, fun d hd => ?_⟩
  · rw [List.length_append]
    omega
  · rw [hrest, hrest', List.append_assoc]
  · rw [hj', hj₁, advance_advance, List.length_append]
  · obtain ⟨hP, hmid⟩ := hclean d hd
    obtain ⟨hQ, hend⟩ := hclean' d hmid
    exact ⟨⟨a, b, rfl, hP, hQ⟩, hend⟩

theorem Reads.mono (h : Reads n k k' P j j') (hPQ : ∀ t, P t → Q t) : Reads n k k' Q j j' := by
  obtain ⟨t, ht, hrest, hj', hclean⟩ := h
  exact ⟨t, ht, hrest, hj', fun d hd => (hclean d hd).imp_left (hPQ t)⟩

/-- What is left gets shorter. -/
theorem Reads.shorter (h : Reads n k k' P j j') : j'.rest.length + n ≤ j.rest.length := by
  obtain ⟨t, ht, hrest, -, -⟩ := h
  rw [hrest, List.length_append]
  omega

theorem Reads.src (h : Reads n k k' P j j') : j'.src = j.src := by
  obtain ⟨t, -, -, rfl, -⟩ := h
  rfl

/-- The tokenizer moved on by what it read. -/
theorem Reads.pos (h : Reads n k k' P j j') :
    j.pos + n ≤ j'.pos ∧ (j.pos ≤ j.src.length → j'.pos ≤ j'.src.length) := by
  obtain ⟨t, ht, hrest, rfl, -⟩ := h
  have hlen := congrArg List.length hrest
  unfold rest at hlen
  rw [List.length_append, List.length_drop, List.length_drop] at hlen
  rw [advance_pos, advance_src] at *
  omega

/-! ## Single bytes -/

def Blank (t : List UInt8) : Prop := ∀ c ∈ t, isWs c = true

theorem clean_of_space {d : Nat} : ∀ {ws s : List UInt8}, (∀ c ∈ ws, isspace c = true) →
    Clean d (ws ++ s) → Blank ws ∧ Clean d s
  | [], _, _, h => ⟨fun _ hc => (by cases hc), h⟩
  | c :: ws, s, hws, h => by
    obtain ⟨hc, h⟩ := Clean.white_inv (hws c List.mem_cons_self) h
    obtain ⟨hblank, h⟩ := clean_of_space (fun x hx => hws x (List.mem_cons_of_mem _ hx)) h
    refine ⟨fun x hx => ?_, h⟩
    rcases List.mem_cons.mp hx with rfl | hx
    · exact hc
    · exact hblank x hx

theorem skipWs_reads (k : Nat) (j : Json) : Reads 0 k k Blank j j.skipWs := by
  obtain ⟨ws, hws, -, hrest, hskip⟩ := skipWs_spec j
  refine ⟨ws, Nat.zero_le _, hrest, hskip, fun d hd => ?_⟩
  rw [hrest] at hd
  exact clean_of_space hws hd

theorem solid_skipWs {c : UInt8} (h : j.skipWs.peek = some c) : isspace c = false := by
  obtain ⟨-, -, hsolid, -, -⟩ := skipWs_spec j
  rw [peek_eq] at h
  exact hsolid c h

/-- How many brackets are open around a byte. -/
def Passes (c : UInt8) (k k' : Nat) : Prop := ∀ d s, Clean (d + k) (c :: s) → Clean (d + k') s

theorem passes_open {c : UInt8} (hc : c = 0x7B ∨ c = 0x5B) (k : Nat) : Passes c k (k + 1) :=
  fun _ _ h => h.opening_inv hc

theorem passes_close {c : UInt8} (hc : c = 0x7D ∨ c = 0x5D) (k : Nat) : Passes c (k + 1) k :=
  fun _ _ h => Clean.closing_inv hc h

theorem passes_separator {c : UInt8} (hc : c = 0x2C ∨ c = 0x3A) (k : Nat) : Passes c k k :=
  fun _ _ h => h.separator_inv hc

theorem advance_reads {c : UInt8} (hc : Passes c k k') (h : j.peek = some c) :
    Reads 1 k k' (· = [c]) j (j.advance 1) := by
  rw [peek_eq] at h
  obtain ⟨s, hs⟩ := List.head?_eq_some_iff.mp h
  have hbehind : (j.advance [c].length).rest = s := rest_behind (by rw [hs]; rfl)
  refine ⟨[c], le_rfl, ?_, rfl, fun d hd => ⟨rfl, ?_⟩⟩
  · rw [hs, ← hbehind]
    rfl
  · rw [hs] at hd
    change Clean _ (j.advance [c].length).rest
    rw [hbehind]
    exact hc d s hd

/-- A byte behind white space. -/
def Token (c : UInt8) (t : List UInt8) : Prop := ∃ b : Space, t = b.bytes ++ [c]

/-- White space and a byte. -/
theorem skip_then_reads {c : UInt8} (hc : Passes c k k') (h : j.skipWs.peek = some c) :
    Reads 1 k k' (Token c) j (j.skipWs.advance 1) := by
  have h := (skipWs_reads k j).then (advance_reads hc h)
  rw [Nat.zero_add] at h
  refine h.mono ?_
  rintro t ⟨a, b, rfl, ha, rfl⟩
  exact ⟨⟨a, ha⟩, rfl⟩

theorem expect_reads {c : UInt8} (hc : Passes c k k') (j : Json) :
    Keeps (fun _ => True) Reported (j.expect c) (Reads 1 k k' (Token c) j) := by
  unfold expect
  dsimp only
  split
  · rename_i h
    exact Keeps.pure (skip_then_reads hc h)
  · exact Keeps.fail trivial

end Reading

/-! ## Strings -/

/-- Two strings at the front of a text are the same. -/
theorem spelled_inj : ∀ {ps qs : List Piece} {s s' : List UInt8},
    spelled ps ++ 0x22 :: s = spelled qs ++ 0x22 :: s' → spelled ps = spelled qs ∧ s = s'
  | [], [], _, _, h => by
    cases h
    exact ⟨rfl, rfl⟩
  | [], .raw c hq hb :: qs, _, _, h => by
    injection h with h
    exact absurd h.symm hq
  | .raw c hq hb :: ps, [], _, _, h => by
    injection h with h
    exact absurd h hq
  | [], .escaped e :: qs, _, _, h => by
    injection h with h
    cases h
  | .escaped e :: ps, [], _, _, h => by
    injection h with h
    cases h
  | .raw c hq hb :: ps, .raw c' hq' hb' :: qs, s, s', h => by
    change c :: (spelled ps ++ _) = c' :: (spelled qs ++ _) at h
    injection h with hc h
    obtain ⟨hps, hs⟩ := spelled_inj h
    refine ⟨?_, hs⟩
    change c :: spelled ps = c' :: spelled qs
    rw [hc, hps]
  | .escaped e :: ps, .escaped e' :: qs, s, s', h => by
    change 0x5C :: e :: (spelled ps ++ _) = 0x5C :: e' :: (spelled qs ++ _) at h
    injection h with _ h
    injection h with he h
    obtain ⟨hps, hs⟩ := spelled_inj h
    refine ⟨?_, hs⟩
    change 0x5C :: e :: spelled ps = 0x5C :: e' :: spelled qs
    rw [he, hps]
  | .raw c hq hb :: ps, .escaped e :: qs, _, _, h => by
    injection h with h
    exact absurd h hb
  | .escaped e :: ps, .raw c hq hb :: qs, _, _, h => by
    injection h with h
    exact absurd h.symm hb

/-- A string literal behind white space. -/
def Str (t : List UInt8) : Prop := ∃ (b : Space) (gs : List Glyph), t = b.bytes ++ literal gs

theorem parseString_reading (k : Nat) (j : Json) :
    Keeps (fun _ => True) Reported (parseString j) fun r => Reads 2 k k Str j r.1 := by
  refine (parseString_reads j).mono ?_
  rintro r ⟨ws, ps, hws, hrest, hr⟩
  refine ⟨ws ++ quoted ps, ?_, ?_, ?_, fun d hd => ?_⟩
  · rw [List.length_append, length_quoted]
    omega
  · rw [hrest, List.append_assoc]
  · rw [hr, List.length_append]
  · rw [hrest] at hd
    obtain ⟨hblank, hd⟩ := clean_of_space hws hd
    obtain ⟨gs, s', heq, hs'⟩ := Clean.string_inv hd
    obtain ⟨qs, hqs, -⟩ := literal_pieces gs
    have hquoted : spelled ps ++ 0x22 :: r.1.rest = spelled qs ++ 0x22 :: s' := by
      rw [← hqs] at heq
      unfold quoted at heq
      simpa using heq
    obtain ⟨hsame, rfl⟩ := spelled_inj hquoted
    refine ⟨⟨⟨ws, hblank⟩, gs, ?_⟩, hs'⟩
    rw [← hqs]
    unfold quoted
    rw [hsame]

/-! ## Values -/

/-- A value behind white space. -/
def ValueText (t : List UInt8) : Prop := ∃ (b : Space) (v : Value), t = b.bytes ++ v.text

/-- The members of an object, and the elements of an array, with the white space around them. -/
def MembersText (t : List UInt8) : Prop := ∃ members : Members, t = members.text

def ElementsText (t : List UInt8) : Prop := ∃ items : Elements, t = items.text

section Values

variable {k : Nat} {j : Json}

/-- A number that `strtod` reads. -/
theorem strtod_reads {c : UInt8} (hpeek : j.peek = some c) (hspace : isspace c = false)
    (hread : strtodLen j.rest ≠ 0) :
    Reads 1 k k ValueText j (j.advance (strtodLen j.rest)) := by
  rw [peek_eq] at hpeek
  obtain ⟨s, hs⟩ := List.head?_eq_some_iff.mp hpeek
  have hle := strtodLen_le j.rest
  have hlen : (j.rest.take (strtodLen j.rest)).length = strtodLen j.rest := by
    rw [List.length_take]
    omega
  refine ⟨j.rest.take (strtodLen j.rest), by omega, ?_, by rw [hlen], fun d hd => ?_⟩
  · rw [rest_advance, List.take_append_drop]
  · rw [hs] at hd
    obtain ⟨n, s', heq, hstrtod, hs'⟩ := Clean.number_inv hd hspace (by rwa [← hs])
    rw [rest_advance, hs, hstrtod, heq, List.take_left, List.drop_left]
    exact ⟨⟨.none, .number n, rfl⟩, hs'⟩

/-- The word at the front of what is left. -/
theorem skipWord_reads (w : Word) (j : Json) :
    Keeps (fun _ => True) Reported (j.skipWord w.text) (Reads 1 k k ValueText j) := by
  unfold skipWord
  split
  · rename_i h
    have hrest : j.rest = w.text ++ (j.advance w.text.length).rest := by
      rw [rest_advance]
      nth_rewrite 1 [← List.take_append_drop w.text.length j.rest]
      rw [h]
    refine Keeps.pure ⟨w.text, ?_, hrest, rfl, fun d hd => ⟨⟨.none, .word w, rfl⟩, ?_⟩⟩
    · cases w <;> decide
    · rw [hrest] at hd
      exact Clean.word_inv hd
  · exact Keeps.fail trivial

theorem Reads.string {j' : Json} (h : Reads 2 k k Str j j') : Reads 1 k k ValueText j j' := by
  obtain ⟨t, ht, hrest, hj', hclean⟩ := h
  refine ⟨t, by omega, hrest, hj', fun d hd => ?_⟩
  obtain ⟨⟨b, gs, hgs⟩, hend⟩ := hclean d hd
  exact ⟨⟨b, .string gs, hgs⟩, hend⟩

theorem Space.append {a : List UInt8} (ha : Blank a) (s : Space) :
    ∃ s' : Space, s'.bytes = a ++ s.bytes := by
  refine ⟨⟨a ++ s.bytes, fun c hc => ?_⟩, rfl⟩
  rcases List.mem_append.mp hc with hc | hc
  · exact ha c hc
  · exact s.white c hc

/-- White space in front of a value. -/
theorem ValueText.behind {a b : List UInt8} (ha : Blank a) (hb : ValueText b) :
    ValueText (a ++ b) := by
  obtain ⟨s, v, rfl⟩ := hb
  obtain ⟨s', hs'⟩ := Space.append ha s
  exact ⟨s', v, by rw [hs', List.append_assoc]⟩

theorem ElementsText.blank {b : List UInt8} (hb : Blank b) : ∀ items : Elements,
    ElementsText (items.text ++ b)
  | .last before v after => by
    refine ⟨.last before v ⟨after.bytes ++ b, fun c hc => ?_⟩, ?_⟩
    · rcases List.mem_append.mp hc with hc | hc
      · exact after.white c hc
      · exact hb c hc
    · simp only [Elements.text, List.append_assoc]
  | .more before v after rest => by
    obtain ⟨items, hitems⟩ := ElementsText.blank hb rest
    refine ⟨.more before v after items, ?_⟩
    simp only [Elements.text, List.append_assoc, List.cons_append, hitems]

theorem MembersText.blank {b : List UInt8} (hb : Blank b) : ∀ members : Members,
    MembersText (members.text ++ b)
  | .last before name after before' v after' => by
    refine ⟨.last before name after before' v ⟨after'.bytes ++ b, fun c hc => ?_⟩, ?_⟩
    · rcases List.mem_append.mp hc with hc | hc
      · exact after'.white c hc
      · exact hb c hc
    · simp only [Members.text, List.append_assoc, List.cons_append]
  | .more before name after before' v after' rest => by
    obtain ⟨members, hmembers⟩ := MembersText.blank hb rest
    refine ⟨.more before name after before' v after' members, ?_⟩
    simp only [Members.text, List.append_assoc, List.cons_append, hmembers]

/-- What stands between a pair of brackets. -/
structure Brackets (o c : UInt8) (Inner : List UInt8 → Prop) : Prop where
  opens : ∀ k, Passes o k (k + 1)
  closes : ∀ k, Passes c (k + 1) k
  behind : ∀ {a b}, Blank a → Inner b → Inner (a ++ b)
  empty : ∀ {a b}, Token o a → Token c b → ValueText (a ++ b)
  full : ∀ {a b d}, Token o a → Inner b → Token c d → ValueText (a ++ (b ++ d))

theorem squares : Brackets 0x5B 0x5D ElementsText where
  opens := passes_open (.inr rfl)
  closes := passes_close (.inr rfl)
  behind := by
    rintro a _ ha ⟨items, rfl⟩
    cases items with
    | last before v after =>
      obtain ⟨s, hs⟩ := Space.append ha before
      exact ⟨.last s v after, by simp only [Elements.text, hs, List.append_assoc]⟩
    | more before v after rest =>
      obtain ⟨s, hs⟩ := Space.append ha before
      exact ⟨.more s v after rest, by simp only [Elements.text, hs, List.append_assoc]⟩
  empty := by
    rintro _ _ ⟨s, rfl⟩ ⟨s', rfl⟩
    exact ⟨s, .emptyArray s', by rw [Value.text, List.append_assoc]; rfl⟩
  full := by
    rintro _ _ _ ⟨s, rfl⟩ ⟨items, rfl⟩ ⟨s', rfl⟩
    obtain ⟨items', hitems⟩ := ElementsText.blank s'.white items
    refine ⟨s, .array items', ?_⟩
    rw [Value.text, ← hitems]
    simp only [List.append_assoc, List.cons_append, List.nil_append]

theorem braces : Brackets 0x7B 0x7D MembersText where
  opens := passes_open (.inl rfl)
  closes := passes_close (.inl rfl)
  behind := by
    rintro a _ ha ⟨members, rfl⟩
    cases members with
    | last before name after before' v after' =>
      obtain ⟨s, hs⟩ := Space.append ha before
      exact ⟨.last s name after before' v after',
        by simp only [Members.text, hs, List.append_assoc]⟩
    | more before name after before' v after' rest =>
      obtain ⟨s, hs⟩ := Space.append ha before
      exact ⟨.more s name after before' v after' rest,
        by simp only [Members.text, hs, List.append_assoc]⟩
  empty := by
    rintro _ _ ⟨s, rfl⟩ ⟨s', rfl⟩
    exact ⟨s, .emptyObject s', by rw [Value.text, List.append_assoc]; rfl⟩
  full := by
    rintro _ _ _ ⟨s, rfl⟩ ⟨members, rfl⟩ ⟨s', rfl⟩
    obtain ⟨members', hmembers⟩ := MembersText.blank s'.white members
    refine ⟨s, .object members', ?_⟩
    rw [Value.text, ← hmembers]
    simp only [List.append_assoc, List.cons_append, List.nil_append]

/-- A member, up to its value. -/
def NameText (t : List UInt8) : Prop := ∃ a b, t = a ++ b ∧ Str a ∧ Token 0x3A b

theorem membersText_last {a b c : List UInt8} (ha : NameText a) (hb : ValueText b)
    (hc : Blank c) : MembersText (a ++ (b ++ c)) := by
  obtain ⟨_, _, rfl, ⟨s, gs, rfl⟩, s', rfl⟩ := ha
  obtain ⟨s₁, v, rfl⟩ := hb
  refine ⟨.last s gs s' s₁ v ⟨c, hc⟩, ?_⟩
  simp only [Members.text, List.append_assoc, List.cons_append, List.nil_append]

theorem membersText_more {a b c m : List UInt8} (ha : NameText a) (hb : ValueText b)
    (hc : Token 0x2C c) (hm : MembersText m) : MembersText (a ++ (b ++ (c ++ m))) := by
  obtain ⟨_, _, rfl, ⟨s, gs, rfl⟩, s', rfl⟩ := ha
  obtain ⟨s₁, v, rfl⟩ := hb
  obtain ⟨s₂, rfl⟩ := hc
  obtain ⟨members, rfl⟩ := hm
  refine ⟨.more s gs s' s₁ v s₂ members, ?_⟩
  simp only [Members.text, List.append_assoc, List.cons_append, List.nil_append]

theorem elementsText_last {b c : List UInt8} (hb : ValueText b) (hc : Blank c) :
    ElementsText (b ++ c) := by
  obtain ⟨s, v, rfl⟩ := hb
  exact ⟨.last s v ⟨c, hc⟩, by rw [Elements.text, List.append_assoc]⟩

theorem elementsText_more {b c m : List UInt8} (hb : ValueText b) (hc : Token 0x2C c)
    (hm : ElementsText m) : ElementsText (b ++ (c ++ m)) := by
  obtain ⟨s, v, rfl⟩ := hb
  obtain ⟨s', rfl⟩ := hc
  obtain ⟨items, rfl⟩ := hm
  refine ⟨.more s v s' items, ?_⟩
  simp only [Elements.text, List.append_assoc, List.cons_append, List.nil_append]

/-- A value behind the white space that was skipped. -/
theorem Reads.skipped {n : Nat} {j' : Json} (h : Reads n k k ValueText j.skipWs j') :
    Reads n k k ValueText j j' := by
  have h := (skipWs_reads k j).then h
  rw [Nat.zero_add] at h
  refine h.mono ?_
  rintro t ⟨a, b, rfl, ha, hb⟩
  exact hb.behind ha

section Shapes

variable {α : Type} {o c : UInt8} {Inner : List UInt8 → Prop} {j₂ j₃ : Json}

/-- The closing bracket. -/
theorem closing_reads {β : Type} {f : Json → β} {g : β → Json} (hb : Brackets o c Inner)
    (hg : ∀ j, g (f j) = j) (hopen : Reads 1 k (k + 1) (Token o) j j₂)
    (hinner : Reads 1 (k + 1) (k + 1) Inner j₂.skipWs j₃) :
    Keeps (fun _ => True) Reported (j₃.expect c >>= fun j => pure (f j))
      fun r => Reads 1 k k ValueText j (g r) := by
  refine Keeps.bind (expect_reads (hb.closes k) j₃) fun j₄ hclose => Keeps.pure ?_
  rw [hg]
  obtain ⟨t, ht, hrest, hj₄, hclean⟩ :=
    hopen.then (((skipWs_reads (k + 1) j₂).then hinner).then hclose)
  refine ⟨t, by omega, hrest, hj₄, fun d hd => ?_⟩
  obtain ⟨⟨a, _, rfl, ha, _, e, rfl, ⟨w, b, rfl, hw, hb'⟩, he⟩, hend⟩ := hclean d hd
  exact ⟨hb.full ha (hb.behind hw hb') he, hend⟩

/-- The closing bracket of an empty pair. -/
theorem empty_reads (hb : Brackets o c Inner) (hopen : Reads 1 k (k + 1) (Token o) j j₂)
    (hpeek : j₂.skipWs.peek = some c) : Reads 1 k k ValueText j (j₂.skipWs.advance 1) := by
  obtain ⟨t, ht, hrest, hj', hclean⟩ := hopen.then (skip_then_reads (hb.closes k) hpeek)
  refine ⟨t, by omega, hrest, hj', fun d hd => ?_⟩
  obtain ⟨⟨a, b, rfl, ha, hb'⟩, hend⟩ := hclean d hd
  exact ⟨hb.empty ha hb', hend⟩

/-- What follows the value of a member: another one, or the end of the loop. -/
theorem member_reads {x : Run JsonError α} {y : α} {f : α → Json}
    (hname : Reads 3 k k NameText j j₂) (hvalue : Reads 1 k k ValueText j₂ j₃)
    (hy : f y = j₃.skipWs)
    (hmore : j₃.skipWs.peek = some 0x2C → (j₃.skipWs.advance 1).rest.length + 5 ≤ j.rest.length →
      Keeps (fun _ => True) Reported x fun r =>
        Reads 1 k k MembersText (j₃.skipWs.advance 1) (f r)) :
    Keeps (fun _ => True) Reported (if j₃.skipWs.peek = some 0x2C then x else pure y)
      fun r => Reads 1 k k MembersText j (f r) := by
  split
  · rename_i hpeek
    have hcomma := skip_then_reads (passes_separator (.inl rfl) k) hpeek
    have hlen := (hname.then (hvalue.then hcomma)).shorter
    refine (hmore hpeek (by omega)).mono fun r hr => ?_
    obtain ⟨t, ht, hrest, hj', hclean⟩ := hname.then (hvalue.then (hcomma.then hr))
    refine ⟨t, by omega, hrest, hj', fun d hd => ?_⟩
    obtain ⟨⟨a, _, rfl, ha, b, _, rfl, hb, e, m, rfl, he, hm⟩, hend⟩ := hclean d hd
    exact ⟨membersText_more ha hb he hm, hend⟩
  · refine Keeps.pure ?_
    rw [hy]
    obtain ⟨t, ht, hrest, hj', hclean⟩ := hname.then (hvalue.then (skipWs_reads k j₃))
    refine ⟨t, by omega, hrest, hj', fun d hd => ?_⟩
    obtain ⟨⟨a, _, rfl, ha, b, e, rfl, hb, he⟩, hend⟩ := hclean d hd
    exact ⟨membersText_last ha hb he, hend⟩

/-- What follows an element. -/
theorem element_reads {x : Run JsonError α} {y : α} {f : α → Json}
    (hvalue : Reads 1 k k ValueText j j₃) (hy : f y = j₃.skipWs)
    (hmore : j₃.skipWs.peek = some 0x2C → (j₃.skipWs.advance 1).rest.length + 2 ≤ j.rest.length →
      Keeps (fun _ => True) Reported x fun r =>
        Reads 1 k k ElementsText (j₃.skipWs.advance 1) (f r)) :
    Keeps (fun _ => True) Reported (if j₃.skipWs.peek = some 0x2C then x else pure y)
      fun r => Reads 1 k k ElementsText j (f r) := by
  split
  · rename_i hpeek
    have hcomma := skip_then_reads (passes_separator (.inl rfl) k) hpeek
    have hlen := (hvalue.then hcomma).shorter
    refine (hmore hpeek (by omega)).mono fun r hr => ?_
    obtain ⟨t, ht, hrest, hj', hclean⟩ := hvalue.then (hcomma.then hr)
    refine ⟨t, by omega, hrest, hj', fun d hd => ?_⟩
    obtain ⟨⟨b, _, rfl, hb, e, m, rfl, he, hm⟩, hend⟩ := hclean d hd
    exact ⟨elementsText_more hb he hm, hend⟩
  · refine Keeps.pure ?_
    rw [hy]
    obtain ⟨t, ht, hrest, hj', hclean⟩ := hvalue.then (skipWs_reads k j₃)
    refine ⟨t, by omega, hrest, hj', fun d hd => ?_⟩
    obtain ⟨⟨b, e, rfl, hb, he⟩, hend⟩ := hclean d hd
    exact ⟨elementsText_last hb he, hend⟩

/-- The name of a member. -/
theorem name_reads (k : Nat) (j : Json) (f : Json × CStr → Json → Run JsonError α)
    {Q : α → Prop} (h : ∀ r j₂, Reads 3 k k NameText j j₂ →
      Keeps (fun _ => True) Reported (f r j₂) Q) :
    Keeps (fun _ => True) Reported (do
      let r ← j.parseString
      let j₂ ← r.1.expect 0x3A
      f r j₂) Q := by
  refine Keeps.bind (parseString_reading k j) fun r hr => ?_
  refine Keeps.bind (expect_reads (passes_separator (.inr rfl) k) r.1) fun j₂ hcolon => ?_
  exact h r j₂ (hr.then hcolon)

end Shapes

/-! ## Unknown values -/

/-- The parsers of unknown values, at one fuel. -/
structure SkipsRead (fuel : Nat) : Prop where
  value : ∀ k j, 3 * j.rest.length + 2 ≤ fuel →
    Keeps (fun _ => True) Reported (skipValue fuel j) (Reads 1 k k ValueText j)
  object : ∀ k j, 3 * j.rest.length + 1 ≤ fuel →
    Keeps (fun _ => True) Reported (skipObject fuel j) (Reads 1 k k ValueText j)
  array : ∀ k j, 3 * j.rest.length + 1 ≤ fuel →
    Keeps (fun _ => True) Reported (skipArray fuel j) (Reads 1 k k ValueText j)
  members : ∀ k j, 3 * j.rest.length + 1 ≤ fuel →
    Keeps (fun _ => True) Reported (skipMembers fuel j) (Reads 1 k k MembersText j)
  elements : ∀ k j, 3 * j.rest.length + 3 ≤ fuel →
    Keeps (fun _ => True) Reported (skipElements fuel j) (Reads 1 k k ElementsText j)

theorem skipsRead : ∀ fuel, SkipsRead fuel
  | 0 => ⟨fun _ _ h => absurd h (by omega), fun _ _ h => absurd h (by omega),
      fun _ _ h => absurd h (by omega), fun _ _ h => absurd h (by omega),
      fun _ _ h => absurd h (by omega)⟩
  | fuel + 1 => by
    have ih := skipsRead fuel
    refine ⟨fun k j hfuel => ?_, fun k j hfuel => ?_, fun k j hfuel => ?_, fun k j hfuel => ?_,
      fun k j hfuel => ?_⟩
    · have hskip := (skipWs_reads k j).shorter
      unfold skipValue
      dsimp only
      split
      · exact Keeps.fail trivial
      rename_i c hpeek
      split
      · exact Keeps.bind (parseString_reading k j.skipWs) fun r hr => Keeps.pure hr.string.skipped
      split
      · exact (ih.object k _ (by omega)).mono fun _ h => h.skipped
      split
      · exact (ih.array k _ (by omega)).mono fun _ h => h.skipped
      split
      · exact (skipWord_reads .yes _).mono fun _ h => h.skipped
      split
      · exact (skipWord_reads .no _).mono fun _ h => h.skipped
      split
      · exact (skipWord_reads .null _).mono fun _ h => h.skipped
      · split
        · exact Keeps.fail trivial
        · rename_i hread
          exact Keeps.pure (strtod_reads hpeek (solid_skipWs hpeek) hread).skipped
    · unfold skipObject
      refine Keeps.bind (expect_reads (braces.opens k) j) fun j₂ hopen => ?_
      have hshort := hopen.shorter
      have hskip := (skipWs_reads k j₂).shorter
      dsimp only
      split
      · rename_i hpeek
        exact Keeps.pure (empty_reads braces hopen hpeek)
      · refine Keeps.bind (ih.members (k + 1) _ (by omega)) fun j₃ hinner => ?_
        have hclosing := closing_reads (f := id) (g := id) braces (fun _ => rfl) hopen hinner
        simpa using hclosing
    · unfold skipArray
      refine Keeps.bind (expect_reads (squares.opens k) j) fun j₂ hopen => ?_
      have hshort := hopen.shorter
      have hskip := (skipWs_reads k j₂).shorter
      dsimp only
      split
      · rename_i hpeek
        exact Keeps.pure (empty_reads squares hopen hpeek)
      · refine Keeps.bind (ih.elements (k + 1) _ (by omega)) fun j₃ hinner => ?_
        have hclosing := closing_reads (f := id) (g := id) squares (fun _ => rfl) hopen hinner
        simpa using hclosing
    · unfold skipMembers
      refine name_reads k j _ fun r j₂ hname => ?_
      have hshort := hname.shorter
      refine Keeps.bind (ih.value k j₂ (by omega)) fun j₃ hvalue => ?_
      exact member_reads hname hvalue rfl fun _ hlen => ih.members k _ (by omega)
    · unfold skipElements
      refine Keeps.bind (ih.value k j (by omega)) fun j₃ hvalue => ?_
      exact element_reads hvalue rfl fun _ hlen => ih.elements k _ (by omega)

theorem skipValue_reads (k : Nat) (j : Json) :
    Keeps (fun _ => True) Reported (skipValue j.fuel j) (Reads 1 k k ValueText j) :=
  (skipsRead _).value k j (by unfold fuel; omega)

/-! ## Strings and emits -/

theorem growArray_reported (n cap start : Nat) :
    Keeps (fun _ => True) Reported (growArray n cap start) fun _ => True := by
  unfold growArray
  split
  · exact Keeps.bind Keeps.allocOr fun _ _ => Keeps.pure trivial
  · exact Keeps.pure trivial

theorem stringArrayLoop_reads (k : Nat) : ∀ (fuel : Nat) (j : Json) (arr : List CStr) (cap : Nat),
    3 * j.rest.length + 1 ≤ fuel →
      Keeps (fun _ => True) Reported (stringArrayLoop fuel j arr cap)
        fun r => Reads 1 k k ElementsText j r.1
  | 0, _, _, _, h => absurd h (by omega)
  | fuel + 1, j, arr, cap, hfuel => by
    unfold stringArrayLoop
    refine Keeps.bind (parseString_reading k j.skipWs) fun ⟨j₂, str⟩ hr => ?_
    refine Keeps.bind (growArray_reported _ _ _) fun cap' _ => ?_
    refine element_reads (f := Prod.fst) hr.string.skipped rfl fun _ hlen => ?_
    exact stringArrayLoop_reads k fuel _ _ _ (by omega)

theorem parseStringArray_reads (k : Nat) (j : Json) :
    Keeps (fun _ => True) Reported (parseStringArray j) fun r => Reads 1 k k ValueText j r.1 := by
  unfold parseStringArray
  refine Keeps.bind (expect_reads (squares.opens k) j) fun j₂ hopen => ?_
  dsimp only
  split
  · rename_i hpeek
    exact Keeps.pure (empty_reads squares hopen hpeek)
  · refine Keeps.bind (stringArrayLoop_reads (k + 1) _ _ [] 0 (by unfold fuel; omega))
      fun r hinner => ?_
    exact closing_reads (f := fun j => (j, r.2)) (g := Prod.fst) squares (fun _ => rfl) hopen hinner

theorem emitLoop_reads (k : Nat) : ∀ (fuel : Nat) (j : Json) (arr : List EmitDef) (cap : Nat),
    3 * j.rest.length + 1 ≤ fuel →
      Keeps (fun _ => True) Reported (emitLoop fuel j arr cap)
        fun r => Reads 1 k k MembersText j r.1
  | 0, _, _, _, h => absurd h (by omega)
  | fuel + 1, j, arr, cap, hfuel => by
    unfold emitLoop
    refine name_reads k j _ fun key j₂ hname => ?_
    refine Keeps.bind (parseString_reading k j₂) fun ⟨j₃, val⟩ hr => ?_
    refine Keeps.bind (growArray_reported _ _ _) fun cap' _ => ?_
    refine member_reads (f := Prod.fst) hname hr.string rfl fun _ hlen => ?_
    exact emitLoop_reads k fuel _ _ _ (by omega)

theorem parseEmitObject_reads (k : Nat) (j : Json) :
    Keeps (fun _ => True) Reported (parseEmitObject j) fun r => Reads 1 k k ValueText j r.1 := by
  unfold parseEmitObject
  refine Keeps.bind (expect_reads (braces.opens k) j) fun j₂ hopen => ?_
  dsimp only
  split
  · rename_i hpeek
    exact Keeps.pure (empty_reads braces hopen hpeek)
  · refine Keeps.bind (emitLoop_reads (k + 1) _ _ [] 0 (by unfold fuel; omega))
      fun r hinner => ?_
    exact closing_reads (f := fun j => (j, r.2)) (g := Prod.fst) braces (fun _ => rfl) hopen hinner

/-! ## Nodes -/

/-- The four parsers of nodes, at one fuel. -/
structure NodesRead (fuel : Nat) : Prop where
  array : ∀ k j, 3 * j.rest.length + 1 ≤ fuel →
    Keeps (fun _ => True) Reported (parseNodeArray fuel j) fun r => Reads 1 k k ValueText j r.1
  loop : ∀ k j arr cap, 3 * j.rest.length + 2 ≤ fuel →
    Keeps (fun _ => True) Reported (nodeArrayLoop fuel j arr cap)
      fun r => Reads 1 k k ElementsText j r.1
  node : ∀ k j, 3 * j.rest.length + 1 ≤ fuel →
    Keeps (fun _ => True) Reported (parseNode fuel j) fun r => Reads 1 k k ValueText j r.1
  members : ∀ k j nd, 3 * j.rest.length + 1 ≤ fuel →
    Keeps (fun _ => True) Reported (nodeMembers fuel j nd)
      fun r => Reads 1 k k MembersText j r.1

theorem nodesRead : ∀ fuel, NodesRead fuel
  | 0 => ⟨fun _ _ h => absurd h (by omega), fun _ _ _ _ h => absurd h (by omega),
      fun _ _ h => absurd h (by omega), fun _ _ _ h => absurd h (by omega)⟩
  | fuel + 1 => by
    have ih := nodesRead fuel
    refine ⟨fun k j hfuel => ?_, fun k j arr cap hfuel => ?_, fun k j hfuel => ?_,
      fun k j nd hfuel => ?_⟩
    · unfold parseNodeArray
      refine Keeps.bind (expect_reads (squares.opens k) j) fun j₂ hopen => ?_
      have hshort := hopen.shorter
      have hskip := (skipWs_reads k j₂).shorter
      dsimp only
      split
      · rename_i hpeek
        exact Keeps.pure (empty_reads squares hopen hpeek)
      · refine Keeps.bind (ih.loop (k + 1) _ [] 0 (by omega)) fun r hinner => ?_
        exact closing_reads (f := fun j => (j, r.2)) (g := Prod.fst) squares (fun _ => rfl) hopen
          hinner
    · unfold nodeArrayLoop
      have hskip := (skipWs_reads k j).shorter
      refine Keeps.bind (growArray_reported _ _ _) fun cap' _ => ?_
      refine Keeps.bind (ih.node k _ (by omega)) fun ⟨j₂, nd⟩ hvalue => ?_
      refine element_reads (f := Prod.fst) hvalue.skipped rfl fun _ hlen => ?_
      exact ih.loop k _ _ _ (by omega)
    · unfold parseNode
      refine Keeps.bind (expect_reads (braces.opens k) j) fun j₂ hopen => ?_
      have hshort := hopen.shorter
      have hskip := (skipWs_reads k j₂).shorter
      dsimp only
      split
      · rename_i hpeek
        exact Keeps.pure (empty_reads braces hopen hpeek)
      · refine Keeps.bind (ih.members (k + 1) _ _ (by omega)) fun r hinner => ?_
        exact closing_reads (f := fun j => (j, r.2)) (g := Prod.fst) braces (fun _ => rfl) hopen
          hinner
    · unfold nodeMembers
      refine name_reads k j _ fun ⟨j₁, key⟩ j₂ hname => ?_
      have hshort := hname.shorter
      have hskip := (skipWs_reads k j₂).shorter
      extract_lets j' next
      have hnext : ∀ r : Json × NodeDef, Reads 1 k k ValueText j₂.skipWs r.1 →
          Keeps (fun _ => True) Reported (pure r >>= next)
            fun r => Reads 1 k k MembersText j r.1 := by
        rintro ⟨j₃, nd⟩ hvalue
        simp only [pure_bind, next]
        refine member_reads (f := Prod.fst) hname hvalue.skipped rfl fun _ hlen => ?_
        exact ih.members k _ _ (by omega)
      split
      · exact Keeps.bind (parseString_reading k j₂.skipWs) fun ⟨_, _⟩ h => hnext (_, _) h.string
      split
      · exact Keeps.bind (parseStringArray_reads k j₂.skipWs) fun ⟨_, _⟩ h => hnext (_, _) h
      split
      · exact Keeps.bind (parseEmitObject_reads k j₂.skipWs) fun ⟨_, _⟩ h => hnext (_, _) h
      split
      · exact Keeps.bind (ih.array k j₂.skipWs (by omega)) fun ⟨_, _⟩ h => hnext (_, _) h
      · exact Keeps.bind (skipValue_reads k j₂.skipWs) fun _ h => hnext (_, _) h

theorem parseNodeArray_reads (k : Nat) (j : Json) :
    Keeps (fun _ => True) Reported (parseNodeArray j.fuel j)
      fun r => Reads 1 k k ValueText j r.1 :=
  (nodesRead _).array k j (by unfold fuel; omega)

end Values

/-! ## The manifest -/

section Manifest

variable [Arith]

theorem parseDouble_reads (k : Nat) (j : Json) :
    Keeps (fun _ => True) Reported (parseDouble j) fun r => Reads 1 k k ValueText j r.1 := by
  unfold parseDouble
  dsimp only
  split
  · exact Keeps.fail trivial
  · rename_i hread
    refine Keeps.pure ?_
    cases hpeek : j.skipWs.peek with
    | none =>
      rw [peek_eq, List.head?_eq_none_iff] at hpeek
      rw [hpeek] at hread
      exact absurd rfl hread
    | some c => exact (strtod_reads hpeek (solid_skipWs hpeek) hread).skipped

theorem defaultsMembers_reads (k : Nat) : ∀ (fuel : Nat) (j : Json) (m : Manifest),
    3 * j.rest.length + 1 ≤ fuel →
      Keeps (fun _ => True) Reported (defaultsMembers fuel j m)
        fun r => Reads 1 k k MembersText j r.1
  | 0, _, _, h => absurd h (by omega)
  | fuel + 1, j, m, hfuel => by
    unfold defaultsMembers
    refine name_reads k j _ fun ⟨j₁, dk⟩ j₂ hname => ?_
    extract_lets j' next
    have hnext : ∀ r : Json × Manifest, Reads 1 k k ValueText j₂.skipWs r.1 →
        Keeps (fun _ => True) Reported (pure r >>= next)
          fun r => Reads 1 k k MembersText j r.1 := by
      rintro ⟨j₃, m⟩ hvalue
      simp only [pure_bind, next]
      refine member_reads (f := Prod.fst) hname hvalue.skipped rfl fun _ hlen => ?_
      exact defaultsMembers_reads k fuel _ _ (by omega)
    split
    · exact Keeps.bind (parseDouble_reads k j₂.skipWs) fun ⟨_, _⟩ h => hnext (_, _) h
    split
    · exact Keeps.bind (parseDouble_reads k j₂.skipWs) fun ⟨_, _⟩ h => hnext (_, _) h
    split
    · exact Keeps.bind (parseDouble_reads k j₂.skipWs) fun ⟨_, _⟩ h => hnext (_, _) h
    · exact Keeps.bind (skipValue_reads k j₂.skipWs) fun _ h => hnext (_, _) h

theorem parseDefaults_reads (k : Nat) (j : Json) (m : Manifest) :
    Keeps (fun _ => True) Reported (parseDefaults j m) fun r => Reads 1 k k ValueText j r.1 := by
  unfold parseDefaults
  refine Keeps.bind (expect_reads (braces.opens k) j) fun j₂ hopen => ?_
  dsimp only
  split
  · rename_i hpeek
    exact Keeps.pure (empty_reads braces hopen hpeek)
  · refine Keeps.bind (defaultsMembers_reads (k + 1) _ _ m (by unfold fuel; omega))
      fun r hinner => ?_
    exact closing_reads (f := fun j => (j, r.2)) (g := Prod.fst) braces (fun _ => rfl) hopen hinner

theorem manifestMembers_reads (k : Nat) : ∀ (fuel : Nat) (j : Json) (m : Manifest),
    3 * j.rest.length + 1 ≤ fuel →
      Keeps (fun _ => True) Reported (manifestMembers fuel j m)
        fun r => Reads 1 k k MembersText j r.1
  | 0, _, _, h => absurd h (by omega)
  | fuel + 1, j, m, hfuel => by
    unfold manifestMembers
    refine name_reads k j _ fun ⟨j₁, key⟩ j₂ hname => ?_
    extract_lets j' next
    have hnext : ∀ r : Json × Manifest, Reads 1 k k ValueText j₂.skipWs r.1 →
        Keeps (fun _ => True) Reported (pure r >>= next)
          fun r => Reads 1 k k MembersText j r.1 := by
      rintro ⟨j₃, m⟩ hvalue
      simp only [pure_bind, next]
      refine member_reads (f := Prod.fst) hname hvalue.skipped rfl fun _ hlen => ?_
      exact manifestMembers_reads k fuel _ _ (by omega)
    split
    · exact Keeps.bind (parseString_reading k j₂.skipWs) fun ⟨_, _⟩ h => hnext (_, _) h.string
    split
    · exact Keeps.bind (parseString_reading k j₂.skipWs) fun ⟨_, _⟩ h => hnext (_, _) h.string
    split
    · exact Keeps.bind (parseString_reading k j₂.skipWs) fun ⟨_, _⟩ h => hnext (_, _) h.string
    split
    · exact Keeps.bind (parseString_reading k j₂.skipWs) fun ⟨_, _⟩ h => hnext (_, _) h.string
    split
    · exact Keeps.bind (parseDefaults_reads k j₂.skipWs m) fun r h => hnext r h
    split
    · exact Keeps.bind (parseNodeArray_reads k j₂.skipWs) fun ⟨_, _⟩ h => hnext (_, _) h
    · exact Keeps.bind (skipValue_reads k j₂.skipWs) fun _ h => hnext (_, _) h

end Manifest

end Json

end Ipa
