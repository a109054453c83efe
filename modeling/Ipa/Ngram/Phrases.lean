import Ipa.Ngram.Greedy

/-!
# Phrases

A text that starts and ends with a byte of a token is cut into tokens from its first byte to its
last; so are the texts of all windows. The traversal of such a text begins with the window of the
whole, and ends there when the visitor closes it.
-/

namespace Ipa.Ngram

/-! ## The ends of tokens -/

/-- The byte at `k` is there, and is no separator. -/
def IsWord (separators : Option CStr) (bytes : List UInt8) (k : Nat) : Prop :=
  ∃ b, bytes[k]? = some b ∧ isSeparator b separators = false

section Ends

variable {separators : Option CStr}

theorem IsWord.lt {bytes : List UInt8} {k : Nat} (h : IsWord separators bytes k) :
    k < bytes.length := by
  obtain ⟨b, hb, -⟩ := h
  exact (List.getElem?_eq_some_iff.mp hb).1

/-- The byte at offset `k`, of bytes that start at `off`. -/
def WordAt (separators : Option CStr) (bytes : List UInt8) (off k : Nat) : Prop :=
  off ≤ k ∧ IsWord separators bytes (k - off)

theorem WordAt.cons {bytes : List UInt8} {off k : Nat} (h : WordAt separators bytes (off + 1) k)
    (c : UInt8) : WordAt separators (c :: bytes) off k := by
  obtain ⟨hle, hword⟩ := h
  refine ⟨by omega, ?_⟩
  rw [show k - off = k - (off + 1) + 1 by omega]
  exact hword

/-- The first byte of a token and its last are no separators; of the open token, what is read. -/
theorem tokenList_ends : ∀ (bytes : List UInt8) (off : Nat),
    (∀ t ∈ tokenList separators bytes off none,
      WordAt separators bytes off t.byteStart ∧ WordAt separators bytes off (t.byteEnd - 1)) ∧
    ∀ s, ∀ t ∈ tokenList separators bytes off (some s),
      (t.byteStart = s ∨ WordAt separators bytes off t.byteStart) ∧
        (t.byteEnd = off ∨ WordAt separators bytes off (t.byteEnd - 1))
  | [], off => by
    refine ⟨by simp [tokenList], fun s t ht => ?_⟩
    rw [tokenList, List.mem_singleton] at ht
    rw [ht]
    exact ⟨.inl rfl, .inl rfl⟩
  | c :: cs, off => by
    obtain ⟨hnone, hsome⟩ := tokenList_ends cs (off + 1)
    have hskip : ∀ t ∈ tokenList separators cs (off + 1) none,
        WordAt separators (c :: cs) off t.byteStart ∧
          WordAt separators (c :: cs) off (t.byteEnd - 1) :=
      fun t ht => ⟨(hnone t ht).1.cons c, (hnone t ht).2.cons c⟩
    -- in a token, this byte is its last when the next one closes it
    have hword : isSeparator c separators = false → ∀ s, ∀ t ∈ tokenList separators cs (off + 1)
        (some s), (t.byteStart = s ∨ WordAt separators (c :: cs) off t.byteStart) ∧
          WordAt separators (c :: cs) off (t.byteEnd - 1) := by
      intro hc s t ht
      obtain ⟨hstart, hstop⟩ := hsome s t ht
      refine ⟨hstart.imp_right fun h => h.cons c, ?_⟩
      rcases hstop with hend | hstop
      · rw [hend, Nat.add_sub_cancel]
        exact ⟨Nat.le_refl off, c, by rw [Nat.sub_self]; rfl, hc⟩
      · exact hstop.cons c
    by_cases hc : isSeparator c separators = true
    · refine ⟨fun t ht => ?_, fun s t ht => ?_⟩
      · rw [tokenList, if_pos hc] at ht
        exact hskip t ht
      · rw [tokenList, if_pos hc] at ht
        rcases List.mem_cons.mp ht with rfl | ht
        · exact ⟨.inl rfl, .inl rfl⟩
        · exact ⟨.inr (hskip t ht).1, .inr (hskip t ht).2⟩
    · have hfalse : isSeparator c separators = false := by simpa using hc
      refine ⟨fun t ht => ?_, fun s t ht => ?_⟩
      · rw [tokenList, if_neg hc] at ht
        obtain ⟨hstart, hstop⟩ := hword hfalse off t ht
        refine ⟨?_, hstop⟩
        rcases hstart with hstart | hstart
        · rw [hstart]
          exact ⟨Nat.le_refl off, c, by rw [Nat.sub_self]; rfl, hfalse⟩
        · exact hstart
      · rw [tokenList, if_neg hc] at ht
        exact (hword hfalse s t ht).imp_right .inr

theorem tokensOf_ends {input : CStr} {t : Token} (ht : t ∈ tokensOf separators input) :
    IsWord separators input.bytes t.byteStart ∧ IsWord separators input.bytes (t.byteEnd - 1) := by
  obtain ⟨⟨-, hstart⟩, -, hstop⟩ := (tokenList_ends input.bytes 0).1 t ht
  exact ⟨hstart, hstop⟩

/-- The token that is open comes first. -/
theorem tokenList_open : ∀ (bytes : List UInt8) (off s : Nat),
    ∃ stop rest, tokenList separators bytes off (some s) = ⟨s, stop⟩ :: rest
  | [], off, s => ⟨off, [], rfl⟩
  | c :: cs, off, s => by
    rw [tokenList]
    split
    · exact ⟨off, _, rfl⟩
    · exact tokenList_open cs (off + 1) s

/-- Where the last byte is no separator, the last token ends with it. -/
theorem tokenList_last : ∀ (bytes : List UInt8) (off : Nat) (cur : Option Nat),
    IsWord separators bytes (bytes.length - 1) →
      ∃ front s, tokenList separators bytes off cur = front ++ [⟨s, off + bytes.length⟩]
  | [], _, _, h => absurd h.lt (Nat.not_lt_zero _)
  | [c], off, cur, h => by
    obtain ⟨b, hb, hword⟩ := h
    cases hb
    cases cur with
    | none => exact ⟨[], off, by rw [tokenList, hword, if_neg Bool.false_ne_true]; rfl⟩
    | some s => exact ⟨[], s, by rw [tokenList, hword, if_neg Bool.false_ne_true]; rfl⟩
  | c :: d :: cs, off, cur, h => by
    have hrest : ∀ cur, ∃ front s, tokenList separators (d :: cs) (off + 1) cur =
        front ++ [⟨s, off + (c :: d :: cs).length⟩] := by
      intro cur
      obtain ⟨front, s, hlist⟩ := tokenList_last (d :: cs) (off + 1) cur h
      refine ⟨front, s, ?_⟩
      rw [hlist, List.length_cons (a := c), Nat.add_assoc, Nat.add_comm 1]
    cases cur with
    | none =>
      rw [tokenList]
      split
      · exact hrest none
      · exact hrest (some off)
    | some s =>
      rw [tokenList]
      split
      · obtain ⟨front, s', hlist⟩ := hrest none
        exact ⟨⟨s, off⟩ :: front, s', by rw [hlist, List.cons_append]⟩
      · exact hrest (some s)

/-- A text between two bytes of tokens is cut from end to end. -/
theorem tokensOf_whole {text : CStr} (hfirst : IsWord separators text.bytes 0)
    (hlast : IsWord separators text.bytes (text.strlen - 1)) :
    ∃ n, (tokensOf separators text).length = n + 1 ∧
      ((tokensOf separators text).getD 0 default).byteStart = 0 ∧
        ((tokensOf separators text).getD n default).byteEnd = text.strlen := by
  obtain ⟨front, s, hback⟩ := @tokenList_last separators text.bytes 0 none hlast
  refine ⟨front.length, ?_, ?_, ?_⟩
  · rw [tokensOf, hback, List.length_append]
    rfl
  · obtain ⟨b, hb, hword⟩ := hfirst
    cases hbytes : text.bytes with
    | nil =>
      rw [hbytes] at hb
      cases hb
    | cons c cs =>
      rw [hbytes] at hb
      cases hb
      obtain ⟨stop, rest, hlist⟩ := @tokenList_open separators cs (0 + 1) 0
      rw [tokensOf, hbytes, tokenList, hword, if_neg Bool.false_ne_true, hlist]
      rfl
  · rw [tokensOf, hback, List.getD_append_right _ _ _ _ (Nat.le_refl _), Nat.sub_self, Nat.zero_add]
    rfl

theorem slice_ends {text : CStr} {i j : Nat} (hlt : i < j)
    (hfirst : IsWord separators text.bytes i) (hlast : IsWord separators text.bytes (j - 1)) :
    IsWord separators (text.slice i j).bytes 0 ∧
      IsWord separators (text.slice i j).bytes ((text.slice i j).strlen - 1) := by
  have hlen : (text.slice i j).strlen = j - i := by
    have := hlast.lt
    change ((text.bytes.drop i).take (j - i)).length = j - i
    rw [List.length_take, List.length_drop]
    omega
  rw [hlen]
  obtain ⟨b, hb, hword⟩ := hfirst
  obtain ⟨b', hb', hword'⟩ := hlast
  refine ⟨⟨b, ?_, hword⟩, b', ?_, hword'⟩
  · change ((text.bytes.drop i).take (j - i))[0]? = some b
    rw [List.getElem?_take_of_lt (by omega), List.getElem?_drop, Nat.add_zero, hb]
  · change ((text.bytes.drop i).take (j - i))[j - i - 1]? = some b'
    rw [List.getElem?_take_of_lt (by omega), List.getElem?_drop,
      show i + (j - i - 1) = j - 1 by omega, hb']

end Ends

/-! ## The tokens of a window -/

section Cut

variable {separators : Option CStr}

/-- The byte at offset `k`, of bytes that start at `off`, is there and is a separator. -/
def GapAt (separators : Option CStr) (bytes : List UInt8) (off k : Nat) : Prop :=
  off ≤ k ∧ ∃ b, bytes[k - off]? = some b ∧ isSeparator b separators = true

theorem GapAt.cons {bytes : List UInt8} {off k : Nat} (h : GapAt separators bytes (off + 1) k)
    (c : UInt8) : GapAt separators (c :: bytes) off k := by
  obtain ⟨hle, hgap⟩ := h
  refine ⟨by omega, ?_⟩
  rw [show k - off = k - (off + 1) + 1 by omega]
  exact hgap

theorem gapAt_head {c : UInt8} (hc : isSeparator c separators = true) (bytes : List UInt8)
    (off : Nat) : GapAt separators (c :: bytes) off off :=
  ⟨Nat.le_refl off, c, by rw [Nat.sub_self]; rfl, hc⟩

/-- Around a token lie separators, or the ends of the bytes. -/
theorem tokenList_edges : ∀ (bytes : List UInt8) (off : Nat),
    (∀ t ∈ tokenList separators bytes off none,
      (t.byteStart = off ∨ off < t.byteStart ∧ GapAt separators bytes off (t.byteStart - 1)) ∧
        (t.byteEnd = off + bytes.length ∨ GapAt separators bytes off t.byteEnd)) ∧
    ∀ s, ∀ t ∈ tokenList separators bytes off (some s),
      (t.byteStart = s ∨ off < t.byteStart ∧ GapAt separators bytes off (t.byteStart - 1)) ∧
        (t.byteEnd = off + bytes.length ∨ GapAt separators bytes off t.byteEnd)
  | [], off => by
    refine ⟨by simp [tokenList], fun s t ht => ?_⟩
    rw [tokenList, List.mem_singleton] at ht
    rw [ht]
    exact ⟨.inl rfl, .inl rfl⟩
  | c :: cs, off => by
    obtain ⟨hnone, hsome⟩ := tokenList_edges cs (off + 1)
    have hlen : off + (c :: cs).length = off + 1 + cs.length := by
      rw [List.length_cons]
      omega
    have hstop : ∀ {t : Token}, (t.byteEnd = off + 1 + cs.length ∨
        GapAt separators cs (off + 1) t.byteEnd) →
          (t.byteEnd = off + (c :: cs).length ∨ GapAt separators (c :: cs) off t.byteEnd) := by
      intro t h
      rw [hlen]
      exact h.imp_right fun h => h.cons c
    have hlater : ∀ {t : Token}, off + 1 < t.byteStart ∧
        GapAt separators cs (off + 1) (t.byteStart - 1) →
          off < t.byteStart ∧ GapAt separators (c :: cs) off (t.byteStart - 1) :=
      fun h => ⟨by omega, h.2.cons c⟩
    by_cases hc : isSeparator c separators = true
    · have hskip : ∀ t ∈ tokenList separators cs (off + 1) none,
          (off < t.byteStart ∧ GapAt separators (c :: cs) off (t.byteStart - 1)) ∧
            (t.byteEnd = off + (c :: cs).length ∨ GapAt separators (c :: cs) off t.byteEnd) := by
        intro t ht
        obtain ⟨hstart, hend⟩ := hnone t ht
        refine ⟨?_, hstop hend⟩
        rcases hstart with hstart | hstart
        · rw [hstart, Nat.add_sub_cancel]
          exact ⟨Nat.lt_succ_self off, gapAt_head hc cs off⟩
        · exact hlater hstart
      refine ⟨fun t ht => ?_, fun s t ht => ?_⟩
      · rw [tokenList, if_pos hc] at ht
        exact (hskip t ht).imp_left .inr
      · rw [tokenList, if_pos hc] at ht
        rcases List.mem_cons.mp ht with rfl | ht
        · exact ⟨.inl rfl, .inr (gapAt_head hc cs off)⟩
        · exact (hskip t ht).imp_left .inr
    · refine ⟨fun t ht => ?_, fun s t ht => ?_⟩
      · rw [tokenList, if_neg hc] at ht
        obtain ⟨hstart, hend⟩ := hsome off t ht
        exact ⟨hstart.imp_right hlater, hstop hend⟩
      · rw [tokenList, if_neg hc] at ht
        obtain ⟨hstart, hend⟩ := hsome s t ht
        exact ⟨hstart.imp_right hlater, hstop hend⟩

/-- Before a separator, or the end, the bytes can be cut in two. -/
theorem tokenList_append {rest : List UInt8}
    (h : ∀ c ∈ rest.head?, isSeparator c separators = true) :
    ∀ (front : List UInt8) (off : Nat) (cur : Option Nat),
      tokenList separators (front ++ rest) off cur =
        tokenList separators front off cur ++ tokenList separators rest (off + front.length) none
  | [], off, none => rfl
  | [], off, some s => tokenList_close rest off s h
  | c :: front, off, cur => by
    have ih := tokenList_append h front (off + 1)
    rw [show off + 1 + front.length = off + (c :: front).length by rw [List.length_cons]; omega] at ih
    cases cur with
    | none =>
      rw [List.cons_append, tokenList, tokenList]
      split
      · exact ih none
      · exact ih (some off)
    | some s =>
      rw [List.cons_append, tokenList, tokenList]
      split
      · rw [ih none, List.cons_append]
      · exact ih (some s)

/-- So they can after one. -/
theorem tokenList_append_gap {front rest : List UInt8}
    (h : ∀ c ∈ front.getLast?, isSeparator c separators = true) (off : Nat) :
    tokenList separators (front ++ rest) off none =
      tokenList separators front off none ++
        tokenList separators rest (off + front.length) none := by
  rcases List.eq_nil_or_concat front with rfl | ⟨init, c, rfl⟩
  · rfl
  · have hc : isSeparator c separators = true := h c (by simp)
    have hone : ∀ rest off, tokenList separators (c :: rest) off none =
        tokenList separators rest (off + 1) none := by
      intro rest off
      rw [tokenList, if_pos hc]
    rw [List.concat_eq_append, List.append_assoc, List.singleton_append,
      tokenList_append (by simpa using hc), tokenList_append (by simpa using hc), hone, hone,
      List.length_append, List.length_singleton, ← Nat.add_assoc]
    simp [tokenList]

/-- Where the bytes are cut at the ends of a window, the tokens are. -/
theorem Ordered.cut {len : Nat} {before within after : List Token}
    (h : Ordered 0 len (before ++ within ++ after)) {p q i j : Nat} (hpq : p < q)
    (hbefore : ∀ t ∈ before, t.byteEnd ≤ p)
    (hwithin : ∀ t ∈ within, p ≤ t.byteStart ∧ t.byteEnd ≤ q)
    (hafter : ∀ t ∈ after, q ≤ t.byteStart)
    (hi : i < (before ++ within ++ after).length) (hj : j < (before ++ within ++ after).length)
    (hp : (before ++ within ++ after)[i].byteStart = p)
    (hq : (before ++ within ++ after)[j].byteEnd = q) :
    before.length = i ∧ (before ++ within).length = j + 1 := by
  have hbounds := fun t ht => (h.bounds t ht).2.1
  have hpair := List.pairwise_iff_getElem.mp h.follow
  refine ⟨Nat.le_antisymm ?_ ?_, Nat.le_antisymm ?_ ?_⟩
  · by_contra hlt
    have hmem : (before ++ within ++ after)[i] ∈ before := by
      rw [List.getElem_of_eq (List.append_assoc before within after),
        List.getElem_append_left (by omega)]
      exact List.getElem_mem _
    have := hbefore _ hmem
    have := hbounds _ (List.getElem_mem hi)
    omega
  · by_contra hlt
    have hmem : (before ++ within ++ after)[before.length] ∈ within ++ after := by
      rw [List.getElem_of_eq (List.append_assoc before within after),
        List.getElem_append_right (Nat.le_refl _)]
      exact List.getElem_mem _
    have hstart : p ≤ (before ++ within ++ after)[before.length].byteStart := by
      rcases List.mem_append.mp hmem with hmem | hmem
      · exact (hwithin _ hmem).1
      · exact (hafter _ hmem).trans' (Nat.le_of_lt hpq)
    have := hpair before.length i (by omega) hi (by omega)
    have := hbounds _ (List.getElem_mem (show before.length < _ by omega))
    omega
  · by_contra hlt
    have hnext : j + 1 < (before ++ within ++ after).length := by
      rw [List.length_append]
      omega
    have hmem : (before ++ within ++ after)[j + 1] ∈ before ++ within := by
      rw [List.getElem_append_left (by omega)]
      exact List.getElem_mem _
    have hend : (before ++ within ++ after)[j + 1].byteEnd ≤ q := by
      rcases List.mem_append.mp hmem with hmem | hmem
      · exact (hbefore _ hmem).trans (Nat.le_of_lt hpq)
      · exact (hwithin _ hmem).2
    have := hpair j (j + 1) hj hnext (Nat.lt_succ_self j)
    have := hbounds _ (List.getElem_mem hnext)
    omega
  · by_contra hlt
    have hmem : (before ++ within ++ after)[j] ∈ after := by
      rw [List.getElem_append_right (by omega)]
      exact List.getElem_mem _
    have := hafter _ hmem
    have := hbounds _ (List.getElem_mem hj)
    omega

/-- A token at a later offset. -/
def Token.shift (by_ : Nat) (t : Token) : Token := ⟨t.byteStart + by_, t.byteEnd + by_⟩

theorem tokenList_shift (k : Nat) : ∀ (bytes : List UInt8) (off : Nat) (cur : Option Nat),
    (tokenList separators bytes off cur).map (Token.shift k) =
      tokenList separators bytes (off + k) (cur.map (· + k))
  | [], _, none => rfl
  | [], _, some _ => rfl
  | c :: cs, off, none => by
    have ih := tokenList_shift k cs (off + 1)
    rw [Nat.add_right_comm] at ih
    rw [Option.map_none, tokenList, tokenList]
    split
    · exact ih none
    · exact ih (some off)
  | c :: cs, off, some s => by
    have ih := tokenList_shift k cs (off + 1)
    rw [Nat.add_right_comm] at ih
    rw [Option.map_some, tokenList, tokenList]
    split
    · rw [List.map_cons, ih none]
      rfl
    · exact ih (some s)

/-- **Retokenising**: the text of a window is cut into the tokens of the window. -/
theorem tokensOf_window {input : CStr} {i j : Nat} (hij : i ≤ j)
    (hj : j < (tokensOf separators input).length) :
    (tokensOf separators (input.slice (tokensOf separators input)[i].byteStart
      (tokensOf separators input)[j].byteEnd)).map
        (Token.shift (tokensOf separators input)[i].byteStart) =
      ((tokensOf separators input).drop i).take (j - i + 1) := by
  have hordered := tokensOf_ordered separators input
  have hi : i < (tokensOf separators input).length := by omega
  obtain ⟨hstart, -⟩ := (tokenList_edges input.bytes 0).1 _ (List.getElem_mem hi)
  obtain ⟨-, hstop⟩ := (tokenList_edges input.bytes 0).1 _ (List.getElem_mem hj)
  have hlt := hordered.window_lt hij hi hj
  have hend := (hordered.bounds _ (List.getElem_mem hj)).2.2
  generalize hp : (tokensOf separators input)[i].byteStart = p at hstart hlt ⊢
  generalize hq : (tokensOf separators input)[j].byteEnd = q at hstop hlt hend ⊢
  change q ≤ input.bytes.length at hend
  -- the bytes before the window, within it and after it
  have hbytes : input.bytes = input.bytes.take p ++
      ((input.bytes.drop p).take (q - p) ++ input.bytes.drop q) := by
    rw [show input.bytes.drop q = (input.bytes.drop p).drop (q - p) by
      rw [List.drop_drop, Nat.add_sub_cancel' (Nat.le_of_lt hlt)], List.take_append_drop,
      List.take_append_drop]
  have hfront : (input.bytes.take p).length = p := by
    rw [List.length_take]
    omega
  have hmiddle : ((input.bytes.drop p).take (q - p)).length = q - p := by
    rw [List.length_take, List.length_drop]
    omega
  have hgap : ∀ c ∈ (input.bytes.take p).getLast?, isSeparator c separators = true := by
    intro c hc
    rcases hstart with rfl | ⟨hpos, -, b, hb, hsep⟩
    · cases hc
    · rw [List.getLast?_eq_getElem?, hfront, List.getElem?_take_of_lt (by omega)] at hc
      rw [Nat.sub_zero] at hb
      rw [hb] at hc
      cases hc
      exact hsep
  have hnext : ∀ c ∈ (input.bytes.drop q).head?, isSeparator c separators = true := by
    intro c hc
    rw [List.head?_drop] at hc
    rcases hstop with hstop | ⟨-, b, hb, hsep⟩
    · rw [List.getElem?_eq_none (by omega)] at hc
      cases hc
    · rw [Nat.sub_zero] at hb
      rw [hb] at hc
      cases hc
      exact hsep
  have hsplit : tokensOf separators input = tokenList separators (input.bytes.take p) 0 none ++
      tokenList separators ((input.bytes.drop p).take (q - p)) p none ++
        tokenList separators (input.bytes.drop q) q none := by
    unfold tokensOf
    conv_lhs => rw [hbytes]
    rw [tokenList_append_gap hgap, tokenList_append hnext, hfront, hmiddle, Nat.zero_add,
      Nat.add_sub_cancel' (Nat.le_of_lt hlt), List.append_assoc]
  have hwithin : (tokensOf separators (input.slice p q)).map (Token.shift p) =
      tokenList separators ((input.bytes.drop p).take (q - p)) p none := by
    refine (tokenList_shift p _ 0 none).trans ?_
    rw [Nat.zero_add]
    rfl
  have hbounds := fun bytes off t ht => ((tokenList_ordered separators bytes off).1.bounds t ht)
  rw [hwithin]
  have hcut := hordered
  rw [hsplit] at hcut
  obtain ⟨hlen, hlen'⟩ := hcut.cut hlt (p := p) (q := q) (i := i) (j := j) (fun t ht => by
      have := (hbounds _ _ t ht).2.2
      omega) (fun t ht => by
      have := hbounds _ _ t ht
      omega) (fun t ht => (hbounds _ _ t ht).1) (by rw [← hsplit]; exact hi)
    (by rw [← hsplit]; exact hj) (by rw [List.getElem_of_eq hsplit.symm, hp])
    (by rw [List.getElem_of_eq hsplit.symm, hq])
  rw [hsplit, ← hlen, List.append_assoc, List.drop_left]
  rw [List.length_append, hlen] at hlen'
  exact (List.take_left' (by omega)).symm

end Cut

/-- A window that is not the whole of the tokens has fewer bytes. -/
theorem Ordered.window_shorter {lo hi : Nat} {tokens : List Token} (h : Ordered lo hi tokens)
    {i j n : Nat} (hij : i ≤ j) (hj : j ≤ n) (hn : n < tokens.length) (hpart : 0 < i ∨ j < n) :
    tokens[j].byteEnd - tokens[i].byteStart < tokens[n].byteEnd - tokens[0].byteStart := by
  have hpair := List.pairwise_iff_getElem.mp h.follow
  have hbounds : ∀ k (hk : k < tokens.length), tokens[k].byteStart < tokens[k].byteEnd :=
    fun k hk => (h.bounds _ (List.getElem_mem hk)).2.1
  have hwindow := h.window_lt hij (by omega) (by omega)
  have hstart : tokens[0].byteStart ≤ tokens[i].byteStart ∧
      (0 < i → tokens[0].byteStart < tokens[i].byteStart) := by
    rcases Nat.eq_zero_or_pos i with rfl | hpos
    · exact ⟨Nat.le_refl _, fun hpos => absurd hpos (Nat.lt_irrefl 0)⟩
    · have := hpair 0 i (by omega) (by omega) hpos
      have := hbounds 0 (by omega)
      omega
  have hstop : tokens[j].byteEnd ≤ tokens[n].byteEnd ∧
      (j < n → tokens[j].byteEnd < tokens[n].byteEnd) := by
    rcases Nat.lt_or_eq_of_le hj with hlt | rfl
    · have := hpair j n (by omega) hn hlt
      have := hbounds n hn
      omega
    · exact ⟨Nat.le_refl _, fun hlt => absurd hlt (Nat.lt_irrefl j)⟩
  omega

/-! ## The window of the whole -/

theorem windows_whole (n : Nat) : windows (n + 1) 1 (n + 1) = ⟨0, n⟩ :: windows (n + 1) 1 n := by
  have hsize : (1 : Int) ≤ (n + 1 : Nat) := by omega
  rw [windows, if_pos hsize, windowsOfSize, Nat.add_sub_cancel_left]
  simp

/-- The context that the visitor left, aborted or not. -/
def leftBy {σ : Type} : Except (List Call × σ) (List Call × σ) → σ
  | .ok st => st.2
  | .error st => st.2

section Visits

variable {σ : Type} {visit : Span → σ → Int × σ}

/-- Windows that are all closed are not visited. -/
theorem visits_covered : ∀ {ws : List Span} {calls : List Call} {ctx : σ},
    (∀ w ∈ ws, Covers (closedBy calls) w) → visits visit ws calls ctx = .ok (calls, ctx)
  | [], _, _, _ => rfl
  | w :: ws, calls, ctx, h => by
    rw [visits, if_pos (h w List.mem_cons_self)]
    exact visits_covered fun v hv => h v (List.mem_cons_of_mem w hv)

theorem calledFor_covered : ∀ {ws : List Span} {calls : List Call} {ctx : σ},
    (∀ w ∈ ws, Covers (closedBy calls) w) → calledFor visit ws calls ctx = []
  | [], _, _, _ => rfl
  | w :: ws, calls, ctx, h => by
    rw [calledFor, if_pos (h w List.mem_cons_self)]
    exact calledFor_covered fun v hv => h v (List.mem_cons_of_mem w hv)

/-- What every call of the visitor keeps. -/
theorem visits_keeps {P : σ → Prop} : ∀ {ws : List Span} {calls : List Call} {ctx : σ},
    (∀ w ∈ ws, ∀ ctx, P ctx → P (visit w ctx).2) → P ctx → P (leftBy (visits visit ws calls ctx))
  | [], _, _, _, h => h
  | w :: ws, calls, ctx, hvisit, h => by
    obtain ⟨hfirst, hrest⟩ := List.forall_mem_cons.mp hvisit
    rw [visits]
    split
    · exact visits_keeps hrest h
    · simp only
      split
      · exact hfirst ctx h
      · exact visits_keeps hrest (hfirst ctx h)

/-- A visitor that closes what a test accepts closes the greedy choice, and keeps what each call
keeps of the windows closed so far. -/
theorem visits_greedy {accepts : Span → Bool} {P : List Span → σ → Prop} :
    ∀ {ws : List Span} {calls : List Call} {ctx : σ},
      (∀ w ∈ ws, ∀ taken ctx, P taken ctx → (visit w ctx).1 = (if accepts w then 1 else 0) ∧
        P (if accepts w then taken ++ [w] else taken) (visit w ctx).2) →
      P (closedBy calls) ctx →
        P (greedy accepts ws (closedBy calls)) (leftBy (visits visit ws calls ctx))
  | [], _, _, _, h => h
  | w :: ws, calls, ctx, hvisit, h => by
    obtain ⟨hfirst, hrest⟩ := List.forall_mem_cons.mp hvisit
    rw [visits, greedy]
    by_cases hcovered : Covers (closedBy calls) w
    · rw [if_pos hcovered, if_pos hcovered]
      exact visits_greedy hrest h
    rw [if_neg hcovered, if_neg hcovered]
    obtain ⟨hdecision, hkept⟩ := hfirst _ _ h
    have hclosed := closedBy_append calls w (visit w ctx).1
    simp only
    by_cases haccepts : accepts w = true
    · rw [if_pos haccepts] at hdecision hkept ⊢
      rw [if_pos hdecision] at hclosed
      rw [if_neg (by omega), ← hclosed]
      exact visits_greedy hrest (hclosed ▸ hkept)
    · rw [if_neg haccepts] at hdecision hkept ⊢
      rw [if_neg (by omega)] at hclosed
      rw [if_neg (by omega), ← hclosed]
      exact visits_greedy hrest (hclosed ▸ hkept)

theorem not_covers_nil (w : Span) : ¬ Covers (closedBy []) w := by
  rintro ⟨s, hs, -⟩
  cases hs

/-- The window of the whole contains the shorter ones. -/
theorem covers_of_whole {n : Nat} : ∀ w ∈ windows (n + 1) 1 n, Covers (closedBy [⟨⟨0, n⟩, 1⟩]) w := by
  intro w hw
  have hw := (mem_windows (Int.le_refl 1)).mp hw
  exact ⟨⟨0, n⟩, List.mem_singleton.mpr rfl, Nat.zero_le _, by change w.stop ≤ n; omega⟩

/-- A visitor that closes the window of the whole is called once. -/
theorem visits_whole {n : Nat} {ctx : σ} (hclosed : (visit ⟨0, n⟩ ctx).1 = 1) :
    leftBy (visits visit (windows (n + 1) 1 (n + 1)) [] ctx) = (visit ⟨0, n⟩ ctx).2 := by
  rw [windows_whole, visits, if_neg (not_covers_nil _)]
  simp only [hclosed]
  rw [if_neg (by decide), List.nil_append, visits_covered covers_of_whole]
  rfl

theorem calledFor_whole {n : Nat} {ctx : σ} (hclosed : (visit ⟨0, n⟩ ctx).1 = 1) :
    calledFor visit (windows (n + 1) 1 (n + 1)) [] ctx = [⟨0, n⟩] := by
  rw [windows_whole, calledFor, if_neg (not_covers_nil _)]
  simp only [hclosed]
  rw [if_neg (by decide), List.nil_append, calledFor_covered covers_of_whole]

/-- A visitor that passes over the window of the whole goes on with the shorter ones. -/
theorem visits_shorter {n : Nat} {ctx : σ} (hskip : visit ⟨0, n⟩ ctx = (0, ctx)) :
    leftBy (visits visit (windows (n + 1) 1 (n + 1)) [] ctx) =
      leftBy (visits visit (windows (n + 1) 1 n) [⟨⟨0, n⟩, 0⟩] ctx) := by
  rw [windows_whole, visits, if_neg (not_covers_nil _)]
  simp only [hskip]
  rw [if_neg (by decide)]
  rfl

end Visits

end Ipa.Ngram
