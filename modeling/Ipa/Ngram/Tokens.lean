import Ipa.Ngram.Basic

/-!
# The tokens of an input

`tokenList` cuts an input in one pass over its bytes, with the start of the token that is open;
the cursor loops of `splitTokens` return that list. Its tokens are non-empty and in order.
-/

namespace Ipa.Ngram

open Run

/-- The tokens of `bytes`, which start at offset `off`; `cur` is the start of the open token. -/
def tokenList (separators : Option CStr) : List UInt8 → Nat → Option Nat → List Token
  | [], _, none => []
  | [], off, some s => [⟨s, off⟩]
  | c :: cs, off, none =>
    if isSeparator c separators then tokenList separators cs (off + 1) none
    else tokenList separators cs (off + 1) (some off)
  | c :: cs, off, some s =>
    if isSeparator c separators then ⟨s, off⟩ :: tokenList separators cs (off + 1) none
    else tokenList separators cs (off + 1) (some s)

/-- The tokens of an input. -/
def tokensOf (separators : Option CStr) (input : CStr) : List Token :=
  tokenList separators input.bytes 0 none

section

variable {separators : Option CStr}

theorem tokenList_gap : ∀ (gap rest : List UInt8) (off : Nat),
    (∀ c ∈ gap, isSeparator c separators = true) →
    tokenList separators (gap ++ rest) off none = tokenList separators rest (off + gap.length) none
  | [], _, _, _ => rfl
  | c :: gap, rest, off, h => by
    rw [List.cons_append, tokenList, h c List.mem_cons_self, if_pos rfl,
      tokenList_gap gap rest (off + 1) fun d hd => h d (List.mem_cons_of_mem c hd),
      List.length_cons, Nat.add_right_comm, Nat.add_assoc]

theorem tokenList_word : ∀ (word rest : List UInt8) (off s : Nat),
    (∀ c ∈ word, isSeparator c separators = false) →
    tokenList separators (word ++ rest) off (some s) =
      tokenList separators rest (off + word.length) (some s)
  | [], _, _, _, _ => rfl
  | c :: word, rest, off, s, h => by
    rw [List.cons_append, tokenList, h c List.mem_cons_self, if_neg (by decide),
      tokenList_word word rest (off + 1) s fun d hd => h d (List.mem_cons_of_mem c hd),
      List.length_cons, Nat.add_right_comm, Nat.add_assoc]

theorem tokenList_close (rest : List UInt8) (off s : Nat)
    (h : ∀ c ∈ rest.head?, isSeparator c separators = true) :
    tokenList separators rest off (some s) = ⟨s, off⟩ :: tokenList separators rest off none := by
  cases rest with
  | nil => rfl
  | cons c rest =>
    have hc := h c rfl
    rw [tokenList, tokenList, if_pos hc, if_pos hc]

/-- The separators in front of a token. -/
theorem tokenList_skip (bytes : List UInt8) (off : Nat) :
    tokenList separators bytes off none = tokenList separators
      (bytes.dropWhile (isSeparator · separators))
      (off + (bytes.takeWhile (isSeparator · separators)).length) none := by
  conv_lhs => rw [← List.takeWhile_append_dropWhile (p := (isSeparator · separators)) (l := bytes)]
  exact tokenList_gap _ _ _ fun c hc =>
    List.mem_takeWhile_imp (p := (isSeparator · separators)) hc

theorem separator_dropWhile {bytes : List UInt8} {c : UInt8} {cs : List UInt8}
    (h : bytes.dropWhile (isSeparator · separators) = c :: cs) :
    isSeparator c separators = false := by
  have hhead := List.head?_dropWhile_not (isSeparator · separators) bytes
  rw [h] at hhead
  simpa using hhead

section Word

variable {c : UInt8} (hc : isSeparator c separators = false) (cs : List UInt8)

include hc

theorem takeWhile_word : (c :: cs).takeWhile (!isSeparator · separators) =
    c :: cs.takeWhile (!isSeparator · separators) := by
  rw [List.takeWhile_cons_of_pos (by simp [hc])]

/-- A token goes up to the next separator. -/
theorem tokenList_take (off : Nat) : tokenList separators (c :: cs) off none =
    ⟨off, off + ((c :: cs).takeWhile (!isSeparator · separators)).length⟩ ::
      tokenList separators ((c :: cs).dropWhile (!isSeparator · separators))
        (off + ((c :: cs).takeWhile (!isSeparator · separators)).length) none := by
  have hopen : tokenList separators (c :: cs) off none =
      tokenList separators (c :: cs) off (some off) := by
    rw [tokenList, tokenList, hc]
    simp
  have hstop : ∀ d ∈ ((c :: cs).dropWhile (!isSeparator · separators)).head?,
      isSeparator d separators = true := by
    intro d hd
    have := List.head?_dropWhile_not (!isSeparator · separators) (c :: cs)
    rw [Option.mem_def.mp hd] at this
    simpa using this
  rw [hopen]
  conv_lhs =>
    rw [← List.takeWhile_append_dropWhile (p := (!isSeparator · separators)) (l := c :: cs)]
  rw [tokenList_word _ _ _ _ fun d hd => by
      simpa using List.mem_takeWhile_imp (p := (!isSeparator · separators)) hd,
    tokenList_close _ _ _ hstop]

end Word

end

/-! ## The loops compute it -/

section

variable {ε : Type} {I : Env → Prop} {X : Stop ε → Prop} {failed : Prop}
  (halloc : Keeps I X (alloc : Run ε Bool) fun served => served = false → failed)

include halloc

theorem pushToken_spec (tokens : TokenList) {byteStart byteEnd : Nat} (h : byteStart < byteEnd) :
    Keeps I X (pushToken tokens byteStart byteEnd) fun r =>
      (∃ cap, r = some ⟨tokens.items ++ [⟨byteStart, byteEnd⟩], cap⟩) ∨ (r = none ∧ failed) := by
  unfold pushToken reserveTokenSlot
  rw [if_neg (by omega)]
  split
  · exact Keeps.pure (.inl ⟨tokens.cap, rfl⟩)
  · simp only [bind_assoc]
    refine Keeps.bind halloc fun served hserved => ?_
    cases served with
    | true => exact Keeps.pure (.inl ⟨_, rfl⟩)
    | false => exact Keeps.pure (.inr ⟨rfl, hserved rfl⟩)

theorem splitLoop_spec (separators : Option CStr) :
    ∀ (fuel : Nat) (cursor : List UInt8) (off : Nat) (tokens : TokenList), cursor.length < fuel →
      Keeps I X (splitLoop separators fuel cursor off tokens) fun r =>
        (∃ cap, r = some ⟨tokens.items ++ tokenList separators cursor off none, cap⟩) ∨
          (r = none ∧ failed) := by
  intro fuel
  induction fuel with
  | zero => intro cursor off tokens h; omega
  | succ fuel ih =>
    intro cursor off tokens hfuel
    unfold splitLoop
    by_cases hnil : cursor.isEmpty = true
    · rw [if_pos hnil, List.isEmpty_iff.mp hnil]
      exact Keeps.pure (.inl ⟨tokens.cap, by simp [tokenList]⟩)
    · simp only [hnil, Bool.false_eq_true, ite_false]
      rw [tokenList_skip]
      have hlen := (List.dropWhile_suffix (isSeparator · separators) (l := cursor)).length_le
      have hhead := @separator_dropWhile separators cursor
      generalize cursor.dropWhile (isSeparator · separators) = body at hlen hhead ⊢
      generalize off + (cursor.takeWhile (isSeparator · separators)).length = off'
      cases body with
      | nil => exact Keeps.pure (.inl ⟨tokens.cap, by simp [tokenList]⟩)
      | cons c cs =>
        have hc : isSeparator c separators = false := hhead rfl
        have hcut := congrArg List.length (List.takeWhile_append_dropWhile
          (p := (!isSeparator · separators)) (l := c :: cs))
        rw [List.length_append] at hcut
        have hpos : 0 < ((c :: cs).takeWhile (!isSeparator · separators)).length := by
          rw [takeWhile_word hc]
          exact Nat.succ_pos _
        have hne : ((c :: cs).takeWhile (!isSeparator · separators)).isEmpty = false := by
          rw [takeWhile_word hc]
          rfl
        simp only [List.isEmpty_cons, Bool.false_eq_true, ite_false, hne]
        refine Keeps.bind (pushToken_spec halloc tokens
          (Nat.lt_add_of_pos_right (n := off') hpos)) fun r hr => ?_
        rcases hr with ⟨cap, rfl⟩ | ⟨rfl, hfailed⟩
        · refine (ih _ _ ⟨_, cap⟩ (by omega)).mono fun r hr => hr.imp_left ?_
          rintro ⟨cap', rfl⟩
          exact ⟨cap', by rw [tokenList_take hc, List.append_assoc, List.singleton_append]⟩
        · exact Keeps.pure (.inr ⟨rfl, hfailed⟩)

/-- **The tokenizer** returns the tokens of the input, or an allocation failed. -/
theorem splitTokens_spec (separators : Option CStr) (input : CStr) :
    Keeps I X (splitTokens input separators) fun r =>
      (∃ cap, r = some ⟨tokensOf separators input, cap⟩) ∨ (r = none ∧ failed) :=
  splitLoop_spec halloc separators (input.strlen + 1) input.bytes 0 ⟨[], 0⟩ (Nat.lt_succ_self _)

end

variable {ε : Type}

/-- **The tokenizer** returns the tokens of the input when its allocations are served. -/
theorem splitTokens_quiet (separators : Option CStr) (input : CStr) {e : Env} (he : Quiet e) :
    ∃ cap, (splitTokens (ε := ε) input separators).exec e =
      (.ok (some ⟨tokensOf separators input, cap⟩), e) := by
  obtain ⟨r, hrun, hr⟩ :=
    (splitTokens_spec (ε := ε) (Keeps.alloc_quiet he) separators input).exec_eq
  rcases hr with ⟨cap, rfl⟩ | ⟨-, hfailed⟩
  · exact ⟨cap, hrun⟩
  · exact hfailed.elim

/-- Until the first token the tokenizer allocates nothing: an input without tokens cannot fail, and
one with tokens fails when the first allocation does. -/
theorem splitTokens_first (separators : Option CStr) (input : CStr) :
    if tokensOf separators input = [] then
      splitTokens (ε := ε) input separators = pure (some ⟨[], 0⟩)
    else ∀ log, (splitTokens (ε := ε) input separators).exec ⟨[false], log⟩ =
      (.ok none, ⟨[], log⟩) := by
  have hhead := @separator_dropWhile separators input.bytes
  unfold tokensOf
  rw [tokenList_skip]
  unfold splitTokens splitLoop
  cases hbytes : input.bytes with
  | nil => rfl
  | cons b bs =>
    rw [hbytes] at hhead
    simp only [List.isEmpty_cons, Bool.false_eq_true, ite_false]
    generalize 0 + ((b :: bs).takeWhile (isSeparator · separators)).length = off
    generalize (b :: bs).dropWhile (isSeparator · separators) = body at hhead ⊢
    cases body with
    | nil => rfl
    | cons c cs =>
      have hc : isSeparator c separators = false := hhead rfl
      rw [if_neg (by rw [tokenList_take hc]; exact List.cons_ne_nil _ _)]
      intro log
      simp only [takeWhile_word hc, List.isEmpty_cons, Bool.false_eq_true, ite_false]
      unfold pushToken reserveTokenSlot
      rw [if_neg (by simp)]
      rfl

/-! ## Order -/

/-- The tokens lie between `lo` and `hi`, are non-empty, and follow one another. -/
structure Ordered (lo hi : Nat) (tokens : List Token) : Prop where
  bounds : ∀ t ∈ tokens, lo ≤ t.byteStart ∧ t.byteStart < t.byteEnd ∧ t.byteEnd ≤ hi
  follow : tokens.Pairwise fun a b => a.byteEnd ≤ b.byteStart

theorem Ordered.cons {lo mid hi : Nat} {t : Token} {tokens : List Token}
    (h : Ordered mid hi tokens) (hlo : lo ≤ t.byteStart) (hlt : t.byteStart < t.byteEnd)
    (hmid : t.byteEnd ≤ mid) (hhi : t.byteEnd ≤ hi) : Ordered lo hi (t :: tokens) where
  bounds := by
    intro u hu
    rcases List.mem_cons.mp hu with rfl | hu
    · exact ⟨hlo, hlt, hhi⟩
    · have := h.bounds u hu
      omega
  follow := List.pairwise_cons.mpr ⟨fun u hu => hmid.trans (h.bounds u hu).1, h.follow⟩

theorem Ordered.mono {lo lo' hi : Nat} {tokens : List Token} (h : Ordered lo hi tokens)
    (hlo : lo' ≤ lo) : Ordered lo' hi tokens :=
  ⟨fun t ht => ⟨hlo.trans (h.bounds t ht).1, (h.bounds t ht).2⟩, h.follow⟩

theorem tokenList_ordered (separators : Option CStr) : ∀ (bytes : List UInt8) (off : Nat),
    Ordered off (off + bytes.length) (tokenList separators bytes off none) ∧
      ∀ s, s < off → Ordered s (off + bytes.length) (tokenList separators bytes off (some s))
  | [], off => ⟨⟨by simp [tokenList], by simp [tokenList]⟩, fun s hs => by
      rw [tokenList]
      have hnil : Ordered off (off + ([] : List UInt8).length) [] := ⟨by simp, .nil⟩
      exact hnil.cons (Nat.le_refl _) hs (Nat.le_refl _) (Nat.le_add_right _ _)⟩
  | c :: cs, off => by
    obtain ⟨hnone, hsome⟩ := tokenList_ordered separators cs (off + 1)
    have hlen : off + (c :: cs).length = off + 1 + cs.length := by
      rw [List.length_cons]; omega
    rw [hlen]
    refine ⟨?_, fun s hs => ?_⟩
    · rw [tokenList]
      split
      · exact hnone.mono (Nat.le_succ off)
      · exact hsome off (Nat.lt_succ_self off)
    · rw [tokenList]
      split
      · exact hnone.cons (Nat.le_refl _) hs (Nat.le_succ off) (by show off ≤ _; omega)
      · exact hsome s (Nat.lt_succ_of_lt hs)

theorem tokensOf_ordered (separators : Option CStr) (input : CStr) :
    Ordered 0 input.strlen (tokensOf separators input) := by
  have := (tokenList_ordered separators input.bytes 0).1
  rwa [Nat.zero_add] at this

/-- A window from one token to a later one is not empty. -/
theorem Ordered.window_lt {lo hi : Nat} {tokens : List Token} (h : Ordered lo hi tokens)
    {i j : Nat} (hij : i ≤ j) (hi : i < tokens.length) (hj : j < tokens.length) :
    tokens[i].byteStart < tokens[j].byteEnd := by
  have hi := h.bounds _ (List.getElem_mem hi)
  have hjb := h.bounds _ (List.getElem_mem hj)
  rcases Nat.lt_or_eq_of_le hij with hlt | rfl
  · have := List.pairwise_iff_getElem.mp h.follow i j (by omega) hj hlt
    omega
  · exact hi.2.1

/-! ## Maximal runs -/

/-- Is there a separator at an offset of the input? -/
def separatorAt (separators : Option CStr) (bytes : List UInt8) (i : Nat) : Bool :=
  isSeparator (bytes.getD i 0) separators

/-- A non-empty range of bytes that are no separators, with a separator or an end of the input on
either side. -/
structure MaximalRun (separators : Option CStr) (bytes : List UInt8) (t : Token) : Prop where
  nonempty : t.byteStart < t.byteEnd
  within : t.byteEnd ≤ bytes.length
  word : ∀ i, t.byteStart ≤ i → i < t.byteEnd → separatorAt separators bytes i = false
  before : 0 < t.byteStart → separatorAt separators bytes (t.byteStart - 1) = true
  after : t.byteEnd < bytes.length → separatorAt separators bytes t.byteEnd = true

/-- The tokens between `lo` and `hi` are apart from one another and hold the bytes that are no
separators, and those alone. -/
structure Runs (separator : Nat → Bool) (lo hi : Nat) (tokens : List Token) : Prop where
  bounds : ∀ t ∈ tokens, lo ≤ t.byteStart ∧ t.byteStart < t.byteEnd ∧ t.byteEnd ≤ hi
  apart : tokens.Pairwise fun a b => a.byteEnd < b.byteStart
  held : ∀ i, lo ≤ i → i < hi →
    (separator i = false ↔ ∃ t ∈ tokens, t.byteStart ≤ i ∧ i < t.byteEnd)

namespace Runs

variable {separator : Nat → Bool} {lo mid hi : Nat} {tokens : List Token}

/-- A separator in front. -/
theorem skip (h : Runs separator (lo + 1) hi tokens) (hlo : separator lo = true) :
    Runs separator lo hi tokens where
  bounds t ht := ⟨Nat.le_of_succ_le (h.bounds t ht).1, (h.bounds t ht).2⟩
  apart := h.apart
  held := by
    intro i hloi hi
    rcases Nat.eq_or_lt_of_le hloi with rfl | hlt
    · refine ⟨fun hsep => absurd (hlo.symm.trans hsep) Bool.true_eq_false.mp, ?_⟩
      intro ⟨t, ht, hstart, _⟩
      have := (h.bounds t ht).1
      omega
    · exact h.held i hlt hi

/-- A token in front, with a separator behind it. -/
theorem close (h : Runs separator (mid + 1) hi tokens) (hlt : lo < mid) (hhi : mid < hi)
    (hmid : separator mid = true) (hword : ∀ i, lo ≤ i → i < mid → separator i = false) :
    Runs separator lo hi (⟨lo, mid⟩ :: tokens) where
  bounds := by
    intro t ht
    rcases List.mem_cons.mp ht with rfl | ht
    · exact ⟨Nat.le_refl lo, hlt, hhi.le⟩
    · have := h.bounds t ht
      omega
  apart := List.pairwise_cons.mpr ⟨fun t ht => (h.bounds t ht).1, h.apart⟩
  held := by
    intro i hloi hi
    simp only [List.mem_cons, exists_eq_or_imp]
    rcases Nat.lt_trichotomy i mid with hi' | rfl | hi'
    · exact ⟨fun _ => .inl ⟨hloi, hi'⟩, fun _ => hword i hloi hi'⟩
    · refine ⟨fun hsep => absurd (hmid.symm.trans hsep) Bool.true_eq_false.mp, ?_⟩
      rintro (⟨_, hlt'⟩ | ⟨t, ht, hstart, _⟩)
      · exact absurd hlt' (Nat.lt_irrefl i)
      · have := (h.bounds t ht).1
        omega
    · rw [h.held i hi' hi]
      refine ⟨Or.inr, fun hor => hor.resolve_left fun hfirst => ?_⟩
      exact absurd hfirst.2 (Nat.not_lt.mpr hi'.le)

/-- Two tokens that share a byte, or touch, are one. -/
theorem eq_of_touch (h : Runs separator lo hi tokens) {t u : Token} (ht : t ∈ tokens)
    (hu : u ∈ tokens) (htu : t.byteStart ≤ u.byteEnd) (hut : u.byteStart ≤ t.byteEnd) : t = u := by
  obtain ⟨i, hi, rfl⟩ := List.getElem_of_mem ht
  obtain ⟨j, hj, rfl⟩ := List.getElem_of_mem hu
  rcases Nat.lt_trichotomy i j with hij | rfl | hij
  · have := List.pairwise_iff_getElem.mp h.apart i j hi hj hij
    omega
  · rfl
  · have := List.pairwise_iff_getElem.mp h.apart j i hj hi hij
    omega

/-- They are the maximal runs. -/
theorem mem_iff {separators : Option CStr} {bytes : List UInt8}
    (h : Runs (separatorAt separators bytes) 0 bytes.length tokens) (t : Token) :
    t ∈ tokens ↔ MaximalRun separators bytes t := by
  have maximal : ∀ t ∈ tokens, MaximalRun separators bytes t := by
    intro t ht
    obtain ⟨-, hlt, hle⟩ := h.bounds t ht
    refine ⟨hlt, hle, fun i hstart hstop => ?_, fun hpos => ?_, fun hmore => ?_⟩
    · exact (h.held i (Nat.zero_le i) (by omega)).mpr ⟨t, ht, hstart, hstop⟩
    · by_contra hsep
      rw [Bool.not_eq_true] at hsep
      obtain ⟨u, hu, hstart, hstop⟩ := (h.held _ (Nat.zero_le _) (by omega)).mp hsep
      have heq := h.eq_of_touch hu ht (by omega) (by omega)
      rw [heq] at hstart
      omega
    · by_contra hsep
      rw [Bool.not_eq_true] at hsep
      obtain ⟨u, hu, hstart, hstop⟩ := (h.held _ (Nat.zero_le _) hmore).mp hsep
      have heq := h.eq_of_touch hu ht (by omega) (by omega)
      rw [heq] at hstop
      omega
  refine ⟨maximal t, fun ht => ?_⟩
  have hlt := ht.nonempty
  have hfirst := ht.word t.byteStart (Nat.le_refl _) hlt
  have hlen := Nat.lt_of_lt_of_le hlt ht.within
  obtain ⟨u, hu, hstart, hstop⟩ := (h.held t.byteStart (Nat.zero_le _) hlen).mp hfirst
  have hrun := maximal u hu
  have hstarts : u.byteStart = t.byteStart := by
    by_contra hne
    have hout := ht.before (by omega)
    have hin := hrun.word (t.byteStart - 1) (by omega) (by omega)
    rw [hout] at hin
    cases hin
  have hstops : u.byteEnd = t.byteEnd := by
    rcases Nat.lt_trichotomy u.byteEnd t.byteEnd with hless | heq | hgt
    · have hout := hrun.after (Nat.lt_of_lt_of_le hless ht.within)
      have hin := ht.word u.byteEnd (by omega) hless
      rw [hout] at hin
      cases hin
    · exact heq
    · have hout := ht.after (Nat.lt_of_lt_of_le hgt hrun.within)
      have hin := hrun.word t.byteEnd (by omega) hgt
      rw [hout] at hin
      cases hin
  obtain ⟨ustart, ustop⟩ := u
  simp only at hstarts hstops
  rw [hstarts, hstops] at hu
  exact hu

end Runs

/-- What the pass over the bytes makes, with a token open or not. -/
theorem tokenList_runs {separators : Option CStr} {separator : Nat → Bool} (bytes : List UInt8)
    (off : Nat) (hbytes : ∀ i, i < bytes.length →
      separator (off + i) = separatorAt separators bytes i) :
    Runs separator off (off + bytes.length) (tokenList separators bytes off none) ∧
      ∀ s, s < off → (∀ i, s ≤ i → i < off → separator i = false) →
        Runs separator s (off + bytes.length) (tokenList separators bytes off (some s)) := by
  induction bytes generalizing off with
  | nil =>
    refine ⟨⟨by simp [tokenList], by simp [tokenList], fun i h1 h2 => ?_⟩, fun s hs hword => ?_⟩
    · rw [List.length_nil] at h2
      omega
    · rw [tokenList]
      refine ⟨by simp [hs], by simp, fun i h1 h2 => ?_⟩
      have hsep : separator i = false := hword i h1 h2
      simp only [hsep, List.mem_singleton, exists_eq_left, true_iff]
      exact ⟨h1, h2⟩
  | cons c cs ih =>
    have hfirst : separator off = isSeparator c separators := hbytes 0 (Nat.zero_lt_succ _)
    have hlen : off + (c :: cs).length = off + 1 + cs.length := by
      rw [List.length_cons]
      omega
    obtain ⟨hnone, hsome⟩ := ih (off + 1) fun i hi => by
      have := hbytes (i + 1) (Nat.succ_lt_succ hi)
      rw [Nat.add_assoc, Nat.add_comm 1 i]
      exact this
    rw [hlen]
    refine ⟨?_, fun s hs hword => ?_⟩
    · rw [tokenList]
      by_cases hc : isSeparator c separators = true
      · rw [if_pos hc]
        exact hnone.skip (hfirst.trans hc)
      · rw [if_neg hc]
        refine hsome off (Nat.lt_succ_self off) fun i h1 h2 => ?_
        rw [Nat.le_antisymm (Nat.le_of_lt_succ h2) h1, hfirst]
        exact Bool.eq_false_iff.mpr hc
    · rw [tokenList]
      by_cases hc : isSeparator c separators = true
      · rw [if_pos hc]
        exact hnone.close hs (by omega) (hfirst.trans hc) hword
      · rw [if_neg hc]
        refine hsome s (Nat.lt_succ_of_lt hs) fun i h1 h2 => ?_
        rcases Nat.lt_or_eq_of_le (Nat.le_of_lt_succ h2) with hlt | heq
        · exact hword i h1 hlt
        · rw [heq, hfirst]
          exact Bool.eq_false_iff.mpr hc

theorem tokensOf_runs (separators : Option CStr) (input : CStr) :
    Runs (separatorAt separators input.bytes) 0 input.bytes.length (tokensOf separators input) := by
  have hruns := (@tokenList_runs separators _ input.bytes 0 fun i _ =>
    congrArg (separatorAt separators input.bytes) (Nat.zero_add i)).1
  rw [Nat.zero_add] at hruns
  exact hruns

/-- **The tokens are the maximal runs**: whatever the separators are, the tokenizer returns the
maximal runs of bytes that are no separators, in increasing order and apart from one another, with
every other byte a separator; or one of its allocations failed. -/
theorem splitTokens_runs {ε : Type} (separators : Option CStr) (input : CStr) (e : Env) :
    (∃ tokens e', (splitTokens (ε := ε) input separators).exec e = (.ok (some tokens), e') ∧
      tokens.items.Pairwise (fun a b => a.byteEnd < b.byteStart) ∧
      (∀ t, t ∈ tokens.items ↔ MaximalRun separators input.bytes t) ∧
      ∀ i, i < input.bytes.length → (separatorAt separators input.bytes i = false ↔
        ∃ t ∈ tokens.items, t.byteStart ≤ i ∧ i < t.byteEnd)) ∨
    (false ∈ e.allocs ∧ ∃ e', (splitTokens (ε := ε) input separators).exec e = (.ok none, e')) := by
  have hkeep := splitTokens_spec (ε := ε) (X := fun _ => False)
    (@Keeps.alloc_within ε e.allocs _) separators input
  obtain ⟨-, hrun⟩ := hkeep e (List.suffix_refl e.allocs)
  rcases hexec : (splitTokens (ε := ε) input separators).exec e with ⟨stop | r, e'⟩
  · rw [hexec] at hrun
    exact hrun.elim
  · rw [hexec] at hrun
    rcases hrun with ⟨cap, rfl⟩ | ⟨rfl, hfailed⟩
    · have hruns := tokensOf_runs separators input
      exact .inl ⟨_, e', rfl, hruns.apart, hruns.mem_iff, fun i => hruns.held i (Nat.zero_le i)⟩
    · exact .inr ⟨hfailed, e', rfl⟩

end Ipa.Ngram
