import Ipa.Lib.Run
import Ipa.Lib.CStr

/-!
# The tokenizer of the embedding model

`wordpieceTokenize` cuts the words of an input into pieces of a vocabulary, the longest that is
found first, and writes their ids between those of `[CLS]` and `[SEP]` as far as the array goes. The
array and the buffer of the lookups are checked at every write. `Segments` is what the pieces of a
word are, whatever the size of the array.
-/

namespace Ipa.Emb

open Run

variable {ε : Type}

def kcIsspace (c : UInt8) : Bool :=
  c == 0x20 || c == 0x09 || c == 0x0A || c == 0x0D || c == 0x0C || c == 0x0B

def kcTolower (c : UInt8) : UInt8 := if 0x41 ≤ c ∧ c ≤ 0x5A then c + 32 else c

/-- `sizeof(buf)`. -/
def bufSize : Nat := 128

/-- U+2581. -/
def spacePrefix : List UInt8 := [0xE2, 0x96, 0x81]

def hashes : List UInt8 := [0x23, 0x23]

/-- `buf[blen++] = c`. -/
def storeByte (buf : List UInt8) (c : UInt8) : Run ε (List UInt8) :=
  if buf.length < bufSize then pure (buf ++ [c]) else fault .index

/-- `tokens[(*n_tokens)++] = id`. -/
def storeToken (nCtx : Nat) (tokens : List Int) (id : Int) : Run ε (List Int) :=
  if tokens.length < nCtx then pure (tokens ++ [id]) else fault .index

section Tokenize

variable (lookup : CStr → Option Nat)

/-- `find_token`, -1 for a string that is not in the vocabulary. -/
def tokenId (str : CStr) : Int :=
  match lookup str with
  | some id => id
  | none => -1

/-- One form of a piece, which is looked up when it fits the buffer: the best id, and whether it was
found. -/
def tryForm (before piece : List UInt8) (best : Int) : Run ε (Int × Bool) := do
  let buf ← before.foldlM storeByte []
  if buf.length + piece.length < bufSize then
    let buf ← piece.foldlM (fun buf c => storeByte buf (kcTolower c)) buf
    let buf ← storeByte buf 0
    let best := tokenId lookup (CStr.ofBuffer buf)
    pure (best, decide (0 ≤ best))
  else pure (best, false)

/-- The forms of a piece that starts at `start` in its word. -/
def tryPiece (start : Nat) (piece : List UInt8) (best : Int) : Run ε (Int × Bool) := do
  let (best, found) ← if start = 0 then tryForm lookup spacePrefix piece best else pure (best, false)
  let (best, found) ←
    if !found && decide (0 < start) then tryForm lookup hashes piece best else pure (best, found)
  if !found then tryForm lookup [] piece best else pure (best, found)

/-- The loop over the ends of a piece, from the last one down. -/
def bestPiece (word : List UInt8) (start : Nat) : Nat → Int → Run ε (Int × Nat)
  | 0, best => pure (best, 0)
  | n + 1, best => do
    let (best, found) ← tryPiece lookup start ((word.drop start).take (n + 1)) best
    if found then pure (best, n + 1) else bestPiece word start n best

variable (nCtx : Nat) (unkTokenId : Int)

/-- The loop over the pieces of a word. -/
def wordLoop (word : List UInt8) : Nat → Nat → List Int → Run ε (List Int)
  | 0, _, _ => fault .fuel
  | fuel + 1, start, tokens =>
    if start < word.length ∧ tokens.length < nCtx - 1 then do
      let (bestId, bestLen) ← bestPiece lookup word start (word.length - start) (-1)
      if bestId ≠ -1 then
        let tokens ← storeToken nCtx tokens bestId
        wordLoop word fuel (start + bestLen) tokens
      else
        let tokens ← if tokens.length < nCtx then storeToken nCtx tokens unkTokenId else pure tokens
        wordLoop word fuel (start + 1) tokens
    else pure tokens

/-- The loop over the words of what is left of the input. -/
def inputLoop : Nat → List UInt8 → List Int → Run ε (List Int)
  | 0, _, _ => fault .fuel
  | fuel + 1, input, tokens =>
    if 0 < input.length ∧ tokens.length < nCtx - 1 then
      let input := input.dropWhile kcIsspace
      if input.length = 0 then pure tokens
      else do
        let word := input.takeWhile (!kcIsspace ·)
        let tokens ← wordLoop lookup nCtx unkTokenId word (word.length + 1) 0 tokens
        inputLoop fuel (input.dropWhile (!kcIsspace ·)) tokens
    else pure tokens

/-- The ids that are written to `tokens`. -/
def wordpieceTokenize (clsTokenId sepTokenId : Int) (input : CStr) : Run ε (List Int) := do
  let tokens ← if 0 < nCtx then storeToken nCtx [] clsTokenId else pure []
  let tokens ← inputLoop lookup nCtx unkTokenId (input.strlen + 1) input.bytes tokens
  if tokens.length < nCtx then storeToken nCtx tokens sepTokenId else pure tokens

end Tokenize

/-! ## Segmentation -/

section Segments

variable (lookup : CStr → Option Nat)

/-- The id of a form, when it fits the buffer and is in the vocabulary. -/
def formId (before piece : List UInt8) : Option Nat :=
  if before.length + piece.length < bufSize then
    lookup (CStr.ofBuffer (before ++ piece.map kcTolower))
  else none

/-- The id of a piece: at the start of a word with U+2581, elsewhere with the two hashes, and else
bare. -/
def pieceId (first : Bool) (piece : List UInt8) : Option Nat :=
  (formId lookup (if first then spacePrefix else hashes) piece).or (formId lookup [] piece)

/-- The greedy segmentation of what is left of a word: the longest piece that has an id, or the
unknown token for one byte when none has. -/
inductive Segments (unkTokenId : Int) : Bool → List UInt8 → List Int → Prop
  | done {first : Bool} : Segments unkTokenId first [] []
  | piece {first : Bool} {rest : List UInt8} {n id : Nat} {ids : List Int} (pos : 0 < n)
      (le : n ≤ rest.length) (known : pieceId lookup first (rest.take n) = some id)
      (longest : ∀ k, n < k → k ≤ rest.length → pieceId lookup first (rest.take k) = none)
      (more : Segments unkTokenId false (rest.drop n) ids) :
    Segments unkTokenId first rest (id :: ids)
  | unknown {first : Bool} {c : UInt8} {rest : List UInt8} {ids : List Int}
      (unknown : ∀ k, 0 < k → k ≤ (c :: rest).length →
        pieceId lookup first ((c :: rest).take k) = none)
      (more : Segments unkTokenId false rest ids) :
    Segments unkTokenId first (c :: rest) (unkTokenId :: ids)

/-- The longest piece, if one has an id. -/
theorem longest_piece (first : Bool) (rest : List UInt8) :
    (∃ n id, 0 < n ∧ n ≤ rest.length ∧ pieceId lookup first (rest.take n) = some id ∧
      ∀ k, n < k → k ≤ rest.length → pieceId lookup first (rest.take k) = none) ∨
    ∀ k, 0 < k → k ≤ rest.length → pieceId lookup first (rest.take k) = none := by
  have go : ∀ n, n ≤ rest.length →
      (∀ k, n < k → k ≤ rest.length → pieceId lookup first (rest.take k) = none) →
        (∃ n id, 0 < n ∧ n ≤ rest.length ∧ pieceId lookup first (rest.take n) = some id ∧
          ∀ k, n < k → k ≤ rest.length → pieceId lookup first (rest.take k) = none) ∨
        ∀ k, 0 < k → k ≤ rest.length → pieceId lookup first (rest.take k) = none := by
    intro n
    induction n with
    | zero => exact fun _ h => .inr h
    | succ n ih =>
      intro hn habove
      cases hid : pieceId lookup first (rest.take (n + 1)) with
      | some id => exact .inl ⟨n + 1, id, Nat.zero_lt_succ n, hn, hid, habove⟩
      | none =>
        refine ih (by omega) fun k hk hle => ?_
        rcases Nat.eq_or_lt_of_le hk with rfl | hlt
        · exact hid
        · exact habove k hlt hle
  exact go rest.length (Nat.le_refl _) fun k hk hle => absurd hle (Nat.not_le.mpr hk)

/-- Every word has a segmentation. -/
theorem Segments.exists (unkTokenId : Int) (first : Bool) (rest : List UInt8) :
    ∃ ids, Segments lookup unkTokenId first rest ids := by
  induction hlen : rest.length using Nat.strongRecOn generalizing first rest with
  | ind len ih =>
    cases rest with
    | nil => exact ⟨[], .done⟩
    | cons c rest =>
      rcases longest_piece lookup first (c :: rest) with ⟨n, id, hpos, hle, hid, hlong⟩ | hnone
      · obtain ⟨ids, hids⟩ := ih ((c :: rest).drop n).length
          (by rw [List.length_drop]; omega) false _ rfl
        exact ⟨id :: ids, .piece hpos hle hid hlong hids⟩
      · obtain ⟨ids, hids⟩ := ih rest.length (by rw [← hlen]; exact Nat.lt_succ_self _) false rest rfl
        exact ⟨unkTokenId :: ids, .unknown hnone hids⟩

variable {lookup}

/-- And only one. -/
theorem Segments.unique {unkTokenId : Int} {first : Bool} {rest : List UInt8} {ids ids' : List Int}
    (h : Segments lookup unkTokenId first rest ids)
    (h' : Segments lookup unkTokenId first rest ids') : ids = ids' := by
  induction h generalizing ids' with
  | done =>
    cases h' with
    | done => rfl
    | piece pos le => exact absurd le (Nat.not_le.mpr pos)
  | @piece first rest n id ids pos le known longest more ih =>
    cases h' with
    | done => exact absurd le (Nat.not_le.mpr pos)
    | @piece _ _ n' id' ids' pos' le' known' longest' more' =>
      have heq : n = n' := by
        rcases Nat.lt_trichotomy n n' with hlt | heq | hgt
        · rw [longest n' hlt le'] at known'
          cases known'
        · exact heq
        · rw [longest' n hgt le] at known
          cases known
      subst heq
      rw [known] at known'
      cases known'
      rw [ih more']
    | unknown unknown =>
      rw [unknown n pos le] at known
      cases known
  | @unknown first c rest ids unknown more ih =>
    cases h' with
    | @piece _ _ n' id' ids' pos' le' known' longest' more' =>
      rw [unknown n' pos' le'] at known'
      cases known'
    | unknown _ more' => rw [ih more']

end Segments

/-! ## The loops compute it -/

theorem storeBytes_eq (f : UInt8 → UInt8) (bytes buf : List UInt8)
    (hfits : buf.length + bytes.length ≤ bufSize) :
    bytes.foldlM (fun buf c => storeByte (ε := ε) buf (f c)) buf = pure (buf ++ bytes.map f) := by
  induction bytes generalizing buf with
  | nil => rw [List.map_nil, List.append_nil]; rfl
  | cons c bytes ih =>
    rw [List.length_cons] at hfits
    rw [List.foldlM_cons, storeByte, if_pos (by omega), pure_bind, ih _ (by
      rw [List.length_append, List.length_singleton]
      omega), List.map_cons, List.append_assoc, List.singleton_append]

theorem ofBuffer_append_zero (buf : List UInt8) : CStr.ofBuffer (buf ++ [0]) = CStr.ofBuffer buf := by
  apply CStr.ext
  change (buf ++ [0]).takeWhile (· ≠ 0) = buf.takeWhile (· ≠ 0)
  induction buf with
  | nil => rfl
  | cons c buf ih =>
    rw [List.cons_append, List.takeWhile_cons, List.takeWhile_cons, ih]

section Loops

variable {lookup : CStr → Option Nat}

/-- What a form, or a piece, leaves in `best_id` and `found`. -/
def outcome : Option Nat → Int × Bool
  | some id => (id, true)
  | none => (-1, false)

theorem tokenId_outcome (str : CStr) :
    (tokenId lookup str, decide (0 ≤ tokenId lookup str)) = outcome (lookup str) := by
  unfold tokenId
  cases lookup str with
  | none => rfl
  | some id =>
    change ((id : Int), decide (0 ≤ (id : Int))) = (↑id, true)
    rw [decide_eq_true (Int.natCast_nonneg id)]

theorem tryForm_eq (before piece : List UInt8) (hbefore : before.length < bufSize) :
    tryForm (ε := ε) lookup before piece (-1) = pure (outcome (formId lookup before piece)) := by
  unfold tryForm formId
  have hbefore' := storeBytes_eq (ε := ε) id before [] (by rw [List.length_nil]; omega)
  rw [List.map_id, List.nil_append] at hbefore'
  change (before.foldlM (fun buf c => storeByte buf (id c)) [] >>= _) = _
  rw [hbefore', pure_bind]
  by_cases hfits : before.length + piece.length < bufSize
  · have hlen : (before ++ piece.map kcTolower).length < bufSize := by
      rw [List.length_append, List.length_map]
      exact hfits
    rw [if_pos hfits, if_pos hfits, storeBytes_eq kcTolower piece before (Nat.le_of_lt hfits),
      pure_bind, storeByte, if_pos hlen, pure_bind, ofBuffer_append_zero]
    exact congrArg pure (tokenId_outcome _)
  · rw [if_neg hfits, if_neg hfits]
    rfl

theorem tryPiece_eq (start : Nat) (piece : List UInt8) :
    tryPiece (ε := ε) lookup start piece (-1) =
      pure (outcome (pieceId lookup (decide (start = 0)) piece)) := by
  have hbare := @tryForm_eq ε lookup [] piece (by decide)
  unfold tryPiece pieceId
  by_cases hstart : start = 0
  · have hform := @tryForm_eq ε lookup spacePrefix piece (by decide)
    simp only [hstart, if_true, decide_true]
    rw [hform, pure_bind]
    cases formId lookup spacePrefix piece with
    | none => exact hbare
    | some id => rfl
  · have hform := @tryForm_eq ε lookup hashes piece (by decide)
    have hpos : decide (0 < start) = true := decide_eq_true (Nat.pos_of_ne_zero hstart)
    simp only [if_neg hstart, decide_eq_false hstart, pure_bind, Bool.not_false, Bool.true_and,
      hpos, if_true, Bool.false_eq_true, if_false]
    rw [hform, pure_bind]
    cases formId lookup hashes piece with
    | none => exact hbare
    | some id => rfl

/-- The loop over the ends finds the longest piece. -/
theorem bestPiece_eq {word : List UInt8} {start n m id : Nat} (hpos : 0 < m) (hle : m ≤ n)
    (hknown : pieceId lookup (decide (start = 0)) ((word.drop start).take m) = some id)
    (hlongest : ∀ k, m < k → k ≤ n →
      pieceId lookup (decide (start = 0)) ((word.drop start).take k) = none) :
    bestPiece (ε := ε) lookup word start n (-1) = pure ((id : Int), m) := by
  induction n with
  | zero => exact absurd hle (Nat.not_le.mpr hpos)
  | succ n ih =>
    rw [bestPiece, tryPiece_eq, pure_bind]
    rcases Nat.eq_or_lt_of_le hle with rfl | hlt
    · rw [hknown]
      rfl
    · rw [hlongest (n + 1) hlt (Nat.le_refl _)]
      exact ih (Nat.le_of_lt_succ hlt) fun k hk hkn => hlongest k hk (Nat.le_succ_of_le hkn)

theorem bestPiece_none {word : List UInt8} {start n : Nat}
    (hnone : ∀ k, 0 < k → k ≤ n →
      pieceId lookup (decide (start = 0)) ((word.drop start).take k) = none) :
    bestPiece (ε := ε) lookup word start n (-1) = pure (-1, 0) := by
  induction n with
  | zero => rfl
  | succ n ih =>
    rw [bestPiece, tryPiece_eq, pure_bind, hnone (n + 1) (Nat.zero_lt_succ n) (Nat.le_refl _)]
    exact ih fun k hk hkn => hnone k hk (Nat.le_succ_of_le hkn)

variable {nCtx : Nat} {unkTokenId : Int}

/-- The room before the slot of `[SEP]`. -/
theorem take_room {tokens ids : List Int} {id : Int} (hroom : tokens.length < nCtx - 1) :
    tokens ++ (id :: ids).take (nCtx - 1 - tokens.length) =
      tokens ++ [id] ++ ids.take (nCtx - 1 - (tokens ++ [id]).length) := by
  have hsub : nCtx - 1 - tokens.length = nCtx - 1 - (tokens ++ [id]).length + 1 := by
    rw [List.length_append, List.length_singleton]
    omega
  rw [hsub, List.take_succ_cons, List.append_assoc, List.singleton_append]

/-- **One word**: its segmentation, as far as there is room. -/
theorem wordLoop_eq {word : List UInt8} {first : Bool} {rest : List UInt8} {ids : List Int}
    (h : Segments lookup unkTokenId first rest ids) {fuel start : Nat} {tokens : List Int}
    (hfirst : first = decide (start = 0)) (hrest : rest = word.drop start)
    (hfuel : rest.length < fuel) :
    wordLoop (ε := ε) lookup nCtx unkTokenId word fuel start tokens =
      pure (tokens ++ ids.take (nCtx - 1 - tokens.length)) := by
  have hfull : ∀ ids : List Int, ¬ tokens.length < nCtx - 1 →
      tokens = tokens ++ ids.take (nCtx - 1 - tokens.length) := by
    intro ids hno
    rw [Nat.sub_eq_zero_of_le (Nat.not_lt.mp hno), List.take_zero, List.append_nil]
  induction h generalizing fuel start tokens with
  | done =>
    obtain ⟨fuel, rfl⟩ := Nat.exists_eq_succ_of_ne_zero (Nat.ne_of_gt (Nat.zero_lt_of_lt hfuel))
    have hend : ¬ start < word.length := by
      have := congrArg List.length hrest
      rw [List.length_nil, List.length_drop] at this
      omega
    rw [wordLoop, if_neg fun h => hend h.1, List.take_nil, List.append_nil]
  | @piece first rest n id ids pos le known longest more ih =>
    obtain ⟨fuel, rfl⟩ := Nat.exists_eq_succ_of_ne_zero (Nat.ne_of_gt (Nat.zero_lt_of_lt hfuel))
    subst hfirst hrest
    rw [List.length_drop] at le longest hfuel
    rw [wordLoop]
    by_cases hroom : tokens.length < nCtx - 1
    · have hstart : start < word.length := by omega
      have hid : (id : Int) ≠ -1 := by omega
      rw [if_pos ⟨hstart, hroom⟩, bestPiece_eq pos le known longest, pure_bind]
      simp only [if_pos hid]
      rw [storeToken, if_pos (by omega), pure_bind, take_room hroom]
      refine ih ?_ ?_ ?_ ?_
      · rw [eq_comm, decide_eq_false_iff_not]
        omega
      · rw [List.drop_drop]
      · rw [List.length_drop, List.length_drop]
        omega
      · intro ids hno
        rw [Nat.sub_eq_zero_of_le (Nat.not_lt.mp hno), List.take_zero, List.append_nil]
    · rw [if_neg fun h => hroom h.2, ← hfull _ hroom]
  | @unknown first c rest ids unknown more ih =>
    obtain ⟨fuel, rfl⟩ := Nat.exists_eq_succ_of_ne_zero (Nat.ne_of_gt (Nat.zero_lt_of_lt hfuel))
    subst hfirst
    have hlen := congrArg List.length hrest
    rw [List.length_drop] at hlen
    rw [wordLoop]
    by_cases hroom : tokens.length < nCtx - 1
    · have hstart : start < word.length := by
        rw [List.length_cons] at hlen
        omega
      rw [hrest, List.length_drop] at unknown
      rw [if_pos ⟨hstart, hroom⟩, bestPiece_none unknown, pure_bind]
      simp only [ne_eq, not_true_eq_false, if_false]
      rw [if_pos (by omega), storeToken, if_pos (by omega), pure_bind, take_room hroom]
      refine ih ?_ ?_ ?_ ?_
      · rw [eq_comm, decide_eq_false_iff_not]
        omega
      · rw [← List.drop_drop, ← hrest]
        rfl
      · exact Nat.lt_of_succ_lt_succ hfuel
      · intro ids hno
        rw [Nat.sub_eq_zero_of_le (Nat.not_lt.mp hno), List.take_zero, List.append_nil]
    · rw [if_neg fun h => hroom h.2, ← hfull _ hroom]

end Loops

/-! ## The words -/

/-- The words of an input. -/
def wordsOf (input : List UInt8) : List (List UInt8) :=
  (input.splitOnP kcIsspace).filter (· ≠ [])

theorem wordsOf_dropWhile (input : List UInt8) :
    wordsOf (input.dropWhile kcIsspace) = wordsOf input := by
  induction input with
  | nil => rfl
  | cons c input ih =>
    by_cases hc : kcIsspace c = true
    · rw [List.dropWhile_cons_of_pos hc, ih]
      unfold wordsOf
      rw [List.splitOnP_cons_eq_if_modifyHead, if_pos hc]
      simp
    · rw [List.dropWhile_cons_of_neg hc]

theorem wordsOf_word {word rest : List UInt8} (hne : word ≠ [])
    (hword : ∀ c ∈ word, kcIsspace c = false)
    (hrest : ∀ c, rest.head? = some c → kcIsspace c = true) :
    wordsOf (word ++ rest) = word :: wordsOf rest := by
  unfold wordsOf
  cases rest with
  | nil =>
    rw [List.append_nil, List.splitOnP_eq_singleton hword]
    simp [hne]
  | cons c rest =>
    have hc := hrest c rfl
    rw [List.splitOnP_append_cons_of_forall_mem hword c hc, List.splitOnP_cons_eq_if_modifyHead,
      if_pos hc]
    simp [hne]

section Words

variable {lookup : CStr → Option Nat} {nCtx : Nat} {unkTokenId : Int}

theorem inputLoop_eq {ids : List (List Int)} (fuel : Nat) (input : List UInt8) (tokens : List Int)
    (hfuel : input.length < fuel)
    (hids : List.Forall₂ (Segments lookup unkTokenId true) (wordsOf input) ids) :
    inputLoop (ε := ε) lookup nCtx unkTokenId fuel input tokens =
      pure (tokens ++ ids.flatten.take (nCtx - 1 - tokens.length)) := by
  induction fuel generalizing input tokens ids with
  | zero => exact absurd hfuel (Nat.not_lt_zero _)
  | succ fuel ih =>
    rw [inputLoop]
    by_cases hroom : tokens.length < nCtx - 1
    · by_cases hinput : 0 < input.length
      · rw [if_pos ⟨hinput, hroom⟩]
        rw [← wordsOf_dropWhile] at hids
        have hdrop := (List.dropWhile_sublist (l := input) kcIsspace).length_le
        have hhead := List.head?_dropWhile_not kcIsspace input
        dsimp only
        generalize input.dropWhile kcIsspace = body at hids hdrop hhead ⊢
        cases body with
        | nil =>
          cases hids
          simp
        | cons c body =>
          have hc : kcIsspace c = false := by simpa using hhead
          rw [if_neg (by rw [List.length_cons]; omega)]
          have hcut := List.takeWhile_append_dropWhile (p := (!kcIsspace ·)) (l := c :: body)
          have hlen := congrArg List.length hcut
          rw [List.length_append] at hlen
          have hne : (c :: body).takeWhile (!kcIsspace ·) ≠ [] := by
            rw [List.takeWhile_cons_of_pos (by simp [hc])]
            exact List.cons_ne_nil _ _
          have hwords : wordsOf (c :: body) = (c :: body).takeWhile (!kcIsspace ·) ::
              wordsOf ((c :: body).dropWhile (!kcIsspace ·)) := by
            conv_lhs => rw [← hcut]
            refine wordsOf_word hne (fun d hd => ?_) fun d hd => ?_
            · simpa using List.mem_takeWhile_imp (p := (!kcIsspace ·)) hd
            · have := List.head?_dropWhile_not (!kcIsspace ·) (c :: body)
              rw [hd] at this
              simpa using this
          rw [hwords] at hids
          generalize (c :: body).takeWhile (!kcIsspace ·) = word at hids hlen hne ⊢
          generalize (c :: body).dropWhile (!kcIsspace ·) = rest at hids hlen ⊢
          have hpos := List.length_pos_iff.mpr hne
          cases hids with
          | @cons _ first _ more hsegments hmore =>
            rw [wordLoop_eq hsegments rfl rfl (Nat.lt_succ_self _), pure_bind,
              ih rest _ (by omega) hmore, List.flatten_cons, List.take_append, List.append_assoc]
            congr 3
            rw [List.length_append, List.length_take]
            congr 1
            omega
      · have hnil : input = [] := List.length_eq_zero_iff.mp (by omega)
        subst hnil
        cases hids
        rw [if_neg fun h => hinput h.1]
        simp
    · rw [if_neg fun h => hroom h.2, Nat.sub_eq_zero_of_le (Nat.not_lt.mp hroom), List.take_zero,
        List.append_nil]

theorem segments_words (words : List (List UInt8)) :
    ∃ ids, List.Forall₂ (Segments lookup unkTokenId true) words ids := by
  induction words with
  | nil => exact ⟨[], .nil⟩
  | cons word words ih =>
    obtain ⟨ids, hids⟩ := ih
    obtain ⟨first, hfirst⟩ := Segments.exists lookup unkTokenId true word
    exact ⟨first :: ids, .cons hfirst hids⟩

end Words

/-- **The tokenizer**: between the ids of `[CLS]` and `[SEP]` the first ids of the segmentations of
the words, as many as there is room for; no write is outside the array or the buffer. -/
theorem wordpieceTokenize_eq (lookup : CStr → Option Nat) (nCtx : Nat) (hctx : 2 ≤ nCtx)
    (unkTokenId clsTokenId sepTokenId : Int) (input : CStr) :
    ∃ ids, List.Forall₂ (Segments lookup unkTokenId true) (wordsOf input.bytes) ids ∧
      wordpieceTokenize (ε := ε) lookup nCtx unkTokenId clsTokenId sepTokenId input =
        pure (clsTokenId :: ids.flatten.take (nCtx - 2) ++ [sepTokenId]) := by
  obtain ⟨ids, hids⟩ := @segments_words lookup unkTokenId (wordsOf input.bytes)
  refine ⟨ids, hids, ?_⟩
  have hlen : (ids.flatten.take (nCtx - 2)).length ≤ nCtx - 2 := List.length_take_le _ _
  have hloop := @inputLoop_eq ε lookup nCtx unkTokenId ids (input.strlen + 1) input.bytes
    [clsTokenId] (Nat.lt_succ_self _) hids
  rw [List.length_singleton, show nCtx - 1 - 1 = nCtx - 2 by omega] at hloop
  unfold wordpieceTokenize
  rw [if_pos (by omega), storeToken, if_pos (by rw [List.length_nil]; omega), pure_bind]
  change (inputLoop lookup nCtx unkTokenId (input.strlen + 1) input.bytes [clsTokenId] >>= _) = _
  rw [hloop, pure_bind, if_pos (by
    rw [List.length_append, List.length_singleton]
    omega), storeToken, if_pos (by
    rw [List.length_append, List.length_singleton]
    omega)]
  rfl

/-- A vocabulary of one piece, at the start of a word. -/
def onePiece (str : CStr) : Option Nat :=
  if str.bytes = spacePrefix ++ [0x61] then some 7 else none

theorem wordpieceTokenize_eq_one :
    ∃ ids, List.Forall₂ (Segments onePiece 100 true) (wordsOf (CStr.ofString "Ab c").bytes) ids ∧
      wordpieceTokenize (ε := Unit) onePiece 4 100 101 102 (.ofString "Ab c") =
        pure (101 :: ids.flatten.take 2 ++ [102]) :=
  wordpieceTokenize_eq onePiece 4 (by decide) 100 101 102 (.ofString "Ab c")

end Ipa.Emb
