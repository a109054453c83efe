import Ipa.Manifest.Json
import Ipa.Lib.JsonText

/-!
# The strings of the tokenizer

A string is read piece by piece: a byte that stands for itself, or a backslash and what it
escapes. The string parser takes every text of pieces between quotes, to its closing quote, and
nothing else. On the string literals of JSON that gives the characters they denote, unless an
escape is `\b`, `\f` or `\u`: those keep the letter behind the backslash.
-/

namespace Ipa

open Run

namespace Json

/-! ## Positions -/

variable {j : Json}

@[simp] theorem advance_src (j : Json) (n : Nat) : (j.advance n).src = j.src := rfl

@[simp] theorem advance_pos (j : Json) (n : Nat) : (j.advance n).pos = j.pos + n := rfl

@[simp] theorem advance_advance (j : Json) (m n : Nat) :
    (j.advance m).advance n = j.advance (m + n) := by
  unfold advance
  simp only [Nat.add_assoc]

@[simp] theorem rest_advance (j : Json) (n : Nat) : (j.advance n).rest = j.rest.drop n := by
  unfold rest
  rw [List.drop_drop]
  rfl

theorem rest_behind {t s : List UInt8} (h : j.rest = t ++ s) : (j.advance t.length).rest = s := by
  rw [rest_advance, h, List.drop_left]

theorem peek_eq (j : Json) : j.peek = j.rest.head? := by
  unfold peek rest
  rw [List.head?_drop]

/-- No white space follows. -/
def Solid (s : List UInt8) : Prop := ∀ c, s.head? = some c → isspace c = false

theorem solid_cons {c : UInt8} {s : List UInt8} (h : isspace c = false) : Solid (c :: s) := by
  intro d hd
  cases hd
  exact h

theorem skipWs_behind {ws s : List UInt8} (h : j.rest = ws ++ s)
    (hws : ∀ c ∈ ws, isspace c = true) (hs : Solid s) : j.skipWs = j.advance ws.length := by
  have hnil : s.takeWhile isspace = [] := by
    cases s with
    | nil => rfl
    | cons c s =>
      rw [List.takeWhile_cons, hs c rfl]
      rfl
  unfold skipWs
  rw [h, List.takeWhile_append_of_pos hws, hnil, List.append_nil]

/-- The white space that is skipped. -/
theorem skipWs_spec (j : Json) : ∃ ws, (∀ c ∈ ws, isspace c = true) ∧ Solid j.skipWs.rest ∧
    j.rest = ws ++ j.skipWs.rest ∧ j.skipWs = j.advance ws.length := by
  have hsplit : j.rest = j.rest.takeWhile isspace ++ j.rest.dropWhile isspace :=
    (List.takeWhile_append_dropWhile).symm
  have hrest : j.skipWs.rest = j.rest.dropWhile isspace := rest_behind hsplit
  refine ⟨_, fun c hc => List.mem_takeWhile_imp hc, ?_, by rw [hrest]; exact hsplit, rfl⟩
  rw [hrest]
  intro c hc
  have := List.head?_dropWhile_not isspace j.rest
  rw [hc] at this
  simpa using this

/-! ## Pieces -/

/-- One piece of a string. -/
inductive Piece
  | raw (c : UInt8) (not_quote : c ≠ 0x22) (not_backslash : c ≠ 0x5C)
  | escaped (e : UInt8)

namespace Piece

def text : Piece → List UInt8
  | raw c _ _ => [c]
  | escaped e => [0x5C, e]

/-- The byte that the parser keeps of a piece. -/
def byte : Piece → UInt8
  | raw c _ _ => c
  | escaped e => unescape e

end Piece

def spelled (ps : List Piece) : List UInt8 := ps.flatMap Piece.text

/-- The text of a string, with its quotes. -/
def quoted (ps : List Piece) : List UInt8 := 0x22 :: (spelled ps ++ [0x22])

theorem length_quoted (ps : List Piece) : (quoted ps).length = 1 + ((spelled ps).length + 1) := by
  unfold quoted
  rw [List.length_cons, List.length_append, List.length_singleton]
  omega

theorem spelled_append (ps qs : List Piece) : spelled (ps ++ qs) = spelled ps ++ spelled qs :=
  List.flatMap_append

section Loop

variable {I : Env → Prop} {X : Stop JsonError → Prop} [Serves I X JsonError.silent]

theorem pushByte_keeps (cap : Nat) (buf : List UInt8) (c : UInt8) :
    Keeps I X (pushByte cap buf c) fun r => r.2 = buf ++ [c] := by
  unfold pushByte
  split
  · exact Keeps.bind Keeps.allocOr fun _ _ => Keeps.pure rfl
  · exact Keeps.pure rfl

/-- **The loop** takes the pieces before the closing quote. -/
theorem stringLoop_keeps : ∀ (ps : List Piece) (s : List UInt8) (j : Json) (cap : Nat)
    (buf : List UInt8), Keeps I X (stringLoop (spelled ps ++ 0x22 :: s) j cap buf) fun r =>
      r = (j.advance ((spelled ps).length + 1), buf ++ ps.map Piece.byte)
  | [], s, j, cap, buf => by
    change Keeps I X (stringLoop (0x22 :: s) j cap buf) _
    rw [stringLoop]
    exact Keeps.pure (by rw [List.map_nil, List.append_nil]; rfl)
  | .raw c hq hb :: ps, s, j, cap, buf => by
    change Keeps I X (stringLoop (c :: (spelled ps ++ 0x22 :: s)) j cap buf) _
    rw [stringLoop]
    · refine Keeps.bind (pushByte_keeps cap buf c) fun ⟨cap', buf'⟩ hbuf => ?_
      simp only at hbuf
      subst hbuf
      refine (stringLoop_keeps ps s (j.advance 1) cap' _).mono ?_
      rintro r rfl
      rw [advance_advance, List.append_assoc]
      change _ = (j.advance ((spelled ps).length + 1 + 1), _)
      rw [Nat.add_comm 1]
      rfl
    · exact hq
    · exact fun h => (hb h).elim
    · exact fun _ _ h => (hb h).elim
  | .escaped e :: ps, s, j, cap, buf => by
    change Keeps I X (stringLoop (0x5C :: e :: (spelled ps ++ 0x22 :: s)) j cap buf) _
    rw [stringLoop]
    refine Keeps.bind (pushByte_keeps cap buf (unescape e)) fun ⟨cap', buf'⟩ hbuf => ?_
    simp only at hbuf
    subst hbuf
    refine (stringLoop_keeps ps s (j.advance 2) cap' _).mono ?_
    rintro r rfl
    rw [advance_advance, List.append_assoc]
    change _ = (j.advance ((spelled ps).length + 2 + 1), _)
    rw [show 2 + ((spelled ps).length + 1) = (spelled ps).length + 2 + 1 by omega]
    rfl

/-- **A string** after white space is read to its closing quote. -/
theorem parseString_keeps {ws s : List UInt8} {ps : List Piece}
    (hws : ∀ c ∈ ws, isspace c = true) (h : j.rest = ws ++ (quoted ps ++ s)) :
    Keeps I X (parseString j) fun r =>
      r = (j.advance (ws.length + (quoted ps).length), CStr.ofBuffer (ps.map Piece.byte)) := by
  have hskip : j.skipWs = j.advance ws.length := skipWs_behind h hws (solid_cons rfl)
  have hrest : j.skipWs.rest = 0x22 :: (spelled ps ++ 0x22 :: s) := by
    rw [hskip, rest_behind h]
    unfold quoted
    rw [List.cons_append, List.append_assoc, List.singleton_append]
  have hpeek : j.skipWs.peek = some 0x22 := by rw [peek_eq, hrest, List.head?_cons]
  unfold parseString
  simp only [hpeek, ne_eq, not_true_eq_false, if_false]
  refine Keeps.bind Keeps.allocOr fun _ _ => ?_
  rw [rest_advance, hrest]
  refine Keeps.bind (stringLoop_keeps ps s _ 256 []) ?_
  rintro r rfl
  refine Keeps.pure ?_
  rw [hskip, advance_advance, advance_advance, List.nil_append, ← length_quoted]

end Loop

/-- What the loop read when it returns. -/
theorem stringLoop_reads : ∀ (t : List UInt8) (j : Json) (cap : Nat) (buf : List UInt8),
    Keeps (fun _ => True) Reported (stringLoop t j cap buf) fun r => ∃ ps s,
      t = spelled ps ++ 0x22 :: s ∧
        r = (j.advance ((spelled ps).length + 1), buf ++ ps.map Piece.byte)
  | [], _, _, _ => Keeps.fail trivial
  | c :: t, j, cap, buf => by
    by_cases hq : c = 0x22
    · subst hq
      rw [stringLoop]
      exact Keeps.pure ⟨[], t, rfl, by rw [List.map_nil, List.append_nil]; rfl⟩
    by_cases hb : c = 0x5C
    · subst hb
      cases t with
      | nil => exact Keeps.fail trivial
      | cons e t =>
        rw [stringLoop]
        refine Keeps.bind (pushByte_keeps cap buf (unescape e)) fun ⟨cap', buf'⟩ hbuf => ?_
        simp only at hbuf
        subst hbuf
        refine (stringLoop_reads t (j.advance 2) cap' _).mono ?_
        rintro r ⟨ps, s, rfl, rfl⟩
        refine ⟨.escaped e :: ps, s, rfl, ?_⟩
        rw [advance_advance, List.append_assoc]
        change _ = (j.advance ((spelled ps).length + 2 + 1), _)
        rw [show 2 + ((spelled ps).length + 1) = (spelled ps).length + 2 + 1 by omega]
        rfl
    · rw [stringLoop]
      · refine Keeps.bind (pushByte_keeps cap buf c) fun ⟨cap', buf'⟩ hbuf => ?_
        simp only at hbuf
        subst hbuf
        refine (stringLoop_reads t (j.advance 1) cap' _).mono ?_
        rintro r ⟨ps, s, rfl, rfl⟩
        refine ⟨.raw c hq hb :: ps, s, rfl, ?_⟩
        rw [advance_advance, List.append_assoc]
        change _ = (j.advance ((spelled ps).length + 1 + 1), _)
        rw [Nat.add_comm 1]
        rfl
      · exact hq
      · exact fun h => (hb h).elim
      · exact fun _ _ h => (hb h).elim

/-- What the string parser read when it returns. -/
theorem parseString_reads (j : Json) :
    Keeps (fun _ => True) Reported (parseString j) fun r => ∃ ws ps,
      (∀ c ∈ ws, isspace c = true) ∧ j.rest = ws ++ (quoted ps ++ r.1.rest) ∧
        r = (j.advance (ws.length + (quoted ps).length), CStr.ofBuffer (ps.map Piece.byte)) := by
  obtain ⟨ws, hws, -, hrest, hskip⟩ := skipWs_spec j
  unfold parseString
  simp only
  split
  · exact Keeps.fail trivial
  rename_i hpeek
  rw [not_not, peek_eq] at hpeek
  obtain ⟨t, ht⟩ := List.head?_eq_some_iff.mp hpeek
  refine Keeps.bind Keeps.allocOr fun _ _ => ?_
  refine Keeps.bind (stringLoop_reads _ _ 256 []) ?_
  rintro r ⟨ps, s, hs, rfl⟩
  rw [rest_advance, ht, List.drop_succ_cons, List.drop_zero] at hs
  have hquoted : j.rest = ws ++ (quoted ps ++ s) := by
    rw [hrest, ht, hs]
    unfold quoted
    rw [List.cons_append, List.append_assoc, List.singleton_append]
  have heq : (j.skipWs.advance 1).advance ((spelled ps).length + 1) =
      j.advance (ws.length + (quoted ps).length) := by
    rw [hskip, advance_advance, advance_advance, ← length_quoted]
  refine Keeps.pure ⟨ws, ps, hws, ?_, by rw [heq]; rfl⟩
  change j.rest = ws ++ (quoted ps ++ (((j.skipWs.advance 1).advance _).rest))
  rw [heq, ← List.append_assoc, rest_advance, hquoted, ← List.append_assoc, ← List.length_append,
    List.drop_left]

end Json

end Ipa
