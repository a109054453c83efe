import Mathlib.Data.List.Basic
import Mathlib.Tactic.Linarith

/-!
# Buffered output streams

What is written to a stream waits in its buffer until it is transferred to the file. A write may
take less than it is given and may transfer any part of what waits; closing transfers the rest, or
loses the end of it. How a call goes is an argument, so that statements can range over all failures.
-/

namespace Ipa

/-- A file opened for writing. -/
structure OutStream (α : Type) where
  file : List α
  buffer : List α

namespace OutStream

variable {α : Type}

/-- `fopen` in mode "w" empties the file. -/
def opened : OutStream α := ⟨[], []⟩

/-- `fwrite`, with its result: the last `short` elements are not taken, and the last `kept` of those
that wait stay in the buffer. -/
def fwrite (s : OutStream α) (data : List α) (short kept : Nat) : Nat × OutStream α :=
  let taken := data.take (data.length - short)
  let waiting := s.buffer ++ taken
  let out := waiting.length - kept
  (taken.length, ⟨s.file ++ waiting.take out, waiting.drop out⟩)

/-- The file after `fclose`, which does not transfer the last `lost` elements of the buffer. -/
def fclose (s : OutStream α) (lost : Nat) : List α :=
  s.file ++ s.buffer.take (s.buffer.length - lost)

variable (s : OutStream α) (data : List α) (short kept lost : Nat)

theorem fwrite_count : (s.fwrite data short kept).1 = data.length - short := by
  simp [fwrite]

/-- What was taken is in the file or in the buffer. -/
theorem fwrite_stored : (s.fwrite data short kept).2.file ++ (s.fwrite data short kept).2.buffer =
    s.file ++ s.buffer ++ data.take (data.length - short) := by
  simp [fwrite]

theorem fwrite_buffer_length : (s.fwrite data short kept).2.buffer.length =
    min kept (s.buffer.length + (data.length - short)) := by
  simp only [fwrite, List.length_drop, List.length_append, List.length_take]
  omega

/-- Closing stores everything, unless it loses a part of a buffer that is not empty. -/
theorem fclose_eq_iff : s.fclose lost = s.file ++ s.buffer ↔ lost = 0 ∨ s.buffer = [] := by
  unfold fclose
  rw [List.append_right_inj]
  constructor
  · intro htake
    have hlength := congrArg List.length htake
    rw [List.length_take] at hlength
    by_cases hlost : lost = 0
    · exact .inl hlost
    · exact .inr (List.length_eq_zero_iff.mp (by omega))
  · rintro (rfl | hempty)
    · rw [Nat.sub_zero, List.take_length]
    · rw [hempty, List.take_nil]

end OutStream

end Ipa
