import Ipa.Cli.Main
import Ipa.Runtime.Emits

/-!
# What the program is asked for

The loop over the arguments and the one that reads standard input, where no allocation fails. The
first argument that asks for the help or the version, or that is not known, decides; without one the
first two arguments that are no options are the schema and the text, wherever `-b` stands. The text
on standard input is what was read, without the line ends behind it, up to a NUL.
-/

namespace Ipa.Cli

open Run

/-! ## Arguments -/

/-- What an argument asks for that ends the loop. -/
def deciding (arg : CStr) : Option Command :=
  if arg = .ofString "-h" ∨ arg = .ofString "--help" then some .help
  else if arg = .ofString "-v" ∨ arg = .ofString "--version" then some .version
  else if arg = .ofString "-b" ∨ arg = .ofString "--build" then none
  else if arg.bytes.head? ≠ some 0x2D then none
  else some (.unknown arg)

/-- An argument that does not start with a dash. -/
def isPositional (arg : CStr) : Bool := arg.bytes.head? ≠ some 0x2D

def isBuild (arg : CStr) : Bool := arg = .ofString "-b" ∨ arg = .ofString "--build"

/-- What the arguments ask for behind others. -/
def commandBehind (opts : Options) (args : List CStr) : Command :=
  let found := args.filter isPositional
  (args.findSome? deciding).getD (.run {
    schemaPath := if opts.posCount = 0 then found.head?.or opts.schemaPath else opts.schemaPath
    textArg := if opts.posCount < 2 then found[1 - opts.posCount]?.or opts.textArg else opts.textArg
    buildMode := opts.buildMode || args.any isBuild
    posCount := min 2 (opts.posCount + found.length) })

/-- What the arguments of a program ask for, with the path from its environment. -/
def commandOf (var : Option CStr) (args : List CStr) : Command :=
  commandBehind ⟨var, none, false, 0⟩ args

theorem commandBehind_deciding {arg : CStr} {command : Command} (h : deciding arg = some command)
    (opts : Options) (rest : List CStr) : commandBehind opts (arg :: rest) = command := by
  rw [commandBehind, List.findSome?_cons, h]
  rfl

theorem deciding_build {arg : CStr} (h : arg = .ofString "-b" ∨ arg = .ofString "--build") :
    deciding arg = none ∧ isPositional arg = false ∧ isBuild arg = true := by
  rcases h with rfl | rfl <;> decide +kernel

section Arguments

variable {ε : Type} {X : Stop ε → Prop}

theorem strdup_served (text : CStr) : Keeps Quiet X (strdup text) (· = some text) :=
  (strdup_keeps Keeps.alloc_served text).mono fun _ hcopy => hcopy.resolve_right fun h => h.2

theorem parseArgs_keeps : ∀ (args : List CStr) (opts : Options), opts.posCount ≤ 2 →
    Keeps Quiet X (parseArgs args opts : Run ε Command) (· = commandBehind opts args)
  | [], opts, hcount => by
    refine Keeps.pure ?_
    obtain ⟨path, text, mode, count⟩ := opts
    simp only [commandBehind, List.filter_nil, List.findSome?_nil, Option.getD_none,
      List.head?_nil, Option.none_or, ite_self, List.getElem?_nil, List.any_nil, Bool.or_false,
      List.length_nil, Nat.add_zero]
    rw [Nat.min_eq_right hcount]
  | arg :: rest, opts, hcount => by
    unfold parseArgs
    split
    · rename_i hhelp
      exact Keeps.pure (commandBehind_deciding (if_pos hhelp) opts rest).symm
    rename_i hhelp
    split
    · rename_i hversion
      refine Keeps.pure (commandBehind_deciding ?_ opts rest).symm
      rw [deciding, if_neg hhelp, if_pos hversion]
    rename_i hversion
    split
    · rename_i hbuild
      refine (parseArgs_keeps rest { opts with buildMode := true } hcount).mono
        fun command hcommand => ?_
      obtain ⟨hdecides, hpositional, hbuilds⟩ := deciding_build hbuild
      rw [hcommand, commandBehind, commandBehind, List.findSome?_cons, hdecides, List.filter_cons,
        hpositional, List.any_cons, hbuilds]
      simp
    rename_i hbuild
    have hbuilds : isBuild arg = false := by simpa [isBuild] using hbuild
    split
    · rename_i hpositional
      have hdecides : deciding arg = none := by
        rw [deciding, if_neg hhelp, if_neg hversion, if_neg hbuild, if_pos hpositional]
      have htaken : isPositional arg = true := by simpa [isPositional] using hpositional
      split
      · rename_i hzero
        refine Keeps.bind (strdup_served arg) fun copy hcopy => ?_
        obtain rfl : copy = some arg := hcopy
        refine (parseArgs_keeps rest { opts with schemaPath := some arg, posCount := opts.posCount + 1 }
          (by simp only; omega)).mono fun command hcommand => ?_
        rw [hcommand, commandBehind, commandBehind, List.findSome?_cons, hdecides, List.filter_cons,
          htaken, List.any_cons, hbuilds]
        simp [hzero, Nat.add_comm]
      rename_i hsome
      split
      · rename_i hone
        refine (parseArgs_keeps rest { opts with textArg := some arg, posCount := opts.posCount + 1 }
          (by simp only; omega)).mono fun command hcommand => ?_
        rw [hcommand, commandBehind, commandBehind, List.findSome?_cons, hdecides, List.filter_cons,
          htaken, List.any_cons, hbuilds]
        have hfull : ∀ n, min 2 (1 + (n + 1)) = 2 := by omega
        simp [hone, hfull]
      · rename_i hmore
        have htwo : opts.posCount = 2 := by omega
        refine (parseArgs_keeps rest _ hcount).mono fun command hcommand => ?_
        rw [hcommand, commandBehind, commandBehind, List.findSome?_cons, hdecides, List.filter_cons,
          htaken, List.any_cons, hbuilds]
        simp [htwo]
    · rename_i hoption
      refine Keeps.pure (commandBehind_deciding ?_ opts rest).symm
      rw [deciding, if_neg hhelp, if_neg hversion, if_neg hbuild, if_neg hoption]

end Arguments

/-! ## Standard input -/

/-- What was read. -/
def Stdin.content (stdin : Stdin) : List UInt8 := stdin.chunks.flatten

/-- The text on standard input, unless there is nothing. -/
def Stdin.text (stdin : Stdin) : Option CStr :=
  if stdin.content = [] then none else some (.ofBuffer (stdin.content.rdropWhile isNewline))

/-- The buffer holds what was read, and once it is allocated a NUL fits behind it. -/
structure Reading (host : Host) (content : List UInt8) (buf : Buffer) : Prop where
  data : buf.data = content
  room : content ≠ [] → content.length < buf.capacity
  capacity : buf.capacity = 0 ∨ ∃ k, k < host.width.bits ∧ buf.capacity = 2 ^ k

section Stdin

variable {host : Host} {I : Env → Prop} {X : Stop Unit → Prop} [Serves I X ()]

theorem readGrow_keeps {content : List UInt8} {n : Nat} {buf : Buffer}
    (h : Reading host content buf) (hroom : 2 * (content.length + n + 1) ≤ host.sizeMod) :
    Keeps I X (readGrow host buf n) fun capacity => content.length + n < capacity ∧
      (capacity = 0 ∨ ∃ k, k < host.width.bits ∧ capacity = 2 ^ k) := by
  have hsize : host.size (content.length + n + 1) = content.length + n + 1 :=
    Host.size_of_lt (by have := host.two_pow_32_le_sizeMod; omega)
  unfold readGrow
  simp only [h.data, hsize]
  by_cases hle : content.length + n + 1 ≤ buf.capacity
  · rw [if_pos hle]
    exact Keeps.pure ⟨hle, h.capacity⟩
  rw [if_neg hle]
  -- the first size, or twice the old one, is a power of two
  obtain ⟨k, hk, hnext⟩ : ∃ k, k < host.width.bits ∧
      (if buf.capacity = 0 then 4096 else host.size (buf.capacity * 2)) = 2 ^ k := by
    rcases h.capacity with hzero | ⟨k, hk, hcap⟩
    · refine ⟨12, ?_, by rw [if_pos hzero]; rfl⟩
      cases host.width <;> decide
    · rw [hcap] at hle ⊢
      have hnext := Buffer.two_pow_next hk (Nat.lt_of_not_le hle) hroom
      refine ⟨k + 1, hnext, ?_⟩
      rw [if_neg (Nat.two_pow_pos k).ne', ← Nat.pow_succ,
        Host.size_of_lt (Nat.pow_lt_pow_right (by decide) hnext)]
  rw [hnext]
  cases hdouble : Buffer.doubleTo host (content.length + n + 1) host.width.bits (2 ^ k) with
  | none =>
    have := @Buffer.doubleTo_isSome _ _ hroom host.width.bits _ hk (by omega)
    rw [hdouble] at this
    cases this
  | some next =>
    obtain ⟨hge, hpower⟩ := Buffer.doubleTo_some (Nat.succ_pos _) (.inr ⟨k, hk, rfl⟩) hdouble
    exact Keeps.bind Keeps.allocOr fun _ _ => Keeps.pure ⟨hge, .inr hpower⟩

/-- A chunk is appended in bounds. -/
theorem readChunk_keeps {content chunk : List UInt8} {buf : Buffer} (h : Reading host content buf)
    (hroom : 2 * (content.length + chunk.length + 1) ≤ host.sizeMod) :
    Keeps I X (readChunk host buf chunk) (Reading host (content ++ chunk)) := by
  unfold readChunk
  refine Keeps.bind (readGrow_keeps h hroom) fun capacity hcapacity => ?_
  obtain ⟨hlt, hpower⟩ := hcapacity
  rw [h.data, if_neg (Nat.not_lt.mpr hlt.le)]
  refine Keeps.pure ⟨rfl, fun _ => ?_, hpower⟩
  rw [List.length_append]
  exact hlt

/-- **Standard input** is read in bounds; it fails where the stream does. -/
theorem readStdin_keeps {stdin : Stdin} (hroom : 2 * (stdin.content.length + 1) ≤ host.sizeMod)
    (hfailed : stdin.failed = true → X (.fail ())) :
    Keeps I X (readStdin host stdin) (· = stdin.text) := by
  unfold readStdin
  refine Keeps.bind (Keeps.foldlM_split (fun done buf => Reading host done.flatten buf)
    ⟨rfl, fun h => absurd rfl h, .inl rfl⟩ fun done chunk rest buf hsplit hbuf => ?_)
      fun buf hbuf => ?_
  · rw [List.flatten_append, List.flatten_singleton]
    refine readChunk_keeps hbuf ?_
    have hlength := congrArg List.length (congrArg List.flatten hsplit)
    rw [List.flatten_append, List.flatten_cons, List.length_append, List.length_append] at hlength
    change stdin.content.length = _ at hlength
    omega
  · have hdata : buf.data = stdin.content := hbuf.data
    by_cases hbad : stdin.failed = true
    · rw [if_pos hbad]
      exact Keeps.fail (hfailed hbad)
    rw [if_neg hbad, hdata]
    unfold Stdin.text
    by_cases hempty : stdin.content = []
    · rw [if_pos hempty, if_pos (List.length_eq_zero_iff.mpr hempty)]
      exact Keeps.pure rfl
    · rw [if_neg hempty, if_neg (mt List.length_eq_zero_iff.mp hempty)]
      have hlt := hbuf.room hempty
      have hle := (List.rdropWhile_prefix isNewline (l := stdin.content)).length_le
      change stdin.content.length < _ at hlt
      rw [if_neg (by omega)]
      exact Keeps.pure rfl

end Stdin

end Ipa.Cli
