import Ipa.Cli.Print
import Ipa.Schema.Output
import Mathlib.Data.List.DropRight

/-!
# The command line program

`main` with what it takes from its environment: the arguments, the variable `KC_IPA_SCHEMA`, what
`fread` finds on standard input, and the files by path. What it leaves is the status, the bytes on
the two output streams and the files. Of standard error only what `main` itself writes is kept, and
releasing memory has no effect.
-/

namespace Ipa.Cli

open Run

/-! ## Options -/

/-- What the loop over the arguments has collected. -/
structure Options where
  schemaPath : Option CStr
  textArg : Option CStr
  buildMode : Bool
  posCount : Nat
deriving DecidableEq

/-- What the arguments ask for. -/
inductive Command
  | help
  | version
  | unknown (arg : CStr)
  | run (opts : Options)
deriving DecidableEq

section Options

variable {ε : Type}

/-- The path in the default options once the environment is loaded; `var` is the variable
`KC_IPA_SCHEMA`. -/
def optionsLoadEnv (var : Option CStr) : Run ε (Option CStr) :=
  match var with
  | none => pure none
  | some val => strdup val

/-- The loop over the arguments behind the name of the program. -/
def parseArgs : List CStr → Options → Run ε Command
  | [], opts => pure (.run opts)
  | arg :: rest, opts =>
    if arg = .ofString "-h" ∨ arg = .ofString "--help" then pure .help
    else if arg = .ofString "-v" ∨ arg = .ofString "--version" then pure .version
    else if arg = .ofString "-b" ∨ arg = .ofString "--build" then
      parseArgs rest { opts with buildMode := true }
    else if arg.bytes.head? ≠ some 0x2D then
      if opts.posCount = 0 then do
        let schemaPath ← strdup arg
        parseArgs rest { opts with schemaPath, posCount := opts.posCount + 1 }
      else if opts.posCount = 1 then
        parseArgs rest { opts with textArg := some arg, posCount := opts.posCount + 1 }
      else parseArgs rest opts
    else pure (.unknown arg)

end Options

/-! ## Standard input -/

/-- What the calls of `fread` return before the one that returns nothing, and whether that one met
an error. -/
structure Stdin where
  chunks : List (List UInt8)
  failed : Bool
  sizes : ∀ chunk ∈ chunks, 0 < chunk.length ∧ chunk.length ≤ 4096

def Stdin.empty : Stdin := ⟨[], false, by simp⟩

/-- The capacity that has room for a chunk of `n` bytes and a NUL. -/
def readGrow (host : Host) (buf : Buffer) (n : Nat) : Run Unit Nat :=
  let needed := host.size (buf.data.length + n + 1)
  if needed ≤ buf.capacity then pure buf.capacity
  else
    match Buffer.doubleTo host needed host.width.bits
      (if buf.capacity = 0 then 4096 else host.size (buf.capacity * 2)) with
    | none => fault .fuel
    | some next => do
      allocOr ()
      pure next

/-- The buffer with a chunk behind its data. -/
def readChunk (host : Host) (buf : Buffer) (chunk : List UInt8) : Run Unit Buffer := do
  let capacity ← readGrow host buf chunk.length
  if capacity < buf.data.length + chunk.length then fault .index
  else pure ⟨buf.data ++ chunk, capacity⟩

/-- A line feed or a carriage return. -/
def isNewline (c : UInt8) : Bool := c = 0x0A ∨ c = 0x0D

/-- `none` is a text that stays `NULL`; the error is the return of -1. -/
def readStdin (host : Host) (stdin : Stdin) : Run Unit (Option CStr) := do
  let buf ← stdin.chunks.foldlM (readChunk host) ⟨[], 0⟩
  if stdin.failed then fail ()
  else if buf.data.length = 0 then pure none
  else
    let data := buf.data.rdropWhile isNewline
    if buf.capacity ≤ data.length then fault .index
    else pure (some (.ofBuffer data))

/-! ## Files -/

/-- The files by path, and how reading, writing and mapping the file of a path goes. -/
structure Disk where
  content : CStr → Option (List UInt8)
  seeks : CStr → Bool
  tells : CStr → Bool
  short : CStr → Nat
  output : CStr → OutputFile
  maps : CStr → Bool

def Disk.input (disk : Disk) (path : CStr) : InputFile :=
  ⟨disk.content path, disk.seeks path, disk.tells path, disk.short path⟩

/-- The disk with another content of one file. -/
def Disk.store (disk : Disk) (path : CStr) (content : Option (List UInt8)) : Disk :=
  { disk with content := fun p => if p = path then content else disk.content p }

def append (s t : CStr) : CStr :=
  ⟨s.bytes ++ t.bytes, fun h => (List.mem_append.mp h).elim s.nulFree t.nulFree⟩

/-- The path of the image: `.ipa` in the place of `.json`, or behind the path. -/
def outPath (path : CStr) : CStr :=
  let plen := path.strlen
  if 5 < plen ∧ path.bytes.drop (plen - 5) = ascii ".json" then
    append (path.slice 0 (plen - 5)) (.ofString ".ipa")
  else append path (.ofString ".ipa")

/-! ## The program -/

/-- What a run leaves. -/
structure Outcome where
  status : Nat
  out : List UInt8
  err : List UInt8
  disk : Disk

def printHelp (name : CStr) : List UInt8 :=
  ascii "Usage: " ++ name.bytes ++ ascii " <schema.ipa> [text]          Parse mode\n" ++
    ascii "       " ++ name.bytes ++ ascii " <schema.json> -b              Build mode\n" ++
    ascii "\n" ++
    ascii "Options:\n" ++
    ascii "    -b, --build         Compile schema.json into schema.ipa\n" ++
    ascii "    -h, --help          Show this help\n" ++
    ascii "    -v, --version       Show version\n"

def printVersion : List UInt8 := ascii "ipa 1.1.0\n"

section Program

variable [Arith] (formatScore : Binary32 → List UInt8) (sys : System) (disk : Disk)

/-- `kc_ipa_build`, with the disk it leaves. -/
def build (path output : CStr) : Run Empty (Rc × Disk) := do
  match ← catching (compileFile sys.host sys.emb (disk.input path)) with
  | .error err => pure (err.rc, disk)
  | .ok image =>
    let (rc, content) := writeImage (disk.output output) image (disk.content output)
    pure (rc, disk.store output content)

def runBuild (path : CStr) : Run Empty Outcome := do
  if ← alloc then
    let (rc, disk) ← build sys disk path (outPath path)
    match rc with
    | .eformat => pure ⟨2, [], ascii "ipa: invalid schema: " ++ path.bytes ++ ascii "\n", disk⟩
    | .error => pure ⟨2, [], ascii "ipa: build failed: " ++ path.bytes ++ ascii "\n", disk⟩
    | .ok => pure ⟨0, [], [], disk⟩
  else pure ⟨1, [], ascii "ipa: out of memory\n", disk⟩

/-- `kc_ipa_open` on a path; a file that is not there is not mapped. -/
def openPath (path : CStr) : Run OpenError Schema :=
  match if disk.maps path then disk.content path else none with
  | some file => openSchema sys file
  | none => do
    allocOr .noMemory
    allocOr .noMemory
    fail .cannotOpen

/-- From an input that is not empty on. -/
def runText (path text : CStr) : Run Empty Outcome := do
  match ← catching (openPath sys disk path) with
  | .error _ =>
    pure ⟨1, [], ascii "ipa: failed to open schema: " ++ path.bytes ++ ascii "\n", disk⟩
  | .ok s =>
    match ← catching (parse sys.host s text) with
    | .error () => pure ⟨1, [], ascii "ipa: parse failed (rc=-1)\n", disk⟩
    | .ok result => pure ⟨0, printResult formatScore result, [], disk⟩

/-- The text argument, or without one what is read from standard input. -/
def inputText (host : Host) (textArg : Option CStr) (stdin : Stdin) : Run Unit (Option CStr) :=
  match textArg with
  | some text => pure (some text)
  | none => readStdin host stdin

def runParse (path : CStr) (textArg : Option CStr) (stdin : Stdin) : Run Empty Outcome := do
  match ← catching (inputText sys.host textArg stdin) with
  | .error () => pure ⟨1, [], ascii "ipa: failed to read stdin\n", disk⟩
  | .ok none => pure ⟨0, [], [], disk⟩
  | .ok (some text) =>
    if text.bytes = [] then pure ⟨0, [], [], disk⟩ else runText formatScore sys disk path text

/-- What is done once the arguments are read. -/
def runCommand (stdin : Stdin) (name : CStr) : Command → Run Empty Outcome
  | .help => pure ⟨0, printHelp name, [], disk⟩
  | .version => pure ⟨0, printVersion, [], disk⟩
  | .unknown arg =>
    pure ⟨1, [], ascii "ipa: unknown option '" ++ arg.bytes ++ ascii "'\n", disk⟩
  | .run opts =>
    match opts.schemaPath with
    | none => pure ⟨1, printHelp name, [], disk⟩
    | some path =>
      if opts.buildMode then runBuild sys disk path
      else runParse formatScore sys disk path opts.textArg stdin

/-- The program `name` with these arguments. -/
def main (var : Option CStr) (stdin : Stdin) (name : CStr) (args : List CStr) :
    Run Empty Outcome := do
  let schemaPath ← optionsLoadEnv var
  let command ← parseArgs args ⟨schemaPath, none, false, 0⟩
  runCommand formatScore sys disk stdin name command

end Program

end Ipa.Cli
