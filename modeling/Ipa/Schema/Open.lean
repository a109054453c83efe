import Ipa.Schema.Build
import Ipa.Hnsw.Index

/-!
# Opening a schema

`openSchema` maps a file, checks its header and builds the two indexes over it. A pointer into
the mapping is an offset. Every dereference of an embedding entry and every string read through a
stored offset is recorded: whether a run stays in the mapping is a question about its log, and what a
read outside of it gives is a stand-in.
-/

namespace Ipa

open Run

/-- What a process takes from its surroundings: the target, the embedding model that
`kc_emb_open` gives, `HNSW_EF_SEARCH`, and the seeds of the two indexes. -/
structure System where
  host : Host
  emb : Option Emb
  efSearch : Option Int
  nodeSeed : UInt64
  childSeed : UInt64

/-- The reasons for which a file is not opened; the code is the same for all. -/
inductive OpenError
  | noMemory
  | cannotOpen
  | fileTooSmall
  | invalidMagic
  | unsupportedVersion (version : UInt32)
  | fileSizeMismatch
  | corruptStrtab
  | embOpen
  | embDimMismatch
  | nodeIndex
  | childIndex
  | corruptNodeMeta
  | corruptChildMeta
deriving DecidableEq, Repr

structure RuntimeIndex where
  nodeHnsw : Hnsw.Index
  childHnsw : Option Hnsw.Index
  nodeMeta : Nat
  nodeMetaCount : Nat
  childMeta : Nat
  childMetaCount : Nat

/-- An open schema; `strtab` and the tables of `index` are offsets into `mem`. -/
structure Schema where
  mem : List UInt8
  emb : Emb
  nodeThreshold : Binary32
  minNgram : Int32
  maxNgram : Int32
  strtab : Nat
  index : RuntimeIndex

/-- The string at an offset of the string table. -/
def readText {ε : Type} (mem : List UInt8) (strtab : Nat) (off : UInt32) : Run ε CStr := do
  touch (.text (strtab + off.toNat))
  pure (CStr.read mem (strtab + off.toNat))

/-- The sum is one of 64-bit integers. -/
def boundsOk (baseSize : Nat) (off : UInt32) (len : Nat) : Bool :=
  decide ((off.toNat + len) % 2 ^ 64 ≤ baseSize)

section Open

variable [Arith] (host : Host)

/-- `sizeof(kc_ipa_emb_hdr_t) + (size_t)emb_dim * sizeof(float)`. -/
def entryStride (embDim : Nat) : Nat := host.size (embHdrSize + host.size (embDim * 4))

def entryOffset (embOff embDim i : Nat) : Nat :=
  host.size (embOff + host.size (i * entryStride host embDim))

/-- One turn of the loop over the entries; `none` is a failure. -/
def addEntry (mem : List UInt8) (embOff embDim strtab : Nat) (hnsw : Hnsw.Index) (i : Nat) :
    Run Hnsw.Status Hnsw.Index := do
  let entryOff := entryOffset host embOff embDim i
  if !boundsOk mem.length (UInt32.ofNat entryOff) (entryStride host embDim) then fail .einval
  else
    touch (.block entryOff (embHdrSize + host.size (embDim * 4)))
    let eh := EmbHdr.read host.order mem entryOff
    if !boundsOk mem.length eh.labelOff (host.size (eh.labelLen.toNat + 1)) then fail .einval
    else
      let label ← readText mem strtab eh.labelOff
      let vec := readVector host.order mem (entryOff + embHdrSize) embDim
      Hnsw.add host hnsw label vec

/-- The index with the entries of a block, before it is built. -/
def fillHnsw (mem : List UInt8) (embOff embCount embDim strtab : Nat) (efSearch : Option Int)
    (seed : UInt64) : Run Hnsw.Status Hnsw.Index := do
  let hnsw ← Hnsw.hnswOpen embDim .cosine efSearch seed
  if embCount = 0 then pure hnsw
  else
    let hnsw ← Hnsw.reserve host hnsw embCount
    (List.range embCount).foldlM (addEntry host mem embOff embDim strtab) hnsw

def buildHnsw (mem : List UInt8) (embOff embCount embDim strtab : Nat) (efSearch : Option Int)
    (seed : UInt64) : Run Hnsw.Status Hnsw.Index := do
  let hnsw ← fillHnsw host mem embOff embCount embDim strtab efSearch seed
  if embCount = 0 then pure hnsw else Hnsw.build hnsw

/-- A `NULL` index is reported as `err`. -/
def indexOr (err : OpenError) (x : Run Hnsw.Status Hnsw.Index) : Run OpenError Hnsw.Index := do
  match ← catching x with
  | .ok hnsw => pure hnsw
  | .error _ => fail err

end Open

section Schema

variable [Arith]

/-- The checks on the mapped bytes that come before the embedding model is opened. -/
def checkHeader (host : Host) (mem : List UInt8) : Except OpenError FileHdr :=
  if mem.length < fileHdrSize then .error .fileTooSmall
  else if mem.take 4 ≠ magic then .error .invalidMagic
  else
    let hdr := FileHdr.read host.order mem
    if hdr.version ≠ 1 then .error (.unsupportedVersion hdr.version)
    else if hdr.fileSize ≠ UInt32.ofNat mem.length then .error .fileSizeMismatch
    else if !boundsOk mem.length hdr.strtabOff hdr.strtabSize.toNat then .error .corruptStrtab
    else .ok hdr

/-- The bounds check of a table of `count` rows of `size` bytes. -/
def tableOk (host : Host) (mem : List UInt8) (off count : UInt32) (size : Nat) : Bool :=
  boundsOk mem.length off (host.size (count.toNat * size))

/-- What follows the header checks. -/
def openMapped (sys : System) (mem : List UInt8) (hdr : FileHdr) : Run OpenError Schema := do
  let host := sys.host
  match sys.emb with
  | none => fail .embOpen
  | some emb =>
    if emb.dim ≤ 0 ∨ UInt32.ofNat emb.dim.toNat ≠ hdr.embDim then fail .embDimMismatch
    else
      let dim := hdr.embDim.toNat
      let strtab := hdr.strtabOff.toNat
      let nodeHnsw ← indexOr .nodeIndex (buildHnsw host mem hdr.nodeEmbOff.toNat
        hdr.nodeEmbCount.toNat dim strtab sys.efSearch sys.nodeSeed)
      let childHnsw ←
        if 0 < hdr.childEmbCount then do
          let hnsw ← indexOr .childIndex (buildHnsw host mem hdr.childEmbOff.toNat
            hdr.childEmbCount.toNat dim strtab sys.efSearch sys.childSeed)
          pure (some hnsw)
        else pure none
      if 0 < hdr.nodeMetaCount ∧
          !tableOk host mem hdr.nodeMetaOff hdr.nodeMetaCount nodeMetaSize then
        fail .corruptNodeMeta
      else if 0 < hdr.childMetaCount ∧
          !tableOk host mem hdr.childMetaOff hdr.childMetaCount childMetaSize then
        fail .corruptChildMeta
      else
        pure {
          mem, emb, strtab
          nodeThreshold := hdr.nodeThreshold
          minNgram := hdr.minNgram.toInt32
          maxNgram := hdr.maxNgram.toInt32
          index := {
            nodeHnsw, childHnsw
            nodeMeta := if 0 < hdr.nodeMetaCount then hdr.nodeMetaOff.toNat else 0
            nodeMetaCount := hdr.nodeMetaCount.toNat
            childMeta := if 0 < hdr.childMetaCount then hdr.childMetaOff.toNat else 0
            childMetaCount := hdr.childMetaCount.toNat } }

/-- The mapping of a file: its size is a `size_t`. -/
def mapping (host : Host) (file : List UInt8) : List UInt8 := file.take (host.size file.length)

def openSchema (sys : System) (file : List UInt8) : Run OpenError Schema := do
  allocOr .noMemory
  allocOr .noMemory
  let mem := mapping sys.host file
  -- a mapping of no bytes is refused, an empty file is not mapped
  if file.length ≠ 0 ∧ mem.length = 0 then fail .cannotOpen
  else
    match checkHeader sys.host mem with
    | .error err => fail err
    | .ok hdr => openMapped sys mem hdr

end Schema

end Ipa
