import Ipa.Manifest.Json
import Ipa.Schema.Format
import Ipa.Lib.Buffer

/-!
# The compiler

`build` takes the text of a manifest to the bytes of the `.ipa` image that it hands to `fwrite`:
parse, validate, then the passes over the nodes that collect the labels and the strings of the
metadata, and those that write the embeddings and the rows. Opening and reading the input, and
writing the output, are not part of it.
-/

namespace Ipa

open Run

/-- The embedding model behind an open context. -/
structure Emb where
  dim : Int
  dim_lt : dim < 2 ^ 31
  exec : CStr → Option (List Binary32)
  exec_length : ∀ text v, exec text = some v → v.length = dim.toNat

/-- What ends a build without an image. -/
inductive BuildError
  | noMemory
  | emptyFile
  | json (err : JsonError)
  | manifest (err : ManifestError)
  | embOpen
  | embDim (dim : Int)
  | embedding (text : Option CStr)
deriving DecidableEq

inductive Rc
  | ok
  | error
  | eformat
deriving DecidableEq, Repr

/-- The code that `kc_ipa_build` returns for an error. -/
def BuildError.rc : BuildError → Rc
  | emptyFile => .eformat
  | json _ => .eformat
  | manifest _ => .eformat
  | _ => .error

/-- `kc_emb_exec` into a buffer of `outSize` floats; `none` is `KC_EMB_ERROR`. -/
def embExec {ε : Type} (emb : Emb) (input : Option CStr) (outSize : Nat) :
    Run ε (Option (List Binary32)) :=
  match input with
  | none => pure none
  | some text =>
    match emb.exec text with
    | none => pure none
    | some v => if outSize < v.length then fault .index else pure (some v)

theorem embExec_keeps {ε : Type} {emb : Emb} {I : Env → Prop} {X : Stop ε → Prop}
    {description : Option CStr} {outSize : Nat}
    (hout : outSize < emb.dim.toNat → X (.fault .index)) :
    Keeps I X (embExec emb description outSize) fun r =>
      r = description.bind emb.exec ∧ ∀ v, r = some v → v.length ≤ outSize := by
  unfold embExec
  split
  · exact Keeps.pure ⟨rfl, fun v hv => by cases hv⟩
  · rename_i text
    split
    · rename_i hnone
      exact Keeps.pure ⟨hnone.symm, fun v hv => by cases hv⟩
    · rename_i v hv
      split
      · rename_i hlt
        exact Keeps.fault (hout (emb.exec_length text v hv ▸ hlt))
      · refine Keeps.pure ⟨hv.symm, fun v' hv' => ?_⟩
        cases hv'
        omega

/-! ## The string table and the write buffer -/

structure StrRef where
  off : UInt32
  len : UInt32
deriving DecidableEq, Repr, Inhabited

def strtabInit : Run BuildError Buffer := do
  allocOr .noMemory
  pure ⟨[], 65536⟩

/-- Append a string and its terminator. -/
def strtabAdd (host : Host) (st : Buffer) (str : Option CStr) : Run BuildError (StrRef × Buffer) := do
  let s ← deref str
  let st' ← Buffer.append host .noMemory st (s.bytes ++ [0])
  pure (⟨UInt32.ofNat st.data.length, UInt32.ofNat s.strlen⟩, st')

def wbufInit : Run BuildError Buffer := do
  allocOr .noMemory
  pure ⟨[], 131072⟩

def wbufAppend (host : Host) (w : Buffer) (src : List UInt8) : Run BuildError Buffer :=
  Buffer.append host .noMemory w src

/-! ## The pass over the labels -/

structure Labels where
  strtab : Buffer
  nodeEmbLabel : List StrRef
  childEmbLabel : List StrRef
  childParentId : List StrRef

def labelDescription (host : Host) (nd : NodeDef) (st : Labels) : Run BuildError Labels := do
  let (ref, strtab) ← strtabAdd host st.strtab nd.id
  pure { st with strtab, nodeEmbLabel := st.nodeEmbLabel ++ [ref] }

def labelChildDescription (host : Host) (nd ch : NodeDef) (st : Labels) : Run BuildError Labels := do
  let (ref, strtab) ← strtabAdd host st.strtab ch.id
  let (parent, strtab) ← strtabAdd host strtab nd.id
  pure { st with
    strtab
    childEmbLabel := st.childEmbLabel ++ [ref]
    childParentId := st.childParentId ++ [parent] }

def labelNode (host : Host) (st : Labels) (nd : NodeDef) : Run BuildError Labels := do
  let st ← nd.descriptions.foldlM (fun st _ => labelDescription host nd st) st
  nd.children.foldlM (fun st ch =>
    ch.descriptions.foldlM (fun st _ => labelChildDescription host nd ch st) st) st

/-! ## The pass over the metadata strings -/

/-- The rows a node gets: one for each emit pair, or a single one without. -/
def emitSlots (nd : NodeDef) : List (Option EmitDef) :=
  if nd.emits.isEmpty then [none] else nd.emits.map some

theorem emitSlots_ne_nil (nd : NodeDef) : emitSlots nd ≠ [] := by
  unfold emitSlots
  split
  · exact List.cons_ne_nil _ _
  · rename_i hempty
    exact fun hnil => hempty (List.isEmpty_iff.mpr (List.map_eq_nil_iff.mp hnil))

structure Metas where
  strtab : Buffer
  nodeMeta : List NodeMeta
  childMeta : List ChildMeta

/-- The references of the key and the value of a row. -/
def addEmit (host : Host) (st : Buffer) :
    Option EmitDef → Run BuildError (StrRef × StrRef × Buffer)
  | none => pure (⟨0, 0⟩, ⟨0, 0⟩, st)
  | some emit => do
    let (key, st) ← strtabAdd host st emit.key
    let (val, st) ← strtabAdd host st emit.value
    pure (key, val, st)

def addNodeRow (host : Host) (nd : NodeDef) (st : Metas) (slot : Option EmitDef) :
    Run BuildError Metas := do
  let (nid, strtab) ← strtabAdd host st.strtab nd.id
  let (key, val, strtab) ← addEmit host strtab slot
  let row : NodeMeta :=
    ⟨nid.off, nid.len, key.off, key.len, val.off, val.len, if nd.children.length > 0 then 1 else 0⟩
  pure { st with strtab, nodeMeta := st.nodeMeta ++ [row] }

def addChildRow (host : Host) (nd ch : NodeDef) (st : Metas) (slot : Option EmitDef) :
    Run BuildError Metas := do
  let (pid, strtab) ← strtabAdd host st.strtab nd.id
  let (cid, strtab) ← strtabAdd host strtab ch.id
  let (key, val, strtab) ← addEmit host strtab slot
  let row : ChildMeta :=
    ⟨pid.off, pid.len, cid.off, cid.len, key.off, key.len, val.off, val.len⟩
  pure { st with strtab, childMeta := st.childMeta ++ [row] }

def metaNode (host : Host) (st : Metas) (nd : NodeDef) : Run BuildError Metas := do
  let st ← (emitSlots nd).foldlM (addNodeRow host nd) st
  nd.children.foldlM (fun st ch => (emitSlots ch).foldlM (addChildRow host nd ch) st) st

/-! ## The passes that write -/

/-- The write buffer and the index of the next label or row. -/
structure Writing where
  buf : Buffer
  next : Nat

/-- One embedding entry: the vector of a description behind its label. -/
def writeEmb (host : Host) (emb : Emb) (labels : List StrRef) (st : Writing)
    (description : Option CStr) : Run BuildError Writing := do
  let vecBytes := host.size (emb.dim.toNat * 4)
  match ← embExec emb description (vecBytes / 4) with
  | none => fail (.embedding description)
  | some v =>
    match labels[st.next]? with
    | none => fault .index
    | some label =>
      let eh : EmbHdr := ⟨label.off, label.len⟩
      let buf ← wbufAppend host st.buf (host.order.encode eh.words)
      let buf ← wbufAppend host buf ((host.order.encode (vectorWords v)).take vecBytes)
      pure ⟨buf, st.next + 1⟩

def writeNodeEmbs (host : Host) (emb : Emb) (labels : List StrRef) (nodes : List NodeDef)
    (buf : Buffer) : Run BuildError Buffer := do
  let st ← nodes.foldlM (fun st nd => nd.descriptions.foldlM (writeEmb host emb labels) st) ⟨buf, 0⟩
  pure st.buf

def writeChildEmbs (host : Host) (emb : Emb) (labels : List StrRef) (nodes : List NodeDef)
    (buf : Buffer) : Run BuildError Buffer := do
  let st ← nodes.foldlM (fun st nd => nd.children.foldlM (fun st ch =>
    ch.descriptions.foldlM (writeEmb host emb labels) st) st) ⟨buf, 0⟩
  pure st.buf

/-- The next row of a table, as its words. -/
def writeRow (host : Host) (rows : List (List UInt32)) (st : Writing) : Run BuildError Writing :=
  match rows[st.next]? with
  | none => fault .index
  | some row => do
    let buf ← wbufAppend host st.buf (host.order.encode row)
    pure ⟨buf, st.next + 1⟩

/-- The rows of the nodes, and how many were written. -/
def writeNodeMetas (host : Host) (rows : List NodeMeta) (nodes : List NodeDef) (buf : Buffer) :
    Run BuildError Writing :=
  nodes.foldlM (fun st nd =>
    (emitSlots nd).foldlM (fun st _ => writeRow host (rows.map (·.words)) st) st) ⟨buf, 0⟩

def writeChildMetas (host : Host) (rows : List ChildMeta) (nodes : List NodeDef) (buf : Buffer) :
    Run BuildError Writing :=
  nodes.foldlM (fun st nd => nd.children.foldlM (fun st ch =>
    (emitSlots ch).foldlM (fun st _ => writeRow host (rows.map (·.words)) st) st) st) ⟨buf, 0⟩

/-! ## The build -/

def totalNodeEmb (nodes : List NodeDef) : Nat :=
  (nodes.map (·.descriptions.length)).sum

def totalChildEmb (nodes : List NodeDef) : Nat :=
  (nodes.map fun nd => (nd.children.map (·.descriptions.length)).sum).sum

/-- `p ? p : ""`. -/
def orEmpty (p : Option CStr) : Option CStr := some (p.getD CStr.empty)

/-- The image of a manifest that the validator accepted. -/
def compile (host : Host) (emb : Emb) (m : Manifest) : Run BuildError (List UInt8) := do
  if emb.dim ≤ 0 then fail (.embDim emb.dim)
  else
    allocOr .noMemory
    let strtab ← strtabInit
    let buf ← wbufInit
    let buf ← wbufAppend host buf (List.replicate fileHdrSize 0)
    -- the three arrays of label references
    allocOr .noMemory
    allocOr .noMemory
    allocOr .noMemory
    let (id, strtab) ← strtabAdd host strtab (orEmpty m.id)
    let (vendor, strtab) ← strtabAdd host strtab (orEmpty m.vendor)
    let (schemaver, strtab) ← strtabAdd host strtab (orEmpty m.version)
    let labels ← m.nodes.foldlM (labelNode host) ⟨strtab, [], [], []⟩
    -- the two arrays of rows
    allocOr .noMemory
    allocOr .noMemory
    let metas ← m.nodes.foldlM (metaNode host) ⟨labels.strtab, [], []⟩
    let strtabFileOff := buf.data.length
    let buf ← wbufAppend host buf metas.strtab.data
    let nodeEmbOff := buf.data.length
    let buf ← writeNodeEmbs host emb labels.nodeEmbLabel m.nodes buf
    let childEmbOff := buf.data.length
    let buf ← writeChildEmbs host emb labels.childEmbLabel m.nodes buf
    let nodeMetaOff := buf.data.length
    let nodeRows ← writeNodeMetas host metas.nodeMeta m.nodes buf
    let childMetaOff := nodeRows.buf.data.length
    let childRows ← writeChildMetas host metas.childMeta m.nodes nodeRows.buf
    let image := childRows.buf.data
    let hdr : FileHdr := {
      version := 1
      fileSize := UInt32.ofNat image.length
      strtabOff := UInt32.ofNat strtabFileOff
      strtabSize := UInt32.ofNat metas.strtab.data.length
      idOff := id.off, idLen := id.len
      vendorOff := vendor.off, vendorLen := vendor.len
      schemaverOff := schemaver.off, schemaverLen := schemaver.len
      nodeThreshold := m.nodeThreshold
      minNgram := m.minNgram.toUInt32
      maxNgram := m.maxNgram.toUInt32
      embDim := UInt32.ofNat emb.dim.toNat
      nodeEmbOff := UInt32.ofNat nodeEmbOff
      nodeEmbCount := UInt32.ofNat (totalNodeEmb m.nodes)
      childEmbOff := UInt32.ofNat childEmbOff
      childEmbCount := UInt32.ofNat (totalChildEmb m.nodes)
      nodeMetaOff := UInt32.ofNat nodeMetaOff
      nodeMetaCount := UInt32.ofNat nodeRows.next
      childMetaOff := UInt32.ofNat childMetaOff
      childMetaCount := UInt32.ofNat childRows.next }
    -- the header overwrites the zeros in front
    pure (hdr.encode host.order ++ image.drop fileHdrSize)

/-- What the parser makes of the text of a manifest file. -/
def parseText [Arith] (text : List UInt8) : Run BuildError Manifest := do
  match ← catching (Json.parseManifest ⟨text, 0⟩) with
  | .error err => fail (.json err)
  | .ok (_, m) => pure m

/-- The passes that follow the parser; `emb` is what `kc_emb_open` returns. -/
def serialize (host : Host) (emb : Option Emb) (m : Manifest) : Run BuildError (List UInt8) :=
  match validateManifest m with
  | .error err => fail (.manifest err)
  | .ok () =>
    match emb with
    | none => fail .embOpen
    | some emb => compile host emb m

def build [Arith] (host : Host) (emb : Option Emb) (text : List UInt8) :
    Run BuildError (List UInt8) := do
  if text.length = 0 then fail .emptyFile
  else
    allocOr .noMemory
    let m ← parseText text
    serialize host emb m

end Ipa
