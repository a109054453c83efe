import Ipa.Lib.Words
import Ipa.Lib.Binary
import Ipa.Lib.Host

/-!
# The layout of an `.ipa` file

The structs of the file as runs of 32-bit words: the header after its magic, the header of an
embedding entry, the rows of the two metadata tables. A file is read at the offsets it states
itself.
-/

namespace Ipa

/-- `KIPA`. -/
def magic : List UInt8 := [0x4B, 0x49, 0x50, 0x41]

structure FileHdr where
  version : UInt32
  fileSize : UInt32
  strtabOff : UInt32
  strtabSize : UInt32
  idOff : UInt32
  idLen : UInt32
  vendorOff : UInt32
  vendorLen : UInt32
  schemaverOff : UInt32
  schemaverLen : UInt32
  nodeThreshold : Binary32
  minNgram : UInt32
  maxNgram : UInt32
  embDim : UInt32
  nodeEmbOff : UInt32
  nodeEmbCount : UInt32
  childEmbOff : UInt32
  childEmbCount : UInt32
  nodeMetaOff : UInt32
  nodeMetaCount : UInt32
  childMetaOff : UInt32
  childMetaCount : UInt32
deriving DecidableEq, Repr

structure EmbHdr where
  labelOff : UInt32
  labelLen : UInt32
deriving DecidableEq, Repr

structure NodeMeta where
  nodeIdOff : UInt32
  nodeIdLen : UInt32
  emitKeyOff : UInt32
  emitKeyLen : UInt32
  emitValOff : UInt32
  emitValLen : UInt32
  hasChildren : UInt32
deriving DecidableEq, Repr

structure ChildMeta where
  parentIdOff : UInt32
  parentIdLen : UInt32
  nodeIdOff : UInt32
  nodeIdLen : UInt32
  emitKeyOff : UInt32
  emitKeyLen : UInt32
  emitValOff : UInt32
  emitValLen : UInt32
deriving DecidableEq, Repr

/-- `sizeof(kc_ipa_file_hdr_t)`. -/
def fileHdrSize : Nat := 92

/-- `sizeof(kc_ipa_emb_hdr_t)`. -/
def embHdrSize : Nat := 8

/-- `sizeof(kc_ipa_node_meta_t)`. -/
def nodeMetaSize : Nat := 28

/-- `sizeof(kc_ipa_child_meta_t)`. -/
def childMetaSize : Nat := 32

namespace FileHdr

/-- The fields behind the magic. -/
def words (h : FileHdr) : List UInt32 :=
  [h.version, h.fileSize, h.strtabOff, h.strtabSize, h.idOff, h.idLen, h.vendorOff, h.vendorLen,
    h.schemaverOff, h.schemaverLen, h.nodeThreshold.bits, h.minNgram, h.maxNgram, h.embDim,
    h.nodeEmbOff, h.nodeEmbCount, h.childEmbOff, h.childEmbCount, h.nodeMetaOff, h.nodeMetaCount,
    h.childMetaOff, h.childMetaCount]

def ofWords (ws : List UInt32) : FileHdr :=
  let w := fun i => ws.getD i 0
  ⟨w 0, w 1, w 2, w 3, w 4, w 5, w 6, w 7, w 8, w 9, ⟨w 10⟩, w 11, w 12, w 13, w 14, w 15, w 16,
    w 17, w 18, w 19, w 20, w 21⟩

def encode (o : ByteOrder) (h : FileHdr) : List UInt8 := magic ++ o.encode h.words

/-- The header of a mapped file. -/
def read (o : ByteOrder) (mem : List UInt8) : FileHdr := ofWords (o.readWords mem 4 22)

@[simp] theorem ofWords_words (h : FileHdr) : ofWords h.words = h := rfl

@[simp] theorem length_encode (o : ByteOrder) (h : FileHdr) :
    (h.encode o).length = fileHdrSize := by
  simp [encode, words, magic, fileHdrSize]

theorem read_encode (o : ByteOrder) (h : FileHdr) (rest : List UInt8) :
    read o (h.encode o ++ rest) = h := by
  have hdrop : (h.encode o ++ rest).drop 4 = o.encode h.words ++ rest := by
    rw [encode, List.append_assoc]
    rfl
  rw [read, show (22 : Nat) = h.words.length from rfl, ByteOrder.readWords_of_drop hdrop,
    ofWords_words]

end FileHdr

namespace EmbHdr

def words (h : EmbHdr) : List UInt32 := [h.labelOff, h.labelLen]

def ofWords (ws : List UInt32) : EmbHdr := ⟨ws.getD 0 0, ws.getD 1 0⟩

def read (o : ByteOrder) (mem : List UInt8) (off : Nat) : EmbHdr := ofWords (o.readWords mem off 2)

@[simp] theorem ofWords_words (h : EmbHdr) : ofWords h.words = h := rfl

theorem read_of_drop {o : ByteOrder} {mem rest : List UInt8} {off : Nat} {h : EmbHdr}
    (hdrop : mem.drop off = o.encode h.words ++ rest) : read o mem off = h := by
  rw [read, show (2 : Nat) = h.words.length from rfl, ByteOrder.readWords_of_drop hdrop,
    ofWords_words]

end EmbHdr

namespace NodeMeta

def words (m : NodeMeta) : List UInt32 :=
  [m.nodeIdOff, m.nodeIdLen, m.emitKeyOff, m.emitKeyLen, m.emitValOff, m.emitValLen, m.hasChildren]

def ofWords (ws : List UInt32) : NodeMeta :=
  let w := fun i => ws.getD i 0
  ⟨w 0, w 1, w 2, w 3, w 4, w 5, w 6⟩

/-- The row at an offset of a mapped file. -/
def read (o : ByteOrder) (mem : List UInt8) (off : Nat) : NodeMeta :=
  ofWords (o.readWords mem off 7)

@[simp] theorem ofWords_words (m : NodeMeta) : ofWords m.words = m := rfl

theorem read_of_drop {o : ByteOrder} {mem rest : List UInt8} {off : Nat} {m : NodeMeta}
    (hdrop : mem.drop off = o.encode m.words ++ rest) : read o mem off = m := by
  rw [read, show (7 : Nat) = m.words.length from rfl, ByteOrder.readWords_of_drop hdrop,
    ofWords_words]

end NodeMeta

namespace ChildMeta

def words (m : ChildMeta) : List UInt32 :=
  [m.parentIdOff, m.parentIdLen, m.nodeIdOff, m.nodeIdLen, m.emitKeyOff, m.emitKeyLen,
    m.emitValOff, m.emitValLen]

def ofWords (ws : List UInt32) : ChildMeta :=
  let w := fun i => ws.getD i 0
  ⟨w 0, w 1, w 2, w 3, w 4, w 5, w 6, w 7⟩

/-- The row at an offset of a mapped file. -/
def read (o : ByteOrder) (mem : List UInt8) (off : Nat) : ChildMeta :=
  ofWords (o.readWords mem off 8)

@[simp] theorem ofWords_words (m : ChildMeta) : ofWords m.words = m := rfl

theorem read_of_drop {o : ByteOrder} {mem rest : List UInt8} {off : Nat} {m : ChildMeta}
    (hdrop : mem.drop off = o.encode m.words ++ rest) : read o mem off = m := by
  rw [read, show (8 : Nat) = m.words.length from rfl, ByteOrder.readWords_of_drop hdrop,
    ofWords_words]

end ChildMeta

/-! ## Vectors -/

/-- The words of a vector of floats. -/
def vectorWords (values : List Binary32) : List UInt32 := values.map (·.bits)

/-- The vector of `dim` floats at an offset of a mapped file. -/
def readVector (o : ByteOrder) (mem : List UInt8) (off dim : Nat) : List Binary32 :=
  (o.readWords mem off dim).map Binary32.mk

theorem readVector_of_drop {o : ByteOrder} {mem rest : List UInt8} {off : Nat}
    {values : List Binary32} (hdrop : mem.drop off = o.encode (vectorWords values) ++ rest) :
    readVector o mem off values.length = values := by
  have hlen : values.length = (vectorWords values).length := by simp [vectorWords]
  rw [readVector, hlen, ByteOrder.readWords_of_drop hdrop, vectorWords, List.map_map]
  exact List.map_id' values

end Ipa
