import MiniFs.Lib.ByteString
import MiniFs.Lib.Packed
import MiniFs.Nebula.Io

/-!
# Object store records and keys

The records of the object store, their byte encodings, and the keys under which the metadata store
keeps them.  Numeric key components are big-endian, so the byte order of keys is the numeric order
of their components.
-/

namespace MiniFs.ObjStore

open Packed

/-- `enum class Status`, without `OK`. -/
inductive Status
  | ERROR_NOT_FOUND | ERROR_ALREADY_EXISTS | ERROR_PARENT_NOT_FOUND | ERROR_OUT_OF_RANGE
  | ERROR_NO_SPACE | ERROR_IO_FAILURE | ERROR_METADATA | ERROR_INVALID_ARGUMENT | ERROR_INTERNAL
  deriving DecidableEq, Repr

/-- `kChunkSize`. -/
def kChunkSize : UInt32 := 67108864

/-- `kChunkBlocks`. -/
def kChunkBlocks : Nat := 16384

/-- `kSchemaVersion`. -/
def kSchemaVersion : UInt32 := 2

/-- The component loop of `validate_object_path`: the number of components from here on, if none of
them is empty.  `current` is the length of the component under the cursor. -/
def countComponents : ByteString → Nat → Nat → Option Nat
  | [], current, count => if current = 0 then none else some (count + 1)
  | byte :: rest, current, count =>
      if byte = 47 then
        if current = 0 then none else countComponents rest 0 (count + 1)
      else countComponents rest (current + 1) count

/-- `validate_object_path`. -/
def validateObjectPath (path : ByteString) : Bool :=
  if path.length < 5 then false
  else if path.head? ≠ some 47 then false
  else countComponents path.tail 0 0 = some 4

/-- `struct ObjectAttrs`. -/
structure ObjectAttrs where
  objectId : UInt64
  size : UInt64
  ctimeNs : UInt64
  mtimeNs : UInt64
  version : UInt64
  numExtents : UInt64
  deriving DecidableEq

/-- `encode_attrs` and `decode_attrs`. -/
def ObjectAttrs.layout : Packed ObjectAttrs 48 :=
  record 48
    { toFun := fun a => (a.objectId, a.size, a.ctimeNs, a.mtimeNs, a.version, a.numExtents)
      invFun := fun (a, b, c, d, e, f) => ⟨a, b, c, d, e, f⟩
      left_inv := fun _ => rfl
      right_inv := fun _ => rfl }
    (pair u64 <| pair u64 <| pair u64 <| pair u64 <| pair u64 u64)
    rfl

/-- `struct ExtentEntry`. -/
structure ExtentEntry where
  chunkId : UInt32
  chunkIdx : UInt16
  reserved : UInt16
  offsetInChunk : UInt32
  length : UInt32
  checksum : UInt64
  deriving DecidableEq

/-- `encode_extent` and `decode_extent`. -/
def ExtentEntry.layout : Packed ExtentEntry 24 :=
  record 24
    { toFun := fun e => (e.chunkId, e.chunkIdx, e.reserved, e.offsetInChunk, e.length, e.checksum)
      invFun := fun (a, b, c, d, e, f) => ⟨a, b, c, d, e, f⟩
      left_inv := fun _ => rfl
      right_inv := fun _ => rfl }
    (pair u32 <| pair u16 <| pair u16 <| pair u32 <| pair u32 u64)
    rfl

/-- `struct Chunk`. -/
structure Chunk where
  chunkId : UInt32
  lbaStart : UInt64
  writeOffset : UInt32
  nextIdx : UInt32
  isSealed : Bool
  deriving DecidableEq

/-- The byte layout of a chunk record, `sealed` as a byte. -/
def Chunk.layout : Packed (UInt32 × UInt64 × UInt32 × UInt32 × UInt8) 21 :=
  record 21 (Equiv.refl _) (pair u32 <| pair u64 <| pair u32 <| pair u32 u8) rfl

/-- `encode_chunk`. -/
def encodeChunk (c : Chunk) : ByteString :=
  Chunk.layout.bytes
    (c.chunkId, c.lbaStart, c.writeOffset, c.nextIdx, if c.isSealed then 1 else 0)

/-- `decode_chunk`. -/
def decodeChunk (bytes : ByteString) : Option Chunk :=
  (Chunk.layout.ofBytes? bytes).map fun (chunkId, lbaStart, writeOffset, nextIdx, byte) =>
    { chunkId, lbaStart, writeOffset, nextIdx, isSealed := byte ≠ 0 }

@[simp] theorem decodeChunk_encodeChunk (c : Chunk) : decodeChunk (encodeChunk c) = some c := by
  obtain ⟨chunkId, lbaStart, writeOffset, nextIdx, isSealed⟩ := c
  cases isSealed <;> simp [decodeChunk, encodeChunk]

/-- `struct ChunkRevEntry`. -/
structure ChunkRevEntry where
  oid : UInt64
  logicalOffset : UInt64
  length : UInt32
  reserved : UInt32
  deriving DecidableEq

/-- `encode_chunk_rev` and `decode_chunk_rev`. -/
def ChunkRevEntry.layout : Packed ChunkRevEntry 24 :=
  record 24
    { toFun := fun e => (e.oid, e.logicalOffset, e.length, e.reserved)
      invFun := fun (a, b, c, d) => ⟨a, b, c, d⟩
      left_inv := fun _ => rfl
      right_inv := fun _ => rfl }
    (pair u64 <| pair u64 <| pair u32 u32)
    rfl

/-- What a metadata key names. -/
inductive MetaKey
  | path (path : ByteString)
  | attrs (oid : UInt64)
  | extent (oid logicalOffset : UInt64)
  | chunk (cid : UInt32)
  | chunkRev (cid : UInt32) (idx : UInt16)
  | nextObj
  | nextChunk
  | schema
  deriving DecidableEq

namespace MetaKey

/-- The key encoders: `ph:`, `at:`, `ex:`, `ck:`, `ci:`, and the three `ct:` keys. -/
def encode : MetaKey → ByteString
  | path p => [112, 104, 58] ++ p
  | attrs oid => [97, 116, 58] ++ ByteString.bigEndian 8 oid.toNat
  | extent oid off =>
      [101, 120, 58] ++ ByteString.bigEndian 8 oid.toNat ++ ByteString.bigEndian 8 off.toNat
  | chunk cid => [99, 107, 58] ++ ByteString.bigEndian 4 cid.toNat
  | chunkRev cid idx =>
      [99, 105, 58] ++ ByteString.bigEndian 4 cid.toNat ++ ByteString.bigEndian 2 idx.toNat
  | nextObj => [99, 116, 58, 110, 101, 120, 116, 95, 111, 98, 106, 101, 99, 116, 95, 105, 100]
  | nextChunk => [99, 116, 58, 110, 101, 120, 116, 95, 99, 104, 117, 110, 107, 95, 105, 100]
  | schema => [99, 116, 58, 115, 99, 104, 101, 109, 97, 95, 118, 101, 114, 115, 105, 111, 110]

theorem bigEndian_u64_inj {first second : UInt64}
    (same : ByteString.bigEndian 8 first.toNat = ByteString.bigEndian 8 second.toNat) :
    first = second :=
  UInt64.toNat_inj.mp (ByteString.bigEndian_inj first.toNat_lt second.toNat_lt same)

theorem bigEndian_u32_inj {first second : UInt32}
    (same : ByteString.bigEndian 4 first.toNat = ByteString.bigEndian 4 second.toNat) :
    first = second :=
  UInt32.toNat_inj.mp (ByteString.bigEndian_inj first.toNat_lt second.toNat_lt same)

theorem bigEndian_u16_inj {first second : UInt16}
    (same : ByteString.bigEndian 2 first.toNat = ByteString.bigEndian 2 second.toNat) :
    first = second :=
  UInt16.toNat_inj.mp (ByteString.bigEndian_inj first.toNat_lt second.toNat_lt same)

/-- Different things have different keys. -/
theorem encode_injective : Function.Injective encode := by
  intro first second same
  cases first <;> cases second <;> simp [encode] at same
  case path.path => rw [same]
  case attrs.attrs => rw [bigEndian_u64_inj same]
  case extent.extent =>
      obtain ⟨oid, off⟩ := List.append_inj same (by simp)
      rw [bigEndian_u64_inj oid, bigEndian_u64_inj off]
  case chunk.chunk => rw [bigEndian_u32_inj same]
  case chunkRev.chunkRev =>
      obtain ⟨cid, idx⟩ := List.append_inj same (by simp)
      rw [bigEndian_u32_inj cid, bigEndian_u16_inj idx]
  all_goals rfl

@[simp] theorem encode_inj {first second : MetaKey} :
    first.encode = second.encode ↔ first = second :=
  encode_injective.eq_iff

end MetaKey

/-- One `Put`, before encoding. -/
inductive MetaPut
  | path (path : ByteString) (oid : UInt64)
  | attrs (a : ObjectAttrs)
  | extent (oid logicalOffset : UInt64) (e : ExtentEntry)
  | chunk (c : Chunk)
  | chunkRev (cid : UInt32) (idx : UInt16) (r : ChunkRevEntry)
  | nextObj (id : UInt64)
  | nextChunk (id : UInt32)
  | schema (version : UInt32)
  deriving DecidableEq

namespace MetaPut

/-- What a put names. -/
def key : MetaPut → MetaKey
  | path p _ => .path p
  | attrs a => .attrs a.objectId
  | extent oid off _ => .extent oid off
  | chunk c => .chunk c.chunkId
  | chunkRev cid idx _ => .chunkRev cid idx
  | nextObj _ => .nextObj
  | nextChunk _ => .nextChunk
  | schema _ => .schema

/-- The value bytes of a put. -/
def value : MetaPut → ByteString
  | path _ oid => u64.bytes oid
  | attrs a => ObjectAttrs.layout.bytes a
  | extent _ _ e => ExtentEntry.layout.bytes e
  | chunk c => encodeChunk c
  | chunkRev _ _ r => ChunkRevEntry.layout.bytes r
  | nextObj id => u64.bytes id
  | nextChunk id => u32.bytes id
  | schema version => u32.bytes version

/-- The key and value handed to the database. -/
def encode (put : MetaPut) : ByteString × ByteString := (put.key.encode, put.value)

end MetaPut

end MiniFs.ObjStore
