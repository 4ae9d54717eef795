import MiniFs.ObjStore.Media

/-!
# The metadata store

The programs of `MetadataStore` over the primitive actions, and its range scan over the extents of
an object.
-/

namespace MiniFs.ObjStore

open Packed

/-- The database part of `MetadataStore::open`: make sure the root path entry exists. -/
def openRootEntry : PrimProg (Except Status Unit) :=
  .call (.get (.path [47])) fun
    | .error _ => .ret (.error .ERROR_METADATA)
    | .ok (some _) => .ret (.ok ())
    | .ok none => .call (.write false [.path [47] 0]) fun
        | true => .ret (.ok ())
        | false => .ret (.error .ERROR_METADATA)

/-- `MetadataStore::init_or_check_schema_locked`. -/
def initOrCheckSchema : PrimProg (Except Status Unit) :=
  .call (.get .schema) fun
    | .error _ => .ret (.error .ERROR_METADATA)
    | .ok none => .call (.write true [.schema kSchemaVersion]) fun
        | true => .ret (.ok ())
        | false => .ret (.error .ERROR_METADATA)
    | .ok (some bytes) =>
        match u32.ofBytes? bytes with
        | none => .ret (.error .ERROR_METADATA)
        | some version =>
            if version ≠ kSchemaVersion then .ret (.error .ERROR_METADATA) else .ret (.ok ())

/-- A counter as `read_counters_locked` reads it: 1 if it is missing, nothing if the read fails or
the value has the wrong size. -/
def counterOfGet {α : Type} (one : α) (ofBytes? : ByteString → Option α) :
    Except Unit (Option ByteString) → Option α
  | .error _ => none
  | .ok none => some one
  | .ok (some bytes) => ofBytes? bytes

/-- `MetadataStore::read_counters_locked`, with `persist_counters_locked`. -/
def readCounters : PrimProg (Except Status (UInt64 × UInt32)) :=
  .call (.get .nextObj) fun objBytes =>
    match counterOfGet 1 u64.ofBytes? objBytes with
    | none => .ret (.error .ERROR_METADATA)
    | some nextObjectId =>
        .call (.get .nextChunk) fun chunkBytes =>
          match counterOfGet 1 u32.ofBytes? chunkBytes with
          | none => .ret (.error .ERROR_METADATA)
          | some nextChunkId =>
              .call (.write true [.nextObj nextObjectId, .nextChunk nextChunkId]) fun
                | true => .ret (.ok (nextObjectId, nextChunkId))
                | false => .ret (.error .ERROR_METADATA)

/-- `MetadataStore::open`: the two counters. -/
def metadataOpen : PrimProg (Except Status (UInt64 × UInt32)) :=
  openRootEntry >>= fun
    | .error status => .ret (.error status)
    | .ok () => initOrCheckSchema >>= fun
        | .error status => .ret (.error status)
        | .ok () => readCounters

/-- The status of `get_chunk` on what the database returned. -/
def decodeChunkGet : Option ByteString → Except Status Chunk
  | none => .error .ERROR_NOT_FOUND
  | some bytes =>
      match decodeChunk bytes with
      | none => .error .ERROR_METADATA
      | some c => .ok c

/-- The status of `path_lookup` on what the database returned. -/
def decodePathGet : Option ByteString → Except Status UInt64
  | none => .error .ERROR_NOT_FOUND
  | some bytes =>
      match u64.ofBytes? bytes with
      | none => .error .ERROR_METADATA
      | some oid => .ok oid

/-- The status of `get_attrs` on what the database returned. -/
def decodeAttrsGet : Option ByteString → Except Status ObjectAttrs
  | none => .error .ERROR_NOT_FOUND
  | some bytes =>
      match ObjectAttrs.layout.ofBytes? bytes with
      | none => .error .ERROR_METADATA
      | some a => .ok a

/-- The status of a lookup: a failed read is an error of the metadata. -/
def statusOfGet {α : Type} (decode : Option ByteString → Except Status α) :
    Except Unit (Option ByteString) → Except Status α
  | .error _ => .error .ERROR_METADATA
  | .ok bytes => decode bytes

/-- A synced put of one key: `put_chunk` and the counter puts. -/
def putSynced (put : MetaPut) : PrimProg (Except Status Unit) :=
  .call (.write true [put]) fun
    | true => .ret (.ok ())
    | false => .ret (.error .ERROR_METADATA)

section iterExtents

variable {σ : Type} (visit : σ → UInt64 → ExtentEntry → Bool × σ)

/-- The offset component of a key that names an extent of the object, as the key checks of
`iter_extents` see it. -/
def extentOffset (oid : UInt64) (key : ByteString) : Option UInt64 :=
  let keyPrefix := [101, 120, 58] ++ ByteString.bigEndian 8 oid.toNat
  if key.length = keyPrefix.length + 8 ∧ key.take keyPrefix.length = keyPrefix then
    some (UInt64.ofNat (ByteString.ofBigEndian (key.drop keyPrefix.length)))
  else none

/-- The forward iteration of `iter_extents`. -/
def iterForward (oid endOffset : UInt64) :
    List (ByteString × ByteString) → σ → Except Status Unit × σ
  | [], state => (.ok (), state)
  | (key, value) :: rest, state =>
      match extentOffset oid key with
      | none => (.ok (), state)
      | some off =>
          if endOffset ≤ off then (.ok (), state)
          else
            match ExtentEntry.layout.ofBytes? value with
            | none => (.error .ERROR_METADATA, state)
            | some e =>
                let (continue_, state) := visit state off e
                if continue_ then iterForward oid endOffset rest state else (.ok (), state)

/-- `MetadataStore::iter_extents`. -/
def iterExtents (db : Db) (oid startOffset endOffset : UInt64) (state : σ) :
    Except Status Unit × σ :=
  if endOffset ≤ startOffset then (.ok (), state)
  else
    let lower := (MetaKey.extent oid startOffset).encode
    match db.seekForPrev lower with
    | [] => iterForward visit oid endOffset (db.seek lower) state
    | (key, value) :: rest =>
        match extentOffset oid key with
        | none => iterForward visit oid endOffset (db.seek lower) state
        | some off =>
            match ExtentEntry.layout.ofBytes? value with
            | none => (.error .ERROR_METADATA, state)
            | some e =>
                if startOffset < off + e.length.toUInt64 then
                  if endOffset ≤ off then (.ok (), state)
                  else
                    let (continue_, state) := visit state off e
                    if continue_ then iterForward visit oid endOffset rest state
                    else (.ok (), state)
                else iterForward visit oid endOffset (db.seek lower) state

end iterExtents

end MiniFs.ObjStore
