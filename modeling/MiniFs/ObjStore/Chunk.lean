import MiniFs.ObjStore.Metadata

/-!
# The chunk engine

Space is handed out from one active chunk of 64 MiB.  A reservation advances the active chunk in
memory; a full chunk is sealed, and a fresh one is allocated from the device and recorded.
-/

namespace MiniFs.ObjStore

/-- The memory of an open object store. -/
structure StoreMem where
  /-- `mount_`. -/
  mount : NebulaMount
  /-- `next_object_id_`. -/
  nextObjectId : UInt64
  /-- `next_chunk_id_`. -/
  nextChunkId : UInt32
  /-- `active_`. -/
  active : Option Chunk
  /-- `opts_.sync_metadata`. -/
  syncMetadata : Bool

/-- `ChunkEngine::Reservation`.  A reservation is never empty. -/
structure Reservation where
  chunkId : UInt32
  chunkIdx : UInt16
  offsetBytes : UInt32
  lengthBytes : UInt32
  paddedBytes : UInt32
  physicalLba : UInt64
  length_pos : 0 < lengthBytes

/-- `round_up_block`. -/
def roundUpBlock (bytes : UInt32) : UInt32 := (bytes + 4095) / 4096 * 4096

/-- `space_left`. -/
def Chunk.spaceLeft (c : Chunk) : UInt32 := kChunkSize - c.writeOffset

/-- The lengths of a reservation: `actual` and `padded`, after the defensive clamp. -/
def Chunk.fit (c : Chunk) (maxLength : UInt32) : UInt32 × UInt32 :=
  let actual := min maxLength c.spaceLeft
  let padded := roundUpBlock actual
  if c.spaceLeft < padded then (c.spaceLeft, c.spaceLeft) else (actual, padded)

theorem Chunk.spaceLeft_pos {c : Chunk} (room : c.writeOffset < kChunkSize) : 0 < c.spaceLeft := by
  rw [UInt32.lt_iff_toNat_lt] at room ⊢
  rw [Chunk.spaceLeft, UInt32.toNat_sub_of_le _ _ (UInt32.le_iff_toNat_le.mpr room.le)]
  exact Nat.sub_pos_of_lt room

theorem Chunk.fit_pos {c : Chunk} {maxLength : UInt32} (room : c.writeOffset < kChunkSize)
    (some : 0 < maxLength) : 0 < (c.fit maxLength).1 := by
  have space := Chunk.spaceLeft_pos room
  simp only [Chunk.fit]
  split_ifs
  · exact space
  · rw [show min maxLength c.spaceLeft = if maxLength ≤ c.spaceLeft then maxLength else c.spaceLeft
      from rfl]
    split_ifs
    · exact some
    · exact space

/-- Take `length` bytes, padded to `padded`, off a chunk. -/
def Chunk.take (c : Chunk) (length padded : UInt32) (positive : 0 < length) : Reservation × Chunk :=
  ({ chunkId := c.chunkId
     chunkIdx := c.nextIdx.toUInt16
     offsetBytes := c.writeOffset
     lengthBytes := length
     paddedBytes := padded
     physicalLba := c.lbaStart + (c.writeOffset / 4096).toUInt64
     length_pos := positive },
    { c with
      writeOffset := c.writeOffset + padded
      nextIdx := c.nextIdx + 1 })

/-- The end of `ChunkEngine::reserve`: take the reservation off a chunk with room. -/
def Chunk.carve (c : Chunk) (maxLength : UInt32) (room : c.writeOffset < kChunkSize)
    (some : 0 < maxLength) : Reservation × Chunk :=
  c.take (c.fit maxLength).1 (c.fit maxLength).2 (Chunk.fit_pos room some)

/-- The record of a newly allocated chunk. -/
def freshChunk (cid : UInt32) (lba : Nat) : Chunk where
  chunkId := cid
  lbaStart := UInt64.ofNat lba
  writeOffset := 0
  nextIdx := 0
  isSealed := false

theorem freshChunk_room (cid : UInt32) (lba : Nat) :
    (freshChunk cid lba).writeOffset < kChunkSize :=
  show (0 : UInt32) < kChunkSize by decide

/-- `MetadataStore::allocate_object_id`. -/
def allocateObjectId (mem : StoreMem) : PrimProg (Except Status UInt64 × StoreMem) :=
  .call (.write true [.nextObj (mem.nextObjectId + 1)]) fun done =>
    .ret (if done then .ok mem.nextObjectId else .error .ERROR_METADATA,
      { mem with nextObjectId := mem.nextObjectId + 1 })

/-- `MetadataStore::allocate_chunk_id`. -/
def allocateChunkId (mem : StoreMem) : PrimProg (Except Status UInt32 × StoreMem) :=
  .call (.write true [.nextChunk (mem.nextChunkId + 1)]) fun done =>
    .ret (if done then .ok mem.nextChunkId else .error .ERROR_METADATA,
      { mem with nextChunkId := mem.nextChunkId + 1 })

/-- `ChunkEngine::seal_active_locked`, with an active chunk. -/
def sealActive (c : Chunk) (mem : StoreMem) : PrimProg (Except Status Unit × StoreMem) :=
  putSynced (.chunk { c with isSealed := true }) >>= fun result =>
    .ret (result, { mem with active := none })

/-- `allocate_new_chunk_locked` and the reservation from the new chunk. -/
def reserveFresh (maxLength : UInt32) (some : 0 < maxLength) (mem : StoreMem) :
    PrimProg (Except Status Reservation × StoreMem) :=
  .call (.blockAlloc mem.mount kChunkBlocks) fun
    | (.error _, mount) => .ret (.error .ERROR_NO_SPACE, { mem with mount })
    | (.ok lba, mount) =>
        allocateChunkId { mem with mount } >>= fun
          | (.error status, mem) => .ret (.error status, mem)
          | (.ok cid, mem) =>
              putSynced (.chunk (freshChunk cid lba)) >>= fun
                | .error status => .ret (.error status, mem)
                | .ok () =>
                    let carved :=
                      (freshChunk cid lba).carve maxLength (freshChunk_room cid lba) some
                    .ret (.ok carved.1, { mem with active := Option.some carved.2 })

/-- `ChunkEngine::reserve`. -/
def reserve (maxLength : UInt32) (mem : StoreMem) :
    PrimProg (Except Status Reservation × StoreMem) :=
  if some : 0 < maxLength then
    match mem.active with
    | none => reserveFresh maxLength some mem
    | Option.some c =>
        if room : c.writeOffset < kChunkSize then
          let carved := c.carve maxLength room some
          .ret (.ok carved.1, { mem with active := Option.some carved.2 })
        else
          sealActive c mem >>= fun
            | (.error status, mem) => .ret (.error status, mem)
            | (.ok (), mem) => reserveFresh maxLength some mem
  else .ret (.error .ERROR_INVALID_ARGUMENT, mem)

/-- The scan of `ChunkEngine::open`.  After `2 ^ 32` records the scan has come back to its first
one and does not end. -/
def scanChunks : Nat → UInt32 → Option Chunk → PrimProg (Option (Except Status (Option Chunk)))
  | 0, _, _ => .ret none
  | fuel + 1, id, active =>
      .call (.get (.chunk id)) fun bytes =>
        match statusOfGet decodeChunkGet bytes with
        | .error .ERROR_NOT_FOUND => .ret (some (.ok active))
        | .error status => .ret (some (.error status))
        | .ok c => scanChunks fuel (id + 1) (if c.isSealed then active else some c)

/-- `ChunkEngine::stage_chunk_rev`. -/
def stageChunkRev (chunkId : UInt32) (idx : UInt16) (oid logicalOffset : UInt64) (length : UInt32) :
    MetaPut :=
  .chunkRev chunkId idx { oid, logicalOffset, length, reserved := 0 }

end MiniFs.ObjStore
