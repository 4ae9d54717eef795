import MiniFs.ObjStore.Chunk

/-!
# The object store

`create` and `write` are programs over the operations that other threads see as atomic: database
gets and commits, device requests, and the sections guarded by a mutex.  `storeSem` expands each of
them into primitive actions, at whose granularity a crash happens.  `read` and `stat` change
nothing.
-/

namespace MiniFs.ObjStore

/-- The operations of the public calls. -/
inductive StoreOp
  /-- One `DB::Get`. -/
  | get (key : MetaKey)
  /-- `MetadataStore::allocate_object_id`. -/
  | allocateObjectId
  /-- `ChunkEngine::reserve`. -/
  | reserve (maxLength : UInt32)
  /-- `ObjectStore::write_blocks`. -/
  | writeBlocks (physicalLba : UInt64) (blocks : List Block)
  /-- `nebula_io_flush`. -/
  | ioFlush
  /-- The snapshot of `ChunkEngine::stage_active_chunk`. -/
  | stageActiveChunk
  /-- `MetadataStore::commit`. -/
  | commit (batch : Batch)

/-- What each operation returns. -/
abbrev StoreOp.Res : StoreOp → Type
  | get _ => Except Unit (Option ByteString)
  | allocateObjectId => Except Status UInt64
  | reserve _ => Except Status Reservation
  | writeBlocks _ _ => Except Errno Unit
  | ioFlush => Except Errno Unit
  | stageActiveChunk => Option Chunk
  | commit _ => Bool

/-- Programs over the operations. -/
abbrev StoreProg : Type → Type := Prog StoreOp StoreOp.Res

/-- The operations in terms of primitive actions. -/
def storeSem : (op : StoreOp) → StoreMem → PrimProg (op.Res × StoreMem)
  | .get key, mem => .call (.get key) fun bytes => .ret (bytes, mem)
  | .allocateObjectId, mem => allocateObjectId mem
  | .reserve maxLength, mem => reserve maxLength mem
  | .writeBlocks lba blocks, mem => .call (.ioWrite lba.toNat blocks) fun result => .ret
      (result, mem)
  | .ioFlush, mem => .call .ioFlush fun result => .ret (result, mem)
  | .stageActiveChunk, mem => .ret (mem.active, mem)
  | .commit batch, mem => .call (.write mem.syncMetadata batch) fun done => .ret (done, mem)

/-- The attributes of a new object. -/
def newAttrs (oid now : UInt64) : ObjectAttrs where
  objectId := oid
  size := 0
  ctimeNs := now
  mtimeNs := now
  version := 1
  numExtents := 0

/-- `ObjectStore::create`.  `path_exists` takes a failed read for a missing path. -/
def create (path : ByteString) (now : UInt64) : StoreProg (Except Status Unit) :=
  if !validateObjectPath path then .ret (.error .ERROR_INVALID_ARGUMENT)
  else
    .call (.get (.path path)) fun
      | .ok (some _) => .ret (.error .ERROR_ALREADY_EXISTS)
      | _ =>
          .call .allocateObjectId fun
            | .error status => .ret (.error status)
            | .ok oid =>
                .call (.commit [.attrs (newAttrs oid now), .path path oid]) fun
                  | true => .ret (.ok ())
                  | false => .ret (.error .ERROR_METADATA)

/-- The buffer of a write: `data` and `len`. -/
inductive Source
  | null (len : Nat)
  | bytes (data : List UInt8)

/-- `len`. -/
def Source.len : Source → Nat
  | null len => len
  | bytes data => data.length

/-- `!data`. -/
def Source.isNull : Source → Bool
  | null _ => true
  | bytes _ => false

/-- The bytes behind `data`. -/
def Source.data : Source → List UInt8
  | null _ => []
  | bytes data => data

/-- `n` blocks of the given bytes, zeros after their end. -/
def toBlocks (n : Nat) (bytes : List UInt8) : List Block :=
  (List.range n).map fun block => fun index => bytes.getD (block * 4096 + index) 0

/-- `bulk_bytes`. -/
def Reservation.bulkBytes (r : Reservation) : UInt32 := r.lengthBytes / 4096 * 4096

/-- The end of a segment's data path: the zero-padded last block, if the length is not aligned. -/
def writeTail (segment : List UInt8) (r : Reservation) : StoreProg (Except Status Unit) :=
  let tailBytes := r.lengthBytes - r.bulkBytes
  if 0 < tailBytes then
    .call (.writeBlocks (r.physicalLba + (r.bulkBytes / 4096).toUInt64)
        (toBlocks 1 (segment.drop r.bulkBytes.toNat))) fun
      | .ok () => .ret (.ok ())
      | .error _ => .ret (.error .ERROR_IO_FAILURE)
  else .ret (.ok ())

/-- The data path of one segment: whole blocks from the caller's buffer, then a padded
last block. -/
def writeSegment (segment : List UInt8) (r : Reservation) : StoreProg (Except Status Unit) :=
  if 0 < r.bulkBytes then
    .call (.writeBlocks r.physicalLba
        (toBlocks (r.bulkBytes / 4096).toNat (segment.take r.bulkBytes.toNat))) fun
      | .ok () => writeTail segment r
      | .error _ => .ret (.error .ERROR_IO_FAILURE)
  else writeTail segment r

/-- The forward map entry of a segment. -/
def Reservation.extent (r : Reservation) : ExtentEntry where
  chunkId := r.chunkId
  chunkIdx := r.chunkIdx
  reserved := 0
  offsetInChunk := r.offsetBytes
  length := r.lengthBytes
  checksum := 0

/-- The two puts that a segment stages. -/
def Reservation.staged (r : Reservation) (oid logical : UInt64) : Batch :=
  [.extent oid logical r.extent,
    stageChunkRev r.chunkId r.chunkIdx oid logical r.lengthBytes]

/-- The segment loop of `ObjectStore::write`: the staged batch and the number of extents. -/
def writeLoop (oid : UInt64) (rest : List UInt8) (logical : UInt64) (batch : Batch)
    (added : UInt64) : StoreProg (Except Status (Batch × UInt64)) :=
  if _empty : rest = [] then .ret (.ok (batch, added))
  else
    .call (.reserve (UInt32.ofNat (min rest.length 4294967295))) fun
      | .error status => .ret (.error status)
      | .ok r =>
          writeSegment (rest.take r.lengthBytes.toNat) r >>= fun
            | .error status => .ret (.error status)
            | .ok () =>
                writeLoop oid (rest.drop r.lengthBytes.toNat) (logical + r.lengthBytes.toUInt64)
                  (batch ++ r.staged oid logical) (added + 1)
termination_by rest.length
decreasing_by
  have positive := UInt32.lt_iff_toNat_lt.mp r.length_pos
  have some := List.length_pos_iff.mpr _empty
  simp only [List.length_drop, UInt32.toNat_zero] at positive ⊢
  omega

/-- The attributes after a write of `len` bytes in `added` extents. -/
def ObjectAttrs.grown (a : ObjectAttrs) (len : Nat) (added now : UInt64) : ObjectAttrs :=
  { a with
    size := a.size + UInt64.ofNat len
    version := a.version + 1
    mtimeNs := now
    numExtents := a.numExtents + added }

/-- The end of `ObjectStore::write`: barrier, attributes, active chunk record, commit. -/
def commitWrite (a : ObjectAttrs) (len : Nat) (now : UInt64) (batch : Batch) (added : UInt64) :
    StoreProg (Except Status Unit) :=
  .call .ioFlush fun
    | .error _ => .ret (.error .ERROR_IO_FAILURE)
    | .ok () =>
        .call .stageActiveChunk fun active =>
          .call (.commit (batch ++ [.attrs (a.grown len added now)] ++
              (active.map MetaPut.chunk).toList)) fun
            | true => .ret (.ok ())
            | false => .ret (.error .ERROR_METADATA)

/-- `ObjectStore::write` after the checks of its arguments. -/
def writeObject (path : ByteString) (source : Source) (now : UInt64) :
    StoreProg (Except Status Unit) :=
  .call (.get (.path path)) fun bytes =>
    match statusOfGet decodePathGet bytes with
    | .error status => .ret (.error status)
    | .ok oid =>
        .call (.get (.attrs oid)) fun bytes =>
          match statusOfGet decodeAttrsGet bytes with
          | .error status => .ret (.error status)
          | .ok a =>
              if source.len = 0 then .ret (.ok ())
              else if 4294967295 < source.len then .ret (.error .ERROR_INVALID_ARGUMENT)
              else
                writeLoop oid source.data a.size [] 0 >>= fun
                  | .error status => .ret (.error status)
                  | .ok (batch, added) => commitWrite a source.len now batch added

/-- `ObjectStore::write`. -/
def write (path : ByteString) (source : Source) (now : UInt64) : StoreProg (Except Status Unit) :=
  if !validateObjectPath path then .ret (.error .ERROR_INVALID_ARGUMENT)
  else if source.isNull ∧ 0 < source.len then .ret (.error .ERROR_INVALID_ARGUMENT)
  else writeObject path source now

/-- `ObjectStore::read_blocks`: the bytes of `n` blocks. -/
def readBlocks (disk : Disk) (lba n : Nat) : Except Status (List UInt8) :=
  match nebulaIoRead .ok disk lba n with
  | .error _ => .error .ERROR_IO_FAILURE
  | .ok blocks => .ok (blocks.flatMap List.ofFn)

/-- The variables that the extent visitor of `ObjectStore::read` captures. -/
structure ReadState where
  /-- `visit_status`. -/
  visitStatus : Except Status Unit
  /-- `cursor_offset`. -/
  cursorOffset : Nat
  /-- `remaining`. -/
  remaining : Nat
  /-- `dst`, as far as it is filled. -/
  dst : List UInt8
  /-- `chunk_cache`. -/
  chunkCache : List (UInt32 × Chunk)

/-- Append copied bytes to the output. -/
def ReadState.copied (s : ReadState) (bytes : List UInt8) : ReadState :=
  { s with
    cursorOffset := s.cursorOffset + bytes.length
    remaining := s.remaining - bytes.length
    dst := s.dst ++ bytes }

/-- The position of the visitor in an extent: `phys_byte_off` and `to_copy`. -/
structure CopyPos where
  physByteOff : Nat
  toCopy : Nat

/-- Advance by a number of copied bytes. -/
def CopyPos.advance (pos : CopyPos) (n : Nat) : CopyPos where
  physByteOff := pos.physByteOff + n
  toCopy := pos.toCopy - n

/-- Phase (a): the suffix of a block at a misaligned start. -/
def copyHead (disk : Disk) (lbaStart : Nat) (pos : CopyPos) (s : ReadState) :
    Except Status (CopyPos × ReadState) :=
  let headSkip := pos.physByteOff % 4096
  if 0 < headSkip ∧ 0 < pos.toCopy then
    match readBlocks disk (lbaStart + pos.physByteOff / 4096) 1 with
    | .error status => .error status
    | .ok scratch =>
        let thisCopy := min pos.toCopy (4096 - headSkip)
        .ok (pos.advance thisCopy, s.copied ((scratch.drop headSkip).take thisCopy))
  else .ok (pos, s)

/-- Phase (b): whole blocks. -/
def copyBulk (disk : Disk) (lbaStart : Nat) (pos : CopyPos) (s : ReadState) :
    Except Status (CopyPos × ReadState) :=
  if 4096 ≤ pos.toCopy then
    let bulkBlocks := pos.toCopy / 4096
    match readBlocks disk (lbaStart + pos.physByteOff / 4096) bulkBlocks with
    | .error status => .error status
    | .ok bytes => .ok (pos.advance (bulkBlocks * 4096), s.copied bytes)
  else .ok (pos, s)

/-- Phase (c): the first bytes of a last block. -/
def copyTail (disk : Disk) (lbaStart : Nat) (pos : CopyPos) (s : ReadState) :
    Except Status ReadState :=
  if 0 < pos.toCopy then
    match readBlocks disk (lbaStart + pos.physByteOff / 4096) 1 with
    | .error status => .error status
    | .ok scratch => .ok (s.copied (scratch.take pos.toCopy))
  else .ok s

/-- The three phases. -/
def copyExtent (disk : Disk) (lbaStart : Nat) (pos : CopyPos) (s : ReadState) :
    Except Status ReadState :=
  match copyHead disk lbaStart pos s with
  | .error status => .error status
  | .ok (pos, s) =>
      match copyBulk disk lbaStart pos s with
      | .error status => .error status
      | .ok (pos, s) => copyTail disk lbaStart pos s

/-- The chunk of an extent, from the cache or the database. -/
def resolveChunk (db : Db) (s : ReadState) (cid : UInt32) : Except Status (Chunk × ReadState) :=
  match s.chunkCache.find? fun cached => cached.1 = cid with
  | some cached => .ok (cached.2, s)
  | none =>
      match decodeChunkGet (db.lookup (.chunk cid)) with
      | .error status => .error status
      | .ok c => .ok (c, { s with chunkCache := (cid, c) :: s.chunkCache })

/-- The extent visitor of `ObjectStore::read`. -/
def visitExtent (db : Db) (disk : Disk) (s : ReadState) (extOff : UInt64) (e : ExtentEntry) :
    Bool × ReadState :=
  if s.remaining = 0 then (false, s)
  else
    let extEnd := (extOff.toNat + e.length.toNat) % 2 ^ 64
    if extEnd ≤ s.cursorOffset then (true, s)
    else if s.cursorOffset + s.remaining ≤ extOff.toNat then (false, s)
    else
      match resolveChunk db s e.chunkId with
      | .error status => (false, { s with visitStatus := .error status })
      | .ok (c, s) =>
          let inExtOff := s.cursorOffset - extOff.toNat
          let toCopy := min s.remaining (e.length.toNat - inExtOff)
          match copyExtent disk c.lbaStart.toNat
              { physByteOff := e.offsetInChunk.toNat + inExtOff, toCopy } s with
          | .error status => (false, { s with visitStatus := .error status })
          | .ok s => (0 < s.remaining, s)

/-- `path_lookup` and `get_attrs`, as every reader of an object does them first. -/
def lookupAttrs (db : Db) (path : ByteString) : Except Status ObjectAttrs :=
  match decodePathGet (db.lookup (.path path)) with
  | .error status => .error status
  | .ok oid => decodeAttrsGet (db.lookup (.attrs oid))

/-- `ObjectStore::read` into a caller's buffer of `dstCap` bytes. -/
def readInto (media : Media) (path : ByteString) (offset : UInt64) (dstCap : Nat) :
    Except Status (List UInt8) :=
  if !validateObjectPath path then .error .ERROR_INVALID_ARGUMENT
  else
    match decodePathGet (media.view.lookup (.path path)) with
    | .error status => .error status
    | .ok oid =>
        match decodeAttrsGet (media.view.lookup (.attrs oid)) with
        | .error status => .error status
        | .ok a =>
            if a.size < offset then .error .ERROR_OUT_OF_RANGE
            else
              let size := min dstCap (a.size - offset).toNat
              if size = 0 then .ok []
              else
                let result := iterExtents (visitExtent media.view media.disk) media.view oid offset
                  (offset + UInt64.ofNat size)
                  { visitStatus := .ok (), cursorOffset := offset.toNat, remaining := size
                    dst := [], chunkCache := [] }
                match result.2.visitStatus with
                | .error status => .error status
                | .ok () =>
                    match result.1 with
                    | .error status => .error status
                    | .ok () => .ok result.2.dst

/-- `ObjectStore::read` into a vector. -/
def read (media : Media) (path : ByteString) (offset : UInt64) (size : Nat) :
    Except Status (List UInt8) :=
  if !validateObjectPath path then .error .ERROR_INVALID_ARGUMENT
  else
    match lookupAttrs media.view path with
    | .error status => .error status
    | .ok a =>
        if a.size < offset then .error .ERROR_OUT_OF_RANGE
        else
          let size := min size (a.size - offset).toNat
          if size = 0 then .ok [] else readInto media path offset size

/-- `ObjectStore::stat`. -/
def stat (media : Media) (path : ByteString) : Except Status ObjectAttrs :=
  if !validateObjectPath path then .error .ERROR_INVALID_ARGUMENT
  else lookupAttrs media.view path

/-- `ObjectStore::open`.  It does not return if the chunk scan does not. -/
def openStore (syncMetadata : Bool) : PrimProg (Option (Except Status StoreMem)) :=
  .call .mount fun
    | .error _ => .ret (some (.error .ERROR_IO_FAILURE))
    | .ok mount =>
        metadataOpen >>= fun
          | .error status => .ret (some (.error status))
          | .ok (nextObjectId, nextChunkId) =>
              scanChunks (2 ^ 32) 1 none >>= fun
                | none => .ret none
                | some (.error status) => .ret (some (.error status))
                | some (.ok active) =>
                    .ret (some (.ok { mount, nextObjectId, nextChunkId, active, syncMetadata }))

end MiniFs.ObjStore
