import MiniFs.Fs.InodeAlloc

/-!
# Files

A handle keeps a copy of the inode, with the extent map in it.  A write maps a block that has no
extent by allocating a run for the rest of the write, and changes blocks in place.
-/

namespace MiniFs

open Fs

/-- `struct nebula_file`, without its mount pointer and its unused position. -/
structure NebulaFile where
  inode : NebulaInode
  flags : UInt32
  dirty : Bool

/-- `NEBULA_O_RDONLY`. -/
def openReadOnly : UInt32 := 1
/-- `NEBULA_O_WRONLY`. -/
def openWriteOnly : UInt32 := 2
/-- `NEBULA_O_RDWR`. -/
def openReadWrite : UInt32 := 3

/-- `em_size_blocks`. -/
def ExtentMapEntry.sizeBlocks (entry : ExtentMapEntry) : Nat :=
  (entry.emSizeAndFlags &&& 0x00FFFFFF).toNat

/-- The extent covers a logical block. -/
def ExtentMapEntry.covers (entry : ExtentMapEntry) (blk : Nat) : Bool :=
  entry.sizeBlocks ≠ 0 ∧ entry.emOffset.toNat ≤ blk ∧
    blk < (entry.emOffset.toNat + entry.sizeBlocks) % 2 ^ 64

/-- `extent_find`. -/
def extentFind (inode : NebulaInode) (blk : Nat) : Option (Fin 248) :=
  (List.finRange 248).find? fun index => (inode.extents index).covers blk

/-- The device block of a logical block inside an extent. -/
def ExtentMapEntry.physLba (entry : ExtentMapEntry) (blk : Nat) : Nat :=
  (entry.emLba.toNat + (blk - entry.emOffset.toNat)) % 2 ^ 64

/-- The entry `extent_append` writes. -/
def ExtentMapEntry.for (blk n lba : Nat) : ExtentMapEntry where
  emOffset := UInt64.ofNat blk
  emSizeAndFlags := UInt32.ofNat n &&& 0x00FFFFFF
  emLba := UInt32.ofNat lba

/-- `extent_append`, or nothing if the map is full. -/
def extentAppend (inode : NebulaInode) (blk n lba : Nat) : Option NebulaInode :=
  ((List.finRange 248).find? fun index => (inode.extents index).sizeBlocks = 0).map fun index =>
    { inode with extents := Function.update inode.extents index (.for blk n lba) }

/-- `nebula_file_create`. -/
def nebulaFileCreate (mode : UInt32) (now : UInt64) : Fs NebulaFile := do
  let inodeNum ← nebulaInodeAlloc inodeTypeFile mode now
  let inode ← nebulaInodeRead inodeNum
  return { inode, flags := openReadWrite, dirty := false }

/-- `nebula_file_open`. -/
def nebulaFileOpen (inodeNum : UInt64) (flags : UInt32) : Fs NebulaFile := do
  if flags &&& (openReadOnly ||| openWriteOnly) = 0 then throw .EINVAL
  else
    let inode ← nebulaInodeRead inodeNum
    if inode.type = inodeTypeFree then throw .ENOENT
    else return { inode, flags, dirty := false }

/-- `nebula_file_close`. -/
def nebulaFileClose (file : NebulaFile) (now : UInt64) : Fs Unit := do
  if file.dirty then
    let (result, _) ← nebulaInodeWrite { file.inode with mtimeNs := now }
    match result with
    | .ok () => return ()
    | .error error => throw error
  else return ()

/-- Blocks to allocate for the rest of a write: enough for all of it, at most 256. -/
def needBlks (bytesLeft blkOff : Nat) : Nat :=
  let blocks := ((bytesLeft + blkOff + 4095) % 2 ^ 64 / 4096) % 2 ^ 32
  if 256 < blocks then 256 else if blocks = 0 then 1 else blocks

/-- The mapping part of the write loop: the device block of a logical block, allocated if there is
none, and the handle with the extent in its map. -/
def fileWriteMap (file : NebulaFile) (blk blkOff bytesLeft : Nat) :
    Fs (Except Errno Nat × NebulaFile) := do
  match extentFind file.inode blk with
  | some index => return (.ok ((file.inode.extents index).physLba blk), file)
  | none =>
      let need := needBlks bytesLeft blkOff
      match ← attempt (blockAlloc need) with
      | .error error => return (.error error, file)
      | .ok lba =>
          match extentAppend file.inode blk need lba with
          | none =>
              let _ ← attempt (blockFree lba need)
              return (.error .ENOSPC, file)
          | some inode => return (.ok lba, { file with inode, dirty := true })

/-- Copy bytes into a block. -/
def Block.splice (block : Block) (start : Nat) (bytes : List UInt8) : Block := fun index =>
  if start ≤ index.val then bytes.getD (index.val - start) (block index) else block index

/-- The transfer part of the write loop: a partial block is read first. -/
def fileWriteBlock (lba blkOff : Nat) (bytes : List UInt8) : Fs Unit := do
  let block ← if blkOff ≠ 0 ∨ bytes.length < 4096 then ioRead lba else pure zeroBlock
  ioWrite lba (block.splice blkOff bytes)

/-- Bytes of the block at `curOff` that a transfer of `left` bytes covers. -/
def blockPart (curOff left : Nat) : Nat := min (4096 - curOff % 4096) left

/-- The loop of `nebula_file_write`: what stopped it early, the bytes written, and the handle.  Each
round writes at least one byte, so the length of the data is enough fuel. -/
def fileWriteLoop (offset : UInt64) (data : List UInt8) :
    Nat → Nat → NebulaFile → Fs (Option Errno × Nat × NebulaFile)
  | 0, written, file => return (none, written, file)
  | fuel + 1, written, file => do
      if written < data.length then
        let curOff := (offset.toNat + written) % 2 ^ 64
        let toWrite := blockPart curOff (data.length - written)
        match ← fileWriteMap file (curOff / 4096) (curOff % 4096) (data.length - written) with
        | (.error error, file) => return (some error, written, file)
        | (.ok lba, file) =>
            match ← attempt (fileWriteBlock lba (curOff % 4096)
              ((data.drop written).take toWrite)) with
            | .error error => return (some error, written, file)
            | .ok () =>
                fileWriteLoop offset data fuel (written + toWrite) { file with dirty := true }
      else return (none, written, file)

/-- Blocks of all extents, in bytes. -/
def NebulaInode.extentBytes (inode : NebulaInode) : UInt64 :=
  (List.finRange 248).foldl
    (fun total index => total + UInt64.ofNat (inode.extents index).sizeBlocks * 4096) 0

/-- The size update of `nebula_file_write`. -/
def NebulaInode.grow (inode : NebulaInode) (reach : UInt64) : NebulaInode :=
  if inode.sizeBytes < reach then
    { inode with sizeBytes := reach, allocSizeBytes := inode.extentBytes }
  else inode

/-- The count or the error of a transfer that stopped. -/
def shortCount (done : Nat) (error : Errno) : Except Errno Nat :=
  if 0 < done then .ok done else .error error

/-- `nebula_file_write`: the result, and the handle. -/
def nebulaFileWrite (file : NebulaFile) (offset : UInt64) (data : List UInt8) (now : UInt64) :
    Fs (Except Errno Nat × NebulaFile) := do
  if file.flags &&& openWriteOnly = 0 then return (.error .EBADF, file)
  else if data = [] then return (.ok 0, file)
  else
    match ← fileWriteLoop offset data data.length 0 file with
    | (some error, written, file) => return (shortCount written error, file)
    | (none, written, file) =>
        let inode := { file.inode.grow (offset + UInt64.ofNat written) with mtimeNs := now }
        match ← nebulaInodeWrite inode with
        | (.error error, inode) => return (shortCount written error, { file with inode })
        | (.ok (), inode) => return (.ok written, { file with inode, dirty := false })

/-- Bytes of a block. -/
def Block.slice (block : Block) (start n : Nat) : List UInt8 :=
  ((List.ofFn block).drop start).take n

/-- The loop of `nebula_file_read`: what stopped it early, and the bytes read. -/
def fileReadLoop (file : NebulaFile) (offset : UInt64) (len : Nat) :
    Nat → List UInt8 → Fs (Option Errno × List UInt8)
  | 0, bytes => return (none, bytes)
  | fuel + 1, bytes => do
      if bytes.length < len then
        let curOff := (offset.toNat + bytes.length) % 2 ^ 64
        let toRead := blockPart curOff (len - bytes.length)
        match extentFind file.inode (curOff / 4096) with
        | none => fileReadLoop file offset len fuel (bytes ++ List.replicate toRead 0)
        | some index =>
            match ← attempt (ioRead ((file.inode.extents index).physLba (curOff / 4096))) with
            | .error error => return (some error, bytes)
            | .ok block =>
                fileReadLoop file offset len fuel (bytes ++ block.slice (curOff % 4096) toRead)
      else return (none, bytes)

/-- Bytes of a read request that lie inside the file. -/
def readLen (file : NebulaFile) (offset : UInt64) (len : Nat) : Nat :=
  if file.inode.sizeBytes.toNat < (offset.toNat + len) % 2 ^ 64 then
    file.inode.sizeBytes.toNat - offset.toNat
  else len

/-- `nebula_file_read`: the bytes, and the handle. -/
def nebulaFileRead (file : NebulaFile) (offset : UInt64) (len : Nat) (now : UInt64) :
    Fs (Except Errno (List UInt8) × NebulaFile) := do
  if file.flags &&& openReadOnly = 0 then return (.error .EBADF, file)
  else if len = 0 then return (.ok [], file)
  else if file.inode.sizeBytes ≤ offset then return (.ok [], file)
  else
    match ← fileReadLoop file offset (readLen file offset len) (readLen file offset len) [] with
    | (some error, bytes) => return (if bytes = [] then .error error else .ok bytes, file)
    | (none, bytes) =>
        return (.ok bytes, { file with inode := { file.inode with atimeNs := now } })

/-- The loop of `nebula_file_delete`: free every extent, and keep the last error. -/
def fileDeleteLoop (inode : NebulaInode) : List (Fin 248) → Option Errno → Fs (Option Errno)
  | [], status => return status
  | index :: rest, status => do
      if (inode.extents index).sizeBlocks = 0 then fileDeleteLoop inode rest status
      else
        match ← attempt (blockFree (inode.extents index).emLba.toNat
          (inode.extents index).sizeBlocks) with
        | .ok () => fileDeleteLoop inode rest status
        | .error error => fileDeleteLoop inode rest (some error)

/-- `nebula_file_delete`. -/
def nebulaFileDelete (file : NebulaFile) : Fs Unit := do
  let status ← fileDeleteLoop file.inode (List.finRange 248) none
  let freed ← attempt (nebulaInodeFree file.inode.inodeNum)
  match status, freed with
  | some error, _ => throw error
  | none, .error error => throw error
  | none, .ok () => return ()

end MiniFs
