import MiniFs.Nebula.Io
import MiniFs.Util.Crc32c

/-!
# On-disk structures

Each structure is packed and little-endian.  Its layout is an equivalence with the bytes it
occupies, so a device block always decodes and a decoded block encodes to itself.  A checksum is the
CRC-32C of the structure with its checksum field zero.
-/

namespace MiniFs

open Packed

/-- `struct nebula_mbr`. -/
structure NebulaMbr where
  magic : Bytes 8
  versionMajor : UInt16
  versionMinor : UInt16
  pad0 : UInt32
  deviceUuid : Bytes 16
  deviceCapacityBlocks : UInt64
  superblockHeadLba : UInt64
  checksum : UInt32
  reserved : Bytes 4044

/-- Byte layout of the master boot record. -/
def NebulaMbr.layout : Packed NebulaMbr 4096 :=
  record 4096
    { toFun := fun m => (m.magic, m.versionMajor, m.versionMinor, m.pad0, m.deviceUuid,
        m.deviceCapacityBlocks, m.superblockHeadLba, m.checksum, m.reserved)
      invFun := fun (a, b, c, d, e, f, g, h, i) => ⟨a, b, c, d, e, f, g, h, i⟩
      left_inv := fun _ => rfl
      right_inv := fun _ => rfl }
    (pair (raw 8) <| pair u16 <| pair u16 <| pair u32 <| pair (raw 16) <| pair u64 <| pair u64 <|
      pair u32 (raw 4044))
    rfl

/-- `NEBULA_MAGIC_MBR_STR`: the letters of NEBULA and two zero bytes. -/
def magicMbr : Bytes 8 := ![78, 69, 66, 85, 76, 65, 0, 0]

/-- `nebula_mbr_checksum`. -/
def nebulaMbrChecksum (mbr : NebulaMbr) : UInt32 :=
  crc32c (NebulaMbr.layout.bytes { mbr with checksum := 0 })

/-- `struct nebula_superblock`. -/
structure NebulaSuperblock where
  magic : UInt64
  versionMajor : UInt16
  versionMinor : UInt16
  inodeSize : UInt32
  deviceUuid : Bytes 16
  deviceCapacityBlocks : UInt64
  uberblockLba : UInt64
  uberblockCount : UInt32
  pad0 : UInt32
  allocRootsHeadLba : UInt64
  allocRootsTailLba : UInt64
  bitmapLba : UInt64
  bitmapBlockCount : UInt64
  streamMapLba : UInt64
  streamMapBlockCount : UInt64
  inodePageLba : UInt64
  inodePageBlockCount : UInt64
  dirPageLba : UInt64
  dirPageBlockCount : UInt64
  dataStartLba : UInt64
  dataBlockCount : UInt64
  sbTailLba : UInt64
  checksum : UInt32
  pad1 : UInt32
  reserved : Bytes 3928

/-- Byte layout of the superblock. -/
def NebulaSuperblock.layout : Packed NebulaSuperblock 4096 :=
  record 4096
    { toFun := fun s => (s.magic, s.versionMajor, s.versionMinor, s.inodeSize, s.deviceUuid,
        s.deviceCapacityBlocks, s.uberblockLba, s.uberblockCount, s.pad0, s.allocRootsHeadLba,
        s.allocRootsTailLba, s.bitmapLba, s.bitmapBlockCount, s.streamMapLba,
        s.streamMapBlockCount, s.inodePageLba, s.inodePageBlockCount, s.dirPageLba,
        s.dirPageBlockCount, s.dataStartLba, s.dataBlockCount, s.sbTailLba, s.checksum, s.pad1,
        s.reserved)
      invFun := fun (a, b, c, d, e, f, g, h, i, j, k, l, m, n, o, p, q, r, s, t, u, v, w, x, y) =>
        ⟨a, b, c, d, e, f, g, h, i, j, k, l, m, n, o, p, q, r, s, t, u, v, w, x, y⟩
      left_inv := fun _ => rfl
      right_inv := fun _ => rfl }
    (pair u64 <| pair u16 <| pair u16 <| pair u32 <| pair (raw 16) <| pair u64 <| pair u64 <|
      pair u32 <| pair u32 <| pair u64 <| pair u64 <| pair u64 <| pair u64 <| pair u64 <|
      pair u64 <| pair u64 <| pair u64 <| pair u64 <| pair u64 <| pair u64 <| pair u64 <|
      pair u64 <| pair u32 <| pair u32 (raw 3928))
    rfl

/-- `NEBULA_MAGIC_SB`. -/
def magicSb : UInt64 := 0x4E45425553420001

/-- `nebula_superblock_checksum`. -/
def nebulaSuperblockChecksum (sb : NebulaSuperblock) : UInt32 :=
  crc32c (NebulaSuperblock.layout.bytes { sb with checksum := 0 })

/-- `struct nebula_uberblock`. -/
structure NebulaUberblock where
  magic : UInt64
  txgId : UInt64
  timestampNs : UInt64
  bitmapRootLba : UInt64
  streamMapLba : UInt64
  streamMapHeadOffset : UInt64
  allocRootsCount : UInt32
  checksum : UInt32
  reserved : Bytes 4040

/-- Byte layout of an uberblock slot. -/
def NebulaUberblock.layout : Packed NebulaUberblock 4096 :=
  record 4096
    { toFun := fun u => (u.magic, u.txgId, u.timestampNs, u.bitmapRootLba, u.streamMapLba,
        u.streamMapHeadOffset, u.allocRootsCount, u.checksum, u.reserved)
      invFun := fun (a, b, c, d, e, f, g, h, i) => ⟨a, b, c, d, e, f, g, h, i⟩
      left_inv := fun _ => rfl
      right_inv := fun _ => rfl }
    (pair u64 <| pair u64 <| pair u64 <| pair u64 <| pair u64 <| pair u64 <| pair u32 <|
      pair u32 (raw 4040))
    rfl

/-- `NEBULA_MAGIC_UB`. -/
def magicUb : UInt64 := 0x4E4542555542424C

/-- `nebula_uberblock_checksum`. -/
def nebulaUberblockChecksum (ub : NebulaUberblock) : UInt32 :=
  crc32c (NebulaUberblock.layout.bytes { ub with checksum := 0 })

/-- `struct nebula_allocator_root`. -/
structure NebulaAllocatorRoot where
  rootId : UInt32
  pad0 : UInt32
  rangeStartBlock : UInt64
  rangeEndBlock : UInt64
  freeBlockCount : UInt64
  lastAllocHint : UInt64
  bitmapRegionLba : UInt64
  streamMapRegionLba : UInt64
  checksum : UInt32
  reserved : Bytes 4

/-- Byte layout of one allocator root. -/
def NebulaAllocatorRoot.layout : Packed NebulaAllocatorRoot 64 :=
  record 64
    { toFun := fun r => (r.rootId, r.pad0, r.rangeStartBlock, r.rangeEndBlock, r.freeBlockCount,
        r.lastAllocHint, r.bitmapRegionLba, r.streamMapRegionLba, r.checksum, r.reserved)
      invFun := fun (a, b, c, d, e, f, g, h, i, j) => ⟨a, b, c, d, e, f, g, h, i, j⟩
      left_inv := fun _ => rfl
      right_inv := fun _ => rfl }
    (pair u32 <| pair u32 <| pair u64 <| pair u64 <| pair u64 <| pair u64 <| pair u64 <|
      pair u64 <| pair u32 (raw 4))
    rfl

/-- A block of 64 allocator roots. -/
def allocatorRootsLayout : Packed (Fin 64 → NebulaAllocatorRoot) 4096 :=
  array 64 NebulaAllocatorRoot.layout

/-- `nebula_allocator_root_checksum`. -/
def nebulaAllocatorRootChecksum (root : NebulaAllocatorRoot) : UInt32 :=
  crc32c (NebulaAllocatorRoot.layout.bytes { root with checksum := 0 })

/-- `struct nebula_extent_map_entry`. -/
structure ExtentMapEntry where
  emOffset : UInt64
  emSizeAndFlags : UInt32
  emLba : UInt32
  deriving DecidableEq

/-- Byte layout of an extent map entry. -/
def ExtentMapEntry.layout : Packed ExtentMapEntry 16 :=
  record 16
    { toFun := fun e => (e.emOffset, e.emSizeAndFlags, e.emLba)
      invFun := fun (a, b, c) => ⟨a, b, c⟩
      left_inv := fun _ => rfl
      right_inv := fun _ => rfl }
    (pair u64 <| pair u32 u32)
    rfl

/-- `struct nebula_inode`. -/
structure NebulaInode where
  magic : UInt32
  version : UInt32
  inodeNum : UInt64
  type : UInt32
  mode : UInt32
  sizeBytes : UInt64
  allocSizeBytes : UInt64
  atimeNs : UInt64
  mtimeNs : UInt64
  ctimeNs : UInt64
  nlink : UInt32
  flags : UInt32
  checksum : UInt32
  attrReserved : Bytes 52
  extents : Fin 248 → ExtentMapEntry

/-- Byte layout of an inode. -/
def NebulaInode.layout : Packed NebulaInode 4096 :=
  record 4096
    { toFun := fun i => (i.magic, i.version, i.inodeNum, i.type, i.mode, i.sizeBytes,
        i.allocSizeBytes, i.atimeNs, i.mtimeNs, i.ctimeNs, i.nlink, i.flags, i.checksum,
        i.attrReserved, i.extents)
      invFun := fun (a, b, c, d, e, f, g, h, i, j, k, l, m, n, o) =>
        ⟨a, b, c, d, e, f, g, h, i, j, k, l, m, n, o⟩
      left_inv := fun _ => rfl
      right_inv := fun _ => rfl }
    (pair u32 <| pair u32 <| pair u64 <| pair u32 <| pair u32 <| pair u64 <| pair u64 <|
      pair u64 <| pair u64 <| pair u64 <| pair u32 <| pair u32 <| pair u32 <| pair (raw 52) <|
      array 248 ExtentMapEntry.layout)
    rfl

/-- An extent map entry of zero bytes: an empty slot. -/
def ExtentMapEntry.zero : ExtentMapEntry := ⟨0, 0, 0⟩

/-- An inode of zero bytes: a free slot. -/
def NebulaInode.zero : NebulaInode :=
  ⟨0, 0, 0, 0, 0, 0, 0, 0, 0, 0, 0, 0, 0, fun _ => 0, fun _ => .zero⟩

theorem ExtentMapEntry.zeroed : ExtentMapEntry.layout.Zeroed .zero :=
  .record (zeroed_u64.pair (zeroed_u32.pair zeroed_u32))

theorem NebulaInode.zeroed : NebulaInode.layout.Zeroed .zero :=
  .record (zeroed_u32.pair <| zeroed_u32.pair <| zeroed_u64.pair <| zeroed_u32.pair <|
    zeroed_u32.pair <| zeroed_u64.pair <| zeroed_u64.pair <| zeroed_u64.pair <|
    zeroed_u64.pair <| zeroed_u64.pair <| zeroed_u32.pair <| zeroed_u32.pair <|
    zeroed_u32.pair <| (zeroed_raw 52).pair (ExtentMapEntry.zeroed.array 248))

/-- A block of zeros is a free inode. -/
@[simp] theorem NebulaInode.layout_symm_zeroBlock : NebulaInode.layout.symm zeroBlock = .zero :=
  NebulaInode.zeroed.symm_zero

/-- The low half of `NEBULA_MAGIC_INODE`. -/
def magicInode : UInt32 := 0x4E4F4445

/-- `NEBULA_INODE_TYPE_FREE`. -/
def inodeTypeFree : UInt32 := 0
/-- `NEBULA_INODE_TYPE_FILE`. -/
def inodeTypeFile : UInt32 := 1
/-- `NEBULA_INODE_TYPE_DIR`. -/
def inodeTypeDir : UInt32 := 2

/-- `nebula_inode_checksum`. -/
def nebulaInodeChecksum (inode : NebulaInode) : UInt32 :=
  crc32c (NebulaInode.layout.bytes { inode with checksum := 0 })

/-- `struct nebula_dir_page_header`. -/
structure DirPageHeader where
  magic : UInt64
  version : UInt32
  entrySize : UInt32
  capacity : UInt64
  numEntries : UInt64
  checksum : UInt32
  reserved : Bytes 4060

/-- Byte layout of the directory header. -/
def DirPageHeader.layout : Packed DirPageHeader 4096 :=
  record 4096
    { toFun := fun h => (h.magic, h.version, h.entrySize, h.capacity, h.numEntries, h.checksum,
        h.reserved)
      invFun := fun (a, b, c, d, e, f, g) => ⟨a, b, c, d, e, f, g⟩
      left_inv := fun _ => rfl
      right_inv := fun _ => rfl }
    (pair u64 <| pair u32 <| pair u32 <| pair u64 <| pair u64 <| pair u32 (raw 4060))
    rfl

/-- `NEBULA_MAGIC_DIR_PAGE`. -/
def magicDirPage : UInt64 := 0x4E45444952504147

/-- The checksum of the directory header. -/
def dirHeaderChecksum (header : DirPageHeader) : UInt32 :=
  crc32c (DirPageHeader.layout.bytes { header with checksum := 0 })

/-- `struct nebula_dir_entry`. -/
structure DirEntry where
  hash : UInt64
  inodeNum : UInt64
  nameLen : UInt16
  flags : UInt16
  pad0 : UInt32
  name : Bytes 1000

/-- Byte layout of a directory entry. -/
def DirEntry.layout : Packed DirEntry 1024 :=
  record 1024
    { toFun := fun d => (d.hash, d.inodeNum, d.nameLen, d.flags, d.pad0, d.name)
      invFun := fun (a, b, c, d, e, f) => ⟨a, b, c, d, e, f⟩
      left_inv := fun _ => rfl
      right_inv := fun _ => rfl }
    (pair u64 <| pair u64 <| pair u16 <| pair u16 <| pair u32 (raw 1000))
    rfl

/-- `NEBULA_DIR_FLAG_USED`. -/
def dirFlagUsed : UInt16 := 0x01
/-- `NEBULA_DIR_FLAG_FILE`. -/
def dirFlagFile : UInt16 := 0x02
/-- `NEBULA_DIR_FLAG_DIR`. -/
def dirFlagDir : UInt16 := 0x04

/-- `fnv1a_hash` of a string without its terminator. -/
def fnv1aHash (name : List UInt8) : UInt64 :=
  name.foldl (fun hash byte => (hash ^^^ byte.toUInt64) * 0x100000001b3) 0xcbf29ce484222325

/-- The first bytes of a fixed array, zeros after them. -/
def bytesOfList (n : Nat) (bytes : List UInt8) : Bytes n := fun index => bytes.getD index 0

/-- A directory entry of zero bytes: an unused slot. -/
def DirEntry.zero : DirEntry := ⟨0, 0, 0, 0, 0, fun _ => 0⟩

theorem DirEntry.zeroed : DirEntry.layout.Zeroed .zero :=
  .record (zeroed_u64.pair <| zeroed_u64.pair <| zeroed_u16.pair <| zeroed_u16.pair <|
    zeroed_u32.pair (zeroed_raw 1000))

/-- A directory block of four entries. -/
def dirBlockLayout : Packed (Fin 4 → DirEntry) 4096 :=
  array 4 DirEntry.layout

/-- A block of zeros holds four unused slots. -/
@[simp] theorem dirBlockLayout_symm_zeroBlock :
    dirBlockLayout.symm zeroBlock = fun _ => .zero :=
  (DirEntry.zeroed.array 4).symm_zero

end MiniFs
