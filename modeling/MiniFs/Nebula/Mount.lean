import MiniFs.Nebula.Bitmap
import MiniFs.Nebula.Format

/-!
# Mounting

A mount validates the master boot record, one of the two superblocks and an uberblock, and loads
the bitmap.  It only reads the device.
-/

namespace MiniFs

/-- Read one block. -/
def readBlock (disk : Disk) (lba : Nat) : Except Errno Block :=
  (nebulaIoRead .ok disk lba 1).map fun blocks => blocks.headD zeroBlock

theorem readBlock_eq {disk : Disk} {lba : Nat} (inside : lba < disk.capacityBlocks) :
    readBlock disk lba = .ok (disk.content lba) := by
  rw [readBlock, nebulaIoRead_fault_free (by omega)]
  simp [Except.map]

theorem readBlock_ok {disk : Disk} {lba : Nat} {block : Block}
    (read : readBlock disk lba = .ok block) :
    lba < disk.capacityBlocks ∧ disk.content lba = block := by
  by_cases inside : lba < disk.capacityBlocks
  · rw [readBlock_eq inside, Except.ok.injEq] at read
    exact ⟨inside, read⟩
  · simp only [readBlock, nebulaIoRead] at read
    cases range : ioRange disk lba 1 with
    | error error => simp [range, Except.map] at read
    | ok done => exact absurd (ioRange_ok_iff.mp range) (by omega)

theorem nebulaIoWrite_single {disk : Disk} {lba : Nat} (block : Block)
    (inside : lba < disk.capacityBlocks) :
    nebulaIoWrite .ok disk lba [block] = (.ok (), disk.push [(lba, block)]) :=
  nebulaIoWrite_fault_free inside

theorem nebulaIoWrite_single_refused {disk : Disk} {lba : Nat} (block : Block)
    (outside : ¬ lba < disk.capacityBlocks) :
    ∃ error, nebulaIoWrite .ok disk lba [block] = (.error error, disk) := by
  simp only [nebulaIoWrite]
  cases range : ioRange disk lba [block].length with
  | error error => exact ⟨error, rfl⟩
  | ok done =>
      have inside := ioRange_ok_iff.mp range
      rw [List.length_singleton] at inside
      omega

/-- `nebula_mbr_read`. -/
def nebulaMbrRead (disk : Disk) : Except Errno NebulaMbr :=
  match readBlock disk 0 with
  | .error error => .error error
  | .ok block =>
      let mbr := NebulaMbr.layout.symm block
      if mbr.magic ≠ magicMbr then .error .EINVAL
      else if mbr.checksum ≠ nebulaMbrChecksum mbr then .error Errno.EIO
      else .ok mbr

/-- `nebula_superblock_read`. -/
def nebulaSuperblockRead (disk : Disk) (lba : Nat) : Except Errno NebulaSuperblock :=
  match readBlock disk lba with
  | .error error => .error error
  | .ok block =>
      let sb := NebulaSuperblock.layout.symm block
      if sb.magic ≠ magicSb then .error .EINVAL
      else if sb.checksum ≠ nebulaSuperblockChecksum sb then .error Errno.EIO
      else .ok sb

/-- `nebula_uberblock_read_slot`. -/
def nebulaUberblockReadSlot (disk : Disk) (uberblockLba uberblockCount slot : Nat) :
    Except Errno NebulaUberblock :=
  if uberblockCount ≤ slot then .error .ERANGE
  else
    match readBlock disk ((uberblockLba + slot) % 2 ^ 64) with
    | .error error => .error error
    | .ok block =>
        let ub := NebulaUberblock.layout.symm block
        if ub.magic ≠ magicUb then .error .ENOENT
        else if ub.checksum ≠ nebulaUberblockChecksum ub then .error Errno.EIO
        else .ok ub

/-- The loop body of `pick_latest_uberblock`: a valid slot replaces the best one unless
its transaction group is lower.  The best slot is an `int`, and counts as missing when
it is negative. -/
def betterUberblock (disk : Disk) (sb : NebulaSuperblock)
    (best : Option (NebulaUberblock × Nat)) (slot : Nat) : Option (NebulaUberblock × Nat) :=
  match nebulaUberblockReadSlot disk sb.uberblockLba.toNat sb.uberblockCount.toNat slot with
  | .error _ => best
  | .ok ub =>
      match best with
      | none => some (ub, slot)
      | some (current, chosen) =>
          if 2 ^ 31 ≤ chosen ∨ current.txgId ≤ ub.txgId then some (ub, slot) else best

/-- `pick_latest_uberblock`. -/
def pickLatestUberblock (disk : Disk) (sb : NebulaSuperblock) :
    Except Errno (NebulaUberblock × Nat) :=
  match (List.range sb.uberblockCount.toNat).foldl (betterUberblock disk sb) none with
  | none => .error Errno.EIO
  | some found => if 2 ^ 31 ≤ found.2 then .error Errno.EIO else .ok found

/-- `struct nebula_mount`, without its I/O handle. -/
structure NebulaMount where
  mbr : NebulaMbr
  sb : NebulaSuperblock
  currentUb : NebulaUberblock
  currentUbSlot : Nat
  bitmap : HierBitmap

/-- The mount with another loaded bitmap. -/
def NebulaMount.withBitmap (mount : NebulaMount) (bitmap : HierBitmap) : NebulaMount :=
  { mount with bitmap }

@[simp] theorem NebulaMount.withBitmap_bitmap (mount : NebulaMount) (bitmap : HierBitmap) :
    (mount.withBitmap bitmap).bitmap = bitmap := rfl

@[simp] theorem NebulaMount.withBitmap_sb (mount : NebulaMount) (bitmap : HierBitmap) :
    (mount.withBitmap bitmap).sb = mount.sb := rfl

@[simp] theorem NebulaMount.withBitmap_withBitmap (mount : NebulaMount)
    (first second : HierBitmap) :
    (mount.withBitmap first).withBitmap second = mount.withBitmap second := rfl

@[simp] theorem NebulaMount.withBitmap_self (mount : NebulaMount) :
    mount.withBitmap mount.bitmap = mount := rfl

/-- The superblock of `nebula_mount_do`: the head copy, or the tail copy if the head is bad. -/
def mountSuperblock (disk : Disk) (mbr : NebulaMbr) : Except Errno NebulaSuperblock :=
  match nebulaSuperblockRead disk mbr.superblockHeadLba.toNat with
  | .ok sb => .ok sb
  | .error _ => nebulaSuperblockRead disk (disk.capacityBlocks - 1)

/-- `nebula_mount_do`, on an allocator that grants the requests in `allocates`. -/
def nebulaMountDo (heap : Nat → Block) (disk : Disk) (allocates : Nat → Bool := fun _ => true) :
    Except Errno NebulaMount :=
  match nebulaMbrRead disk with
  | .error error => .error error
  | .ok mbr =>
      match mountSuperblock disk mbr with
      | .error error => .error error
      | .ok sb =>
          if mbr.deviceUuid ≠ sb.deviceUuid then .error Errno.EIO
          else
            match pickLatestUberblock disk sb with
            | .error error => .error error
            | .ok (currentUb, currentUbSlot) =>
                match nebulaHbmLoad heap disk sb.bitmapLba.toNat sb.bitmapBlockCount.toNat
                    sb.deviceCapacityBlocks.toNat allocates with
                | .error error => .error error
                | .ok bitmap => .ok { mbr, sb, currentUb, currentUbSlot, bitmap }

/-- The parts of a successful mount. -/
theorem nebulaMountDo_ok_iff {heap : Nat → Block} {disk : Disk} {mount : NebulaMount}
    {allocates : Nat → Bool} :
    nebulaMountDo heap disk allocates = .ok mount ↔
      nebulaMbrRead disk = .ok mount.mbr ∧ mountSuperblock disk mount.mbr = .ok mount.sb ∧
      mount.mbr.deviceUuid = mount.sb.deviceUuid ∧
      pickLatestUberblock disk mount.sb = .ok (mount.currentUb, mount.currentUbSlot) ∧
      nebulaHbmLoad heap disk mount.sb.bitmapLba.toNat mount.sb.bitmapBlockCount.toNat
        mount.sb.deviceCapacityBlocks.toNat allocates = .ok mount.bitmap := by
  constructor
  · intro mounts
    rw [nebulaMountDo] at mounts
    cases mbrRead : nebulaMbrRead disk with
    | error error => simp [mbrRead] at mounts
    | ok mbr =>
        simp only [mbrRead] at mounts
        cases sbRead : mountSuperblock disk mbr with
        | error error => simp [sbRead] at mounts
        | ok sb =>
            simp only [sbRead] at mounts
            split_ifs at mounts with uuids
            cases picked : pickLatestUberblock disk sb with
            | error error => simp [picked] at mounts
            | ok found =>
                simp only [picked] at mounts
                cases loaded : nebulaHbmLoad heap disk sb.bitmapLba.toNat
                    sb.bitmapBlockCount.toNat sb.deviceCapacityBlocks.toNat allocates with
                | error error => simp [loaded] at mounts
                | ok bitmap =>
                    simp only [loaded, Except.ok.injEq] at mounts
                    subst mounts
                    exact ⟨rfl, sbRead, not_not.mp uuids, picked, loaded⟩
  · rintro ⟨mbrRead, sbRead, uuids, picked, loaded⟩
    rw [nebulaMountDo]
    simp only [mbrRead, sbRead, uuids, ne_eq, not_true_eq_false, if_false, picked, loaded]

end MiniFs
