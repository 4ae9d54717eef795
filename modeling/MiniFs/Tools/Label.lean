import MiniFs.Nebula.FreshMount

/-!
# Relabelling a device

`nebula_label write` stamps a new master boot record and carries the new identity over to both
superblocks, if it finds a valid one at block 1.
-/

namespace MiniFs

/-- The value of a hexadecimal digit. -/
def hexDigit (c : UInt8) : Option UInt8 :=
  if 48 ≤ c ∧ c ≤ 57 then some (c - 48)
  else if 97 ≤ c ∧ c ≤ 102 then some (c - 97 + 10)
  else if 65 ≤ c ∧ c ≤ 70 then some (c - 65 + 10)
  else none

/-- The loop of `parse_uuid`: pairs of digits, with dashes skipped between pairs, up to 16 bytes. -/
def parseUuidLoop : List UInt8 → List UInt8 → Option (List UInt8)
  | [], parsed => some parsed
  | [c], parsed => if parsed.length = 16 ∨ c = 45 then some parsed else none
  | c :: d :: rest, parsed =>
      if parsed.length = 16 then some parsed
      else if c = 45 then parseUuidLoop (d :: rest) parsed
      else
        match hexDigit c, hexDigit d with
        | some hi, some lo => parseUuidLoop rest (parsed ++ [(hi <<< 4) ||| lo])
        | _, _ => none

/-- `parse_uuid`. -/
def parseUuid (text : List UInt8) : Option (Bytes 16) :=
  match parseUuidLoop text [] with
  | none => none
  | some parsed => if parsed.length ≠ 16 then none else some fun index => parsed.getD index 0

/-- The text `auto`. -/
def autoText : List UInt8 := [97, 117, 116, 111]

/-- The superblock with another identity and a fresh checksum. -/
def relabelledSuperblock (uuid : Bytes 16) (sb : NebulaSuperblock) : NebulaSuperblock :=
  let renamed := { sb with deviceUuid := uuid, checksum := 0 }
  { renamed with checksum := nebulaSuperblockChecksum renamed }

/-- The identity `cmd_write` stamps, or its exit status. -/
def labelUuid (uuidArg : Option (List UInt8)) (generated : Except Errno (Bytes 16)) :
    Except Nat (Bytes 16) :=
  match uuidArg with
  | some text =>
      if text = autoText then generated.mapError fun _ => 1
      else
        match parseUuid text with
        | none => .error 2
        | some uuid => .ok uuid
  | none => generated.mapError fun _ => 1

/-- The superblocks in `cmd_write`: with a valid one at block 1, both copies are rewritten. -/
def labelSuperblocks (disk : Disk) (uuid : Bytes 16) : Nat × Disk :=
  match nebulaSuperblockRead disk 1 with
  | .ok sb =>
      let block := NebulaSuperblock.layout (relabelledSuperblock uuid sb)
      match nebulaIoWrite .ok disk 1 [block] with
      | (head, disk) =>
          match nebulaIoWrite .ok disk sb.sbTailLba.toNat [block] with
          | (tail, disk) =>
              match head, tail with
              | .ok (), .ok () => (0, disk)
              | _, _ => (1, disk)
  | .error _ => (0, disk)

/-- `cmd_write`, on an opened device: the exit status and the device. -/
def cmdWrite (disk : Disk) (uuidArg : Option (List UInt8)) (generated : Except Errno (Bytes 16))
    (capacityOverride : UInt64) : Nat × Disk :=
  let capBlocks :=
    if 0 < capacityOverride then capacityOverride.toNat else disk.capacityBlocks
  match labelUuid uuidArg generated with
  | .error status => (status, disk)
  | .ok uuid =>
      match nebulaIoWrite .ok disk 0 [NebulaMbr.layout (formatMbr uuid capBlocks)] with
      | (.error _, disk) => (1, disk)
      | (.ok (), disk) =>
          match labelSuperblocks disk uuid with
          | (0, disk) => (0, (nebulaIoFlush .ok disk).2)
          | (status, disk) => (status, disk)

section Magic

open Packed

/-- The first eight bytes of a block. -/
def blockMagic (block : Block) : Bytes 8 := fun index => block ⟨index, by omega⟩

theorem NebulaMbr.magic_symm (block : Block) :
    (NebulaMbr.layout.symm block).magic = blockMagic block := rfl

theorem NebulaSuperblock.magic_symm (block : Block) :
    (NebulaSuperblock.layout.symm block).magic = u64.symm (blockMagic block) := rfl

theorem NebulaUberblock.magic_symm (block : Block) :
    (NebulaUberblock.layout.symm block).magic = u64.symm (blockMagic block) := rfl

theorem blockMagic_mbr (mbr : NebulaMbr) : blockMagic (NebulaMbr.layout mbr) = mbr.magic := by
  rw [← NebulaMbr.magic_symm, Equiv.symm_apply_apply]

theorem blockMagic_superblock (sb : NebulaSuperblock) :
    blockMagic (NebulaSuperblock.layout sb) = u64 sb.magic := by
  rw [← Equiv.symm_apply_eq, ← NebulaSuperblock.magic_symm, Equiv.symm_apply_apply]

theorem u64_magicSb_ne : u64 magicSb ≠ magicMbr := by
  intro same
  exact absurd (congrFun same 0) (by decide)

theorem u64_magicUb_ne : u64 magicUb ≠ magicMbr := by
  intro same
  exact absurd (congrFun same 0) (by decide)

/-- A block that starts like a master boot record is not a superblock. -/
theorem nebulaSuperblockRead_of_mbr {disk : Disk} {lba : Nat}
    (mbr : blockMagic (disk.content lba) = magicMbr) :
    ∃ error, nebulaSuperblockRead disk lba = .error error := by
  rw [nebulaSuperblockRead]
  cases read : readBlock disk lba with
  | error error => exact ⟨error, rfl⟩
  | ok block =>
      have other : (NebulaSuperblock.layout.symm block).magic ≠ magicSb := by
        rw [NebulaSuperblock.magic_symm, ne_eq, Equiv.symm_apply_eq, ← (readBlock_ok read).2, mbr]
        exact fun same => u64_magicSb_ne same.symm
      simp only
      rw [if_pos other]
      exact ⟨_, rfl⟩

/-- Blocks that both start like another record are no uberblocks. -/
theorem nebulaUberblockReadSlot_of_magic {first second : Disk}
    (capacity : second.capacityBlocks = first.capacityBlocks) {lba count slot : Nat}
    (other : blockMagic (first.content ((lba + slot) % 2 ^ 64)) ≠ u64 magicUb)
    (other' : blockMagic (second.content ((lba + slot) % 2 ^ 64)) ≠ u64 magicUb) :
    nebulaUberblockReadSlot second lba count slot =
      nebulaUberblockReadSlot first lba count slot := by
  rw [nebulaUberblockReadSlot, nebulaUberblockReadSlot]
  split_ifs
  · rfl
  · generalize (lba + slot) % 2 ^ 64 = cell at other other'
    by_cases inside : cell < first.capacityBlocks
    · have bad : ∀ block : Block, blockMagic block ≠ u64 magicUb →
          (NebulaUberblock.layout.symm block).magic ≠ magicUb := by
        intro block different
        rwa [NebulaUberblock.magic_symm, ne_eq, Equiv.symm_apply_eq]
      rw [readBlock_eq inside, readBlock_eq (capacity ▸ inside)]
      simp only
      rw [if_pos (bad _ other'), if_pos (bad _ other)]
    · have refused : ∀ disk : Disk, disk.capacityBlocks = first.capacityBlocks →
          readBlock disk cell = readBlock first cell := by
        intro disk same
        simp only [readBlock, nebulaIoRead, ioRange, same]
        split_ifs <;> first | rfl | omega
      rw [refused second capacity]

end Magic

/-- The superblock copies a relabelling writes. -/
def superblockWrites (uuid : Bytes 16) : Except Errno NebulaSuperblock → List (Nat × Block)
  | .ok sb =>
      [(1, NebulaSuperblock.layout (relabelledSuperblock uuid sb)),
        (sb.sbTailLba.toNat, NebulaSuperblock.layout (relabelledSuperblock uuid sb))]
  | .error _ => []

/-- The blocks a relabelling writes. -/
def labelWrites (disk : Disk) (uuid : Bytes 16) (capBlocks : Nat) : List (Nat × Block) :=
  (0, NebulaMbr.layout (formatMbr uuid capBlocks)) ::
    superblockWrites uuid (nebulaSuperblockRead disk 1)

/-- The capacity `cmd_write` stamps. -/
def labelCapacity (disk : Disk) (capacityOverride : UInt64) : Nat :=
  if 0 < capacityOverride then capacityOverride.toNat else disk.capacityBlocks

theorem labelSuperblocks_ok {disk after : Disk} {uuid : Bytes 16}
    (finished : labelSuperblocks disk uuid = (0, after)) :
    after = disk.push (superblockWrites uuid (nebulaSuperblockRead disk 1)) := by
  simp only [labelSuperblocks] at finished
  cases found : nebulaSuperblockRead disk 1 with
  | error error =>
      simp only [found, Prod.mk.injEq, true_and] at finished
      simp [superblockWrites, finished]
  | ok sb =>
      simp only [found] at finished
      have inside : 1 < disk.capacityBlocks := by
        rw [nebulaSuperblockRead] at found
        cases read : readBlock disk 1 with
        | error error => simp [read] at found
        | ok block => exact (readBlock_ok read).1
      rw [nebulaIoWrite_single _ inside] at finished
      simp only at finished
      by_cases tail : sb.sbTailLba.toNat < (disk.push
          [(1, NebulaSuperblock.layout (relabelledSuperblock uuid sb))]).capacityBlocks
      · rw [nebulaIoWrite_single _ tail, Prod.mk.injEq] at finished
        rw [← finished.2]
        simp [superblockWrites, Disk.push, WriteCache.push]
      · obtain ⟨error, refused⟩ := nebulaIoWrite_single_refused
          (NebulaSuperblock.layout (relabelledSuperblock uuid sb)) tail
        rw [refused] at finished
        simp at finished

theorem labelUuid_error {uuidArg : Option (List UInt8)} {generated : Except Errno (Bytes 16)}
    {status : Nat} (failed : labelUuid uuidArg generated = .error status) : status ≠ 0 := by
  have mapped : (generated.mapError fun _ => 1) = .error status → status ≠ 0 := by
    intro failed
    cases generated with
    | error error =>
        simp only [Except.mapError, Except.error.injEq] at failed
        omega
    | ok uuid => simp [Except.mapError] at failed
  cases uuidArg with
  | none => exact mapped failed
  | some text =>
      simp only [labelUuid] at failed
      split_ifs at failed with auto
      · exact mapped failed
      · cases parsed : parseUuid text with
        | some uuid => simp [parsed] at failed
        | none =>
            simp only [parsed, Except.error.injEq] at failed
            omega

/-- A relabelling that exits with status 0 has written its blocks. -/
theorem cmdWrite_ok {disk after : Disk} {uuidArg : Option (List UInt8)}
    {generated : Except Errno (Bytes 16)} {capacityOverride : UInt64}
    (finished : cmdWrite disk uuidArg generated capacityOverride = (0, after)) :
    ∃ uuid, labelUuid uuidArg generated = .ok uuid ∧
      after = (disk.push (labelWrites disk uuid (labelCapacity disk capacityOverride))).flush := by
  simp only [cmdWrite, show (if 0 < capacityOverride then capacityOverride.toNat else
    disk.capacityBlocks) = labelCapacity disk capacityOverride from rfl] at finished
  cases chosen : labelUuid uuidArg generated with
  | error status =>
      simp only [chosen, Prod.mk.injEq] at finished
      exact absurd finished.1 (labelUuid_error chosen)
  | ok uuid =>
      refine ⟨uuid, rfl, ?_⟩
      simp only [chosen] at finished
      by_cases some : 0 < disk.capacityBlocks
      · rw [nebulaIoWrite_single _ some] at finished
        simp only at finished
        generalize stamped : disk.push
          [(0, NebulaMbr.layout (formatMbr uuid (labelCapacity disk capacityOverride)))] = marked
          at finished
        have head : nebulaSuperblockRead marked 1 = nebulaSuperblockRead disk 1 := by
          have same : readBlock marked 1 = readBlock disk 1 := by
            subst stamped
            apply readBlock_congr
            · rfl
            · simp
          rw [nebulaSuperblockRead, nebulaSuperblockRead, same]
        cases copies : labelSuperblocks marked uuid with
        | mk status written =>
            cases status with
            | zero =>
                simp only [copies, Prod.mk.injEq, true_and] at finished
                rw [← finished, labelSuperblocks_ok copies, head, ← stamped]
                simp [labelWrites, nebulaIoFlush, Disk.push, WriteCache.push]
            | succ status => simp [copies] at finished
      · obtain ⟨error, refused⟩ := @nebulaIoWrite_single_refused disk 0
          (NebulaMbr.layout (formatMbr uuid (labelCapacity disk capacityOverride))) some
        rw [refused] at finished
        simp at finished

/-! ## When a relabelled device still mounts -/

/-- The device with blocks blanked out. -/
def Disk.blank (disk : Disk) (lbas : List Nat) : Disk :=
  disk.push (lbas.map fun lba => (lba, zeroBlock))

/-- The region pointers of a superblock. -/
def NebulaSuperblock.regions (sb : NebulaSuperblock) : List UInt64 :=
  [sb.deviceCapacityBlocks, sb.uberblockLba, sb.uberblockCount.toUInt64, sb.allocRootsHeadLba,
    sb.allocRootsTailLba, sb.bitmapLba, sb.bitmapBlockCount, sb.streamMapLba,
    sb.streamMapBlockCount,
    sb.inodePageLba, sb.inodePageBlockCount, sb.dirPageLba, sb.dirPageBlockCount, sb.dataStartLba,
    sb.dataBlockCount, sb.sbTailLba]

/-- The device mounts under the identity `uuid` with the regions and the bitmap of an earlier
mount. -/
def MountsAs (heap : Nat → Block) (uuid : Bytes 16) (before : NebulaMount) (disk : Disk) : Prop :=
  ∃ mount, nebulaMountDo heap disk = .ok mount ∧ mount.mbr.deviceUuid = uuid ∧
    mount.sb.deviceUuid = uuid ∧ mount.sb.regions = before.sb.regions ∧ mount.bitmap = before.bitmap

/-- A superblock that a mount finds after the relabelling: a valid head copy whose tail pointer does
not point at the master boot record, or else a valid tail copy that has the new identity already. -/
def LabelSource (disk : Disk) (uuid : Bytes 16) (sb : NebulaSuperblock) : Prop :=
  nebulaSuperblockRead disk 1 = .ok sb ∧ sb.sbTailLba ≠ 0 ∨
    (∃ error, nebulaSuperblockRead disk 1 = .error error) ∧
      nebulaSuperblockRead disk (disk.capacityBlocks - 1) = .ok sb ∧ sb.deviceUuid = uuid

/-- The blocks a relabelling overwrites. -/
def labelBlocks (disk : Disk) : List Nat :=
  match nebulaSuperblockRead disk 1 with
  | .ok sb => [0, 1, sb.sbTailLba.toNat]
  | .error _ => [0]

/-- What a relabelling must find for the device to mount as before. -/
structure LabelSafe (disk : Disk) (uuid : Bytes 16) (capBlocks : Nat) (before : NebulaMount)
    (sb : NebulaSuperblock) : Prop where
  source : LabelSource disk uuid sb
  regions : sb.regions = before.sb.regions
  /-- An uberblock is found outside the overwritten blocks. -/
  uberblock : ∃ found, pickLatestUberblock (disk.blank (labelBlocks disk)) sb = .ok found
  /-- No bitmap page is overwritten by something else. -/
  bitmap : ∀ page < sb.bitmapBlockCount.toNat % 2 ^ 32, ∀ block,
    (sb.bitmapLba.toNat + page, block) ∈ labelWrites disk uuid capBlocks →
      disk.content (sb.bitmapLba.toNat + page) = block

theorem map_fst_labelWrites (disk : Disk) (uuid : Bytes 16) (capBlocks : Nat) :
    (labelWrites disk uuid capBlocks).map Prod.fst = labelBlocks disk := by
  rw [labelWrites, labelBlocks]
  cases nebulaSuperblockRead disk 1 <;> rfl

theorem nebulaSuperblockRead_ok {disk : Disk} {lba : Nat} {sb : NebulaSuperblock}
    (found : nebulaSuperblockRead disk lba = .ok sb) :
    lba < disk.capacityBlocks ∧ disk.content lba = NebulaSuperblock.layout sb ∧
      sb.magic = magicSb := by
  rw [nebulaSuperblockRead] at found
  cases read : readBlock disk lba with
  | error error => simp [read] at found
  | ok block =>
      simp only [read] at found
      split_ifs at found with magic checksum
      rw [Except.ok.injEq] at found
      subst found
      obtain ⟨inside, content⟩ := readBlock_ok read
      exact ⟨inside, by rw [content, Equiv.apply_symm_apply], not_not.mp magic⟩

@[simp] theorem relabelledSuperblock_regions (uuid : Bytes 16) (sb : NebulaSuperblock) :
    (relabelledSuperblock uuid sb).regions = sb.regions := rfl

/-- Every written block is a master boot record or a superblock. -/
theorem magic_of_mem_labelWrites {disk : Disk} {uuid : Bytes 16} {capBlocks : Nat}
    {write : Nat × Block} (member : write ∈ labelWrites disk uuid capBlocks) :
    blockMagic write.2 ≠ Packed.u64 magicUb := by
  rw [labelWrites, List.mem_cons] at member
  rcases member with rfl | member
  · rw [blockMagic_mbr]
    exact fun same => u64_magicUb_ne same.symm
  · cases found : nebulaSuperblockRead disk 1 with
    | error error => simp [found, superblockWrites] at member
    | ok sb =>
        have kind : blockMagic (NebulaSuperblock.layout (relabelledSuperblock uuid sb)) ≠
            Packed.u64 magicUb := by
          rw [blockMagic_superblock,
            show (relabelledSuperblock uuid sb).magic = sb.magic from rfl,
            (nebulaSuperblockRead_ok found).2.2, ne_eq, Equiv.apply_eq_iff_eq]
          decide
        simp only [found, superblockWrites, List.mem_cons, List.not_mem_nil, or_false] at member
        rcases member with rfl | rfl
        · exact kind
        · exact kind

theorem nebulaSuperblockRead_relabelled {disk : Disk} {lba : Nat}
    (inside : lba < disk.capacityBlocks)
    {uuid : Bytes 16} {sb : NebulaSuperblock} (magic : sb.magic = magicSb)
    (content : disk.content lba = NebulaSuperblock.layout (relabelledSuperblock uuid sb)) :
    nebulaSuperblockRead disk lba = .ok (relabelledSuperblock uuid sb) := by
  rw [nebulaSuperblockRead, readBlock_eq inside, content]
  simp only [Equiv.symm_apply_apply]
  rw [if_neg (by simp [relabelledSuperblock, magic]),
    if_neg (by simp [relabelledSuperblock, nebulaSuperblockChecksum])]

/-- The pages a load has read. -/
theorem nebulaHbmLoad_l0Bits {heap : Nat → Block} {disk : Disk} {lba count total : Nat}
    {bitmap : HierBitmap} (loaded : nebulaHbmLoad heap disk lba count total = .ok bitmap) :
    ∀ page < count % 2 ^ 32, bitmap.l0Bits page = disk.content (lba + page) := by
  intro page inside
  obtain ⟨-, -, -, pages, read, rfl⟩ := nebulaHbmLoad_eq_ok_iff.mp loaded
  generalize count % 2 ^ 32 = pageCount at read inside
  rw [nebulaIoRead] at read
  cases range : ioRange disk lba pageCount with
  | error error => simp [range] at read
  | ok done =>
      simp only [range, Except.ok.injEq] at read
      subst read
      simp [loadedBitmap, List.getD_eq_getElem?_getD, inside]

theorem Disk.content_blank (disk : Disk) (lbas : List Nat) (cell : Nat) :
    (disk.blank lbas).content cell = if cell ∈ lbas then zeroBlock else disk.content cell := by
  rw [Disk.blank, Disk.content_push]
  split_ifs with inside
  · apply applyWrites_of_mem
    · exact ⟨(cell, zeroBlock), List.mem_map.mpr ⟨cell, inside, rfl⟩, rfl⟩
    · intro write member _
      obtain ⟨lba, -, rfl⟩ := List.mem_map.mp member
      rfl
  · apply applyWrites_of_not_mem
    intro write member here
    obtain ⟨lba, listed, rfl⟩ := List.mem_map.mp member
    exact inside (here ▸ listed)

theorem blockMagic_zeroBlock : blockMagic zeroBlock ≠ Packed.u64 magicUb := by
  intro same
  exact absurd (congrFun same 0) (by decide)

section Relabelled

variable {heap : Nat → Block} {disk after : Disk} {uuid : Bytes 16} {capBlocks : Nat}

/-- What the relabelled device holds. -/
theorem content_relabelled
    (stamped : after = (disk.push (labelWrites disk uuid capBlocks)).flush) (cell : Nat) :
    (cell ∉ labelBlocks disk → after.content cell = disk.content cell) ∧
      (cell ∈ labelBlocks disk → blockMagic (after.content cell) ≠ Packed.u64 magicUb) := by
  have content :
      after.content cell = applyWrites disk.content (labelWrites disk uuid capBlocks) cell := by
    rw [stamped, Disk.content_flush, Disk.content_push]
  rw [content, ← map_fst_labelWrites disk uuid capBlocks]
  constructor
  · intro outside
    apply applyWrites_of_not_mem
    rintro write member rfl
    exact outside (List.mem_map_of_mem member)
  · intro inside
    obtain ⟨write, member, -, value⟩ :=
      exists_write_of_mem disk.content (List.mem_map.mp inside)
    rw [value]
    exact magic_of_mem_labelWrites member

/-- The uberblock search skips the overwritten blocks. -/
theorem pickLatestUberblock_relabelled
    (stamped : after = (disk.push (labelWrites disk uuid capBlocks)).flush)
    (sb : NebulaSuperblock) :
    pickLatestUberblock after sb = pickLatestUberblock (disk.blank (labelBlocks disk)) sb := by
  have capacity : after.capacityBlocks = (disk.blank (labelBlocks disk)).capacityBlocks := by
    rw [stamped]
    rfl
  have step : betterUberblock after sb = betterUberblock (disk.blank (labelBlocks disk)) sb := by
    funext best slot
    have same : nebulaUberblockReadSlot after sb.uberblockLba.toNat sb.uberblockCount.toNat slot =
        nebulaUberblockReadSlot (disk.blank (labelBlocks disk)) sb.uberblockLba.toNat
          sb.uberblockCount.toNat slot := by
      have held := content_relabelled stamped ((sb.uberblockLba.toNat + slot) % 2 ^ 64)
      have blank := disk.content_blank (labelBlocks disk) ((sb.uberblockLba.toNat + slot) % 2 ^ 64)
      by_cases inside : (sb.uberblockLba.toNat + slot) % 2 ^ 64 ∈ labelBlocks disk
      · rw [if_pos inside] at blank
        exact nebulaUberblockReadSlot_of_magic capacity (blank ▸ blockMagic_zeroBlock)
          (held.2 inside)
      · rw [if_neg inside] at blank
        rw [nebulaUberblockReadSlot, nebulaUberblockReadSlot,
          readBlock_congr capacity ((held.1 inside).trans blank.symm)]
    rw [betterUberblock, betterUberblock, same]
  rw [pickLatestUberblock, pickLatestUberblock, step]

/-- Without a tail pointer to block 0 the new master boot record is read back. -/
theorem nebulaMbrRead_relabelled
    (stamped : after = (disk.push (labelWrites disk uuid capBlocks)).flush)
    (some : 0 < disk.capacityBlocks)
    (apart : ∀ sb, nebulaSuperblockRead disk 1 = .ok sb → sb.sbTailLba ≠ 0) :
    nebulaMbrRead after = .ok (formatMbr uuid capBlocks) := by
  have content : after.content 0 = NebulaMbr.layout (formatMbr uuid capBlocks) := by
    rw [stamped, Disk.content_flush, Disk.content_push, labelWrites]
    cases found : nebulaSuperblockRead disk 1 with
    | error error => simp [superblockWrites]
    | ok sb =>
        have elsewhere : sb.sbTailLba.toNat ≠ 0 := fun zero =>
          apart sb found (UInt64.toNat_inj.mp zero)
        simp [superblockWrites, Function.update_of_ne elsewhere.symm]
  rw [nebulaMbrRead, readBlock_eq (by rw [stamped]; exact some), content]
  simp only [Equiv.symm_apply_apply]
  rw [if_neg (by simp [formatMbr]), if_neg (by simp [formatMbr, nebulaMbrChecksum])]

/-- With a tail pointer to block 0 the master boot record is lost. -/
theorem nebulaMbrRead_overwritten
    (stamped : after = (disk.push (labelWrites disk uuid capBlocks)).flush) {sb : NebulaSuperblock}
    (found : nebulaSuperblockRead disk 1 = .ok sb) (zero : sb.sbTailLba = 0) :
    nebulaMbrRead after = .error .EINVAL := by
  obtain ⟨inside, -, magic⟩ := nebulaSuperblockRead_ok found
  have content : after.content 0 = NebulaSuperblock.layout (relabelledSuperblock uuid sb) := by
    rw [stamped, Disk.content_flush, Disk.content_push, labelWrites, found]
    simp [superblockWrites, zero]
  have other : (NebulaMbr.layout.symm (after.content 0)).magic ≠ magicMbr := by
    rw [NebulaMbr.magic_symm, content, blockMagic_superblock,
      show (relabelledSuperblock uuid sb).magic = sb.magic from rfl, magic]
    exact u64_magicSb_ne
  have some : 0 < after.capacityBlocks := by
    rw [stamped]
    exact Nat.zero_lt_of_lt inside
  rw [nebulaMbrRead, readBlock_eq some]
  simp only
  rw [if_pos other]

/-- The superblock a mount finds on the relabelled device. -/
theorem mountSuperblock_relabelled
    (stamped : after = (disk.push (labelWrites disk uuid capBlocks)).flush) :
    mountSuperblock after (formatMbr uuid capBlocks) =
      match nebulaSuperblockRead disk 1 with
      | .ok sb => .ok (relabelledSuperblock uuid sb)
      | .error _ => nebulaSuperblockRead after (disk.capacityBlocks - 1) := by
  have head : (formatMbr uuid capBlocks).superblockHeadLba.toNat = 1 := rfl
  have capacity : after.capacityBlocks = disk.capacityBlocks := by
    rw [stamped]
    rfl
  rw [mountSuperblock, head, capacity]
  cases found : nebulaSuperblockRead disk 1 with
  | ok sb =>
      obtain ⟨inside, -, magic⟩ := nebulaSuperblockRead_ok found
      have content : after.content 1 = NebulaSuperblock.layout (relabelledSuperblock uuid sb) := by
        rw [stamped, Disk.content_flush, Disk.content_push, labelWrites, found]
        by_cases same : 1 = sb.sbTailLba.toNat
        · simp [superblockWrites, ← same]
        · simp [superblockWrites, Function.update_of_ne same]
      rw [nebulaSuperblockRead_relabelled (capacity ▸ inside) magic content]
  | error error =>
      have same : nebulaSuperblockRead after 1 = nebulaSuperblockRead disk 1 := by
        have outside : 1 ∉ labelBlocks disk := by simp [labelBlocks, found]
        rw [nebulaSuperblockRead, nebulaSuperblockRead,
          readBlock_congr capacity ((content_relabelled stamped 1).1 outside)]
      rw [same, found]

theorem nebulaMbrRead_ok {mbr : NebulaMbr} (found : nebulaMbrRead disk = .ok mbr) :
    0 < disk.capacityBlocks ∧ blockMagic (disk.content 0) = magicMbr := by
  rw [nebulaMbrRead] at found
  cases read : readBlock disk 0 with
  | error error => simp [read] at found
  | ok block =>
      simp only [read] at found
      split_ifs at found with magic checksum
      obtain ⟨inside, content⟩ := readBlock_ok read
      rw [content]
      exact ⟨inside, not_not.mp magic⟩

/-- The tail copy is not touched when there is no head copy. -/
theorem tail_relabelled (stamped : after = (disk.push (labelWrites disk uuid capBlocks)).flush)
    {mbr : NebulaMbr} (label : nebulaMbrRead disk = .ok mbr) {error : Errno}
    (found : nebulaSuperblockRead disk 1 = .error error) (sb : NebulaSuperblock) :
    nebulaSuperblockRead after (disk.capacityBlocks - 1) = .ok sb ↔
      nebulaSuperblockRead disk (disk.capacityBlocks - 1) = .ok sb := by
  have capacity : after.capacityBlocks = disk.capacityBlocks := by
    rw [stamped]
    rfl
  obtain ⟨some, magic⟩ := nebulaMbrRead_ok label
  by_cases single : disk.capacityBlocks - 1 = 0
  · rw [single]
    have kept := nebulaMbrRead_relabelled stamped some fun sb present => by
      rw [found] at present
      contradiction
    obtain ⟨first, before⟩ := nebulaSuperblockRead_of_mbr magic
    obtain ⟨second, later⟩ := nebulaSuperblockRead_of_mbr (nebulaMbrRead_ok kept).2
    rw [before, later]
    simp
  · have outside : disk.capacityBlocks - 1 ∉ labelBlocks disk := by
      simpa [labelBlocks, found] using single
    rw [nebulaSuperblockRead, nebulaSuperblockRead,
      readBlock_congr capacity ((content_relabelled stamped _).1 outside)]

/-- A relabelled device finds the superblock that `LabelSource` names, and no other. -/
theorem source_relabelled (stamped : after = (disk.push (labelWrites disk uuid capBlocks)).flush)
    {mbr : NebulaMbr} (label : nebulaMbrRead disk = .ok mbr) (found : NebulaSuperblock) :
    (nebulaMbrRead after = .ok (formatMbr uuid capBlocks) ∧
        mountSuperblock after (formatMbr uuid capBlocks) = .ok found ∧ found.deviceUuid = uuid) ↔
      ∃ sb, LabelSource disk uuid sb ∧
        (found = relabelledSuperblock uuid sb ∧ (∃ head, nebulaSuperblockRead disk 1 = .ok head) ∨
          found = sb ∧ ∃ error, nebulaSuperblockRead disk 1 = .error error) := by
  have some := (nebulaMbrRead_ok label).1
  rw [mountSuperblock_relabelled stamped]
  cases head : nebulaSuperblockRead disk 1 with
  | ok sb =>
      simp only [LabelSource, head]
      constructor
      · rintro ⟨kept, superblock, -⟩
        rw [Except.ok.injEq] at superblock
        refine ⟨sb, .inl ⟨rfl, fun zero => ?_⟩, .inl ⟨superblock.symm, sb, rfl⟩⟩
        rw [nebulaMbrRead_overwritten stamped head zero] at kept
        contradiction
      · rintro ⟨other, ⟨same, apart⟩ | ⟨⟨error, bad⟩, -⟩, ⟨rfl, -⟩ | ⟨-, error, bad⟩⟩
        · rw [Except.ok.injEq] at same
          subst same
          refine ⟨nebulaMbrRead_relabelled stamped some fun sb present => ?_, rfl, rfl⟩
          rw [head, Except.ok.injEq] at present
          exact present ▸ apart
        · contradiction
        · contradiction
        · contradiction
  | error error =>
      have tail := tail_relabelled stamped label head
      simp only [LabelSource, head]
      constructor
      · rintro ⟨-, superblock, identity⟩
        exact ⟨found, .inr ⟨⟨error, rfl⟩, (tail found).mp superblock, identity⟩,
          .inr ⟨rfl, error, rfl⟩⟩
      · rintro ⟨sb, ⟨present, -⟩ | ⟨-, valid, identity⟩, ⟨-, other, present⟩ | ⟨rfl, -⟩⟩
        · contradiction
        · contradiction
        · contradiction
        · refine ⟨nebulaMbrRead_relabelled stamped some fun sb present => ?_,
            (tail _).mpr valid, identity⟩
          rw [head] at present
          contradiction

/-- A mount uses the region pointers of its superblock, and nothing else of it. -/
theorem regions_congr {first second : NebulaSuperblock} (same : first.regions = second.regions) :
    (∀ disk, pickLatestUberblock disk first = pickLatestUberblock disk second) ∧
      first.bitmapLba = second.bitmapLba ∧ first.bitmapBlockCount = second.bitmapBlockCount ∧
      first.deviceCapacityBlocks = second.deviceCapacityBlocks := by
  simp only [NebulaSuperblock.regions, List.cons.injEq] at same
  obtain ⟨capacity, lba, count, -, -, bitmap, pages, -⟩ := same
  have slots : first.uberblockCount = second.uberblockCount := UInt32.toUInt64_inj.mp count
  refine ⟨fun disk => ?_, bitmap, pages, capacity⟩
  have step : betterUberblock disk first = betterUberblock disk second := by
    funext best slot
    rw [betterUberblock, betterUberblock, lba, slots]
  rw [pickLatestUberblock, pickLatestUberblock, step, slots]

/-- The bitmap loads as before just if no page of it is overwritten by something else. -/
theorem bitmap_relabelled (stamped : after = (disk.push (labelWrites disk uuid capBlocks)).flush)
    (consistent : ∀ cell block, (cell, block) ∈ labelWrites disk uuid capBlocks →
      after.content cell = block) {lba count total : Nat} {bitmap : HierBitmap}
    (loaded : nebulaHbmLoad heap disk lba count total = .ok bitmap) :
    nebulaHbmLoad heap after lba count total = .ok bitmap ↔
      ∀ page < count % 2 ^ 32, ∀ block, (lba + page, block) ∈ labelWrites disk uuid capBlocks →
        disk.content (lba + page) = block := by
  have capacity : after.capacityBlocks = disk.capacityBlocks := by
    rw [stamped]
    rfl
  constructor
  · intro again page inside block member
    rw [← consistent _ _ member, ← nebulaHbmLoad_l0Bits loaded page inside,
      nebulaHbmLoad_l0Bits again page inside]
  · intro unchanged
    rw [← loaded]
    apply nebulaHbmLoad_congr capacity
    intro page inside
    by_cases overwritten : lba + page ∈ labelBlocks disk
    · rw [← map_fst_labelWrites disk uuid capBlocks] at overwritten
      obtain ⟨⟨cell, block⟩, member, here⟩ := List.mem_map.mp overwritten
      simp only at here
      subst here
      rw [consistent _ _ member, unchanged page inside block member]
    · exact (content_relabelled stamped _).1 overwritten

/-- Unless the tail pointer points at block 0, the relabelled device holds what was written. -/
theorem consistent_relabelled
    (stamped : after = (disk.push (labelWrites disk uuid capBlocks)).flush)
    {sb : NebulaSuperblock} (source : LabelSource disk uuid sb) :
    ∀ cell block, (cell, block) ∈ labelWrites disk uuid capBlocks → after.content cell = block := by
  intro cell block member
  rw [stamped, Disk.content_flush, Disk.content_push]
  apply applyWrites_of_mem
  · exact ⟨_, member, rfl⟩
  · rintro ⟨other, value⟩ written rfl
    rw [labelWrites, List.mem_cons] at member written
    rcases source with ⟨found, apart⟩ | ⟨⟨error, found⟩, -⟩
    · have elsewhere : sb.sbTailLba.toNat ≠ 0 := fun zero => apart (UInt64.toNat_inj.mp zero)
      simp only [found, superblockWrites, List.mem_cons, List.not_mem_nil, or_false,
        Prod.mk.injEq] at member written
      rcases member with ⟨rfl, rfl⟩ | ⟨rfl, rfl⟩ | ⟨rfl, rfl⟩ <;>
        rcases written with ⟨here, rfl⟩ | ⟨here, rfl⟩ | ⟨here, rfl⟩ <;>
        first | exact absurd here (by omega) | rfl
    · simp only [found, superblockWrites, List.not_mem_nil, or_false,
        Prod.mk.injEq] at member written
      rw [member.2, written.2]

end Relabelled

/-- After a relabelling with exit status 0 a mountable device mounts again, under the new identity
and with the same regions and bitmap, just if it was safe to relabel. -/
theorem relabel_keeps_mount_iff {heap : Nat → Block} {disk after : Disk} {before : NebulaMount}
    {uuidArg : Option (List UInt8)} {generated : Except Errno (Bytes 16)}
    {capacityOverride : UInt64} (mounts : nebulaMountDo heap disk = .ok before)
    (finished : cmdWrite disk uuidArg generated capacityOverride = (0, after)) :
    ∃ uuid, labelUuid uuidArg generated = .ok uuid ∧
      (MountsAs heap uuid before after ↔
        ∃ sb, LabelSafe disk uuid (labelCapacity disk capacityOverride) before sb) := by
  obtain ⟨uuid, chosen, stamped⟩ := cmdWrite_ok finished
  refine ⟨uuid, chosen, ?_⟩
  generalize labelCapacity disk capacityOverride = capBlocks at stamped
  obtain ⟨label, -, -, -, loaded⟩ := nebulaMountDo_ok_iff.mp mounts
  constructor
  · rintro ⟨mount, again, identity, sbIdentity, regions, bitmap⟩
    obtain ⟨mbr, superblock, -, picked, reloaded⟩ := nebulaMountDo_ok_iff.mp again
    have kept : nebulaMbrRead after = .ok (formatMbr uuid capBlocks) := by
      apply nebulaMbrRead_relabelled stamped (nebulaMbrRead_ok label).1
      intro sb found zero
      rw [nebulaMbrRead_overwritten stamped found zero] at mbr
      contradiction
    rw [kept, Except.ok.injEq] at mbr
    rw [← mbr] at superblock
    obtain ⟨sb, source, found⟩ :=
      (source_relabelled stamped label mount.sb).mp ⟨kept, superblock, sbIdentity⟩
    have same : mount.sb.regions = sb.regions := by
      rcases found with ⟨found, -⟩ | ⟨found, -⟩
      · rw [found, relabelledSuperblock_regions]
      · rw [found]
    obtain ⟨search, lba, count, capacity⟩ := regions_congr (same.symm.trans regions)
    obtain ⟨-, lba', count', capacity'⟩ := regions_congr regions
    rw [lba', count', capacity', bitmap] at reloaded
    refine ⟨sb, source, same.symm.trans regions, ⟨(mount.currentUb, mount.currentUbSlot), ?_⟩, ?_⟩
    · rw [← (regions_congr same).1, ← pickLatestUberblock_relabelled stamped]
      exact picked
    · rw [lba, count]
      exact (bitmap_relabelled stamped (consistent_relabelled stamped source) loaded).mp reloaded
  · rintro ⟨sb, source, regions, ⟨⟨ub, slot⟩, picked⟩, unchanged⟩
    obtain ⟨found, superblock⟩ : ∃ found, found.regions = sb.regions ∧
        nebulaMbrRead after = .ok (formatMbr uuid capBlocks) ∧
        mountSuperblock after (formatMbr uuid capBlocks) = .ok found ∧ found.deviceUuid = uuid := by
      cases head : nebulaSuperblockRead disk 1 with
      | ok first =>
          exact ⟨_, relabelledSuperblock_regions uuid sb, (source_relabelled stamped label _).mpr
            ⟨sb, source, .inl ⟨rfl, first, head⟩⟩⟩
      | error error =>
          exact ⟨sb, rfl, (source_relabelled stamped label _).mpr
            ⟨sb, source, .inr ⟨rfl, error, head⟩⟩⟩
    obtain ⟨same, kept, mounted, identity⟩ := superblock
    obtain ⟨-, lba, count, capacity⟩ := regions_congr regions
    obtain ⟨search, lba', count', capacity'⟩ := regions_congr (same.trans regions)
    rw [lba, count] at unchanged
    refine ⟨⟨formatMbr uuid capBlocks, found, ub, slot, before.bitmap⟩,
      nebulaMountDo_ok_iff.mpr ⟨kept, mounted, identity.symm, ?_, ?_⟩, rfl, identity,
      same.trans regions, rfl⟩
    · rw [pickLatestUberblock_relabelled stamped, (regions_congr same).1]
      exact picked
    · simp only [lba', count', capacity']
      exact (bitmap_relabelled stamped (consistent_relabelled stamped source) loaded).mpr unchanged

/-- With no valid superblock at block 1 a relabelling writes the master boot record only. -/
theorem cmdWrite_of_bad_head {disk : Disk} {uuid : Bytes 16} {error : Errno}
    (some : 0 < disk.capacityBlocks) (bad : nebulaSuperblockRead disk 1 = .error error) :
    (cmdWrite disk none (.ok uuid) 0).1 = 0 := by
  have marked : nebulaSuperblockRead (disk.push
      [(0, NebulaMbr.layout (formatMbr uuid disk.capacityBlocks))]) 1 = .error error := by
    have same : readBlock (disk.push
        [(0, NebulaMbr.layout (formatMbr uuid disk.capacityBlocks))]) 1 = readBlock disk 1 := by
      apply readBlock_congr
      · rfl
      · simp
    rw [nebulaSuperblockRead, same]
    exact bad
  have size : (if (0 : UInt64) < 0 then UInt64.toNat 0 else disk.capacityBlocks) =
      disk.capacityBlocks := if_neg (by decide)
  simp only [cmdWrite, size, labelUuid, Except.mapError, nebulaIoWrite_single _ some,
    labelSuperblocks, marked]

/-- With a valid superblock at block 1 a relabelling rewrites both copies. -/
theorem cmdWrite_of_head {disk : Disk} {uuid : Bytes 16} {sb : NebulaSuperblock}
    (found : nebulaSuperblockRead disk 1 = .ok sb)
    (tail : sb.sbTailLba.toNat < disk.capacityBlocks) :
    (cmdWrite disk none (.ok uuid) 0).1 = 0 := by
  have inside := (nebulaSuperblockRead_ok found).1
  have marked : nebulaSuperblockRead (disk.push
      [(0, NebulaMbr.layout (formatMbr uuid disk.capacityBlocks))]) 1 = .ok sb := by
    have same : readBlock (disk.push
        [(0, NebulaMbr.layout (formatMbr uuid disk.capacityBlocks))]) 1 = readBlock disk 1 := by
      apply readBlock_congr
      · rfl
      · simp
    rw [nebulaSuperblockRead, same]
    exact found
  have first := @nebulaIoWrite_single (disk.push
    [(0, NebulaMbr.layout (formatMbr uuid disk.capacityBlocks))]) 1
    (NebulaSuperblock.layout (relabelledSuperblock uuid sb)) inside
  have second := @nebulaIoWrite_single ((disk.push
    [(0, NebulaMbr.layout (formatMbr uuid disk.capacityBlocks))]).push
    [(1, NebulaSuperblock.layout (relabelledSuperblock uuid sb))]) sb.sbTailLba.toNat
    (NebulaSuperblock.layout (relabelledSuperblock uuid sb)) tail
  have size : (if (0 : UInt64) < 0 then UInt64.toNat 0 else disk.capacityBlocks) =
      disk.capacityBlocks := if_neg (by decide)
  simp only [cmdWrite, size, labelUuid, Except.mapError,
    nebulaIoWrite_single _ (Nat.zero_lt_of_lt inside), labelSuperblocks, marked, first, second]

theorem relabel_keeps_mount_iff_plainDisk : ∃ before after,
    nebulaMountDo (fun _ => zeroBlock) (plainDisk 65536 (by decide)) = .ok before ∧
    cmdWrite (plainDisk 65536 (by decide)) none (.ok fun _ => 7) 0 = (0, after) ∧
    ∃ uuid, labelUuid none (.ok fun _ => 7) = .ok uuid ∧
      (MountsAs (fun _ => zeroBlock) uuid before after ↔
        ∃ sb, LabelSafe (plainDisk 65536 (by decide)) uuid
          (labelCapacity (plainDisk 65536 (by decide)) 0) before sb) := by
  have done := nebulaFormat_zeroedDisk le_rfl (show 65536 < 2 ^ 52 by decide)
  obtain ⟨layout, sound, capacity, blocks, -, formatted, -⟩ := nebulaFormat_spec done
  have total : layout.capacityBlocks = 65536 := capacity
  have tight := sound.bitmap_tight
  have last := sound.sbTail_eq
  have size : (plainDisk 65536 (by decide)).capacityBlocks = layout.capacityBlocks :=
    blocks.trans capacity.symm
  obtain ⟨mount, mounts, -⟩ := (Mountable.of_formatted sound size formatted).nebulaMountDo_ok
    (fun _ => zeroBlock) (by omega)
  have head := nebulaSuperblockRead_format (show 1 < (plainDisk 65536 (by decide)).capacityBlocks by
    omega) formatted.sbHead
  have records := formatSuperblock_records sound (by omega) plainOptions.uuid
  have finished := @cmdWrite_of_head _ (fun _ => 7) _ head (by rw [records.sbTailLba]; omega)
  exact ⟨mount, _, mounts, Prod.ext finished rfl,
    relabel_keeps_mount_iff mounts (Prod.ext finished rfl)⟩

/-- A device that mounts through its tail superblock only is relabelled to one that does
not mount. -/
theorem relabel_breaks_tail_mount : ¬ ∀ (heap : Nat → Block) (disk after : Disk)
    (before : NebulaMount)
    (uuidArg : Option (List UInt8)) (generated : Except Errno (Bytes 16))
    (capacityOverride : UInt64) (uuid : Bytes 16), nebulaMountDo heap disk = .ok before →
    cmdWrite disk uuidArg generated capacityOverride = (0, after) →
    labelUuid uuidArg generated = .ok uuid → MountsAs heap uuid before after := by
  intro claim
  have done := nebulaFormat_zeroedDisk le_rfl (show 65536 < 2 ^ 52 by decide)
  obtain ⟨layout, sound, capacity, blocks, -, formatted, -⟩ := nebulaFormat_spec done
  have total : layout.capacityBlocks = 65536 := capacity
  have tight := sound.bitmap_tight
  have last := sound.sbTail_eq
  have size : (plainDisk 65536 (by decide)).capacityBlocks = layout.capacityBlocks :=
    blocks.trans capacity.symm
  have mountable := Mountable.of_formatted sound size formatted
  obtain ⟨mount, mounts, -⟩ := mountable.nebulaMountDo_ok (fun _ => zeroBlock) (by omega)
  obtain ⟨damaged, damage⟩ : ∃ damaged, damaged =
    (plainDisk 65536 (by decide)).push [(1, zeroBlock)] := ⟨_, rfl⟩
  have inside : 1 < damaged.capacityBlocks := by
    rw [damage, Disk.capacityBlocks_push]
    omega
  have bad : nebulaSuperblockRead damaged 1 = .error .EINVAL := by
    have blank : damaged.content 1 = zeroBlock := by simp [damage]
    have other : (NebulaSuperblock.layout.symm zeroBlock).magic ≠ magicSb := by
      rw [NebulaSuperblock.magic_symm, ne_eq, Equiv.symm_apply_eq]
      intro same
      exact absurd (congrFun same 0) (by decide)
    rw [nebulaSuperblockRead, readBlock_eq inside, blank]
    simp only
    rw [if_pos other]
  have again := nebulaMountDo_of_bad_head mountable formatted.sbTail
    (show damaged.capacityBlocks = _ by rw [damage]; rfl)
    (fun lba other => by
      rw [damage]
      simp [Function.update_of_ne other]) ⟨_, bad⟩ mounts
  have finished := @cmdWrite_of_bad_head damaged (fun _ => 7) _ (Nat.zero_lt_of_lt inside) bad
  obtain ⟨later, remounts, -, identity, -⟩ :=
    claim _ damaged _ mount none (.ok fun _ => 7) 0 (fun _ => 7) again (Prod.ext finished rfl) rfl
  obtain ⟨uuid, chosen, stamped⟩ := cmdWrite_ok (Prod.ext finished rfl)
  simp only [labelUuid, Except.mapError, Except.ok.injEq] at chosen
  subst chosen
  obtain ⟨label, -⟩ := nebulaMountDo_ok_iff.mp again
  obtain ⟨mbr, superblock, -⟩ := nebulaMountDo_ok_iff.mp remounts
  have kept := nebulaMbrRead_relabelled stamped (Nat.zero_lt_of_lt inside) fun sb found => by
    rw [bad] at found
    contradiction
  rw [kept, Except.ok.injEq] at mbr
  rw [← mbr] at superblock
  obtain ⟨sb, source, -⟩ :=
    (source_relabelled stamped label later.sb).mp ⟨kept, superblock, identity⟩
  have tail : nebulaSuperblockRead damaged (damaged.capacityBlocks - 1) =
      .ok (formatSuperblock plainOptions.uuid layout) := by
    have same : damaged.capacityBlocks - 1 = layout.sbTailLba := by
      rw [damage, Disk.capacityBlocks_push]
      omega
    apply nebulaSuperblockRead_format (by omega)
    rw [same, damage, Disk.content_push, ← formatted.sbTail]
    simp [Function.update_of_ne (show layout.sbTailLba ≠ 1 by omega)]
  rcases source with ⟨found, -⟩ | ⟨-, found, stale⟩
  · rw [bad] at found
    contradiction
  · rw [tail, Except.ok.injEq] at found
    subst found
    have zero : (formatSuperblock plainOptions.uuid layout).deviceUuid 0 = 0 := rfl
    rw [stale] at zero
    exact absurd zero (by decide)

end MiniFs
