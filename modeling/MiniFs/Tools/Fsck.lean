import MiniFs.Tools.Label

/-!
# Checking a device

`nebula_fsck` validates the master boot record, both superblocks, the uberblocks, the allocator
roots, the root inode and the directory header, and counts errors and warnings.  It does not look
at the bitmap region, which a mount loads.
-/

namespace MiniFs

/-- The counters of the tool. -/
structure FsckReport where
  errs : Nat
  warns : Nat
  deriving DecidableEq

namespace FsckReport

instance : Add FsckReport := ⟨fun a b => ⟨a.errs + b.errs, a.warns + b.warns⟩⟩

/-- Nothing to report. -/
def pass : FsckReport := ⟨0, 0⟩

/-- `WARN`. -/
def warn : FsckReport := ⟨0, 1⟩

/-- `FAIL`. -/
def fail : FsckReport := ⟨1, 0⟩

theorem add_eq_pass_iff {a b : FsckReport} : a + b = pass ↔ a = pass ∧ b = pass := by
  obtain ⟨e, w⟩ := a
  obtain ⟨e', w'⟩ := b
  change (⟨e + e', w + w'⟩ : FsckReport) = ⟨0, 0⟩ ↔
    (⟨e, w⟩ : FsckReport) = ⟨0, 0⟩ ∧ (⟨e', w'⟩ : FsckReport) = ⟨0, 0⟩
  simp only [mk.injEq]
  omega

theorem add_warn_ne_pass (a : FsckReport) : a + warn ≠ pass := by
  rw [ne_eq, add_eq_pass_iff]
  rintro ⟨-, warned⟩
  contradiction

theorem ite_fail_eq_pass_iff {p : Prop} [Decidable p] : (if p then fail else pass) = pass ↔
    ¬ p := by
  split_ifs with holds
  · simp [holds, fail, pass]
  · simp [holds]

theorem ite_warn_eq_pass_iff {p : Prop} [Decidable p] : (if p then warn else pass) = pass ↔
    ¬ p := by
  split_ifs with holds
  · simp [holds, warn, pass]
  · simp [holds]

end FsckReport

/-- `check_mbr`. -/
def checkMbr (disk : Disk) : Except Errno NebulaMbr × FsckReport :=
  match nebulaMbrRead disk with
  | .error error => (.error error, .fail)
  | .ok mbr =>
      (.ok mbr, if mbr.deviceCapacityBlocks.toNat ≠ disk.capacityBlocks then .warn else .pass)

/-- The tail copy in `check_superblocks`. -/
def checkTail (disk : Disk) (head : NebulaSuperblock) : FsckReport :=
  match nebulaSuperblockRead disk head.sbTailLba.toNat with
  | .error _ => .warn
  | .ok tail =>
      (if head.deviceUuid ≠ tail.deviceUuid then .fail else .pass) +
        if head.uberblockLba ≠ tail.uberblockLba ∨ head.bitmapLba ≠ tail.bitmapLba then .fail
        else .pass

/-- `check_superblocks`. -/
def checkSuperblocks (disk : Disk) (mbr : NebulaMbr) : Except Errno NebulaSuperblock × FsckReport :=
  match nebulaSuperblockRead disk mbr.superblockHeadLba.toNat with
  | .error error => (.error error, .fail)
  | .ok head =>
      (.ok head,
        checkTail disk head + if head.deviceUuid ≠ mbr.deviceUuid then .fail else .pass)

/-- The loop body of `check_uberblocks`: the number of valid slots, and the report. -/
def checkSlot (disk : Disk) (sb : NebulaSuperblock) (tally : Nat × FsckReport) (slot : Nat) :
    Nat × FsckReport :=
  match nebulaUberblockReadSlot disk sb.uberblockLba.toNat sb.uberblockCount.toNat slot with
  | .ok _ => (tally.1 + 1, tally.2)
  | .error .ENOENT => tally
  | .error _ => (tally.1, tally.2 + .warn)

/-- `check_uberblocks`. -/
def checkUberblocks (disk : Disk) (sb : NebulaSuperblock) : FsckReport :=
  let tally := (List.range sb.uberblockCount.toNat).foldl (checkSlot disk sb) (0, .pass)
  tally.2 + if tally.1 = 0 then .fail else .pass

/-- An allocator root with a wrong checksum. -/
def badRoot (root : NebulaAllocatorRoot) : Bool :=
  root.checksum ≠ nebulaAllocatorRootChecksum root

/-- `check_alloc_roots`. -/
def checkAllocRoots (disk : Disk) (sb : NebulaSuperblock) : FsckReport :=
  match nebulaAllocatorRootsRead disk sb.allocRootsHeadLba.toNat,
      nebulaAllocatorRootsRead disk sb.allocRootsTailLba.toNat with
  | .ok head, .ok tail =>
      let bad := (List.ofFn head).countP badRoot + (List.ofFn tail).countP badRoot
      if bad ≠ 0 then .fail else .pass
  | _, _ => .fail

/-- `check_root_inode`. -/
def checkRootInode (disk : Disk) (sb : NebulaSuperblock) : FsckReport :=
  match readBlock disk sb.inodePageLba.toNat with
  | .error _ => .fail
  | .ok block =>
      let inode := NebulaInode.layout.symm block
      if inode.checksum ≠ nebulaInodeChecksum inode then .fail
      else if inode.type ≠ inodeTypeDir then .fail
      else .pass

/-- `check_dir_header`. -/
def checkDirHeader (disk : Disk) (sb : NebulaSuperblock) : FsckReport :=
  match readBlock disk sb.dirPageLba.toNat with
  | .error _ => .fail
  | .ok block =>
      let header := DirPageHeader.layout.symm block
      if header.magic ≠ magicDirPage then .fail
      else if dirHeaderChecksum header ≠ header.checksum then .fail
      else .pass

/-- The checks of `main`, in order. -/
def fsck (disk : Disk) : FsckReport :=
  match checkMbr disk with
  | (.error _, report) => report
  | (.ok mbr, report) =>
      match checkSuperblocks disk mbr with
      | (.error _, report') => report + report'
      | (.ok sb, report') =>
          report + report' + (checkUberblocks disk sb + (checkAllocRoots disk sb +
            (checkRootInode disk sb + checkDirHeader disk sb)))

/-- The exit status of the tool on an opened device. -/
def fsckStatus (disk : Disk) : Nat :=
  if (fsck disk).errs ≠ 0 then 2 else if (fsck disk).warns ≠ 0 then 1 else 0

/-- The checks end with zero errors and zero warnings. -/
def FsckClean (disk : Disk) : Prop := fsck disk = .pass

theorem fsckStatus_eq_zero_iff {disk : Disk} : fsckStatus disk = 0 ↔ FsckClean disk := by
  rw [fsckStatus, FsckClean]
  cases fsck disk with
  | mk errs warns =>
      simp only [FsckReport.pass, FsckReport.mk.injEq]
      split_ifs with some more
      · simp [some]
      · simp [more]
      · simp [not_not.mp some, not_not.mp more]

/-! ## What a clean device is -/

/-- A slot of the uberblock region holds a valid uberblock. -/
def ValidSlot (disk : Disk) (sb : NebulaSuperblock) (slot : Nat) (ub : NebulaUberblock) : Prop :=
  nebulaUberblockReadSlot disk sb.uberblockLba.toNat sb.uberblockCount.toNat slot = .ok ub

theorem ValidSlot.lt {disk : Disk} {sb : NebulaSuperblock} {slot : Nat} {ub : NebulaUberblock}
    (valid : ValidSlot disk sb slot ub) : slot < sb.uberblockCount.toNat := by
  by_contra beyond
  rw [ValidSlot, nebulaUberblockReadSlot, if_pos (not_lt.mp beyond)] at valid
  contradiction

/-- The tally of the slots: how many are valid, and whether all others are empty. -/
theorem checkSlots_spec (disk : Disk) (sb : NebulaSuperblock) (n : Nat) :
    (0 < ((List.range n).foldl (checkSlot disk sb) (0, .pass)).1 ↔
        ∃ slot < n, ∃ ub, ValidSlot disk sb slot ub) ∧
      (((List.range n).foldl (checkSlot disk sb) (0, .pass)).2 = .pass ↔ ∀ slot < n,
        (∃ ub, ValidSlot disk sb slot ub) ∨ nebulaUberblockReadSlot disk sb.uberblockLba.toNat
          sb.uberblockCount.toNat slot = .error .ENOENT) := by
  induction n with
  | zero => simp
  | succ n ih =>
      obtain ⟨counted, quiet⟩ := ih
      rw [List.range_succ, List.foldl_append, List.foldl_cons, List.foldl_nil]
      generalize (List.range n).foldl (checkSlot disk sb) (0, .pass) = tally at counted quiet
      rw [Nat.exists_lt_succ_right, Nat.forall_lt_succ_right, ← counted, ← quiet]
      simp only [checkSlot, ValidSlot]
      cases read : nebulaUberblockReadSlot disk sb.uberblockLba.toNat sb.uberblockCount.toNat n with
      | ok ub => simp
      | error error =>
          cases error with
          | ENOENT => simp
          | _ => simp [FsckReport.add_warn_ne_pass]

/-- What the checks have seen on a clean device. -/
structure CleanParts (disk : Disk) (mbr : NebulaMbr) (sb : NebulaSuperblock) : Prop where
  mbrRead : nebulaMbrRead disk = .ok mbr
  capacity : mbr.deviceCapacityBlocks.toNat = disk.capacityBlocks
  head : nebulaSuperblockRead disk mbr.superblockHeadLba.toNat = .ok sb
  tail : ∃ tail, nebulaSuperblockRead disk sb.sbTailLba.toNat = .ok tail ∧
    sb.deviceUuid = tail.deviceUuid ∧ sb.uberblockLba = tail.uberblockLba ∧
    sb.bitmapLba = tail.bitmapLba
  uuid : sb.deviceUuid = mbr.deviceUuid
  slots : ∀ slot < sb.uberblockCount.toNat, (∃ ub, ValidSlot disk sb slot ub) ∨
    nebulaUberblockReadSlot disk sb.uberblockLba.toNat sb.uberblockCount.toNat slot =
      .error .ENOENT
  uberblock : ∃ slot ub, ValidSlot disk sb slot ub
  roots : ∃ head tail, nebulaAllocatorRootsRead disk sb.allocRootsHeadLba.toNat = .ok head ∧
    nebulaAllocatorRootsRead disk sb.allocRootsTailLba.toNat = .ok tail ∧
    (∀ index, badRoot (head index) = false) ∧ ∀ index, badRoot (tail index) = false
  rootInode : ∃ block, readBlock disk sb.inodePageLba.toNat = .ok block ∧
    (NebulaInode.layout.symm block).checksum =
      nebulaInodeChecksum (NebulaInode.layout.symm block) ∧
    (NebulaInode.layout.symm block).type = inodeTypeDir
  dirHeader : ∃ block, readBlock disk sb.dirPageLba.toNat = .ok block ∧
    (DirPageHeader.layout.symm block).magic = magicDirPage ∧
    dirHeaderChecksum (DirPageHeader.layout.symm block) =
      (DirPageHeader.layout.symm block).checksum

section Parts

variable {disk : Disk} {mbr : NebulaMbr} {sb : NebulaSuperblock}

theorem fail_ne_pass : FsckReport.fail ≠ .pass := by decide

theorem warn_ne_pass : FsckReport.warn ≠ .pass := by decide

theorem checkTail_eq_pass_iff : checkTail disk sb = .pass ↔
    ∃ tail, nebulaSuperblockRead disk sb.sbTailLba.toNat = .ok tail ∧
      sb.deviceUuid = tail.deviceUuid ∧ sb.uberblockLba = tail.uberblockLba ∧
      sb.bitmapLba = tail.bitmapLba := by
  rw [checkTail]
  cases nebulaSuperblockRead disk sb.sbTailLba.toNat with
  | error error => simp [warn_ne_pass]
  | ok tail =>
      simp only [FsckReport.add_eq_pass_iff, FsckReport.ite_fail_eq_pass_iff, not_or, not_not,
        Except.ok.injEq, exists_eq_left']

theorem checkUberblocks_eq_pass_iff : checkUberblocks disk sb = .pass ↔
    (∀ slot < sb.uberblockCount.toNat, (∃ ub, ValidSlot disk sb slot ub) ∨
      nebulaUberblockReadSlot disk sb.uberblockLba.toNat sb.uberblockCount.toNat slot =
        .error .ENOENT) ∧ ∃ slot ub, ValidSlot disk sb slot ub := by
  obtain ⟨counted, quiet⟩ := checkSlots_spec disk sb sb.uberblockCount.toNat
  simp only [checkUberblocks, FsckReport.add_eq_pass_iff, FsckReport.ite_fail_eq_pass_iff]
  rw [quiet, ← ne_eq, ← Nat.pos_iff_ne_zero, counted]
  refine and_congr_right fun _ => ⟨?_, ?_⟩
  · rintro ⟨slot, -, ub, valid⟩
    exact ⟨slot, ub, valid⟩
  · rintro ⟨slot, ub, valid⟩
    exact ⟨slot, valid.lt, ub, valid⟩

theorem countP_badRoot (roots : Fin 64 → NebulaAllocatorRoot) :
    (List.ofFn roots).countP badRoot = 0 ↔ ∀ index, badRoot (roots index) = false := by
  rw [List.countP_eq_zero, List.forall_mem_ofFn_iff]
  simp only [Bool.not_eq_true]

theorem checkAllocRoots_eq_pass_iff : checkAllocRoots disk sb = .pass ↔
    ∃ head tail, nebulaAllocatorRootsRead disk sb.allocRootsHeadLba.toNat = .ok head ∧
      nebulaAllocatorRootsRead disk sb.allocRootsTailLba.toNat = .ok tail ∧
      (∀ index, badRoot (head index) = false) ∧ ∀ index, badRoot (tail index) = false := by
  rw [checkAllocRoots]
  cases nebulaAllocatorRootsRead disk sb.allocRootsHeadLba.toNat with
  | error error => simp [fail_ne_pass]
  | ok head =>
      cases nebulaAllocatorRootsRead disk sb.allocRootsTailLba.toNat with
      | error error => simp [fail_ne_pass]
      | ok tail =>
          simp only [FsckReport.ite_fail_eq_pass_iff, not_not, Nat.add_eq_zero_iff, countP_badRoot,
            Except.ok.injEq, exists_eq_left', existsAndEq, true_and]

theorem checkRootInode_eq_pass_iff : checkRootInode disk sb = .pass ↔
    ∃ block, readBlock disk sb.inodePageLba.toNat = .ok block ∧
      (NebulaInode.layout.symm block).checksum =
        nebulaInodeChecksum (NebulaInode.layout.symm block) ∧
      (NebulaInode.layout.symm block).type = inodeTypeDir := by
  rw [checkRootInode]
  cases readBlock disk sb.inodePageLba.toNat with
  | error error => simp [fail_ne_pass]
  | ok block =>
      simp only [Except.ok.injEq, exists_eq_left']
      split_ifs with checksum type
      · simp [checksum, fail_ne_pass]
      · simp [type, fail_ne_pass]
      · simp [not_not.mp checksum, not_not.mp type]

theorem checkDirHeader_eq_pass_iff : checkDirHeader disk sb = .pass ↔
    ∃ block, readBlock disk sb.dirPageLba.toNat = .ok block ∧
      (DirPageHeader.layout.symm block).magic = magicDirPage ∧
      dirHeaderChecksum (DirPageHeader.layout.symm block) =
        (DirPageHeader.layout.symm block).checksum := by
  rw [checkDirHeader]
  cases readBlock disk sb.dirPageLba.toNat with
  | error error => simp [fail_ne_pass]
  | ok block =>
      simp only [Except.ok.injEq, exists_eq_left']
      split_ifs with magic checksum
      · simp [magic, fail_ne_pass]
      · simp [checksum, fail_ne_pass]
      · simp [not_not.mp magic, not_not.mp checksum]

/-- A device is clean when every check has seen what it wants. -/
theorem fsckClean_iff : FsckClean disk ↔ ∃ mbr sb, CleanParts disk mbr sb := by
  constructor
  · intro clean
    rw [FsckClean, fsck, checkMbr] at clean
    cases mbrRead : nebulaMbrRead disk with
    | error error => simp [mbrRead, fail_ne_pass] at clean
    | ok mbr =>
        simp only [mbrRead, checkSuperblocks] at clean
        cases head : nebulaSuperblockRead disk mbr.superblockHeadLba.toNat with
        | error error => simp [head, FsckReport.add_eq_pass_iff, fail_ne_pass] at clean
        | ok sb =>
            simp only [head, FsckReport.add_eq_pass_iff, FsckReport.ite_warn_eq_pass_iff,
              FsckReport.ite_fail_eq_pass_iff, not_not, checkTail_eq_pass_iff,
              checkUberblocks_eq_pass_iff, checkAllocRoots_eq_pass_iff,
              checkRootInode_eq_pass_iff, checkDirHeader_eq_pass_iff] at clean
            obtain ⟨⟨capacity, tail, uuid⟩, ⟨slots, uberblock⟩, roots, rootInode, dirHeader⟩ :=
              clean
            exact ⟨mbr, sb, mbrRead, capacity, head, tail, uuid, slots, uberblock, roots, rootInode,
              dirHeader⟩
  · rintro ⟨mbr, sb, parts⟩
    rw [FsckClean, fsck, checkMbr, parts.mbrRead]
    simp only [checkSuperblocks, parts.head, FsckReport.add_eq_pass_iff,
      FsckReport.ite_warn_eq_pass_iff, FsckReport.ite_fail_eq_pass_iff, not_not,
      checkTail_eq_pass_iff, checkUberblocks_eq_pass_iff, checkAllocRoots_eq_pass_iff,
      checkRootInode_eq_pass_iff, checkDirHeader_eq_pass_iff]
    exact ⟨⟨parts.capacity, parts.tail, parts.uuid⟩, ⟨parts.slots, parts.uberblock⟩, parts.roots,
      parts.rootInode, parts.dirHeader⟩

end Parts

/-- The superblock of a formatted device with another page count, and its checksum. -/
def recountedSuperblock (uuid : Bytes 16) (layout : NebulaLayout) (count : UInt64) :
    NebulaSuperblock :=
  let sb := { formatSuperblock uuid layout with bitmapBlockCount := count }
  { sb with checksum := nebulaSuperblockChecksum sb }

theorem recountedSuperblock_format (uuid : Bytes 16) (layout : NebulaLayout) :
    recountedSuperblock uuid layout (UInt64.ofNat layout.bitmapBlockCount) =
      formatSuperblock uuid layout := by
  simp only [recountedSuperblock, formatSuperblock, nebulaSuperblockChecksum]

/-- The blocks that the checks look at are as formatting left them, up to the page count of the
superblocks and the contents of the root inode and the directory header. -/
structure CleanImage (options : FormatOptions) (layout : NebulaLayout) (count : UInt64)
    (disk : Disk) : Prop where
  sound : layout.Sound
  capacity : disk.capacityBlocks = layout.capacityBlocks
  mbr : disk.content 0 = NebulaMbr.layout (formatMbr options.uuid layout.capacityBlocks)
  sbHead : disk.content 1 =
    NebulaSuperblock.layout (recountedSuperblock options.uuid layout count)
  sbTail : disk.content layout.sbTailLba =
    NebulaSuperblock.layout (recountedSuperblock options.uuid layout count)
  uberblock : disk.content 2 = NebulaUberblock.layout (formatUberblock layout options.uberblockNow)
  slots : ∀ slot, 0 < slot → slot < 128 → disk.content (2 + slot) = zeroBlock
  rootsHead : disk.content 130 = allocatorRootsLayout fun index => formatRoot layout index
  rootsTail : disk.content layout.allocRootsTailLba =
    allocatorRootsLayout fun index => formatRoot layout (64 + index)
  rootInode : ∃ inode, disk.content layout.inodePageLba = NebulaInode.layout inode ∧
    inode.checksum = nebulaInodeChecksum inode ∧ inode.type = inodeTypeDir
  dirHeader : ∃ header, disk.content layout.dirPageLba = DirPageHeader.layout header ∧
    header.magic = magicDirPage ∧ dirHeaderChecksum header = header.checksum

namespace CleanImage

variable {options : FormatOptions} {layout : NebulaLayout} {count : UInt64} {disk : Disk}

theorem of_formatted (sound : layout.Sound) (capacity : disk.capacityBlocks = layout.capacityBlocks)
    (formatted : Formatted options layout disk.content) :
    CleanImage options layout (UInt64.ofNat layout.bitmapBlockCount) disk where
  sound := sound
  capacity := capacity
  mbr := formatted.mbr
  sbHead := by rw [recountedSuperblock_format, formatted.sbHead]
  sbTail := by rw [recountedSuperblock_format, formatted.sbTail]
  uberblock := formatted.uberblock
  slots := formatted.slots
  rootsHead := formatted.rootsHead
  rootsTail := formatted.rootsTail
  rootInode := ⟨_, formatted.rootInode, by simp only [formatRootInode, nebulaInodeChecksum], by
    simp only [formatRootInode]⟩
  dirHeader := ⟨_, formatted.dirHeader, by simp only [formatDirHeader], by
    simp only [formatDirHeader, dirHeaderChecksum]⟩

theorem superblockRead_eq {lba : Nat} (inside : lba < disk.capacityBlocks)
    (content : disk.content lba =
      NebulaSuperblock.layout (recountedSuperblock options.uuid layout count)) :
    nebulaSuperblockRead disk lba = .ok (recountedSuperblock options.uuid layout count) := by
  rw [nebulaSuperblockRead, readBlock_eq inside, content]
  simp only [Equiv.symm_apply_apply]
  rw [if_neg (by simp [recountedSuperblock, formatSuperblock]),
    if_neg (by simp [recountedSuperblock, nebulaSuperblockChecksum])]

theorem mbrRead_eq (image : CleanImage options layout count disk) :
    nebulaMbrRead disk = .ok (formatMbr options.uuid layout.capacityBlocks) := by
  have large := image.sound.capacity_ge
  have capacity := image.capacity
  rw [nebulaMbrRead, readBlock_eq (by omega), image.mbr]
  simp only [Equiv.symm_apply_apply]
  rw [if_neg (by simp [formatMbr]), if_neg (by simp [formatMbr, nebulaMbrChecksum])]

theorem headRead_eq (image : CleanImage options layout count disk) :
    nebulaSuperblockRead disk
      (formatMbr options.uuid layout.capacityBlocks).superblockHeadLba.toNat =
        .ok (recountedSuperblock options.uuid layout count) := by
  have large := image.sound.capacity_ge
  have capacity := image.capacity
  exact superblockRead_eq (show 1 < disk.capacityBlocks by omega) image.sbHead

theorem emptySlot (image : CleanImage options layout count disk) {slot : Nat} (some : 0 < slot)
    (below : slot < 128) : nebulaUberblockReadSlot disk 2 128 slot = .error .ENOENT := by
  have large := image.sound.capacity_ge
  have capacity := image.capacity
  have other : (NebulaUberblock.layout.symm zeroBlock).magic ≠ magicUb := by
    rw [NebulaUberblock.magic_symm, ne_eq, Equiv.symm_apply_eq]
    intro same
    exact absurd (congrFun same 0) (by decide)
  rw [nebulaUberblockReadSlot, if_neg (by omega), Nat.mod_eq_of_lt (by omega),
    readBlock_eq (by omega), image.slots slot some below]
  simp only
  rw [if_pos other]

theorem firstSlot (image : CleanImage options layout count disk) :
    nebulaUberblockReadSlot disk 2 128 0 = .ok (formatUberblock layout options.uberblockNow) := by
  have large := image.sound.capacity_ge
  have capacity := image.capacity
  have slot : (2 + 0) % 2 ^ 64 = 2 := rfl
  rw [nebulaUberblockReadSlot, if_neg (by omega), slot, readBlock_eq (by omega), image.uberblock]
  simp only [Equiv.symm_apply_apply]
  rw [if_neg (by simp [formatUberblock]),
    if_neg (by simp [formatUberblock, nebulaUberblockChecksum])]

theorem badRoot_formatRoot (layout : NebulaLayout) (id : Nat) :
    badRoot (formatRoot layout id) = false := by
  simp [badRoot, formatRoot, nebulaAllocatorRootChecksum]

/-- The checks report nothing on such an image, whatever its page count. -/
theorem clean (image : CleanImage options layout count disk) : FsckClean disk := by
  have sound := image.sound
  have bound : layout.capacityBlocks < 2 ^ 52 := image.capacity ▸ disk.capacity_lt
  have capacity := image.capacity
  have large := sound.capacity_ge
  have last := sound.sbTail_eq
  have tail := sound.allocRootsTail_eq
  have room := sound.data_room
  have data := sound.dataStart_eq
  have dir := sound.dir_eq
  have inode := sound.inode_eq
  have dirs := sound.dirCount_eq
  have inodes := sound.inodeCount_ge
  have records := formatSuperblock_records sound bound options.uuid
  have head : (recountedSuperblock options.uuid layout count).uberblockLba.toNat = 2 :=
    records.uberblockLba.trans sound.uberblock_eq
  have slots : (recountedSuperblock options.uuid layout count).uberblockCount.toNat = 128 :=
    records.uberblockCount.trans sound.uberblockCount_eq
  obtain ⟨root, rootContent, rootChecksum, rootType⟩ := image.rootInode
  obtain ⟨header, headerContent, magic, headerChecksum⟩ := image.dirHeader
  refine fsckClean_iff.mpr ⟨formatMbr options.uuid layout.capacityBlocks,
    recountedSuperblock options.uuid layout count, ?_⟩
  constructor
  · exact image.mbrRead_eq
  · rw [capacity]
    simp only [formatMbr, UInt64.toNat_ofNat']
    exact Nat.mod_eq_of_lt (by omega)
  · exact image.headRead_eq
  · have lba : (recountedSuperblock options.uuid layout count).sbTailLba.toNat = layout.sbTailLba :=
      records.sbTailLba
    rw [lba]
    exact ⟨_, superblockRead_eq (by omega) image.sbTail, rfl, rfl, rfl⟩
  · exact records.deviceUuid
  · intro slot below
    simp only [ValidSlot, head, slots] at below ⊢
    rcases Nat.eq_zero_or_pos slot with rfl | some
    · exact .inl ⟨_, image.firstSlot⟩
    · exact .inr (image.emptySlot some below)
  · refine ⟨0, formatUberblock layout options.uberblockNow, ?_⟩
    rw [ValidSlot, head, slots]
    exact image.firstSlot
  · have first : (recountedSuperblock options.uuid layout count).allocRootsHeadLba.toNat = 130 :=
      records.allocRootsHeadLba.trans sound.allocRootsHead_eq
    have second : (recountedSuperblock options.uuid layout count).allocRootsTailLba.toNat =
        layout.allocRootsTailLba := records.allocRootsTailLba
    rw [first, second, nebulaAllocatorRootsRead, nebulaAllocatorRootsRead, readBlock_eq (by omega),
      readBlock_eq (by omega), image.rootsHead, image.rootsTail]
    simp only [Except.map, Equiv.symm_apply_apply]
    exact ⟨_, _, rfl, rfl, fun index => badRoot_formatRoot layout index,
      fun index => badRoot_formatRoot layout (64 + index)⟩
  · have lba : (recountedSuperblock options.uuid layout count).inodePageLba.toNat =
        layout.inodePageLba := records.inodePageLba
    rw [lba, readBlock_eq (by omega), rootContent]
    exact ⟨_, rfl, by rwa [Equiv.symm_apply_apply], by rwa [Equiv.symm_apply_apply]⟩
  · have lba : (recountedSuperblock options.uuid layout count).dirPageLba.toNat =
        layout.dirPageLba := records.dirPageLba
    rw [lba, readBlock_eq (by omega), headerContent]
    exact ⟨_, rfl, by rwa [Equiv.symm_apply_apply], by rwa [Equiv.symm_apply_apply]⟩

/-- Writing both superblocks with another page count keeps the image clean. -/
theorem recount (image : CleanImage options layout count disk) {other : UInt64} {block : Block}
    (recounted : block = NebulaSuperblock.layout (recountedSuperblock options.uuid layout other)) :
    CleanImage options layout other (disk.push [(1, block), (layout.sbTailLba, block)]) := by
  have sound := image.sound
  have large := sound.capacity_ge
  have last := sound.sbTail_eq
  have tail := sound.allocRootsTail_eq
  have room := sound.data_room
  have data := sound.dataStart_eq
  have dir := sound.dir_eq
  have inode := sound.inode_eq
  have stream := sound.streamMap_eq
  have bitmap := sound.bitmap_eq
  obtain ⟨written, pushed⟩ :
    ∃ written, written = disk.push [(1, block), (layout.sbTailLba, block)] :=
    ⟨_, rfl⟩
  have head : written.content 1 = block := by
    simp [pushed, Function.update_of_ne (show 1 ≠ layout.sbTailLba by omega)]
  have kept : ∀ lba, lba ≠ 1 → lba ≠ layout.sbTailLba →
      written.content lba = disk.content lba := by
    intro lba first second
    simp [pushed, Function.update_of_ne first, Function.update_of_ne second]
  rw [← pushed]
  exact
    { sound := sound
      capacity := by rw [pushed, Disk.capacityBlocks_push, image.capacity]
      mbr := (kept 0 (by omega) (by omega)).trans image.mbr
      sbHead := head.trans recounted
      sbTail := by simp [pushed, recounted]
      uberblock := (kept 2 (by omega) (by omega)).trans image.uberblock
      slots := fun slot some below =>
        (kept (2 + slot) (by omega) (by omega)).trans (image.slots slot some below)
      rootsHead := (kept 130 (by omega) (by omega)).trans image.rootsHead
      rootsTail := (kept _ (by omega) (by omega)).trans image.rootsTail
      rootInode := by
        rw [kept _ (by omega) (by omega)]
        exact image.rootInode
      dirHeader := by
        rw [kept _ (by omega) (by omega)]
        exact image.dirHeader }

end CleanImage

/-- Some valid slot below `2 ^ 31` has a later transaction group than every valid slot from there
on, whose numbers a mount takes for missing. -/
def LowSlotLeads (disk : Disk) (sb : NebulaSuperblock) : Prop :=
  ∃ slot ub, ValidSlot disk sb slot ub ∧ slot < 2 ^ 31 ∧
    ∀ other ub', ValidSlot disk sb other ub' → 2 ^ 31 ≤ other → ub'.txgId < ub.txgId

/-- What the best slot is after the first `n` slots. -/
def BestOf (disk : Disk) (sb : NebulaSuperblock) (n : Nat) : Option (NebulaUberblock × Nat) → Prop
  | none => ∀ slot < n, ∀ ub, ¬ ValidSlot disk sb slot ub
  | some (best, chosen) => chosen < n ∧ ValidSlot disk sb chosen best ∧
      (chosen < 2 ^ 31 → ∀ slot < n, ∀ ub, ValidSlot disk sb slot ub →
        (slot < 2 ^ 31 → ub.txgId ≤ best.txgId) ∧ (2 ^ 31 ≤ slot → ub.txgId < best.txgId)) ∧
      (2 ^ 31 ≤ chosen → ∀ slot < n, ∀ ub, ValidSlot disk sb slot ub → slot < 2 ^ 31 →
        ∃ high ub', ValidSlot disk sb high ub' ∧ 2 ^ 31 ≤ high ∧ ub.txgId ≤ ub'.txgId)

section Pick

variable {disk : Disk} {sb : NebulaSuperblock}

theorem ValidSlot.unique {slot : Nat} {ub ub' : NebulaUberblock} (valid : ValidSlot disk sb slot ub)
    (valid' : ValidSlot disk sb slot ub') : ub = ub' :=
  Except.ok.inj (valid.symm.trans valid')

theorem BestOf.step {n : Nat} {best : Option (NebulaUberblock × Nat)} (ih : BestOf disk sb n best) :
    BestOf disk sb (n + 1) (betterUberblock disk sb best n) := by
  rw [betterUberblock]
  cases read : nebulaUberblockReadSlot disk sb.uberblockLba.toNat sb.uberblockCount.toNat n with
  | error error =>
      have missing : ∀ ub, ¬ ValidSlot disk sb n ub := by
        intro ub valid
        rw [ValidSlot, read] at valid
        contradiction
      have earlier : ∀ {slot ub}, slot < n + 1 → ValidSlot disk sb slot ub → slot < n := by
        intro slot ub below valid
        rcases Nat.lt_succ_iff_lt_or_eq.mp below with less | rfl
        · exact less
        · exact absurd valid (missing ub)
      cases best with
      | none => exact fun slot below ub valid => ih slot (earlier below valid) ub valid
      | some found =>
          obtain ⟨inside, chosen, low, high⟩ := ih
          exact ⟨by omega, chosen, fun small slot below ub valid =>
            low small slot (earlier below valid) ub valid, fun large slot below ub valid =>
            high large slot (earlier below valid) ub valid⟩
  | ok ub =>
      have here : ValidSlot disk sb n ub := read
      cases best with
      | none =>
          have only : ∀ {slot ub'}, slot < n + 1 → ValidSlot disk sb slot ub' → slot = n := by
            intro slot ub' below valid
            rcases Nat.lt_succ_iff_lt_or_eq.mp below with less | same
            · exact absurd valid (ih slot less ub')
            · exact same
          refine ⟨by omega, here, fun small slot below ub' valid => ?_,
            fun large slot below ub' valid small => ?_⟩
          · obtain rfl := only below valid
            rw [valid.unique here]
            exact ⟨fun _ => UInt64.le_refl _, fun large => absurd small (not_lt.mpr large)⟩
          · obtain rfl := only below valid
            omega
      | some found =>
          obtain ⟨current, chosen⟩ := found
          obtain ⟨inside, valid, low, high⟩ := ih
          simp only
          split_ifs with replaced
          · refine ⟨by omega, here, fun small slot below ub' valid' => ?_,
              fun large slot below ub' valid' small => ?_⟩
            · have later : current.txgId ≤ ub.txgId := replaced.resolve_left (by omega)
              refine ⟨fun _ => ?_, fun large => by omega⟩
              rcases Nat.lt_succ_iff_lt_or_eq.mp below with less | rfl
              · exact UInt64.le_trans ((low (by omega) slot less ub' valid').1 (by omega)) later
              · rw [valid'.unique here]
                exact UInt64.le_refl _
            · have less : slot < n := by omega
              by_cases missing : 2 ^ 31 ≤ chosen
              · exact high missing slot less ub' valid' small
              · refine ⟨n, ub, here, large, ?_⟩
                exact UInt64.le_trans ((low (by omega) slot less ub' valid').1 small)
                  (replaced.resolve_left missing)
          · rw [not_or, not_le, UInt64.not_le] at replaced
            refine ⟨by omega, valid, fun small slot below ub' valid' => ?_, fun large => by omega⟩
            rcases Nat.lt_succ_iff_lt_or_eq.mp below with less | rfl
            · exact low small slot less ub' valid'
            · rw [valid'.unique here]
              exact ⟨fun _ => UInt64.le_of_lt replaced.2, fun _ => replaced.2⟩

theorem bestOf_foldl (disk : Disk) (sb : NebulaSuperblock) (n : Nat) :
    BestOf disk sb n ((List.range n).foldl (betterUberblock disk sb) none) := by
  induction n with
  | zero => exact fun slot below => absurd below (Nat.not_lt_zero slot)
  | succ n ih =>
      rw [List.range_succ, List.foldl_append]
      exact ih.step

/-- A mount finds an uberblock exactly when a slot it can number leads. -/
theorem pickLatestUberblock_ok_iff :
    (∃ found, pickLatestUberblock disk sb = .ok found) ↔ LowSlotLeads disk sb := by
  have best := bestOf_foldl disk sb sb.uberblockCount.toNat
  rw [pickLatestUberblock]
  generalize (List.range sb.uberblockCount.toNat).foldl (betterUberblock disk sb) none =
    found at best
  cases found with
  | none =>
      refine iff_of_false ?_ ?_
      · rintro ⟨found, picked⟩
        contradiction
      · rintro ⟨slot, ub, valid, -⟩
        exact best slot valid.lt ub valid
  | some found =>
      obtain ⟨ub, chosen⟩ := found
      obtain ⟨inside, valid, low, high⟩ := best
      simp only
      split_ifs with missing
      · refine iff_of_false ?_ ?_
        · rintro ⟨found, picked⟩
          contradiction
        · rintro ⟨slot, ub', valid', small, leads⟩
          obtain ⟨late, ub'', valid'', large, order⟩ :=
            high missing slot valid'.lt ub' valid' small
          exact absurd (leads late ub'' valid'' large) (UInt64.not_lt.mpr order)
      · refine iff_of_true ⟨_, rfl⟩ ⟨chosen, ub, valid, not_le.mp missing, ?_⟩
        intro other ub' valid' large
        exact (low (not_le.mp missing) other valid'.lt ub' valid').2 large

end Pick

/-! ## Clean devices and mounts -/

/-- The superblock that the master boot record points at has a bitmap region that a mount can load:
its page count is not zero and keeps the loader in its buffers, the allocator grants these, and the
request for the count in 32 bits lies on the device.  And an uberblock slot that a mount can number
leads. -/
def MountLoadable (allocates : Nat → Bool) (disk : Disk) : Prop :=
  ∀ mbr sb, nebulaMbrRead disk = .ok mbr →
    nebulaSuperblockRead disk mbr.superblockHeadLba.toNat = .ok sb →
      sb.bitmapBlockCount ≠ 0 ∧ sb.bitmapBlockCount.toNat ≤ hbmPageLimit ∧
      HbmGranted allocates sb.bitmapBlockCount.toNat ∧
      sb.bitmapLba.toNat + sb.bitmapBlockCount.toNat % 2 ^ 32 ≤ disk.capacityBlocks ∧
      LowSlotLeads disk sb

/-- The loader wants pages, as many as its buffers hold, and reads them in one request on the
device. -/
theorem nebulaHbmLoad_ok_iff {heap : Nat → Block} {disk : Disk} {lba count total : Nat}
    {allocates : Nat → Bool} :
    (∃ bitmap, nebulaHbmLoad heap disk lba count total allocates = .ok bitmap) ↔
      count ≠ 0 ∧ count ≤ hbmPageLimit ∧ HbmGranted allocates count ∧
        lba + count % 2 ^ 32 ≤ disk.capacityBlocks := by
  have read : (∃ pages, nebulaIoRead .ok disk lba (count % 2 ^ 32) = .ok pages) ↔
      lba + count % 2 ^ 32 ≤ disk.capacityBlocks := by
    rw [nebulaIoRead]
    generalize count % 2 ^ 32 = pages
    by_cases inside : lba + pages ≤ disk.capacityBlocks
    · simp [inside, ioRange_ok_iff.mpr inside]
    · cases range : ioRange disk lba pages with
      | ok done => exact absurd (ioRange_ok_iff.mp range) inside
      | error error => simp [inside]
  constructor
  · rintro ⟨bitmap, loaded⟩
    obtain ⟨some, within, granted, pages, done, -⟩ := nebulaHbmLoad_eq_ok_iff.mp loaded
    exact ⟨some, within, granted, read.mp ⟨pages, done⟩⟩
  · rintro ⟨some, within, granted, inside⟩
    obtain ⟨pages, done⟩ := read.mpr inside
    exact ⟨_, nebulaHbmLoad_eq_ok_iff.mpr ⟨some, within, granted, pages, done, rfl⟩⟩

/-- A clean device mounts exactly when its bitmap region can be loaded and a mount can number the
slot of its latest uberblock. -/
theorem clean_mounts_iff (heap : Nat → Block) (disk : Disk) (allocates : Nat → Bool) :
    (FsckClean disk → ∃ mount, nebulaMountDo heap disk allocates = .ok mount) ↔
      (FsckClean disk → MountLoadable allocates disk) := by
  refine forall_congr' fun clean => ?_
  obtain ⟨mbr, sb, parts⟩ := fsckClean_iff.mp clean
  constructor
  · rintro ⟨mount, mounts⟩ mbr' sb' mbrRead head
    obtain ⟨mbrRead', superblock, -, picked, loaded⟩ := nebulaMountDo_ok_iff.mp mounts
    rw [mbrRead, Except.ok.injEq] at mbrRead'
    subst mbrRead'
    rw [mountSuperblock, head, Except.ok.injEq] at superblock
    subst superblock
    obtain ⟨some, within, granted, inside⟩ := nebulaHbmLoad_ok_iff.mp ⟨_, loaded⟩
    refine ⟨fun zero => some ?_, within, granted, inside,
      pickLatestUberblock_ok_iff.mp ⟨_, picked⟩⟩
    rw [zero]
    rfl
  · intro loadable
    obtain ⟨some, within, granted, inside, leads⟩ := loadable mbr sb parts.mbrRead parts.head
    obtain ⟨⟨ub, slot⟩, picked⟩ := pickLatestUberblock_ok_iff.mpr leads
    have count : sb.bitmapBlockCount.toNat ≠ 0 := fun zero => some (UInt64.toNat_inj.mp zero)
    obtain ⟨bitmap, loaded⟩ := (@nebulaHbmLoad_ok_iff heap disk sb.bitmapLba.toNat
      sb.bitmapBlockCount.toNat sb.deviceCapacityBlocks.toNat allocates).mpr
        ⟨count, within, granted, inside⟩
    refine ⟨⟨mbr, sb, ub, slot, bitmap⟩, nebulaMountDo_ok_iff.mpr
      ⟨parts.mbrRead, ?_, parts.uuid.symm, picked, loaded⟩⟩
    rw [mountSuperblock, parts.head]

/-- A device whose superblocks record no bitmap pages passes every check and does not mount. -/
theorem clean_without_pages : ¬ ∀ (heap : Nat → Block) (disk : Disk),
    FsckClean disk → ∃ mount, nebulaMountDo heap disk = .ok mount := by
  intro claim
  have done := nebulaFormat_zeroedDisk le_rfl (show 65536 < 2 ^ 52 by decide)
  obtain ⟨layout, sound, capacity, blocks, -, formatted, -⟩ := nebulaFormat_spec done
  have size : (plainDisk 65536 (by decide)).capacityBlocks = layout.capacityBlocks :=
    blocks.trans capacity.symm
  have image := CleanImage.of_formatted sound size formatted
  have cleared := @CleanImage.recount _ _ _ _ image 0 _ rfl
  obtain ⟨mount, mounts⟩ := claim (fun _ => zeroBlock) _ cleared.clean
  obtain ⟨mbr, superblock, -, -, loaded⟩ := nebulaMountDo_ok_iff.mp mounts
  rw [cleared.mbrRead_eq, Except.ok.injEq] at mbr
  have head : nebulaSuperblockRead _ mount.mbr.superblockHeadLba.toNat = _ :=
    mbr ▸ cleared.headRead_eq
  rw [mountSuperblock, head, Except.ok.injEq] at superblock
  obtain ⟨some, -⟩ := nebulaHbmLoad_ok_iff.mp ⟨_, loaded⟩
  rw [← superblock] at some
  exact some rfl

end MiniFs
