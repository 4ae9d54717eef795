import Mathlib.Data.List.TakeWhile
import MiniFs.Fs.File
import MiniFs.Fs.Scan

/-!
# Effects on the stored structures

How single block writes change the stored directory and inodes, and what stored entries say.
-/

namespace MiniFs

open Fs

variable {layout : NebulaLayout} {disk : Disk}

theorem content_push_of_ne {writes : List (Nat × Block)} {lba : Nat}
    (apart : ∀ write ∈ writes, write.1 ≠ lba) :
    (disk.push writes).content lba = disk.content lba := by
  rw [Disk.content_push, applyWrites_of_not_mem _ apart]

theorem content_push_single (lba : Nat) (block : Block) :
    (disk.push [(lba, block)]).content lba = block := by
  simp

theorem slotAt_push_of_ne {writes : List (Nat × Block)} {slot : Nat}
    (apart : ∀ write ∈ writes, write.1 ≠ layout.dirPageLba + 1 + slot / 4) :
    slotAt layout (disk.push writes) slot = slotAt layout disk slot := by
  rw [slotAt, slotAt, content_push_of_ne apart]

theorem inodeAt_push_of_ne {writes : List (Nat × Block)} {number : Nat}
    (apart : ∀ write ∈ writes, write.1 ≠ layout.inodePageLba + number) :
    inodeAt layout (disk.push writes) number = inodeAt layout disk number := by
  rw [inodeAt, inodeAt, content_push_of_ne apart]

theorem dirHeaderAt_push_of_ne {writes : List (Nat × Block)}
    (apart : ∀ write ∈ writes, write.1 ≠ layout.dirPageLba) :
    dirHeaderAt layout (disk.push writes) = dirHeaderAt layout disk := by
  rw [dirHeaderAt, dirHeaderAt, content_push_of_ne apart]

/-- A stored entry changes its slot and no other. -/
theorem slotAt_slotWrite (slot other : Nat) (entry : DirEntry) :
    slotAt layout (disk.push [slotWrite layout disk slot entry]) other =
      if other = slot then entry else slotAt layout disk other := by
  by_cases block : other / 4 = slot / 4
  · rw [slotAt, block, slotWrite, content_push_single, setSlot, Equiv.symm_apply_apply]
    split_ifs with same
    · rw [same, Function.update_self]
    · rw [Function.update_of_ne, slotAt, block]
      intro within
      rw [slotWithinBlock, slotWithinBlock, Fin.mk.injEq] at within
      omega
  · rw [if_neg fun same => block (by rw [same]), slotAt_push_of_ne]
    simp only [List.mem_singleton, forall_eq, slotWrite]
    omega

theorem inodeAt_inodeWrite (number other : Nat) (block : Block) :
    inodeAt layout (disk.push [(layout.inodePageLba + number, block)]) other =
      if other = number then NebulaInode.layout.symm block else inodeAt layout disk other := by
  split_ifs with same
  · rw [same, inodeAt, content_push_single]
  · rw [inodeAt_push_of_ne]
    simp only [List.mem_singleton, forall_eq]
    omega

theorem slotAt_inodeWrite (sound : layout.Sound) {number : Nat}
    (inside : number < layout.inodePageBlockCount) (block : Block) (slot : Nat) :
    slotAt layout (disk.push [(layout.inodePageLba + number, block)]) slot =
      slotAt layout disk slot := by
  have dir := sound.dir_eq
  apply slotAt_push_of_ne
  simp only [List.mem_singleton, forall_eq]
  omega

theorem slotAt_headerWrite (delta : Int) (slot : Nat) :
    slotAt layout (disk.push [headerWrite layout disk delta]) slot = slotAt layout disk slot := by
  apply slotAt_push_of_ne
  simp only [List.mem_singleton, forall_eq, headerWrite]
  omega

theorem inodeAt_slotWrite (sound : layout.Sound) {number : Nat}
    (inside : number < layout.inodePageBlockCount) (slot : Nat) (entry : DirEntry) :
    inodeAt layout (disk.push [slotWrite layout disk slot entry]) number =
      inodeAt layout disk number := by
  have dir := sound.dir_eq
  apply inodeAt_push_of_ne
  simp only [List.mem_singleton, forall_eq, slotWrite]
  omega

theorem inodeAt_headerWrite (sound : layout.Sound) {number : Nat}
    (inside : number < layout.inodePageBlockCount) (delta : Int) :
    inodeAt layout (disk.push [headerWrite layout disk delta]) number =
      inodeAt layout disk number := by
  have dir := sound.dir_eq
  apply inodeAt_push_of_ne
  simp only [List.mem_singleton, forall_eq, headerWrite]
  omega

theorem dirHeaderAt_inodeWrite (sound : layout.Sound) {number : Nat}
    (inside : number < layout.inodePageBlockCount) (block : Block) :
    dirHeaderAt layout (disk.push [(layout.inodePageLba + number, block)]) =
      dirHeaderAt layout disk := by
  have dir := sound.dir_eq
  apply dirHeaderAt_push_of_ne
  simp only [List.mem_singleton, forall_eq]
  omega

/-- An entry and the header, stored one after the other. -/
theorem push_entry (slot : Nat) (entry : DirEntry) (delta : Int) :
    (disk.push [slotWrite layout disk slot entry]).push
        [headerWrite layout (disk.push [slotWrite layout disk slot entry]) delta] =
      disk.push [slotWrite layout disk slot entry, headerWrite layout disk delta] := by
  rw [headerWrite, dirHeaderAt_slotWrite, Disk.push_push]
  rfl

theorem slotAt_entryWrites (slot other : Nat) (entry : DirEntry) (delta : Int) :
    slotAt layout (disk.push [slotWrite layout disk slot entry, headerWrite layout disk delta])
      other =
      if other = slot then entry else slotAt layout disk other := by
  rw [← push_entry, slotAt_headerWrite, slotAt_slotWrite]

theorem inodeAt_entryWrites (sound : layout.Sound) {number : Nat}
    (inside : number < layout.inodePageBlockCount) (slot : Nat) (entry : DirEntry) (delta : Int) :
    inodeAt layout (disk.push [slotWrite layout disk slot entry, headerWrite layout disk delta])
      number = inodeAt layout disk number := by
  rw [← push_entry, inodeAt_headerWrite sound inside, inodeAt_slotWrite sound inside]

theorem dirHeaderAt_entryWrites (slot : Nat) (entry : DirEntry) (delta : Int) :
    dirHeaderAt layout
      (disk.push [slotWrite layout disk slot entry, headerWrite layout disk delta]) =
      (dirHeaderAt layout disk).adjust delta := by
  rw [← push_entry, headerWrite, dirHeaderAt_slotWrite, dirHeaderAt, content_push_single,
    Equiv.symm_apply_apply]

theorem DirEntry.used_for (name : Name) (inodeNum : UInt64) :
    (DirEntry.for name inodeNum dirFlagFile).used = true := by
  have flag : (dirFlagUsed ||| dirFlagFile) &&& dirFlagUsed ≠ 0 := by decide
  exact decide_eq_true flag

@[simp] theorem DirEntry.used_zero : DirEntry.zero.used = false := by
  decide

/-- A stored name matches just itself. -/
theorem DirEntry.matches_for {stored name : Name} (short : stored.length < dirNameMax)
    (short' : name.length < dirNameMax) (inodeNum : UInt64) (flags : UInt16) :
    (DirEntry.for stored inodeNum flags).matches name = true ↔ stored = name := by
  rw [DirEntry.matches, decide_eq_true_iff]
  simp only [dirNameMax] at short short'
  simp only [DirEntry.for]
  constructor
  · rintro ⟨-, lengths, bytes⟩
    have same : stored.length = name.length := by
      have := congrArg UInt16.toNat lengths
      simp only [UInt16.toNat_ofNat'] at this
      rwa [Nat.mod_eq_of_lt (by omega), Nat.mod_eq_of_lt (by omega)] at this
    apply List.ext_getElem same
    intro index inside inside'
    have byte := bytes index inside'
    have small : (Fin.ofNat 1000 index).val = index := Nat.mod_eq_of_lt (by omega)
    rw [bytesOfList, small] at byte
    simpa [List.getD_eq_getElem?_getD, inside, inside'] using byte
  · rintro rfl
    refine ⟨rfl, rfl, fun index inside => ?_⟩
    have small : (Fin.ofNat 1000 index).val = index := Nat.mod_eq_of_lt (by omega)
    rw [bytesOfList, small]

/-- A stored name is listed as it was given. -/
theorem DirEntry.listedName_for {name : Name} (short : name.length < dirNameMax)
    (text : ∀ byte ∈ name, byte ≠ 0) (inodeNum : UInt64) (flags : UInt16) :
    (DirEntry.for name inodeNum flags).listedName = name := by
  simp only [dirNameMax] at short
  have length : (UInt16.ofNat name.length).toNat = name.length := by
    rw [UInt16.toNat_ofNat', Nat.mod_eq_of_lt (by omega)]
  have bytes : (List.ofFn (bytesOfList 1000 name)).take name.length = name := by
    apply List.ext_getElem
    · simp only [List.length_take, List.length_ofFn]
      omega
    · intro index inside inside'
      simp only [List.getElem_take, List.getElem_ofFn, bytesOfList]
      simp [List.getD_eq_getElem?_getD, inside']
  simp only [DirEntry.listedName, DirEntry.for, dirNameMax, length, if_pos short, bytes, cString]
  exact List.takeWhile_eq_self_iff.mpr (by simpa using text)

theorem formatRootEntry_eq : formatRootEntry = DirEntry.for [47] 0 dirFlagDir := rfl

theorem freshInode_valid (number : Nat) (type mode : UInt32) (now : UInt64) :
    (freshInode number type mode now).Valid := NebulaInode.seal_valid _

theorem inodeTypeFile_ne : inodeTypeFile ≠ inodeTypeFree := by decide

namespace Formatted

variable {options : FormatOptions}

/-- A formatted directory has the root in its first slot, and nothing else. -/
theorem slotAt_eq (formatted : Formatted options layout disk.content) {slot : Nat}
    (below : slot < slotCount layout) :
    slotAt layout disk slot = if slot = 0 then formatRootEntry else .zero := by
  rw [slotCount] at below
  by_cases first : slot / 4 = 0
  · rw [slotAt, first, Nat.add_zero, formatted.dirFirst, Equiv.symm_apply_apply]
    simp only [slotWithinBlock, Fin.ext_iff, Fin.val_zero]
    rw [show slot % 4 = slot by omega]
  · rw [slotAt, show layout.dirPageLba + 1 + slot / 4 = layout.dirPageLba + (1 + slot / 4) by omega,
      formatted.dirRest _ (by omega) (by omega), dirBlockLayout_symm_zeroBlock, if_neg (by omega)]

/-- A formatted inode region has the root inode, and nothing else. -/
theorem inodeAt_eq (formatted : Formatted options layout disk.content) {number : Nat}
    (inside : number < layout.inodePageBlockCount) :
    inodeAt layout disk number = if number = 0 then formatRootInode options.inodeNow
      else .zero := by
  split_ifs with root
  · rw [inodeAt, root, Nat.add_zero, formatted.rootInode, Equiv.symm_apply_apply]
  · rw [inodeAt, formatted.inodes number (by omega) inside, NebulaInode.layout_symm_zeroBlock]

theorem dirHeaderAt_eq (formatted : Formatted options layout disk.content) :
    dirHeaderAt layout disk = formatDirHeader layout := by
  rw [dirHeaderAt, formatted.dirHeader, Equiv.symm_apply_apply]

end Formatted

theorem formatRootInode_valid (now : UInt64) : (formatRootInode now).Valid :=
  NebulaInode.seal_valid _

/-- The block write that stores an inode. -/
def inodeWrite (layout : NebulaLayout) (number : Nat) (inode : NebulaInode) : Nat × Block :=
  (layout.inodePageLba + number, NebulaInode.layout inode)

theorem inodeAt_store (number other : Nat) (inode : NebulaInode) :
    inodeAt layout (disk.push [inodeWrite layout number inode]) other =
      if other = number then inode else inodeAt layout disk other := by
  rw [inodeWrite, inodeAt_inodeWrite, Equiv.symm_apply_apply]

/-- A new file takes a free inode, unless a request fails. -/
theorem FsState.Placed.fileCreate_spec {uuid : Bytes 16} {state : FsState}
    (placed : state.Placed uuid layout) (mode : UInt32) (now : UInt64) :
    ∃ after, Idles state after ∧
      ((∃ number, 0 < number ∧ number < layout.inodePageBlockCount ∧
          (inodeAt layout state.disk number).type = inodeTypeFree ∧
          ((nebulaFileCreate mode now).run state =
              (.ok ⟨freshInode number inodeTypeFile mode now, openReadWrite, false⟩,
                after.withDisk (state.disk.push
                  [inodeWrite layout number (freshInode number inodeTypeFile mode now)])) ∨
            state.Faulty layout ∧ ∃ error, (nebulaFileCreate mode now).run state =
              (.error error, after.withDisk (state.disk.push
                [inodeWrite layout number (freshInode number inodeTypeFile mode now)])))) ∨
        ∃ error, (nebulaFileCreate mode now).run state = (.error error, after) ∧
          (state.Faulty layout ∨ error = .ENOSPC ∧ ∀ number, 0 < number →
            number < layout.inodePageBlockCount →
            (inodeAt layout state.disk number).type ≠ inodeTypeFree)) := by
  have few := placed.sound.inodeCount_le
  have many := placed.sound.inodeCount_ge
  have walk : 1 + (state.mount.sb.inodePageBlockCount.toNat - 1) = layout.inodePageBlockCount := by
    rw [placed.records.inodePageBlockCount]
    omega
  have allocates : (nebulaInodeAlloc inodeTypeFile mode now).run state = (inodeAllocScan
      inodeTypeFile mode now (state.mount.sb.inodePageBlockCount.toNat - 1) 1).run state := by
    rw [nebulaInodeAlloc, if_neg (by decide), run_mount_bind]
  obtain ⟨taken, idles, ⟨found, low, inside, free, ran⟩ | ⟨ran, full⟩ | ⟨bad, ran⟩⟩ :=
    placed.inodeAllocScan_spec inodeTypeFile mode now walk
  · have number : (UInt64.ofNat found).toNat = found := by
      rw [UInt64.toNat_ofNat', Nat.mod_eq_of_lt (by omega)]
    have stored := @inodeAt_store layout state.disk found found
      (freshInode found inodeTypeFile mode now)
    rw [if_pos rfl] at stored
    have placed' : (taken.withDisk (state.disk.push
        [inodeWrite layout found (freshInode found inodeTypeFile mode now)])).Placed uuid layout :=
      (placed.of_volume idles.volume).withDisk (by rw [idles.disk]; rfl)
    obtain ⟨opened, idles', read⟩ := placed'.inodeRead_spec (by rw [number]; exact inside) (by
      rw [number, FsState.disk_withDisk, stored]
      exact freshInode_valid _ _ _ _)
    rw [number, FsState.disk_withDisk, stored] at read
    have idle : Idles state (opened.withDisk state.disk) :=
      ⟨by rw [show (opened.withDisk state.disk).toVolume = ⟨state.disk, opened.mount⟩ from rfl,
        idles'.mount, FsState.mount_withDisk, idles.mount], idles'.faults.trans idles.faults⟩
    have same : (opened.withDisk state.disk).withDisk (state.disk.push
        [inodeWrite layout found (freshInode found inodeTypeFile mode now)]) = opened := by
      have disk : opened.disk = state.disk.push
        [inodeWrite layout found (freshInode found inodeTypeFile mode now)] := idles'.disk
      rw [← disk]
      rfl
    have takes : (nebulaInodeAlloc inodeTypeFile mode now).run state =
        (.ok (.ofNat found), taken.withDisk (state.disk.push
          [inodeWrite layout found (freshInode found inodeTypeFile mode now)])) :=
            allocates.trans ran
    refine ⟨opened.withDisk state.disk, idle, .inl ⟨found, low, inside, free, ?_⟩⟩
    rw [same, nebulaFileCreate, run_bind_ok takes]
    rcases read with read | ⟨bad, error, read⟩
    · left
      rw [run_bind_ok read, run_pure]
    · refine .inr ⟨idles.faulty bad, error, ?_⟩
      rw [run_bind_error read]
  · refine ⟨taken, idles, .inr ⟨.ENOSPC, ?_, .inr ⟨rfl, full⟩⟩⟩
    rw [nebulaFileCreate, run_bind_error (allocates.trans ran)]
  · refine ⟨taken, idles, .inr ⟨ Errno.EIO, ?_, .inl bad⟩⟩
    rw [nebulaFileCreate, run_bind_error (allocates.trans ran)]

theorem ExtentMapEntry.sizeBlocks_zero : ExtentMapEntry.zero.sizeBlocks = 0 := by
  decide

theorem fileDeleteLoop_empty {inode : NebulaInode}
    (empty : ∀ index, (inode.extents index).sizeBlocks = 0) (indices : List (Fin 248))
    (status : Option Errno) (state : FsState) :
    (fileDeleteLoop inode indices status).run state = (.ok status, state) := by
  induction indices with
  | nil => rfl
  | cons index rest ih =>
      rw [fileDeleteLoop, if_pos (empty index)]
      exact ih

/-- Deleting an empty file only gives back its inode. -/
theorem nebulaFileDelete_empty {file : NebulaFile}
    (empty : ∀ index, (file.inode.extents index).sizeBlocks = 0) (state : FsState) :
    (nebulaFileDelete file).run state = (nebulaInodeFree file.inode.inodeNum).run state := by
  simp only [nebulaFileDelete, run_bind_ok (fileDeleteLoop_empty empty _ none state),
    run_attempt_bind]
  cases freed : (nebulaInodeFree file.inode.inodeNum).run state with
  | mk result after => cases result <;> rfl

end MiniFs
