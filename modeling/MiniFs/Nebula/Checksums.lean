import MiniFs.Nebula.AllocRuns
import MiniFs.Util.Crc32cErrors

/-!
# Checksummed blocks

A checksum covers its block with the checksum field zero.  A change of up to four consecutive bytes
that does not cross the border of the field changes either the stored checksum or the computed one,
and the reader of the block refuses it.
-/

namespace MiniFs

open Packed

/-- A record of type `α` holds its checksum from byte `offset` on, and `cleared` is the record with
the field zero. -/
def ChecksumField {α : Type} {n : Nat} (layout : Packed α n) (checksum : α → UInt32)
    (cleared : α → α) (offset : Nat) : Prop :=
  ∀ a, ∃ front back, front.length = offset ∧
    layout.bytes a = front ++ (u32.bytes (checksum a) ++ back) ∧
    layout.bytes (cleared a) = front ++ (u32.bytes 0 ++ back)

/-- A block changed in up to four consecutive bytes, all outside the four bytes from `field` on or
all among them. -/
def LocalChange (field : Nat) (block changed : Block) : Prop :=
  changed ≠ block ∧ ∃ start len : Nat, len ≤ 4 ∧
    (∀ index : Fin 4096, changed index ≠ block index →
      start ≤ index.val ∧ index.val < start + len) ∧
    (start + len ≤ field ∨ field + 4 ≤ start ∨ field ≤ start ∧ start + len ≤ field + 4)

theorem agreeOutside_ofFn {start len : Nat} {block changed : Block}
    (confined : ∀ index : Fin 4096, changed index ≠ block index →
      start ≤ index.val ∧ index.val < start + len) :
    AgreeOutside start len (List.ofFn block) (List.ofFn changed) := by
  refine ⟨by rw [List.length_ofFn, List.length_ofFn], fun index outside => ?_⟩
  rw [List.getElem?_ofFn, List.getElem?_ofFn]
  split_ifs with inside
  · by_cases same : changed ⟨index, inside⟩ = block ⟨index, inside⟩
    · rw [same]
    · have within := confined ⟨index, inside⟩ same
      simp only at within
      omega
  · rfl

section Field

variable {start len : Nat} {front front' field field' back back' : List UInt8}

/-- The places of three parts. -/
theorem getElem?_parts (front field back : List UInt8) (index : Nat) :
    (front ++ (field ++ back))[index]? =
      if index < front.length then front[index]?
      else if index - front.length < field.length then field[index - front.length]?
      else back[index - front.length - field.length]? := by
  rw [List.getElem?_append, List.getElem?_append]

/-- A window before the field, or after it, leaves the field alone and changes what is around it in
the same places. -/
theorem AgreeOutside.around (agree : AgreeOutside start len (front ++ (field ++ back))
      (front' ++ (field' ++ back'))) (fronts : front.length = front'.length)
    (fields : field.length = field'.length)
    (aside : start + len ≤ front.length ∨ front.length + field.length ≤ start) (zeros : List UInt8)
    (zeroed : zeros.length = field.length) :
    field = field' ∧
      AgreeOutside start len (front ++ (zeros ++ back)) (front' ++ (zeros ++ back')) := by
  have lengths := agree.length
  simp only [List.length_append] at lengths
  constructor
  · apply List.ext_getElem?
    intro index
    by_cases inside : index < field.length
    · have here := agree.agree (front.length + index) (by omega)
      rwa [getElem?_parts, getElem?_parts, if_neg (by omega), if_pos (by omega), if_neg (by omega),
        if_pos (by omega), ← fronts, Nat.add_sub_cancel_left] at here
    · rw [List.getElem?_eq_none (by omega), List.getElem?_eq_none (by omega)]
  · refine ⟨by simp only [List.length_append]; omega, fun index outside => ?_⟩
    have here := agree.agree index outside
    rw [getElem?_parts, getElem?_parts, ← fronts] at here ⊢
    rw [← fields] at here
    rw [zeroed]
    split_ifs at here ⊢ with before within
    · exact here
    · rfl
    · exact here

/-- A window inside the field leaves what is around it alone. -/
theorem AgreeOutside.within (agree : AgreeOutside start len (front ++ (field ++ back))
      (front' ++ (field' ++ back'))) (fronts : front.length = front'.length)
    (fields : field.length = field'.length) (low : front.length ≤ start)
    (high : start + len ≤ front.length + field.length) : front = front' ∧ back = back' := by
  constructor
  · apply List.ext_getElem?
    intro index
    by_cases inside : index < front.length
    · have here := agree.agree index (by omega)
      rwa [getElem?_parts, getElem?_parts, if_pos inside, if_pos (by omega)] at here
    · rw [List.getElem?_eq_none (by omega), List.getElem?_eq_none (by omega)]
  · apply List.ext_getElem?
    intro index
    have here := agree.agree (front.length + field.length + index) (by omega)
    rw [getElem?_parts, getElem?_parts, ← fronts, ← fields, if_neg (by omega), if_neg (by omega),
      if_neg (by omega), if_neg (by omega)] at here
    rwa [show front.length + field.length + index - front.length - field.length = index by omega]
      at here

end Field

/-- A local change of an accepted record breaks its checksum. -/
theorem ChecksumField.rejects {α : Type} {layout : Packed α 4096} {checksum : α → UInt32}
    {cleared : α → α} {offset : Nat} (covered : ChecksumField layout checksum cleared offset)
    {block changed : Block}
    (valid : checksum (layout.symm block) = crc32c (layout.bytes (cleared (layout.symm block))))
    (change : LocalChange offset block changed) :
    checksum (layout.symm changed) ≠ crc32c (layout.bytes (cleared (layout.symm changed))) := by
  obtain ⟨distinct, start, len, short, confined, place⟩ := change
  obtain ⟨front, back, length, bytes, zeroed⟩ := covered (layout.symm block)
  obtain ⟨front', back', length', bytes', zeroed'⟩ := covered (layout.symm changed)
  have agree := agreeOutside_ofFn confined
  have whole : ∀ block : Block, List.ofFn block = layout.bytes (layout.symm block) := by
    intro block
    rw [Packed.bytes, Equiv.apply_symm_apply]
  have different : layout.bytes (layout.symm block) ≠ layout.bytes (layout.symm changed) := by
    rw [← whole, ← whole]
    exact fun same => distinct (List.ofFn_injective same).symm
  rw [whole, whole, bytes, bytes'] at agree
  rw [bytes, bytes'] at different
  have fronts : front.length = front'.length := length.trans length'.symm
  have fields : (u32.bytes (checksum (layout.symm block))).length =
      (u32.bytes (checksum (layout.symm changed))).length := by
    rw [length_bytes, length_bytes]
  rw [zeroed] at valid
  rw [zeroed']
  intro valid'
  have outside : start + len ≤ offset ∨ offset + 4 ≤ start → False := by
    intro aside
    obtain ⟨field, around⟩ := agree.around fronts fields (by rw [length_bytes, length]; exact aside)
      (u32.bytes 0) (by rw [length_bytes, length_bytes])
    rw [← u32.bytes_injective field, valid] at valid'
    obtain ⟨sameFront, rest⟩ := List.append_inj (around.eq_of_crc32c short valid') fronts
    rw [sameFront, field, List.append_cancel_left rest] at different
    exact different rfl
  rcases place with before | after | ⟨low, high⟩
  · exact outside (.inl before)
  · exact outside (.inr after)
  · obtain ⟨sameFront, sameBack⟩ := agree.within fronts fields (by rw [length]; exact low)
      (by rw [length_bytes, length]; exact high)
    rw [sameFront, sameBack, ← valid'] at valid
    rw [sameFront, sameBack, valid] at different
    exact different rfl

/-- The place of the checksum in the master boot record. -/
def mbrChecksumOffset : Nat := 48

/-- The place of the checksum in a superblock. -/
def superblockChecksumOffset : Nat := 160

/-- The place of the checksum in an uberblock. -/
def uberblockChecksumOffset : Nat := 52

theorem NebulaMbr.checksumField : ChecksumField NebulaMbr.layout NebulaMbr.checksum
    (fun mbr => { mbr with checksum := 0 }) mbrChecksumOffset := by
  intro mbr
  refine ⟨(raw 8).bytes mbr.magic ++ (u16.bytes mbr.versionMajor ++ (u16.bytes mbr.versionMinor ++
    (u32.bytes mbr.pad0 ++ ((raw 16).bytes mbr.deviceUuid ++ (u64.bytes mbr.deviceCapacityBlocks ++
      u64.bytes mbr.superblockHeadLba))))), (raw 4044).bytes mbr.reserved, ?_, ?_, ?_⟩
  · simp [mbrChecksumOffset]
  all_goals
    rw [NebulaMbr.layout, bytes_record]
    simp only [Equiv.coe_fn_mk, bytes_pair, List.append_assoc]

theorem NebulaSuperblock.checksumField : ChecksumField NebulaSuperblock.layout
    NebulaSuperblock.checksum (fun sb => { sb with checksum := 0 }) superblockChecksumOffset := by
  intro sb
  refine ⟨u64.bytes sb.magic ++ (u16.bytes sb.versionMajor ++ (u16.bytes sb.versionMinor ++
    (u32.bytes sb.inodeSize ++ ((raw 16).bytes sb.deviceUuid ++
    (u64.bytes sb.deviceCapacityBlocks ++ (u64.bytes sb.uberblockLba ++
    (u32.bytes sb.uberblockCount ++ (u32.bytes sb.pad0 ++ (u64.bytes sb.allocRootsHeadLba ++
    (u64.bytes sb.allocRootsTailLba ++ (u64.bytes sb.bitmapLba ++ (u64.bytes sb.bitmapBlockCount ++
    (u64.bytes sb.streamMapLba ++ (u64.bytes sb.streamMapBlockCount ++
    (u64.bytes sb.inodePageLba ++ (u64.bytes sb.inodePageBlockCount ++ (u64.bytes sb.dirPageLba ++
    (u64.bytes sb.dirPageBlockCount ++ (u64.bytes sb.dataStartLba ++
    (u64.bytes sb.dataBlockCount ++ u64.bytes sb.sbTailLba)))))))))))))))))))),
    u32.bytes sb.pad1 ++ (raw 3928).bytes sb.reserved, ?_, ?_, ?_⟩
  · simp [superblockChecksumOffset]
  all_goals
    rw [NebulaSuperblock.layout, bytes_record]
    simp only [Equiv.coe_fn_mk, bytes_pair, List.append_assoc]

theorem NebulaUberblock.checksumField : ChecksumField NebulaUberblock.layout
    NebulaUberblock.checksum (fun ub => { ub with checksum := 0 }) uberblockChecksumOffset := by
  intro ub
  refine ⟨u64.bytes ub.magic ++ (u64.bytes ub.txgId ++ (u64.bytes ub.timestampNs ++
    (u64.bytes ub.bitmapRootLba ++ (u64.bytes ub.streamMapLba ++
      (u64.bytes ub.streamMapHeadOffset ++ u32.bytes ub.allocRootsCount))))),
    (raw 4040).bytes ub.reserved, ?_, ?_, ?_⟩
  · simp [uberblockChecksumOffset]
  all_goals
    rw [NebulaUberblock.layout, bytes_record]
    simp only [Equiv.coe_fn_mk, bytes_pair, List.append_assoc]

section Readers

variable {disk : Disk} {lba : Nat}

theorem nebulaMbrRead_valid {mbr : NebulaMbr} (accepted : nebulaMbrRead disk = .ok mbr) :
    (NebulaMbr.layout.symm (disk.content 0)).checksum =
      nebulaMbrChecksum (NebulaMbr.layout.symm (disk.content 0)) := by
  rw [nebulaMbrRead] at accepted
  cases read : readBlock disk 0 with
  | error error => simp [read] at accepted
  | ok block =>
      obtain ⟨-, rfl⟩ := readBlock_ok read
      simp only [read] at accepted
      split_ifs at accepted with magic checksum
      exact not_not.mp checksum

theorem nebulaSuperblockRead_valid {sb : NebulaSuperblock}
    (accepted : nebulaSuperblockRead disk lba = .ok sb) :
    (NebulaSuperblock.layout.symm (disk.content lba)).checksum =
      nebulaSuperblockChecksum (NebulaSuperblock.layout.symm (disk.content lba)) := by
  rw [nebulaSuperblockRead] at accepted
  cases read : readBlock disk lba with
  | error error => simp [read] at accepted
  | ok block =>
      obtain ⟨-, rfl⟩ := readBlock_ok read
      simp only [read] at accepted
      split_ifs at accepted with magic checksum
      exact not_not.mp checksum

theorem nebulaUberblockReadSlot_valid {uberblockLba uberblockCount slot : Nat}
    {ub : NebulaUberblock}
    (accepted : nebulaUberblockReadSlot disk uberblockLba uberblockCount slot = .ok ub)
    (place : (uberblockLba + slot) % 2 ^ 64 = lba) :
    (NebulaUberblock.layout.symm (disk.content lba)).checksum =
      nebulaUberblockChecksum (NebulaUberblock.layout.symm (disk.content lba)) := by
  rw [nebulaUberblockReadSlot, place] at accepted
  split_ifs at accepted with range
  cases read : readBlock disk lba with
  | error error => simp [read] at accepted
  | ok block =>
      obtain ⟨-, rfl⟩ := readBlock_ok read
      simp only [read] at accepted
      split_ifs at accepted with magic checksum
      exact not_not.mp checksum

end Readers

/-- The readers of the three records refuse every local change of a block that they accept. -/
theorem local_corruption_rejected :
    (∀ (disk changed : Disk) mbr, nebulaMbrRead disk = .ok mbr →
      LocalChange mbrChecksumOffset (disk.content 0) (changed.content 0) →
      ∃ error, nebulaMbrRead changed = .error error) ∧
    (∀ (disk changed : Disk) lba sb, nebulaSuperblockRead disk lba = .ok sb →
      LocalChange superblockChecksumOffset (disk.content lba) (changed.content lba) →
      ∃ error, nebulaSuperblockRead changed lba = .error error) ∧
    ∀ (disk changed : Disk) (uberblockLba uberblockCount slot : Nat) ub,
      nebulaUberblockReadSlot disk uberblockLba uberblockCount slot = .ok ub →
      LocalChange uberblockChecksumOffset (disk.content ((uberblockLba + slot) % 2 ^ 64))
        (changed.content ((uberblockLba + slot) % 2 ^ 64)) →
      ∃ error, nebulaUberblockReadSlot changed uberblockLba uberblockCount slot = .error error := by
  refine ⟨?_, ?_, ?_⟩
  · intro disk changed mbr accepted change
    have broken := NebulaMbr.checksumField.rejects (nebulaMbrRead_valid accepted) change
    cases result : nebulaMbrRead changed with
    | error error => exact ⟨error, rfl⟩
    | ok mbr' => exact absurd (nebulaMbrRead_valid result) broken
  · intro disk changed lba sb accepted change
    have broken :=
      NebulaSuperblock.checksumField.rejects (nebulaSuperblockRead_valid accepted) change
    cases result : nebulaSuperblockRead changed lba with
    | error error => exact ⟨error, rfl⟩
    | ok sb' => exact absurd (nebulaSuperblockRead_valid result) broken
  · intro disk changed uberblockLba uberblockCount slot ub accepted change
    have broken := NebulaUberblock.checksumField.rejects
      (nebulaUberblockReadSlot_valid accepted rfl) change
    cases result : nebulaUberblockReadSlot changed uberblockLba uberblockCount slot with
    | error error => exact ⟨error, rfl⟩
    | ok ub' => exact absurd (nebulaUberblockReadSlot_valid result rfl) broken

theorem byte_add_one_ne (byte : UInt8) : byte + 1 ≠ byte := by
  intro same
  have number := congrArg UInt8.toNat same
  rw [UInt8.toNat_add] at number
  simp only [UInt8.reduceToNat] at number
  omega

/-- A block with byte 100 changed. -/
def damageByte (block : Block) : Block :=
  Function.update block ⟨100, by decide⟩ (block ⟨100, by decide⟩ + 1)

/-- A fresh device with one byte of its master boot record changed. -/
theorem local_corruption_rejected_plainDisk :
    ∃ error, nebulaMbrRead ((plainDisk 65536 (by decide)).push
      [(0, damageByte ((plainDisk 65536 (by decide)).content 0))]) = .error error := by
  obtain ⟨layout, mount, fresh, -⟩ := plainDisk_fresh
  have accepted := fresh.mountable.nebulaMbrRead_eq
  simp only at accepted
  refine local_corruption_rejected.1 _ _ _ accepted ?_
  generalize plainDisk 65536 (by decide) = disk
  have changed : (disk.push [(0, damageByte (disk.content 0))]).content 0 =
      damageByte (disk.content 0) := by
    rw [Disk.content_push]
    simp
  rw [changed]
  refine ⟨fun same => ?_, 100, 1, by decide, fun index different => ?_, .inr (.inl (by decide))⟩
  · have byte := congrFun same ⟨100, by decide⟩
    rw [damageByte, Function.update_self] at byte
    exact byte_add_one_ne _ byte
  · have here : index = ⟨100, by decide⟩ := by
      by_contra elsewhere
      exact different (Function.update_of_ne elsewhere _ _)
    rw [here]
    exact ⟨le_rfl, by decide⟩

end MiniFs
