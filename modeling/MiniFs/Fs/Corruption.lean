import MiniFs.Fs.Placed
import MiniFs.Util.Crc32cErrors

/-!
# Changed bits in inode blocks

An inode block that is not free carries the checksum of its other fields, so a change of one bit
shows when the inode is read.  The check is left out where the type field says that the inode is
free, and a scan for a free inode looks at the type field alone.
-/

namespace MiniFs

open Fs Packed

/-- The bytes before the checksum field. -/
def NebulaInode.front (inode : NebulaInode) : List UInt8 :=
  u32.bytes inode.magic ++ (u32.bytes inode.version ++ (u64.bytes inode.inodeNum ++
    (u32.bytes inode.type ++ (u32.bytes inode.mode ++ (u64.bytes inode.sizeBytes ++
      (u64.bytes inode.allocSizeBytes ++ (u64.bytes inode.atimeNs ++ (u64.bytes inode.mtimeNs ++
        (u64.bytes inode.ctimeNs ++ (u32.bytes inode.nlink ++ u32.bytes inode.flags))))))))))

/-- The bytes after the checksum field. -/
def NebulaInode.back (inode : NebulaInode) : List UInt8 :=
  (raw 52).bytes inode.attrReserved ++ (array 248 ExtentMapEntry.layout).bytes inode.extents

theorem NebulaInode.length_front (inode : NebulaInode) : inode.front.length = 72 := by
  simp [front]

theorem NebulaInode.bytes_eq (inode : NebulaInode) :
    NebulaInode.layout.bytes inode =
      inode.front ++ (u32.bytes inode.checksum ++ inode.back) := by
  rw [NebulaInode.layout, bytes_record]
  simp only [Equiv.coe_fn_mk, bytes_pair, front, back, List.append_assoc]

/-- A change of one byte of a sealed inode breaks its checksum. -/
theorem NebulaInode.checksum_of_oneByteApart {inode other : NebulaInode}
    (apart : OneByteApart (NebulaInode.layout.bytes inode.seal) (NebulaInode.layout.bytes other)) :
    other.checksum ≠ nebulaInodeChecksum other := by
  have sealed_ : inode.seal.checksum = nebulaInodeChecksum inode.seal :=
    (nebulaInodeChecksum_with inode (nebulaInodeChecksum inode)).symm
  generalize inode.seal = first at apart sealed_
  have covered : ∀ inode : NebulaInode, nebulaInodeChecksum inode =
      crc32c (inode.front ++ (u32.bytes 0 ++ inode.back)) := by
    intro inode
    rw [nebulaInodeChecksum, bytes_eq]
    rfl
  rw [covered] at sealed_ ⊢
  rw [bytes_eq, bytes_eq] at apart
  intro valid
  rcases apart.append (by rw [length_front, length_front]) with ⟨front, rest⟩ | ⟨front, rest⟩
  · obtain ⟨field, back⟩ := List.append_inj rest (by simp)
    have checksum := u32.bytes_injective field
    obtain ⟨start, byte, byte', tail, whole, whole', distinct⟩ := front
    refine crc32c_ne_of_oneByteApart ⟨start, byte, byte', tail ++ (u32.bytes 0 ++ first.back),
      ?_, ?_, distinct⟩ (sealed_.symm.trans (checksum.trans valid))
    · rw [whole, List.append_assoc, List.cons_append]
    · rw [whole', back, List.append_assoc, List.cons_append]
  · rcases rest.append (by simp) with ⟨field, back⟩ | ⟨field, back⟩
    · rw [front, back, ← valid] at sealed_
      obtain ⟨start, byte, byte', tail, whole, whole', distinct⟩ := field
      rw [sealed_, whole'] at whole
      have same := List.append_cancel_left whole
      exact distinct (List.cons.inj same).1.symm
    · have checksum := u32.bytes_injective field
      obtain ⟨start, byte, byte', tail, whole, whole', distinct⟩ := back
      refine crc32c_ne_of_oneByteApart ⟨first.front ++ (u32.bytes 0 ++ start), byte, byte', tail,
        ?_, ?_, distinct⟩ (sealed_.symm.trans (checksum.trans valid))
      · rw [whole]
        simp
      · rw [whole', front]
        simp

/-- A block with one bit changed. -/
def flipBit (block : Block) (bit : Fin 32768) : Block :=
  Function.update block ⟨bit / 8, by omega⟩
    (block ⟨bit / 8, by omega⟩ ^^^ UInt8.ofNat (2 ^ (bit.val % 8)))

theorem mask_ne_zero : ∀ bit < 8, UInt8.ofNat (2 ^ bit) ≠ 0 := by
  decide

theorem oneByteApart_flipBit (block : Block) (bit : Fin 32768) :
    OneByteApart (List.ofFn block) (List.ofFn (flipBit block bit)) := by
  refine oneByteApart_update block _ fun same => ?_
  have mask := congrArg (block ⟨bit / 8, by omega⟩ ^^^ ·) same
  simp only [← UInt8.xor_assoc, UInt8.xor_self, UInt8.zero_xor] at mask
  exact mask_ne_zero _ (Nat.mod_lt _ (by decide)) mask.symm

/-- The inode read from a changed block does not have its checksum. -/
theorem NebulaInode.checksum_flipBit (inode : NebulaInode) (bit : Fin 32768) :
    (NebulaInode.layout.symm (flipBit (NebulaInode.layout inode.seal) bit)).checksum ≠
      nebulaInodeChecksum
        (NebulaInode.layout.symm (flipBit (NebulaInode.layout inode.seal) bit)) := by
  apply @checksum_of_oneByteApart inode
  have apart := oneByteApart_flipBit (NebulaInode.layout inode.seal) bit
  rwa [bytes, bytes, Equiv.apply_symm_apply]

namespace FsState

variable {state after : FsState} {lba : Nat} {block : Block}

theorem ioRead_ok (done : (ioRead lba).run state = (.ok block, after)) :
    block = state.disk.content lba ∧ Idles state after := by
  have idles := next_idles state lba
  simp only [ioRead, run_of, nebulaIoRead, idles.disk, Prod.mk.injEq] at done
  obtain ⟨read, rfl⟩ := done
  refine ⟨?_, idles⟩
  cases range : ioRange state.disk lba 1 with
  | error error => simp [range, Except.map] at read
  | ok inside =>
      cases outcome : (state.next lba).1 with
      | ok => simpa [range, outcome, Except.map] using read.symm
      | fail landed => simp [range, outcome, Except.map] at read

theorem ioWrite_ok (done : (ioWrite lba block).run state = (.ok (), after)) :
    after.disk = state.disk.push [(lba, block)] ∧ after.mount = state.mount ∧
      lba < state.disk.capacityBlocks := by
  have idles := next_idles state lba
  simp only [ioWrite, run_of, Prod.mk.injEq] at done
  obtain ⟨wrote, rfl⟩ := done
  obtain ⟨inside, pushed⟩ := nebulaIoWrite_ok wrote
  rw [idles.disk] at inside pushed
  refine ⟨?_, idles.mount, inside⟩
  rw [disk_withDisk, idles.disk, pushed]
  rfl

end FsState

/-- A scan for a free inode returns one whose type field says so, and writes it. -/
theorem inodeAllocScan_ok {type mode : UInt32} {now number : UInt64} {remaining first : Nat}
    {state after : FsState} (bound : first + remaining ≤ 2 ^ 64)
    (done : (inodeAllocScan type mode now remaining first).run state = (.ok number, after)) :
    first ≤ number.toNat ∧ number.toNat < first + remaining ∧
      (NebulaInode.layout.symm (state.disk.content (inodeLba state.mount number.toNat))).type =
        inodeTypeFree ∧
      after.disk = state.disk.push [(inodeLba state.mount number.toNat,
        NebulaInode.layout (freshInode number.toNat type mode now))] ∧
      after.mount = state.mount ∧ inodeLba state.mount number.toNat <
        state.disk.capacityBlocks := by
  induction remaining generalizing first state with
  | zero => simp [inodeAllocScan] at done
  | succ remaining ih =>
      simp only [inodeAllocScan, run_mount_bind] at done
      cases read : (ioRead (inodeLba state.mount first)).run state with
      | mk result middle =>
          cases result with
          | error error =>
              rw [run_bind_error read] at done
              simp at done
          | ok block =>
              obtain ⟨rfl, idles⟩ := FsState.ioRead_ok read
              rw [run_bind_ok read] at done
              split_ifs at done with live
              · obtain ⟨low, high, free, pushed, mount, inside⟩ := ih (by omega) done
                rw [idles.disk, idles.mount] at free pushed inside
                rw [idles.mount] at mount
                exact ⟨by omega, by omega, free, pushed, mount, inside⟩
              · cases wrote : (ioWrite (inodeLba state.mount first)
                    (NebulaInode.layout (freshInode first type mode now))).run middle with
                | mk result last =>
                    cases result with
                    | error error =>
                        rw [run_bind_error wrote] at done
                        simp at done
                    | ok done' =>
                        rw [run_bind_ok wrote, run_pure] at done
                        obtain ⟨same, rfl⟩ := Prod.mk.inj done
                        obtain ⟨pushed, mount, inside⟩ := FsState.ioWrite_ok wrote
                        have value : number.toNat = first := by
                          rw [← Except.ok.inj same, UInt64.toNat_ofNat',
                            Nat.mod_eq_of_lt (by omega)]
                        rw [idles.disk] at pushed inside
                        rw [value]
                        exact ⟨le_rfl, by omega, not_not.mp live, pushed,
                          mount.trans idles.mount, inside⟩

/-- A call has written the block of an allocated inode: `nebula_inode_write` with a type that is not
free, or `nebula_inode_alloc`. -/
inductive InodeWritten (before after : FsState) : UInt64 → Prop
  | write (inode : NebulaInode) (allocated : inode.type ≠ inodeTypeFree)
      (done : (nebulaInodeWrite inode).run before = (.ok (.ok (), inode.seal), after)) :
      InodeWritten before after inode.inodeNum
  | alloc (type mode : UInt32) (now number : UInt64)
      (done : (nebulaInodeAlloc type mode now).run before = (.ok number, after)) :
      InodeWritten before after number

/-- The block of an inode as it is on the device. -/
def FsState.inodeBlock (state : FsState) (number : UInt64) : Block :=
  state.disk.content (inodeLba state.mount number.toNat)

/-- The device with one bit of an inode block changed. -/
def FsState.corrupted (state : FsState) (number : UInt64) (bit : Fin 32768) : FsState :=
  state.withDisk (state.disk.push
    [(inodeLba state.mount number.toNat, flipBit (state.inodeBlock number) bit)])

theorem FsState.inodeBlock_corrupted (state : FsState) (number : UInt64) (bit : Fin 32768) :
    (state.corrupted number bit).inodeBlock number = flipBit (state.inodeBlock number) bit := by
  rw [inodeBlock, corrupted, disk_withDisk, mount_withDisk, Disk.content_push]
  simp

/-- The allocator scans from inode 1 on, and does not look at inode types it does not know. -/
theorem nebulaInodeAlloc_ok {type mode : UInt32} {now number : UInt64} {state after : FsState}
    (done : (nebulaInodeAlloc type mode now).run state = (.ok number, after)) :
    (type = inodeTypeFile ∨ type = inodeTypeDir) ∧
      number.toNat < state.mount.sb.inodePageBlockCount.toNat ∧
      (NebulaInode.layout.symm (state.inodeBlock number)).type = inodeTypeFree ∧
      after.disk = state.disk.push [(inodeLba state.mount number.toNat,
        NebulaInode.layout (freshInode number.toNat type mode now))] ∧
      after.mount = state.mount ∧ inodeLba state.mount number.toNat <
        state.disk.capacityBlocks := by
  have count := state.mount.sb.inodePageBlockCount.toNat_lt
  rw [nebulaInodeAlloc] at done
  split_ifs at done with unknown
  · simp at done
  · rw [run_mount_bind] at done
    obtain ⟨low, high, free, pushed, mount, inside⟩ := inodeAllocScan_ok (by omega) done
    refine ⟨?_, by omega, free, pushed, mount, inside⟩
    rwa [not_and_or, not_not, not_not] at unknown

/-- What is on the device after such a call. -/
theorem InodeWritten.stored {before after : FsState} {number : UInt64}
    (written : InodeWritten before after number) :
    number < after.mount.sb.inodePageBlockCount ∧
      inodeLba after.mount number.toNat < after.disk.capacityBlocks ∧
      ∃ inode : NebulaInode, inode.type ≠ inodeTypeFree ∧
        after.inodeBlock number = NebulaInode.layout inode.seal := by
  cases written with
  | write inode allocated done =>
      rw [nebulaInodeWrite, run_mount_bind] at done
      split_ifs at done with beyond
      · simp at done
      · rw [run_attempt_bind, run_pure, Prod.mk.injEq, Except.ok.injEq, Prod.mk.injEq] at done
        obtain ⟨⟨wrote, -⟩, last⟩ := done
        obtain ⟨pushed, mount, inside⟩ := FsState.ioWrite_ok (Prod.ext wrote last)
        refine ⟨by rw [mount]; exact UInt64.not_le.mp beyond, ?_, inode, allocated, ?_⟩
        · rw [mount, pushed, Disk.capacityBlocks_push]
          exact inside
        · rw [FsState.inodeBlock, mount, pushed, Disk.content_push]
          simp
  | alloc type mode now number done =>
      obtain ⟨known, below, -, pushed, mount, inside⟩ := nebulaInodeAlloc_ok done
      refine ⟨by rw [mount]; exact UInt64.lt_iff_toNat_lt.mpr below, ?_,
        { NebulaInode.zero with
          magic := magicInode
          version := 1
          inodeNum := UInt64.ofNat number.toNat
          type, mode
          atimeNs := now
          mtimeNs := now
          ctimeNs := now
          nlink := 1 }, ?_, ?_⟩
      · rw [mount, pushed, Disk.capacityBlocks_push]
        exact inside
      · rcases known with rfl | rfl
        · exact (by decide : inodeTypeFile ≠ inodeTypeFree)
        · exact (by decide : inodeTypeDir ≠ inodeTypeFree)
      · rw [FsState.inodeBlock, mount, pushed, Disk.content_push]
        simp [freshInode]

section Corrupted

variable {before after : FsState} {number : UInt64}

theorem InodeWritten.run_read (written : InodeWritten before after number)
    (faultFree : after.faults = []) (bit : Fin 32768) :
    (nebulaInodeRead number).run (after.corrupted number bit) =
      if (NebulaInode.layout.symm (flipBit (after.inodeBlock number) bit)).type ≠ inodeTypeFree
      then (.error Errno.EIO, after.corrupted number bit)
      else (.ok (NebulaInode.layout.symm (flipBit (after.inodeBlock number) bit)),
        after.corrupted number bit) := by
  obtain ⟨below, inside, inode, allocated, stored⟩ := written.stored
  have read : (ioRead (inodeLba after.mount number.toNat)).run (after.corrupted number bit) =
      (.ok (flipBit (after.inodeBlock number) bit), after.corrupted number bit) := by
    rw [← after.inodeBlock_corrupted number bit]
    exact FsState.run_ioRead_of_lt faultFree inside
  have bounded : ¬ (after.corrupted number bit).mount.sb.inodePageBlockCount ≤ number :=
    UInt64.not_le.mpr below
  have broken := inode.checksum_flipBit bit
  rw [← stored] at broken
  rw [nebulaInodeRead, run_mount_bind, if_neg bounded, FsState.corrupted, FsState.mount_withDisk,
    ← FsState.corrupted, run_bind_ok read]
  split_ifs with live
  · exact congrArg (fun program : Fs NebulaInode => program.run _) (if_pos ⟨live, broken⟩)
  · exact congrArg (fun program : Fs NebulaInode => program.run _) (if_neg fun bad => live bad.1)

/-- After any call that wrote an allocated inode, and without failing requests, a change of one bit
of its block is reported by `nebula_inode_read` and keeps the inode from being allocated again,
exactly when the changed block does not have the type of a free inode. -/
theorem corruption_reported_iff (written : InodeWritten before after number)
    (faultFree : after.faults = []) (bit : Fin 32768) :
    ((∃ error, ((nebulaInodeRead number).run (after.corrupted number bit)).1 = .error error) ∧
      ∀ type mode now,
        ((nebulaInodeAlloc type mode now).run (after.corrupted number bit)).1 ≠ .ok number) ↔
      (NebulaInode.layout.symm (flipBit (after.inodeBlock number) bit)).type ≠ inodeTypeFree := by
  rw [written.run_read faultFree bit]
  constructor
  · rintro ⟨⟨error, failed⟩, -⟩ free
    rw [if_neg (not_not.mpr free)] at failed
    contradiction
  · intro live
    refine ⟨⟨ Errno.EIO, by rw [if_pos live]⟩, fun type mode now done => ?_⟩
    obtain ⟨-, -, free, -⟩ := nebulaInodeAlloc_ok (Prod.ext done rfl)
    rw [after.inodeBlock_corrupted number bit] at free
    exact live free

end Corrupted

/-- The bytes around the type field. -/
theorem NebulaInode.bytes_type (inode : NebulaInode) :
    ∃ head tail : List UInt8, head.length = 16 ∧ ∀ type,
      NebulaInode.layout.bytes { inode with type } = head ++ (u32.bytes type ++ tail) := by
  refine ⟨u32.bytes inode.magic ++ (u32.bytes inode.version ++ u64.bytes inode.inodeNum),
    u32.bytes inode.mode ++ (u64.bytes inode.sizeBytes ++ (u64.bytes inode.allocSizeBytes ++
      (u64.bytes inode.atimeNs ++ (u64.bytes inode.mtimeNs ++ (u64.bytes inode.ctimeNs ++
        (u32.bytes inode.nlink ++ u32.bytes inode.flags)))))) ++
          (u32.bytes inode.checksum ++ inode.back), by simp, fun type => ?_⟩
  rw [bytes_eq]
  simp only [front, back, List.append_assoc]

/-- A change behind the type field leaves it alone. -/
theorem type_flipBit {inode : NebulaInode} {bit : Fin 32768} (behind : 160 ≤ bit.val) :
    (NebulaInode.layout.symm (flipBit (NebulaInode.layout inode) bit)).type = inode.type := by
  obtain ⟨head, tail, length, split⟩ := inode.bytes_type
  generalize changed : NebulaInode.layout.symm (flipBit (NebulaInode.layout inode) bit) = other
  obtain ⟨head', tail', length', split'⟩ := other.bytes_type
  have before : NebulaInode.layout.bytes inode = head ++ (u32.bytes inode.type ++ tail) :=
    split inode.type
  have after : NebulaInode.layout.bytes other = head' ++ (u32.bytes other.type ++ tail') :=
    split' other.type
  have replaced : NebulaInode.layout.bytes other =
      (NebulaInode.layout.bytes inode).set (bit / 8)
        (NebulaInode.layout inode ⟨bit / 8, by omega⟩ ^^^ UInt8.ofNat (2 ^ (bit.val % 8))) := by
    rw [bytes, ← changed, Equiv.apply_symm_apply]
    exact ofFn_update _ _ _
  rw [after, before, List.set_append_right _ _ (by omega),
    List.set_append_right _ _ (by rw [length_bytes]; omega)] at replaced
  obtain ⟨-, rest⟩ := List.append_inj replaced (by omega)
  obtain ⟨same, -⟩ := List.append_inj rest (by simp)
  exact u32.bytes_injective same

/-- Clearing the bit of the type field that is set for a file makes the inode a free one. -/
theorem flipBit_file {inode : NebulaInode} (file : inode.type = inodeTypeFile) :
    flipBit (NebulaInode.layout inode) 128 =
      NebulaInode.layout { inode with type := inodeTypeFree } := by
  obtain ⟨head, tail, length, split⟩ := inode.bytes_type
  have before := split inodeTypeFile
  rw [show ({ inode with type := inodeTypeFile } : NebulaInode) = inode by rw [← file],
    show u32.bytes inodeTypeFile = [1, 0, 0, 0] from rfl] at before
  have byte : NebulaInode.layout inode 16 = 1 := by
    have here : (NebulaInode.layout.bytes inode)[16]? = some 1 := by
      rw [before, List.getElem?_append_right (by omega), length]
      rfl
    rw [bytes, List.getElem?_ofFn, dif_pos (by decide)] at here
    exact Option.some.inj here
  apply List.ofFn_injective
  have replaced := ofFn_update (NebulaInode.layout inode) 16 0
  rw [flipBit, show (⟨(128 : Fin 32768).val / 8, _⟩ : Fin 4096) = 16 from rfl, byte,
    show (1 : UInt8) ^^^ UInt8.ofNat (2 ^ ((128 : Fin 32768).val % 8)) = 0 from rfl, replaced]
  change (NebulaInode.layout.bytes inode).set 16 0 = NebulaInode.layout.bytes _
  rw [split inodeTypeFree, before, List.set_append_right _ _ (by omega), length]
  rfl

/-- The inode of an empty file, as the first one of a device. -/
def plainFile : NebulaInode := { NebulaInode.zero with inodeNum := 1, type := inodeTypeFile }

/-- On a fresh device of 256 MiB the inode can be written. -/
theorem plainFile_written : ∃ before after, InodeWritten before after 1 ∧ after.faults = [] ∧
    after.inodeBlock 1 = NebulaInode.layout plainFile.seal := by
  obtain ⟨layout, mount, -, -, exact, -, -⟩ := plainDisk_volume
  have placed : FsState.Placed plainOptions.uuid layout
      ⟨⟨plainDisk 65536 (by decide), mount⟩, []⟩ := ⟨exact.sound, exact.capacity, exact.sb⟩
  have many := exact.sound.inodeCount_ge
  have inside : plainFile.inodeNum.toNat < layout.inodePageBlockCount := by
    rw [show plainFile.inodeNum.toNat = 1 from rfl]
    omega
  obtain ⟨after, idles, done | ⟨faulty, -⟩⟩ := placed.inodeWrite_spec inside
  · refine ⟨_, _, .write plainFile (by decide) done, ?_, ?_⟩
    · rw [FsState.faults_withDisk, idles.eq rfl]
    · obtain ⟨lba, -⟩ := placed.inodeLba_eq inside
      rw [FsState.inodeBlock, FsState.mount_withDisk, idles.mount, FsState.disk_withDisk]
      simp only at lba
      rw [show (1 : UInt64).toNat = plainFile.inodeNum.toNat from rfl, lba]
      simp
  · exact absurd faulty (FsState.not_faulty rfl)

/-- A changed bit of the size field of the inode is reported. -/
theorem corruption_reported_plainFile : ∃ before after, InodeWritten before after 1 ∧
    (∃ error, ((nebulaInodeRead 1).run (after.corrupted 1 192)).1 = .error error) ∧
      ∀ type mode now,
        ((nebulaInodeAlloc type mode now).run (after.corrupted 1 192)).1 ≠ .ok 1 := by
  obtain ⟨before, after, written, faultFree, stored⟩ := plainFile_written
  refine ⟨before, after, written, (corruption_reported_iff written faultFree 192).mpr ?_⟩
  rw [stored, type_flipBit (by decide)]
  exact (by decide : inodeTypeFile ≠ inodeTypeFree)

/-- Clearing the type bit of a file turns its inode into a free one that reads without an error. -/
theorem corrupted_file_reads_free : ¬ ∀ (before after : FsState) (number : UInt64)
    (bit : Fin 32768), InodeWritten before after number → after.faults = [] →
      (∃ error, ((nebulaInodeRead number).run (after.corrupted number bit)).1 = .error error) ∧
        ∀ type mode now,
          ((nebulaInodeAlloc type mode now).run (after.corrupted number bit)).1 ≠ .ok number := by
  intro claim
  obtain ⟨before, after, written, faultFree, stored⟩ := plainFile_written
  obtain ⟨⟨error, failed⟩, -⟩ := claim before after 1 128 written faultFree
  have free : (NebulaInode.layout.symm (flipBit (after.inodeBlock 1) 128)).type =
      inodeTypeFree := by
    rw [stored, flipBit_file rfl, Equiv.symm_apply_apply]
  rw [written.run_read faultFree, if_neg (not_not.mpr free)] at failed
  contradiction

end MiniFs
