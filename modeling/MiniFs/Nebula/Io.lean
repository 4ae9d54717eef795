import MiniFs.Lib.Packed
import MiniFs.Lib.WriteCache

/-!
# Block devices

The backend-independent block interface.  A device is an array of 4 KiB blocks behind a volatile
write cache.  A write may fail after any part of its blocks has landed; a flush may fail without
effect.  Device addresses are block numbers.
-/

namespace MiniFs

/-- `NEBULA_BLOCK_SIZE`. -/
abbrev blockSize : Nat := 4096

/-- The contents of one device block. -/
abbrev Block : Type := Bytes 4096

/-- The block of zeros. -/
def zeroBlock : Block := fun _ => 0

/-- How a call fails: with one of the `errno` values the code returns, negated, or by an access past
the end of a buffer, after which nothing is said about the program. -/
inductive Errno
  | ENOENT | EIO | EBADF | ENOMEM | EEXIST | EINVAL | ENOSPC | ERANGE | ENAMETOOLONG
  | overrun
  deriving DecidableEq, Repr

/-- `struct nebula_io`: the device behind an I/O handle.  Both backends derive the capacity from a
64-bit byte count. -/
structure Disk where
  /-- `capacity_blocks`. -/
  capacityBlocks : Nat
  /-- The blocks, behind the device's write cache. -/
  cells : WriteCache Block
  /-- The byte size of the device fits 64 bits. -/
  capacity_lt : capacityBlocks < 2 ^ 52

namespace Disk

/-- What a read of a block returns. -/
def content (disk : Disk) : Nat → Block := disk.cells.content

/-- Issue block writes. -/
def push (disk : Disk) (writes : List (Nat × Block)) : Disk :=
  { disk with cells := disk.cells.push writes }

@[simp] theorem capacityBlocks_push (disk : Disk) (writes : List (Nat × Block)) :
    (disk.push writes).capacityBlocks = disk.capacityBlocks := rfl

@[simp] theorem cells_push (disk : Disk) (writes : List (Nat × Block)) :
    (disk.push writes).cells = disk.cells.push writes := rfl

@[simp] theorem content_push (disk : Disk) (writes : List (Nat × Block)) :
    (disk.push writes).content = applyWrites disk.content writes :=
  disk.cells.content_push writes

@[simp] theorem push_nil (disk : Disk) : disk.push [] = disk := by
  simp [push, WriteCache.push]

/-- Make every issued write durable. -/
def flush (disk : Disk) : Disk :=
  { disk with cells := disk.cells.flush }

@[simp] theorem capacityBlocks_flush (disk : Disk) :
    disk.flush.capacityBlocks = disk.capacityBlocks := rfl

@[simp] theorem content_flush (disk : Disk) : disk.flush.content = disk.content := rfl

@[simp] theorem pending_flush (disk : Disk) : disk.flush.cells.pending = [] := rfl

/-- Power loss: of the writes since the last flush only those in `kept` reach the device. -/
def cut (disk : Disk) (kept : List (Nat × Block)) : Disk :=
  { disk with cells := disk.cells.cut kept }

end Disk

/-- How the environment treats one request. -/
inductive IoOutcome
  /-- The request succeeds. -/
  | ok
  /-- The request fails; of a write, the blocks selected by index have landed. -/
  | fail (landed : Nat → Bool)

/-- The request succeeds or fails without effect. -/
def IoOutcome.Atomic : IoOutcome → Prop
  | .ok => True
  | .fail landed => ∀ index, landed index = false

/-- The range check of both backends, `lba + n_blocks > capacity_blocks` in 64 bits.  A request
whose end wraps past the check has a negative byte offset, which the system call refuses. -/
def ioRange (disk : Disk) (lba n : Nat) : Except Errno Unit :=
  if disk.capacityBlocks < (lba + n) % 2 ^ 64 then .error .ERANGE
  else if disk.capacityBlocks < lba + n then .error .EINVAL
  else .ok ()

theorem ioRange_eq_ok {disk : Disk} {lba n : Nat} (inside : lba + n ≤ disk.capacityBlocks) :
    ioRange disk lba n = .ok () := by
  have bound := disk.capacity_lt
  have small : lba + n < 2 ^ 64 := by omega
  rw [ioRange, Nat.mod_eq_of_lt small, if_neg (by omega), if_neg (by omega)]

theorem ioRange_ok_iff {disk : Disk} {lba n : Nat} :
    ioRange disk lba n = .ok () ↔ lba + n ≤ disk.capacityBlocks := by
  refine ⟨fun accepted => ?_, ioRange_eq_ok⟩
  simp only [ioRange] at accepted
  split_ifs at accepted with wrapped beyond
  exact not_lt.mp beyond

/-- `nebula_io_read`. -/
def nebulaIoRead (outcome : IoOutcome) (disk : Disk) (lba n : Nat) : Except Errno (List Block) :=
  match ioRange disk lba n with
  | .error error => .error error
  | .ok () =>
      match outcome with
      | .ok => .ok ((List.range n).map fun index => disk.content (lba + index))
      | .fail _ => .error Errno.EIO

/-- `nebula_io_write`. -/
def nebulaIoWrite (outcome : IoOutcome) (disk : Disk) (lba : Nat) (blocks : List Block) :
    Except Errno Unit × Disk :=
  match ioRange disk lba blocks.length with
  | .error error => (.error error, disk)
  | .ok () =>
      match outcome with
      | .ok => (.ok (), disk.push (rangeWrites lba blocks))
      | .fail landed =>
          (.error Errno.EIO,
            disk.push ((rangeWrites lba blocks).filter fun write => landed (write.1 - lba)))

/-- `nebula_io_flush`. -/
def nebulaIoFlush (outcome : IoOutcome) (disk : Disk) : Except Errno Unit × Disk :=
  match outcome with
  | .ok => (.ok (), disk.flush)
  | .fail _ => (.error Errno.EIO, disk)

/-- A write, failed or not, issues a part of its own block writes and nothing else. -/
theorem nebulaIoWrite_push (outcome : IoOutcome) (disk : Disk) (lba : Nat) (blocks : List Block) :
    ∃ part : List (Nat × Block), part.Sublist (rangeWrites lba blocks) ∧
      (nebulaIoWrite outcome disk lba blocks).2 = disk.push part := by
  simp only [nebulaIoWrite]
  split
  · exact ⟨[], List.nil_sublist _, by simp⟩
  · cases outcome with
    | ok => exact ⟨_, List.Sublist.refl _, rfl⟩
    | fail landed => exact ⟨_, List.filter_sublist, rfl⟩

/-- A write that fails without effect leaves the device as it was. -/
theorem nebulaIoWrite_atomic {outcome : IoOutcome} (atomic : outcome.Atomic) {disk : Disk}
    {lba : Nat} {blocks : List Block} {error : Errno}
    (failed : (nebulaIoWrite outcome disk lba blocks).1 = .error error) :
    (nebulaIoWrite outcome disk lba blocks).2 = disk := by
  simp only [nebulaIoWrite] at failed ⊢
  split at failed
  · rfl
  · cases outcome with
    | ok => simp at failed
    | fail landed =>
        simp only [IoOutcome.Atomic] at atomic
        simp [atomic]

/-- A write that succeeds has issued all of its block writes. -/
theorem nebulaIoWrite_ok {outcome : IoOutcome} {disk : Disk} {lba : Nat} {blocks : List Block}
    (succeeded : (nebulaIoWrite outcome disk lba blocks).1 = .ok ()) :
    lba + blocks.length ≤ disk.capacityBlocks ∧
      (nebulaIoWrite outcome disk lba blocks).2 = disk.push (rangeWrites lba blocks) := by
  simp only [nebulaIoWrite] at succeeded ⊢
  split at succeeded
  · contradiction
  · rename_i inside
    refine ⟨ioRange_ok_iff.mp inside, ?_⟩
    cases outcome with
    | ok => simp
    | fail landed => simp at succeeded

/-- In range and without a fault, a write succeeds. -/
theorem nebulaIoWrite_fault_free {disk : Disk} {lba : Nat} {blocks : List Block}
    (inside : lba + blocks.length ≤ disk.capacityBlocks) :
    nebulaIoWrite .ok disk lba blocks = (.ok (), disk.push (rangeWrites lba blocks)) := by
  simp [nebulaIoWrite, ioRange_eq_ok inside]

theorem nebulaIoRead_fault_free {disk : Disk} {lba n : Nat}
    (inside : lba + n ≤ disk.capacityBlocks) :
    nebulaIoRead .ok disk lba n =
      .ok ((List.range n).map fun index => disk.content (lba + index)) := by
  simp [nebulaIoRead, ioRange_eq_ok inside]

end MiniFs
