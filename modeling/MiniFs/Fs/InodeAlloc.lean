import MiniFs.Fs.Requests

/-!
# Inodes

Inode `n` is the `n`th block of the inode region.  A block whose type field is zero is a free
inode; inode 0 is the root and is never handed out.
-/

namespace MiniFs

open Fs

/-- `inode_lba`. -/
def inodeLba (mount : NebulaMount) (inodeNum : Nat) : Nat :=
  (mount.sb.inodePageLba.toNat + inodeNum) % 2 ^ 64

/-- `nebula_inode_read`. -/
def nebulaInodeRead (inodeNum : UInt64) : Fs NebulaInode := do
  let m ← mount
  if m.sb.inodePageBlockCount ≤ inodeNum then throw .EINVAL
  else
    let block ← ioRead (inodeLba m inodeNum.toNat)
    let inode := NebulaInode.layout.symm block
    if inode.type ≠ inodeTypeFree ∧ inode.checksum ≠ nebulaInodeChecksum inode then throw Errno.EIO
    else return inode

/-- The inode with its checksum. -/
def NebulaInode.seal (inode : NebulaInode) : NebulaInode :=
  { inode with checksum := nebulaInodeChecksum inode }

/-- `nebula_inode_write`: the result, and the caller's inode with the checksum reflected back. -/
def nebulaInodeWrite (inode : NebulaInode) : Fs (Except Errno Unit × NebulaInode) := do
  let m ← mount
  if m.sb.inodePageBlockCount ≤ inode.inodeNum then return (.error .EINVAL, inode)
  else
    let result ← attempt (ioWrite (inodeLba m inode.inodeNum.toNat)
      (NebulaInode.layout inode.seal))
    return (result, inode.seal)

/-- The inode of `nebula_inode_alloc`. -/
def freshInode (number : Nat) (type mode : UInt32) (now : UInt64) : NebulaInode :=
  NebulaInode.seal
    { NebulaInode.zero with
      magic := magicInode
      version := 1
      inodeNum := UInt64.ofNat number
      type, mode
      atimeNs := now
      mtimeNs := now
      ctimeNs := now
      nlink := 1 }

/-- The scan of `nebula_inode_alloc`, with `remaining` inodes from `number` on to look at. -/
def inodeAllocScan (type mode : UInt32) (now : UInt64) : Nat → Nat → Fs UInt64
  | 0, _ => throw .ENOSPC
  | remaining + 1, number => do
      let m ← mount
      let block ← ioRead (inodeLba m number)
      if (NebulaInode.layout.symm block).type ≠ inodeTypeFree then
        inodeAllocScan type mode now remaining (number + 1)
      else
        ioWrite (inodeLba m number) (NebulaInode.layout (freshInode number type mode now))
        return UInt64.ofNat number

/-- `nebula_inode_alloc`. -/
def nebulaInodeAlloc (type mode : UInt32) (now : UInt64) : Fs UInt64 := do
  if type ≠ inodeTypeFile ∧ type ≠ inodeTypeDir then throw .EINVAL
  else
    let m ← mount
    inodeAllocScan type mode now (m.sb.inodePageBlockCount.toNat - 1) 1

/-- `nebula_inode_free`. -/
def nebulaInodeFree (inodeNum : UInt64) : Fs Unit := do
  let m ← mount
  if inodeNum = 0 then throw .EINVAL
  else if m.sb.inodePageBlockCount ≤ inodeNum then throw .EINVAL
  else
    let block ← ioRead (inodeLba m inodeNum.toNat)
    if (NebulaInode.layout.symm block).type = inodeTypeFree then throw .EINVAL
    else ioWrite (inodeLba m inodeNum.toNat) zeroBlock

end MiniFs
