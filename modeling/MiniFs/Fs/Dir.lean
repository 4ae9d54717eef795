import MiniFs.Fs.Requests

/-!
# The directory

One flat directory: a header block, then blocks of four slots each.  Every operation scans the
slots in order and keeps the block of the last slot it looked at.
-/

namespace MiniFs

open Fs

/-- A name: the bytes before its terminator. -/
abbrev Name : Type := List UInt8

/-- `NEBULA_DIR_NAME_MAX`. -/
abbrev dirNameMax : Nat := 1000

/-- `slot_lba`. -/
def slotLba (mount : NebulaMount) (slot : Nat) : Nat :=
  (mount.sb.dirPageLba.toNat + 1 + slot / 4) % 2 ^ 64

/-- `slot_within_block`. -/
def slotWithinBlock (slot : Nat) : Fin 4 := ⟨slot % 4, Nat.mod_lt _ (by decide)⟩

/-- The content slots of the directory. -/
def dirCapacity (mount : NebulaMount) : Nat := ((mount.sb.dirPageBlockCount - 1) * 4).toNat

/-- `de->flags & NEBULA_DIR_FLAG_USED`. -/
def DirEntry.used (entry : DirEntry) : Bool := entry.flags &&& dirFlagUsed ≠ 0

/-- The name comparison of the scans. -/
def DirEntry.matches (entry : DirEntry) (name : Name) : Bool :=
  entry.hash = fnv1aHash name ∧ entry.nameLen = UInt16.ofNat name.length ∧
    ∀ index < name.length, entry.name (Fin.ofNat 1000 index) = name.getD index 0

/-- The entry `nebula_dir_add` writes. -/
def DirEntry.for (name : Name) (inodeNum : UInt64) (typeFlag : UInt16) : DirEntry where
  hash := fnv1aHash name
  inodeNum := inodeNum
  nameLen := UInt16.ofNat name.length
  flags := dirFlagUsed ||| typeFlag
  pad0 := 0
  name := bytesOfList 1000 name

/-- The block of a slot: the one at hand, or read anew. -/
def dirFetch (lba : Nat) : Option (Nat × Block) → Fs Block
  | some (last, block) => if lba = last then return block else ioRead lba
  | none => ioRead lba

/-- What a scan does at a slot: go on, or stop. -/
inductive ScanStep (α β : Type)
  | next (carry : α)
  | found (value : β)

/-- How a scan ends: at a slot, with its block, or past the last slot, with the block at hand. -/
inductive ScanEnd (α β : Type)
  | found (value : β) (lba : Nat) (block : Block)
  | done (carry : α) (cursor : Option (Nat × Block))

/-- The scan of the directory, with `remaining` slots from `slot` on to look at. -/
def dirScan {α β : Type} (visit : Nat → DirEntry → α → ScanStep α β) :
    Nat → Nat → Option (Nat × Block) → α → Fs (ScanEnd α β)
  | 0, _, cursor, carry => return .done carry cursor
  | remaining + 1, slot, cursor, carry => do
      let m ← mount
      let block ← dirFetch (slotLba m slot) cursor
      match visit slot (dirBlockLayout.symm block (slotWithinBlock slot)) carry with
      | .found value => return .found value (slotLba m slot) block
      | .next carry => dirScan visit remaining (slot + 1) (some (slotLba m slot, block)) carry

/-- A block with one slot replaced. -/
def setSlot (block : Block) (slot : Nat) (entry : DirEntry) : Block :=
  dirBlockLayout (Function.update (dirBlockLayout.symm block) (slotWithinBlock slot) entry)

/-- The header of `dir_header_update`. -/
def DirPageHeader.adjust (header : DirPageHeader) (delta : Int) : DirPageHeader :=
  let counted : DirPageHeader :=
    if 0 < delta then
      { header with numEntries := header.numEntries + UInt64.ofNat delta.toNat }
    else if UInt64.ofNat (-delta).toNat ≤ header.numEntries then
      { header with numEntries := header.numEntries - UInt64.ofNat (-delta).toNat }
    else header
  { counted with checksum := dirHeaderChecksum counted }

/-- `dir_header_update`. -/
def dirHeaderUpdate (delta : Int) : Fs Unit := do
  let m ← mount
  let block ← ioRead m.sb.dirPageLba.toNat
  ioWrite m.sb.dirPageLba.toNat
    (DirPageHeader.layout ((DirPageHeader.layout.symm block).adjust delta))

/-- What `nebula_dir_add` does at a slot: remember the first unused one, stop at the name. -/
def addVisit (name : Name) (slot : Nat) (entry : DirEntry) (free : Option Nat) :
    ScanStep (Option Nat) Unit :=
  if entry.used then if entry.matches name then .found () else .next free
  else .next (free.or (some slot))

/-- `nebula_dir_add`. -/
def nebulaDirAdd (name : Name) (inodeNum : UInt64) (typeFlag : UInt16) : Fs Unit := do
  if name = [] then throw .EINVAL
  else if dirNameMax ≤ name.length then throw .ENAMETOOLONG
  else
    let m ← mount
    match ← dirScan (addVisit name) (dirCapacity m) 0 none none with
    | .found _ _ _ => throw .EEXIST
    | .done none _ => throw .ENOSPC
    | .done (some slot) cursor =>
        let block ← dirFetch (slotLba m slot) cursor
        ioWrite (slotLba m slot) (setSlot block slot (.for name inodeNum typeFlag))
        dirHeaderUpdate 1

/-- What `nebula_dir_lookup` and `nebula_dir_remove` do at a slot: stop at the name. -/
def findVisit (name : Name) (slot : Nat) (entry : DirEntry) (_ : Unit) :
    ScanStep Unit (Nat × DirEntry) :=
  if entry.used then if entry.matches name then .found (slot, entry) else .next () else .next ()

/-- `nebula_dir_lookup`. -/
def nebulaDirLookup (name : Name) : Fs UInt64 := do
  if dirNameMax ≤ name.length then throw .ENAMETOOLONG
  else
    let m ← mount
    match ← dirScan (findVisit name) (dirCapacity m) 0 none () with
    | .found (_, entry) _ _ => return entry.inodeNum
    | .done _ _ => throw .ENOENT

/-- `nebula_dir_remove`. -/
def nebulaDirRemove (name : Name) : Fs Unit := do
  if dirNameMax ≤ name.length then throw .ENAMETOOLONG
  else
    let m ← mount
    match ← dirScan (findVisit name) (dirCapacity m) 0 none () with
    | .found (slot, _) lba block =>
        ioWrite lba (setSlot block slot .zero)
        dirHeaderUpdate (-1)
    | .done _ _ => throw .ENOENT

/-- What a directory listing reports of an entry. -/
structure DirItem where
  name : Name
  inodeNum : UInt64
  flags : UInt16

/-- The bytes before the first zero byte. -/
def cString (bytes : List UInt8) : Name := bytes.takeWhile (· ≠ 0)

/-- The name of an entry as the listing passes it on. -/
def DirEntry.listedName (entry : DirEntry) : Name :=
  cString ((List.ofFn entry.name).take
    (if entry.nameLen.toNat < dirNameMax then entry.nameLen.toNat else dirNameMax))

/-- What `nebula_dir_list` does at a slot: report a used one. -/
def listVisit (_ : Nat) (entry : DirEntry) (items : List DirItem) :
    ScanStep (List DirItem) Empty :=
  if entry.used then .next (items ++ [⟨entry.listedName, entry.inodeNum, entry.flags⟩])
  else .next items

/-- `nebula_dir_list`, with a callback that collects the entries. -/
def nebulaDirList : Fs (List DirItem) := do
  let m ← mount
  match ← dirScan listVisit (dirCapacity m) 0 none [] with
  | .found value _ _ => nomatch value
  | .done items _ => return items

end MiniFs
