import MiniFs.Fs.DirectoryMap
import MiniFs.Fs.Rounds

/-!
# Owners of blocks

Files hold blocks, as their inodes are stored and as open handles have them.  A block that is held
is in use and in the data region, and it is held under one inode number.  Growing a file takes
blocks that nobody holds; deleting one gives back blocks that nobody else holds.
-/

namespace MiniFs

open Fs

/-- The inodes hold their blocks: in use, in the data region, and none under two numbers. -/
structure Owners (layout : NebulaLayout) (state : FsState) (holders : Nat → NebulaInode → Prop) :
    Prop where
  guarded : ∀ lba < layout.capacityBlocks, lbaIsMetadata layout lba = true → state.taken lba = true
  mapped : ∀ {number inode}, holders number inode → inode.Mapped
  taken : ∀ {number inode lba}, holders number inode → inode.Holds lba → state.taken lba = true
  inData : ∀ {number inode lba}, holders number inode → inode.Holds lba → InData layout lba
  apart : ∀ {number inode number' inode' lba}, holders number inode → holders number' inode' →
    inode.Holds lba → inode'.Holds lba → number = number'

namespace Owners

variable {uuid : Bytes 16} {layout : NebulaLayout} {state after : FsState}
  {holders holders' : Nat → NebulaInode → Prop} {number : Nat} {inode inode' : NebulaInode}

theorem backs (owners : Owners layout state holders) (holder : holders number inode) :
    state.Backs layout inode :=
  ⟨owners.guarded, owners.mapped holder, fun _ => owners.taken holder, fun _ =>
    owners.inData holder⟩

/-- A holder is among the old ones, up to what is not its extents. -/
def Among (holders : Nat → NebulaInode → Prop) (number : Nat) (inode : NebulaInode) : Prop :=
  ∃ old, holders number old ∧ inode.extents = old.extents

/-- The bitmap is as it was, and new holders have no extents. -/
theorem mono (owners : Owners layout state holders) (sound : layout.Sound)
    (bits : ∀ lba < layout.capacityBlocks, after.taken lba = state.taken lba)
    (kept : ∀ {number inode}, holders' number inode →
      Among holders number inode ∨ ∀ index, inode.extents index = .zero) :
    Owners layout after holders' := by
  have cases : ∀ {number inode lba}, holders' number inode → inode.Holds lba →
      ∃ old, holders number old ∧ old.Holds lba := by
    intro number inode lba holder holds
    rcases kept holder with ⟨old, among, same⟩ | empty
    · exact ⟨old, among, (NebulaInode.holds_congr same lba).mp holds⟩
    · exact absurd holds ((NebulaInode.mapped_of_empty empty).2.1 lba)
  constructor
  · intro lba below metadata
    rw [bits lba below]
    exact owners.guarded lba below metadata
  · intro number inode holder
    rcases kept holder with ⟨old, among, same⟩ | empty
    · exact (owners.mapped among).congr same
    · exact (NebulaInode.mapped_of_empty empty).1
  · intro number inode lba holder holds
    obtain ⟨old, among, held⟩ := cases holder holds
    rw [bits lba ((owners.inData among held).lt_capacity sound)]
    exact owners.taken among held
  · intro number inode lba holder holds
    obtain ⟨old, among, held⟩ := cases holder holds
    exact owners.inData among held
  · intro number inode number' inode' lba holder holder' holds holds'
    obtain ⟨old, among, held⟩ := cases holder holds
    obtain ⟨old', among', held'⟩ := cases holder' holds'
    exact owners.apart among among' held held'

/-- A file grows by blocks that were free. -/
theorem grow (owners : Owners layout state holders) (holder : holders number inode)
    (grown : Grown uuid layout state inode after inode')
    (kept : ∀ {other inode}, holders' other inode →
      Among holders other inode ∨ other = number ∧ inode.extents = inode'.extents) :
    Owners layout after holders' := by
  have fresh : ∀ {other old lba}, holders other old → old.Holds lba → inode'.Holds lba →
      other = number := by
    intro other old lba among held holds
    by_cases earlier : inode.Holds lba
    · exact owners.apart among holder held earlier
    · have used := owners.taken among held
      rw [grown.fresh lba holds earlier] at used
      contradiction
  have cases : ∀ {other inode lba}, holders' other inode → inode.Holds lba →
      (∃ old, holders other old ∧ old.Holds lba) ∨ other = number ∧ inode'.Holds lba := by
    intro other inode lba holder holds
    rcases kept holder with ⟨old, among, same⟩ | ⟨same, extents⟩
    · exact .inl ⟨old, among, (NebulaInode.holds_congr same lba).mp holds⟩
    · exact .inr ⟨same, (NebulaInode.holds_congr extents lba).mp holds⟩
  constructor
  · exact (grown.backs (owners.backs holder)).guarded
  · intro other inode holder
    rcases kept holder with ⟨old, among, same⟩ | ⟨-, extents⟩
    · exact (owners.mapped among).congr same
    · exact grown.mapped.congr extents
  · intro other inode lba holder holds
    rcases cases holder holds with ⟨old, among, held⟩ | ⟨-, held⟩
    · exact (grown.taken lba).mpr (.inl (owners.taken among held))
    · exact (grown.taken lba).mpr (.inr held)
  · intro other inode lba holder holds
    rcases cases holder holds with ⟨old, among, held⟩ | ⟨-, held⟩
    · exact owners.inData among held
    · exact grown.inData lba held
  · intro first inode second inode' lba holder holder' holds holds'
    rcases cases holder holds with ⟨old, among, held⟩ | ⟨rfl, held⟩ <;>
      rcases cases holder' holds' with ⟨old', among', held'⟩ | ⟨rfl, held'⟩
    · exact owners.apart among among' held held'
    · exact fresh among held held'
    · exact (fresh among' held' held).symm
    · rfl

/-- A file gives back its blocks and is gone. -/
theorem free (owners : Owners layout state holders) (holder : holders number inode)
    (bits : ∀ lba, after.taken lba = true ↔ state.taken lba = true ∧ ¬ inode.Holds lba)
    (kept : ∀ {other inode}, holders' other inode → other ≠ number ∧ Among holders other inode) :
    Owners layout after holders' := by
  have cases : ∀ {other inode lba}, holders' other inode → inode.Holds lba →
      other ≠ number ∧ ∃ old, holders other old ∧ old.Holds lba := by
    intro other inode lba holder holds
    obtain ⟨apart, old, among, same⟩ := kept holder
    exact ⟨apart, old, among, (NebulaInode.holds_congr same lba).mp holds⟩
  constructor
  · intro lba below metadata
    refine (bits lba).mpr ⟨owners.guarded lba below metadata, fun holds => ?_⟩
    obtain ⟨low, high⟩ := owners.inData holder holds
    rw [lbaIsMetadata_data low high] at metadata
    contradiction
  · intro other inode holder
    obtain ⟨-, old, among, same⟩ := kept holder
    exact (owners.mapped among).congr same
  · intro other inode lba holder' holds
    obtain ⟨apart, old, among, held⟩ := cases holder' holds
    refine (bits lba).mpr ⟨owners.taken among held, fun mine => ?_⟩
    exact apart (owners.apart among holder held mine)
  · intro other inode lba holder' holds
    obtain ⟨-, old, among, held⟩ := cases holder' holds
    exact owners.inData among held
  · intro first inode second inode' lba holder' holder'' holds holds'
    obtain ⟨-, old, among, held⟩ := cases holder' holds
    obtain ⟨-, old', among', held'⟩ := cases holder'' holds'
    exact owners.apart among among' held held'

end Owners

end MiniFs
