import MiniFs.Fs.Api
import MiniFs.Fs.Effects

/-!
# The namespace under failing requests

Creating and deleting files while any request may fail without effect.  Every block write keeps the
directory sound, with one exception: a create that has stored its entry and then fails at the
directory header takes back the inode but not the entry.
-/

namespace MiniFs

open Fs

/-- Every used entry names an inode in use, and no two name the same. -/
structure NamesOk (layout : NebulaLayout) (disk : Disk) : Prop where
  live : ∀ slot < slotCount layout, (slotAt layout disk slot).used = true →
    (slotAt layout disk slot).inodeNum.toNat < layout.inodePageBlockCount ∧
      (inodeAt layout disk (slotAt layout disk slot).inodeNum.toNat).type ≠ inodeTypeFree
  distinct : ∀ slot < slotCount layout, ∀ other < slotCount layout,
    (slotAt layout disk slot).used = true → (slotAt layout disk other).used = true →
    (slotAt layout disk slot).inodeNum = (slotAt layout disk other).inodeNum → slot = other

/-- The device after the first `n` of the block writes since the last flush. -/
def Disk.rewind (disk : Disk) (n : Nat) : Disk :=
  { disk with cells := { disk.cells with pending := disk.cells.pending.take n } }

theorem Disk.rewind_push (disk : Disk) (write : Nat × Block) (n : Nat) :
    (disk.push [write]).rewind n = disk.rewind n ∨
      (disk.push [write]).rewind n = disk.push [write] := by
  rcases Nat.lt_or_ge disk.cells.pending.length n with all | some
  · right
    simp only [Disk.rewind, Disk.push, WriteCache.push]
    rw [List.take_of_length_le]
    rw [List.length_append, List.length_singleton]
    omega
  · left
    simp only [Disk.rewind, Disk.push, WriteCache.push]
    rw [List.take_append_of_le_length some]

/-- No entry names the inode. -/
def Unreferenced (layout : NebulaLayout) (disk : Disk) (number : Nat) : Prop :=
  ∀ slot < slotCount layout, (slotAt layout disk slot).used = true →
    (slotAt layout disk slot).inodeNum.toNat ≠ number

/-- The invariant of creates and deletes: the directory is sound after every block write so far, and
the inodes are those of empty files. -/
structure FaultInv (uuid : Bytes 16) (layout : NebulaLayout) (state : FsState) : Prop where
  placed : state.Placed uuid layout
  names : ∀ n, NamesOk layout (state.disk.rewind n)
  valid : ∀ number < layout.inodePageBlockCount, (inodeAt layout state.disk number).Valid
  empty : ∀ number < layout.inodePageBlockCount, ∀ index,
    ((inodeAt layout state.disk number).extents index).sizeBlocks = 0
  number : ∀ number < layout.inodePageBlockCount,
    (inodeAt layout state.disk number).type ≠ inodeTypeFree →
      (inodeAt layout state.disk number).inodeNum.toNat = number

namespace FaultInv

variable {uuid : Bytes 16} {layout : NebulaLayout} {state after : FsState}

/-- The device as it is now. -/
theorem now (inv : FaultInv uuid layout state) : NamesOk layout state.disk := by
  have last := inv.names state.disk.cells.pending.length
  rwa [Disk.rewind, List.take_length] at last

theorem of_volume (inv : FaultInv uuid layout state) (volume : after.toVolume = state.toVolume) :
    FaultInv uuid layout after := by
  have disk : after.disk = state.disk := congrArg Volume.disk volume
  constructor
  · exact inv.placed.of_volume volume
  · rw [disk]
    exact inv.names
  · rw [disk]
    exact inv.valid
  · rw [disk]
    exact inv.empty
  · rw [disk]
    exact inv.number

/-- A write of a single block, by what it does to slots and inodes. -/
theorem push (inv : FaultInv uuid layout state) {write : Nat × Block}
    (names : NamesOk layout (state.disk.push [write]))
    (inodes : ∀ number < layout.inodePageBlockCount,
      inodeAt layout (state.disk.push [write]) number = inodeAt layout state.disk number ∨
        inodeAt layout (state.disk.push [write]) number = .zero ∨
        ∃ mode time, inodeAt layout (state.disk.push [write]) number =
          freshInode number inodeTypeFile mode time) :
    FaultInv uuid layout (state.withDisk (state.disk.push [write])) := by
  have small : ∀ number < layout.inodePageBlockCount, (UInt64.ofNat number).toNat = number := by
    intro number inside
    have few := inv.placed.sound.inodeCount_le
    rw [UInt64.toNat_ofNat', Nat.mod_eq_of_lt (by omega)]
  constructor
  · exact inv.placed.withDisk rfl
  · intro n
    rcases state.disk.rewind_push write n with earlier | last
    · simp only [FsState.disk_withDisk, earlier]
      exact inv.names n
    · simp only [FsState.disk_withDisk, last]
      exact names
  · intro number inside
    simp only [FsState.disk_withDisk]
    rcases inodes number inside with same | zero | ⟨mode, time, fresh⟩
    · rw [same]
      exact inv.valid number inside
    · rw [zero]
      exact fun live => absurd rfl live
    · rw [fresh]
      exact freshInode_valid _ _ _ _
  · intro number inside index
    simp only [FsState.disk_withDisk]
    rcases inodes number inside with same | zero | ⟨mode, time, fresh⟩
    · rw [same]
      exact inv.empty number inside index
    · rw [zero]
      exact ExtentMapEntry.sizeBlocks_zero
    · rw [fresh]
      exact ExtentMapEntry.sizeBlocks_zero
  · intro number inside
    simp only [FsState.disk_withDisk]
    rcases inodes number inside with same | zero | ⟨mode, time, fresh⟩
    · rw [same]
      exact inv.number number inside
    · rw [zero]
      exact fun live => absurd rfl live
    · rw [fresh]
      exact fun _ => small number inside

/-- Taking a free inode. -/
theorem takeInode (inv : FaultInv uuid layout state) {number : Nat}
    (inside : number < layout.inodePageBlockCount)
    (free : (inodeAt layout state.disk number).type = inodeTypeFree) (mode : UInt32)
    (time : UInt64) :
    FaultInv uuid layout (state.withDisk (state.disk.push [(layout.inodePageLba + number,
        NebulaInode.layout (freshInode number inodeTypeFile mode time))])) ∧
      Unreferenced layout (state.disk.push [(layout.inodePageLba + number,
        NebulaInode.layout (freshInode number inodeTypeFile mode time))]) number := by
  have sound := inv.placed.sound
  have unreferenced : Unreferenced layout state.disk number := by
    intro slot below used same
    exact (inv.now.live slot below used).2 (by rw [same]; exact free)
  have slots := @slotAt_inodeWrite layout state.disk sound number inside
    (NebulaInode.layout (freshInode number inodeTypeFile mode time))
  have inodes := @inodeAt_inodeWrite layout state.disk number
  refine ⟨inv.push ⟨?_, ?_⟩ ?_, ?_⟩
  · intro slot below used
    rw [slots] at used ⊢
    obtain ⟨bounded, live⟩ := inv.now.live slot below used
    refine ⟨bounded, ?_⟩
    rw [inodes, if_neg (unreferenced slot below used)]
    exact live
  · intro slot below other below' used used' same
    rw [slots] at used same
    rw [slots] at used' same
    exact inv.now.distinct slot below other below' used used' same
  · intro other bounded
    rw [inodes]
    split_ifs with here
    · subst here
      exact .inr (.inr ⟨mode, time, Equiv.symm_apply_apply _ _⟩)
    · exact .inl rfl
  · intro slot below used
    rw [slots] at used ⊢
    exact unreferenced slot below used

/-- Giving back an inode that no entry names. -/
theorem dropInode (inv : FaultInv uuid layout state) {number : Nat}
    (inside : number < layout.inodePageBlockCount)
    (unreferenced : Unreferenced layout state.disk number) :
    FaultInv uuid layout
      (state.withDisk (state.disk.push [(layout.inodePageLba + number, zeroBlock)])) := by
  have sound := inv.placed.sound
  have slots := @slotAt_inodeWrite layout state.disk sound number inside zeroBlock
  have inodes := @inodeAt_inodeWrite layout state.disk number
  refine inv.push ⟨?_, ?_⟩ ?_
  · intro slot below used
    rw [slots] at used ⊢
    obtain ⟨bounded, live⟩ := inv.now.live slot below used
    refine ⟨bounded, ?_⟩
    rw [inodes, if_neg (unreferenced slot below used)]
    exact live
  · intro slot below other below' used used' same
    rw [slots] at used same
    rw [slots] at used' same
    exact inv.now.distinct slot below other below' used used' same
  · intro other bounded
    rw [inodes]
    split_ifs with here
    · exact .inr (.inl NebulaInode.layout_symm_zeroBlock)
    · exact .inl rfl

/-- Storing an entry for an inode in use that no entry names, or clearing a slot. -/
theorem storeSlot (inv : FaultInv uuid layout state) {slot : Nat} {entry : DirEntry}
    (referable : entry.used = true → entry.inodeNum.toNat < layout.inodePageBlockCount ∧
      (inodeAt layout state.disk entry.inodeNum.toNat).type ≠ inodeTypeFree ∧
      Unreferenced layout state.disk entry.inodeNum.toNat) :
    FaultInv uuid layout
      (state.withDisk (state.disk.push [slotWrite layout state.disk slot entry])) := by
  have sound := inv.placed.sound
  have slots := @slotAt_slotWrite layout state.disk slot
  have inodes : ∀ number < layout.inodePageBlockCount, inodeAt layout
      (state.disk.push [slotWrite layout state.disk slot entry]) number =
        inodeAt layout state.disk number :=
    fun number inside => inodeAt_slotWrite sound inside slot entry
  refine inv.push ⟨?_, ?_⟩ fun number inside => .inl (inodes number inside)
  · intro index below used
    rw [slots] at used ⊢
    split_ifs at used ⊢ with here
    · obtain ⟨bounded, live, -⟩ := referable used
      exact ⟨bounded, by rwa [inodes _ bounded]⟩
    · obtain ⟨bounded, live⟩ := inv.now.live index below used
      exact ⟨bounded, by rwa [inodes _ bounded]⟩
  · intro index below other below' used used' same
    rw [slots] at used same
    rw [slots] at used' same
    split_ifs at used used' same with here there there
    · rw [here, there]
    · exact absurd (congrArg UInt64.toNat same).symm ((referable used).2.2 other below' used')
    · exact absurd (congrArg UInt64.toNat same) ((referable used').2.2 index below used)
    · exact inv.now.distinct index below other below' used used' same

theorem adjustHeader (inv : FaultInv uuid layout state) (delta : Int) :
    FaultInv uuid layout
      (state.withDisk (state.disk.push [headerWrite layout state.disk delta])) := by
  have sound := inv.placed.sound
  have slots := @slotAt_headerWrite layout state.disk delta
  have inodes : ∀ number < layout.inodePageBlockCount, inodeAt layout
      (state.disk.push [headerWrite layout state.disk delta]) number =
        inodeAt layout state.disk number :=
    fun number inside => inodeAt_headerWrite sound inside delta
  refine inv.push ⟨?_, ?_⟩ fun number inside => .inl (inodes number inside)
  · intro slot below used
    rw [slots] at used ⊢
    obtain ⟨bounded, live⟩ := inv.now.live slot below used
    exact ⟨bounded, by rwa [inodes _ bounded]⟩
  · intro slot below other below' used used' same
    rw [slots] at used same
    rw [slots] at used' same
    exact inv.now.distinct slot below other below' used used' same

end FaultInv

theorem FsState.HeaderFaulty.of_suffix {layout : NebulaLayout} {before after : FsState}
    (later : after.faults <:+ before.faults) (faulty : after.HeaderFaulty layout) :
    before.HeaderFaulty layout := by
  obtain ⟨fails, member, bad⟩ := faulty
  exact ⟨fails, later.subset member, bad⟩

namespace FaultInv

variable {uuid : Bytes 16} {layout : NebulaLayout} {state : FsState}

/-- Giving back an inode that no entry names, whatever requests fail. -/
theorem fileDelete (inv : FaultInv uuid layout state) {inodeNum : UInt64}
    (inside : inodeNum.toNat < layout.inodePageBlockCount)
    (live : (inodeAt layout state.disk inodeNum.toNat).type ≠ inodeTypeFree)
    (unreferenced : Unreferenced layout state.disk inodeNum.toNat) {file : NebulaFile}
    (opened : file.inode = inodeAt layout state.disk inodeNum.toNat) :
    FaultInv uuid layout ((nebulaFileDelete file).run state).2 := by
  have number : file.inode.inodeNum = inodeNum := by
    rw [opened]
    exact UInt64.toNat_inj.mp (inv.number _ inside live)
  rw [nebulaFileDelete_empty (by rw [opened]; exact inv.empty _ inside), number]
  by_cases root : inodeNum = 0
  · rw [nebulaInodeFree, run_mount_bind, if_pos root]
    exact inv
  · obtain ⟨after, idles, done | ⟨-, failed⟩⟩ := inv.placed.inodeFree_spec inside root live
    · rw [done, ← idles.disk]
      have later := inv.of_volume idles.volume
      exact later.dropInode inside (by rw [idles.disk]; exact unreferenced)
    · rw [failed]
      exact inv.of_volume idles.volume

/-- An entry with its header, once both are stored. -/
theorem storeEntry (inv : FaultInv uuid layout state) {slot : Nat} {entry : DirEntry} (delta : Int)
    (referable : entry.used = true → entry.inodeNum.toNat < layout.inodePageBlockCount ∧
      (inodeAt layout state.disk entry.inodeNum.toNat).type ≠ inodeTypeFree ∧
      Unreferenced layout state.disk entry.inodeNum.toNat) :
    FaultInv uuid layout (state.withDisk (state.disk.push
      [slotWrite layout state.disk slot entry, headerWrite layout state.disk delta])) := by
  have both := (@storeSlot _ _ _ inv slot entry referable).adjustHeader delta
  rw [FsState.disk_withDisk, push_entry] at both
  exact both

/-- Adding an entry for an inode in use that no entry names keeps the directory sound; if it fails,
still no entry names the inode, unless a request to the header has failed. -/
theorem dirAdd (inv : FaultInv uuid layout state) (header : ¬ state.HeaderFaulty layout)
    {inodeNum : UInt64} (inside : inodeNum.toNat < layout.inodePageBlockCount)
    (live : (inodeAt layout state.disk inodeNum.toNat).type ≠ inodeTypeFree)
    (unreferenced : Unreferenced layout state.disk inodeNum.toNat) (name : Name) :
    (∃ after, FaultInv uuid layout after ∧
        (nebulaDirAdd name inodeNum dirFlagFile).run state = (.ok (), after)) ∨
      ∃ after error, FsState.Idles state after ∧
        (nebulaDirAdd name inodeNum dirFlagFile).run state = (.error error, after) := by
  by_cases empty : name = []
  · refine .inr ⟨state, .EINVAL, .refl _, ?_⟩
    rw [nebulaDirAdd, if_pos empty, run_throw]
  by_cases long : dirNameMax ≤ name.length
  · refine .inr ⟨state, .ENAMETOOLONG, .refl _, ?_⟩
    rw [nebulaDirAdd, if_neg empty, if_pos long, run_throw]
  obtain ⟨after, idles, ⟨-, ran⟩ | ⟨-, -, ran⟩ | ⟨-, ran⟩ | ⟨-, slot, below, -, ran | ⟨bad, -⟩⟩⟩ :=
    inv.placed.dirAdd_spec empty (not_le.mp long) inodeNum dirFlagFile
  · exact .inr ⟨after, _, idles, ran⟩
  · exact .inr ⟨after, _, idles, ran⟩
  · exact .inr ⟨after, _, idles, ran⟩
  · refine .inl ⟨_, ?_, ran⟩
    rw [← idles.disk]
    refine (inv.of_volume idles.volume).storeEntry 1 fun _ => ?_
    rw [idles.disk]
    exact ⟨inside, live, unreferenced⟩
  · exact absurd bad header

/-- A new file has an inode that was free and that no entry names. -/
structure NewFile (uuid : Bytes 16) (layout : NebulaLayout) (before after : FsState)
    (inode : NebulaInode) : Prop where
  inv : FaultInv uuid layout after
  faults : after.faults <:+ before.faults
  inside : inode.inodeNum.toNat < layout.inodePageBlockCount
  positive : inode.inodeNum ≠ 0
  stored : inodeAt layout after.disk inode.inodeNum.toNat = inode
  live : inode.type ≠ inodeTypeFree
  unreferenced : Unreferenced layout after.disk inode.inodeNum.toNat
  slots : ∀ slot, slotAt layout after.disk slot = slotAt layout before.disk slot

theorem fileCreate (inv : FaultInv uuid layout state) (mode : UInt32) (now : UInt64) :
    (∃ inode after, NewFile uuid layout state after inode ∧
        (nebulaFileCreate mode now).run state = (.ok ⟨inode, openReadWrite, false⟩, after)) ∨
      ∃ error after, FaultInv uuid layout after ∧
        (nebulaFileCreate mode now).run state = (.error error, after) ∧
        (state.Faulty layout ∨ ∀ number, 0 < number → number < layout.inodePageBlockCount →
          (inodeAt layout state.disk number).type ≠ inodeTypeFree) := by
  have few := inv.placed.sound.inodeCount_le
  obtain ⟨opened, idles, ⟨number, positive, inside, free, ran⟩ | ⟨error, ran, why⟩⟩ :=
    inv.placed.fileCreate_spec mode now
  · have named : (freshInode number inodeTypeFile mode now).inodeNum.toNat = number := by
      change (UInt64.ofNat number).toNat = number
      rw [UInt64.toNat_ofNat', Nat.mod_eq_of_lt (by omega)]
    obtain ⟨last, unreferenced⟩ := (inv.of_volume idles.volume).takeInode inside
      (by rw [idles.disk]; exact free) mode now
    rw [idles.disk] at last unreferenced
    rcases ran with ran | ⟨bad, error, ran⟩
    · refine .inl ⟨freshInode number inodeTypeFile mode now, _, ?_, ran⟩
      constructor
      · exact last
      · exact idles.faults
      · rw [named]
        exact inside
      · intro zero
        rw [zero] at named
        have : (0 : UInt64).toNat = 0 := rfl
        omega
      · rw [named, FsState.disk_withDisk, inodeAt_store, if_pos rfl]
      · exact inodeTypeFile_ne
      · rw [named]
        exact unreferenced
      · intro slot
        exact slotAt_inodeWrite inv.placed.sound inside _ slot
    · exact .inr ⟨error, _, last, ran, .inl bad⟩
  · exact .inr ⟨error, opened, inv.of_volume idles.volume, ran, why.imp_right And.right⟩

/-- A create keeps the directory sound, unless a request to the header fails. -/
theorem create (inv : FaultInv uuid layout state) (header : ¬ state.HeaderFaulty layout)
    (name : Name) (mode : UInt32) (now : UInt64) :
    FaultInv uuid layout ((nebulaFsCreate name mode now).run state).2 := by
  rcases inv.fileCreate mode now with ⟨inode, opened, made, creates⟩ |
    ⟨error, after, last, creates, -⟩
  · have spared : ¬ opened.HeaderFaulty layout := fun bad => header (bad.of_suffix made.faults)
    have live : (inodeAt layout opened.disk inode.inodeNum.toNat).type ≠ inodeTypeFree := by
      rw [made.stored]
      exact made.live
    rw [nebulaFsCreate, run_bind_ok creates, run_attempt_bind]
    rcases made.inv.dirAdd spared made.inside live made.unreferenced name with
      ⟨after, last, ran⟩ | ⟨after, error, idles, ran⟩
    · simp only [ran, run_pure]
      exact last
    · simp only [ran, run_attempt_bind, run_throw]
      have later := made.inv.of_volume idles.volume
      apply later.fileDelete made.inside
      · rw [idles.disk]
        exact live
      · rw [idles.disk]
        exact made.unreferenced
      · rw [idles.disk, made.stored]
  · rw [nebulaFsCreate, run_bind_error creates]
    exact last

/-- Once its entry is cleared, no entry names the inode. -/
theorem unreferenced_of_cleared (inv : FaultInv uuid layout state) {slot : Nat}
    (below : slot < slotCount layout) (used : (slotAt layout state.disk slot).used = true) :
    Unreferenced layout (state.disk.push
      [slotWrite layout state.disk slot .zero, headerWrite layout state.disk (-1)])
      (slotAt layout state.disk slot).inodeNum.toNat := by
  intro other below' used' same
  rw [slotAt_entryWrites] at used' same
  split_ifs at used' same with here
  · simp at used'
  · exact here (inv.now.distinct other below' slot below used' used (UInt64.toNat_inj.mp same))

/-- A delete keeps the directory sound, whatever requests fail. -/
theorem delete (inv : FaultInv uuid layout state) (name : Name) :
    FaultInv uuid layout ((nebulaFsDelete name).run state).2 := by
  by_cases long : dirNameMax ≤ name.length
  · have refused : (nebulaDirLookup name).run state = (.error .ENAMETOOLONG, state) := by
      rw [nebulaDirLookup, if_pos long, run_throw]
    rw [nebulaFsDelete, run_bind_error refused]
    exact inv
  have short := not_le.mp long
  obtain ⟨seen, idles, ⟨slot, below, first, ran⟩ | ⟨-, ran⟩ | ⟨-, ran⟩⟩ :=
    inv.placed.dirLookup_spec short
  · have inv' := inv.of_volume idles.volume
    have used := first.holds.1
    obtain ⟨inside, live⟩ := inv.now.live slot below used
    rw [nebulaFsDelete, run_bind_ok ran]
    obtain ⟨gone, idles', ⟨-, ran'⟩ | ⟨-, ran'⟩ | ⟨slot', -, first', ran' | ⟨-, ran'⟩⟩⟩ :=
      inv'.placed.dirRemove_spec short
    · rw [run_bind_error ran']
      exact inv'.of_volume idles'.volume
    · rw [run_bind_error ran']
      exact inv'.of_volume idles'.volume
    · rw [idles.disk] at first'
      have same : slot' = slot := first'.unique first
      subst same
      have disk : gone.disk = state.disk := (idles.trans idles').disk
      have cleared := @storeEntry _ _ _ (inv'.of_volume idles'.volume) slot' .zero (-1)
        (by simp)
      have unreferenced := inv.unreferenced_of_cleared below used
      rw [disk] at cleared
      rw [idles.disk] at ran'
      have inodes : ∀ number < layout.inodePageBlockCount, inodeAt layout (state.disk.push
          [slotWrite layout state.disk slot' .zero, headerWrite layout state.disk (-1)]) number =
            inodeAt layout state.disk number :=
        fun number within => inodeAt_entryWrites inv.placed.sound within slot' .zero (-1)
      rw [run_bind_ok ran']
      obtain ⟨opened, idles'', read | ⟨-, error, read⟩⟩ :=
        cleared.placed.inodeRead_spec inside (cleared.valid _ inside)
      · have opens : (nebulaFileOpen (slotAt layout state.disk slot').inodeNum openReadWrite).run
            (gone.withDisk (state.disk.push
              [slotWrite layout state.disk slot' .zero, headerWrite layout state.disk (-1)])) =
            (.ok ⟨inodeAt layout state.disk (slotAt layout state.disk slot').inodeNum.toNat,
              openReadWrite, false⟩, opened) := by
          rw [FsState.disk_withDisk, inodes _ inside] at read
          rw [nebulaFileOpen, if_neg (by decide), run_bind_ok read, if_neg live, run_pure]
        rw [run_bind_ok opens]
        apply (cleared.of_volume idles''.volume).fileDelete inside
        · rw [idles''.disk, FsState.disk_withDisk, inodes _ inside]
          exact live
        · rw [idles''.disk]
          exact unreferenced
        · rw [idles''.disk, FsState.disk_withDisk, inodes _ inside]
      · have opens : (nebulaFileOpen (slotAt layout state.disk slot').inodeNum openReadWrite).run
            (gone.withDisk (state.disk.push
              [slotWrite layout state.disk slot' .zero, headerWrite layout state.disk (-1)])) =
            (.error error, opened) := by
          rw [nebulaFileOpen, if_neg (by decide), run_bind_error read]
        rw [run_bind_error opens]
        exact cleared.of_volume idles''.volume
    · rw [run_bind_error ran', ← idles'.disk]
      exact (inv'.of_volume idles'.volume).storeSlot (by simp)
  · rw [nebulaFsDelete, run_bind_error ran]
    exact inv.of_volume idles.volume
  · rw [nebulaFsDelete, run_bind_error ran]
    exact inv.of_volume idles.volume

end FaultInv

/-- A call that changes the namespace. -/
inductive NamespaceCall
  | create (name : Name) (mode : UInt32) (now : UInt64)
  | delete (name : Name)

/-- Perform a call whose requests meet the given fates. -/
def NamespaceCall.perform (call : NamespaceCall) (faults : List (Nat → Bool)) (state : FsState) :
    FsState :=
  match call with
  | .create name mode now => ((nebulaFsCreate name mode now).run { state with faults }).2
  | .delete name => ((nebulaFsDelete name).run { state with faults }).2

/-- Perform calls in order. -/
def namespaceRun (state : FsState) (calls : List (NamespaceCall × List (Nat → Bool))) : FsState :=
  calls.foldl (fun state call => call.1.perform call.2 state) state

/-- No request of a create to the directory header fails. -/
def SparesHeader (layout : NebulaLayout) (call : NamespaceCall × List (Nat → Bool)) : Prop :=
  match call.1 with
  | .create _ _ _ => ∀ fails ∈ call.2, fails layout.dirPageLba = false
  | .delete _ => True

theorem FaultInv.perform {uuid : Bytes 16} {layout : NebulaLayout} {state : FsState}
    (inv : FaultInv uuid layout state) {call : NamespaceCall × List (Nat → Bool)}
    (spares : SparesHeader layout call) : FaultInv uuid layout (call.1.perform call.2 state) := by
  obtain ⟨call, faults⟩ := call
  have ready : FaultInv uuid layout { state with faults } := inv.of_volume rfl
  cases call with
  | create name mode now =>
      refine ready.create ?_ name mode now
      rintro ⟨fails, member, bad⟩
      rw [spares fails member] at bad
      contradiction
  | delete name => exact ready.delete name

theorem FaultInv.run {uuid : Bytes 16} {layout : NebulaLayout} {state : FsState}
    (inv : FaultInv uuid layout state) {calls : List (NamespaceCall × List (Nat → Bool))}
    (spares : ∀ call ∈ calls, SparesHeader layout call) :
    FaultInv uuid layout (namespaceRun state calls) := by
  induction calls generalizing state with
  | nil => exact inv
  | cons call calls ih =>
      exact ih (inv.perform (spares call List.mem_cons_self)) fun later member =>
        spares later (List.mem_cons_of_mem _ member)

/-- A formatted and mounted device has a sound directory of the root alone. -/
theorem Volume.Fresh.faultInv {options : FormatOptions} {layout : NebulaLayout} {volume : Volume}
    (fresh : volume.Fresh options layout) (faults : List (Nat → Bool)) :
    FaultInv options.uuid layout ⟨volume, faults⟩ := by
  obtain ⟨sound, capacity, settled, formatted⟩ := fresh.spec
  have some := sound.inodeCount_ge
  have root : ∀ slot < slotCount layout, (slotAt layout volume.disk slot).used = true →
    slot = 0 := by
    intro slot below used
    by_contra other
    rw [formatted.slotAt_eq below, if_neg other, DirEntry.used_zero] at used
    contradiction
  constructor
  · exact ⟨sound, capacity, fresh.sb⟩
  · intro n
    have same : volume.disk.rewind n = volume.disk := by
      rw [Disk.rewind, settled, List.take_nil, ← settled]
    rw [same]
    constructor
    · intro slot below used
      have first := root slot below used
      subst first
      have zero : (formatRootEntry.inodeNum).toNat = 0 := rfl
      rw [formatted.slotAt_eq below, if_pos rfl, zero]
      refine ⟨by omega, ?_⟩
      rw [formatted.inodeAt_eq (by omega), if_pos rfl]
      exact fun free => absurd free (by decide : inodeTypeDir ≠ inodeTypeFree)
    · intro slot below other below' used used' _
      rw [root slot below used, root other below' used']
  · intro number inside
    rw [formatted.inodeAt_eq inside]
    split_ifs
    · exact formatRootInode_valid _
    · exact fun live => absurd rfl live
  · intro number inside index
    rw [formatted.inodeAt_eq inside]
    split_ifs
    · exact ExtentMapEntry.sizeBlocks_zero
    · exact ExtentMapEntry.sizeBlocks_zero
  · intro number inside live
    rw [formatted.inodeAt_eq inside] at live ⊢
    split_ifs at live ⊢ with first
    · exact first.symm
    · exact absurd rfl live

/-- In every run of creates and deletes from a formatted device, whatever requests fail, the
directory is sound after every block write, if no create has a failing request to the directory
header. -/
theorem names_sound_under_faults {options : FormatOptions} {layout : NebulaLayout} {volume : Volume}
    (fresh : volume.Fresh options layout) (calls : List (NamespaceCall × List (Nat → Bool)))
    (spares : ∀ call ∈ calls, SparesHeader layout call) (n : Nat) :
    NamesOk layout ((namespaceRun ⟨volume, []⟩ calls).disk.rewind n) :=
  ((fresh.faultInv []).run spares).names n

theorem names_sound_under_faults_plainDisk : ∃ layout mount,
    Volume.Fresh plainOptions layout ⟨plainDisk 65536 (by decide), mount⟩ ∧
    NamesOk layout ((namespaceRun ⟨⟨plainDisk 65536 (by decide), mount⟩, []⟩
      [(.create [97] 0 0, [fun _ => false, fun lba => decide (lba ≠ layout.dirPageLba)]),
        (.delete [47], [fun _ => true])]).disk.rewind 1) := by
  obtain ⟨layout, mount, fresh, -⟩ := plainDisk_fresh
  refine ⟨layout, mount, fresh, names_sound_under_faults fresh _ ?_ 1⟩
  intro call member
  rcases List.mem_pair.mp member with rfl | rfl
  · intro fails member'
    rcases List.mem_pair.mp member' with rfl | rfl
    · rfl
    · exact decide_eq_false fun other => other rfl
  · trivial

/-! ## A failing header -/

/-- The program makes at most so many requests, and keeps the mount. -/
def Fs.Costs {α : Type} (n : Nat) (program : Fs α) : Prop :=
  ∀ state, (∃ m ≤ n, (program.run state).2.faults = state.faults.drop m) ∧
    (program.run state).2.mount = state.mount ∧
    (program.run state).2.disk.capacityBlocks = state.disk.capacityBlocks

section Costs

variable {α β : Type} {n m : Nat}

theorem costs_bind {first : Fs α} {second : α → Fs β} (cost : Costs n first)
    (costs : ∀ value, Costs m (second value)) : Costs (n + m) (first >>= second) := by
  intro state
  obtain ⟨⟨spent, less, left⟩, mounted, sized⟩ := cost state
  rw [run_bind]
  cases ran : first.run state with
  | mk result after =>
      rw [ran] at left mounted sized
      cases result with
      | ok value =>
          obtain ⟨⟨spent', less', left'⟩, mounted', sized'⟩ := costs value after
          exact ⟨⟨spent + spent', by omega, by rw [left', left, List.drop_drop]⟩,
            mounted'.trans mounted, sized'.trans sized⟩
      | error error => exact ⟨⟨spent, by omega, left⟩, mounted, sized⟩

theorem faults_next (state : FsState) (lba : Nat) :
    (state.next lba).2.faults = state.faults.drop 1 := by
  rw [FsState.next]
  cases faults : state.faults with
  | nil => rw [faults, List.drop_nil]
  | cons fails rest => rfl

theorem costs_pure (value : α) : Costs 0 (pure value : Fs α) :=
  fun _ => ⟨⟨0, le_rfl, rfl⟩, rfl, rfl⟩

theorem costs_throw (error : Errno) : Costs 0 (throw error : Fs α) :=
  fun _ => ⟨⟨0, le_rfl, rfl⟩, rfl, rfl⟩

theorem costs_mount : Costs 0 mount := fun _ => ⟨⟨0, le_rfl, rfl⟩, rfl, rfl⟩

theorem Fs.Costs.mono {program : Fs α} (cost : Costs n program) (more : n ≤ m) :
    Costs m program := by
  intro state
  obtain ⟨⟨spent, less, left⟩, kept⟩ := cost state
  exact ⟨⟨spent, less.trans more, left⟩, kept⟩

theorem costs_ioRead (lba : Nat) : Costs 1 (ioRead lba) := fun state =>
  ⟨⟨1, le_rfl, faults_next state lba⟩, (state.next_idles lba).mount,
    congrArg Disk.capacityBlocks (state.next_idles lba).disk⟩

theorem costs_ioWrite (lba : Nat) (block : Block) : Costs 1 (ioWrite lba block) := by
  intro state
  refine ⟨⟨1, le_rfl, faults_next state lba⟩, (state.next_idles lba).mount, ?_⟩
  obtain ⟨part, -, pushed⟩ :=
    nebulaIoWrite_push (state.next lba).1 (state.next lba).2.disk lba [block]
  have same : ((ioWrite lba block).run state).2.disk =
      (nebulaIoWrite (state.next lba).1 (state.next lba).2.disk lba [block]).2 := rfl
  rw [same, pushed, Disk.capacityBlocks_push, (state.next_idles lba).disk]

theorem costs_dirFetch (lba : Nat) (cursor : Option (Nat × Block)) :
    Costs 1 (dirFetch lba cursor) := by
  cases cursor with
  | none => exact costs_ioRead lba
  | some held =>
      rw [dirFetch]
      split_ifs
      · exact (costs_pure _).mono (by omega)
      · exact costs_ioRead lba

theorem costs_dirScan (visit : Nat → DirEntry → α → ScanStep α β) (remaining slot : Nat)
    (cursor : Option (Nat × Block)) (carry : α) :
    Costs remaining (dirScan visit remaining slot cursor carry) := by
  induction remaining generalizing slot cursor carry with
  | zero => exact costs_pure _
  | succ remaining ih =>
      refine (costs_bind costs_mount fun m => costs_bind (costs_dirFetch _ cursor)
        fun block => ?_).mono (show 0 + (1 + remaining) ≤ remaining + 1 by omega)
      split
      · exact (costs_pure _).mono (by omega)
      · exact ih _ _ _

theorem costs_inodeAllocScan (type mode : UInt32) (now : UInt64) (remaining number : Nat) :
    Costs (2 * remaining) (inodeAllocScan type mode now remaining number) := by
  induction remaining generalizing number with
  | zero => exact costs_throw _
  | succ remaining ih =>
      refine (costs_bind costs_mount fun m => costs_bind (costs_ioRead _)
        fun block => ?_).mono (show 0 + (1 + (2 * remaining + 1)) ≤ 2 * (remaining + 1) by omega)
      split_ifs
      · exact (ih _).mono (by omega)
      · exact (costs_bind (costs_ioWrite _ _) fun _ => costs_pure _).mono (by omega)

theorem costs_nebulaFileCreate {uuid : Bytes 16} {layout : NebulaLayout} {state : FsState}
    (placed : state.Placed uuid layout) (mode : UInt32) (now : UInt64) :
    ∃ m ≤ 65536, ((nebulaFileCreate mode now).run state).2.faults = state.faults.drop m := by
  have few := placed.sound.inodeCount_le
  have scan : Costs (2 * (state.mount.sb.inodePageBlockCount.toNat - 1) + 1) (do
      let inodeNum ← inodeAllocScan inodeTypeFile mode now
        (state.mount.sb.inodePageBlockCount.toNat - 1) 1
      let inode ← nebulaInodeRead inodeNum
      return NebulaFile.mk inode openReadWrite false) := by
    refine costs_bind (costs_inodeAllocScan _ _ _ _ _) fun inodeNum => ?_
    refine costs_bind ?_ fun inode => costs_pure _
    rw [nebulaInodeRead]
    refine (costs_bind costs_mount fun m => ?_).mono (show 0 + 1 ≤ 1 by omega)
    split_ifs
    · exact (costs_throw _).mono (by omega)
    · refine (costs_bind (costs_ioRead _) fun block => ?_).mono (show 1 + 0 ≤ 1 by omega)
      dsimp only
      split_ifs
      · exact costs_throw _
      · exact costs_pure _
  obtain ⟨⟨spent, less, left⟩, -⟩ := scan state
  rw [placed.records.inodePageBlockCount] at less
  refine ⟨spent, by omega, ?_⟩
  rw [← left, nebulaFileCreate, nebulaInodeAlloc, if_neg (by decide), run_bind, run_mount_bind,
    ← run_bind]

end Costs

theorem run_bind_eq_ok {α β : Type} {first : Fs α} {second : α → Fs β} {state after : FsState}
    {result : β} (ran : (first >>= second).run state = (.ok result, after)) :
    ∃ value middle, first.run state = (.ok value, middle) ∧
      (second value).run middle = (.ok result, after) := by
  rw [run_bind] at ran
  cases begun : first.run state with
  | mk outcome middle =>
      rw [begun] at ran
      cases outcome with
      | ok value => exact ⟨value, middle, rfl, ran⟩
      | error error => simp at ran

/-- Requests to the directory header fail, and no others. -/
def headerFails (layout : NebulaLayout) (lba : Nat) : Bool := lba = layout.dirPageLba

theorem not_faulty_headerFails {layout : NebulaLayout} {state : FsState} {n : Nat}
    (faults : state.faults = List.replicate n (headerFails layout)) : ¬ state.Faulty layout := by
  rintro ⟨fails, member, lba, apart, bad⟩
  rw [faults] at member
  rw [List.eq_of_mem_replicate member] at bad
  exact apart (of_decide_eq_true bad)

theorem dirHeaderUpdate_fails {layout : NebulaLayout} {uuid : Bytes 16} {state : FsState} {n : Nat}
    (placed : state.Placed uuid layout)
    (faults : state.faults = List.replicate (n + 1) (headerFails layout)) (delta : Int) :
    ((dirHeaderUpdate delta).run state).1 = .error Errno.EIO := by
  have data := placed.sound.dataStart_eq
  have room := placed.data_lt
  have range : ioRange state.disk layout.dirPageLba 1 = .ok () :=
    ioRange_eq_ok (by rw [placed.capacity]; omega)
  have next : state.next layout.dirPageLba =
      (.fail fun _ => false, { state with faults := List.replicate n (headerFails layout) }) := by
    rw [FsState.next, faults, List.replicate_succ]
    simp [headerFails]
  have read : (ioRead layout.dirPageLba).run state =
      (.error Errno.EIO, { state with faults := List.replicate n (headerFails layout) }) := by
    simp only [ioRead, run_of, next, nebulaIoRead, range, Except.map]
  simp only [dirHeaderUpdate, run_mount_bind, placed.records.dirPageLba, run_bind_error read]

/-- With the header failing throughout, an added entry is stored and reported as failed. -/
theorem dirAdd_header_fails {layout : NebulaLayout} {uuid : Bytes 16} {state : FsState} {n : Nat}
    (placed : state.Placed uuid layout)
    (faults : state.faults = List.replicate n (headerFails layout))
    (long : slotCount layout + 2 < n)
    {name : Name} (some : name ≠ []) (short : name.length < dirNameMax) (inodeNum : UInt64)
    (absent : ∀ slot < slotCount layout, ¬ HoldsName (slotAt layout state.disk) name slot)
    {unused : Nat} (below : unused < slotCount layout)
    (free : (slotAt layout state.disk unused).used = false) :
    ∃ after, FsState.Idles state after ∧ ∃ slot < slotCount layout,
      (nebulaDirAdd name inodeNum dirFlagFile).run state = (.error Errno.EIO, after.withDisk
        (state.disk.push [slotWrite layout state.disk slot (.for name inodeNum dirFlagFile)])) := by
  have faultless := not_faulty_headerFails faults
  obtain ⟨after, idles, ⟨⟨slot, inside, holds⟩, -⟩ | ⟨-, all, -⟩ | ⟨bad, -⟩ |
    ⟨-, slot, inside, -, ran | ⟨-, ran⟩⟩⟩ := placed.dirAdd_spec some short inodeNum dirFlagFile
  · exact absurd holds (absent slot inside)
  · rw [all unused below] at free
    contradiction
  · exact absurd bad faultless
  · exfalso
    simp only [nebulaDirAdd, if_neg some, if_neg (not_le.mpr short), run_mount_bind,
      placed.dirCapacity_eq] at ran
    obtain ⟨found, scanned, scan, ran⟩ := run_bind_eq_ok ran
    obtain ⟨⟨spent, less, left⟩, mounted, sized⟩ :=
      costs_dirScan (addVisit name) (slotCount layout) 0 none none state
    rw [scan] at left mounted sized
    cases found with
    | found value lba block => simp at ran
    | done carry cursor =>
        cases carry with
        | none => simp at ran
        | some slot =>
            obtain ⟨block, fetched, fetch, ran⟩ := run_bind_eq_ok ran
            obtain ⟨⟨⟩, written, write, ran⟩ := run_bind_eq_ok ran
            obtain ⟨⟨spent', less', left'⟩, mounted', sized'⟩ :=
              costs_dirFetch (slotLba state.mount slot) cursor scanned
            obtain ⟨⟨spent'', less'', left''⟩, mounted'', sized''⟩ :=
              costs_ioWrite (slotLba state.mount slot)
                (setSlot block slot (.for name inodeNum dirFlagFile)) fetched
            rw [fetch] at left' mounted' sized'
            rw [write] at left'' mounted'' sized''
            have remaining : written.faults = List.replicate
                (n - (spent + spent' + spent'') - 1 + 1) (headerFails layout) := by
              rw [left'', left', left, faults, List.drop_drop, List.drop_drop, List.drop_replicate]
              congr 1
              omega
            have placed' : written.Placed uuid layout :=
              ⟨placed.sound, (sized''.trans (sized'.trans sized)).trans placed.capacity,
                (congrArg NebulaMount.sb (mounted''.trans (mounted'.trans mounted))).trans
                  placed.sb⟩
            have fails := dirHeaderUpdate_fails placed' remaining 1
            rw [ran] at fails
            contradiction
  · exact ⟨after, idles, slot, inside, ran⟩

/-- With the header failing throughout, a create stores an entry for an inode that it frees. -/
theorem create_header_fails {layout : NebulaLayout} {uuid : Bytes 16} {state : FsState} {n : Nat}
    (inv : FaultInv uuid layout state)
    (faults : state.faults = List.replicate n (headerFails layout)) (long : 300000 < n)
    {name : Name} (some : name ≠ []) (short : name.length < dirNameMax)
    (absent : ∀ slot < slotCount layout, ¬ HoldsName (slotAt layout state.disk) name slot)
    {unused : Nat} (below : unused < slotCount layout)
    (freeSlot : (slotAt layout state.disk unused).used = false)
    (freeInode : (inodeAt layout state.disk 1).type = inodeTypeFree) (mode : UInt32)
    (now : UInt64) :
    ¬ NamesOk layout ((nebulaFsCreate name mode now).run state).2.disk := by
  have sound := inv.placed.sound
  have few := sound.inodeCount_le
  have many := sound.inodeCount_ge
  have count := sound.dirCount_eq
  have slots : slotCount layout ≤ 131072 := by
    rw [slotCount]
    omega
  have faultless := not_faulty_headerFails faults
  rcases inv.fileCreate mode now with ⟨inode, opened, made, creates⟩ | ⟨-, -, -, -, bad | full⟩
  · obtain ⟨spent, less, left⟩ := costs_nebulaFileCreate inv.placed mode now
    rw [creates] at left
    have faults' : opened.faults = List.replicate (n - spent) (headerFails layout) := by
      rw [left, faults, List.drop_replicate]
    obtain ⟨after, idles, slot, inside, ran⟩ := dirAdd_header_fails made.inv.placed faults'
      (by omega) some short inode.inodeNum
      (by simpa only [HoldsName, made.slots] using absent) below (by rwa [made.slots])
    have kept := @inodeAt_slotWrite layout opened.disk sound inode.inodeNum.toNat made.inside slot
      (.for name inode.inodeNum dirFlagFile)
    rw [made.stored] at kept
    have rolled : (after.withDisk (opened.disk.push [slotWrite layout opened.disk slot
        (.for name inode.inodeNum dirFlagFile)])).Placed uuid layout :=
      (made.inv.placed.of_volume idles.volume).withDisk (by rw [idles.disk]; rfl)
    obtain ⟨last, idles', done | ⟨bad, -⟩⟩ := rolled.inodeFree_spec made.inside made.positive
      (by rw [FsState.disk_withDisk, kept]; exact made.live)
    · have final : ((nebulaFsCreate name mode now).run state).2.disk = (opened.disk.push
          [slotWrite layout opened.disk slot (.for name inode.inodeNum dirFlagFile)]).push
            [(layout.inodePageLba + inode.inodeNum.toNat, zeroBlock)] := by
        simp only [nebulaFsCreate, run_bind_ok creates, run_attempt_bind, ran, run_throw]
        rw [nebulaFileDelete_empty, done]
        · rfl
        · have empty := made.inv.empty _ made.inside
          rwa [made.stored] at empty
      intro names
      have entry : slotAt layout ((opened.disk.push
          [slotWrite layout opened.disk slot (.for name inode.inodeNum dirFlagFile)]).push
            [(layout.inodePageLba + inode.inodeNum.toNat, zeroBlock)]) slot =
              .for name inode.inodeNum dirFlagFile := by
        rw [slotAt_inodeWrite sound made.inside, slotAt_slotWrite, if_pos rfl]
      have live := (names.live slot inside (by rw [final, entry]; exact DirEntry.used_for _ _)).2
      rw [final, entry, show (DirEntry.for name inode.inodeNum dirFlagFile).inodeNum =
        inode.inodeNum from rfl, inodeAt_inodeWrite, if_pos rfl,
        NebulaInode.layout_symm_zeroBlock] at live
      exact live rfl
    · exact absurd (idles.faulty bad) (not_faulty_headerFails faults')
  · exact absurd bad (not_faulty_headerFails faults)
  · exact absurd freeInode (full 1 (by omega) (by omega))

/-- A create whose request to the directory header fails leaves an entry for a free inode. -/
theorem create_leaves_dangling_entry :
    ¬ ∀ (options : FormatOptions) (layout : NebulaLayout) (volume : Volume)
      (calls : List (NamespaceCall × List (Nat → Bool))), volume.Fresh options layout →
      NamesOk layout (namespaceRun ⟨volume, []⟩ calls).disk := by
  intro claim
  obtain ⟨layout, mount, fresh, -⟩ := plainDisk_fresh
  obtain ⟨sound, -, -, formatted⟩ := fresh.spec
  have many := sound.inodeCount_ge
  have count := sound.dirCount_eq
  have slots : 2 < slotCount layout := by
    rw [slotCount]
    omega
  have names := claim plainOptions layout _
    [(.create [97] 0 0, List.replicate 300001 (headerFails layout))] fresh
  refine create_header_fails (fresh.faultInv _) rfl (by omega) (by decide) (by decide) ?_
    (show 1 < slotCount layout by omega) ?_ ?_ 0 0 names
  · rintro slot below ⟨used, matching⟩
    rw [formatted.slotAt_eq below] at used matching
    split_ifs at used matching
    · rw [formatRootEntry_eq, DirEntry.matches_for (by decide) (by decide)] at matching
      exact absurd matching (by decide)
    · simp at used
  · rw [formatted.slotAt_eq (by omega), if_neg (by omega), DirEntry.used_zero]
  · rw [formatted.inodeAt_eq (by omega), if_neg (by omega)]
    rfl

end MiniFs
