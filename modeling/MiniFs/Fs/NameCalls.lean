import MiniFs.Fs.Namespace

/-!
# Calls on names

What the calls that take a name do without faults, in terms of the listed files.
-/

namespace MiniFs

open Fs

/-- A mounted device on which no request fails. -/
structure FsState.Ready (uuid : Bytes 16) (layout : NebulaLayout) (state : FsState) : Prop where
  placed : state.Placed uuid layout
  faultFree : state.faults = []

theorem FsState.Ready.withDisk {uuid : Bytes 16} {layout : NebulaLayout} {state : FsState}
    (ready : state.Ready uuid layout) {disk : Disk}
    (capacity : disk.capacityBlocks = state.disk.capacityBlocks) :
    (state.withDisk disk).Ready uuid layout :=
  ⟨ready.placed.withDisk capacity, ready.faultFree⟩

theorem toNat_ofNat_inode {layout : NebulaLayout} (sound : layout.Sound) {number : Nat}
    (inside : number < layout.inodePageBlockCount) : (UInt64.ofNat number).toNat = number := by
  have few := sound.inodeCount_le
  rw [UInt64.toNat_ofNat', Nat.mod_eq_of_lt (by omega)]

/-- What a successful create leaves behind. -/
structure Created (layout : NebulaLayout) (disk : Disk) (entries : Entries) (name : Name)
    (slot number : Nat) (inode : NebulaInode) (writes : List (Nat × Block)) : Prop where
  dir : DirOk layout (disk.push writes) (Function.update entries slot (some (name, number)))
  absent : ∀ index number, entries index ≠ some (name, number)
  vacant : entries slot = none
  unlisted : ¬ entries.Lists number
  positive : 0 < number
  bounded : number < layout.inodePageBlockCount
  inside : MetaWrites layout writes
  inodes : ∀ index < layout.inodePageBlockCount, inodeAt layout (disk.push writes) index =
    if index = number then inode else inodeAt layout disk index

/-- What a failed create leaves behind. -/
structure Uncreated (layout : NebulaLayout) (disk : Disk) (entries : Entries)
    (writes : List (Nat × Block)) : Prop where
  dir : DirOk layout (disk.push writes) entries
  inside : MetaWrites layout writes
  inodes : ∀ number < layout.inodePageBlockCount,
    inodeAt layout (disk.push writes) number = inodeAt layout disk number ∨
      ¬ entries.Lists number ∧ inodeAt layout (disk.push writes) number = .zero

instance (slots : Nat → DirEntry) (name : Name) : DecidablePred (HoldsName slots name) :=
  fun slot => inferInstanceAs (Decidable ((slots slot).used = true ∧ (slots slot).matches name =
    true))

/-- Why a name is not added to the directory, if it is not. -/
def addRefusal (layout : NebulaLayout) (disk : Disk) (name : Name) : Option Errno :=
  if name = [] then some .EINVAL
  else if dirNameMax ≤ name.length then some .ENAMETOOLONG
  else if ∃ slot < slotCount layout, HoldsName (slotAt layout disk) name slot then some .EEXIST
  else if ∀ slot < slotCount layout, (slotAt layout disk slot).used = true then some .ENOSPC
  else none

/-- Why a file is not created, if it is not. -/
def createRefusal (layout : NebulaLayout) (disk : Disk) (name : Name) : Option Errno :=
  if ∀ number < layout.inodePageBlockCount, 0 < number →
    (inodeAt layout disk number).type ≠ inodeTypeFree then some .ENOSPC
  else addRefusal layout disk name

/-- Nothing is written but zeros to a free inode. -/
def Traceless (layout : NebulaLayout) (disk : Disk) (writes : List (Nat × Block)) : Prop :=
  ∀ lba, (disk.push writes).content lba = disk.content lba ∨ ∃ number, 0 < number ∧
    number < layout.inodePageBlockCount ∧ (inodeAt layout disk number).type = inodeTypeFree ∧
    lba = layout.inodePageLba + number ∧ (disk.push writes).content lba = zeroBlock

namespace DirOk

variable {uuid : Bytes 16} {layout : NebulaLayout} {state : FsState} {entries : Entries}
  {name : Name}

theorem first_slot (dir : DirOk layout state.disk entries) (short : name.length < dirNameMax)
    (other : name ≠ [47]) {slot number : Nat} (holds : entries slot = some (name, number)) :
    FirstNamed (slotAt layout state.disk) name slot := by
  obtain ⟨-, below⟩ := dir.inside holds
  refine ⟨(dir.holdsName_iff short other below).mpr ⟨number, holds⟩, ?_⟩
  intro earlier less held
  obtain ⟨number', holds'⟩ := (dir.holdsName_iff short other (less.trans below)).mp held
  have := dir.distinct earlier slot name name number' number holds' holds (.inl rfl)
  omega

/-- A lookup finds the listed inode. -/
theorem lookup_listed (dir : DirOk layout state.disk entries) (ready : state.Ready uuid layout)
    {slot number : Nat} (holds : entries slot = some (name, number)) :
    (nebulaDirLookup name).run state = (.ok (UInt64.ofNat number), state) := by
  obtain ⟨short, other, -⟩ := dir.named slot name number holds
  obtain ⟨after, idles, ⟨found, below, first, ran⟩ | ⟨absent, -⟩ | ⟨bad, -⟩⟩ :=
    ready.placed.dirLookup_spec short
  · have same := first.unique (dir.first_slot short other holds)
    subst same
    rw [ran, idles.eq ready.faultFree, dir.stored found name number holds]
    rfl
  · exact absurd ((dir.holdsName_iff short other (dir.inside holds).2).mpr ⟨number, holds⟩)
      (absent slot (dir.inside holds).2)
  · exact absurd bad (FsState.not_faulty ready.faultFree)

/-- A lookup of the root finds inode 0. -/
theorem lookup_root (dir : DirOk layout state.disk entries) (ready : state.Ready uuid layout) :
    (nebulaDirLookup [47]).run state = (.ok 0, state) := by
  have many := ready.placed.sound.inodeCount_ge
  have count := ready.placed.sound.dirCount_eq
  have some : 0 < slotCount layout := by
    rw [slotCount]
    omega
  have root : FirstNamed (slotAt layout state.disk) [47] 0 :=
    ⟨dir.root_holdsName, fun earlier below => absurd below (Nat.not_lt_zero _)⟩
  obtain ⟨after, idles, ⟨found, -, first, ran⟩ | ⟨absent, -⟩ | ⟨bad, -⟩⟩ :=
    ready.placed.dirLookup_spec (show [47].length < dirNameMax by decide)
  · rw [ran, idles.eq ready.faultFree, first.unique root, dir.root]
    rfl
  · exact absurd dir.root_holdsName (absent 0 some)
  · exact absurd bad (FsState.not_faulty ready.faultFree)

theorem lookup_absent (dir : DirOk layout state.disk entries) (ready : state.Ready uuid layout)
    (short : name.length < dirNameMax) (other : name ≠ [47])
    (absent : ∀ slot number, entries slot ≠ some (name, number)) :
    (nebulaDirLookup name).run state = (.error .ENOENT, state) := by
  obtain ⟨after, idles, ⟨found, below, first, -⟩ | ⟨-, ran⟩ | ⟨bad, -⟩⟩ :=
    ready.placed.dirLookup_spec short
  · obtain ⟨number, holds⟩ := (dir.holdsName_iff short other below).mp first.holds
    exact absurd holds (absent found number)
  · rw [ran, idles.eq ready.faultFree]
  · exact absurd bad (FsState.not_faulty ready.faultFree)

theorem lookup_long (long : dirNameMax ≤ name.length) :
    (nebulaDirLookup name).run state = (.error .ENAMETOOLONG, state) := by
  rw [nebulaDirLookup, if_pos long, run_throw]

/-- An inode in use is opened as it is stored. -/
theorem open_used (dir : DirOk layout state.disk entries) (ready : state.Ready uuid layout)
    {number : Nat} (inside : number < layout.inodePageBlockCount)
    (live : (inodeAt layout state.disk number).type ≠ inodeTypeFree) {flags : UInt32}
    (access : flags &&& (openReadOnly ||| openWriteOnly) ≠ 0) :
    (nebulaFileOpen (UInt64.ofNat number) flags).run state =
      (.ok ⟨inodeAt layout state.disk number, flags, false⟩, state) := by
  have same := toNat_ofNat_inode ready.placed.sound inside
  obtain ⟨after, idles, ran | ⟨bad, -⟩⟩ := ready.placed.inodeRead_spec
    (show (UInt64.ofNat number).toNat < _ by omega) (by rw [same]; exact dir.valid number inside)
  · rw [same] at ran
    rw [nebulaFileOpen, if_neg access, run_bind_ok ran, if_neg live, run_pure,
      idles.eq ready.faultFree]
  · exact absurd bad (FsState.not_faulty ready.faultFree)

/-- A listed inode is opened as it is stored. -/
theorem open_listed (dir : DirOk layout state.disk entries) (ready : state.Ready uuid layout)
    {number : Nat} (listed : entries.Lists number) {flags : UInt32}
    (access : flags &&& (openReadOnly ||| openWriteOnly) ≠ 0) :
    (nebulaFileOpen (UInt64.ofNat number) flags).run state =
      (.ok ⟨inodeAt layout state.disk number, flags, false⟩, state) := by
  obtain ⟨slot, stored, holds⟩ := listed
  refine dir.open_used ready (dir.named slot stored number holds).2.2.2 ?_ access
  rw [(dir.listed slot stored number holds).1]
  exact inodeTypeFile_ne

theorem open_refused {number : UInt64} {flags : UInt32}
    (access : flags &&& (openReadOnly ||| openWriteOnly) = 0) :
    (nebulaFileOpen number flags).run state = (.error .EINVAL, state) := by
  rw [nebulaFileOpen, if_pos access, run_throw]

/-- Freeing an inode without faults. -/
theorem run_inodeFree (ready : state.Ready uuid layout) {inodeNum : UInt64}
    (inside : inodeNum.toNat < layout.inodePageBlockCount) (notRoot : inodeNum ≠ 0)
    (live : (inodeAt layout state.disk inodeNum.toNat).type ≠ inodeTypeFree) :
    (nebulaInodeFree inodeNum).run state = (.ok (), state.withDisk (state.disk.push
      [(layout.inodePageLba + inodeNum.toNat, zeroBlock)])) := by
  obtain ⟨after, idles, ran | ⟨bad, -⟩⟩ := ready.placed.inodeFree_spec inside notRoot live
  · rw [ran, idles.eq ready.faultFree]
  · exact absurd bad (FsState.not_faulty ready.faultFree)

theorem metaWrites_entry (sound : layout.Sound) {disk : Disk} {slot : Nat}
    (below : slot < slotCount layout) (entry : DirEntry) (delta : Int) :
    MetaWrites layout [slotWrite layout disk slot entry, headerWrite layout disk delta] := by
  have dirEq := sound.dir_eq
  have dataEq := sound.dataStart_eq
  have many := sound.inodeCount_ge
  have count := sound.dirCount_eq
  rw [slotCount] at below
  intro write member
  rcases List.mem_pair.mp member with rfl | rfl
  · simp only [slotWrite]
    omega
  · simp only [headerWrite]
    omega

theorem metaWrites_inode (sound : layout.Sound) {number : Nat}
    (inside : number < layout.inodePageBlockCount) (block : Block) :
    MetaWrites layout [(layout.inodePageLba + number, block)] := by
  have dirEq := sound.dir_eq
  have dataEq := sound.dataStart_eq
  intro write member
  rw [List.mem_singleton] at member
  subst member
  simp only
  omega

/-- A free inode is not listed. -/
theorem unlisted_of_free {disk : Disk} (dir : DirOk layout disk entries) {number : Nat}
    (free : (inodeAt layout disk number).type = inodeTypeFree) : ¬ entries.Lists number := by
  rintro ⟨slot, stored, holds⟩
  rw [(dir.listed slot stored number holds).1] at free
  exact inodeTypeFile_ne free

/-- Adding an entry without faults to the slots of a directory. -/
theorem run_dirAdd {before : Disk} (dir : DirOk layout before entries)
    (ready : state.Ready uuid layout) (slots : ∀ slot, slotAt layout state.disk slot =
      slotAt layout before slot) (name : Name) (inodeNum : UInt64) :
    (∃ slot < slotCount layout, (slotAt layout before slot).used = false ∧ name ≠ [] ∧
        name.length < dirNameMax ∧ name ≠ [47] ∧
        (∀ index number, entries index ≠ some (name, number)) ∧ addRefusal layout before name =
          none ∧
        (nebulaDirAdd name inodeNum dirFlagFile).run state =
          (.ok (), state.withDisk (state.disk.push
            [slotWrite layout state.disk slot (.for name inodeNum dirFlagFile),
              headerWrite layout state.disk 1]))) ∨
      ∃ error, addRefusal layout before name = some error ∧
        (nebulaDirAdd name inodeNum dirFlagFile).run state = (.error error, state) := by
  by_cases empty : name = []
  · refine .inr ⟨.EINVAL, by rw [addRefusal, if_pos empty], ?_⟩
    rw [nebulaDirAdd, if_pos empty, run_throw]
  by_cases long : dirNameMax ≤ name.length
  · refine .inr ⟨.ENAMETOOLONG, by rw [addRefusal, if_neg empty, if_pos long], ?_⟩
    rw [nebulaDirAdd, if_neg empty, if_pos long, run_throw]
  have short := not_le.mp long
  rw [addRefusal, if_neg empty, if_neg long, ← show slotAt layout state.disk =
    slotAt layout before from
    funext slots]
  obtain ⟨after, idles, ⟨taken, ran⟩ | ⟨absent, full, ran⟩ | ⟨bad, -⟩ |
    ⟨absent, slot, below, first, ran | ⟨bad, -⟩⟩⟩ :=
      ready.placed.dirAdd_spec empty short inodeNum dirFlagFile
  · exact .inr ⟨.EEXIST, by rw [if_pos taken], by rw [ran, idles.eq ready.faultFree]⟩
  · have fresh : ¬ ∃ slot < slotCount layout, HoldsName (slotAt layout state.disk) name slot :=
      not_exists.mpr fun slot both => absent slot both.1 both.2
    exact .inr ⟨.ENOSPC, by rw [if_neg fresh, if_pos full], by rw [ran, idles.eq ready.faultFree]⟩
  · exact absurd bad (FsState.not_faulty ready.faultFree)
  · have other : name ≠ [47] := by
      rintro rfl
      refine absent 0 (by omega) ?_
      rw [HoldsName, slots]
      exact dir.root_holdsName
    have fresh : ¬ ∃ slot < slotCount layout, HoldsName (slotAt layout state.disk) name slot :=
      not_exists.mpr fun slot both => absent slot both.1 both.2
    have room : ¬ ∀ slot < slotCount layout, (slotAt layout state.disk slot).used = true := by
      intro full
      have unused := first.unused
      rw [full slot below] at unused
      contradiction
    refine .inl ⟨slot, below, first.unused, empty, short, other, ?_, ?_, ?_⟩
    · intro index number holds
      have held := (dir.holdsName_iff short other (dir.inside holds).2).mpr ⟨number, holds⟩
      exact absent index (dir.inside holds).2 (by rwa [HoldsName, slots])
    · rw [if_neg fresh, if_neg room]
    · rw [ran, idles.eq ready.faultFree]
  · obtain ⟨fails, member, -⟩ := bad
    simp [ready.faultFree] at member

/-- A create without faults: the file is listed, or everything is as it was. -/
theorem create_spec (dir : DirOk layout state.disk entries) (ready : state.Ready uuid layout)
    (text : ∀ byte ∈ name, byte ≠ 0) (mode : UInt32) (now : UInt64) :
    (∃ slot number writes, Created layout state.disk entries name slot number
          (freshInode number inodeTypeFile mode now) writes ∧ name ≠ [] ∧ name.length < dirNameMax ∧
        (dirHeaderAt layout (state.disk.push writes)).magic =
          (dirHeaderAt layout state.disk).magic ∧
        createRefusal layout state.disk name = none ∧ (nebulaFsCreate name mode now).run state =
          (.ok ⟨freshInode number inodeTypeFile mode now, openReadWrite, false⟩,
            state.withDisk (state.disk.push writes))) ∨
      ∃ error writes, Uncreated layout state.disk entries writes ∧
        dirHeaderAt layout (state.disk.push writes) = dirHeaderAt layout state.disk ∧
        inodeAt layout (state.disk.push writes) 0 = inodeAt layout state.disk 0 ∧
        Traceless layout state.disk writes ∧ createRefusal layout state.disk name = some error ∧
        (nebulaFsCreate name mode now).run state =
          (.error error, state.withDisk (state.disk.push writes)) := by
  have sound := ready.placed.sound
  obtain ⟨after, idles, ⟨number, positive, inside, free, ran | ⟨bad, -⟩⟩ |
    ⟨error, ran, bad | ⟨rfl, full⟩⟩⟩ :=
    ready.placed.fileCreate_spec mode now
  · rw [idles.eq ready.faultFree] at ran
    have refusal : createRefusal layout state.disk name = addRefusal layout state.disk name := by
      rw [createRefusal, if_neg]
      exact fun full => full number inside positive free
    have unlisted := dir.unlisted_of_free free
    have numbered := toNat_ofNat_inode sound inside
    generalize made : freshInode number inodeTypeFile mode now = inode at ran
    have named : inode.inodeNum = UInt64.ofNat number := by
      rw [← made]
      rfl
    have empty : ∀ index, (inode.extents index).sizeBlocks = 0 := by
      rw [← made]
      exact fun _ => ExtentMapEntry.sizeBlocks_zero
    have live : inode.type = inodeTypeFile := by
      rw [← made]
      rfl
    have valid : inode.Valid := by
      rw [← made]
      exact freshInode_valid _ _ _ _
    have ready' : (state.withDisk (state.disk.push [inodeWrite layout number inode])).Ready
      uuid layout := ready.withDisk rfl
    have slots : ∀ slot, slotAt layout (state.disk.push [inodeWrite layout number inode]) slot =
      slotAt layout state.disk slot := fun slot => slotAt_inodeWrite sound inside _ slot
    have inodes := @inodeAt_store layout state.disk number
    have header : dirHeaderAt layout (state.disk.push [inodeWrite layout number inode]) =
      dirHeaderAt layout state.disk := dirHeaderAt_inodeWrite sound inside _
    rw [nebulaFsCreate, run_bind_ok ran, run_attempt_bind, named]
    rcases dir.run_dirAdd ready' slots name (UInt64.ofNat number) with
      ⟨slot, below, vacant, some, short, other, absent, unrefused, ran'⟩ | ⟨error, refused, ran'⟩
    · left
      simp only [ran', run_pure, FsState.disk_withDisk, Disk.push_push]
      refine ⟨slot, number, _, ⟨?_, absent, dir.entries_eq_none vacant, unlisted,
        positive, inside, ?_, ?_⟩, some, short, ?_, refusal.trans unrefused, by rw [made]; rfl⟩
      · rw [← Disk.push_push]
        refine dir.add sound vacant below short other text absent positive inside unlisted live
          (by rw [named, numbered]) valid ?_ ?_ ?_
        · intro index
          rw [slotAt_entryWrites, slots]
        · intro index bounded
          rw [inodeAt_entryWrites sound bounded, inodes]
        · rw [dirHeaderAt_entryWrites, header]
      · exact (metaWrites_inode sound inside _).append (metaWrites_entry sound below _ _)
      · intro index bounded
        rw [made, ← Disk.push_push, inodeAt_entryWrites sound bounded, inodes]
      · rw [← Disk.push_push, dirHeaderAt_entryWrites, header, DirPageHeader.magic_adjust]
    · right
      have freed : ((nebulaFileDelete ⟨inode, openReadWrite, false⟩).run (state.withDisk
          (state.disk.push [inodeWrite layout number inode]))).2 = state.withDisk (state.disk.push
            [inodeWrite layout number inode, (layout.inodePageLba + number, zeroBlock)]) := by
        rw [nebulaFileDelete_empty empty, named, run_inodeFree ready']
        · rw [numbered, FsState.disk_withDisk, Disk.push_push]
          rfl
        · rw [numbered]
          exact inside
        · intro zero
          rw [zero] at numbered
          have : (0 : UInt64).toNat = 0 := rfl
          omega
        · rw [numbered, FsState.disk_withDisk, inodes, if_pos rfl, live]
          exact inodeTypeFile_ne
      simp only [ran', run_attempt_bind, run_throw, freed]
      have cleared : ∀ index, inodeAt layout (state.disk.push
          [inodeWrite layout number inode, (layout.inodePageLba + number, zeroBlock)]) index =
            if index = number then .zero else inodeAt layout state.disk index := by
        intro index
        rw [← List.singleton_append, ← Disk.push_push, inodeAt_inodeWrite, inodes,
          NebulaInode.layout_symm_zeroBlock]
        split_ifs <;> rfl
      have header' : dirHeaderAt layout (state.disk.push
          [inodeWrite layout number inode, (layout.inodePageLba + number, zeroBlock)]) =
            dirHeaderAt layout state.disk := by
        rw [← List.singleton_append, ← Disk.push_push, dirHeaderAt_inodeWrite sound inside, header]
      refine ⟨error, _, ⟨?_, ?_, ?_⟩, header', by rw [cleared, if_neg positive.ne], ?_,
        refusal.trans refused, rfl⟩
      · refine dir.setInode ?_ (fun index _ => cleared index) header' (fun live => absurd rfl live)
          (fun listed => absurd listed unlisted) fun _ _ => rfl
        intro slot
        rw [← List.singleton_append, ← Disk.push_push, slotAt_inodeWrite sound inside, slots]
      · exact (metaWrites_inode sound inside _).append (metaWrites_inode sound inside _)
      · intro index bounded
        rw [cleared]
        split_ifs with here
        · exact .inr ⟨by rwa [here], rfl⟩
        · exact .inl rfl
      · intro lba
        by_cases here : lba = layout.inodePageLba + number
        · refine .inr ⟨number, positive, inside, free, here, ?_⟩
          rw [here, ← List.singleton_append, ← Disk.push_push, content_push_single]
        · left
          rw [content_push_of_ne]
          simpa [inodeWrite] using Ne.symm here
  · exact absurd bad (FsState.not_faulty ready.faultFree)
  · exact absurd bad (FsState.not_faulty ready.faultFree)
  · have refused : createRefusal layout state.disk name = some .ENOSPC := by
      rw [createRefusal, if_pos]
      exact fun number inside positive => full number positive inside
    refine .inr ⟨.ENOSPC, [], ⟨?_, ?_, ?_⟩, by rw [Disk.push_nil], by rw [Disk.push_nil], ?_,
      refused, ?_⟩
    · rwa [Disk.push_nil]
    · intro write member
      simp at member
    · intro number _
      rw [Disk.push_nil]
      exact .inl rfl
    · intro lba
      rw [Disk.push_nil]
      exact .inl rfl
    · rw [nebulaFsCreate, run_bind_error ran, idles.eq ready.faultFree, Disk.push_nil,
        FsState.withDisk_self]

/-- Clearing the entry of a listed file without faults. -/
theorem run_dirRemove (dir : DirOk layout state.disk entries) (ready : state.Ready uuid layout)
    {slot number : Nat} (holds : entries slot = some (name, number)) :
    (nebulaDirRemove name).run state = (.ok (), state.withDisk (state.disk.push
      [slotWrite layout state.disk slot .zero, headerWrite layout state.disk (-1)])) := by
  obtain ⟨short, other, -⟩ := dir.named slot name number holds
  have first := dir.first_slot short other holds
  obtain ⟨after, idles, ⟨absent, -⟩ | ⟨bad, -⟩ | ⟨found, -, first', ran | ⟨bad, -⟩⟩⟩ :=
    ready.placed.dirRemove_spec short
  · exact absurd first.holds (absent slot (dir.inside holds).2)
  · exact absurd bad (FsState.not_faulty ready.faultFree)
  · rw [ran, idles.eq ready.faultFree, first'.unique first]
  · obtain ⟨fails, member, -⟩ := bad
    simp [ready.faultFree] at member

/-- A delete of a listed file clears its entry, and goes on to delete the file as it is stored. -/
theorem delete_listed (dir : DirOk layout state.disk entries) (ready : state.Ready uuid layout)
    {slot number : Nat} (holds : entries slot = some (name, number)) :
    (nebulaFsDelete name).run state =
      (nebulaFileDelete ⟨inodeAt layout state.disk number, openReadWrite, false⟩).run
        (state.withDisk (state.disk.push
          [slotWrite layout state.disk slot .zero, headerWrite layout state.disk (-1)])) := by
  have inside := (dir.named slot name number holds).2.2.2
  have sound := ready.placed.sound
  have numbered := toNat_ofNat_inode sound inside
  have ready' : (state.withDisk (state.disk.push [slotWrite layout state.disk slot .zero,
    headerWrite layout state.disk (-1)])).Ready uuid layout := ready.withDisk rfl
  have kept := @inodeAt_entryWrites layout state.disk sound number inside slot .zero (-1)
  have live : ¬ (inodeAt layout state.disk number).type = inodeTypeFree := by
    rw [(dir.listed slot name number holds).1]
    exact inodeTypeFile_ne
  rw [nebulaFsDelete, run_bind_ok (dir.lookup_listed ready holds),
    run_bind_ok (dir.run_dirRemove ready holds)]
  obtain ⟨after, idles, ran | ⟨bad, -⟩⟩ := ready'.placed.inodeRead_spec
    (show (UInt64.ofNat number).toNat < _ by omega)
    (by rw [numbered, FsState.disk_withDisk, kept]; exact dir.valid number inside)
  · rw [numbered, FsState.disk_withDisk, kept, idles.eq ready'.faultFree] at ran
    rw [nebulaFileOpen, if_neg (by decide), run_bind, run_bind_ok ran, if_neg live, run_pure]
  · exact absurd bad (FsState.not_faulty ready'.faultFree)

/-- The device after the entry, the header and the inode of a listed file are cleared. -/
def unlistDisk (layout : NebulaLayout) (disk : Disk) (slot number : Nat) : Disk :=
  (disk.push [slotWrite layout disk slot .zero, headerWrite layout disk (-1)]).push
    [(layout.inodePageLba + number, zeroBlock)]

theorem inodeAt_unlistDisk {disk : Disk} (sound : layout.Sound) (slot number : Nat) {index : Nat}
    (inside : index < layout.inodePageBlockCount) :
    inodeAt layout (unlistDisk layout disk slot number) index =
      if index = number then .zero else inodeAt layout disk index := by
  rw [unlistDisk, inodeAt_inodeWrite, inodeAt_entryWrites sound inside,
    NebulaInode.layout_symm_zeroBlock]

theorem unlist {disk : Disk} (dir : DirOk layout disk entries) (sound : layout.Sound)
    {slot number : Nat} (holds : entries slot = some (name, number)) :
    DirOk layout (unlistDisk layout disk slot number) (Function.update entries slot none) := by
  have inside := (dir.named slot name number holds).2.2.2
  refine dir.remove holds ?_ (fun index bounded => inodeAt_unlistDisk sound slot number bounded) ?_
  · intro index
    rw [unlistDisk, slotAt_inodeWrite sound inside, slotAt_entryWrites]
  · rw [unlistDisk, dirHeaderAt_inodeWrite sound inside, dirHeaderAt_entryWrites]

end DirOk

end MiniFs
